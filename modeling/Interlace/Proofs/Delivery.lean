import Interlace.Proofs.Calls
import Interlace.Proofs.Closings
import Interlace.Showcase

/-!
# The outcome of a run reaches its continuation once

A run that ends hands its outcome to its continuation inside of the call that set it going last.
Only an uncaught error of a top-level run that never parked is kept from it, and then the call
that started the run returns with the error.
-/

namespace Interlace

variable {b : Behaviour}

theorem History.Sound.steers_once {h : History b} (hs : h.Sound) {job : Job b} {rest : List (Job b)}
    (hAgenda : h.machine.agenda = job :: rest) {p : Place} (hSteers : job.steers p = true) :
    ∀ other ∈ rest, other.steers p = false := by
  have hSteering : h.machine.steering p = job :: rest.filter (Job.steers p) := by
    simp [Machine.steering, hAgenda, hSteers]
  have hNone : rest.filter (Job.steers p) = [] := by
    have hFits := hs.fits p (hs.ne_nil_of_steers job (by simp [hAgenda]) hSteers)
    rw [Machine.view, hSteering] at hFits
    generalize h.machine.nodes.find? p = node at hFits
    cases hFits with
    | vacant _ hNil | parked _ _ _ hNil | gathering _ _ _ hNil => cases hNil
    | driving _ _ _ hOne | invoking _ _ _ hOne | notified _ _ _ _ hOne =>
      exact (List.cons.inj hOne).2
  intro other hOther
  exact Bool.eq_false_iff.mpr (List.filter_eq_nil_iff.mp hNone other hOther)

namespace Schedule

variable (s : Schedule b) (world : b.World)

/-- The outcome with which the run at `p` ends at move `l` is kept from its continuation. -/
def Withheld (l : Nat) (p : Place) (o : Outcome) : Prop :=
  ∃ n e, p = [n] ∧ o = .error e ∧ e.isUncaught = true ∧ ∀ j < l, ¬ s.Parks world j p

inductive Standing (i : Nat) (p : Place) (k : Nat) : Prop where
  | going {c : Nat} {r : Run b} {token : Job b} (hCall : s.LastCall world i p c k)
      (hPending : s.Pending world c k token) (hSteers : token.steers p = true)
      (hFind : (s.after world k).machine.nodes.find? p = some (.run r))
      (hPhase : ∀ u, r.phase ≠ .parked u)
      (hParked : r.wasParked = true ↔ ∃ l < k, s.Parks world l p)
  | parked {r : Run b} {u : Uptake}
      (hFind : (s.after world k).machine.nodes.find? p = some (.run r))
      (hPhase : r.phase = .parked u)
      (hWas : r.wasParked = true) (hParked : ∃ l < k, s.Parks world l p)
  | returning {c l : Nat} {o : Outcome} (hCall : s.LastCall world i p c l)
      (hEnds : s.Ends world l p o) (hl : l < k) (hOpen : ¬ s.Withheld world l p o)
      (hPending : s.Pending world c k (.deliver p o))
  | called {c l d : Nat} {o : Outcome} (hCall : s.LastCall world i p c l)
      (hEnds : s.Ends world l p o) (hl : l < d) (hd : d < k) (hOpen : ¬ s.Withheld world l p o)
      (hInside : s.Inside world c d) (hJob : s.job? world d = some (.deliver p o))
  | escaped {l n : Nat} {e : Failure} (hp : p = [n]) (hEnds : s.Ends world l p (.error e))
      (hl : l < k) (hUncaught : e.isUncaught = true) (hParks : ∀ j < l, ¬ s.Parks world j p)
      (hReturns : s.Returns world i (l + 1)) (hLog : .escaped n e ∈ (s.after world k).log)
  | abandoned (hFind : (s.after world k).machine.nodes.find? p = none)
      (hGone : s.Gone world k p)
      (hEnds : ∀ l < k, ∀ o, ¬ s.Ends world l p o)

variable {s world}

theorem LastCall.succ {i c k : Nat} {p : Place} (h : s.LastCall world i p c k)
    (hParks : ¬ s.Parks world k p) (hWakes : ¬ s.Wakes world k p) :
    s.LastCall world i p c (k + 1) := by
  refine ⟨Nat.lt_succ_of_lt h.before, ?_, fun l hcl hlk => ?_⟩
  · rcases h.kind with ⟨hStart, hNever⟩ | ⟨hWakes, j, hj, hParked⟩
    · refine Or.inl ⟨hStart, fun l hl => ?_⟩
      rcases Nat.lt_succ_iff_lt_or_eq.mp hl with hl | rfl
      · exact hNever l hl
      · exact hParks
    · exact Or.inr ⟨hWakes, j, Nat.lt_succ_of_lt hj, hParked⟩
  · rcases Nat.lt_succ_iff_lt_or_eq.mp hlk with hlk | rfl
    · exact h.last l hcl hlk
    · exact hWakes

theorem parked_succ {k : Nat} {p : Place} (hParks : ¬ s.Parks world k p) :
    (∃ l < k + 1, s.Parks world l p) ↔ ∃ l < k, s.Parks world l p := by
  constructor
  · rintro ⟨l, hl, hParked⟩
    rcases Nat.lt_succ_iff_lt_or_eq.mp hl with hl | rfl
    · exact ⟨l, hl, hParked⟩
    · exact absurd hParked hParks
  · rintro ⟨l, hl, hParked⟩
    exact ⟨l, Nat.lt_succ_of_lt hl, hParked⟩

theorem not_wakes {k : Nat} {p : Place} {r : Run b}
    (hFind : (s.after world k).machine.nodes.find? p = some (.run r))
    (hPhase : ∀ u, r.phase ≠ .parked u) : ¬ s.Wakes world k p := by
  rintro ⟨r', u, o, -, hFind', hPhase'⟩
  rw [hFind] at hFind'
  cases hFind'
  exact hPhase u hPhase'

theorem not_parks_of_job {k : Nat} {p : Place} {job : Job b} (hJob : s.job? world k = some job)
    (hCheck : job ≠ .check p) : ¬ s.Parks world k p := by
  rintro ⟨hJob', -⟩
  rw [hJob] at hJob'
  exact hCheck (Option.some.inj hJob')

theorem not_ends_of_find? {k : Nat} {p : Place} {node : Node b}
    (hFind : (s.after world k).machine.nodes.find? p = some node) :
    ∀ l < k, ∀ o, ¬ s.Ends world l p o := by
  intro l hl o hEnds
  rw [find?_of_ends hEnds hl] at hFind
  cases hFind

namespace Standing

variable {i k : Nat} {p : Place}

theorem first (hStart : s.Starts world i p) : s.Standing world i p (i + 1) := by
  obtain ⟨recipe, args, limit, hLimit, hJob⟩ := hStart
  obtain ⟨rest, hAgenda, hAfter⟩ := s.after_succ_of_job world hJob
  obtain ⟨-, hPut, hNode⟩ := does_succ hAfter (History.does_start hLimit rest)
  have hNever : ∀ l < i + 1, ¬ s.Parks world l p := by
    rintro l hl ⟨hCheck, r, u, hFind, -⟩
    have hDormant := dormant_of_job hJob (p := p) (by simp [Job.dormant])
    rw [find?_of_dormant (Nat.le_of_lt_succ hl) hDormant] at hFind
    cases hFind
  have hCall : s.LastCall world i p i (i + 1) :=
    ⟨Nat.lt_succ_self i, Or.inl ⟨rfl, hNever⟩, fun l hil hli => by omega⟩
  have hPending : s.Pending world i (i + 1) (.drive p .start) :=
    pending_first hAgenda [] hPut
  refine .going hCall hPending (by simp [Job.steers]) hNode (by simp) ?_
  simp only [Bool.false_eq_true, false_iff, not_exists, not_and]
  exact hNever

theorem goes_on {c : Nat} {r r' : Run b} {token : Job b} (hCall : s.LastCall world i p c k)
    (hFind : (s.after world k).machine.nodes.find? p = some (.run r))
    (hPhase : ∀ u, r.phase ≠ .parked u) (hParked : r.wasParked = true ↔ ∃ l < k, s.Parks world l p)
    (hParks : ¬ s.Parks world k p) (hPending : s.Pending world c (k + 1) token)
    (hSteers : token.steers p = true)
    (hFind' : (s.after world (k + 1)).machine.nodes.find? p = some (.run r'))
    (hPhase' : ∀ u, r'.phase ≠ .parked u) (hWas : r'.wasParked = r.wasParked) :
    s.Standing world i p (k + 1) := by
  refine .going (hCall.succ hParks (not_wakes hFind hPhase)) hPending hSteers hFind' hPhase' ?_
  rw [hWas, hParked, parked_succ hParks]

theorem going_behind {c : Nat} {r : Run b} {token : Job b} (hCall : s.LastCall world i p c k)
    (hSteers : token.steers p = true)
    (hFind : (s.after world k).machine.nodes.find? p = some (.run r))
    (hPhase : ∀ u, r.phase ≠ .parked u) (hParked : r.wasParked = true ↔ ∃ l < k, s.Parks world l p)
    (hPending : s.Pending world c (k + 1) token)
    (hBehind : ∀ first rest, s.job? world k = some first →
      (s.after world k).machine.agenda = first :: rest → token ∈ rest) :
    s.Standing world i p (k + 1) := by
  rcases s.after_succ world k with ⟨job, rest, hJob, hAgenda, hAfter⟩ | ⟨hNone, put, hAdded⟩
  case inr =>
    have hParks : ¬ s.Parks world k p := by
      rintro ⟨hJob, -⟩
      rw [hNone] at hJob
      cases hJob
    exact goes_on hCall hFind hPhase hParked hParks hPending hSteers (by rw [hAdded.nodes, hFind])
      hPhase rfl
  have hs := s.sound world k
  have hOther : job.steers p = false := by
    refine Bool.eq_false_iff.mpr fun hJobSteers => ?_
    have := hs.steers_once hAgenda hJobSteers token (hBehind job rest hJob hAgenda)
    rw [hSteers] at this
    cases this
  have hParks : ¬ s.Parks world k p := by
    refine not_parks_of_job hJob ?_
    rintro rfl
    simp [Job.steers] at hOther
  cases hs.run_step hAgenda hFind with
  | elsewhere hSite =>
    exact goes_on hCall hFind hPhase hParked hParks hPending hSteers
      (by rw [hAfter, History.find?_afterJob hSite, hFind]) hPhase rfl
  | next | await | finish | escape => simp [Job.steers] at hOther
  | park | resume | giveUp => simp [Job.steers] at hOther
  | mail _ hDoes | lose _ hDoes =>
    have hFind' := hDoes.node
    rw [← hAfter] at hFind'
    exact goes_on hCall hFind hPhase hParked hParks hPending hSteers hFind' (by simp) rfl
  | wake hParkedPhase | abandon hParkedPhase => exact absurd hParkedPhase (hPhase _)

theorem abandoned_now {r : Run b} {job : Job b}
    (hFind : (s.after world k).machine.nodes.find? p = some (.run r))
    (hFind' : (s.after world (k + 1)).machine.nodes.find? p = none)
    (hGone : .drop p ∈ (s.after world (k + 1)).machine.agenda)
    (hJob : s.job? world k = some job) (hDrive : ∀ x, job ≠ .drive p x) :
    s.Standing world i p (k + 1) := by
  refine .abandoned hFind' (Or.inl hGone) fun l hl o hEnds => ?_
  rcases Nat.lt_succ_iff_lt_or_eq.mp hl with hl | rfl
  · exact not_ends_of_find? hFind l hl o hEnds
  · obtain ⟨x, r', hJob', -⟩ := hEnds
    rw [hJob] at hJob'
    exact hDrive x (Option.some.inj hJob')

theorem going_done {c : Nat} {r : Run b} {token : Job b} {rest : List (Job b)}
    (hCall : s.LastCall world i p c k) (hSteers : token.steers p = true)
    (hFind : (s.after world k).machine.nodes.find? p = some (.run r))
    (hPhase : ∀ u, r.phase ≠ .parked u) (hParked : r.wasParked = true ↔ ∃ l < k, s.Parks world l p)
    (hClosing : s.Closing world c k token rest) (hJob : s.job? world k = some token)
    (hAfter : s.after world (k + 1) = (s.after world k).afterJob token rest) :
    s.Standing world i p (k + 1) := by
  have hs := s.sound world k
  have hAgenda := hClosing.2.2
  have hDrive : ∀ {x}, token = .drive p x → ¬ s.Parks world k p := by
    rintro x rfl
    exact not_parks_of_job hJob (by simp)
  cases hs.run_step hAgenda hFind with
  | elsewhere hSite => cases token <;> simp_all [Job.steers, Job.site]
  | @next x y hDriven hTurn hDoes =>
    obtain ⟨-, hPut, hNode⟩ := does_succ hAfter hDoes
    exact goes_on hCall hFind hPhase hParked (hDrive rfl) (hClosing.pending [] hPut)
      (by simp [Job.steers]) hNode hPhase rfl
  | await hDriven hTurn hDoes =>
    obtain ⟨-, hPut, hNode⟩ := does_succ hAfter hDoes
    exact goes_on hCall hFind hPhase hParked (hDrive rfl) (hClosing.pending [_] hPut)
      (by simp [Job.steers]) hNode (by simp) rfl
  | @finish x o hDriven hTurn hEscapes hDoes =>
    obtain ⟨-, hPut, -⟩ := does_succ hAfter hDoes
    refine .returning hCall ⟨x, r, hJob, hFind, hTurn⟩ (Nat.lt_succ_self k) ?_
      (hClosing.pending [] hPut)
    rintro ⟨n, e, hp, ho, hUncaught, hNever⟩
    refine hEscapes ⟨?_, n, e, hp, ho, hUncaught⟩
    refine Bool.eq_false_iff.mpr fun hWas => ?_
    obtain ⟨l, hl, hParks⟩ := hParked.mp hWas
    exact hNever l hl hParks
  | @escape x n e hp hDriven hTurn hWas hUncaught hDoes =>
    obtain ⟨hLog, hPut, -⟩ := does_succ hAfter hDoes
    have hNever : ∀ j < k, ¬ s.Parks world j p := by
      intro j hj hParks
      have := hParked.mpr ⟨j, hj, hParks⟩
      rw [hWas] at this
      cases this
    obtain rfl : c = i := by
      rcases hCall.kind with ⟨hStart, -⟩ | ⟨-, j, hj, hParks⟩
      · exact hStart
      · exact absurd hParks (hNever j hj)
    exact .escaped hp ⟨x, r, hJob, hFind, hTurn⟩ (Nat.lt_succ_self k) hUncaught hNever
      (hClosing.returns hPut) (by simp [hLog])
  | @park u hInvoking hDoes =>
    obtain ⟨-, -, hNode⟩ := does_succ hAfter hDoes
    exact .parked hNode rfl rfl ⟨k, Nat.lt_succ_self k, hJob, r, u, hFind, hInvoking⟩
  | @resume u o hInvoking hDoes =>
    obtain ⟨-, hPut, hNode⟩ := does_succ hAfter hDoes
    have hParks : ¬ s.Parks world k p := by
      rintro ⟨-, r', u', hFind', hEmpty⟩
      rw [hFind] at hFind'
      cases hFind'
      rw [hInvoking] at hEmpty
      cases hEmpty
    exact goes_on hCall hFind hPhase hParked hParks (hClosing.pending [] hPut)
      (by simp [Job.steers])
      hNode (by simp) rfl
  | giveUp hInvoking hDoes =>
    obtain ⟨-, hPut, hNode⟩ := does_succ hAfter hDoes
    exact abandoned_now hFind hNode (by simp [hPut]) hJob (by simp)
  | mail | wake | lose | abandon => simp [Job.steers] at hSteers

theorem parked_next {r : Run b} {u : Uptake}
    (hFind : (s.after world k).machine.nodes.find? p = some (.run r)) (hPhase : r.phase = .parked u)
    (hWas : r.wasParked = true) (hParked : ∃ l < k, s.Parks world l p) :
    s.Standing world i p (k + 1) := by
  obtain ⟨l, hl, hParks⟩ := hParked
  have hParked' : ∃ l < k + 1, s.Parks world l p := ⟨l, Nat.lt_succ_of_lt hl, hParks⟩
  rcases s.after_succ world k with ⟨job, rest, hJob, hAgenda, hAfter⟩ | ⟨-, put, hAdded⟩
  case inr => exact .parked (by rw [hAdded.nodes, hFind]) hPhase hWas hParked'
  cases (s.sound world k).run_step hAgenda hFind with
  | elsewhere hSite =>
    exact .parked (by rw [hAfter, History.find?_afterJob hSite, hFind]) hPhase hWas hParked'
  | next hDriven | await hDriven | finish hDriven | escape _ hDriven =>
    rw [hDriven.phase] at hPhase
    cases hPhase
  | park hInvoking | resume hInvoking | giveUp hInvoking | mail hInvoking | lose hInvoking =>
    rw [hInvoking] at hPhase
    cases hPhase
  | @wake u o hPhase' hDoes =>
    obtain ⟨-, hPut, hNode⟩ := does_succ hAfter hDoes
    have hWakes : s.Wakes world k p := ⟨r, u, o, hJob, hFind, hPhase'⟩
    refine .going ⟨Nat.lt_succ_self k, Or.inr ⟨hWakes, hParked'⟩, fun l hkl hlk => by omega⟩
      (pending_first hAgenda [] hPut) (by simp [Job.steers]) hNode (by simp) ?_
    simp only [hWas, true_iff]
    exact hParked'
  | abandon hPhase' hDoes =>
    obtain ⟨-, hPut, hNode⟩ := does_succ hAfter hDoes
    exact abandoned_now hFind hNode (by simp [hPut]) hJob (by simp)

theorem succ (h : s.Standing world i p k) : s.Standing world i p (k + 1) := by
  cases h with
  | going hCall hPending hSteers hFind hPhase hParked =>
    rcases hPending.cases with ⟨hPending, hBehind⟩ | ⟨rest, hClosing, hJob, hAfter⟩
    · exact going_behind hCall hSteers hFind hPhase hParked hPending hBehind
    · exact going_done hCall hSteers hFind hPhase hParked hClosing hJob hAfter
  | parked hFind hPhase hWas hParked => exact parked_next hFind hPhase hWas hParked
  | returning hCall hEnds hl hOpen hPending =>
    rcases hPending.cases with ⟨hPending, -⟩ | ⟨rest, hClosing, hJob, -⟩
    · exact .returning hCall hEnds (Nat.lt_succ_of_lt hl) hOpen hPending
    · exact .called hCall hEnds hl (Nat.lt_succ_self k) hOpen hClosing.inside hJob
  | called hCall hEnds hl hd hOpen hInside hJob =>
    exact .called hCall hEnds hl (Nat.lt_succ_of_lt hd) hOpen hInside hJob
  | escaped hp hEnds hl hUncaught hParks hReturns hLog =>
    exact .escaped hp hEnds (Nat.lt_succ_of_lt hl) hUncaught hParks hReturns
      (s.mem_log world (Nat.le_succ k) hLog)
  | abandoned hFind hGone hEnds =>
    have hFind' := (find?_of_gone (Nat.le_succ k) hGone.returned hFind).1
    refine .abandoned hFind' hGone.succ fun l hl o hEnds' => ?_
    rcases Nat.lt_succ_iff_lt_or_eq.mp hl with hl | rfl
    · exact hEnds l hl o hEnds'
    · obtain ⟨x, r, -, hRun, -⟩ := hEnds'
      rw [hFind] at hRun
      cases hRun

end Standing

theorem standing {i k : Nat} {p : Place} (hStart : s.Starts world i p) (hik : i < k) :
    s.Standing world i p k := by
  -- By induction on the moves since the start.
  induction hik with
  | refl => exact .first hStart
  | step _ ih => exact ih.succ

/-! ## Delivery -/

variable (s world)

/-- What the run at `p`, which move `i` started, keeps to when it hands over its outcome. A
top-level run returns an error just if it never parked and ended with it, uncaught; then it returns
at once, and its continuation is never called. Any other outcome is handed over once, inside of the
call that set the run going last: before this call is over, the outcome is about to be handed over
or has been. Nothing else is handed over, and an error value never as a success. A nested run keeps
nothing back. -/
structure Delivery (i : Nat) (p : Place) : Prop where
  escapes : ∀ n e k, p = [n] → (.escaped n e ∈ (s.after world k).log ↔
    ∃ l < k, s.Ends world l p (.error e) ∧ e.isUncaught = true ∧ ∀ j < l, ¬ s.Parks world j p)
  returns : ∀ l o, s.Ends world l p o → s.Withheld world l p o →
    s.Returns world i (l + 1) ∧ ∀ k, (s.after world k).calls p = []
  delivers : ∀ l o, s.Ends world l p o → ¬ s.Withheld world l p o →
    (∀ n e k, p = [n] → .escaped n e ∉ (s.after world k).log) ∧
      ∃ c, s.LastCall world i p c l ∧ ∀ k, l < k →
      (s.Inside world c k ∧ .deliver p o ∈ (s.after world k).machine.agenda ∧
        (s.after world k).calls p = []) ∨
      (∃ d, l < d ∧ d < k ∧ s.Inside world c d ∧ s.job? world d = some (.deliver p o)) ∧
        (s.after world k).calls p = [o]
  only : ∀ k o, o ∈ (s.after world k).calls p →
    ∃ l < k, s.Ends world l p o ∧ ¬ s.Withheld world l p o
  plain : ∀ k problem, .ok (.error problem) ∉ (s.after world k).calls p
  nested : 2 ≤ p.length → ∀ l o, ¬ s.Withheld world l p o

variable {s world}

theorem LastCall.unique {i c c' l : Nat} {p : Place} (h : s.LastCall world i p c l)
    (h' : s.LastCall world i p c' l) : c = c' := by
  rcases h.kind with ⟨hStart, hNever⟩ | ⟨hWakes, j, hj, hParks⟩
  · rcases h'.kind with ⟨hStart', -⟩ | ⟨-, j, hj, hParks⟩
    · rw [hStart, hStart']
    · exact absurd hParks (hNever j hj)
  · rcases h'.kind with ⟨-, hNever⟩ | ⟨hWakes', -⟩
    · exact absurd hParks (hNever j hj)
    · rcases Nat.lt_trichotomy c c' with hcc' | hcc' | hcc'
      · exact absurd hWakes' (h.last c' hcc' h'.before)
      · exact hcc'
      · exact absurd hWakes (h'.last c hcc' h.before)

theorem lt_of_closed {i k : Nat} {p : Place} (hStart : s.Starts world i p)
    (hClosed : p ∈ (s.after world k).closed) : i < k := by
  obtain ⟨recipe, args, limit, -, hJob⟩ := hStart
  by_contra hki
  have hTouched := (s.kept world (Nat.le_of_not_lt hki)).touched p
    (Or.inr (List.mem_append_right _ hClosed))
  exact not_dormant_of_touched hTouched (dormant_of_job hJob (by simp [Job.dormant]))

theorem lt_of_ends {i l : Nat} {p : Place} {o : Outcome} (hStart : s.Starts world i p)
    (hEnds : s.Ends world l p o) : i < l := by
  obtain ⟨recipe, args, limit, -, hJob⟩ := hStart
  obtain ⟨x, r, -, hFind, -⟩ := hEnds
  by_contra hli
  have hDormant : p ∈ (s.after world i).machine.dormant :=
    dormant_of_job hJob (by simp [Job.dormant])
  rw [find?_of_dormant (Nat.le_of_not_lt hli) hDormant] at hFind
  cases hFind

theorem standing_of_closed {i k : Nat} {p : Place} (hStart : s.Starts world i p) {event : Event b}
    (hEvent : event ∈ (s.after world k).log) (hClosed : event.closed? = some p) :
    (∃ c l d o, s.LastCall world i p c l ∧ s.Ends world l p o ∧ l < d ∧ d < k ∧
        ¬ s.Withheld world l p o ∧ event = .called p o) ∨
      (∃ l n e, p = [n] ∧ s.Ends world l p (.error e) ∧ l < k ∧ e.isUncaught = true ∧
        (∀ j < l, ¬ s.Parks world j p) ∧ event = .escaped n e) ∨ event = .dropped p := by
  have hMem : p ∈ (s.after world k).closed := List.mem_filterMap.mpr ⟨event, hEvent, hClosed⟩
  have hNotOpened := not_opened_of_closed hMem
  have hNotReturning := not_returning_of_closed hMem
  cases standing hStart (lt_of_closed hStart hMem) with
  | going _ _ _ hFind | parked hFind =>
    exact absurd ((s.sound world k).opened_of_run hFind) hNotOpened
  | returning _ _ _ _ hPending =>
    exact absurd (List.mem_flatMap.mpr ⟨_, hPending.mem, by simp [Job.returning]⟩) hNotReturning
  | @called c l d o hCall hEnds hl hd hOpen _ hJob =>
    have hCalled := (s.called_log world).mpr ⟨d, hd, hJob⟩
    exact Or.inl ⟨c, l, d, o, hCall, hEnds, hl, hd, hOpen, closed_unique hEvent hCalled hClosed rfl⟩
  | @escaped l n e hp hEnds hl hUncaught hParks _ hLog =>
    refine Or.inr (Or.inl ⟨l, n, e, hp, hEnds, hl, hUncaught, hParks, ?_⟩)
    exact closed_unique hEvent hLog hClosed (by rw [hp]; rfl)
  | abandoned _ hGone _ =>
    rcases hGone with hGone | hGone
    · exact absurd (List.mem_flatMap.mpr ⟨_, hGone, by simp [Job.returning]⟩) hNotReturning
    · exact Or.inr (Or.inr (closed_unique hEvent hGone hClosed rfl))

theorem standing_of_ends {i k l : Nat} {p : Place} {o : Outcome} (hStart : s.Starts world i p)
    (hEnds : s.Ends world l p o) (hlk : l < k) :
    (¬ s.Withheld world l p o ∧ ∃ c, s.LastCall world i p c l ∧
      (s.Pending world c k (.deliver p o) ∨
        ∃ d, l < d ∧ d < k ∧ s.Inside world c d ∧ s.job? world d = some (.deliver p o))) ∨
    ∃ n e, p = [n] ∧ o = .error e ∧ e.isUncaught = true ∧ (∀ j < l, ¬ s.Parks world j p) ∧
      s.Returns world i (l + 1) ∧ .escaped n e ∈ (s.after world k).log := by
  cases standing hStart (Nat.lt_trans (lt_of_ends hStart hEnds) hlk) with
  | going _ _ _ hFind | parked hFind => exact absurd hEnds (not_ends_of_find? hFind l hlk o)
  | returning hCall hEnds' hl hOpen hPending =>
    obtain ⟨rfl, rfl⟩ := ends_unique hEnds hEnds'
    exact Or.inl ⟨hOpen, _, hCall, Or.inl hPending⟩
  | called hCall hEnds' hl hd hOpen hInside hJob =>
    obtain ⟨rfl, rfl⟩ := ends_unique hEnds hEnds'
    exact Or.inl ⟨hOpen, _, hCall, Or.inr ⟨_, hl, hd, hInside, hJob⟩⟩
  | escaped hp hEnds' hl hUncaught hParks hReturns hLog =>
    obtain ⟨rfl, rfl⟩ := ends_unique hEnds hEnds'
    exact Or.inr ⟨_, _, hp, rfl, hUncaught, hParks, hReturns, hLog⟩
  | abandoned _ _ hNever => exact absurd hEnds (hNever l hlk o)

theorem ends_of_called {i k : Nat} {p : Place} {o : Outcome} (hStart : s.Starts world i p)
    (hCalled : o ∈ (s.after world k).calls p) :
    ∃ l < k, s.Ends world l p o ∧ ¬ s.Withheld world l p o := by
  rcases standing_of_closed hStart (History.mem_calls.mp hCalled) rfl with
    ⟨c, l, d, o', hCall, hEnds, hl, hd, hOpen, hEvent⟩ | ⟨l, n, e, -, -, -, -, -, hEvent⟩ | hEvent
  · cases hEvent
    exact ⟨l, Nat.lt_trans hl hd, hEnds, hOpen⟩
  · cases hEvent
  · cases hEvent

theorem escapes_iff {i k n : Nat} {p : Place} {e : Failure} (hStart : s.Starts world i p)
    (hp : p = [n]) : .escaped n e ∈ (s.after world k).log ↔
      ∃ l < k, s.Ends world l p (.error e) ∧ e.isUncaught = true ∧
        ∀ j < l, ¬ s.Parks world j p := by
  constructor
  · intro hLog
    rcases standing_of_closed hStart hLog (by rw [hp]; rfl) with
      ⟨c, l, d, o, -, -, -, -, -, hEvent⟩ | ⟨l, n', e', -, hEnds, hl, hUncaught, hParks, hEvent⟩ |
        hEvent
    · cases hEvent
    · cases hEvent
      exact ⟨l, hl, hEnds, hUncaught, hParks⟩
    · cases hEvent
  · rintro ⟨l, hl, hEnds, hUncaught, hParks⟩
    rcases standing_of_ends hStart hEnds hl with
      ⟨hOpen, -⟩ | ⟨n', e', hp', ho, -, -, -, hLog⟩
    · exact absurd ⟨n, e, hp, rfl, hUncaught, hParks⟩ hOpen
    · rw [hp] at hp'
      cases hp'
      cases ho
      exact hLog

/-- Each run keeps to the rules of delivery, however its operations and those of others go. -/
theorem delivery {i : Nat} {p : Place} (hStart : s.Starts world i p) : s.Delivery world i p where
  escapes _ _ _ hp := escapes_iff hStart hp
  returns l o hEnds hWithheld := by
    constructor
    · rcases standing_of_ends hStart hEnds (Nat.lt_succ_self l) with
        ⟨hOpen, -⟩ | ⟨n, e, -, -, -, -, hReturns, -⟩
      · exact absurd hWithheld hOpen
      · exact hReturns
    · intro k
      refine List.eq_nil_iff_forall_not_mem.mpr fun o' hCalled => ?_
      obtain ⟨l', -, hEnds', hOpen⟩ := ends_of_called hStart hCalled
      obtain ⟨rfl, rfl⟩ := ends_unique hEnds hEnds'
      exact hOpen hWithheld
  delivers l o hEnds hOpen := by
    rcases standing_of_ends hStart hEnds (Nat.lt_succ_self l) with
      ⟨-, c, hCall, -⟩ | ⟨n, e, hp, ho, hUncaught, hParks, -, -⟩
    case inr => exact absurd ⟨n, e, hp, ho, hUncaught, hParks⟩ hOpen
    refine ⟨fun n e k hp hLog => ?_, c, hCall, fun k hlk => ?_⟩
    case refine_1 =>
      obtain ⟨l', -, hEnds', hUncaught, hParks⟩ := (escapes_iff hStart hp).mp hLog
      obtain ⟨rfl, rfl⟩ := ends_unique hEnds hEnds'
      exact hOpen ⟨n, e, hp, rfl, hUncaught, hParks⟩
    rcases standing_of_ends hStart hEnds hlk with
      ⟨-, c', hCall', hPending | ⟨d, hd, hdk, hInside, hJob⟩⟩ |
        ⟨n, e, hp, ho, hUncaught, hParks, -, -⟩
    · obtain rfl := hCall.unique hCall'
      refine Or.inl ⟨hPending.inside, hPending.mem, calls_eq_nil (Or.inr ?_)⟩
      exact List.mem_flatMap.mpr ⟨_, hPending.mem, by simp [Job.returning]⟩
    · obtain rfl := hCall.unique hCall'
      exact Or.inr ⟨⟨d, hd, hdk, hInside, hJob⟩,
        calls_eq_singleton ((s.called_log world).mpr ⟨d, hdk, hJob⟩)⟩
    · exact absurd ⟨n, e, hp, ho, hUncaught, hParks⟩ hOpen
  only k o hCalled := ends_of_called hStart hCalled
  plain k problem hCalled := by
    obtain ⟨l, -, ⟨x, r, -, -, hTurn⟩, -⟩ := ends_of_called hStart hCalled
    exact Frames.finished_ne_error hTurn problem rfl
  nested hLength l o := by
    rintro ⟨n, e, rfl, -⟩
    simp at hLength

/-- A lookup that waits for its sleep, which ends when the call that began the run is over. -/
def lookup : Schedule Demo.behaviour
  | 0 => .begin 0 .lookupDelegated [.text "foo"] 2
  | 10 => .call [0, 0] (.ok (.number (Number.ofNat 5)))
  | _ => .work

theorem delivery_lookup : lookup.Starts .empty 1 [0] ∧ lookup.Delivery .empty 1 [0] ∧
    (lookup.after .empty 20).calls [0] = [.ok (.text "bar")] := by
  have hStart : lookup.Starts .empty 1 [0] :=
    ⟨.lookupDelegated, [.text "foo"], 2, Nat.two_pos, rfl⟩
  exact ⟨hStart, delivery hStart, rfl⟩

end Schedule

end Interlace
