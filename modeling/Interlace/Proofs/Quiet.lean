import Interlace.Proofs.Repose

/-!
# Where nothing is going on

What belongs to a continuation is quiet while no job is on the agenda for it. In a tree it gets
quiet at the end of the call in which work was invoked with this continuation, and it stays so until
somebody from outside calls one of its leaves.
-/

namespace Interlace

variable {b : Behaviour}

def Job.place? : Job b → Option Place
  | .start p _ _ _ | .drive p _ | .invoke p _ | .check p | .items p _ _ | .hold p _
  | .deliver p _ | .drop p => some p
  | .poke _ | .tell _ _ => none

namespace History

/-- No job is on the agenda for what belongs to the continuation `x`. -/
def Quiet (h : History b) (x : Place) : Prop :=
  ∀ job ∈ h.machine.agenda, ∀ y, job.place? = some y → ¬ x <:+ y

variable {h : History b} {x y : Place}

theorem Quiet.part (hQuiet : h.Quiet x) (hxy : x <:+ y) : h.Quiet y :=
  fun job hJob z hPlace hyz => hQuiet job hJob z hPlace (hxy.trans hyz)

theorem AtRest.quiet (hRest : h.AtRest) (x : Place) : h.Quiet x := by
  intro job hJob
  have hAgenda : h.machine.agenda = [] := hRest
  rw [hAgenda] at hJob
  cases hJob

theorem Quiet.not_mem (hQuiet : h.Quiet x) {job : Job b} (hPlace : job.place? = some y)
    (hxy : x <:+ y) : job ∉ h.machine.agenda :=
  fun hJob => hQuiet job hJob y hPlace hxy

namespace Sound

theorem not_vacant (hs : h.Sound) (hBusy : h.machine.steering x ≠ [] ∨ h.machine.starting x ≠ 0) :
    ∃ node, h.machine.nodes.find? x = some node := by
  have hx : x ≠ [] := by
    rintro rfl
    rcases hBusy with hSteering | hStarting
    · exact hSteering hs.idle.1
    · exact hStarting hs.idle.2
  cases hFind : h.machine.nodes.find? x with
  | some node => exact ⟨node, rfl⟩
  | none =>
    have hView := hs.view_of_vacant hx hFind
    rcases hBusy with hSteering | hStarting
    · exact absurd (congrArg View.steering hView) hSteering
    · exact absurd (congrArg View.starting hView) hStarting

theorem place_cases (hs : h.Sound) {job : Job b} (hJob : job ∈ h.machine.agenda)
    (hPlace : job.place? = some x) : x ∈ job.dormant ∨ x ∈ h.returned ∨
      ∃ node, h.machine.nodes.find? x = some node := by
  have hReturning : x ∈ job.returning → x ∈ h.returned := fun hx =>
    List.mem_append_left _ (List.mem_flatMap.mpr ⟨job, hJob, hx⟩)
  have hSteers : job.steers x = true → ∃ node, h.machine.nodes.find? x = some node := fun hSteers =>
    hs.not_vacant (Or.inl (List.ne_nil_of_mem (List.mem_filter.mpr ⟨hJob, hSteers⟩)))
  have hStarts : job.starts x = true → ∃ node, h.machine.nodes.find? x = some node := fun hStarts =>
    hs.not_vacant (Or.inr (List.countP_pos_iff.mpr ⟨job, hJob, hStarts⟩).ne')
  cases job with
  | start | invoke | hold =>
    cases hPlace
    exact Or.inl (List.mem_singleton_self x)
  | deliver | drop =>
    cases hPlace
    exact Or.inr (Or.inl (hReturning (List.mem_singleton_self x)))
  | drive | check =>
    cases hPlace
    exact Or.inr (Or.inr (hSteers (by simp [Job.steers])))
  | items =>
    cases hPlace
    exact Or.inr (Or.inr (hStarts (by simp [Job.starts])))
  | poke | tell => cases hPlace

theorem mem_ledger_of_place (hs : h.Sound) {job : Job b} (hJob : job ∈ h.machine.agenda)
    (hPlace : job.place? = some x) : x ∈ h.ledger := by
  rcases hs.place_cases hJob hPlace with hDormant | hReturned | ⟨node, hFind⟩
  · exact mem_ledger_of_dormant
      (List.mem_append_left _ (List.mem_flatMap.mpr ⟨job, hJob, hDormant⟩))
  · exact mem_ledger_of_returned hReturned
  · rcases hs.opened_or_returned hFind with hx | hx
    · exact mem_ledger_of_opened hx
    · exact mem_ledger_of_returned hx

theorem part_of_ledger (hs : h.Sound) {front : List Nat} (hFront : front ≠ [])
    (hLedger : front ++ x ∈ h.ledger) : ∃ n, n :: x ∈ h.ledger := by
  induction front with
  | nil => exact absurd rfl hFront
  | cons n front ih =>
    by_cases hNil : front = []
    · subst hNil
      exact ⟨n, hLedger⟩
    · refine ih hNil ?_
      rcases hs.grown n (front ++ x) hLedger (by simp [hNil]) with hSome | hReturned
      · obtain ⟨node, hFind⟩ := Option.isSome_iff_exists.mp hSome
        rcases hs.opened_or_returned hFind with hOpened | hReturned
        · exact mem_ledger_of_opened hOpened
        · exact mem_ledger_of_returned hReturned
      · exact mem_ledger_of_returned hReturned

theorem eq_of_dormant (hs : h.Sound) (hDormant : x ∈ h.machine.dormant) (hxy : x <:+ y)
    (hLedger : y ∈ h.ledger) : y = x := by
  obtain ⟨front, rfl⟩ := hxy
  by_cases hFront : front = []
  · rw [hFront, List.nil_append]
  · obtain ⟨n, hPart⟩ := hs.part_of_ledger hFront hLedger
    exact absurd hPart ((hs.vacant_of_dormant hDormant).2 n)

theorem quiet_below (hs : h.Sound) {job : Job b} {rest : List (Job b)}
    (hAgenda : h.machine.agenda = job :: rest) (hx : x ∈ job.dormant) :
    ∀ job' ∈ rest, ∀ y, job'.place? = some y → ¬ x <:+ y := by
  intro job' hJob' y hPlace hxy
  have hMem : job' ∈ h.machine.agenda := hAgenda ▸ List.mem_cons_of_mem job hJob'
  have hDormant : x ∈ h.machine.dormant :=
    List.mem_append_left _ (List.mem_flatMap.mpr ⟨job, hAgenda ▸ List.mem_cons_self, hx⟩)
  obtain rfl := hs.eq_of_dormant hDormant hxy (hs.mem_ledger_of_place hMem hPlace)
  rcases hs.place_cases hMem hPlace with hTwice | hReturned | ⟨node, hFind⟩
  · have hNodup := (List.nodup_append.mp hs.nodup_states).1
    rw [Machine.dormant, hAgenda, List.flatMap_cons, List.append_assoc] at hNodup
    exact (List.nodup_append.mp hNodup).2.2 y hx y
      (List.mem_append_left _ (List.mem_flatMap.mpr ⟨job', hJob', hTwice⟩)) rfl
  · exact hs.not_returned_of_dormant hDormant hReturned
  · rw [(hs.vacant_of_dormant hDormant).1] at hFind
    cases hFind

end Sound

end History

theorem Job.place_of_site {job : Job b} {x : Place} (hSite : job.site = some x) :
    ∃ y, job.place? = some y ∧ x <:+ y := by
  cases job with
  | start | drive | invoke | check | items =>
    exact ⟨_, rfl, (Option.some.inj hSite) ▸ List.suffix_refl _⟩
  | hold | poke | tell => cases hSite
  | deliver p | drop p =>
    cases p with
    | nil => cases hSite
    | cons n p => exact ⟨_, rfl, (Option.some.inj hSite) ▸ List.suffix_cons n p⟩

theorem Machine.Brings.place {m : Machine b} {job job' : Job b} (h : m.Brings job job') {x : Place}
    (hPlace : job'.place? = some x) : (∃ k, job = .poke k) ∨ ∃ y, job.place? = some y ∧
      (x <:+ y ∨ ∃ n work, x = n :: y ∧ job' = .invoke x work) := by
  cases h with
  | poke | tell => cases hPlace
  | found => exact Or.inl ⟨_, rfl⟩
  | work | item =>
    cases hPlace
    exact Or.inr ⟨_, rfl, Or.inr ⟨_, _, rfl, rfl⟩⟩
  | @fate p w =>
    refine Or.inr ⟨p, rfl, Or.inl ?_⟩
    rcases w with ⟨before, fate, after⟩
    cases fate <;> exact (Option.some.inj hPlace) ▸ List.suffix_refl _
  | drop hSite =>
    cases hPlace
    obtain ⟨y, hPlace, hSuffix⟩ := Job.place_of_site hSite
    exact Or.inr ⟨y, hPlace, Or.inl hSuffix⟩
  | wake | answer =>
    cases hPlace
    exact Or.inr ⟨_, rfl, Or.inl (List.suffix_cons _ _)⟩
  | first | refused | next | check | finish | resume | giveUp | noted | nothing | items | nested
  | more =>
    cases hPlace
    exact Or.inr ⟨_, rfl, Or.inl (List.suffix_refl _)⟩

namespace Schedule

variable {s : Schedule b} {world : b.World}

/-- What belongs to a continuation was made after work was invoked with it. -/
theorem lt_of_ledger {c k : Nat} {x y : Place} {job : Job b} (hJob : s.job? world c = some job)
    (hx : x ∈ job.dormant) (hxy : x <:+ y) (hy : y ≠ x) (hLedger : y ∈ (s.after world k).ledger) :
    c < k := by
  by_contra hkc
  have hLater := (s.kept world (Nat.le_of_not_lt hkc)).ledger y hLedger
  exact hy ((s.sound world c).eq_of_dormant (dormant_of_job hJob hx) hxy hLater)

theorem Invokes.quiet {c k : Nat} {x : Place} {work : Work b.Recipe b.Note}
    (h : s.Invokes world c x work) (hReturns : s.Returns world c k) :
    (s.after world k).Quiet x := by
  obtain ⟨rest, hAgenda, -⟩ := s.after_succ_of_job world h.job
  rw [History.Quiet, agenda_of_returns hReturns hAgenda]
  exact (s.sound world c).quiet_below hAgenda (List.mem_singleton_self x)

variable {n limit width : Nat} {recipe : b.Recipe} {args : List Datum} {child : Fin width → Tree}
  (hCalm : s.Calm world n recipe args limit) (hLimit : 0 < limit)
  (hGrows : b.Grows (.node width child) (.coroutine recipe))
include hCalm hLimit hGrows

theorem Invokes.quiet_succ {c k : Nat} {x : Place} {work : Work b.Recipe b.Note}
    (h : s.Invokes world c x work) (hck : c < k) (hQuiet : (s.after world k).Quiet x)
    (hBusy : (s.after world k).machine.agenda ≠ []) : (s.after world (k + 1)).Quiet x := by
  obtain ⟨first, rest, hAgenda⟩ := List.exists_cons_of_ne_nil hBusy
  have hFirst : first ∈ (s.after world k).machine.agenda := hAgenda ▸ List.mem_cons_self
  intro job hJob y hPlace hxy
  have hNow := hJob
  rw [hCalm.next hAgenda] at hNow
  rcases Machine.brings_of_mem hNow with hRest | hBrings
  · exact hQuiet job (hAgenda ▸ List.mem_cons_of_mem first hRest) y hPlace hxy
  · rcases hBrings.place hPlace with ⟨p, rfl⟩ | ⟨z, hFrom, hUp | ⟨m, work', rfl, rfl⟩⟩
    · exact grown hCalm hLimit hGrows hFirst
    · exact hQuiet first hFirst z hFrom (hxy.trans hUp)
    · rcases List.suffix_cons_iff.mp hxy with rfl | hOld
      · -- No work is invoked with the continuation for a second time.
        rcases h.spent (Nat.lt_succ_of_lt hck) _ hJob (List.mem_singleton_self _) with
          ⟨recipe', args', limit', hEq⟩ | ⟨hold, hEq⟩ <;> cases hEq
      · exact hQuiet first hFirst z hFrom hOld

theorem Invokes.quiet_until {c k l : Nat} {x : Place} {work : Work b.Recipe b.Note}
    (h : s.Invokes world c x work) (hck : c < k) (hQuiet : (s.after world k).Quiet x) (hkl : k ≤ l)
    (hBusy : ∀ m, k ≤ m → m < l → (s.after world m).machine.agenda ≠ []) :
    (s.after world l).Quiet x := by
  induction hkl with
  | refl => exact hQuiet
  | @step l hkl ih =>
    have hBefore := ih fun m hkm hml => hBusy m hkm (Nat.lt_succ_of_lt hml)
    exact h.quiet_succ hCalm hLimit hGrows (Nat.lt_of_lt_of_le hck hkl) hBefore
      (hBusy l hkl (Nat.lt_succ_self l))

end Schedule

end Interlace
