import Interlace.Proofs.Delivery
import Interlace.Proofs.Order

/-!
# The turns of a run

Between two turns of a run nothing happens to its frames. A run is stepped for the first time when
it was started, and after that because its last turn went on, or because the result that it waits
for since its last turn was handed over.
-/

namespace Interlace

variable {b : Behaviour}

namespace Schedule

variable (s : Schedule b) (world : b.World)

/-- Move `l` steps the run `r` at `p`. -/
structure Turns (l : Nat) (p : Place) (x : Input) (r : Run b) : Prop where
  job : s.job? world l = some (.drive p x)
  find : (s.after world l).machine.nodes.find? p = some (.run r)

def turned (l : Nat) (x : Input) (r : Run b) : Turned b :=
  r.frames.turn b x (s.after world l).machine.world

/-- Move `l` made the last step of the run at `p` when move `k` comes. -/
structure LastTurn (l k : Nat) (p : Place) (x : Input) (r : Run b) : Prop where
  turns : s.Turns world l p x r
  before : l < k
  last : ∀ m, l < m → m < k → ∀ y, s.job? world m ≠ some (.drive p y)

def fresh (i : Nat) (recipe : b.Recipe) (args : List Datum) (limit : Nat) : Run b :=
  ⟨⟨[⟨(b.make recipe args (s.after world i).machine.world).1, .ready, 0⟩], limit, 1⟩, 0, .driving,
    false⟩

/-- Between two moves the continuation `x` was called. -/
def CalledIn (l k : Nat) (x : Place) (o : Outcome) (d : Nat) : Prop :=
  l < d ∧ d < k ∧ s.job? world d = some (.deliver x o)

def Mails (d : Nat) (p : Place) : Prop :=
  ∃ r u o, s.job? world d = some (.deliver (r.wait :: p) o) ∧
    (s.after world d).machine.nodes.find? p = some (.run r) ∧ r.phase = .invoking u .empty

/-- How far the run at `p`, which move `i` started, has got since its last step. -/
inductive Progress (i k : Nat) (p : Place) (recipe : b.Recipe) (args : List Datum) (limit : Nat) :
    Prop where
  | fresh (hNone : ∀ m < k, ∀ y, s.job? world m ≠ some (.drive p y))
      (hFind : (s.after world k).machine.nodes.find? p =
        some (.run (s.fresh world i recipe args limit)))
      (hDrive : .drive p .start ∈ (s.after world k).machine.agenda)
  | next {l : Nat} {x y : Input} {r : Run b} (hLast : s.LastTurn world l k p x r)
      (hTurn : (s.turned world l x r).turn = .next y)
      (hFind : (s.after world k).machine.nodes.find? p =
        some (.run { r with frames := (s.turned world l x r).frames }))
      (hDrive : .drive p y ∈ (s.after world k).machine.agenda)
  | invoking {l : Nat} {x : Input} {r : Run b} {work : Work b.Recipe b.Note} {u : Uptake}
      {mail : Mail} (hLast : s.LastTurn world l k p x r)
      (hTurn : (s.turned world l x r).turn = .await work u)
      (hFind : (s.after world k).machine.nodes.find? p = some (.run { r with
        frames := (s.turned world l x r).frames
        phase := .invoking u mail }))
      (hMail : ∀ o, mail = .outcome o →
        ∃ d, s.CalledIn world l k (r.wait :: p) o d ∧ s.Mails world d p)
      (hLost : mail = .lost → .dropped (r.wait :: p) ∈ (s.after world k).log)
      (hCheck : .check p ∈ (s.after world k).machine.agenda)
  | parked {l m : Nat} {x : Input} {r : Run b} {work : Work b.Recipe b.Note} {u : Uptake}
      (hLast : s.LastTurn world l k p x r) (hTurn : (s.turned world l x r).turn = .await work u)
      (hFind : (s.after world k).machine.nodes.find? p = some (.run { r with
        frames := (s.turned world l x r).frames
        phase := .parked u
        wasParked := true }))
      (hlm : l < m) (hmk : m < k) (hParks : s.Parks world m p)
  | told {l d : Nat} {x : Input} {r r' : Run b} {work : Work b.Recipe b.Note} {u : Uptake}
      {o : Outcome} (hLast : s.LastTurn world l k p x r)
      (hTurn : (s.turned world l x r).turn = .await work u)
      (hFind : (s.after world k).machine.nodes.find? p = some (.run r'))
      (hFrames : r'.frames = (s.turned world l x r).frames) (hWait : r'.wait = r.wait + 1)
      (hDrive : .drive p (u.apply o) ∈ (s.after world k).machine.agenda)
      (hCalled : s.CalledIn world l k (r.wait :: p) o d)
      (hHow : (s.Mails world d p ∧ ∃ m, d < m ∧ m < k ∧ s.job? world m = some (.check p)) ∨
        s.Wakes world d p ∧ (∃ m, l < m ∧ m < d ∧ s.job? world m = some (.check p)) ∧
          s.Pending world d k (.drive p (u.apply o)))
  | ended {l : Nat} {x : Input} {r : Run b} {o : Outcome} (hLast : s.LastTurn world l k p x r)
      (hTurn : (s.turned world l x r).turn = .finished o)
      (hFind : (s.after world k).machine.nodes.find? p = none)
      (hReturned : p ∈ (s.after world k).returned)
  | gone {l : Nat} {x : Input} {r : Run b} {work : Work b.Recipe b.Note} {u : Uptake}
      (hLast : s.LastTurn world l k p x r) (hTurn : (s.turned world l x r).turn = .await work u)
      (hFind : (s.after world k).machine.nodes.find? p = none) (hGone : s.Gone world k p)
      (hDropped : .dropped (r.wait :: p) ∈ (s.after world k).log)

variable {s world}

theorem phase_of_drive {k : Nat} {p : Place} {x : Input} {r : Run b}
    (hDrive : .drive p x ∈ (s.after world k).machine.agenda)
    (hFind : (s.after world k).machine.nodes.find? p = some (.run r)) : r.phase = .driving := by
  obtain ⟨r', hFind', ⟨_, -, hPhase⟩ | ⟨_, _, hCheck, -⟩⟩ :=
    (s.sound world k).steered (p := p) hDrive (by simp [Job.steers])
  · rw [hFind] at hFind'
    cases hFind'
    exact hPhase
  · cases hCheck

theorem Turns.driven {l : Nat} {p : Place} {x : Input} {r : Run b} (h : s.Turns world l p x r) :
    r.phase = .driving ∧ r.frames.Poised x := by
  obtain ⟨rest, hAgenda, -⟩ := s.after_succ_of_job world h.job
  obtain ⟨r', hDriven⟩ := (s.sound world l).driven hAgenda
  have hSame := h.find.symm.trans hDriven.find
  cases hSame
  exact ⟨hDriven.phase, hDriven.poised⟩

theorem exists_turns {l : Nat} {p : Place} {x : Input}
    (hDrive : s.job? world l = some (.drive p x)) : ∃ r, s.Turns world l p x r := by
  obtain ⟨rest, hAgenda, -⟩ := s.after_succ_of_job world hDrive
  obtain ⟨r, hDriven⟩ := (s.sound world l).driven hAgenda
  exact ⟨r, hDrive, hDriven.find⟩

theorem LastTurn.succ {l k : Nat} {p : Place} {x : Input} {r : Run b}
    (h : s.LastTurn world l k p x r) (hJob : ∀ y, s.job? world k ≠ some (.drive p y)) :
    s.LastTurn world l (k + 1) p x r := by
  refine ⟨h.turns, Nat.lt_succ_of_lt h.before, fun m hlm hmk => ?_⟩
  rcases Nat.lt_succ_iff_lt_or_eq.mp hmk with hmk | rfl
  · exact h.last m hlm hmk
  · exact hJob

theorem LastTurn.now {k : Nat} {p : Place} {x : Input} {r : Run b} (h : s.Turns world k p x r) :
    s.LastTurn world k (k + 1) p x r :=
  ⟨h, Nat.lt_succ_self k, fun m hkm hmk => by omega⟩

theorem CalledIn.succ {l k d : Nat} {x : Place} {o : Outcome} (h : s.CalledIn world l k x o d) :
    s.CalledIn world l (k + 1) x o d :=
  ⟨h.1, Nat.lt_succ_of_lt h.2.1, h.2.2⟩

namespace Progress

variable {i k : Nat} {p : Place} {recipe : b.Recipe} {args : List Datum} {limit : Nat}

theorem of_turn {x : Input} {r : Run b} (hTurns : s.Turns world k p x r) :
    s.Progress world i (k + 1) p recipe args limit := by
  obtain ⟨rest, hAgenda, hAfter⟩ := s.after_succ_of_job world hTurns.job
  have hLast := LastTurn.now hTurns
  cases (s.sound world k).run_step hAgenda hTurns.find with
  | elsewhere hSite => exact absurd rfl hSite
  | next hDriven hTurn hDoes =>
    obtain ⟨-, hPut, hNode⟩ := does_succ hAfter hDoes
    exact .next hLast hTurn hNode (by simp [hPut])
  | await hDriven hTurn hDoes =>
    obtain ⟨-, hPut, hNode⟩ := does_succ hAfter hDoes
    exact .invoking hLast hTurn hNode nofun nofun (by simp [hPut])
  | @finish _ o hDriven hTurn hEscapes hDoes =>
    obtain ⟨-, hPut, hNode⟩ := does_succ hAfter hDoes
    have hTold : s.Told world (k + 1) p := Or.inl ⟨o, by simp [hPut]⟩
    exact .ended hLast hTurn hNode hTold.returned
  | @escape _ n e hp hDriven hTurn hParked hUncaught hDoes =>
    obtain ⟨hLog, -, hNode⟩ := does_succ hAfter hDoes
    refine .ended hLast hTurn hNode (List.mem_append_right _ ?_)
    have hEscaped : .escaped n e ∈ (s.after world (k + 1)).log := by simp [hLog]
    exact mem_closed hEscaped (by rw [hp]; rfl)

theorem of_still (h : s.Progress world i k p recipe args limit)
    (hSame : (s.after world (k + 1)).machine.nodes.find? p =
      (s.after world k).machine.nodes.find? p)
    (hDrive : ∀ y, s.job? world k ≠ some (.drive p y))
    (hCheck : s.job? world k ≠ some (.check p)) :
    s.Progress world i (k + 1) p recipe args limit := by
  have hStay : ∀ {job : Job b}, job ∈ (s.after world k).machine.agenda →
      s.job? world k ≠ some job → job ∈ (s.after world (k + 1)).machine.agenda := by
    intro job hMem hOther
    exact (s.mem_agenda_succ world hMem).resolve_right hOther
  cases h with
  | fresh hNone hFind hMem =>
    refine .fresh (fun m hm => ?_) (hSame.trans hFind) (hStay hMem (hDrive _))
    rcases Nat.lt_succ_iff_lt_or_eq.mp hm with hm | rfl
    · exact hNone m hm
    · exact hDrive
  | next hLast hTurn hFind hMem =>
    exact .next (hLast.succ hDrive) hTurn (hSame.trans hFind) (hStay hMem (hDrive _))
  | invoking hLast hTurn hFind hMail hLost hMem =>
    refine .invoking (hLast.succ hDrive) hTurn (hSame.trans hFind) (fun o ho => ?_)
      (fun ho => s.mem_log world (Nat.le_succ k) (hLost ho)) (hStay hMem hCheck)
    obtain ⟨d, hd, hMails⟩ := hMail o ho
    exact ⟨d, hd.succ, hMails⟩
  | parked hLast hTurn hFind hlm hmk hParks =>
    exact .parked (hLast.succ hDrive) hTurn (hSame.trans hFind) hlm (Nat.lt_succ_of_lt hmk) hParks
  | told hLast hTurn hFind hFrames hWait hMem hCalled hHow =>
    refine .told (hLast.succ hDrive) hTurn (hSame.trans hFind) hFrames hWait
      (hStay hMem (hDrive _)) hCalled.succ ?_
    rcases hHow with ⟨hMails, m, hdm, hmk, hJob⟩ | ⟨hWakes, hParked, hPending⟩
    · exact Or.inl ⟨hMails, m, hdm, Nat.lt_succ_of_lt hmk, hJob⟩
    · rcases hPending.cases with ⟨hPending, -⟩ | ⟨rest, -, hJob, -⟩
      · exact Or.inr ⟨hWakes, hParked, hPending⟩
      · exact absurd hJob (hDrive _)
  | ended hLast hTurn hFind hGone =>
    obtain ⟨hFind', hGone'⟩ := find?_of_gone (Nat.le_succ k) hGone hFind
    exact .ended (hLast.succ hDrive) hTurn hFind' hGone'
  | gone hLast hTurn hFind hGone hDropped =>
    exact .gone (hLast.succ hDrive) hTurn (hSame.trans hFind) hGone.succ
      (s.mem_log world (Nat.le_succ k) hDropped)

theorem of_invoking (h : s.Progress world i k p recipe args limit) {r : Run b} {u : Uptake}
    {mail : Mail} (hFind : (s.after world k).machine.nodes.find? p = some (.run r))
    (hPhase : r.phase = .invoking u mail) :
    ∃ l x r₀ work, s.LastTurn world l k p x r₀ ∧ (s.turned world l x r₀).turn = .await work u ∧
      r = { r₀ with frames := (s.turned world l x r₀).frames, phase := .invoking u mail } ∧
      (∀ o, mail = .outcome o →
        ∃ d, s.CalledIn world l k (r₀.wait :: p) o d ∧ s.Mails world d p) ∧
      (mail = .lost → .dropped (r₀.wait :: p) ∈ (s.after world k).log) ∧
      .check p ∈ (s.after world k).machine.agenda := by
  cases h with
  | fresh _ hFind' =>
    rw [hFind] at hFind'
    cases hFind'
    cases hPhase
  | next hLast _ hFind' hDrive =>
    rw [phase_of_drive hDrive hFind] at hPhase
    cases hPhase
  | invoking hLast hTurn hFind' hMail hLost hCheck =>
    rw [hFind] at hFind'
    cases hFind'
    cases hPhase
    exact ⟨_, _, _, _, hLast, hTurn, rfl, hMail, hLost, hCheck⟩
  | parked _ _ hFind' =>
    rw [hFind] at hFind'
    cases hFind'
    cases hPhase
  | told _ _ _ _ _ hDrive =>
    rw [phase_of_drive hDrive hFind] at hPhase
    cases hPhase
  | ended _ _ hNone | gone _ _ hNone =>
    rw [hFind] at hNone
    cases hNone

theorem of_parked (h : s.Progress world i k p recipe args limit) {r : Run b} {u : Uptake}
    (hFind : (s.after world k).machine.nodes.find? p = some (.run r))
    (hPhase : r.phase = .parked u) :
    ∃ l x r₀ work, s.LastTurn world l k p x r₀ ∧ (s.turned world l x r₀).turn = .await work u ∧
      (∃ m, l < m ∧ m < k ∧ s.job? world m = some (.check p)) ∧
      r = { r₀ with
        frames := (s.turned world l x r₀).frames
        phase := .parked u
        wasParked := true } := by
  cases h with
  | fresh _ hFind' =>
    rw [hFind] at hFind'
    cases hFind'
    cases hPhase
  | next _ _ _ hDrive | told _ _ _ _ _ hDrive =>
    rw [phase_of_drive hDrive hFind] at hPhase
    cases hPhase
  | invoking _ _ hFind' =>
    rw [hFind] at hFind'
    cases hFind'
    cases hPhase
  | parked hLast hTurn hFind' hlm hmk hParks =>
    rw [hFind] at hFind'
    cases hFind'
    cases hPhase
    exact ⟨_, _, _, _, hLast, hTurn, ⟨_, hlm, hmk, hParks.1⟩, rfl⟩
  | ended _ _ hNone | gone _ _ hNone =>
    rw [hFind] at hNone
    cases hNone

theorem succ_run (h : s.Progress world i k p recipe args limit) {r : Run b}
    (hFind : (s.after world k).machine.nodes.find? p = some (.run r)) :
    s.Progress world i (k + 1) p recipe args limit := by
  rcases s.after_succ world k with ⟨job, rest, hJob, hAgenda, hAfter⟩ | ⟨hNone, put, hAdded⟩
  case inr => exact h.of_still (by rw [hAdded.nodes]) (by simp [hNone]) (by simp [hNone])
  have hNotDrive : (∀ y, job ≠ .drive p y) → ∀ y, s.job? world k ≠ some (.drive p y) := by
    intro hOther y hEq
    rw [hJob] at hEq
    exact hOther y (Option.some.inj hEq)
  cases (s.sound world k).run_step hAgenda hFind with
  | elsewhere hSite =>
    refine h.of_still (by rw [hAfter, History.find?_afterJob hSite]) (hNotDrive ?_) ?_
    · rintro y rfl
      exact hSite rfl
    · rw [hJob]
      rintro hEq
      cases hEq
      exact hSite rfl
  | next | await | finish | escape => exact of_turn ⟨hJob, hFind⟩
  | @park u hPhase hDoes =>
    obtain ⟨-, -, hNode⟩ := does_succ hAfter hDoes
    obtain ⟨l, x, r₀, work, hLast, hTurn, rfl, -⟩ := h.of_invoking hFind hPhase
    exact .parked (hLast.succ (hNotDrive (by simp))) hTurn hNode hLast.before (Nat.lt_succ_self k)
      ⟨hJob, _, u, hFind, rfl⟩
  | @resume u o hPhase hDoes =>
    obtain ⟨-, hPut, hNode⟩ := does_succ hAfter hDoes
    obtain ⟨l, x, r₀, work, hLast, hTurn, rfl, hMail, -⟩ := h.of_invoking hFind hPhase
    obtain ⟨d, hCalled, hMails⟩ := hMail o rfl
    exact .told (hLast.succ (hNotDrive (by simp))) hTurn hNode rfl rfl (by simp [hPut])
      hCalled.succ (Or.inl ⟨hMails, k, hCalled.2.1, Nat.lt_succ_self k, hJob⟩)
  | giveUp hPhase hDoes =>
    obtain ⟨-, hPut, hNode⟩ := does_succ hAfter hDoes
    obtain ⟨l, x, r₀, work, hLast, hTurn, rfl, -, hLost, -⟩ := h.of_invoking hFind hPhase
    exact .gone (hLast.succ (hNotDrive (by simp))) hTurn hNode (Or.inl (by simp [hPut]))
      (s.mem_log world (Nat.le_succ k) (hLost rfl))
  | @mail u o hPhase hDoes =>
    obtain ⟨-, -, hNode⟩ := does_succ hAfter hDoes
    obtain ⟨l, x, r₀, work, hLast, hTurn, rfl, -, -, hCheck⟩ := h.of_invoking hFind hPhase
    refine .invoking (hLast.succ (hNotDrive (by simp))) hTurn hNode (fun o' ho => ?_) nofun ?_
    · cases ho
      exact ⟨k, ⟨hLast.before, Nat.lt_succ_self k, hJob⟩, _, u, o, hJob, hFind, rfl⟩
    · exact (s.mem_agenda_succ world hCheck).resolve_right (by simp [hJob])
  | @wake u o hPhase hDoes =>
    obtain ⟨-, hPut, hNode⟩ := does_succ hAfter hDoes
    obtain ⟨l, x, r₀, work, hLast, hTurn, hParked, rfl⟩ := h.of_parked hFind hPhase
    exact .told (hLast.succ (hNotDrive (by simp))) hTurn hNode rfl rfl (by simp [hPut])
      ⟨hLast.before, Nat.lt_succ_self k, hJob⟩
      (Or.inr ⟨⟨_, u, o, hJob, hFind, hPhase⟩, hParked, pending_first hAgenda [] hPut⟩)
  | @lose u hPhase hDoes =>
    obtain ⟨hLog, -, hNode⟩ := does_succ hAfter hDoes
    obtain ⟨l, x, r₀, work, hLast, hTurn, rfl, -, -, hCheck⟩ := h.of_invoking hFind hPhase
    refine .invoking (hLast.succ (hNotDrive (by simp))) hTurn hNode nofun (fun _ => ?_) ?_
    · simp [hLog]
    · exact (s.mem_agenda_succ world hCheck).resolve_right (by simp [hJob])
  | abandon hPhase hDoes =>
    obtain ⟨hLog, hPut, hNode⟩ := does_succ hAfter hDoes
    obtain ⟨l, x, r₀, work, hLast, hTurn, -, rfl⟩ := h.of_parked hFind hPhase
    exact .gone (hLast.succ (hNotDrive (by simp))) hTurn hNode (Or.inl (by simp [hPut]))
      (by simp [hLog])

theorem succ_over (h : s.Progress world i k p recipe args limit)
    (hFind : (s.after world k).machine.nodes.find? p = none)
    (hReturned : p ∈ (s.after world k).returned) :
    s.Progress world i (k + 1) p recipe args limit := by
  rcases s.after_succ world k with ⟨job, rest, hJob, hAgenda, hAfter⟩ | ⟨hNone, put, hAdded⟩
  · have hSite := (s.sound world k).site_ne_of_returned hAgenda hReturned hFind
    refine h.of_still (by rw [hAfter, History.find?_afterJob hSite]) ?_ ?_
    · rintro y hEq
      rw [hJob] at hEq
      cases hEq
      exact hSite rfl
    · rw [hJob]
      rintro hEq
      cases hEq
      exact hSite rfl
  · exact h.of_still (by rw [hAdded.nodes]) (by simp [hNone]) (by simp [hNone])

end Progress

theorem progress {i k : Nat} {p : Place} {recipe : b.Recipe} {args : List Datum} {limit : Nat}
    (hLimit : 0 < limit) (hStart : s.job? world i = some (.start p recipe args limit))
    (hik : i < k) :
    s.Progress world i k p recipe args limit := by
  -- By induction on the moves since the start.
  induction hik with
  | refl =>
    obtain ⟨rest, -, hAfter⟩ := s.after_succ_of_job world hStart
    obtain ⟨-, hPut, hNode⟩ := does_succ hAfter (History.does_start hLimit rest)
    refine .fresh (fun m hm y hDrive => ?_) hNode (by simp [hPut])
    obtain ⟨r, hTurns⟩ := exists_turns hDrive
    have hFind := hTurns.find
    rw [find?_of_dormant (Nat.le_of_lt_succ hm) (dormant_of_job hStart (by simp [Job.dormant]))]
      at hFind
    cases hFind
  | @step k hik ih =>
    cases hFind : (s.after world k).machine.nodes.find? p with
    | none =>
      refine ih.succ_over hFind ?_
      rcases touched_of_start hStart hik with hOpened | hReturned
      · obtain ⟨node, hNode, -⟩ := Table.find?_of_mem_opened (s.sound world k).keyed hOpened
        rw [hFind] at hNode
        cases hNode
      · exact hReturned
    | some node =>
      cases node with
      | run r => exact ih.succ_run hFind
      | gather g =>
        obtain ⟨j, -, w, ws, hInvoke⟩ := origin hFind
        exact (start_ne_gather hStart hInvoke).elim

/-! ## One turn after the other -/

theorem steering_unique {k : Nat} {p : Place} {job job' : Job b} (hJob : s.job? world k = some job)
    (hMem : job' ∈ (s.after world k).machine.agenda) (hSteers : job.steers p = true)
    (hSteers' : job'.steers p = true) : job' = job := by
  obtain ⟨rest, hAgenda, -⟩ := s.after_succ_of_job world hJob
  rw [hAgenda] at hMem
  rcases List.mem_cons.mp hMem with hEq | hRest
  · exact hEq
  · have hOther := (s.sound world k).steers_once hAgenda hSteers job' hRest
    rw [hSteers'] at hOther
    cases hOther

theorem Turns.input_unique {k : Nat} {p : Place} {x y : Input} {r : Run b}
    (h : s.Turns world k p x r) (hDrive : .drive p y ∈ (s.after world k).machine.agenda) :
    y = x := by
  have hEq := steering_unique (p := p) h.job hDrive (by simp [Job.steers]) (by simp [Job.steers])
  cases hEq
  rfl

/-- Why move `j` steps the run at `p`, which move `i` started. -/
inductive Follows (s : Schedule b) (world : b.World) (i j : Nat) (p : Place) (recipe : b.Recipe)
    (args : List Datum) (limit : Nat) : Input → Run b → Prop where
  | first (hNone : ∀ m < j, ∀ y, s.job? world m ≠ some (.drive p y)) :
      Follows s world i j p recipe args limit .start (s.fresh world i recipe args limit)
  | next {l : Nat} {x y : Input} {r : Run b} (hLast : s.LastTurn world l j p x r)
      (hTurn : (s.turned world l x r).turn = .next y) :
      Follows s world i j p recipe args limit y
        { r with frames := (s.turned world l x r).frames }
  | told {l d : Nat} {x : Input} {r r' : Run b} {work : Work b.Recipe b.Note} {u : Uptake}
      {o : Outcome} (hLast : s.LastTurn world l j p x r)
      (hTurn : (s.turned world l x r).turn = .await work u)
      (hFrames : r'.frames = (s.turned world l x r).frames) (hWait : r'.wait = r.wait + 1)
      (hCalled : s.CalledIn world l j (r.wait :: p) o d)
      (hHow : (s.Mails world d p ∧ ∃ m, d < m ∧ m < j ∧ s.job? world m = some (.check p)) ∨
        s.Wakes world d p ∧ (∃ m, l < m ∧ m < d ∧ s.job? world m = some (.check p)) ∧
          s.Inside world d j) :
      Follows s world i j p recipe args limit (u.apply o) r'

theorem lt_of_turns {i j : Nat} {p : Place} {x : Input} {r : Run b} {recipe : b.Recipe}
    {args : List Datum} {limit : Nat} (hStart : s.job? world i = some (.start p recipe args limit))
    (h : s.Turns world j p x r) : i < j := by
  by_contra hij
  have hFind := h.find
  rw [find?_of_dormant (Nat.le_of_not_lt hij) (dormant_of_job hStart (by simp [Job.dormant]))]
    at hFind
  cases hFind

theorem Turns.follows {i j : Nat} {p : Place} {x : Input} {r : Run b} {recipe : b.Recipe}
    {args : List Datum} {limit : Nat} (hLimit : 0 < limit)
    (hStart : s.job? world i = some (.start p recipe args limit)) (h : s.Turns world j p x r) :
    s.Follows world i j p recipe args limit x r := by
  have hFind := h.find
  cases progress hLimit hStart (lt_of_turns hStart h) with
  | fresh hNone hFind' hDrive =>
    obtain rfl := h.input_unique hDrive
    rw [hFind] at hFind'
    cases hFind'
    exact .first hNone
  | next hLast hTurn hFind' hDrive =>
    obtain rfl := h.input_unique hDrive
    rw [hFind] at hFind'
    cases hFind'
    exact .next hLast hTurn
  | invoking _ _ hFind' | parked _ _ hFind' =>
    have hPhase := h.driven.1
    rw [hFind] at hFind'
    cases hFind'
    cases hPhase
  | told hLast hTurn hFind' hFrames hWait hDrive hCalled hHow =>
    obtain rfl := h.input_unique hDrive
    rw [hFind] at hFind'
    cases hFind'
    exact .told hLast hTurn hFrames hWait hCalled (hHow.imp_right fun ⟨hWakes, hParked, hPending⟩ =>
      ⟨hWakes, hParked, hPending.inside⟩)
  | ended _ _ hNone | gone _ _ hNone =>
    rw [hFind] at hNone
    cases hNone

theorem Turns.start {j : Nat} {p : Place} {x : Input} {r : Run b} (h : s.Turns world j p x r) :
    ∃ i < j, 0 < r.frames.limit ∧
      ∃ recipe args, s.job? world i = some (.start p recipe args r.frames.limit) :=
  origin h.find

theorem wait_lt {l j : Nat} {p : Place} {x y : Input} {r r' : Run b} (h : s.Turns world l p x r)
    (h' : s.Turns world j p y r') (hlj : l < j) :
    r.wait ≤ r'.wait ∧
      ∀ work u, (s.turned world l x r).turn = .await work u → r.wait < r'.wait := by
  -- By induction on the later step, from the one before it.
  induction j using Nat.strongRecOn generalizing y r' with
  | ind j ih =>
    obtain ⟨i, -, hLimit, recipe, args, hStart⟩ := h'.start
    have hBetween : ∀ {m z r₀}, s.LastTurn world m j p z r₀ → l ≤ m := by
      intro m z r₀ hLast
      by_contra hml
      exact hLast.last l (Nat.lt_of_not_le hml) hlj x h.job
    have hSame : ∀ {z r₀}, s.LastTurn world l j p z r₀ → x = z ∧ r = r₀ := by
      intro z r₀ hLast
      have hJob := h.job.symm.trans hLast.turns.job
      have hFind := h.find.symm.trans hLast.turns.find
      cases hJob
      cases hFind
      exact ⟨rfl, rfl⟩
    have hFollows := h'.follows hLimit hStart
    generalize r'.frames.limit = limit at hFollows
    cases hFollows with
    | first hNone => exact absurd h.job (hNone l hlj x)
    | @next m z _ r₀ hLast hTurn =>
      rcases Nat.lt_or_eq_of_le (hBetween hLast) with hlm | rfl
      · have hBefore := ih m hLast.before hLast.turns hlm
        exact hBefore
      · obtain ⟨rfl, rfl⟩ := hSame hLast
        refine ⟨Nat.le_refl _, fun work u hAwait => ?_⟩
        rw [hTurn] at hAwait
        cases hAwait
    | @told m d z r₀ _ work u o hLast hTurn hFrames hWait =>
      rcases Nat.lt_or_eq_of_le (hBetween hLast) with hlm | rfl
      · obtain ⟨hLe, hLt⟩ := ih m hLast.before hLast.turns hlm
        refine ⟨by omega, fun work u hAwait => ?_⟩
        have := hLt work u hAwait
        omega
      · obtain ⟨rfl, rfl⟩ := hSame hLast
        exact ⟨by omega, fun _ _ _ => by omega⟩

end Schedule

end Interlace
