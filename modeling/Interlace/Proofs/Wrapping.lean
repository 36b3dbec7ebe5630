import Interlace.Proofs.Quests
import Interlace.Proofs.Starting
import Interlace.Proofs.Traces

/-!
# A coroutine that stands in for work

A coroutine may do nothing but ask for one piece of work and end with what comes of it. Where such
a coroutine is used for the work itself, there are some more jobs to be done, which come next to the
invocation of the work and to its result, and do nothing else. Only what the work brings while it
is still being invoked has to wait until that is over.
-/

namespace Interlace

variable {b : Behaviour}

/-- The outcome with which a coroutine ends that passes an outcome on. An error value that is given
is a failure. -/
def Outcome.passed : Outcome → Outcome
  | .ok (.error p) => .error (.ofReturned p)
  | o => o

theorem Answer.ended?_ofOutcome {Recipe Note : Type} (o : Outcome) :
    (Answer.ofOutcome o : Answer Recipe Note).ended? = some o.passed := by
  rcases o with e | d
  · rfl
  · cases d <;> rfl

/-- A coroutine that asks for one piece of work and passes its outcome on. -/
structure Wrapper (b : Behaviour) where
  recipe : b.Recipe
  work : Work b.Recipe b.Note
  ready : b.Body
  spent : b.Body
  make : ∀ w, b.make recipe [] w = (ready, [], w)
  asks : ∀ w, b.step ready .start w = (.wait (.single work), spent, [], w)
  ends : ∀ x w, x ≠ .start → ∃ body, b.step spent x w = (.ofOutcome x.outcome, body, [], w)

namespace Wrapper

variable (v : Wrapper b)

def fresh (n : Nat) : Frame b.Body := ⟨v.ready, .ready, n⟩

def lulled (n : Nat) : Frame b.Body := ⟨v.spent, .suspended, n⟩

variable {v} {stack : Frames b.Body} {n : Nat} {below : List (Frame b.Body)}

theorem turn_start (hFrames : stack.frames = v.fresh n :: below) (w : b.World) :
    stack.turn b .start w =
      ⟨.await v.work .throwing, { stack with frames := v.lulled n :: below }, [], w⟩ := by
  have hAsks := v.asks w
  have hCase := Frames.turn_case (x := .start) hFrames rfl w
  have hAnswer : (b.step (v.fresh n).body .start w).1 = .wait (.single v.work) :=
    congrArg Prod.fst hAsks
  have hAwaited : stack.TurnCase (v.fresh n) below .start w _ := .awaited hAnswer rfl
  rw [hCase.unique hAwaited, fresh, hAsks]
  rfl

theorem ended? (o : Outcome) (w : b.World) :
    (b.step (v.lulled n).body (.ofOutcome o) w).1.ended? = some o.passed ∧
      (b.step (v.lulled n).body (.ofOutcome o) w).2.2 = ([], w) := by
  obtain ⟨body, hEnds⟩ := v.ends (.ofOutcome o) w (by cases o <;> simp [Input.ofOutcome])
  have hOutcome : (Input.ofOutcome o).outcome = o := by cases o <;> rfl
  rw [lulled, hEnds, hOutcome]
  exact ⟨Answer.ended?_ofOutcome o, rfl⟩

theorem turn_last (hFrames : stack.frames = [v.lulled n]) (o : Outcome) (w : b.World) :
    stack.turn b (.ofOutcome o) w =
      ⟨.finished o.passed, { stack with frames := [] }, [], w⟩ := by
  obtain ⟨hEnded, hQuiet⟩ := v.ended? (n := n) o w
  have hCase := Frames.turn_case (x := .ofOutcome o) hFrames (Input.stage_ofOutcome o).symm w
  rw [hCase.unique (.finished hEnded rfl), hQuiet]

theorem turn_below (hFrames : stack.frames = v.lulled n :: below) (hBelow : below ≠ [])
    (o : Outcome) (w : b.World) : stack.turn b (.ofOutcome o) w =
      ⟨.next (.ofOutcome o.passed), { stack with frames := below }, [], w⟩ := by
  obtain ⟨hEnded, hQuiet⟩ := v.ended? (n := n) o w
  have hCase := Frames.turn_case (x := .ofOutcome o) hFrames (Input.stage_ofOutcome o).symm w
  rw [hCase.unique (.returned hEnded hBelow), hQuiet]

def quest (x : Place) (limit : Nat) (rest : List (Job b)) : Quest b :=
  ⟨x, 0, v.work, .throwing, ⟨[v.lulled 0], limit, 1⟩, rest⟩

end Wrapper

/-! ## Jobs that nothing comes of -/

namespace Machine

variable {m : Machine b}

/-- A job that does not change the world and leaves no notes. -/
def Silent (m : Machine b) (job : Job b) : Prop :=
  (m.perform job).2.world = m.world ∧ ∀ note, .note note ∉ (m.perform job).1

theorem silent_of_other {job : Job b}
    (hStart : ∀ p recipe args limit, job ≠ .start p recipe args limit)
    (hDrive : ∀ p x, job ≠ .drive p x)
    (hNoted : ∀ p note work, job ≠ .invoke p (.noted note work)) : m.Silent job := by
  refine ⟨world_perform hStart hDrive, fun note h => ?_⟩
  cases shows_of_mem h with
  | making => exact hStart _ _ _ _ rfl
  | stepping => exact hDrive _ _ rfl
  | noted => exact hNoted _ _ _ rfl

theorem silent_start {p : Place} {recipe : b.Recipe} {args : List Datum} {limit : Nat}
    {body : b.Body} (hMake : b.make recipe args m.world = (body, [], m.world)) :
    m.Silent (.start p recipe args limit) := by
  constructor
  · simp only [perform, start, hMake]
    cases (Frames.empty limit).push body <;> rfl
  · intro note h
    cases shows_of_mem h with
    | making hNote =>
      rw [hMake] at hNote
      exact absurd hNote List.not_mem_nil

theorem silent_drive {p : Place} {x : Input} {r : Run b} (hFind : m.nodes.find? p = some (.run r))
    (hNotes : (r.frames.turn b x m.world).notes = [])
    (hWorld : (r.frames.turn b x m.world).world = m.world) : m.Silent (.drive p x) := by
  constructor
  · simp only [perform, drive, run?, hFind, hWorld]
    cases (r.frames.turn b x m.world).turn with
    | next | await | fault => rfl
    | finished o => exact world_finish p r.wasParked o
  · intro note h
    cases shows_of_mem h with
    | stepping hFind' hNote =>
      rw [hFind] at hFind'
      cases hFind'
      rw [hNotes] at hNote
      exact absurd hNote List.not_mem_nil

end Machine

namespace Schedule

variable {s : Schedule b} {world : b.World}

theorem agenda_of_finished {l : Nat} {p : Place} {x : Input} {r : Run b} {o : Outcome}
    {rest : List (Job b)} (hTurns : s.Turns world l p x r)
    (hTurn : (s.turned world l x r).turn = .finished o)
    (hAgenda : (s.after world l).machine.agenda = .drive p x :: rest) (hNested : 2 ≤ p.length) :
    (s.after world (l + 1)).machine.agenda = .deliver p o :: rest := by
  have hAfter := s.after_succ_at world hTurns.job hAgenda
  rw [turned] at hTurn
  cases (s.sound world l).run_step hAgenda hTurns.find with
  | elsewhere hSite => exact absurd rfl hSite
  | next _ hTurn' | await _ hTurn' =>
    rw [hTurn] at hTurn'
    cases hTurn'
  | finish _ hTurn' _ hDoes =>
    rw [hTurn] at hTurn'
    cases hTurn'
    exact (does_succ hAfter hDoes).2.1
  | escape hp =>
    rw [hp] at hNested
    simp at hNested

/-! ## On a stack of its own -/

variable (s world) in
/-- How far the run at `x` has got that is made of a wrapper on top of `rest`. -/
inductive Tended (v : Wrapper b) (c : Nat) (x : Place) (limit : Nat) (rest : List (Job b))
    (k : Nat) : Prop where
  | starting {front : List (Job b)}
      (hAgenda : (s.after world k).machine.agenda = front ++ .start x v.recipe [] limit :: rest)
  | started {front : List (Job b)} {r : Run b}
      (hAgenda : (s.after world k).machine.agenda = front ++ .drive x .start :: rest)
      (hFind : (s.after world k).machine.nodes.find? x = some (.run r))
      (hFrames : r.frames = ⟨[v.fresh 0], limit, 1⟩) (hWait : r.wait = 0)
  | asked {m : Nat} {r : Run b} (hcm : c < m) (hmk : m < k) (hTurns : s.Turns world m x .start r)
      (hFrames : r.frames = ⟨[v.fresh 0], limit, 1⟩) (hWait : r.wait = 0)
      (hAgenda : (s.after world m).machine.agenda = .drive x .start :: rest) :
      Tended v c x limit rest k

section

variable {v : Wrapper b} {c limit : Nat} {x : Place} {rest : List (Job b)}

theorem Tended.quest_of_asked {m k : Nat} {r : Run b} (hTurns : s.Turns world m x .start r)
    (hFrames : r.frames = ⟨[v.fresh 0], limit, 1⟩) (hWait : r.wait = 0)
    (hAgenda : (s.after world m).machine.agenda = .drive x .start :: rest) (hmk : m < k) :
    s.Pursues world (v.quest x limit rest) k := by
  have hStack : r.frames.frames = v.fresh 0 :: [] := by rw [hFrames]
  have hTurned : s.turned world m .start r = _ := v.turn_start hStack _
  have hPursues := pursues hTurns (congrArg Turned.turn hTurned) hAgenda hmk
  rw [Schedule.quest, hTurned, hWait, hFrames] at hPursues
  exact hPursues

variable (hLimit : 0 < limit)
  (hInvoke : s.job? world c = some (.invoke x (.nested limit v.recipe)))
  (hAgenda : (s.after world c).machine.agenda = .invoke x (.nested limit v.recipe) :: rest)
include hLimit hInvoke hAgenda

theorem tended {k : Nat} (hck : c < k) : s.Tended world v c x limit rest k := by
  have hStart : (s.after world (c + 1)).machine.agenda = .start x v.recipe [] limit :: rest := by
    rw [s.after_succ_at world hInvoke hAgenda]
    rfl
  rcases waits_or_done hck hStart with ⟨front, hFront⟩ | ⟨j, hcj, hjk, hJob, hNow⟩
  · exact .starting hFront
  obtain ⟨-, hDrive, hFind⟩ :=
    does_succ (s.after_succ_at world hJob hNow) (History.does_start hLimit rest)
  rw [v.make] at hFind
  rcases drive_waits hjk hDrive hFind with ⟨front, hFront, hSame⟩ | ⟨m, hjm, hmk, hTurns, hNow⟩
  · exact .started hFront hSame rfl rfl
  · exact .asked (by omega) hmk hTurns rfl rfl hNow

theorem leads_to_work : s.Leads world (Job.Tends x) c rest fun m =>
    s.job? world m = some (.invoke (0 :: x) v.work) ∧
      (s.after world m).machine.agenda = .invoke (0 :: x) v.work :: .check x :: rest := by
  intro k hck
  rcases Nat.lt_or_eq_of_le hck with hck | rfl
  case inr => exact Or.inr ⟨[], .invoke x (.nested limit v.recipe), Or.inl rfl, hAgenda⟩
  cases tended hLimit hInvoke hAgenda hck with
  | starting hFront => exact Or.inr ⟨_, .start x v.recipe [] limit, Or.inl rfl, hFront⟩
  | started hFront => exact Or.inr ⟨_, .drive x .start, Or.inl rfl, hFront⟩
  | @asked m r hcm hmk hTurns hFrames hWait hNow =>
    have hTurned : s.turned world m .start r = _ := v.turn_start (by rw [hFrames]) _
    have hHelps : Job.Tends x (.check x : Job b) := Or.inl rfl
    have hLeads := Leads.of_await hTurns (congrArg Turned.turn hTurned) hNow hHelps
    rw [hWait] at hLeads
    rcases hLeads k hmk with ⟨n, hmn, hDone⟩ | hPending
    · exact Or.inl ⟨n, by omega, hDone⟩
    · exact Or.inr hPending

theorem asked_of_part {d n : Nat} (hPart : n :: x ∈ (s.after world d).ledger) :
    ∃ m r, c < m ∧ m < d ∧ s.Turns world m x .start r ∧
      r.frames = ⟨[v.fresh 0], limit, 1⟩ ∧ r.wait = 0 ∧
        (s.after world m).machine.agenda = .drive x .start :: rest := by
  have hNone : ∀ {k}, x ∈ (s.after world k).machine.dormant → k < d := by
    intro k hDormant
    by_contra hdk
    exact ((s.sound world k).vacant_of_dormant hDormant).2 n
      ((s.kept world (Nat.le_of_not_lt hdk)).ledger _ hPart)
  have hcd : c < d := hNone (dormant_of_job hInvoke (List.mem_singleton_self x))
  cases tended hLimit hInvoke hAgenda hcd with
  | @starting front hFront =>
    refine absurd (hNone (List.mem_append_left _ (List.mem_flatMap.mpr
      ⟨.start x v.recipe [] limit, ?_, ?_⟩))) (Nat.lt_irrefl d)
    · simp [hFront]
    · simp [Job.dormant]
  | @started front r hFront hFind hFrames hWait =>
    have hDrive : .drive x .start ∈ (s.after world d).machine.agenda := by simp [hFront]
    have hBefore := wait_lt_of_drive hDrive hFind hPart
    omega
  | @asked m r hcm hmd hTurns hFrames hWait hNow =>
    exact ⟨m, r, hcm, hmd, hTurns, hFrames, hWait, hNow⟩

/-- What the work brings is passed on, with nothing before it but what the coroutine has to do: at
once, or when the invocation of the work is over. -/
theorem leads_to_report {d : Nat} {res : Option Outcome} {R : List (Job b)}
    (hClosing : s.job? world d = some (.closing (0 :: x) res))
    (hNow : (s.after world d).machine.agenda = .closing (0 :: x) res :: R) :
    ∃ R', (R' = R ∨ R' = rest ∧
        ∃ front, (s.after world d).machine.agenda = front ++ .check x :: rest) ∧
      s.Leads world (Job.Tends x) d R' fun m =>
        s.job? world m = some (.closing x (res.map Outcome.passed)) ∧
          (s.after world m).machine.agenda = .closing x (res.map Outcome.passed) :: R' := by
  obtain ⟨m, r, -, hmd, hTurns, hFrames, hWait, hAsked⟩ :=
    asked_of_part hLimit hInvoke hAgenda (mem_ledger_of_closing hClosing)
  have hPursues := fun k => Tended.quest_of_asked (k := k) hTurns hFrames hWait hAsked
  refine Pursues.leads (e := v.quest x limit rest)
    (fun R' m => s.job? world m = some (.closing x (res.map Outcome.passed)) ∧
      (s.after world m).machine.agenda = .closing x (res.map Outcome.passed) :: R')
    ?_ ?_ hPursues hmd hClosing hNow
  · rintro n o r' R' rfl hdn hTurns' hBack hDrive
    have hStack : r'.frames.frames = [v.lulled 0] := congrArg Frames.frames hBack.frames
    have hTurned : s.turned world n (.ofOutcome o) r' = _ := v.turn_last hStack o _
    have hDeliver := agenda_of_finished hTurns' (congrArg Turned.turn hTurned) hDrive
      (nested_of_invoke hInvoke)
    exact Or.inr (Leads.of_job hDeliver (Or.inr ⟨some o.passed, rfl⟩) fun m _ hJob hThen =>
      Or.inl ⟨hJob, hThen⟩)
  · rintro m R' rfl hJob hDrop
    exact ⟨hJob, hDrop⟩

end

/-! ## What else it does -/

variable (s world) in
structure Silent (k : Nat) : Prop where
  alone : (s.after world (k + 1)).machine.world = (s.after world k).machine.world
  held : (s.after world (k + 1)).machine.held = (s.after world k).machine.held
  notes : ∃ events, (s.after world (k + 1)).log = (s.after world k).log ++ events ∧
    ∀ note, .note note ∉ events

theorem Silent.of_job {k : Nat} {job : Job b} {x : Place} (hJob : s.job? world k = some job)
    (hSite : job.site = some x) (hSilent : ∀ rest, Machine.Silent
      { (s.after world k).machine with agenda := rest } job) : s.Silent world k := by
  obtain ⟨rest, -, hAfter⟩ := s.after_succ_of_job world hJob
  obtain ⟨hWorld, hNotes⟩ := hSilent rest
  have hMachine := congrArg History.machine hAfter
  have hHeld : ((s.after world k).afterJob job rest).machine.held =
      (s.after world k).machine.held := by
    refine Machine.held_perform ?_ ?_
    · rintro p hold rfl
      cases hSite
    · rintro poke rfl
      cases hSite
  exact ⟨(congrArg Machine.world hMachine).trans hWorld,
    (congrArg Machine.held hMachine).trans hHeld, _, congrArg History.log hAfter, hNotes⟩

variable (s world) in
inductive Wraps (v : Wrapper b) (limit l : Nat) (x : Place) : Input → Run b → Prop where
  | first {r : Run b} (hFrames : r.frames = ⟨[v.fresh 0], limit, 1⟩) (hWait : r.wait = 0) :
      Wraps v limit l x .start r
  | last {d : Nat} {o : Outcome} {r : Run b} (hFrames : r.frames = ⟨[v.lulled 0], limit, 1⟩)
      (hdl : d < l) (hDeliver : s.job? world d = some (.deliver (0 :: x) o)) :
      Wraps v limit l x (.ofOutcome o) r

section

variable {v : Wrapper b} {i limit : Nat} {x : Place}

theorem Wraps.turn {l : Nat} {y : Input} {r : Run b} (h : s.Wraps world v limit l x y r) :
    (s.turned world l y r).world = (s.after world l).machine.world ∧
      (s.turned world l y r).notes = [] ∧
      ((y = .start ∧ r.wait = 0 ∧ (s.turned world l y r).turn = .await v.work .throwing ∧
          (s.turned world l y r).frames = ⟨[v.lulled 0], limit, 1⟩) ∨
        ∃ d < l, ∃ o, s.job? world d = some (.deliver (0 :: x) o) ∧
          (s.turned world l y r).turn = .finished o.passed) := by
  cases h with
  | first hFrames hWait =>
    rw [turned, v.turn_start (by rw [hFrames])]
    exact ⟨rfl, rfl, Or.inl ⟨rfl, hWait, rfl, by rw [hFrames]⟩⟩
  | last hFrames hdl hDeliver =>
    rw [turned, v.turn_last (by rw [hFrames])]
    exact ⟨rfl, rfl, Or.inr ⟨_, hdl, _, hDeliver, rfl⟩⟩

theorem wraps (hLimit : 0 < limit) (hStart : s.job? world i = some (.start x v.recipe [] limit))
    {l : Nat} {y : Input} {r : Run b} (h : s.Turns world l x y r) :
    s.Wraps world v limit l x y r := by
  -- By induction on the steps of the run.
  induction l using Nat.strongRecOn generalizing y r with
  | ind l ih =>
    cases h.follows hLimit hStart with
    | first =>
      refine .first ?_ rfl
      rw [fresh, v.make]
      rfl
    | next hLast hTurn =>
      rcases (ih _ hLast.before hLast.turns).turn.2.2 with ⟨-, -, hAwait, -⟩ | ⟨_, _, _, _, hEnd⟩
      · rw [hAwait] at hTurn
        cases hTurn
      · rw [hEnd] at hTurn
        cases hTurn
    | told hLast hTurn hFrames _ hCalled =>
      rcases (ih _ hLast.before hLast.turns).turn.2.2 with
        ⟨-, hWait, hAwait, hLulled⟩ | ⟨_, _, _, _, hEnd⟩
      · rw [hAwait] at hTurn
        cases hTurn
        rw [hWait] at hCalled
        exact .last (hFrames.trans hLulled) hCalled.2.1 hCalled.2.2
      · rw [hEnd] at hTurn
        cases hTurn

end

section

variable {v : Wrapper b} {c limit : Nat} {x : Place}
  (hInvoke : s.job? world c = some (.invoke x (.nested limit v.recipe)))
include hInvoke

theorem start_of_touched {k : Nat} (hTouched : x ∈ (s.after world k).machine.nodes.opened ∨
      x ∈ (s.after world k).returned) :
    ∃ i < k, s.job? world i = some (.start x v.recipe [] limit) := by
  have hck : c < k := by
    by_contra hkc
    refine not_dormant_of_touched ((s.kept world (Nat.le_of_not_lt hkc)).touched x hTouched) ?_
    exact dormant_of_job hInvoke (List.mem_singleton_self x)
  obtain ⟨rest, -, hAfter⟩ := s.after_succ_of_job world hInvoke
  have hStart : .start x v.recipe [] limit ∈ (s.after world (c + 1)).machine.agenda := by
    rw [hAfter]
    exact List.mem_cons_self
  rcases s.mem_or_done world hStart hck with hMem | ⟨i, -, hik, hJob⟩
  · refine absurd ?_ (not_dormant_of_touched hTouched)
    exact List.mem_append_left _ (List.mem_flatMap.mpr ⟨_, hMem, List.mem_singleton_self x⟩)
  · exact ⟨i, hik, hJob⟩

variable (hLimit : 0 < limit)
include hLimit

theorem closing_of_report {k : Nat} {res' : Option Outcome}
    (hClosing : s.job? world k = some (.closing x res')) :
    ∃ d < k, ∃ res, s.job? world d = some (.closing (0 :: x) res) ∧
      res' = res.map Outcome.passed := by
  have hReturning := returning_of_closing (mem_agenda_of_job hClosing)
  have hReturned : x ∈ (s.after world k).returned := List.mem_append_left _ hReturning
  obtain ⟨i, hik, hStart⟩ := start_of_touched hInvoke (Or.inr hReturned)
  have hVacant : ∀ {r}, (s.after world k).machine.nodes.find? x ≠ some (.run r) := fun hFind =>
    (s.sound world k).not_returned_of_opened ((s.sound world k).opened_of_run hFind) hReturned
  have hLast : ∀ {n} res, n ≤ k → .closing x res ∈ (s.after world n).machine.agenda →
      res' = res := by
    intro n res hnk hMem
    rcases s.mem_or_done world hMem hnk with hMem | ⟨m, -, hmk, hJob⟩
    · have hSame := returning_unique (mem_agenda_of_job hClosing) hMem (x := x) (by simp) (by simp)
      cases res <;> cases res' <;> cases hSame <;> rfl
    · exact (closing_unique hClosing hJob).2
  -- The continuation is used up by the move, so the run is no more: it ended, or was given up.
  cases progress hLimit hStart hik with
  | fresh _ hFind | next _ _ hFind | invoking _ _ hFind | parked _ _ hFind | told _ _ hFind =>
    exact absurd hFind hVacant
  | ended hLastTurn hTurn =>
    rcases (wraps hLimit hStart hLastTurn.turns).turn.2.2 with
      ⟨-, -, hAwait, -⟩ | ⟨d, hdl, o, hDeliver, hEnd⟩
    · rw [hAwait] at hTurn
      cases hTurn
    · rw [hEnd] at hTurn
      cases hTurn
      obtain ⟨rest, hNow, -⟩ := s.after_succ_of_job world hLastTurn.turns.job
      have hThen := agenda_of_finished hLastTurn.turns hEnd hNow (nested_of_invoke hInvoke)
      refine ⟨d, Nat.lt_trans hdl hLastTurn.before, some o, hDeliver, hLast _ hLastTurn.before ?_⟩
      rw [hThen]
      exact List.mem_cons_self
  | gone hLastTurn hTurn _ hGone hDropped =>
    rcases (wraps hLimit hStart hLastTurn.turns).turn.2.2 with
      ⟨-, hWait, -⟩ | ⟨_, _, _, _, hEnd⟩
    · rw [hWait] at hDropped
      obtain ⟨d, hdk, hDrop⟩ := (s.dropped_log world).mp hDropped
      refine ⟨d, hdk, none, hDrop, ?_⟩
      rcases hGone with hMem | hDropped'
      · exact hLast none (Nat.le_refl k) hMem
      · obtain ⟨n, hnk, hDrop'⟩ := (s.dropped_log world).mp hDropped'
        exact hLast none (Nat.le_of_lt hnk) (mem_agenda_of_job hDrop')
    · rw [hEnd] at hTurn
      cases hTurn

theorem silent_of_site {k : Nat} {job : Job b} (hck : c ≤ k) (hJob : s.job? world k = some job)
    (hSite : job.site = some x) : s.Silent world k := by
  refine .of_job hJob hSite fun rest => ?_
  have hOther : ∀ {y : Place}, some y = some x → y = x := fun h => Option.some.inj h
  cases job with
  | start y recipe args limit' =>
    obtain rfl := hOther hSite
    obtain ⟨i, -, hStart⟩ := start_of_touched hInvoke
      (touched_of_start hJob (Nat.lt_succ_self k))
    obtain rfl := start_unique hStart hJob
    rw [hStart] at hJob
    cases hJob
    exact Machine.silent_start (v.make _)
  | drive y input =>
    obtain rfl := hOther hSite
    obtain ⟨r, hTurns⟩ := exists_turns hJob
    obtain ⟨i, -, hStart⟩ := start_of_touched hInvoke
      (Or.inl ((s.sound world k).opened_of_run hTurns.find))
    obtain ⟨hWorld, hNotes, -⟩ := (wraps hLimit hStart hTurns).turn
    exact Machine.silent_drive hTurns.find hNotes hWorld
  | invoke y work =>
    obtain rfl := hOther hSite
    rcases Nat.lt_or_eq_of_le hck with hck | rfl
    · -- No work is invoked with the continuation for a second time.
      have hInvokes : s.Invokes world c y (.nested limit v.recipe) := ⟨hInvoke, rfl⟩
      rcases hInvokes.spent hck _ (mem_agenda_of_job hJob) (List.mem_singleton_self y) with
        ⟨_, _, _, hStart⟩ | ⟨_, hHold⟩
      · cases hStart
      · cases hHold
    · rw [hInvoke] at hJob
      cases hJob
      exact Machine.silent_of_other nofun nofun nofun
  | check | items | hold | poke | tell | deliver | drop =>
    exact Machine.silent_of_other nofun nofun nofun

end

end Schedule

end Interlace
