import Interlace.Proofs.Frames

/-!
# Delegation as plain recursion

The evaluator runs a coroutine by recursion on delegations, with no stack. It is given a world for
each step to come and the results of the waits to come, and reports the steps it made. The eventual
report of a stack of frames is that of its top frame, carried on through the frames below. A turn
of the stack makes the first step of its eventual report.
-/

namespace Interlace

/-- How far an evaluation came: it has ended, it waits and no result is left, or it is to go on but
no world is left. -/
inductive Verdict where
  | ended (o : Outcome)
  | waiting
  | unfinished

/-- What was evaluated: the steps, each the number of the instance and its input, what is left of
worlds and results, and how many instances were made. -/
structure Report (b : Behaviour) where
  steps : List (Nat × Input)
  verdict : Verdict
  worlds : List b.World
  results : List Outcome
  made : Nat

variable {b : Behaviour}

def Report.after (r : Report b) (steps : List (Nat × Input)) : Report b :=
  { r with steps := steps ++ r.steps }

@[simp] theorem Report.after_after (r : Report b) (steps steps' : List (Nat × Input)) :
    (r.after steps).after steps' = r.after (steps' ++ steps) := by
  simp [Report.after]

@[simp] theorem Report.verdict_after (r : Report b) (steps : List (Nat × Input)) :
    (r.after steps).verdict = r.verdict := rfl

abbrev BoundedReport (b : Behaviour) (bound : Nat) := { r : Report b // r.worlds.length ≤ bound }

def evaluateBounded (b : Behaviour) (limit depth serial made : Nat) (body : b.Body) (x : Input)
    (worlds : List b.World) (results : List Outcome) : BoundedReport b worlds.length :=
  match worlds with
  | [] => ⟨⟨[], .unfinished, [], results, made⟩, Nat.le_refl 0⟩
  | w :: worlds =>
    let (answer, body, _, w) := b.step body x w
    match answer with
    | .give (.error p) =>
      ⟨⟨[(serial, x)], .ended (.error (.ofReturned p)), worlds, results, made⟩, Nat.le_succ _⟩
    | .give d => ⟨⟨[(serial, x)], .ended (.ok d), worlds, results, made⟩, Nat.le_succ _⟩
    | .raise e => ⟨⟨[(serial, x)], .ended (.error e), worlds, results, made⟩, Nat.le_succ _⟩
    | .wait (.inner recipe) =>
      let (child, _, _) := b.make recipe [] w
      if depth = limit then
        let r := evaluateBounded b limit depth serial made body (.failure (.tooDeep limit)) worlds
          results
        ⟨r.1.after [(serial, x)], Nat.le_succ_of_le r.2⟩
      else
        let ⟨inner, hInner⟩ :=
          evaluateBounded b limit (depth + 1) made (made + 1) child .start worlds results
        match inner.verdict with
        | .ended o =>
          let r := evaluateBounded b limit depth serial inner.made body (.ofOutcome o) inner.worlds
            inner.results
          ⟨r.1.after ((serial, x) :: inner.steps), Nat.le_succ_of_le (Nat.le_trans r.2 hInner)⟩
        | .waiting | .unfinished => ⟨inner.after [(serial, x)], Nat.le_succ_of_le hInner⟩
    | .wait request =>
      match results with
      | [] => ⟨⟨[(serial, x)], .waiting, worlds, [], made⟩, Nat.le_succ _⟩
      | o :: results =>
        let y : Input := match request with
          | .caught _ => .value (.ofOutcome o)
          | _ => .ofOutcome o
        let r := evaluateBounded b limit depth serial made body y worlds results
        ⟨r.1.after [(serial, x)], Nat.le_succ_of_le r.2⟩
termination_by worlds.length
decreasing_by
  all_goals simp_wf
  all_goals omega

/-- What a coroutine does when it is run at a depth by recursion. -/
def evaluate (b : Behaviour) (limit depth serial made : Nat) (body : b.Body) (x : Input)
    (worlds : List b.World) (results : List Outcome) : Report b :=
  (evaluateBounded b limit depth serial made body x worlds results).1

theorem evaluate_nil (limit depth serial made : Nat) (body : b.Body) (x : Input)
    (results : List Outcome) :
    evaluate b limit depth serial made body x [] results =
      ⟨[], .unfinished, [], results, made⟩ := by
  rw [evaluate, evaluateBounded]

theorem evaluate_cons (limit depth serial made : Nat) (body : b.Body) (x : Input) (w : b.World)
    (worlds : List b.World) (results : List Outcome) :
    evaluate b limit depth serial made body x (w :: worlds) results =
      let (answer, body, _, w) := b.step body x w
      match answer with
      | .give (.error p) => ⟨[(serial, x)], .ended (.error (.ofReturned p)), worlds, results, made⟩
      | .give d => ⟨[(serial, x)], .ended (.ok d), worlds, results, made⟩
      | .raise e => ⟨[(serial, x)], .ended (.error e), worlds, results, made⟩
      | .wait (.inner recipe) =>
        if depth = limit then
          (evaluate b limit depth serial made body (.failure (.tooDeep limit)) worlds results).after
            [(serial, x)]
        else
          let inner := evaluate b limit (depth + 1) made (made + 1) (b.make recipe [] w).1 .start
            worlds results
          match inner.verdict with
          | .ended o =>
            (evaluate b limit depth serial inner.made body (.ofOutcome o) inner.worlds
              inner.results).after ((serial, x) :: inner.steps)
          | .waiting | .unfinished => inner.after [(serial, x)]
      | .wait request =>
        match results with
        | [] => ⟨[(serial, x)], .waiting, worlds, [], made⟩
        | o :: results =>
          (evaluate b limit depth serial made body
            (match request with | .caught _ => .value (.ofOutcome o) | _ => .ofOutcome o)
            worlds results).after [(serial, x)] := by
  rw [evaluate, evaluateBounded]
  rcases b.step body x w with ⟨answer, body, notes, w⟩
  cases answer with
  | give d => cases d <;> rfl
  | raise e => rfl
  | wait request =>
    cases request with
    | single | all | caught => cases results <;> rfl
    | inner recipe =>
      dsimp only
      by_cases hDepth : depth = limit
      · rw [if_pos hDepth, if_pos hDepth]
        rfl
      · rw [if_neg hDepth, if_neg hDepth]
        rw [evaluate]
        rcases evaluateBounded b limit (depth + 1) made (made + 1) (b.make recipe [] w).1 .start
          worlds results with ⟨inner, hInner⟩
        dsimp only
        cases inner.verdict <;> rfl

/-! ## Stacks -/

def unwind (b : Behaviour) (limit : Nat) : List (Frame b.Body) → Report b → Report b
  | [], r => r
  | f :: below, r =>
    match r.verdict with
    | .ended o =>
      unwind b limit below
        ((evaluate b limit (below.length + 1) f.serial r.made f.body (.ofOutcome o) r.worlds
          r.results).after r.steps)
    | .waiting | .unfinished => r

/-- The eventual report of a stack whose top frame takes an input. -/
def Frames.eventual (s : Frames b.Body) (x : Input) (worlds : List b.World)
    (results : List Outcome) : Report b :=
  match s.frames with
  | [] => ⟨[], .unfinished, worlds, results, s.pushed⟩
  | f :: below =>
    unwind b s.limit below
      (evaluate b s.limit (below.length + 1) f.serial s.pushed f.body x worlds results)

def Frames.awaiting (s : Frames b.Body) (u : Uptake) (worlds : List b.World) :
    List Outcome → Report b
  | [] => ⟨[], .waiting, worlds, [], s.pushed⟩
  | o :: results => s.eventual (u.apply o) worlds results

theorem unwind_after (limit : Nat) (below : List (Frame b.Body)) (r : Report b)
    (steps : List (Nat × Input)) :
    unwind b limit below (r.after steps) = (unwind b limit below r).after steps := by
  induction below generalizing r with
  | nil => rfl
  | cons f below ih =>
    rw [unwind, unwind]
    cases hVerdict : r.verdict with
    | waiting | unfinished => simp [hVerdict]
    | ended o =>
      have hAfter : ∀ r' : Report b, r'.after (r.after steps).steps =
          (r'.after r.steps).after steps := by
        intro r'
        simp [Report.after]
      simp only [Report.verdict_after, hVerdict, hAfter, ih]
      rfl

theorem unwind_of_not_ended (limit : Nat) (below : List (Frame b.Body)) {r : Report b}
    (h : ∀ o, r.verdict ≠ .ended o) : unwind b limit below r = r := by
  cases below with
  | nil => rfl
  | cons f below =>
    rw [unwind]
    cases hVerdict : r.verdict with
    | waiting | unfinished => rfl
    | ended o => exact absurd hVerdict (h o)

namespace Frames

theorem eventual_nil (s : Frames b.Body) (x : Input) (results : List Outcome) :
    (s.eventual x [] results).steps = [] ∧ (s.eventual x [] results).verdict = .unfinished := by
  rw [eventual]
  cases s.frames with
  | nil => exact ⟨rfl, rfl⟩
  | cons f below =>
    dsimp only
    rw [evaluate_nil, unwind_of_not_ended _ _ (by simp)]
    exact ⟨rfl, rfl⟩

def remaining (t : Turned b) (worlds : List b.World) (results : List Outcome) : Report b :=
  match t.turn with
  | .next y => t.frames.eventual y worlds results
  | .await _ u => t.frames.awaiting u worlds results
  | .finished o => ⟨[], .ended o, worlds, results, t.frames.pushed⟩
  | .fault _ => ⟨[], .unfinished, worlds, results, t.frames.pushed⟩

theorem remaining_conclude {s : Frames b.Body} {f : Frame b.Body} {below : List (Frame b.Body)}
    (hs : s.frames = f :: below) (hFinal : f.stage.isFinal = true) (o : Outcome)
    (notes : List b.Note) (w : b.World) (worlds : List b.World) (results : List Outcome)
    (steps : List (Nat × Input)) :
    unwind b s.limit below ⟨steps, .ended o, worlds, results, s.pushed⟩ =
      (remaining (s.conclude b o notes w) worlds results).after steps := by
  have hFault : s.popFault? = none := by simp [popFault?, top?, hs, hFinal]
  rw [conclude, hFault]
  cases below with
  | nil => simp [unwind, remaining, pop, isEmpty, hs, Report.after]
  | cons g below =>
    simp only [pop, isEmpty, hs, List.tail_cons, List.isEmpty_cons, Bool.false_eq_true, if_false]
    simp only [remaining, eventual, unwind]
    rw [← unwind_after]

theorem remaining_delegate {s : Frames b.Body} {f : Frame b.Body} {below : List (Frame b.Body)}
    (hs : s.frames = f :: below) (hWithin : s.depth ≤ s.limit) (recipe : b.Recipe)
    (notes : List b.Note) (w : b.World) (worlds : List b.World) (results : List Outcome)
    (x : Input) :
    unwind b s.limit below
      (if below.length + 1 = s.limit then
        (evaluate b s.limit (below.length + 1) f.serial s.pushed f.body
          (.failure (.tooDeep s.limit)) worlds results).after [(f.serial, x)]
      else
        let inner := evaluate b s.limit (below.length + 1 + 1) s.pushed (s.pushed + 1)
          (b.make recipe [] w).1 .start worlds results
        match inner.verdict with
        | .ended o =>
          (evaluate b s.limit (below.length + 1) f.serial inner.made f.body (.ofOutcome o)
            inner.worlds inner.results).after ((f.serial, x) :: inner.steps)
        | .waiting | .unfinished => inner.after [(f.serial, x)]) =
      (remaining (s.delegate b recipe notes w) worlds results).after [(f.serial, x)] := by
  have hDepth : s.depth = below.length + 1 := by simp [depth, hs]
  rw [delegate]
  rcases b.make recipe [] w with ⟨child, made, w'⟩
  by_cases hFull : below.length + 1 = s.limit
  · rw [if_pos hFull]
    have hRefused : s.limit ≤ s.depth := by omega
    simp only [push, if_pos hRefused, remaining, eventual, hs]
    rw [unwind_after]
  · rw [if_neg hFull]
    have hRoom : ¬ s.limit ≤ s.depth := by omega
    simp only [push, if_neg hRoom, remaining, eventual, hs, List.length_cons]
    generalize evaluate b s.limit (below.length + 1 + 1) s.pushed (s.pushed + 1) child .start worlds
      results = inner
    rw [unwind]
    cases hVerdict : inner.verdict with
    | ended o =>
      dsimp only
      rw [← unwind_after, Report.after_after]
      rfl
    | waiting | unfinished =>
      dsimp only
      rw [unwind_after, unwind_of_not_ended _ _ (by simp [hVerdict])]

theorem eventual_cons {s : Frames b.Body} {x : Input} (h : s.Poised x) (w : b.World)
    (worlds : List b.World) (results : List Outcome) :
    s.eventual x (w :: worlds) results =
      (remaining (s.turn b x w) worlds results).after
        [((s.top?.map Frame.serial).getD 0, x)] := by
  obtain ⟨f, below, hs, hStage, hBelow⟩ := h.top
  have hTop : (s.top?.map Frame.serial).getD 0 = f.serial := by simp [top?, hs]
  rcases hStep : b.step f.body x w with ⟨answer, body, notes, w'⟩
  have hWithin : below.length + 1 ≤ s.limit := by simpa [depth, hs] using h.within
  rw [hTop, turn_eq hs hStage hStep]
  simp only [eventual, hs, evaluate_cons, hStep]
  -- The frame on top after its step, by the stage that the step leads to.
  have hConclude : ∀ {stage : Stage} (o : Outcome), stage.isFinal = true →
      unwind b s.limit below ⟨[(f.serial, x)], .ended o, worlds, results, s.pushed⟩ =
        (remaining (conclude b { s with frames := ⟨body, stage, f.serial⟩ :: below } o notes w')
          worlds results).after [(f.serial, x)] := fun o hFinal =>
    remaining_conclude (s := { s with frames := _ :: below }) rfl hFinal o notes w' worlds results _
  cases answer with
  | raise e => exact hConclude (.error e) rfl
  | give d =>
    cases d with
    | error p => exact hConclude (.error (.ofReturned p)) rfl
    | _ => exact hConclude (.ok _) rfl
  | wait request =>
    cases request with
    | inner recipe =>
      exact remaining_delegate (s := { s with frames := ⟨body, .suspended, f.serial⟩ :: below }) rfl
        hWithin recipe notes w' worlds results x
    | single | all | caught =>
      cases results with
      | nil => exact unwind_of_not_ended _ _ (by simp)
      | cons o results => exact unwind_after _ _ _ _

end Frames

end Interlace
