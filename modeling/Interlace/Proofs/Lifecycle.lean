import Mathlib.Data.List.Induction
import Interlace.Script.Host

/-!
# The life of one frame under any use

A frame can be called in any way: started, resumed, started once more, resumed after its end. Said
here is which of the calls are faults, what the body is given of them, and the stage they lead to,
for every body, every sequence of calls and every world that a call may find.
-/

namespace Interlace

variable {b : Behaviour}

structure Call (b : Behaviour) where
  input : Input
  world : b.World

def Behaviour.bodyAfter (b : Behaviour) (body : b.Body) (calls : List (Call b)) : b.Body :=
  calls.foldl (fun body c => (b.step body c.input c.world).2.1) body

def Behaviour.answerTo (b : Behaviour) (body : b.Body) (before : List (Call b)) (c : Call b) :
    Answer b.Recipe b.Note :=
  (b.step (b.bodyAfter body before) c.input c.world).1

theorem Behaviour.bodyAfter_concat (body : b.Body) (calls : List (Call b)) (c : Call b) :
    b.bodyAfter body (calls ++ [c]) =
      (b.step (b.bodyAfter body calls) c.input c.world).2.1 := by
  simp [bodyAfter]

theorem Answer.suspension_stage_ne_ready {Recipe Note : Type} (a : Answer Recipe Note) :
    a.suspension.stage ≠ .ready := by
  cases a with
  | wait | raise => simp [suspension, Suspension.stage]
  | give d => cases d <;> simp [suspension, Suspension.stage]

theorem Answer.suspended_iff {Recipe Note : Type} (a : Answer Recipe Note) :
    a.suspension.stage = .suspended ↔ ∃ request, a = .wait request := by
  cases a with
  | wait | raise => simp [suspension, Suspension.stage]
  | give d => cases d <;> simp [suspension, Suspension.stage]

theorem Answer.completed_iff {Recipe Note : Type} (a : Answer Recipe Note) :
    a.suspension.stage = .completed ↔ ∃ d, a = .give d ∧ ∀ p, d ≠ .error p := by
  cases a with
  | wait | raise => simp [suspension, Suspension.stage]
  | give d => cases d <;> simp [suspension, Suspension.stage]

theorem Answer.failed_iff {Recipe Note : Type} (a : Answer Recipe Note) :
    a.suspension.stage = .failed ↔ (∃ e, a = .raise e) ∨ ∃ p, a = .give (.error p) := by
  cases a with
  | wait | raise => simp [suspension, Suspension.stage]
  | give d => cases d <;> simp [suspension, Suspension.stage]

namespace Frame

def fresh {Body : Type} (body : Body) (serial : Nat) : Frame Body := ⟨body, .ready, serial⟩

/-- What a call comes to, and the frame it leaves, which after a fault is the frame it found. -/
def call (f : Frame b.Body) (c : Call b) : Except Fault (Stepped b) × Frame b.Body :=
  match f.advance b c.input c.world with
  | .error fault => (.error fault, f)
  | .ok stepped => (.ok stepped, stepped.frame)

def after (f : Frame b.Body) (calls : List (Call b)) : Frame b.Body :=
  calls.foldl (fun f c => (f.call c).2) f

def results (f : Frame b.Body) : List (Call b) → List (Except Fault (Stepped b))
  | [] => []
  | c :: rest => (f.call c).1 :: (f.call c).2.results rest

/-- Those of the calls that are no faults: their inputs reach the body. -/
def reached (f : Frame b.Body) : List (Call b) → List (Call b)
  | [] => []
  | c :: rest =>
    match f.call c with
    | (.ok _, f) => c :: f.reached rest
    | (.error _, f) => f.reached rest

variable {f : Frame b.Body} {c : Call b}

theorem call_of_fault {fault : Fault} (h : f.fault? c.input = some fault) :
    f.call c = (.error fault, f) := by
  simp only [call, advance, h]

theorem call_of_none (h : f.fault? c.input = none) :
    f.call c = (.ok (f.stepBody b c.input c.world), (f.stepBody b c.input c.world).frame) := by
  simp only [call, advance, h]

theorem after_cons (f : Frame b.Body) (c : Call b) (rest : List (Call b)) :
    f.after (c :: rest) = (f.call c).2.after rest := rfl

theorem reached_of_fault {fault : Fault} (h : f.fault? c.input = some fault)
    (rest : List (Call b)) : f.reached (c :: rest) = f.reached rest := by
  simp only [reached, call_of_fault h]

theorem reached_of_none (h : f.fault? c.input = none) (rest : List (Call b)) :
    f.reached (c :: rest) = c :: (f.stepBody b c.input c.world).frame.reached rest := by
  simp only [reached, call_of_none h]

theorem fault?_of_final (h : f.stage.isFinal = true) (x : Input) :
    f.fault? x = some (.stepAfterEnd f.stage) := by
  rw [fault?, if_pos h]

theorem fault?_eq_none_iff (x : Input) :
    f.fault? x = none ↔ f.stage.isFinal = false ∧ (x = .start ↔ f.stage = .ready) := by
  rw [fault?]
  cases hFinal : f.stage.isFinal with
  | true => simp
  | false => cases x <;> cases f.stage <;> simp [Input.isStart]

theorem fault?_eq_some_iff (x : Input) (fault : Fault) :
    f.fault? x = some fault ↔
      (f.stage.isFinal = true ∧ fault = .stepAfterEnd f.stage) ∨
        f.stage.isFinal = false ∧ ¬(x = .start ↔ f.stage = .ready) ∧ fault = .outOfTurn := by
  rw [fault?]
  cases hFinal : f.stage.isFinal with
  | true => simpa using eq_comm
  | false =>
    rw [if_neg Bool.false_ne_true]
    cases x <;> cases f.stage <;> simp [Input.isStart, eq_comm (a := Fault.outOfTurn)]

theorem after_append (f : Frame b.Body) (calls later : List (Call b)) :
    f.after (calls ++ later) = (f.after calls).after later := by
  simp only [after, List.foldl_append]

theorem results_append (f : Frame b.Body) (calls later : List (Call b)) :
    f.results (calls ++ later) = f.results calls ++ (f.after calls).results later := by
  induction calls generalizing f with
  | nil => rfl
  | cons c calls ih =>
    simp only [List.cons_append, results, ih]
    rfl

theorem reached_append (f : Frame b.Body) (calls later : List (Call b)) :
    f.reached (calls ++ later) = f.reached calls ++ (f.after calls).reached later := by
  induction calls generalizing f with
  | nil => rfl
  | cons c calls ih =>
    rw [List.cons_append, after_cons]
    cases hFault : f.fault? c.input with
    | some fault =>
      rw [reached_of_fault hFault, reached_of_fault hFault, call_of_fault hFault]
      exact ih f
    | none =>
      rw [reached_of_none hFault, reached_of_none hFault, call_of_none hFault]
      exact congrArg (c :: ·) (ih _)

theorem after_of_final (h : f.stage.isFinal = true) (later : List (Call b)) :
    f.after later = f := by
  induction later with
  | nil => rfl
  | cons c later ih => rwa [after_cons, call_of_fault (fault?_of_final h c.input)]

theorem reached_of_final (h : f.stage.isFinal = true) (later : List (Call b)) :
    f.reached later = [] := by
  induction later with
  | nil => rfl
  | cons c later ih => rwa [reached_of_fault (fault?_of_final h c.input)]

/-! ## What reached the body tells how the frame stands -/

/-- The stage of a frame that was made with `body`, whose body was given `taken` since. -/
inductive Aged (body : b.Body) : List (Call b) → Stage → Prop where
  | fresh : Aged body [] .ready
  | answered (before : List (Call b)) (c : Call b) :
      Aged body (before ++ [c]) (b.answerTo body before c).suspension.stage

theorem Aged.ready_iff {body : b.Body} {taken : List (Call b)} {stage : Stage}
    (h : Aged body taken stage) : stage = .ready ↔ taken = [] := by
  cases h with
  | fresh => simp
  | answered before c => simp [Answer.suspension_stage_ne_ready]

theorem Aged.iff {body : b.Body} {taken : List (Call b)} {stage : Stage}
    (h : Aged body taken stage) (other : Stage) (hOther : other ≠ .ready) :
    stage = other ↔ ∃ before c, taken = before ++ [c] ∧
      (b.answerTo body before c).suspension.stage = other := by
  cases h with
  | fresh => simpa using hOther.symm
  | answered before c =>
    constructor
    · intro hStage
      exact ⟨before, c, rfl, hStage⟩
    · rintro ⟨before', c', hTaken, hStage⟩
      obtain ⟨rfl, hc⟩ := List.append_inj' hTaken rfl
      cases hc
      exact hStage

/-- How a frame stands that was made with `body`, whose body was given `taken` since. -/
structure Stands (body : b.Body) (serial : Nat) (taken : List (Call b)) (g : Frame b.Body) :
    Prop where
  body_eq : g.body = b.bodyAfter body taken
  serial_eq : g.serial = serial
  aged : Aged body taken g.stage
  start : ∀ before c rest, taken = before ++ c :: rest → (c.input = .start ↔ before = [])
  waited : ∀ before c d rest, taken = before ++ c :: d :: rest →
    ∃ request, b.answerTo body before c = .wait request

theorem stands_fresh (body : b.Body) (serial : Nat) :
    Stands body serial [] (fresh body serial) where
  body_eq := rfl
  serial_eq := rfl
  aged := .fresh
  start := by simp
  waited := by simp

theorem Stands.call {body : b.Body} {serial : Nat} {taken : List (Call b)} {g : Frame b.Body}
    (h : Stands body serial taken g) {c : Call b} (hFault : g.fault? c.input = none) :
    Stands body serial (taken ++ [c]) (g.stepBody b c.input c.world).frame := by
  obtain ⟨hLive, hTurn⟩ := (fault?_eq_none_iff c.input).mp hFault
  refine ⟨?_, h.serial_eq, ?_, ?_, ?_⟩
  · rw [Behaviour.bodyAfter_concat, ← h.body_eq]
    rfl
  · have hStage : (g.stepBody b c.input c.world).frame.stage =
        (b.answerTo body taken c).suspension.stage := by
      rw [Behaviour.answerTo, ← h.body_eq]
      rfl
    rw [hStage]
    exact .answered taken c
  · intro before d rest hSplit
    rcases List.eq_nil_or_concat rest with rfl | ⟨rest, e, rfl⟩
    · obtain ⟨rfl, hd⟩ := List.append_inj' hSplit rfl
      cases hd
      exact hTurn.trans h.aged.ready_iff
    · rw [List.concat_eq_append, ← List.cons_append, ← List.append_assoc] at hSplit
      exact h.start before d rest (List.append_inj' hSplit rfl).1
  · intro before d e rest hSplit
    rcases List.eq_nil_or_concat rest with rfl | ⟨rest, e', rfl⟩
    · -- The call before the new one is the last that was taken, and the frame did not end.
      have hTaken : taken ++ [c] = (before ++ [d]) ++ [e] := by simpa using hSplit
      obtain ⟨rfl, -⟩ := List.append_inj' hTaken rfl
      have hStage : g.stage = .suspended := by
        have hReady : g.stage ≠ .ready := fun hReady => by simpa using h.aged.ready_iff.mp hReady
        cases hStage : g.stage with
        | ready => exact absurd hStage hReady
        | suspended => rfl
        | completed | failed => rw [hStage] at hLive; cases hLive
      obtain ⟨before', d', hTaken, hAnswer⟩ := (h.aged.iff .suspended (by decide)).mp hStage
      obtain ⟨rfl, hd⟩ := List.append_inj' hTaken rfl
      cases hd
      exact (Answer.suspended_iff _).mp hAnswer
    · have hTaken : taken ++ [c] = (before ++ d :: e :: rest) ++ [e'] := by simpa using hSplit
      exact h.waited before d e rest (List.append_inj' hTaken rfl).1

theorem stands_after (body : b.Body) (serial : Nat) (calls : List (Call b)) :
    Stands body serial ((fresh body serial).reached calls) ((fresh body serial).after calls) := by
  induction calls using List.reverseRecOn with
  | nil => exact stands_fresh body serial
  | append_singleton calls c ih =>
    rw [reached_append, after_append]
    cases hFault : ((fresh body serial).after calls).fault? c.input with
    | some fault =>
      rw [reached_of_fault hFault, reached, List.append_nil, after_cons, call_of_fault hFault]
      exact ih
    | none =>
      rw [reached_of_none hFault, reached, after_cons, call_of_none hFault]
      exact ih.call hFault

/-- What holds of a frame made with `body` after any calls, where `g` is the frame then and `taken`
are the calls that were no faults. The body was stepped with these inputs and no others: the start
comes first, exactly once, and nothing more once it returned or threw. The next call is a fault just
if the frame has ended, which is looked at first, or if the call is a start and the frame is not
ready, or the other way round. A call that is no fault steps the body and tells what it answered. A
fault leaves the frame as it was, and whatever is called later comes to what it would have come to
without it. A frame that has ended is not changed by any call. -/
structure Lifecycle (body : b.Body) (calls : List (Call b)) (taken : List (Call b))
    (f g : Frame b.Body) : Prop where
  start : ∀ before c rest, taken = before ++ c :: rest → (c.input = .start ↔ before = [])
  waited : ∀ before c d rest, taken = before ++ c :: d :: rest →
    ∃ request, b.answerTo body before c = .wait request
  body_eq : g.body = b.bodyAfter body taken
  faults : ∀ c fault, (g.call c).1 = .error fault ↔
    (g.stage.isFinal = true ∧ fault = .stepAfterEnd g.stage) ∨
      g.stage.isFinal = false ∧ ¬(c.input = .start ↔ g.stage = .ready) ∧ fault = .outOfTurn
  steps : ∀ c stepped, (g.call c).1 = .ok stepped →
    stepped = g.stepBody b c.input c.world ∧ (g.call c).2 = stepped.frame ∧
      stepped.suspension = (b.answerTo body taken c).suspension ∧
      f.reached (calls ++ [c]) = taken ++ [c]
  untouched : ∀ c fault, (g.call c).1 = .error fault → (g.call c).2 = g ∧ ∀ later,
    f.results (calls ++ later) = f.results calls ++ g.results later ∧
      f.results (calls ++ c :: later) = f.results calls ++ .error fault :: g.results later ∧
      f.after (calls ++ c :: later) = f.after (calls ++ later) ∧
      f.reached (calls ++ c :: later) = f.reached (calls ++ later)
  ready : g.stage = .ready ↔ taken = []
  suspended : g.stage = .suspended ↔ ∃ before c, taken = before ++ [c] ∧
    ∃ request, b.answerTo body before c = .wait request
  completed : g.stage = .completed ↔ ∃ before c, taken = before ++ [c] ∧
    ∃ d, b.answerTo body before c = .give d ∧ ∀ p, d ≠ .error p
  failed : g.stage = .failed ↔ ∃ before c, taken = before ++ [c] ∧
    ((∃ e, b.answerTo body before c = .raise e) ∨
      ∃ p, b.answerTo body before c = .give (.error p))
  ended : g.stage.isFinal = true → ∀ later,
    f.after (calls ++ later) = g ∧ f.reached (calls ++ later) = taken

theorem call_of_error {g : Frame b.Body} {fault : Fault} (h : (g.call c).1 = .error fault) :
    g.call c = (.error fault, g) := by
  cases hFault : g.fault? c.input with
  | none => rw [call_of_none hFault] at h; cases h
  | some fault' =>
    rw [call_of_fault hFault] at h ⊢
    obtain rfl := Except.error.inj h
    rfl

theorem Stands.clauses {body : b.Body} {serial : Nat} {calls taken : List (Call b)}
    {f g : Frame b.Body} (h : Stands body serial taken g) (hAfter : f.after calls = g)
    (hReached : f.reached calls = taken) : Lifecycle body calls taken f g where
  start := h.start
  waited := h.waited
  body_eq := h.body_eq
  faults c fault := by
    rw [← fault?_eq_some_iff]
    cases hFault : g.fault? c.input with
    | some fault' => simp [call_of_fault hFault]
    | none => simp [call_of_none hFault]
  steps c stepped hOk := by
    cases hFault : g.fault? c.input with
    | some fault => rw [call_of_fault hFault] at hOk; cases hOk
    | none =>
      rw [call_of_none hFault] at hOk
      obtain rfl := Except.ok.inj hOk
      refine ⟨rfl, by rw [call_of_none hFault], ?_, ?_⟩
      · rw [Behaviour.answerTo, ← h.body_eq]
        rfl
      · rw [reached_append, hAfter, hReached, reached_of_none hFault, reached]
  untouched c fault hError := by
    have hCall := call_of_error hError
    refine ⟨by rw [hCall], fun later => ⟨?_, ?_, ?_, ?_⟩⟩
    · rw [results_append, hAfter]
    · rw [results_append, hAfter, results, hCall]
    · rw [after_append, after_append, hAfter, after_cons, hCall]
    · rw [reached_append, reached_append, hAfter, reached, hCall]
  ready := h.aged.ready_iff
  suspended := by simpa only [Answer.suspended_iff] using h.aged.iff .suspended (by decide)
  completed := by simpa only [Answer.completed_iff] using h.aged.iff .completed (by decide)
  failed := by simpa only [Answer.failed_iff] using h.aged.iff .failed (by decide)
  ended hFinal later := by
    rw [after_append, reached_append, hAfter, hReached]
    exact ⟨after_of_final hFinal later, by rw [reached_of_final hFinal, List.append_nil]⟩

theorem lifecycle (body : b.Body) (serial : Nat) (calls : List (Call b)) :
    Lifecycle body calls ((fresh body serial).reached calls) (fresh body serial)
      ((fresh body serial).after calls) :=
  (stands_after body serial calls).clauses rfl rfl

end Frame

namespace Script

variable {library : Library} {limit : Nat}

def frameReply : Except Fault (Frame.Stepped (behaviour library limit)) → FrameReply
  | .ok stepped => ⟨.ok stepped.suspension, stepped.notes⟩
  | .error fault => ⟨.error fault, []⟩

def callsOf (library : Library) (limit : Nat) (f : Frame Body) (w : World) :
    List FrameStep → List (Call (behaviour library limit))
  | [] => []
  | step :: rest =>
    let (_, f', w') := stepFrame library limit f step w
    ⟨step.input, w⟩ :: callsOf library limit f' w' rest

theorem stepFrame_call (f : Frame (behaviour library limit).Body) (step : FrameStep) (w : World) :
    (stepFrame library limit f step w).1 = frameReply (f.call ⟨step.input, w⟩).1 ∧
      (stepFrame library limit f step w).2.1 = (f.call ⟨step.input, w⟩).2 := by
  unfold stepFrame Frame.call
  cases f.advance (behaviour library limit) step.input w with
  | error | ok => exact ⟨rfl, rfl⟩

theorem stepFrames_results (f : Frame (behaviour library limit).Body) (w : World)
    (steps : List FrameStep) :
    (stepFrames library limit f w steps).map Prod.fst =
      (f.results (callsOf library limit f w steps)).map frameReply := by
  induction steps generalizing f w with
  | nil => rfl
  | cons step rest ih =>
    obtain ⟨hReply, hFrame⟩ := stepFrame_call f step w
    simp only [stepFrames, callsOf, List.map_cons, Frame.results, hReply, hFrame, ih]

end Script

end Interlace
