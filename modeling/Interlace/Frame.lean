import Interlace.Work

/-!
# Frames and stacks of frames

A `Frame` is an instantiated coroutine with the stage of its life. It is started exactly once,
before anything else, and not stepped after its end. Misuse is a `Fault`, which leaves the frame
as it was. `Frames` is a stack of bounded depth, of which only the top frame is stepped.
-/

namespace Interlace

inductive Stage where
  | ready
  | suspended
  | completed
  | failed
deriving DecidableEq, Inhabited

def Stage.isFinal : Stage → Bool
  | completed | failed => true
  | _ => false

def Stage.name : Stage → String
  | ready => "Ready"
  | suspended => "Suspended"
  | completed => "Completed"
  | failed => "Failed"

inductive Fault where
  | stepAfterEnd (stage : Stage)
  | outOfTurn
  | liveFramePopped
  | emptyStack
  | waitOver
  | itemTwice
  | noItem (width index : Nat)
deriving DecidableEq

def Fault.message : Fault → String
  | stepAfterEnd stage => "coroutine stepped after reaching terminal state " ++ stage.name
  | outOfTurn => "coroutine must be started exactly once, before any resume"
  | liveFramePopped => "popped a live frame"
  | emptyStack => "Internal error: driving an empty delegation stack"
  | waitOver => "Internal error: hand-off cell consumed before the driver checked it"
  | itemTwice => "join item reported twice"
  | noItem width index =>
    "index out of bounds: the len is " ++ toString width ++ " but the index is " ++ toString index

inductive Suspension (Recipe Note : Type) where
  | yielded (request : Request Recipe Note)
  | completed (d : Datum)
  | failed (e : Failure)

def Answer.suspension {Recipe Note : Type} : Answer Recipe Note → Suspension Recipe Note
  | wait r => .yielded r
  | give (.error p) => .failed (.ofReturned p)
  | give d => .completed d
  | raise e => .failed e

def Suspension.stage {Recipe Note : Type} : Suspension Recipe Note → Stage
  | yielded _ => .suspended
  | completed _ => .completed
  | failed _ => .failed

/-- An instantiated coroutine. The serial number tells the frames of one stack apart, those
removed included. -/
structure Frame (Body : Type) where
  body : Body
  stage : Stage
  serial : Nat

def Input.isStart : Input → Bool
  | start => true
  | _ => false

namespace Frame

/-- The fault of stepping a frame with an input, if it is one. That the frame has ended is looked
at first. -/
def fault? {Body : Type} (f : Frame Body) (input : Input) : Option Fault :=
  if f.stage.isFinal then some (.stepAfterEnd f.stage)
  else if input.isStart == (f.stage == .ready) then none
  else some .outOfTurn

/-- A step that was no fault: what it came to, the frame after it, and the effects of the body. -/
structure Stepped (b : Behaviour) where
  suspension : Suspension b.Recipe b.Note
  frame : Frame b.Body
  notes : List b.Note
  world : b.World

def stepBody (b : Behaviour) (f : Frame b.Body) (input : Input) (w : b.World) : Stepped b :=
  let (answer, body, notes, w) := b.step f.body input w
  let suspension := answer.suspension
  ⟨suspension, ⟨body, suspension.stage, f.serial⟩, notes, w⟩

def advance (b : Behaviour) (f : Frame b.Body) (input : Input) (w : b.World) :
    Except Fault (Stepped b) :=
  match f.fault? input with
  | some fault => .error fault
  | none => .ok (f.stepBody b input w)

end Frame

/-- A stack of at most `limit` frames, the top first. -/
structure Frames (Body : Type) where
  frames : List (Frame Body)
  limit : Nat
  pushed : Nat

namespace Frames

variable {Body : Type}

def empty (limit : Nat) : Frames Body := ⟨[], limit, 0⟩

def depth (s : Frames Body) : Nat := s.frames.length

def isEmpty (s : Frames Body) : Bool := s.frames.isEmpty

def top? (s : Frames Body) : Option (Frame Body) := s.frames.head?

/-- Puts a body on top as a frame that is ready to start; a full stack refuses it. -/
def push (s : Frames Body) (body : Body) : Except Failure (Frames Body) :=
  if s.limit ≤ s.depth then .error (.tooDeep s.limit)
  else .ok { s with frames := ⟨body, .ready, s.pushed⟩ :: s.frames, pushed := s.pushed + 1 }

def setTop (s : Frames Body) (f : Frame Body) : Frames Body :=
  { s with frames := f :: s.frames.tail }

def pop (s : Frames Body) : Option (Frame Body) × Frames Body :=
  (s.top?, { s with frames := s.frames.tail })

def popFault? (s : Frames Body) : Option Fault :=
  match s.top? with
  | some f => if f.stage.isFinal then none else some .liveFramePopped
  | none => none

end Frames

/-! ## One turn of a run -/

inductive Turn (Recipe Note : Type) where
  | next (input : Input)
  | await (work : Work Recipe Note) (uptake : Uptake)
  | finished (outcome : Outcome)
  | fault (f : Fault)

structure Turned (b : Behaviour) where
  turn : Turn b.Recipe b.Note
  frames : Frames b.Body
  notes : List b.Note
  world : b.World

namespace Frames

/-- Takes off a top frame that has ended. Its outcome goes to the frame below, or is that of the
stack. -/
def conclude (b : Behaviour) (s : Frames b.Body) (outcome : Outcome) (notes : List b.Note)
    (w : b.World) : Turned b :=
  match s.popFault? with
  | some fault => ⟨.fault fault, s, notes, w⟩
  | none =>
    let rest := s.pop.2
    if rest.isEmpty then ⟨.finished outcome, rest, notes, w⟩
    else ⟨.next (.ofOutcome outcome), rest, notes, w⟩

/-- Puts a coroutine on top and starts it. A refusal is thrown into the frame that asked. -/
def delegate (b : Behaviour) (s : Frames b.Body) (recipe : b.Recipe) (notes : List b.Note)
    (w : b.World) : Turned b :=
  let (body, made, w) := b.make recipe [] w
  match s.push body with
  | .ok s => ⟨.next .start, s, notes ++ made, w⟩
  | .error e => ⟨.next (.failure e), s, notes ++ made, w⟩

def turn (b : Behaviour) (s : Frames b.Body) (input : Input) (w : b.World) : Turned b :=
  match s.top? with
  | none => ⟨.fault .emptyStack, s, [], w⟩
  | some f =>
    match f.advance b input w with
    | .error fault => ⟨.fault fault, s, [], w⟩
    | .ok stepped =>
      let s := s.setTop stepped.frame
      match stepped.suspension with
      | .completed d => s.conclude b (.ok d) stepped.notes stepped.world
      | .failed e => s.conclude b (.error e) stepped.notes stepped.world
      | .yielded request =>
        match request.resolve s.limit with
        | .push recipe => s.delegate b recipe stepped.notes stepped.world
        | .await work uptake => ⟨.await work uptake, s, stepped.notes, stepped.world⟩

end Frames

end Interlace
