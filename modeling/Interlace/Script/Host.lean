import Interlace.Script.Coroutine
import Interlace.Session

/-!
# Sessions of programs

What a host does with the programs of a library, action by action: start runs, complete or drop
what they deferred, let time pass, read gauges. After each action everything due at the instant
has happened.
-/

namespace Interlace.Script

open Session (budget)

def defaultLimit : Nat := 1024

inductive Mode where
  | run
  | free
  | awaited

inductive Action where
  | start (name : String) (mode : Mode) (maker : Maker) (args : List Expr)
  | fire (key : String) (ending : Ending)
  | drop (key : String)
  | advance (ms : Nat)
  | gauge (name : String)

inductive Reply where
  | nothing
  | started
  | escaped (e : Failure)
  | found (b : Bool)
  | gauge (g : Gauge)

abbrev Host (library : Library) (limit : Nat) := Session (behaviour library limit)

variable {library : Library} {limit : Nat}

def buildRecipe (s : Host library limit) (maker : Maker) : Recipe × Host library limit :=
  let (built, world) := (maker.build []).run s.machine.world
  let s := { s with machine := { s.machine with world } }
  match built with
  | .ok recipe => (recipe, s)
  | .error e => (.failing e, s)

def Action.perform (s : Host library limit) : Action → Reply × Host library limit
  | .start name mode maker args =>
    let (recipe, s) := buildRecipe s maker
    let args := Expr.evalAll [] args
    let withCallback (limit' : Nat) :=
      let (escaped, s) := s.start budget name recipe args limit'
      (match escaped with
        | some e => Reply.escaped e
        | none => Reply.started, s)
    match mode with
    | .run => withCallback limit
    | .free => withCallback defaultLimit
    | .awaited => (.nothing, s.await name recipe args limit)
  | .fire key ending =>
    let (found, s) := s.fire budget key (ending.eval [])
    (.found found, s)
  | .drop key =>
    let (found, s) := s.discard budget key
    (.found found, s)
  | .advance ms => (.nothing, s.advanceTo budget (s.time + ms))
  | .gauge name => (.gauge (s.machine.world.gauges.get name), s)

/-- Does an action and all that is due after it, and returns what was recorded meanwhile. -/
def Action.complete (s : Host library limit) (a : Action) :
    (Reply × List (Record (behaviour library limit))) × Host library limit :=
  let (reply, s) := a.perform { s with records := [] }
  let s := Session.rest budget s
  ((reply, s.records.reverse), { s with records := [] })

def runActions (s : Host library limit) :
    List Action → List (Reply × List (Record (behaviour library limit)))
  | [] => []
  | a :: rest =>
    let (done, s) := a.complete s
    done :: runActions s rest

def session (library : Library) (limit : Nat) (actions : List Action) :
    List (Reply × List (Record (behaviour library limit))) :=
  runActions (Session.new World.new) actions

/-- Runs one coroutine with a callback until no timer is left. The result is the error that
escapes, or the outcome that was delivered, if any. -/
def runAlone (library : Library) (maker : Maker) (args : List Expr) :
    Except Failure (Option Outcome) :=
  let s : Host library defaultLimit := Session.new World.new
  let (recipe, s) := buildRecipe s maker
  let (escaped, s) := s.start budget "" recipe (Expr.evalAll [] args) defaultLimit
  match escaped with
  | some e => .error e
  | none =>
    let s := Session.exhaust budget (Session.rest budget s)
    .ok (s.records.findSome? fun r =>
      match r.sighting with
      | .done _ _ o => some o
      | _ => none)

/-! ## Single frames and stacks -/

inductive FrameStep where
  | start
  | resume (a : Expr)
  | throw (cry : Cry)

def FrameStep.input : FrameStep → Input
  | start => .start
  | resume a => .value (a.eval [])
  | throw cry => .failure (cry.eval [])

structure FrameReply where
  result : Except Fault (Suspension Recipe Note)
  notes : List Note

def stepFrame (library : Library) (limit : Nat) (f : Frame Body) (step : FrameStep) (w : World) :
    FrameReply × Frame Body × World :=
  match f.advance (behaviour library limit) step.input w with
  | .error fault => (⟨.error fault, []⟩, f, w)
  | .ok stepped => (⟨.ok stepped.suspension, stepped.notes⟩, stepped.frame, stepped.world)

/-- Steps one frame after another and tells the stage after each step. -/
def stepFrames (library : Library) (limit : Nat) (f : Frame Body) (w : World) :
    List FrameStep → List (FrameReply × Stage)
  | [] => []
  | step :: rest =>
    let (reply, f, w) := stepFrame library limit f step w
    (reply, f.stage) :: stepFrames library limit f w rest

def withFirstNotes (notes : List Note) :
    List (FrameReply × Stage) → List (FrameReply × Stage)
  | [] => []
  | (reply, stage) :: rest => ({ reply with notes := notes ++ reply.notes }, stage) :: rest

/-- Instantiates a recipe and steps it as a single frame. What was noted while it was made goes
with the first step. -/
def routine (library : Library) (maker : Maker) (args : List Expr) (steps : List FrameStep) :
    List (FrameReply × Stage) :=
  let (built, w) := (maker.build []).run World.new
  let recipe := match built with
    | .ok recipe => recipe
    | .error e => .failing e
  let (body, notes, w) := make defaultLimit recipe (Expr.evalAll [] args) w
  withFirstNotes notes (stepFrames library defaultLimit ⟨body, .ready, 0⟩ w steps)

inductive StackStep where
  | push (maker : Maker)
  | pop
  | top (step : FrameStep)

inductive StackReply where
  | pushed
  | refused (e : Failure)
  | popped (stage : Except Fault (Option Stage))
  | stepped (reply : FrameReply)
  | empty

def stepStack (library : Library) (limit : Nat) (s : Frames Body) (w : World) :
    StackStep → StackReply × Frames Body × World
  | .push maker =>
    let (built, w) := (maker.build []).run w
    let recipe := match built with
      | .ok recipe => recipe
      | .error e => .failing e
    let (body, _, w) := make limit recipe [] w
    match s.push body with
    | .ok s => (.pushed, s, w)
    | .error e => (.refused e, s, w)
  | .pop =>
    let (frame, rest) := s.pop
    match s.popFault? with
    | some fault => (.popped (.error fault), rest, w)
    | none => (.popped (.ok (frame.map Frame.stage)), rest, w)
  | .top step =>
    match s.top? with
    | none => (.empty, s, w)
    | some f =>
      let (reply, f, w) := stepFrame library limit f step w
      (.stepped reply, s.setTop f, w)

def stepStacks (library : Library) (limit : Nat) (s : Frames Body) (w : World) :
    List StackStep → List (StackReply × Frames Body)
  | [] => []
  | step :: rest =>
    let (reply, s, w) := stepStack library limit s w step
    (reply, s) :: stepStacks library limit s w rest

/-- The steps of a stack of at most `max` frames, empty at first. -/
def stack (library : Library) (max : Nat) (steps : List StackStep) :
    List (StackReply × Frames Body) :=
  stepStacks library defaultLimit (.empty max) World.new steps

/-! ## Single requests -/

/-- What becomes of a request: a recipe to push, or an uptake and the outcome, if the work brings
one while it is invoked. -/
inductive Classified where
  | push
  | await (uptake : Uptake) (outcome : Option Outcome)

/-- Builds a request, resolves it and invokes its work once, as if for the first wait of a run
that is not there. -/
def classify (library : Library) (limit : Nat) (ask : Ask) :
    Except Failure (Request Recipe Note × Classified) :=
  let (built, w) := (ask.build limit []).run World.new
  match built with
  | .error e => .error e
  | .ok request =>
    match request.resolve limit with
    | .push _ => .ok (request, .push)
    | .await work uptake =>
      let m : Machine (behaviour library limit) := .new w
      let place : Place := [0, 0]
      let look (seen : Option Outcome) : Event (behaviour library limit) → Option Outcome
        | .called p o => if p = place then some o else seen
        | _ => seen
      let (outcome, _) := Machine.runWith look budget none (m.push [.invoke place work])
      .ok (request, .await uptake outcome)

end Interlace.Script
