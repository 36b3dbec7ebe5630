import Interlace.Gauge
import Interlace.Text.Diagnostic
import Interlace.Work

/-!
# Showcase coroutines

Small coroutines that show fan-outs, nested runs and the two ways to deal with a failure. They are
written over any type of recipes that contains them, and share nothing but gauges.
-/

namespace Interlace

/-- The coroutines of the showcase. A fan-out waits for sleeps and given values, or for nested
coroutines, and returns the joined list. A lookup finds its first argument through a coroutine that
reads the key after a pause: `lookupCaptured` captures failures as data, and `lookupDelegated`
delegates and catches them. -/
inductive Demo where
  | fanOutSleeps (latencies : List Nat) (immediate : List Datum)
  | fanOutNested (times : List Nat) (gauge : String)
  /-- Sleeps for a time between entering and leaving a gauge, and returns three times that time,
  which is assumed to fit a word of 64 bits. -/
  | sleepThenTriple (time : Nat) (gauge : String)
  | lookupCaptured
  | lookupDelegated
  | fetchCaptured (key : String)
  | fetchRaising (key : String)

namespace Demo

structure Body where
  demo : Demo
  key : String
  steps : Nat

def keyArgument (args : List Datum) : String := (args.head?.bind Datum.toText?).getD ""

def make (demo : Demo) (args : List Datum) : Body := ⟨demo, keyArgument args, 0⟩

variable {Recipe Note : Type}

/-- Reading a file fails before any work is there to be done, unless the file exists. -/
def contents (path : String) : Except Failure (Work Recipe Note) :=
  if path = "/keys/foo" then .ok (.done (.ok (.text "bar")))
  else .error (.ofOperation ("could not find " ++ path))

def keyPath (key : String) : String := "/keys/" ++ key

def pause : Work Recipe Note := .sleep 5

def raiseNotFound : Answer Recipe Note := .raise ⟨.uncaught, Failure.notFound⟩

/-- Steps a body of the showcase, whose recipes `wrap` makes into recipes at large. -/
def step (wrap : Demo → Recipe) (body : Body) (input : Input) (gauges : Gauges) :
    Answer Recipe Note × Body × Gauges :=
  let after : Body := { body with steps := body.steps + 1 }
  let nested (d : Demo) : Item Recipe Note := .coroutine (wrap d)
  match body.demo, body.steps with
  | .fanOutSleeps latencies immediate, 0 =>
    let items := latencies.map Work.sleep ++ immediate.map fun d => Work.done (.ok d)
    (.wait (.all (items.map .work)), after, gauges)
  | .fanOutSleeps _ _, _ => (.ofOutcome input.outcome, after, gauges)
  | .fanOutNested times gauge, 0 =>
    (.wait (.all (times.map fun t => nested (.sleepThenTriple t gauge))), after, gauges)
  | .fanOutNested _ _, _ => (.ofOutcome input.outcome, after, gauges)
  | .sleepThenTriple time gauge, 0 => (.wait (.single (.sleep time)), after, gauges.enter gauge)
  | .sleepThenTriple time gauge, _ =>
    let answer := match input.outcome with
      -- The product is taken without a bound: it is assumed to fit a word of 64 bits.
      | .ok _ => .give (.number (Number.ofNat (time * 3)))
      | .error e => .raise e
    (answer, after, gauges.leave gauge)
  | .lookupCaptured, 0 => (.wait (.caught (nested (.fetchCaptured body.key))), after, gauges)
  | .lookupCaptured, _ =>
    let answer := match input.outcome with
      | .ok (.list [error, value]) => .give (if error.isNull then value else .null)
      | .ok other => .raise (.raised ("expected a pair, got " ++ Diagnostic.datum other))
      | .error e => .raise e
    (answer, after, gauges)
  | .fetchCaptured _, 0 => (.wait (.single pause), after, gauges)
  | .fetchCaptured key, 1 =>
    let read := match contents (keyPath key) with
      | .ok work => work
      | .error e => .done (.error e)
    (.wait (.caught (.work read)), after, gauges)
  | .fetchCaptured _, _ =>
    let answer := match input.outcome with
      | .ok (.list [.null, value]) => .give value
      | .ok _ => .give (.error Failure.notFound)
      | .error e => .raise e
    (answer, after, gauges)
  | .lookupDelegated, 0 => (.wait (.inner (wrap (.fetchRaising body.key))), after, gauges)
  | .lookupDelegated, _ =>
    let answer := match input.outcome with
      | .ok d => .give d
      | .error _ => .give .null
    (answer, after, gauges)
  | .fetchRaising _, 0 => (.wait (.single pause), after, gauges)
  | .fetchRaising key, 1 =>
    let answer := match input.outcome, contents (keyPath key) with
      | .ok _, .ok work => .wait (.single work)
      | _, _ => raiseNotFound
    (answer, after, gauges)
  | .fetchRaising _, _ =>
    let answer := match input.outcome with
      | .ok d => .give d
      | .error _ => raiseNotFound
    (answer, after, gauges)

def behaviour : Behaviour where
  Recipe := Demo
  Body := Body
  World := Gauges
  Note := Empty
  make demo args gauges := (demo.make args, [], gauges)
  step body input gauges :=
    let (answer, body, gauges) := step id body input gauges
    (answer, body, [], gauges)

end Demo

end Interlace
