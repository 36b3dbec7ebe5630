import Interlace.Machine.Step

/-!
# Sessions

A session hosts a machine in virtual time. It starts runs, either with a callback or awaited as a
future, keeps the timers, and passes on what is done from outside. Whatever has to wait for its
turn stands in one queue: first polls of futures, timers to be set or gone off, and futures that
have settled. The queue is worked off before time moves on, and time moves only when told to,
from one due timer to the next.
-/

namespace Interlace

inductive Via where
  | callback
  | future
deriving DecidableEq

structure Launch where
  name : String
  via : Via

inductive Sighting (b : Behaviour) where
  | note (n : b.Note)
  | poked (key : String) (found : Bool)
  | done (name : String) (via : Via) (outcome : Outcome)

structure Record (b : Behaviour) where
  time : Nat
  sighting : Sighting b

inductive Errand (b : Behaviour) where
  | begin (n : Nat) (recipe : b.Recipe) (args : List Datum) (limit : Nat)
  | setTimer (p : Place) (ms : Nat) (outcome : Outcome)
  | ring (p : Place) (outcome : Outcome)
  | wake (n : Nat) (outcome : Outcome)

structure Timer where
  due : Nat
  place : Place
  outcome : Outcome

/-- A machine and what its host keeps: timers in the order in which they were set, and records, the
latest first. While the future `polling` is polled for the first time, or a run is being started with
a callback, `ending` is how it has ended on its caller's stack. -/
structure Session (b : Behaviour) where
  machine : Machine b
  time : Nat
  launches : Array Launch
  errands : List (Errand b)
  timers : List Timer
  records : List (Record b)
  polling : Option Nat
  ending : Option Outcome

namespace Session

variable {b : Behaviour}

/-- How many steps of each kind one act may take. -/
def budget : Nat := 10 ^ 12

def new (world : b.World) : Session b := ⟨.new world, 0, #[], [], [], [], none, none⟩

def record (s : Session b) (sighting : Sighting b) : Session b :=
  { s with records := ⟨s.time, sighting⟩ :: s.records }

def enqueue (s : Session b) (e : Errand b) : Session b := { s with errands := s.errands ++ [e] }

/-- Takes the end of a top-level run. A callback is told at once. A future that is being polled
is at its end after that poll, and any other is woken. -/
def settle (s : Session b) (n : Nat) (told : Option Outcome) (o : Outcome) : Session b :=
  match s.launches[n]? with
  | none => s
  | some launch =>
    match launch.via, told with
    | .callback, some o => s.record (.done launch.name .callback o)
    | .callback, none => s
    | .future, _ =>
      if s.polling = some n then { s with ending := some o } else s.enqueue (.wake n o)

def observe (s : Session b) : Event b → Session b
  | .note n => s.record (.note n)
  | .poked key found => s.record (.poked key found)
  | .held p (.timed ms o) => s.enqueue (.setTimer p ms o)
  | .called [n] o => s.settle n (some o) o
  | .dropped [n] => s.settle n none (.error .abandoned)
  | .escaped _ e => { s with ending := some (.error e) }
  | _ => s

def drain (fuel : Nat) (s : Session b) : Session b :=
  let (s, machine) := Machine.runWith observe fuel s s.machine
  { s with machine }

def act (fuel : Nat) (s : Session b) (a : Machine.Act b) : Session b :=
  { s with machine := s.machine.act a }.drain fuel

def recordFuture (s : Session b) (n : Nat) (o : Outcome) : Session b :=
  match s.launches[n]? with
  | some launch => s.record (.done launch.name .future o)
  | none => s

def run (fuel : Nat) (s : Session b) : Errand b → Session b
  | .begin n recipe args limit =>
    let s := { s with polling := some n, ending := none }
    let s := s.act fuel (.begin n recipe args limit)
    let ending := s.ending
    let s := { s with polling := none, ending := none }
    match ending with
    | some o => s.recordFuture n o
    | none => s
  | .setTimer p ms o =>
    if ms = 0 then s.act fuel (.call p o)
    else { s with timers := s.timers ++ [⟨s.time + ms, p, o⟩] }
  | .ring p o => s.act fuel (.call p o)
  | .wake n o => s.recordFuture n o

def rest : Nat → Session b → Session b
  | 0, s => s
  | fuel + 1, s =>
    match s.errands with
    | [] => s
    | e :: errands => rest fuel ({ s with errands }.run fuel e)

def nextDue? (s : Session b) : Option Nat :=
  s.timers.foldl (fun (least : Option Nat) t => some (least.elim t.due (min t.due))) none

/-- Moves to an instant and lets the timers due at it go off, in the order they were set. -/
def moveTo (fuel : Nat) (s : Session b) (time : Nat) : Session b :=
  let due := s.timers.filter fun t => t.due ≤ time
  let timers := s.timers.filter fun t => time < t.due
  rest fuel
    { s with time, timers, errands := s.errands ++ due.map fun t => .ring t.place t.outcome }

/-- Moves on to a time, with a stop at every timer that is due until then. -/
def advanceTo : Nat → Session b → Nat → Session b
  | 0, s, _ => s
  | fuel + 1, s, time =>
    match s.nextDue? with
    | some due =>
      if due ≤ time then advanceTo fuel (s.moveTo fuel due) time else { s with time }
    | none => { s with time }

def exhaust : Nat → Session b → Session b
  | 0, s => s
  | fuel + 1, s =>
    match s.nextDue? with
    | some due => exhaust fuel (s.moveTo fuel due)
    | none => s

/-! ## Acts of the host -/

/-- Starts a run with a callback. An error that escapes is returned. -/
def start (fuel : Nat) (s : Session b) (name : String) (recipe : b.Recipe) (args : List Datum)
    (limit : Nat) : Option Failure × Session b :=
  let n := s.launches.size
  let s := { s with launches := s.launches.push ⟨name, .callback⟩, ending := none }
  let s := s.act fuel (.begin n recipe args limit)
  let escaped := match s.ending with
    | some (.error e) => some e
    | _ => none
  (escaped, { s with ending := none })

def await (s : Session b) (name : String) (recipe : b.Recipe) (args : List Datum) (limit : Nat) :
    Session b :=
  let n := s.launches.size
  { s with launches := s.launches.push ⟨name, .future⟩ }.enqueue (.begin n recipe args limit)

def fire (fuel : Nat) (s : Session b) (key : String) (o : Outcome) : Bool × Session b :=
  match s.machine.keyed? key with
  | some p => (true, s.act fuel (.call p o))
  | none => (false, s)

def discard (fuel : Nat) (s : Session b) (key : String) : Bool × Session b :=
  match s.machine.keyed? key with
  | some p => (true, s.act fuel (.drop p))
  | none => (false, s)

end Session

end Interlace
