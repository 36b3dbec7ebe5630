import Interlace.Gather
import Interlace.Table

/-!
# The machine that runs coroutines

Runs and joins live in one table, by place. The continuation that an operation is given is again a
place: calling `n :: p` hands an outcome to the run or join at `p`, for its wait or item `n`. So a
run at a place completes by calling that same place, and a top-level run, at `[n]`, completes
outside. What would be the call stack is an agenda of jobs, worked off from the front.
-/

namespace Interlace

/-- What a wait has received while its work is still being invoked. -/
inductive Mail where
  | empty
  | outcome (o : Outcome)
  | lost

inductive Phase where
  | driving
  | invoking (uptake : Uptake) (mail : Mail)
  | parked (uptake : Uptake)

/-- A run: its stack, the number of its current or next wait, and whether it was ever parked. -/
structure Run (b : Behaviour) where
  frames : Frames b.Body
  wait : Nat
  phase : Phase
  wasParked : Bool

inductive Node (b : Behaviour) where
  | run (r : Run b)
  | gather (g : Gather)

inductive Hold where
  | keyed (key : String)
  | timed (ms : Nat) (outcome : Outcome)

/-- A continuation that was handed out and has been neither called nor dropped. -/
structure Held where
  place : Place
  hold : Hold

/-- What the machine has to do. A run looks by `check` for what the invocation of the work that it
waits for has brought, `items` goes on to start the items of a join, and `poke` completes the oldest
continuation kept under a key. -/
inductive Job (b : Behaviour) where
  | start (p : Place) (recipe : b.Recipe) (args : List Datum) (limit : Nat)
  | drive (p : Place) (input : Input)
  | invoke (p : Place) (work : Work b.Recipe b.Note)
  | check (p : Place)
  | items (p : Place) (index : Nat) (rest : List (Work b.Recipe b.Note))
  | hold (p : Place) (hold : Hold)
  | poke (p : Poke)
  | tell (key : String) (found : Bool)
  | deliver (p : Place) (outcome : Outcome)
  | drop (p : Place)

/-- What can be observed. With `escaped` a top-level run that never parked has failed with an error
that nothing caught. -/
inductive Event (b : Behaviour) where
  | note (note : b.Note)
  | made (p : Place)
  | stepped (p : Place) (serial : Nat) (input : Input)
  | invoked (p : Place)
  | held (p : Place) (hold : Hold)
  | poked (key : String) (found : Bool)
  | called (p : Place) (outcome : Outcome)
  | dropped (p : Place)
  | escaped (n : Nat) (e : Failure)
  | fault (p : Place) (f : Fault)

structure Machine (b : Behaviour) where
  world : b.World
  nodes : Table (Node b)
  /-- The continuations handed out, the oldest first. -/
  held : List Held
  agenda : List (Job b)

namespace Machine

variable {b : Behaviour}

def new (world : b.World) : Machine b := ⟨world, .empty, [], []⟩

def run? (m : Machine b) (p : Place) : Option (Run b) :=
  match m.nodes.find? p with
  | some (.run r) => some r
  | _ => none

def gather? (m : Machine b) (p : Place) : Option Gather :=
  match m.nodes.find? p with
  | some (.gather g) => some g
  | _ => none

def setRun (m : Machine b) (p : Place) (r : Run b) : Machine b :=
  { m with nodes := m.nodes.insert p (.run r) }

def setGather (m : Machine b) (p : Place) (g : Gather) : Machine b :=
  { m with nodes := m.nodes.insert p (.gather g) }

def remove (m : Machine b) (p : Place) : Machine b := { m with nodes := m.nodes.erase p }

def push (m : Machine b) (jobs : List (Job b)) : Machine b :=
  { m with agenda := jobs ++ m.agenda }

end Machine

def takeKeyed (key : String) : List Held → Option (Place × List Held)
  | [] => none
  | h :: rest =>
    match h.hold with
    | .keyed k => if k = key then some (h.place, rest) else next h rest
    | .timed _ _ => next h rest
where
  next (h : Held) (rest : List Held) : Option (Place × List Held) :=
    (takeKeyed key rest).map fun (p, others) => (p, h :: others)

def takePlace (p : Place) (held : List Held) : Option (List Held) :=
  if held.any (·.place == p) then some (held.filter (·.place != p)) else none

end Interlace
