import Interlace.Machine.Step

/-!
# Histories

A history is a machine together with what has happened to it so far. It grows by moves: the
machine does the first job of its agenda, or something is done to it from outside. An act from
outside may come at any moment, also while other jobs are on the agenda. Such an act is worked off
first, so it stands for what an operation or a callback does while it is being called.
-/

namespace Interlace

variable {b : Behaviour}

/-- What may happen next: a job is done, or something comes from outside. The top-level run number
`n` is begun, unless the number was used before, or a continuation is called or dropped. -/
inductive Move (b : Behaviour) where
  | work
  | begin (n : Nat) (recipe : b.Recipe) (args : List Datum) (limit : Nat)
  | call (p : Place) (outcome : Outcome)
  | drop (p : Place)

structure Doing (b : Behaviour) where
  job : Job b
  world : b.World

/-- A machine with what was observed and the jobs that were done so far, the latest last, and the
numbers of the top-level runs that were begun. -/
structure History (b : Behaviour) where
  machine : Machine b
  log : List (Event b)
  done : List (Doing b)
  begun : List Nat

namespace History

def new (world : b.World) : History b := ⟨.new world, [], [], []⟩

def afterJob (h : History b) (job : Job b) (rest : List (Job b)) : History b :=
  let effect := { h.machine with agenda := rest }.perform job
  { h with
    machine := effect.2
    log := h.log ++ effect.1
    done := h.done ++ [⟨job, h.machine.world⟩] }

def afterAct (h : History b) (a : Machine.Act b) : History b :=
  { h with machine := h.machine.act a }

def move (h : History b) : Move b → History b
  | .work =>
    match h.machine.agenda with
    | [] => h
    | job :: rest => h.afterJob job rest
  | .begin n recipe args limit =>
    if n ∈ h.begun then h
    else { h.afterAct (.begin n recipe args limit) with begun := n :: h.begun }
  | .call p o => h.afterAct (.call p o)
  | .drop p => h.afterAct (.drop p)

/-- All jobs are done: what happens next comes from outside. -/
def AtRest (h : History b) : Prop := h.machine.agenda = []

instance (h : History b) : Decidable h.AtRest :=
  decidable_of_iff (h.machine.agenda.isEmpty = true) List.isEmpty_iff

end History

/-- All that happens to a machine, move by move. -/
abbrev Schedule (b : Behaviour) := Nat → Move b

namespace Schedule

def after (s : Schedule b) (world : b.World) : Nat → History b
  | 0 => .new world
  | k + 1 => (s.after world k).move (s k)

def job? (s : Schedule b) (world : b.World) (k : Nat) : Option (Job b) :=
  match s k with
  | .work => (s.after world k).machine.agenda.head?
  | _ => none

def alone (recipe : b.Recipe) (args : List Datum) (limit : Nat) : Schedule b
  | 0 => .begin 0 recipe args limit
  | _ => .work

end Schedule

end Interlace
