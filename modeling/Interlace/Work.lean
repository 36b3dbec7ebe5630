import Interlace.Datum.Basic

/-!
# Coroutines, requests and work

A coroutine is known by a `Behaviour` alone: how a recipe is made into a body, and what a body
answers when it is stepped. Nothing else looks into a body. A body waits for a `Request`, which is
resolved either into a recipe to run on the same stack or into one piece of `Work` together with
the way its outcome is taken up.
-/

namespace Interlace

inductive Input where
  | start
  | value (d : Datum)
  | failure (e : Failure)
deriving Inhabited

/-- The outcome that an input carries; the start carries `null`. -/
def Input.outcome : Input → Outcome
  | start => .ok .null
  | value d => .ok d
  | failure e => .error e

def Input.ofOutcome : Outcome → Input
  | .ok d => value d
  | .error e => failure e

/-! ## Work -/

/-- What a primitive piece of work does with the continuation it is given. -/
inductive Fate where
  | complete (outcome : Outcome)
  | keep (key : String)
  | delay (ms : Nat) (outcome : Outcome)
  | drop

structure Poke where
  key : String
  outcome : Outcome

/-- Work that ends by itself. It may complete other continuations before and after it disposes of
its own. -/
structure Primitive where
  before : List Poke
  fate : Fate
  after : List Poke

/-- Work is primitive, or leaves a note and goes on, or does several items at once and ends with the
list of their values or with the first failure, or runs a coroutine on a stack of its own of at most
`limit` frames. -/
inductive Work (Recipe Note : Type) where
  | primitive (p : Primitive)
  | noted (note : Note) (work : Work Recipe Note)
  | gather (items : List (Work Recipe Note))
  | nested (limit : Nat) (recipe : Recipe)

namespace Work

variable {Recipe Note : Type}

def done (outcome : Outcome) : Work Recipe Note := primitive ⟨[], .complete outcome, []⟩

def sleep (ms : Nat) : Work Recipe Note :=
  primitive ⟨[], .delay ms (.ok (.number (Number.ofNat ms))), []⟩

end Work

/-- Something to be done on behalf of a coroutine: work, or another coroutine. -/
inductive Item (Recipe Note : Type) where
  | work (w : Work Recipe Note)
  | coroutine (recipe : Recipe)

def Item.toWork {Recipe Note : Type} (limit : Nat) : Item Recipe Note → Work Recipe Note
  | work w => w
  | coroutine r => .nested limit r

/-! ## Requests -/

/-- What a coroutine asks for. The failure of a single piece of work, or the first one among several
items, is thrown in. The outcome of a captured item comes back as a pair, and an inner coroutine
runs on the same stack. -/
inductive Request (Recipe Note : Type) where
  | single (work : Work Recipe Note)
  | all (items : List (Item Recipe Note))
  | caught (item : Item Recipe Note)
  | inner (recipe : Recipe)

/-- How an outcome is taken up: a value resumes and a failure is thrown in, or the outcome resumes
as a pair. -/
inductive Uptake where
  | throwing
  | capturing
deriving DecidableEq

def Uptake.apply : Uptake → Outcome → Input
  | throwing, o => .ofOutcome o
  | capturing, o => .value (.ofOutcome o)

inductive Resolution (Recipe Note : Type) where
  | push (recipe : Recipe)
  | await (work : Work Recipe Note) (uptake : Uptake)

/-- Coroutines among the items of a request get stacks of the same limit as the one that asks. -/
def Request.resolve {Recipe Note : Type} (limit : Nat) :
    Request Recipe Note → Resolution Recipe Note
  | single w => .await w .throwing
  | all items => .await (.gather (items.map (Item.toWork limit))) .throwing
  | caught item => .await (item.toWork limit) .capturing
  | inner r => .push r

def Request.kind {Recipe Note : Type} : Request Recipe Note → String
  | single _ => "single"
  | all _ => "fan_out"
  | caught _ => "capture_both"
  | inner _ => "delegate"

def Item.summary {Recipe Note : Type} : Item Recipe Note → String
  | work _ => "Operation"
  | coroutine _ => "Coroutine"

def Request.summary {Recipe Note : Type} : Request Recipe Note → String
  | single _ => "Single(Operation)"
  | all items => "FanOut([" ++ ", ".intercalate (items.map Item.summary) ++ "])"
  | caught item => "CaptureBoth(" ++ item.summary ++ ")"
  | inner _ => "Delegate(Coroutine)"

/-! ## Behaviours -/

inductive Answer (Recipe Note : Type) where
  | wait (request : Request Recipe Note)
  | give (d : Datum)
  | raise (e : Failure)

def Answer.ofOutcome {Recipe Note : Type} : Outcome → Answer Recipe Note
  | .ok d => give d
  | .error e => raise e

/-- A kind of coroutine. Bodies may share a world, and leave notes for whoever watches. -/
structure Behaviour where
  Recipe : Type
  Body : Type
  World : Type
  Note : Type
  make : Recipe → List Datum → World → Body × List Note × World
  step : Body → Input → World → Answer Recipe Note × Body × List Note × World

end Interlace
