/-!
# Failures

A `Problem` is an error as data: a code and a message. A `Failure` is the error on its way through
frames, runs and joins. It adds where the error came from, since only an uncaught error may leave
a run on its caller's stack.
-/

namespace Interlace

structure Problem where
  code : String
  message : String
deriving DecidableEq, Inhabited

/-- Where a failure comes from: an operation reported it, a coroutine returned an error value, a
coroutine raised it and nothing caught it, or it is the first failure among the items of a
fan-out. -/
inductive Origin where
  | operation
  | returned
  | uncaught
  | joined
deriving DecidableEq, Inhabited

structure Failure where
  origin : Origin
  problem : Problem
deriving DecidableEq, Inhabited

def Problem.summary (p : Problem) : String := p.code ++ ": " ++ p.message

def Origin.name : Origin → String
  | operation => "Operation"
  | returned => "ReturnedValue"
  | uncaught => "Uncaught"
  | joined => "Join"

def Origin.ofName? : String → Option Origin
  | "Operation" => some operation
  | "ReturnedValue" => some returned
  | "Uncaught" => some uncaught
  | "Join" => some joined
  | _ => none

namespace Failure

def code (f : Failure) : String := f.problem.code

def message (f : Failure) : String := f.problem.message

def isUncaught (f : Failure) : Bool := f.origin == .uncaught

def ofOperation (message : String) : Failure := ⟨.operation, "OperationFailed", message⟩

def raised (message : String) : Failure := ⟨.uncaught, "Uncaught", message⟩

def raisedAs (code message : String) : Failure := ⟨.uncaught, code, message⟩

def ofReturned (p : Problem) : Failure := ⟨.returned, p⟩

/-- A fan-out fails with the position and the message of the item that failed first. -/
def ofItem (index : Nat) (cause : Failure) : Failure :=
  ⟨.joined, "JoinFailed", "item " ++ toString index ++ ": " ++ cause.message⟩

def tooDeep (limit : Nat) : Failure :=
  raisedAs "DelegationDepthExceeded" ("delegation depth limit of " ++ toString limit ++ " exceeded")

/-- What a caller that waits for a run is told when the run can no longer end. -/
def abandoned : Failure :=
  raisedAs "Abandoned" "run was dropped before it delivered an outcome"

def notFound : Problem := ⟨"NotFound", "NotFound"⟩

end Failure

end Interlace
