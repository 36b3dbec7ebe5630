import Interlace.Datum.Plain
import Interlace.Script.Syntax

/-!
# Evaluation of expressions

Every expression has a value. What does not fit an operation counts as its neutral argument: zero
for a number, the empty list for a list, `null` for an error.
-/

namespace Interlace.Script

abbrev Variables := List (String × Datum)

def Variables.get (vars : Variables) (name : String) : Datum := (vars.lookup name).getD .null

def Variables.set (vars : Variables) (name : String) (d : Datum) : Variables :=
  (name, d) :: vars.filter (·.1 != name)

def wordTop : Nat := 2 ^ 64 - 1

def numberOf (d : Datum) : Number := d.toNumber?.getD (Number.zero false)

def itemsOf (d : Datum) : List Datum := d.toList?.getD []

def wordOf (d : Datum) : Nat := (numberOf d).toNatWithin wordTop

namespace Expr

mutual

def eval (vars : Variables) : Expr → Datum
  | var name => vars.get name
  | number x => .number x
  | text s => .text s
  | bool b => .bool b
  | null => .null
  | list items => .list (evalAll vars items)
  | record members => .ofMembers (evalMembers vars members)
  | error code message => .error ⟨(code.eval vars).asText, (message.eval vars).asText⟩
  | repeated s times => .text (String.join (List.replicate times s))
  | add a b => .number ((numberOf (a.eval vars)).add (numberOf (b.eval vars)))
  | sub a b => .number ((numberOf (a.eval vars)).sub (numberOf (b.eval vars)))
  | mul a b => .number ((numberOf (a.eval vars)).mul (numberOf (b.eval vars)))
  | less a b => .bool ((numberOf (a.eval vars)).less (numberOf (b.eval vars)))
  | same a b => .bool ((a.eval vars).equal (b.eval vars))
  | isNull a => .bool (a.eval vars).isNull
  | isError a => .bool (a.eval vars).toProblem?.isSome
  | item a index => ((itemsOf (a.eval vars))[wordOf (index.eval vars)]?).getD .null
  | length a => .number (Number.ofNat (itemsOf (a.eval vars)).length)
  | push a last => .list (itemsOf (a.eval vars) ++ [last.eval vars])
  | join items => .text (String.join ((evalAll vars items).map Datum.asText))
  | plain a => .text (a.eval vars).plain.compactText
  | codeOf a => ((a.eval vars).toProblem?.map fun p => Datum.text p.code).getD .null
  | messageOf a => ((a.eval vars).toProblem?.map fun p => Datum.text p.message).getD .null
  | pair a value => .pair (a.eval vars).toProblem? (some (value.eval vars))

def evalAll (vars : Variables) : List Expr → List Datum
  | [] => []
  | e :: es => e.eval vars :: evalAll vars es

def evalMembers (vars : Variables) : List (String × Expr) → List (String × Datum)
  | [] => []
  | (k, e) :: ms => (k, e.eval vars) :: evalMembers vars ms

end

def evalText (vars : Variables) (e : Expr) : String := (e.eval vars).asText

end Expr

/-- A caught failure as a value: the name of its origin and its problem. -/
def caughtValue (e : Failure) : Datum := .list [.text e.origin.name, .error e.problem]

def failureOf : Datum → Failure
  | .list [.text origin, .error p] => ⟨(Origin.ofName? origin).getD .uncaught, p⟩
  | d => .raised d.asText

def Cry.eval (vars : Variables) : Cry → Failure
  | operation m => .ofOperation (m.evalText vars)
  | raised m => .raised (m.evalText vars)
  | raisedAs c m => .raisedAs (c.evalText vars) (m.evalText vars)
  | returned c m => .ofReturned ⟨c.evalText vars, m.evalText vars⟩
  | ofProblem c m => ⟨.operation, c.evalText vars, m.evalText vars⟩
  | ofItem index cause => .ofItem index (cause.eval vars)
  | made origin c m => ⟨origin, c.evalText vars, m.evalText vars⟩
  | caught name => failureOf (vars.get name)

def Ending.eval (vars : Variables) : Ending → Outcome
  | ok a => .ok (a.eval vars)
  | failed cry => .error (cry.eval vars)

end Interlace.Script
