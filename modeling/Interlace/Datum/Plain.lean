import Interlace.Datum.Tagged

/-!
# The plain form of data

`Datum.plain` writes a datum as the JSON document a reader would expect, without tags. Whole
numbers become integers as far as 64 bits hold them, what is not finite becomes `null`, and a
problem becomes an object, so the form forgets some distinctions and no others.
-/

namespace Interlace

/-- The magnitude from which on a whole number stays a double. -/
def Number.wholeLimit : Nat := 2 ^ 63

def Number.plain (x : Number) : Json :=
  match x.toInt? with
  | some n => if n.natAbs < wholeLimit then .integer n else .real x
  | none => if x.isFinite then .real x else .null

namespace Datum

mutual

def plain : Datum → Json
  | null => .null
  | bool b => .bool b
  | number x => x.plain
  | text s => .string s
  | list items => .array (plainItems items)
  | record members => .object (plainMembers members)
  | error p => p.toJson

def plainItems : List Datum → List Json
  | [] => []
  | d :: ds => d.plain :: plainItems ds

def plainMembers : List (String × Datum) → List (String × Json)
  | [] => []
  | (k, d) :: ms => (k, d.plain) :: plainMembers ms

end

/-- A text stands for itself; any other datum is written in its plain form. -/
def asText : Datum → String
  | text s => s
  | d => d.plain.compactText

end Datum

end Interlace
