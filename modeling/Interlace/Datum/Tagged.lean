import Interlace.Datum.Basic
import Interlace.Json.Draft

/-!
# The tagged form of data

`Datum.tagged` writes a datum as an object of a tag `t` and a content `v`, which `null` lacks.
Reading takes the two in either order, with other members between them, or as an array of two. A
content that comes before its tag is read as a document first and judged after, so its faults of
shape are found last.
-/

namespace Interlace

open Json (Draft Flaw Cause)

inductive Tag where
  | null
  | bool
  | number
  | text
  | list
  | record
  | error
deriving DecidableEq

namespace Tag

def name : Tag → String
  | null => "Null"
  | bool => "Bool"
  | number => "Num"
  | text => "Str"
  | list => "List"
  | record => "Obj"
  | error => "Error"

def ofName? : String → Option Tag
  | "Null" => some null
  | "Bool" => some bool
  | "Num" => some number
  | "Str" => some text
  | "List" => some list
  | "Obj" => some record
  | "Error" => some error
  | _ => none

theorem ofName?_name (t : Tag) : ofName? t.name = some t := by
  cases t <;> rfl

end Tag

def Problem.toJson (p : Problem) : Json :=
  .object [("code", .string p.code), ("message", .string p.message)]

/-! ## Writing -/

def Datum.tag : Datum → Tag
  | null => .null
  | bool _ => .bool
  | number _ => .number
  | text _ => .text
  | list _ => .list
  | record _ => .record
  | error _ => .error

def Tag.wrap (t : Tag) (content : Json) : Json :=
  .object [("t", .string t.name), ("v", content)]

namespace Datum

mutual

def tagged : Datum → Json
  | null => .object [("t", .string Tag.null.name)]
  | bool b => Tag.bool.wrap (.bool b)
  | number x => Tag.number.wrap (.real x)
  | text s => Tag.text.wrap (.string s)
  | list items => Tag.list.wrap (.array (taggedItems items))
  | record members => Tag.record.wrap (.object (taggedMembers members))
  | error p => Tag.error.wrap p.toJson

def taggedItems : List Datum → List Json
  | [] => []
  | d :: ds => d.tagged :: taggedItems ds

def taggedMembers : List (String × Datum) → List (String × Json)
  | [] => []
  | (k, d) :: ms => (k, d.tagged) :: taggedMembers ms

end

end Datum

/-! ## Reading documents -/

/-- What the keys of an object mean to a reader that looks for a first and a second field. -/
inductive Field where
  | first
  | second
  | other

def Field.ofKey (first second key : String) : Field :=
  if key = first then .first else if key = second then .second else .other

namespace Json

def twoFields? (first second : String) (members : List (String × Json)) :
    Option (Option Json × Option Json) :=
  members.foldlM (fun (found : Option Json × Option Json) (m : String × Json) =>
    match Field.ofKey first second m.1, found with
    | .first, (none, b) => some (some m.2, b)
    | .second, (a, none) => some (a, some m.2)
    | .other, found => some found
    | _, _ => none) (none, none)

def toText? : Json → Option String
  | string s => some s
  | _ => none

/-- A problem is an object with both fields or an array of the two. -/
def toProblem? : Json → Option Problem
  | object members => do
    let (code, message) ← twoFields? "code" "message" members
    return ⟨← toText? (← code), ← toText? (← message)⟩
  | array [code, message] => do return ⟨← toText? code, ← toText? message⟩
  | _ => none

/-- A tag is its name, or an object that holds `null` under its name. -/
def toTag? : Json → Option Tag
  | string s => Tag.ofName? s
  | object [(s, null)] => Tag.ofName? s
  | object [(s, object [])] => Tag.ofName? s
  | _ => none

mutual

def toDatum? : Json → Option Datum
  | array [t, v] => do
    let t ← toTag? t
    content? t v
  | object members => taggedMembers? none none members
  | _ => none

def taggedMembers? (t : Option Tag) (v : Option (Tag → Option Datum)) :
    List (String × Json) → Option Datum
  | [] =>
    match t, v with
    | some t, some read => read t
    | some .null, none => some .null
    | _, _ => none
  | (key, j) :: rest =>
    match Field.ofKey "t" "v" key with
    | .first =>
      match t, toTag? j with
      | none, some tag => taggedMembers? (some tag) v rest
      | _, _ => none
    | .second =>
      match v with
      | none => taggedMembers? t (some fun tag => content? tag j) rest
      | some _ => none
    | .other => taggedMembers? t v rest

def content? (t : Tag) (j : Json) : Option Datum :=
  match t, j with
  | .null, null => some .null
  | .bool, bool b => some (.bool b)
  | .number, integer n => some (.number (Number.ofInt n))
  | .number, real x => some (.number x)
  | .text, string s => some (.text s)
  | .list, array items => (toData? items).map .list
  | .record, object members => (toMembers? members).map Datum.ofMembers
  | .error, j => (toProblem? j).map .error
  | _, _ => none

def toData? : List Json → Option (List Datum)
  | [] => some []
  | j :: js => do
    let d ← toDatum? j
    let ds ← toData? js
    return d :: ds

def toMembers? : List (String × Json) → Option (List (String × Datum))
  | [] => some []
  | (k, j) :: ms => do
    let d ← toDatum? j
    let rest ← toMembers? ms
    return (k, d) :: rest

end

end Json

/-! ## Reading text -/

namespace Json.Draft

def readBool : Draft → Except Cause Bool
  | bool b => .ok b
  | d => .error d.mismatch

def readNumber : Draft → Except Cause Number
  | integer n => .ok (Number.ofInt n)
  | real x => .ok x
  | d => .error d.mismatch

def readText : Draft → Except Cause String
  | string text => text
  | d => .error d.mismatch

def readNull : Draft → Except Cause Unit
  | null => .ok ()
  | d => .error d.mismatch

/-- A content of `null` under the tag `null`; a container counts against the depth before its
shape is judged. -/
def readNothing (depth : Nat) (d : Draft) : Except Cause Unit :=
  match d with
  | array _ _ | object _ _ => .error (if depth = 0 then .grammar else .shape)
  | d => readNull d

/-- One of several names: a string, or an object that holds `null` under the name. What is
neither breaks the grammar. -/
def readName {α : Type} (ofName? : String → Option α) (depth : Nat) : Draft → Except Cause α
  | string text => do
    match ofName? (← text) with
    | some a => return a
    | none => throw .shape
  | object members ending =>
    if depth = 0 then .error .grammar
    else
      match members, ending with
      | [], some flaw => .error flaw.name
      | [], none => .error .grammar
      | (key, value) :: rest, ending => do
        let key ← key
        match ofName? key with
        | none => throw .shape
        | some a =>
          readNull value
          match rest, ending with
          | [], none => return a
          | [], some flaw => throw flaw.name
          | _ :: _, _ => throw .grammar
  | broken flaw => .error flaw.name
  | _ => .error .grammar

/-- What is left of an array after the items wanted must be its end. -/
def finish : List Draft → Option Flaw → Except Cause Unit
  | [], none => .ok ()
  | [], some flaw => .error flaw.read
  | _ :: _, _ => .error .grammar

def lacking : Option Flaw → Cause
  | none => .shape
  | some flaw => flaw.read

def problemMembers (code message : Option String) :
    List (Except Cause String × Draft) → Option Flaw → Except Cause Problem
  | [], some flaw => .error flaw.read
  | [], none =>
    match code, message with
    | some code, some message => .ok ⟨code, message⟩
    | _, _ => .error .shape
  | (key, value) :: rest, ending => do
    match Field.ofKey "code" "message" (← key) with
    | .first =>
      if code.isSome then throw .shape
      problemMembers (some (← value.readText)) message rest ending
    | .second =>
      if message.isSome then throw .shape
      problemMembers code (some (← value.readText)) rest ending
    | .other =>
      value.skip
      problemMembers code message rest ending

def readProblem (depth : Nat) : Draft → Except Cause Problem
  | object members ending =>
    if depth = 0 then .error .grammar else problemMembers none none members ending
  | array items ending =>
    if depth = 0 then .error .grammar
    else
      match items with
      | [] => .error (lacking ending)
      | [code] => do
        let _ ← code.readText
        throw (lacking ending)
      | code :: message :: rest => do
        let code ← code.readText
        let message ← message.readText
        finish rest ending
        return ⟨code, message⟩
  | d => .error d.mismatch

/-- What has been read of a tagged object: nothing, the tag, the content as a document, or all. -/
inductive Progress where
  | nothing
  | tag (t : Tag)
  | content (j : Json)
  | done (d : Datum)

mutual

/-- Reads a tagged datum, nested at most `depth` deep. -/
def readDatum (depth : Nat) : Draft → Except Cause Datum
  | object members ending =>
    match depth with
    | 0 => .error .grammar
    | depth + 1 => readTagged depth .nothing members ending
  | array items ending =>
    match depth with
    | 0 => .error .grammar
    | depth + 1 =>
      match items with
      | [] => .error (lacking ending)
      | [t] => do
        let _ ← readName Tag.ofName? depth t
        throw (lacking ending)
      | t :: v :: rest => do
        let t ← readName Tag.ofName? depth t
        let d ← readContent depth t v
        finish rest ending
        return d
  | d => .error d.mismatch

def readTagged (depth : Nat) (progress : Progress) :
    List (Except Cause String × Draft) → Option Flaw → Except Cause Datum
  | [], some flaw => .error flaw.read
  | [], none =>
    match progress with
    | .done d => .ok d
    | .tag .null => .ok .null
    | _ => .error .shape
  | (key, value) :: rest, ending => do
    match Field.ofKey "t" "v" (← key), progress with
    | .first, .nothing =>
      let t ← readName Tag.ofName? depth value
      readTagged depth (.tag t) rest ending
    | .first, .content j =>
      let t ← readName Tag.ofName? depth value
      match content? t j with
      | some d => readTagged depth (.done d) rest ending
      | none => throw .shape
    | .second, .nothing =>
      let j ← value.load depth
      readTagged depth (.content j) rest ending
    | .second, .tag t =>
      let d ← readContent depth t value
      readTagged depth (.done d) rest ending
    | .other, progress =>
      value.skip
      readTagged depth progress rest ending
    | _, _ => throw .shape

def readContent (depth : Nat) : Tag → Draft → Except Cause Datum
  | .null, d => do
    readNothing depth d
    return .null
  | .bool, d => .bool <$> d.readBool
  | .number, d => .number <$> d.readNumber
  | .text, d => .text <$> d.readText
  | .list, array items ending =>
    match depth with
    | 0 => .error .grammar
    | depth + 1 => .list <$> readData depth items ending
  | .list, d => .error d.mismatch
  | .record, object members ending =>
    match depth with
    | 0 => .error .grammar
    | depth + 1 => Datum.ofMembers <$> readRecord depth members ending
  | .record, d => .error d.mismatch
  | .error, d => .error <$> d.readProblem depth

def readData (depth : Nat) : List Draft → Option Flaw → Except Cause (List Datum)
  | [], none => .ok []
  | [], some flaw => .error flaw.read
  | d :: ds, ending => do
    let x ← readDatum depth d
    let xs ← readData depth ds ending
    return x :: xs

def readRecord (depth : Nat) :
    List (Except Cause String × Draft) → Option Flaw → Except Cause (List (String × Datum))
  | [], none => .ok []
  | [], some flaw => .error flaw.read
  | (key, d) :: ms, ending => do
    let key ← key
    let x ← readDatum depth d
    let xs ← readRecord depth ms ending
    return (key, x) :: xs

end

end Json.Draft

def depthLimit : Nat := 127

def Datum.parse (text : String) : Except Cause Datum :=
  Draft.parse (Draft.readDatum depthLimit) text

def Problem.parse (text : String) : Except Cause Problem :=
  Draft.parse (Draft.readProblem depthLimit) text

def Origin.parse (text : String) : Except Cause Origin :=
  Draft.parse (Draft.readName Origin.ofName? depthLimit) text

end Interlace
