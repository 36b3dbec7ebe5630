import Interlace.Datum.Basic
import Interlace.Json.Basic
import Interlace.Number.Reading
import Interlace.Toml.Value

/-!
# Layers of settings

Settings come as trees of values from several sources, one laid over the other. Keys are compared
without regard to case: they are kept in lower case. A table that is laid over a table goes into
it entry by entry; any other value takes the place of what was there. The keys at the top of a
source may be paths, which lead into tables and lists and make them where they are missing.
-/

namespace Interlace

inductive Setting where
  | absent
  | bool (b : Bool)
  | integer (n : Int)
  | real (x : Number)
  | text (s : String)
  | list (items : List Setting)
  | table (members : List (String × Setting))
deriving Inhabited

namespace Setting

def members : Setting → List (String × Setting)
  | table ms => ms
  | _ => []

def items : Setting → List Setting
  | list vs => vs
  | _ => []

/-- Puts a value under a key, in the place of the one that is there. -/
def set (key : String) (v : Setting) : List (String × Setting) → List (String × Setting)
  | [] => [(key, v)]
  | m :: rest => if m.1 = key then (key, v) :: rest else m :: set key v rest

mutual

def assign (root : Setting) (key : String) : Setting → Setting
  | table ms =>
    let target := (root.members.lookup (Text.lowered key)).getD (table [])
    table (set (Text.lowered key) (assignAll target ms) root.members)
  | v => table (set (Text.lowered key) v root.members)

def assignAll (target : Setting) : List (String × Setting) → Setting
  | [] => target
  | (key, v) :: rest => assignAll (assign target key v) rest

end

/-! ## Paths -/

inductive Step where
  | child (key : String)
  | item (n : Int)
deriving DecidableEq

def index (n : Int) (length : Nat) : Nat := if 0 ≤ n then n.toNat else length - n.natAbs

/-- Changes the item at an index, before which missing ones are filled in. -/
def changeItem (change : Setting → Setting) (n : Int) (vs : List Setting) : List Setting :=
  let i := index n vs.length
  (vs ++ List.replicate (i + 1 - vs.length) absent).modify i change

/-- Lays a value over what a path leads to. The keys on the way count as they are written. -/
def assignAt (v : Setting) : List Step → Setting → Setting
  | [], here => here
  | [.child key], here => here.assign key v
  | [.item n], here => list (changeItem (fun _ => v) n here.items)
  | .child key :: rest, here =>
    let next := assignAt v rest ((here.members.lookup key).getD absent)
    table (set key next here.members)
  | .item n :: rest, here => list (changeItem (assignAt v rest) n here.items)

namespace Step

def isNameChar (c : Char) : Bool := c.isAlphanum || c == ' ' || c == '_' || c == '-'

def name? (cs : List Char) : Option (String × List Char) :=
  let name := cs.takeWhile isNameChar
  if name.isEmpty then none else some (String.ofList name, cs.dropWhile isNameChar)

def isSpace (c : Char) : Bool := c == ' ' || c == '\t' || c == '\n' || c == '\r'

def item? (cs : List Char) : Option (Step × List Char) :=
  let (negative, cs) := match cs.dropWhile isSpace with
    | '-' :: cs => (true, cs)
    | cs => (false, cs)
  let ds := cs.takeWhile Text.isDigit
  match (cs.dropWhile Text.isDigit).dropWhile isSpace with
  | ']' :: rest =>
    if ds.isEmpty || 2 ^ 63 ≤ Text.naturalOf ds then none
    else some (.item (Number.signed negative (Text.naturalOf ds)), rest)
  | _ => none

/-- The steps of a path behind its first name. There are at most `fuel` of them. -/
def more? : Nat → List Char → Option (List Step)
  | _, [] => some []
  | 0, _ => none
  | fuel + 1, '.' :: cs => do
    let (name, rest) ← name? cs
    return .child name :: (← more? fuel rest)
  | fuel + 1, '[' :: cs => do
    let (step, rest) ← item? cs
    return step :: (← more? fuel rest)
  | _, _ => none

/-- The path that a key is. A key that reads as none is a name by itself. -/
def path (key : String) : List Step :=
  let read : Option (List Step) := do
    let (name, rest) ← name? key.toList
    return .child name :: (← more? rest.length rest)
  read.getD [.child key]

end Step

def layer (root : Setting) (entries : List (String × Setting)) : Setting :=
  entries.foldl (fun root e => assignAt e.2 (Step.path e.1) root) root

/-! ## Sources -/

mutual

def ofToml : Toml.Value → Setting
  | .string s => text s
  | .integer n => integer n
  | .real x => real x
  | .bool b => bool b
  | .moment s => text s
  | .array vs => list (ofTomlItems vs)
  | .table _ ms => table (ofTomlMembers ms)
  | .tables earlier last => list (ofTomlTables earlier ++ [table (ofTomlMembers last)])

def ofTomlItems : List Toml.Value → List Setting
  | [] => []
  | v :: vs => ofToml v :: ofTomlItems vs

def ofTomlMembers : List (String × Toml.Value) → List (String × Setting)
  | [] => []
  | (key, v) :: ms => (key, ofToml v) :: ofTomlMembers ms

def ofTomlTables : List (List (String × Toml.Value)) → List Setting
  | [] => []
  | ms :: rest => table (ofTomlMembers ms) :: ofTomlTables rest

end

mutual

def ofJson : Json → Setting
  | .null => absent
  | .bool b => bool b
  | .integer n => if -(2 ^ 63) ≤ n ∧ n < 2 ^ 63 then integer n else real (.ofInt n)
  | .real x => real x
  | .string s => text s
  | .array vs => list (ofJsonItems vs)
  | .object ms => table (Datum.sortMembers (ofJsonMembers ms))

def ofJsonItems : List Json → List Setting
  | [] => []
  | v :: vs => ofJson v :: ofJsonItems vs

def ofJsonMembers : List (String × Json) → List (String × Setting)
  | [] => []
  | (key, v) :: ms => (key, ofJson v) :: ofJsonMembers ms

end

/-! ## Scalars -/

/-- How a double is written as text: in full, and without a fraction where it has none. -/
def layout : Decimal.Layout where
  plain := none
  keepsPoint := false
  plusSign := false
  tie := .up

def numberText : Number → String
  | .nan => "NaN"
  | .infinite negative => if negative then "-inf" else "inf"
  | .finite negative ticks _ => String.ofList (layout.finite negative ticks)

def text? : Setting → Option String
  | text s => some s
  | bool b => some (if b then "true" else "false")
  | integer n => some (toString n)
  | real x => some (numberText x)
  | _ => none

def truth? (s : String) : Option Bool :=
  let word := Text.lowered s
  if word ∈ ["true", "on", "yes"] then some true
  else if word ∈ ["false", "off", "no"] then some false
  else none

/-- A value as a natural number of 64 bits. Doubles are rounded, half away from zero, and held
within the bounds. -/
def natural? : Setting → Option Nat
  | bool b => some b.toNat
  | integer n => if 0 ≤ n then some n.toNat else none
  | real x => some (x.roundedWithin (2 ^ 64 - 1))
  | text s =>
    match truth? s with
    | some b => some b.toNat
    | none => Text.natural? (2 ^ 64) s
  | _ => none

end Setting

end Interlace
