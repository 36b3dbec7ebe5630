import Interlace.Number.Basic

/-!
# TOML values and tables

A table remembers how it came about, since that settles who may still add to it. `Members.put?`
adds an entry under a dotted key, and `Members.under?` changes the table that a header names. Both
refuse what would define a key twice.
-/

namespace Interlace.Toml

inductive Manner where
  | header
  | implied
  | dotted
  | inline
deriving DecidableEq

inductive Value where
  | string (s : String)
  | integer (n : Int)
  | real (x : Number)
  | bool (b : Bool)
  | moment (text : String)
  | array (items : List Value)
  | table (manner : Manner) (members : List (String × Value))
  /-- An array that grows by headers, which write into its last table. -/
  | tables (earlier : List (List (String × Value))) (last : List (String × Value))
deriving Inhabited

abbrev Members := List (String × Value)

namespace Members

def get? (ms : Members) (key : String) : Option Value := ms.lookup key

def append (ms : Members) (key : String) (v : Value) : Members := ms ++ [(key, v)]

def replace (ms : Members) (key : String) (v : Value) : Members :=
  ms.map fun m => if m.1 = key then (key, v) else m

/-- Adds a value under a dotted key. The tables on the way are made where they are missing. A
table with a header of its own or in braces takes no entry from outside, and one that a header only
implies takes none of its own, though tables below it may. -/
def put? (v : Value) (direct : Bool) : List String → Members → Option Members
  | [], _ => none
  | [key], ms =>
    if direct && (ms.get? key).isNone then some (ms.append key v) else none
  | key :: rest, ms =>
    match ms.get? key with
    | none => (put? v true rest []).map fun sub => ms.append key (.table .dotted sub)
    | some (.table .dotted sub) =>
      (put? v true rest sub).map fun sub => ms.replace key (.table .dotted sub)
    | some (.table .implied sub) =>
      (put? v false rest sub).map fun sub => ms.replace key (.table .implied sub)
    | some (.tables earlier last) =>
      (put? v false rest last).map fun last => ms.replace key (.tables earlier last)
    | some _ => none

def ofEntries? (start : Members) (entries : List (List String × Value)) : Option Members :=
  entries.foldlM (fun ms e => put? e.2 true e.1 ms) start

/-- Changes the table at a path. Of an array of tables it is the last one. -/
def under? (change : Members → Option Members) : List String → Members → Option Members
  | [], ms => change ms
  | key :: rest, ms =>
    match ms.get? key with
    | none => (under? change rest []).map fun sub => ms.append key (.table .implied sub)
    | some (.table .inline _) => none
    | some (.table manner sub) =>
      (under? change rest sub).map fun sub => ms.replace key (.table manner sub)
    | some (.tables earlier last) =>
      (under? change rest last).map fun last => ms.replace key (.tables earlier last)
    | some _ => none

def open? (fill : Members → Option Members) (key : String) (ms : Members) : Option Members :=
  match ms.get? key with
  | none => (fill []).map fun sub => ms.append key (.table .header sub)
  | some (.table .implied sub) =>
    (fill sub).map fun sub => ms.replace key (.table .header sub)
  | some _ => none

def extend? (fill : Members → Option Members) (key : String) (ms : Members) : Option Members :=
  match ms.get? key with
  | none => (fill []).map fun sub => ms.append key (.tables [] sub)
  | some (.tables earlier last) =>
    (fill []).map fun sub => ms.replace key (.tables (earlier ++ [last]) sub)
  | some _ => none

end Members

end Interlace.Toml
