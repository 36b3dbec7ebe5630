import Interlace.Failure
import Interlace.Number.Basic

/-!
# Data

A `Datum` is what a coroutine is resumed with, returns, or captures. `null` also stands for the
absent half of a captured pair. A record lists its members by ascending key; `Datum.Normal` says
so at every depth, and `Datum.ofMembers` builds such records from members in any order.
-/

namespace Interlace

inductive Datum where
  | null
  | bool (b : Bool)
  | number (x : Number)
  | text (s : String)
  | list (items : List Datum)
  | record (members : List (String × Datum))
  | error (problem : Problem)
deriving Inhabited

abbrev Outcome := Except Failure Datum

namespace Datum

/-- Puts a member in its place by key; a member of the same key gives way. -/
def insertMember {α : Type} (key : String) (value : α) : List (String × α) → List (String × α)
  | [] => [(key, value)]
  | (k, v) :: rest =>
    if key < k then (key, value) :: (k, v) :: rest
    else if key = k then (key, value) :: rest
    else (k, v) :: insertMember key value rest

def sortMembers {α : Type} (members : List (String × α)) : List (String × α) :=
  members.foldl (fun sorted m => insertMember m.1 m.2 sorted) []

/-- The record of some members, where the last member of a key counts. -/
def ofMembers (members : List (String × Datum)) : Datum := record (sortMembers members)

def Ascending {α : Type} (members : List (String × α)) : Prop :=
  (members.map Prod.fst).Pairwise (· < ·)

mutual

def Normal : Datum → Prop
  | list items => NormalItems items
  | record members => Ascending members ∧ NormalMembers members
  | _ => True

def NormalItems : List Datum → Prop
  | [] => True
  | d :: rest => d.Normal ∧ NormalItems rest

def NormalMembers : List (String × Datum) → Prop
  | [] => True
  | (_, d) :: rest => d.Normal ∧ NormalMembers rest

end

def pair (problem : Option Problem) (value : Option Datum) : Datum :=
  list [(problem.map error).getD null, value.getD null]

/-- An outcome as a pair, so that it can be looked at without failing. -/
def ofOutcome : Outcome → Datum
  | .ok v => pair none (some v)
  | .error e => pair (some e.problem) none

def isNull : Datum → Bool
  | null => true
  | _ => false

def toNumber? : Datum → Option Number
  | number x => some x
  | _ => none

def toText? : Datum → Option String
  | text s => some s
  | _ => none

def toList? : Datum → Option (List Datum)
  | list items => some items
  | _ => none

def toProblem? : Datum → Option Problem
  | error p => some p
  | _ => none

mutual

/-- Equality of values. Numbers compare by value, so NaN differs from itself and the zeros agree. -/
def equal : Datum → Datum → Bool
  | null, null => true
  | bool a, bool b => a == b
  | number x, number y => x.equal y
  | text a, text b => a == b
  | list as, list bs => equalItems as bs
  | record as, record bs => equalMembers as bs
  | error p, error q => p == q
  | _, _ => false

def equalItems : List Datum → List Datum → Bool
  | [], [] => true
  | a :: as, b :: bs => a.equal b && equalItems as bs
  | _, _ => false

def equalMembers : List (String × Datum) → List (String × Datum) → Bool
  | [], [] => true
  | (k, a) :: as, (l, b) :: bs => k == l && a.equal b && equalMembers as bs
  | _, _ => false

end

end Datum

end Interlace
