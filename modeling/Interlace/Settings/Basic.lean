import Interlace.Settings.Tree
import Interlace.Toml.Document

/-!
# Settings

What a scheduler can be told: how many frames one stack may hold, and what is logged. Settings are
read from a tree of layers over the defaults and are written as TOML. What is written reads back,
unless the limit has no TOML integer or is zero.
-/

namespace Interlace

structure Settings where
  maxDelegationDepth : Nat
  logFilter : String
deriving DecidableEq

namespace Settings

inductive Flaw where
  | unreadable
  | misfit
  | noDepth
  | unwritable
deriving DecidableEq

def Flaw.message : Flaw → String
  | unreadable => "Failed to load configuration"
  | misfit => "Invalid configuration"
  | noDepth => "scheduler.max_delegation_depth must be at least 1"
  | unwritable => "Failed to render configuration as TOML"

def defaults : Settings := ⟨1024, "info"⟩

def defaultTree : Setting :=
  .table [
    ("scheduler", .table [("max_delegation_depth", .integer defaults.maxDelegationDepth)]),
    ("log", .table [("filter", .text defaults.logFilter)])]

/-! ## Reading -/

/-- The only field of a section, if it is given: by name in a table, by position in a list. -/
def only? (name : String) : Setting → Option (Option Setting)
  | .table ms => some (ms.lookup name)
  | .list vs => some vs.head?
  | _ => none

/-- The value of the field of a section. What is not given has its default, and what does not fit
is none. -/
def field? {α : Type} (root : Setting) (sectionName name : String)
    (read? : Setting → Option α) (default : α) : Option α :=
  match root.members.lookup sectionName with
  | none => some default
  | some s => do
    match ← only? name s with
    | none => return default
    | some v => read? v

def ofTree (root : Setting) : Except Flaw Settings :=
  let read : Option Settings := do
    let depth ← field? root "scheduler" "max_delegation_depth" Setting.natural?
      defaults.maxDelegationDepth
    let filter ← field? root "log" "filter" Setting.text? defaults.logFilter
    return ⟨depth, filter⟩
  match read with
  | none => .error .misfit
  | some s => if s.maxDelegationDepth = 0 then .error .noDepth else .ok s

def ofToml (text : String) : Except Flaw Settings :=
  match Toml.document? text with
  | some ms => ofTree (defaultTree.layer (Setting.ofTomlMembers ms))
  | none => .error .unreadable

/-! ## Writing -/

def toToml (s : Settings) : Except Flaw String :=
  if s.maxDelegationDepth < 2 ^ 63 then
    .ok ("[scheduler]\nmax_delegation_depth = " ++ toString s.maxDelegationDepth ++
      "\n\n[log]\nfilter = " ++ String.ofList (Toml.Quoted.write s.logFilter.toList) ++ "\n")
  else .error .unwritable

end Settings

end Interlace
