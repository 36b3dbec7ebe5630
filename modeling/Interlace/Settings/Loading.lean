import Interlace.Environment.Assignments
import Interlace.Json.Draft
import Interlace.Settings.Basic

/-!
# Loading settings

Settings come from three layers over the defaults: one file, then variables. The file is the one
that `CADENCE_CONFIG_PATH` names, which must be there, or else `cadence.toml`, which need not. The
names of the variables are paths, with `__` between their parts.
-/

namespace Interlace.Settings

/-! ## The file -/

/-- The formats that a file may be of. Those without a reader are known by name only. -/
inductive Format where
  | toml
  | json
  | other
deriving DecidableEq

def endings : List (String × Format) :=
  [("toml", .toml), ("json", .json), ("yaml", .other), ("yml", .other), ("ini", .other),
    ("ron", .other), ("json5", .other)]

/-- What stands behind the last dot of a name, unless the name starts with that dot. -/
def ending? (name : String) : Option String :=
  match name.splitOn "." with
  | [] | [_] | ["", _] => none
  | parts => parts.getLast?

def withEnding (route : List String) (ending : String) : List String :=
  match route.getLast? with
  | some last => route.dropLast ++ [last ++ "." ++ ending]
  | none => route

/-- The file of a name and its format. Where there is no such file, the known endings are tried. A
file of an unknown format is as good as none. -/
def file? (e : Environment) (name : String) : Option (Format × String) := do
  let route ← Environment.route? name
  let exact := if Environment.endsInDirectory name then none else e.at? route
  match exact with
  | some text =>
    let format ← endings.lookup (← ending? (← route.getLast?))
    return (format, text)
  | none =>
    endings.findSome? fun (ending, format) =>
      (e.at? (withEnding route ending)).map fun text => (format, text)

def candidates (name : String) : List String :=
  name :: endings.map fun (ending, _) => name ++ "." ++ ending

def Format.entries? (text : String) : Format → Option (List (String × Setting))
  | toml => (Toml.document? text).map Setting.ofTomlMembers
  | json =>
    match Json.parse 127 text with
    | .ok (.object ms) => some (Datum.sortMembers (Setting.ofJsonMembers ms))
    | _ => none
  | other => none

/-- The variable that names the file. -/
def pathVariable : String := "CADENCE_CONFIG_PATH"

def defaultPath : String := "cadence.toml"

def path (e : Environment) : String := (e.get? pathVariable).getD defaultPath

def fileEntries (e : Environment) : Except Flaw (List (String × Setting)) :=
  match file? e (path e) with
  | none => if (e.get? pathVariable).isSome then .error .unreadable else .ok []
  | some (format, text) =>
    match format.entries? (String.ofList (Environment.withoutMark text)) with
    | some entries => .ok entries
    | none => .error .unreadable

/-! ## The variables -/

/-- How the names of variables that count begin, in lower case. -/
def variableStart : String := "cadence__"

def variablePath? (name : String) : Option String :=
  let name := Text.lowered name
  if name.startsWith variableStart then
    some (".".intercalate ((String.ofList (name.toList.drop variableStart.length)).splitOn "__"))
  else none

def variableValue (text : String) : Setting :=
  let word := Text.lowered text
  if word = "true" then .bool true
  else if word = "false" then .bool false
  else
    match Text.integer? 64 text with
    | some n => .integer n
    | none =>
      match Number.parse? text with
      | some x => .real x
      | none => .text text

def variableEntries (e : Environment) : List (String × Setting) :=
  e.bindings.filterMap fun (name, text) =>
    (variablePath? name).map fun path => (path, variableValue text)

def load (e : Environment) : Except Flaw Settings := do
  let e := e.withAssignments
  let entries ← fileEntries e
  ofTree ((defaultTree.layer entries).layer (variableEntries e))

end Interlace.Settings
