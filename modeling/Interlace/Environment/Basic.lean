/-!
# Environments

The variables that a program is started with, and the files it can read. Names of files are
compared part by part, and those that do not begin with `/` are taken relative to one directory.
-/

namespace Interlace

structure Environment where
  bindings : List (String × String)
  files : List (String × String)
deriving Inhabited

namespace Environment

def get? (e : Environment) (name : String) : Option String := e.bindings.lookup name

def offer (e : Environment) (name value : String) : Environment :=
  if (e.get? name).isSome then e
  else { e with bindings := e.bindings ++ [(name, value)] }

def assign (e : Environment) (name value : String) : Environment :=
  { e with bindings := (name, value) :: e.bindings.filter (·.1 != name) }

/-- The parts of the name of a file. An empty part in front stands for the root. -/
def route? (name : String) : Option (List String) :=
  let parts := (name.splitOn "/").filter fun part => part != "" && part != "."
  if parts.isEmpty then none
  else some (if name.startsWith "/" then "" :: parts else parts)

def endsInDirectory (name : String) : Bool :=
  match (name.splitOn "/").getLast? with
  | some last => last == "" || last == "."
  | none => false

def at? (e : Environment) (route : List String) : Option String :=
  (e.files.find? fun f => route? f.1 == some route).map Prod.snd

end Environment

end Interlace
