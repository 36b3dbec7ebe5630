import Interlace.Console

/-!
# The program

The outer layer: collects the variables and the files that can matter, hands them over, and prints
what comes back. Times are those of the virtual clock.
-/

namespace Interlace.Main

def contents? (name : String) : IO (Option String) := do
  try
    return some (← IO.FS.readFile name)
  catch _ => return none

def bindings : IO (List (String × String)) := do
  let text := (← contents? "/proc/self/environ").getD ""
  return (text.splitOn "\x00").filterMap fun entry =>
    match entry.splitOn "=" with
    | [] | [_] => none
    | name :: value => some (name, "=".intercalate value)

def filesOf (names : List String) : IO (List (String × String)) :=
  names.filterMapM fun name => do
    return (← contents? name).map fun text => (name, text)

def environmentOf (i : CommandLine.Invocation) : IO Environment := do
  let e : Environment := ⟨← bindings, ← filesOf [".env"]⟩
  let path := Settings.path (Console.environment e i).withAssignments
  return { e with files := e.files ++ (← filesOf (Settings.candidates path)) }

def usage : String :=
  "Usage: cadence [--config PATH] demo fan-out [--latencies MS,...]\n" ++
  "       cadence [--config PATH] demo nested [--times MS,...]\n" ++
  "       cadence [--config PATH] demo lookup KEY\n" ++
  "       cadence [--config PATH] bench [--runs N] [--width N] [--latency-ms MS]\n" ++
  "       cadence [--config PATH] config"

end Interlace.Main

open Interlace in
def main (args : List String) : IO UInt32 := do
  match CommandLine.parse args with
  | .error .helpAsked =>
    IO.println Main.usage
    return 0
  | .error _ =>
    IO.eprintln Main.usage
    return 2
  | .ok i =>
    let transcript := Console.run (← Main.environmentOf i) i
    IO.print transcript.output
    match transcript.failure with
    | none => return 0
    | some message =>
      IO.eprintln ("Error: " ++ message)
      return 1
