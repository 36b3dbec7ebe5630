import Interlace.CommandLine.Grammar
import Interlace.Number.Reading
import Interlace.Trial

/-!
# Orders

The commands of the program and what each of them asks for. The file with the settings can be named
behind any of them; the innermost place counts.
-/

namespace Interlace.CommandLine

inductive Order where
  | fanOut (latencies : List Nat)
  | nested (times : List Nat)
  | lookup (key : String)
  | trial (t : Trial)
  | settings
deriving DecidableEq

structure Invocation where
  settingsPath : Option String
  order : Order
deriving DecidableEq

/-! ## The commands -/

def isNumber (s : String) : Bool := (Text.natural? (2 ^ 64) s).isSome

def settingsPath : Choice := ⟨"config", false, fun _ => true⟩

def number (name : String) : Choice := ⟨name, false, isNumber⟩

def numbers (name : String) : Choice := ⟨name, true, isNumber⟩

def command (name : String) (choices : List Choice) (arguments : List String) : Command :=
  .mk name (settingsPath :: choices) arguments []

def group (name : String) (subcommands : List Command) : Command :=
  .mk name [settingsPath] [] subcommands

def program : Command :=
  group "cadence" [
    group "demo" [
      command "fan-out" [numbers "latencies"] [],
      command "nested" [numbers "times"] [],
      command "lookup" [] ["key"]],
    command "bench" [number "runs", number "width", number "latency-ms"] [],
    command "config" [] []]

/-! ## What they ask for -/

def Level.numbers (l : Level) (name : String) (default : List Nat) : List Nat :=
  match l.get? name with
  | some values => values.filterMap (Text.natural? (2 ^ 64))
  | none => default

def Level.number (l : Level) (name : String) (default : Nat) : Nat :=
  ((l.numbers name [default]).head?).getD default

def defaultTimes : List Nat := [10, 20, 30, 40, 50]

def Order.ofLevel (l : Level) : Order :=
  match l.command with
  | "fan-out" => .fanOut (l.numbers "latencies" defaultTimes)
  | "nested" => .nested (l.numbers "times" defaultTimes)
  | "lookup" => .lookup (((l.get? "key").bind List.head?).getD "")
  | "bench" => .trial ⟨l.number "runs" 100, l.number "width" 10, l.number "latency-ms" 10⟩
  | _ => .settings

def parse (words : List String) : Except Refusal Invocation := do
  let levels ← program.read .new words
  let path := levels.reverse.findSome? fun l => (l.get? settingsPath.name).bind List.head?
  return ⟨path, (levels.getLast?.map Order.ofLevel).getD .settings⟩

end Interlace.CommandLine
