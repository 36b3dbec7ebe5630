import Interlace.CommandLine.Orders
import Interlace.Datum.Plain
import Interlace.Session
import Interlace.Settings.Loading
import Interlace.Showcase

/-!
# What the program writes

An order is carried out in virtual time, and what is written and how it ends make up a
`Transcript`. Settings come first: without them nothing is carried out.
-/

namespace Interlace

structure Transcript where
  output : String
  failure : Option String

namespace Transcript

def empty : Transcript := ⟨"", none⟩

def ofFailure (message : String) : Transcript := ⟨"", some message⟩

def ofLines (lines : List String) : Transcript :=
  ⟨String.join (lines.map (· ++ "\n")), none⟩

def andThen (t u : Transcript) : Transcript :=
  match t.failure with
  | some _ => t
  | none => ⟨t.output ++ u.output, u.failure⟩

end Transcript

structure Attended where
  outcome : Outcome
  elapsed : Nat
  gauges : Gauges

def Demo.attend (limit : Nat) (demo : Demo) (args : List Datum) : Attended :=
  let s : Session Demo.behaviour := (Session.new Gauges.empty).await "" demo args limit
  let s := Session.exhaust Session.budget (Session.rest Session.budget s)
  let ended := s.records.findSome? fun r =>
    match r.sighting with
    | .done _ _ o => some (o, r.time)
    | _ => none
  let (outcome, elapsed) := ended.getD (.error .abandoned, s.time)
  ⟨outcome, elapsed, s.machine.world⟩

namespace Console

def outcome : Outcome → Transcript
  | .ok d => .ofLines [d.plain.prettyText]
  | .error _ => .ofFailure "Run failed"

def elapsed (a : Attended) : String := "Elapsed: " ++ toString a.elapsed ++ "ms"

/-- The gauge of a showcase run. -/
def gaugeName : String := "active"

def fanOut (limit : Nat) (latencies : List Nat) : Transcript :=
  let immediate := [.number (.ofNat 60), .text "some text"]
  let a := (Demo.fanOutSleeps latencies immediate).attend limit []
  (outcome a.outcome).andThen (.ofLines [elapsed a])

def nested (limit : Nat) (times : List Nat) : Transcript :=
  let a := (Demo.fanOutNested times gaugeName).attend limit []
  let g := a.gauges.get gaugeName
  (outcome a.outcome).andThen (.ofLines [elapsed a,
    "Peak concurrency: " ++ toString g.peak,
    "Still active: " ++ toString g.active])

def lookup (limit : Nat) (key : String) : Transcript :=
  let shown (heading : String) (demo : Demo) : Transcript :=
    Transcript.andThen (.ofLines [heading]) (outcome (demo.attend limit [.text key]).outcome)
  (shown "Captured:" .lookupCaptured).andThen (shown "Delegated:" .lookupDelegated)

/-- Carries a trial out. Its runs share nothing, so each can be followed by itself. -/
def report (limit : Nat) (t : Trial) : Trial.Report :=
  let runs := (List.range t.runs).map fun _ =>
    (Demo.fanOutSleeps (List.replicate t.width t.latency) []).attend limit []
  let completed := runs.countP fun a => a.outcome.isOk
  let longest := runs.foldl (fun most a => max most a.elapsed) 0
  let total := runs.foldl (fun sum a => sum + a.elapsed) 0
  let nanos := total * 10 ^ 6 / t.runs
  ⟨t, completed, t.runs - completed, .ofMillis longest, ⟨nanos / 10 ^ 9, nanos % 10 ^ 9⟩⟩

def trial (limit : Nat) (t : Trial) : Transcript :=
  match t.flaw? with
  | some flaw => .ofFailure flaw.message
  | none => Transcript.andThen (.ofLines t.heading) (.ofLines (report limit t).lines)

def settings (s : Settings) : Transcript :=
  match s.toToml with
  | .ok text => ⟨text, none⟩
  | .error flaw => .ofFailure flaw.message

def order (s : Settings) : CommandLine.Order → Transcript
  | .fanOut latencies => fanOut s.maxDelegationDepth latencies
  | .nested times => nested s.maxDelegationDepth times
  | .lookup key => lookup s.maxDelegationDepth key
  | .trial t => trial s.maxDelegationDepth t
  | .settings => settings s

/-- The environment of an invocation. A file of settings that it names counts before one that a
variable names. -/
def environment (e : Environment) (i : CommandLine.Invocation) : Environment :=
  match i.settingsPath with
  | some path => e.assign Settings.pathVariable path
  | none => e

def run (e : Environment) (i : CommandLine.Invocation) : Transcript :=
  match Settings.load (environment e i) with
  | .ok s => order s i.order
  | .error flaw => .ofFailure flaw.message

end Console

end Interlace
