import Interlace.Number.Decimal

/-!
# Trials

A trial starts a number of runs at once, each a fan-out over sleeps of one latency, and reports how
long they took. The report is a handful of lines of text; rates are taken in double precision.
-/

namespace Interlace

structure Span where
  seconds : Nat
  nanos : Nat
deriving DecidableEq

namespace Span

def ofMillis (ms : Nat) : Span := ⟨ms / 1000, ms % 1000 * 10 ^ 6⟩

/-- The length in seconds: the whole seconds and the part of one are each rounded, and then
their sum. -/
def toNumber (s : Span) : Number :=
  (Number.ofNat s.seconds).add ((Number.ofNat s.nanos).div (Number.ofNat (10 ^ 9)))

end Span

structure Trial where
  runs : Nat
  width : Nat
  latency : Nat
deriving DecidableEq

namespace Trial

inductive Flaw where
  | noRun
  | noWidth
deriving DecidableEq

def Flaw.message : Flaw → String
  | noRun => "Must have at least 1 run"
  | noWidth => "Fan-out width must be at least 1"

def flaw? (t : Trial) : Option Flaw :=
  if t.runs = 0 then some .noRun else if t.width = 0 then some .noWidth else none

structure Report where
  trial : Trial
  completed : Nat
  failed : Nat
  elapsed : Span
  meanLatency : Span

def Report.throughput (r : Report) : Number :=
  let seconds := r.elapsed.toNumber
  if seconds.equal (Number.zero false) then Number.zero false
  else (Number.ofNat r.completed).div seconds

def fixedText (places : Nat) : Number → String
  | .finite _ ticks _ => String.ofList (Decimal.fixed places ticks Number.one)
  | .infinite _ => "inf"
  | .nan => "NaN"

def rule : String := String.ofList (List.replicate 40 '━')

def heading (t : Trial) : List String :=
  ["🚀 Starting Cadence Benchmark", rule, "", "📋 Configuration:",
    "   Runs: " ++ toString t.runs,
    "   Fan-out width: " ++ toString t.width,
    "   Latency: " ++ toString t.latency ++ "ms"]

def Report.lines (r : Report) : List String :=
  let latency := r.meanLatency.toNumber.mul (Number.ofNat 1000)
  ["", "", rule, "📊 Benchmark Results", rule, "",
    "⏱️  Duration: " ++ fixedText 2 r.elapsed.toNumber ++ "s", "",
    "📋 Work:",
    "   Runs: " ++ toString r.trial.runs ++ " x " ++ toString r.trial.width ++ " operations",
    "   Completed: " ++ toString r.completed,
    "   Failed: " ++ toString r.failed, "",
    "🚀 Throughput: " ++ fixedText 1 r.throughput ++ " runs/sec", "",
    "📈 Average Latency: " ++ fixedText 1 latency ++ "ms", "",
    rule]

end Trial

end Interlace
