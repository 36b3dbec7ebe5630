/-!
# Gauges

A gauge counts how many are between entering and leaving, and the highest that count ever was.
The count is a 64 bit word: one who leaves without having entered takes it below zero and round.
-/

namespace Interlace

structure Gauge where
  active : UInt64
  peak : UInt64
deriving Inhabited

namespace Gauge

def new : Gauge := ⟨0, 0⟩

def enter (g : Gauge) : Gauge := ⟨g.active + 1, max g.peak (g.active + 1)⟩

def leave (g : Gauge) : Gauge := { g with active := g.active - 1 }

def isFull (g : Gauge) : Bool := g.active == 0 - 1

inductive Move where
  | enter
  | leave
deriving DecidableEq

def move? (g : Gauge) : Move → Option Gauge
  | .enter => if g.isFull then none else some g.enter
  | .leave => some g.leave

/-- The gauge after each of some uses, unless the count would not fit at one of them. -/
def trace? (g : Gauge) : List Move → Option (List Gauge)
  | [] => some []
  | m :: moves => do
    let g ← g.move? m
    return g :: (← g.trace? moves)

def overflow : String := "attempt to add with overflow"

end Gauge

structure Gauges where
  entries : List (String × Gauge)

namespace Gauges

def empty : Gauges := ⟨[]⟩

def get (gs : Gauges) (name : String) : Gauge := (gs.entries.lookup name).getD .new

def set (gs : Gauges) (name : String) (g : Gauge) : Gauges :=
  ⟨(name, g) :: gs.entries.filter (·.1 != name)⟩

def enter (gs : Gauges) (name : String) : Gauges := gs.set name (gs.get name).enter

def leave (gs : Gauges) (name : String) : Gauges := gs.set name (gs.get name).leave

end Gauges

end Interlace
