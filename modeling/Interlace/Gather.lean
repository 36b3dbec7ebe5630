import Interlace.Frame

/-!
# Joins

A `Gather` collects the outcomes of the items of a join. The first failure settles it, and so does
the last success; what is reported after that is discarded. A join also ends unsettled, when
nobody is left who could report.
-/

namespace Interlace

structure Gather where
  slots : List (Option Datum)
  remaining : Nat
  settled : Bool
  /-- How many continuations of items are still to be called or dropped, with the loop that starts
  the items counted as one more. -/
  holders : Nat

inductive Settlement where
  | pending
  | discarded
  | done (outcome : Outcome)
  | fault (f : Fault)

namespace Gather

/-- A join of `width` items, none of which has been started. -/
def new (width : Nat) : Gather := ⟨List.replicate width none, width, false, width + 1⟩

def accept (g : Gather) (index : Nat) (d : Datum) : Settlement × Gather :=
  match g.slots[index]? with
  | none => (.fault (.noItem g.slots.length index), g)
  | some (some _) => (.fault .itemTwice, g)
  | some none =>
    let slots := g.slots.set index (some d)
    let remaining := g.remaining - 1
    if 0 < remaining then (.pending, { g with slots, remaining })
    else
      (.done (.ok (.list (slots.map (·.getD .null)))),
        { g with slots := [], remaining, settled := true })

def report (g : Gather) (index : Nat) (outcome : Outcome) : Settlement × Gather :=
  if g.settled then (.discarded, g)
  else
    match outcome with
    | .error e => (.done (.error (.ofItem index e)), { g with settled := true })
    | .ok d => g.accept index d

def release (g : Gather) : Gather := { g with holders := g.holders - 1 }

end Gather

end Interlace
