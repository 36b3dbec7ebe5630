import Interlace.Number.Basic

/-!
# The fewest digits that read back

`Decimal.shortest` finds the decimal with the fewest digits that reads back as a given double. On
each grid of powers of ten only the two neighbours of the value can be nearest, so a search by
digit count tests two candidates a step. What no grid of seventeen digits identifies is written
out exactly.
-/

namespace Interlace

/-- The quantity `digits * 10 ^ exponent`. -/
structure Decimal where
  digits : Nat
  exponent : Int
deriving DecidableEq, Inhabited

namespace Decimal

def ticks (d : Decimal) : Nat :=
  Number.nearest (d.digits * 10 ^ d.exponent.toNat * Number.one) (10 ^ (-d.exponent).toNat)

/-- The double nearest to a decimal. An exponent that alone decides for infinity or for zero is
settled without raising ten to it. -/
def toNumber (negative : Bool) (d : Decimal) : Number :=
  if d.digits = 0 then Number.zero negative
  else if 400 < d.exponent then .infinite negative
  else if d.exponent + d.digits.log2 < -400 then Number.zero negative
  else .ofTicks negative (d.digits * 10 ^ d.exponent.toNat * Number.one) (10 ^ (-d.exponent).toNat)

/-- Moves trailing zeros of the digits into the exponent, at most `fuel` of them. -/
def strip : Nat → Decimal → Decimal
  | 0, d => d
  | fuel + 1, d =>
    if d.digits % 10 = 0 ∧ d.digits ≠ 0 then strip fuel ⟨d.digits / 10, d.exponent + 1⟩ else d

/-- Whether a double of at least `10 ^ k` is meant by this many ticks. -/
def reaches (t : Nat) (k : Int) : Bool :=
  decide (10 ^ k.toNat * Number.one ≤ t * 10 ^ (-k).toNat)

/-- The decimal exponent of the leading digit: the binary one, scaled and put right by one step. -/
def magnitude (t : Nat) : Int :=
  let guess := Int.fdiv (((t.log2 : Int) - 1074) * 30103) 100000
  if reaches t (guess + 1) then guess + 1 else if reaches t guess then guess else guess - 1

inductive Tie where
  | even
  | up
deriving DecidableEq

/-- The neighbour of a double on the grid of multiples of `10 ^ k` that reads back, the nearer one
if both do. -/
def onGrid? (tie : Tie) (t : Nat) (k : Int) : Option Decimal :=
  let num := t * 10 ^ (-k).toNat
  let den := Number.one * 10 ^ k.toNat
  let below := num / den
  let twice := 2 * (num % den)
  let lower : Decimal := ⟨below, k⟩
  let upper : Decimal := ⟨below + 1, k⟩
  let takesLower : Bool := twice < den || (twice == den && tie == .even && below % 2 == 0)
  if lower.ticks = t ∧ (upper.ticks ≠ t ∨ takesLower) then some lower
  else if upper.ticks = t then some upper
  else none

def shortest (tie : Tie) (t : Nat) : Decimal :=
  let top := magnitude t
  match (List.range 17).findSome? fun (n : Nat) => onGrid? tie t (top - n) with
  | some d => strip 18 d
  | none => ⟨t * 5 ^ 1074, -1074⟩

def digitChars (n : Nat) : List Char := Nat.toDigits 10 n

/-- The text of `num / den`, rounded to a fixed number of places behind the point. -/
def fixed (places num den : Nat) : List Char :=
  let scaled := Number.roundDiv (num * 10 ^ places) den
  let fraction := digitChars (scaled % 10 ^ places)
  digitChars (scaled / 10 ^ places) ++
    '.' :: (List.replicate (places - fraction.length) '0' ++ fraction)

structure Layout where
  /-- The exponents of the leading digit for which the number is written without `e`; all of them
  when absent. The first is included and the last is not. -/
  plain : Option (Int × Int)
  keepsPoint : Bool
  plusSign : Bool
  tie : Tie

namespace Layout

def isPlain (layout : Layout) (e : Int) : Bool :=
  match layout.plain with
  | none => true
  | some (first, last) => decide (first ≤ e ∧ e < last)

def positional (layout : Layout) (ds : List Char) (exponent lead : Int) : List Char :=
  if 0 ≤ exponent then
    ds ++ List.replicate exponent.toNat '0' ++ (if layout.keepsPoint then ['.', '0'] else [])
  else if 0 ≤ lead then
    ds.take (lead.toNat + 1) ++ '.' :: ds.drop (lead.toNat + 1)
  else
    '0' :: '.' :: List.replicate (-lead - 1).toNat '0' ++ ds

def scientific (layout : Layout) (ds : List Char) (lead : Int) : List Char :=
  let fraction := ds.drop 1
  let sign := if lead < 0 then ['-'] else if layout.plusSign then ['+'] else []
  ds.take 1 ++ (if fraction.isEmpty then [] else '.' :: fraction) ++
    'e' :: (sign ++ digitChars lead.natAbs)

def decimal (layout : Layout) (d : Decimal) : List Char :=
  let ds := digitChars d.digits
  let lead := d.exponent + (ds.length : Int) - 1
  if layout.isPlain lead then layout.positional ds d.exponent lead else layout.scientific ds lead

def finite (layout : Layout) (negative : Bool) (t : Nat) : List Char :=
  let body := layout.decimal (if t = 0 then ⟨0, 0⟩ else shortest layout.tie t)
  if negative then '-' :: body else body

end Layout

end Decimal

end Interlace
