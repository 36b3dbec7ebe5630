import Interlace.Toml.Moment
import Interlace.Toml.Value

/-!
# Bare values

Numbers, truth values and moments are written without quotes. None of the characters they are made
of can follow one of them, so a bare value is the longest run of such characters, read as a whole.
Only between a date and a time a blank may stand.
-/

namespace Interlace.Toml.Scalar

open Text

def isWordChar (c : Char) : Bool :=
  c.isAlphanum || c == '_' || c == '+' || c == '-' || c == '.' || c == ':'

/-- Digits, where an underscore may stand between two of them and is left out. -/
def digits? (isDigit : Char → Bool) : List Char → Option (List Char)
  | [] => none
  | c :: '_' :: rest =>
    if isDigit c then (digits? isDigit rest).map (c :: ·) else none
  | c :: rest =>
    if !isDigit c then none
    else if rest.isEmpty then some [c]
    else (digits? isDigit rest).map (c :: ·)

/-- Decimal digits that start with a zero only if there are no more. -/
def whole? (cs : List Char) : Option (List Char) :=
  match cs with
  | '0' :: _ :: _ => none
  | _ => digits? isDigit cs

def digitOf? (base : Nat) (c : Char) : Option Nat :=
  let value :=
    if isDigit c then c.toNat - 48
    else if 'a' ≤ c ∧ c ≤ 'f' then c.toNat - 87
    else if 'A' ≤ c ∧ c ≤ 'F' then c.toNat - 55
    else base
  if value < base then some value else none

def bounded? (n : Int) : Option Int := if -(2 ^ 63) ≤ n ∧ n < 2 ^ 63 then some n else none

def based? (base : Nat) (cs : List Char) : Option Int := do
  let ds ← digits? (fun c => (digitOf? base c).isSome) cs
  bounded? (ds.foldl (fun n c => n * base + (digitOf? base c).getD 0) 0 : Nat)

def integer? : List Char → Option Int
  | '0' :: 'x' :: cs => based? 16 cs
  | '0' :: 'o' :: cs => based? 8 cs
  | '0' :: 'b' :: cs => based? 2 cs
  | cs => do
    let (negative, cs) := takeSign cs
    let ds ← whole? cs
    bounded? (Number.signed negative (naturalOf ds))

def exponent? : List Char → Option Int
  | [] => some 0
  | c :: cs => do
    if c = 'e' ∨ c = 'E' then
      let (negative, cs) := takeSign cs
      return Number.signed negative (naturalOf (← digits? isDigit cs))
    else none

def decimal? (cs : List Char) : Option Decimal := do
  let isPart (c : Char) : Bool := isDigit c || c == '_'
  let whole ← whole? (cs.takeWhile isPart)
  match cs.dropWhile isPart with
  | [] => none
  | '.' :: cs =>
    let fraction ← digits? isDigit (cs.takeWhile isPart)
    let e ← exponent? (cs.dropWhile isPart)
    return ⟨naturalOf (whole ++ fraction), e - fraction.length⟩
  | cs => return ⟨naturalOf whole, ← exponent? cs⟩

/-- A number that is not an integer. A decimal beyond the largest double is refused, one below the
least is not. -/
def real? (cs : List Char) : Option Number :=
  let (negative, cs) := takeSign cs
  if cs = ['i', 'n', 'f'] then some (.infinite negative)
  else if cs = ['n', 'a', 'n'] then some .nan
  else
    match (decimal? cs).map (·.toNumber negative) with
    | some x => if x = .infinite false then none else some x
    | none => none

def ofWord? (cs : List Char) : Option Value :=
  if cs = ['t', 'r', 'u', 'e'] then some (.bool true)
  else if cs = ['f', 'a', 'l', 's', 'e'] then some (.bool false)
  else
    match integer? cs with
    | some n => some (.integer n)
    | none =>
      match real? cs with
      | some x => some (.real x)
      | none => (Moment.parse? cs).map fun m => .moment m.text

/-- The bare value at the front of a text. A blank behind a date belongs to it if a digit follows
the blank. -/
def cut (cs : List Char) : List Char × List Char :=
  let word := cs.takeWhile isWordChar
  match cs.dropWhile isWordChar with
  | ' ' :: c :: rest =>
    if isDigit c && (Moment.date? word matches some (_, [])) then
      (word ++ ' ' :: (c :: rest).takeWhile isWordChar, (c :: rest).dropWhile isWordChar)
    else (word, ' ' :: c :: rest)
  | rest => (word, rest)

def read? (cs : List Char) : Option (Value × List Char) :=
  let (word, rest) := cut cs
  (ofWord? word).map fun v => (v, rest)

end Interlace.Toml.Scalar
