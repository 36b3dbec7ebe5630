import Interlace.Number.Decimal

/-!
# Reading numbers

Numbers as people write them: an optional sign, digits with a point anywhere among or around them,
an optional exponent, or the name of infinity or of NaN in any case. A decimal is read as the
nearest double. Integers are read within the bounds of their type.
-/

namespace Interlace

namespace Text

def isDigit (c : Char) : Bool := '0' ≤ c && c ≤ '9'

def naturalOf (ds : List Char) : Nat := ds.foldl (fun n c => n * 10 + (c.toNat - 48)) 0

def takeSign : List Char → Bool × List Char
  | '-' :: cs => (true, cs)
  | '+' :: cs => (false, cs)
  | cs => (false, cs)

def lowered (s : String) : String := s.map Char.toLower

/-- A natural number below a bound. A plus sign is allowed, blanks are not. -/
def natural? (bound : Nat) (s : String) : Option Nat :=
  let ds := match s.toList with
    | '+' :: cs => cs
    | cs => cs
  if ds.isEmpty || !ds.all isDigit then none
  else
    let n := naturalOf ds
    if n < bound then some n else none

def integer? (bits : Nat) (s : String) : Option Int :=
  let (negative, ds) := takeSign s.toList
  if ds.isEmpty || !ds.all isDigit then none
  else
    let n := Number.signed negative (naturalOf ds)
    if -(2 ^ (bits - 1)) ≤ n ∧ n < 2 ^ (bits - 1) then some n else none

end Text

namespace Number

open Text

/-- The exponent behind an `e`, or zero where the text ends. -/
def exponent? : List Char → Option Int
  | [] => some 0
  | c :: cs =>
    if c = 'e' ∨ c = 'E' then
      let (negative, ds) := takeSign cs
      if ds.isEmpty || !ds.all isDigit then none
      else some (signed negative (naturalOf ds))
    else none

def decimal? (cs : List Char) : Option Decimal := do
  let whole := cs.takeWhile isDigit
  let rest := cs.dropWhile isDigit
  let (fraction, rest) := match rest with
    | '.' :: rest => (rest.takeWhile isDigit, rest.dropWhile isDigit)
    | _ => ([], rest)
  if whole.isEmpty && fraction.isEmpty then none
  else
    let e ← exponent? rest
    return ⟨naturalOf (whole ++ fraction), e - fraction.length⟩

def parse? (s : String) : Option Number :=
  let (negative, cs) := takeSign s.toList
  let word := lowered (String.ofList cs)
  if word = "inf" ∨ word = "infinity" then some (infinite negative)
  else if word = "nan" then some nan
  else (decimal? cs).map (·.toNumber negative)

end Number

end Interlace
