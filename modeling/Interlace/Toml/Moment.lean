import Interlace.Number.Reading

/-!
# Dates and times

A moment is a date, a time of day, or both, with an offset where both are there. It is read from
text of fixed widths and written back in one form: `T` between date and time, nine digits of a
second at most and no trailing zeros, offsets with a sign.
-/

namespace Interlace.Toml

open Text

structure Date where
  year : Nat
  month : Nat
  day : Nat
deriving DecidableEq

structure Clock where
  hour : Nat
  minute : Nat
  second : Nat
  nanos : Nat
deriving DecidableEq

inductive Offset where
  | utc
  | ahead (minutes : Int)
deriving DecidableEq

inductive Moment where
  | date (d : Date)
  | clock (c : Clock)
  | civil (d : Date) (c : Clock)
  | zoned (d : Date) (c : Clock) (o : Offset)
deriving DecidableEq

namespace Moment

def isLeap (year : Nat) : Bool := year % 4 == 0 && (year % 100 != 0 || year % 400 == 0)

def daysIn (year month : Nat) : Nat :=
  if month = 2 then (if isLeap year then 29 else 28)
  else if month ∈ [4, 6, 9, 11] then 30
  else 31

/-! ## Reading -/

def fixed? (n : Nat) (cs : List Char) : Option (Nat × List Char) :=
  let ds := cs.take n
  if ds.length = n ∧ ds.all isDigit then some (naturalOf ds, cs.drop n) else none

def pair? (least most : Nat) (cs : List Char) : Option (Nat × List Char) := do
  let (n, rest) ← fixed? 2 cs
  if least ≤ n ∧ n ≤ most then return (n, rest) else none

def expect? (c : Char) : List Char → Option (List Char)
  | d :: rest => if d = c then some rest else none
  | [] => none

def date? (cs : List Char) : Option (Date × List Char) := do
  let (year, cs) ← fixed? 4 cs
  let (month, cs) ← pair? 1 12 (← expect? '-' cs)
  let (day, cs) ← pair? 1 31 (← expect? '-' cs)
  if day ≤ daysIn year month then return (⟨year, month, day⟩, cs) else none

def fraction? : List Char → Option (Nat × List Char)
  | '.' :: cs =>
    let ds := (cs.takeWhile isDigit).take 9
    if ds.isEmpty then none
    else some (naturalOf ds * 10 ^ (9 - ds.length), cs.dropWhile isDigit)
  | cs => some (0, cs)

def clock? (cs : List Char) : Option (Clock × List Char) := do
  let (hour, cs) ← pair? 0 23 cs
  let (minute, cs) ← pair? 0 59 (← expect? ':' cs)
  let (second, cs) ← pair? 0 60 (← expect? ':' cs)
  let (nanos, cs) ← fraction? cs
  return (⟨hour, minute, second, nanos⟩, cs)

def offset? : List Char → Option (Offset × List Char)
  | [] => none
  | c :: cs => do
    if c = 'Z' ∨ c = 'z' then return (.utc, cs)
    else if c = '+' ∨ c = '-' then
      let (hour, cs) ← pair? 0 23 cs
      let (minute, cs) ← pair? 0 59 (← expect? ':' cs)
      return (.ahead (Number.signed (c == '-') (hour * 60 + minute)), cs)
    else none

def isDelimiter (c : Char) : Bool := c == 'T' || c == 't' || c == ' '

def parse? (cs : List Char) : Option Moment :=
  match date? cs with
  | some (d, []) => some (.date d)
  | some (d, c :: cs) =>
    if isDelimiter c then
      match clock? cs with
      | some (t, []) => some (.civil d t)
      | some (t, cs) =>
        match offset? cs with
        | some (o, []) => some (.zoned d t o)
        | _ => none
      | none => none
    else none
  | none =>
    match clock? cs with
    | some (t, []) => some (.clock t)
    | _ => none

/-! ## Writing -/

def padded (width n : Nat) : List Char :=
  let ds := Decimal.digitChars n
  List.replicate (width - ds.length) '0' ++ ds

def trimmed (ds : List Char) : List Char := (ds.reverse.dropWhile (· == '0')).reverse

def dateText (d : Date) : List Char :=
  padded 4 d.year ++ '-' :: padded 2 d.month ++ '-' :: padded 2 d.day

def clockText (c : Clock) : List Char :=
  padded 2 c.hour ++ ':' :: padded 2 c.minute ++ ':' :: padded 2 c.second ++
    (if c.nanos = 0 then [] else '.' :: trimmed (padded 9 c.nanos))

def offsetText : Offset → List Char
  | .utc => ['Z']
  | .ahead m =>
    (if m < 0 then '-' else '+') :: padded 2 (m.natAbs / 60) ++ ':' :: padded 2 (m.natAbs % 60)

def text : Moment → String
  | date d => String.ofList (dateText d)
  | clock c => String.ofList (clockText c)
  | civil d c => String.ofList (dateText d ++ 'T' :: clockText c)
  | zoned d c o => String.ofList (dateText d ++ 'T' :: clockText c ++ offsetText o)

end Moment

end Interlace.Toml
