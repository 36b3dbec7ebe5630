import Interlace.Json.Basic

/-!
# Reading JSON text

Reading never fails outright. A `Draft` is what could be read, with a `Flaw` wherever the text
departs from the grammar. What a fault in the text means depends on who looks at it: a caller that
wants a value of some shape finds the first flaw or the first part of another shape, in the order
of the text, while a caller that skips a part is content with less. So drafts leave the depth
limit, numbers beyond all doubles and unpaired surrogates to those who use the part in question.
-/

namespace Interlace.Json

inductive Cause where
  | shape
  | grammar
  | truncated
deriving DecidableEq, Inhabited

/-- A place where the grammar is broken: the cause for a reader, for one who skips, and for one
who looks for a name. -/
structure Flaw where
  read : Cause
  skip : Cause
  name : Cause
deriving DecidableEq, Inhabited

def Flaw.grammar : Flaw := ⟨.grammar, .grammar, .grammar⟩

def Flaw.truncated : Flaw := ⟨.truncated, .truncated, .truncated⟩

/-- A document as far as it can be read. A container without an `ending` is closed. -/
inductive Draft where
  | null
  | bool (b : Bool)
  | integer (n : Int)
  | real (x : Number)
  | beyond
  | string (text : Except Cause String)
  | array (items : List Draft) (ending : Option Flaw)
  | object (members : List (Except Cause String × Draft)) (ending : Option Flaw)
  | broken (flaw : Flaw)
deriving Inhabited

def isBlank (c : Char) : Bool := c == ' ' || c == '\n' || c == '\t' || c == '\r'

def skipBlanks (cs : List Char) : List Char := cs.dropWhile isBlank

def isDigit (c : Char) : Bool := '0' ≤ c && c ≤ '9'

def digitValue (c : Char) : Nat := c.toNat - 48

/-! ## Numbers -/

/-- The digits of a number that fit 64 bits, and the power of ten they stand at. -/
structure Significand where
  digits : Nat
  exponent : Int
deriving Inhabited

def topPower : Nat := 308

/-- Scales by one power of ten after another, as far as `steps` allow. Each step rounds. -/
def scale : Nat → Number → Int → Option Number
  | 0, x, _ => some x
  | steps + 1, x, e =>
    if e.natAbs ≤ topPower then
      let power := Number.ofNat (10 ^ e.natAbs)
      if 0 ≤ e then
        let y := x.mul power
        if y.isFinite then some y else none
      else some (x.div power)
    else if x.equal (Number.zero false) then some x
    else if 0 ≤ e then none
    else scale steps (x.div (Number.ofNat (10 ^ topPower))) (e + topPower)

def Significand.toNumber? (s : Significand) : Option Number :=
  scale 5 (Number.ofNat s.digits) s.exponent

def wordLimit : Nat := 2 ^ 64

/-- Takes the digits of an integer part. From the first that does not fit on, each only counts. -/
def takeWhole (s : Significand) : List Char → Significand
  | [] => s
  | c :: cs =>
    let wider := s.digits * 10 + digitValue c
    if wider < wordLimit then takeWhole ⟨wider, s.exponent⟩ cs
    else ⟨s.digits, s.exponent + (cs.length + 1 : Nat)⟩

/-- Takes the digits of a fraction. From the first that does not fit on, none counts. -/
def takeFraction (s : Significand) : List Char → Significand
  | [] => s
  | c :: cs =>
    let wider := s.digits * 10 + digitValue c
    if wider < wordLimit then takeFraction ⟨wider, s.exponent - 1⟩ cs else s

def naturalOf (ds : List Char) : Nat := ds.foldl (fun n c => n * 10 + digitValue c) 0

def exponentLimit : Nat := 2 ^ 31 - 1

structure Numeral where
  negative : Bool
  whole : List Char
  fraction : Option (List Char)
  exponent : Option (Bool × List Char)

namespace Numeral

def significand (n : Numeral) : Significand :=
  takeFraction (takeWhole ⟨0, 0⟩ n.whole) (n.fraction.getD [])

def signed (negative : Bool) (x : Number) : Number := if negative then x.neg else x

/-- Without point and exponent a number is an integer when it fits 64 bits; a negative zero and
everything else is a double. -/
def toDraft (n : Numeral) : Draft :=
  let s := n.significand
  match n.fraction, n.exponent with
  | none, none =>
    let value := naturalOf n.whole
    if n.negative then
      if value ≠ 0 ∧ value ≤ 2 ^ 63 then .integer (-value) else real s
    else if value < wordLimit then .integer value
    else real s
  | _, none => real s
  | _, some (negativeExponent, ds) =>
    let e := naturalOf ds
    if exponentLimit < e then
      if s.digits = 0 ∨ negativeExponent then .real (signed n.negative (Number.zero false))
      else .beyond
    else real { s with exponent := if negativeExponent then s.exponent - e else s.exponent + e }
where
  real (s : Significand) : Draft :=
    match s.toNumber? with
    | some x => .real (signed n.negative x)
    | none => .beyond

end Numeral

/-- A number that breaks off is truncated for a reader and malformed for one who skips it. -/
def numberFlaw (rest : List Char) : Flaw :=
  if rest.isEmpty then ⟨.truncated, .grammar, .grammar⟩ else .grammar

/-- Reads digits, of which there is at least one. -/
def readDigits (cs : List Char) : Except Flaw (List Char × List Char) :=
  let ds := cs.takeWhile isDigit
  let after := cs.dropWhile isDigit
  if ds.isEmpty then .error (numberFlaw after) else .ok (ds, after)

def readFraction (cs : List Char) : Except Flaw (Option (List Char) × List Char) :=
  if cs.head? == some '.' then do
    let (ds, after) ← readDigits (cs.drop 1)
    return (some ds, after)
  else return (none, cs)

/-- Reads an exponent, if there is one: whether it is negative, and its digits. -/
def readExponent (cs : List Char) : Except Flaw (Option (Bool × List Char) × List Char) :=
  if cs.head? == some 'e' || cs.head? == some 'E' then do
    let after := cs.drop 1
    let negative := after.head? == some '-'
    let (ds, after) ←
      readDigits (if negative || after.head? == some '+' then after.drop 1 else after)
    return (some (negative, ds), after)
  else return (none, cs)

def readNumeral (cs : List Char) : Except Flaw (Numeral × List Char) := do
  let negative := cs.head? == some '-'
  let (whole, cs) ← readDigits (if negative then cs.drop 1 else cs)
  if whole.head? == some '0' && whole.length != 1 then throw .grammar
  let (fraction, cs) ← readFraction cs
  let (exponent, cs) ← readExponent cs
  return (⟨negative, whole, fraction, exponent⟩, cs)

/-! ## Strings -/

def hexValue? (c : Char) : Option Nat :=
  if isDigit c then some (digitValue c)
  else if 'a' ≤ c && c ≤ 'f' then some (c.toNat - 87)
  else if 'A' ≤ c && c ≤ 'F' then some (c.toNat - 55)
  else none

/-- Reads four hexadecimal digits. Fewer than four bytes before the end of the text count as an
early end, whatever they are. -/
def readHex : List Char → Except Cause (Nat × List Char)
  | a :: b :: c :: d :: rest =>
    match hexValue? a, hexValue? b, hexValue? c, hexValue? d with
    | some a, some b, some c, some d => .ok (((a * 16 + b) * 16 + c) * 16 + d, rest)
    | _, _, _, _ => .error .grammar
  | few => .error (if few.foldl (fun n c => n + c.utf8Size) 0 < 4 then .truncated else .grammar)

def unescape? : Char → Option Char
  | '"' => some '"'
  | '\\' => some '\\'
  | '/' => some '/'
  | 'b' => some '\x08'
  | 'f' => some '\x0c'
  | 'n' => some '\n'
  | 'r' => some '\r'
  | 't' => some '\t'
  | _ => none

/-- Reads the character of a `\u` escape, which takes a second escape for a surrogate pair. -/
def readUnicode (cs : List Char) : Except Cause (Char × List Char) := do
  let (n, cs) ← readHex cs
  if 0xDC00 ≤ n ∧ n ≤ 0xDFFF then throw .grammar
  if n < 0xD800 ∨ 0xDBFF < n then return (Char.ofNat n, cs)
  match cs with
  | [] => throw .truncated
  | '\\' :: [] => throw .truncated
  | '\\' :: 'u' :: cs =>
    let (m, cs) ← readHex cs
    if m < 0xDC00 ∨ 0xDFFF < m then throw .grammar
    return (Char.ofNat (0x10000 + (n - 0xD800) * 0x400 + (m - 0xDC00)), cs)
  | _ => throw .grammar

def readString : Nat → List Char → List Char → Except Cause (List Char)
  | 0, _, _ => .error .truncated
  | _ + 1, _, [] => .error .truncated
  | fuel + 1, read, c :: cs =>
    if c = '"' then .ok read.reverse
    else if c = '\\' then
      match cs with
      | [] => .error .truncated
      | 'u' :: cs => do
        let (d, cs) ← readUnicode cs
        readString fuel (d :: read) cs
      | l :: cs =>
        match unescape? l with
        | some d => readString fuel (d :: read) cs
        | none => .error .grammar
    else if c.toNat < 0x20 then .error .grammar
    else readString fuel (c :: read) cs

/-- Passes over the rest of a string behind its opening quote; surrogates need no partner. -/
def skipString : Nat → List Char → Except Cause (List Char)
  | 0, _ => .error .truncated
  | _ + 1, [] => .error .truncated
  | fuel + 1, c :: cs =>
    if c = '"' then .ok cs
    else if c = '\\' then
      match cs with
      | [] => .error .truncated
      | 'u' :: cs => do
        let (_, cs) ← readHex cs
        skipString fuel cs
      | l :: cs => if (unescape? l).isSome then skipString fuel cs else .error .grammar
    else if c.toNat < 0x20 then .error .grammar
    else skipString fuel cs

def stringAt (cs : List Char) : Except Flaw (Except Cause String × List Char) :=
  let text := (readString (cs.length + 1) [] cs).map String.ofList
  match skipString (cs.length + 1) cs with
  | .ok rest => .ok (text, rest)
  | .error skip =>
    match text with
    | .error read => .error ⟨read, skip, read⟩
    | .ok _ => .error ⟨skip, skip, skip⟩

/-! ## Documents -/

/-- The cause why a part is not of a shape it visibly lacks. A scalar is read before its shape is
judged, a container is not. -/
def Draft.mismatch : Draft → Cause
  | beyond => .grammar
  | string (.error cause) => cause
  | broken flaw => flaw.read
  | _ => .shape

def readWord (value : Draft) : List Char → List Char → Draft × Option (List Char)
  | [], cs => (value, some cs)
  | _ :: _, [] => (.broken ⟨.truncated, .truncated, .grammar⟩, none)
  | w :: ws, c :: cs => if w = c then readWord value ws cs else (.broken .grammar, none)

mutual

/-- Reads one value. What follows it is absent when reading stopped at a flaw. -/
def readValue : Nat → List Char → Draft × Option (List Char)
  | 0, _ => (.broken .grammar, none)
  | fuel + 1, cs =>
    match skipBlanks cs with
    | [] => (.broken .truncated, none)
    | 'n' :: cs => readWord .null ['u', 'l', 'l'] cs
    | 't' :: cs => readWord (.bool true) ['r', 'u', 'e'] cs
    | 'f' :: cs => readWord (.bool false) ['a', 'l', 's', 'e'] cs
    | '"' :: cs =>
      match stringAt cs with
      | .ok (text, rest) => (.string text, some rest)
      | .error flaw => (.broken flaw, none)
    | '[' :: cs =>
      match skipBlanks cs with
      | [] => (.array [] (some .truncated), none)
      | ']' :: rest => (.array [] none, some rest)
      | cs =>
        let (items, ending, rest) := readItems fuel cs
        (.array items ending, rest)
    | '{' :: cs =>
      match skipBlanks cs with
      | [] => (.object [] (some .truncated), none)
      | '}' :: rest => (.object [] none, some rest)
      | cs =>
        let (members, ending, rest) := readMembers fuel cs
        (.object members ending, rest)
    | c :: cs =>
      if c == '-' || isDigit c then
        match readNumeral (c :: cs) with
        | .ok (n, rest) => (n.toDraft, some rest)
        | .error flaw => (.broken flaw, none)
      else (.broken .grammar, none)

def readItems : Nat → List Char → List Draft × Option Flaw × Option (List Char)
  | 0, _ => ([], some .grammar, none)
  | fuel + 1, cs =>
    match readValue fuel cs with
    | (item, none) => ([item], some .grammar, none)
    | (item, some cs) =>
      match skipBlanks cs with
      | [] => ([item], some .truncated, none)
      | ']' :: rest => ([item], none, some rest)
      | ',' :: cs =>
        let (items, ending, rest) := readItems fuel cs
        (item :: items, ending, rest)
      | _ => ([item], some .grammar, none)

def readMembers : Nat → List Char →
    List (Except Cause String × Draft) × Option Flaw × Option (List Char)
  | 0, _ => ([], some .grammar, none)
  | fuel + 1, cs =>
    match skipBlanks cs with
    | [] => ([], some .truncated, none)
    | '"' :: cs =>
      match stringAt cs with
      | .error flaw => ([], some flaw, none)
      | .ok (key, cs) =>
        match skipBlanks cs with
        | [] => ([(key, .broken .truncated)], some .grammar, none)
        | ':' :: cs =>
          match readValue fuel cs with
          | (value, none) => ([(key, value)], some .grammar, none)
          | (value, some cs) =>
            match skipBlanks cs with
            | [] => ([(key, value)], some .truncated, none)
            | '}' :: rest => ([(key, value)], none, some rest)
            | ',' :: cs =>
              let (members, ending, rest) := readMembers fuel cs
              ((key, value) :: members, ending.map fun f => { f with name := .grammar }, rest)
            | _ => ([(key, value)], some .grammar, none)
        | _ => ([(key, .broken .grammar)], some .grammar, none)
    | cs => ([], some ⟨.grammar, .grammar, (readValue fuel cs).1.mismatch⟩, none)

end

namespace Draft

def ofText (text : String) : Draft × Option (List Char) :=
  let cs := text.toList
  let (draft, rest) := readValue (2 * cs.length + 2) cs
  (draft, rest.map skipBlanks)

mutual

def skip : Draft → Except Cause Unit
  | broken flaw => .error flaw.skip
  | array items ending => skipItems items ending
  | object members ending => skipMembers members ending
  | _ => .ok ()

def skipItems : List Draft → Option Flaw → Except Cause Unit
  | [], none => .ok ()
  | [], some flaw => .error flaw.skip
  | d :: ds, ending => do d.skip; skipItems ds ending

def skipMembers : List (Except Cause String × Draft) → Option Flaw → Except Cause Unit
  | [], none => .ok ()
  | [], some flaw => .error flaw.skip
  | (_, d) :: ms, ending => do d.skip; skipMembers ms ending

end

mutual

def load (depth : Nat) : Draft → Except Cause Json
  | null => .ok .null
  | bool b => .ok (.bool b)
  | integer n => .ok (.integer n)
  | real x => .ok (.real x)
  | beyond => .error .grammar
  | string text => do return .string (← text)
  | array items ending =>
    match depth with
    | 0 => .error .grammar
    | depth + 1 => do return .array (← loadItems depth items ending)
  | object members ending =>
    match depth with
    | 0 => .error .grammar
    | depth + 1 => do return .object (← loadMembers depth members ending)
  | broken flaw => .error flaw.read

def loadItems (depth : Nat) : List Draft → Option Flaw → Except Cause (List Json)
  | [], none => .ok []
  | [], some flaw => .error flaw.read
  | d :: ds, ending => do
    let j ← d.load depth
    let js ← loadItems depth ds ending
    return j :: js

def loadMembers (depth : Nat) :
    List (Except Cause String × Draft) → Option Flaw → Except Cause (List (String × Json))
  | [], none => .ok []
  | [], some flaw => .error flaw.read
  | (key, d) :: ms, ending => do
    let key ← key
    let j ← d.load depth
    let js ← loadMembers depth ms ending
    return (key, j) :: js

end

def parse {α : Type} (reader : Draft → Except Cause α) (text : String) : Except Cause α := do
  let (draft, rest) := ofText text
  let value ← reader draft
  if rest == some [] then return value else throw .grammar

end Draft

def parse (depth : Nat) (text : String) : Except Cause Json :=
  Draft.parse (Draft.load depth) text

end Interlace.Json
