import Interlace.Number.Reading

/-!
# Quoted strings

TOML has four ways to quote a string: with escapes or literally, and on one line or, behind three
quotes, on several. `Quoted.read?` reads each of them. `Quoted.write` takes the plainest that a
string admits, and escapes only where no other way is left.
-/

namespace Interlace.Toml.Quoted

def isBlank (c : Char) : Bool := c == ' ' || c == '\t'

def isControl (c : Char) : Bool := decide (c.toNat < 0x20) || c.toNat == 0x7f

/-- Whether a character may stand for itself in a quoted string, which is on several lines if
`long`. Quotes and backslashes are looked at before. -/
def isPlain (long : Bool) (c : Char) : Bool := !isControl c || c == '\t' || (long && c == '\n')

/-! ## Reading -/

def escape? : Char → Option Char
  | 'b' => some '\x08'
  | 't' => some '\t'
  | 'n' => some '\n'
  | 'f' => some '\x0c'
  | 'r' => some '\r'
  | '"' => some '"'
  | '\\' => some '\\'
  | _ => none

def hexDigit? (c : Char) : Option Nat :=
  if Text.isDigit c then some (c.toNat - 48)
  else if 'a' ≤ c ∧ c ≤ 'f' then some (c.toNat - 87)
  else if 'A' ≤ c ∧ c ≤ 'F' then some (c.toNat - 55)
  else none

def scalar? (ds : List Char) : Option Char := do
  let n ← ds.foldlM (fun n d => (hexDigit? d).map (n * 16 + ·)) 0
  if n.isValidChar then return Char.ofNat n else none

def endsLine (cs : List Char) : Bool :=
  match cs.dropWhile isBlank with
  | '\n' :: _ => true
  | '\r' :: '\n' :: _ => true
  | _ => false

abbrev Cut := Option (List Char × List Char)

def Cut.push (c : Char) (cut : Cut) : Cut := cut.map fun (cs, rest) => (c :: cs, rest)

/-- What is left of a string on several lines at its closing quotes: up to two more quotes belong
to the string. -/
def close (quote : Char) : List Char → List Char × List Char
  | c :: d :: rest =>
    if c = quote then
      if d = quote then ([quote, quote], rest) else ([quote], d :: rest)
    else ([], c :: d :: rest)
  | [c] => if c = quote then ([quote], []) else ([], [c])
  | [] => ([], [])

/-- Reads a string with escapes behind its opening quote, or quotes if `long`. A backslash before
the end of a line takes the blanks and line ends that follow away; `trimming` says that it is doing
so. -/
def basic (long : Bool) (trimming : Bool) : List Char → Cut
  | [] => none
  | '\\' :: 'u' :: a :: b :: c :: d :: rest =>
    match scalar? [a, b, c, d] with
    | some x => (basic long false rest).push x
    | none => none
  | '\\' :: 'U' :: a :: b :: c :: d :: e :: f :: g :: h :: rest =>
    match scalar? [a, b, c, d, e, f, g, h] with
    | some x => (basic long false rest).push x
    | none => none
  | '\\' :: c :: rest =>
    match escape? c with
    | some x => (basic long false rest).push x
    | none => if long && endsLine (c :: rest) then basic long true (c :: rest) else none
  | '\r' :: '\n' :: rest =>
    if !long then none
    else if trimming then basic long true rest
    else (basic long false rest).push '\n'
  | '"' :: '"' :: '"' :: rest =>
    if long then some (close '"' rest) else some ([], '"' :: '"' :: rest)
  | '"' :: rest => if long then (basic long false rest).push '"' else some ([], rest)
  | '\\' :: [] => none
  | c :: rest =>
    if trimming && (isBlank c || c == '\n') then basic long true rest
    else if isPlain long c then (basic long false rest).push c
    else none

/-- Reads a string without escapes behind its opening quote, or quotes if `long`. -/
def literal (long : Bool) : List Char → Cut
  | [] => none
  | '\r' :: '\n' :: rest => if long then (literal long rest).push '\n' else none
  | '\'' :: '\'' :: '\'' :: rest =>
    if long then some (close '\'' rest) else some ([], '\'' :: '\'' :: rest)
  | '\'' :: rest => if long then (literal long rest).push '\'' else some ([], rest)
  | c :: rest => if isPlain long c then (literal long rest).push c else none

def dropLineEnd : List Char → List Char
  | '\n' :: rest => rest
  | '\r' :: '\n' :: rest => rest
  | cs => cs

def readShort? : List Char → Cut
  | '"' :: rest => basic false false rest
  | '\'' :: rest => literal false rest
  | _ => none

def read? : List Char → Cut
  | '"' :: '"' :: '"' :: rest => basic true false (dropLineEnd rest)
  | '\'' :: '\'' :: '\'' :: rest => literal true (dropLineEnd rest)
  | cs => readShort? cs

/-! ## Writing -/

def isRaw (c : Char) : Bool := isControl c && c != '\t' && c != '\n'

/-- The length of the longest run of a character, where `current` have been seen just before. -/
def longestRun (q : Char) (current : Nat) : List Char → Nat
  | [] => current
  | c :: rest =>
    if c = q then longestRun q (current + 1) rest else max current (longestRun q 0 rest)

def hexDigit (n : Nat) : Char := if n < 10 then Char.ofNat (48 + n) else Char.ofNat (55 + n)

def letter? (long : Bool) : Char → Option Char
  | '\x08' => some 'b'
  | '\t' => some 't'
  | '\n' => if long then none else some 'n'
  | '\x0c' => some 'f'
  | '\r' => some 'r'
  | '\\' => some '\\'
  | _ => none

/-- The text of a string with escapes. On several lines two quotes in a row, of which `seen` have
been written, stand for themselves. -/
def escaped (long : Bool) (seen : Nat) : List Char → List Char
  | [] => []
  | c :: rest =>
    if c = '"' then
      if long && seen < 2 then '"' :: escaped long (seen + 1) rest
      else '\\' :: '"' :: escaped long 0 rest
    else
      match letter? long c with
      | some l => '\\' :: l :: escaped long 0 rest
      | none =>
        if isControl c && !(long && c == '\n') then
          '\\' :: 'u' :: '0' :: '0' :: hexDigit (c.toNat / 16) :: hexDigit (c.toNat % 16) ::
            escaped long 0 rest
        else c :: escaped long 0 rest

inductive Way where
  | basic
  | literal
  | longBasic
  | longLiteral
deriving DecidableEq

def way (cs : List Char) : Way :=
  let raw := cs.any isRaw
  let lines := cs.contains '\n'
  let backslash := cs.contains '\\'
  let doubles := longestRun '"' 0 cs
  let singles := longestRun '\'' 0 cs
  if !raw && !backslash && doubles == 0 && !lines then .basic
  else if !raw && singles == 0 && !lines then .literal
  else if !raw && !backslash && doubles ≤ 2 then .longBasic
  else if !raw && singles ≤ 2 then .longLiteral
  else if lines then .longBasic
  else .basic

/-- A string on several lines that has a line end starts on a line of its own. -/
def lead (cs : List Char) : List Char := if cs.contains '\n' then ['\n'] else []

def write (cs : List Char) : List Char :=
  match way cs with
  | .basic => '"' :: escaped false 0 cs ++ ['"']
  | .literal => '\'' :: cs ++ ['\'']
  | .longBasic => ['"', '"', '"'] ++ lead cs ++ escaped true 0 cs ++ ['"', '"', '"']
  | .longLiteral => ['\'', '\'', '\''] ++ lead cs ++ cs ++ ['\'', '\'', '\'']

end Interlace.Toml.Quoted
