import Interlace.Datum.Basic
import Interlace.Number.Decimal

/-!
# Diagnostic text

The form in which data and failures appear inside messages: constructors by name, strings in
quotes with everything invisible escaped.
-/

namespace Interlace.Diagnostic

/-- Closed ranges of characters that leave no mark of their own: controls, formats, separators
other than the blank, private use, and the commonest combining marks. -/
def invisibleRanges : List (Nat × Nat) :=
  [(0x00, 0x1F), (0x7F, 0xA0), (0xAD, 0xAD), (0x300, 0x36F), (0x483, 0x489), (0x591, 0x5BD),
   (0x600, 0x605), (0x610, 0x61A), (0x61C, 0x61C), (0x64B, 0x65F), (0x670, 0x670), (0x6DD, 0x6DD),
   (0x70F, 0x70F), (0x1680, 0x1680), (0x180E, 0x180E), (0x1AB0, 0x1ACE), (0x1DC0, 0x1DFF),
   (0x2000, 0x200F), (0x2028, 0x202F), (0x205F, 0x206F), (0x20D0, 0x20F0), (0x3000, 0x3000),
   (0xE000, 0xF8FF), (0xFE00, 0xFE0F), (0xFE20, 0xFE2F), (0xFEFF, 0xFEFF), (0xFFF0, 0xFFFB),
   (0xFFFE, 0xFFFF), (0xE0000, 0x10FFFF)]

def isInvisible (c : Char) : Bool :=
  invisibleRanges.any fun (first, last) => first ≤ c.toNat && c.toNat ≤ last

def escape (c : Char) : String :=
  if c == '"' then "\\\""
  else if c == '\\' then "\\\\"
  else if c == '\n' then "\\n"
  else if c == '\r' then "\\r"
  else if c == '\t' then "\\t"
  else if c == '\x00' then "\\0"
  else if isInvisible c then
    "\\u\x7b" ++ String.ofList (Nat.toDigits 16 c.toNat) ++ "\x7d"
  else c.toString

def quoted (s : String) : String :=
  "\"" ++ String.join (s.toList.map escape) ++ "\""

def numberLayout : Decimal.Layout where
  plain := some (-4, 16)
  keepsPoint := true
  plusSign := false
  tie := .up

def number : Number → String
  | .nan => "NaN"
  | .infinite s => if s then "-inf" else "inf"
  | .finite s t _ => String.ofList (numberLayout.finite s t)

def problem (p : Problem) : String :=
  "ErrorInfo \x7b code: " ++ quoted p.code ++ ", message: " ++ quoted p.message ++ " \x7d"

def failure (e : Failure) : String :=
  "TaskError \x7b kind: " ++ e.origin.name ++ ", info: " ++ problem e.problem ++ " \x7d"

def commaSeparated (parts : List String) : String := ", ".intercalate parts

mutual

def datum : Datum → String
  | .null => "Null"
  | .bool b => "Bool(" ++ toString b ++ ")"
  | .number x => "Num(" ++ number x ++ ")"
  | .text s => "Str(" ++ quoted s ++ ")"
  | .list items => "List([" ++ commaSeparated (data items) ++ "])"
  | .record members => "Obj(\x7b" ++ commaSeparated (fields members) ++ "\x7d)"
  | .error p => "Error(" ++ problem p ++ ")"

def data : List Datum → List String
  | [] => []
  | d :: ds => datum d :: data ds

def fields : List (String × Datum) → List String
  | [] => []
  | (k, d) :: ms => (quoted k ++ ": " ++ datum d) :: fields ms

end

end Interlace.Diagnostic
