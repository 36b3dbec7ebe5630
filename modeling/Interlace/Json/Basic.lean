import Interlace.Number.Decimal

/-!
# JSON documents and their text

A document keeps integers apart from other numbers, as its text does. `Json.compact` and
`Json.pretty` put the text of a document in front of a given rest, so that writing is linear and
the text of a part is found inside the text of the whole.
-/

namespace Interlace

inductive Json where
  | null
  | bool (b : Bool)
  | integer (n : Int)
  | real (x : Number)
  | string (s : String)
  | array (items : List Json)
  | object (members : List (String × Json))
deriving Inhabited

namespace Json

/-- Numbers have the fewest digits that read back. They are written without an exponent from
`0.00001` up to below `10 ^ 16`, always with a fraction. -/
def numberLayout : Decimal.Layout where
  plain := some (-5, 16)
  keepsPoint := true
  plusSign := true
  tie := .even

def hexDigit (n : Nat) : Char :=
  if n < 10 then Char.ofNat (48 + n) else Char.ofNat (87 + n)

/-- The letter that stands after a backslash for a character with a short escape. -/
def shortEscape? : Char → Option Char
  | '"' => some '"'
  | '\\' => some '\\'
  | '\x08' => some 'b'
  | '\x0c' => some 'f'
  | '\n' => some 'n'
  | '\r' => some 'r'
  | '\t' => some 't'
  | _ => none

/-- The text of one character inside a string. Only the quote, the backslash and the characters
below the blank are escaped. -/
def escape (c : Char) : List Char :=
  match shortEscape? c with
  | some l => ['\\', l]
  | none =>
    if c.toNat < 0x20 then
      ['\\', 'u', '0', '0', hexDigit (c.toNat / 16), hexDigit (c.toNat % 16)]
    else [c]

def quoted (s : String) (rest : List Char) : List Char :=
  '"' :: s.toList.foldr (fun c tail => escape c ++ tail) ('"' :: rest)

def integerChars (n : Int) : List Char :=
  if n < 0 then '-' :: Decimal.digitChars n.natAbs else Decimal.digitChars n.natAbs

/-- What is not finite has no text of its own and is written as `null`. -/
def realChars : Number → List Char
  | .finite s t _ => numberLayout.finite s t
  | _ => ['n', 'u', 'l', 'l']

mutual

/-- The text without blanks, before `rest`. -/
def compact : Json → List Char → List Char
  | null, rest => "null".toList ++ rest
  | bool true, rest => "true".toList ++ rest
  | bool false, rest => "false".toList ++ rest
  | integer n, rest => integerChars n ++ rest
  | real x, rest => realChars x ++ rest
  | string s, rest => quoted s rest
  | array [], rest => '[' :: ']' :: rest
  | array (j :: js), rest => '[' :: compact j (compactItems js (']' :: rest))
  | object [], rest => '{' :: '}' :: rest
  | object ((k, j) :: ms), rest =>
    '{' :: quoted k (':' :: compact j (compactMembers ms ('}' :: rest)))

def compactItems : List Json → List Char → List Char
  | [], rest => rest
  | j :: js, rest => ',' :: compact j (compactItems js rest)

def compactMembers : List (String × Json) → List Char → List Char
  | [], rest => rest
  | (k, j) :: ms, rest => ',' :: quoted k (':' :: compact j (compactMembers ms rest))

end

def newLine (level : Nat) (rest : List Char) : List Char :=
  '\n' :: (List.replicate (2 * level) ' ' ++ rest)

mutual

def pretty : Nat → Json → List Char → List Char
  | _, array [], rest => '[' :: ']' :: rest
  | level, array (j :: js), rest =>
    '[' :: newLine (level + 1)
      (pretty (level + 1) j (prettyItems (level + 1) js (newLine level (']' :: rest))))
  | _, object [], rest => '{' :: '}' :: rest
  | level, object ((k, j) :: ms), rest =>
    '{' :: newLine (level + 1) (quoted k (':' :: ' ' ::
      pretty (level + 1) j (prettyMembers (level + 1) ms (newLine level ('}' :: rest)))))
  | _, null, rest => compact null rest
  | _, bool b, rest => compact (bool b) rest
  | _, integer n, rest => compact (integer n) rest
  | _, real x, rest => compact (real x) rest
  | _, string s, rest => compact (string s) rest

def prettyItems : Nat → List Json → List Char → List Char
  | _, [], rest => rest
  | level, j :: js, rest =>
    ',' :: newLine level (pretty level j (prettyItems level js rest))

def prettyMembers : Nat → List (String × Json) → List Char → List Char
  | _, [], rest => rest
  | level, (k, j) :: ms, rest =>
    ',' :: newLine level
      (quoted k (':' :: ' ' :: pretty level j (prettyMembers level ms rest)))

end

def compactText (j : Json) : String := String.ofList (j.compact [])

def prettyText (j : Json) : String := String.ofList (j.pretty 0 [])

end Json

end Interlace
