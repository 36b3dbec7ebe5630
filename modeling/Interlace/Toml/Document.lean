import Interlace.Toml.Quoted
import Interlace.Toml.Scalar

/-!
# TOML documents

A document is a sequence of statements, one to a line: headers and entries. `Document.statements?`
takes the text apart, and `Document.members?` puts the tables together. What breaks a rule anywhere
makes the whole document unreadable.
-/

namespace Interlace.Toml

open Quoted (isBlank)

/-! ## Blanks, comments and keys -/

/-- Keys may have fewer parts than this, and values fewer levels. -/
def depthLimit : Nat := 80

def skipBlanks (cs : List Char) : List Char := cs.dropWhile isBlank

def isCommentChar (c : Char) : Bool := !Quoted.isControl c || c == '\t'

/-- Skips blanks, line ends and comments; `comment` says that a comment has begun. -/
def skipLines (comment : Bool) : List Char → List Char
  | [] => []
  | '\r' :: '\n' :: rest => skipLines false rest
  | c :: rest =>
    if c = '\n' then skipLines false rest
    else if comment then
      if isCommentChar c then skipLines true rest else c :: rest
    else if isBlank c then skipLines false rest
    else if c = '#' then skipLines true rest
    else c :: rest

/-- What follows the end of a line, before which blanks and a comment may stand. -/
def lineEnd? (cs : List Char) : Option (List Char) :=
  let rest := match skipBlanks cs with
    | '#' :: rest => rest.dropWhile isCommentChar
    | rest => rest
  match rest with
  | [] => some []
  | '\n' :: rest => some rest
  | '\r' :: '\n' :: rest => some rest
  | _ => none

def isKeyChar (c : Char) : Bool := c.isAlphanum || c == '_' || c == '-'

def keyPart? (cs : List Char) : Option (String × List Char) :=
  match Quoted.readShort? cs with
  | some (s, rest) => some (String.ofList s, rest)
  | none =>
    let bare := cs.takeWhile isKeyChar
    if bare.isEmpty then none else some (String.ofList bare, cs.dropWhile isKeyChar)

/-- A key of at most `parts` parts, with dots between them and blanks around them. -/
def key? : Nat → List Char → Option (List String × List Char)
  | 0, _ => none
  | parts + 1, cs => do
    let (part, rest) ← keyPart? (skipBlanks cs)
    match skipBlanks rest with
    | '.' :: rest =>
      let (more, rest) ← key? parts rest
      return (part :: more, rest)
    | rest => return ([part], rest)

def assigned? (cs : List Char) : Option (List String × List Char) := do
  let (key, rest) ← key? (depthLimit - 1) cs
  match rest with
  | '=' :: rest => return (key, skipBlanks rest)
  | _ => none

/-! ## Values -/

def items? (value? : List Char → Option (Value × List Char)) :
    Nat → List Char → Option (List Value × List Char)
  | 0, _ => none
  | fuel + 1, cs =>
    match skipLines false cs with
    | ']' :: rest => some ([], rest)
    | cs => do
      let (v, rest) ← value? cs
      match skipLines false rest with
      | ',' :: rest =>
        let (vs, rest) ← items? value? fuel rest
        return (v :: vs, rest)
      | ']' :: rest => return ([v], rest)
      | _ => none

/-- The entries of a table in braces, up to and with its closing brace. There are at most `fuel`
of them, and at least one. -/
def entries? (value? : List Char → Option (Value × List Char)) :
    Nat → List Char → Option (List (List String × Value) × List Char)
  | 0, _ => none
  | fuel + 1, cs => do
    let (key, rest) ← assigned? cs
    let (v, rest) ← value? rest
    match skipBlanks rest with
    | ',' :: rest =>
      let (es, rest) ← entries? value? fuel rest
      return ((key, v) :: es, rest)
    | '}' :: rest => return ([(key, v)], rest)
    | _ => none

def simple? (cs : List Char) : Option (Value × List Char) :=
  match Quoted.read? cs with
  | some (s, rest) => some (.string (String.ofList s), rest)
  | none => Scalar.read? cs

/-- A value of at most `levels` levels of arrays and tables. -/
def value? : Nat → List Char → Option (Value × List Char)
  | levels + 1, '[' :: cs => do
    let (vs, rest) ← items? (value? levels) cs.length.succ cs
    return (.array vs, rest)
  | levels + 1, '{' :: cs =>
    match skipBlanks cs with
    | '}' :: rest => some (.table .inline [], rest)
    | _ => do
      let (es, rest) ← entries? (value? levels) cs.length cs
      return (.table .inline (← Members.ofEntries? [] es), rest)
  | _, cs => simple? cs

/-! ## Statements -/

inductive Statement where
  | table (path : List String)
  | element (path : List String)
  | entry (path : List String) (v : Value)

def statement? : List Char → Option (Statement × List Char)
  | '[' :: '[' :: cs => do
    let (path, rest) ← key? (depthLimit - 1) cs
    match rest with
    | ']' :: ']' :: rest => return (.element path, rest)
    | _ => none
  | '[' :: cs => do
    let (path, rest) ← key? (depthLimit - 1) cs
    match rest with
    | ']' :: rest => return (.table path, rest)
    | _ => none
  | cs => do
    let (path, rest) ← assigned? cs
    let (v, rest) ← value? (depthLimit - 1) rest
    return (.entry path v, rest)

/-- The statements of a document. There are fewer than `fuel` of them. -/
def statements? : Nat → List Char → Option (List Statement)
  | 0, _ => none
  | fuel + 1, cs =>
    match skipLines false cs with
    | [] => some []
    | cs => do
      let (s, rest) ← statement? cs
      return s :: (← statements? fuel (← lineEnd? rest))

/-! ## Tables -/

inductive Target where
  | root
  | table (path : List String)
  | element (path : List String)

structure Section where
  target : Target
  entries : List (List String × Value)

def sections (s : Section) : List Statement → List Section
  | [] => [s]
  | .table path :: rest => s :: sections ⟨.table path, []⟩ rest
  | .element path :: rest => s :: sections ⟨.element path, []⟩ rest
  | .entry path v :: rest => sections { s with entries := s.entries ++ [(path, v)] } rest

def Section.write? (s : Section) (root : Members) : Option Members :=
  let fill (start : Members) : Option Members := Members.ofEntries? start s.entries
  match s.target with
  | .root => fill root
  | .table path => do root.under? (Members.open? fill (← path.getLast?)) path.dropLast
  | .element path => do root.under? (Members.extend? fill (← path.getLast?)) path.dropLast

def dropMark : List Char → List Char
  | '\ufeff' :: cs => cs
  | cs => cs

def document? (text : String) : Option Members := do
  let cs := dropMark text.toList
  let ss ← statements? cs.length.succ cs
  (sections ⟨.root, []⟩ ss).foldlM (fun root s => s.write? root) []

end Interlace.Toml
