import Interlace.Environment.Basic
import Interlace.Number.Reading

/-!
# Files of assignments

A file `.env` sets variables, one assignment to a line, unless quotes carry a line on. Values may
name variables that were set before. A line that cannot be read ends the file; what stands above it
counts.
-/

namespace Interlace.Environment

open Text

/-! ## Lines -/

/-- The characters that count as white space in Unicode. -/
def isBlank (c : Char) : Bool :=
  let n := c.toNat
  (9 ≤ n && n ≤ 13) || n == 0x20 || n == 0x85 || n == 0xa0 || n == 0x1680 ||
    (0x2000 ≤ n && n ≤ 0x200a) || n == 0x2028 || n == 0x2029 || n == 0x202f || n == 0x205f ||
    n == 0x3000

def trimStart (cs : List Char) : List Char := cs.dropWhile isBlank

def trimEnd (cs : List Char) : List Char := (cs.reverse.dropWhile isBlank).reverse

inductive Pending where
  | nothing
  | blank
  | escape
  | weak
  | weakEscape
  | strong
  | strongEscape
  | comment
deriving DecidableEq

/-- What is open behind a character. A line end counts as text unless something is open. -/
def Pending.next (c : Char) : Pending → Pending
  | .nothing =>
    if isBlank c && c != '\n' && c != '\r' then .blank else opened c
  | .blank => if c = '#' then .comment else opened c
  | .escape => .nothing
  | .weak => if c = '\\' then .weakEscape else if c = '"' then .nothing else .weak
  | .weakEscape => .weak
  | .strong => if c = '\\' then .strongEscape else if c = '\'' then .nothing else .strong
  | .strongEscape => .strong
  | .comment => .comment
where
  opened (c : Char) : Pending :=
    if c = '\\' then .escape
    else if c = '"' then .weak
    else if c = '\'' then .strong
    else .nothing

def scan (p : Pending) : List Char → Pending × List Char
  | [] => (p, [])
  | c :: rest =>
    let p := p.next c
    if p = .comment then (p, [])
    else
      let (last, kept) := scan p rest
      (last, c :: kept)

def rawLines (current : List Char) : List Char → List (List Char)
  | [] => if current.isEmpty then [] else [current.reverse]
  | '\n' :: rest => ('\n' :: current).reverse :: rawLines [] rest
  | c :: rest => rawLines (c :: current) rest

def dropLineEnd (cs : List Char) : List Char :=
  match cs.reverse with
  | '\n' :: '\r' :: rest => rest.reverse
  | '\n' :: rest => rest.reverse
  | _ => cs

def wholeLines (p : Pending) (buffer : List Char) : List (List Char) → List (Option (List Char))
  | [] => if p = .nothing then [] else [none]
  | raw :: rest =>
    let whole := buffer ++ raw
    if (trimStart whole).head? = some '#' then some [] :: wholeLines .nothing [] rest
    else
      match scan p raw with
      | (.nothing, _) => some (dropLineEnd whole) :: wholeLines .nothing [] rest
      | (.comment, kept) => some (buffer ++ kept) :: wholeLines .nothing [] rest
      | (p, _) => wholeLines p whole rest

/-! ## Values -/

/-- Where in a value a character stands. The flag of a case says whether double quotes are open. -/
inductive Spot where
  | plain (quoted : Bool)
  | literal
  | escape (quoted : Bool)
  | name (quoted : Bool)
  | braced (quoted : Bool)
  | tail
deriving DecidableEq

def Spot.canEnd : Spot → Bool
  | literal | braced _ => false
  | plain quoted | escape quoted | name quoted => !quoted
  | tail => true

structure Draft where
  spot : Spot
  name : List Char
  output : List Char

namespace Draft

def push (d : Draft) (c : Char) : Draft := { d with output := d.output ++ [c] }

def goto (d : Draft) (spot : Spot) : Draft := { d with spot }

def expand (lookup : String → String) (d : Draft) : Draft :=
  { d with name := [], output := d.output ++ (lookup (String.ofList d.name)).toList }

def step? (lookup : String → String) (d : Draft) (c : Char) : Option Draft :=
  match d.spot with
  | .tail => if c = ' ' ∨ c = '\t' then some d else none
  | .escape quoted =>
    if c ∈ ['\\', '\'', '"', '$', ' '] then some ((d.push c).goto (.plain quoted))
    else if c = 'n' then some ((d.push '\n').goto (.plain quoted))
    else none
  | .literal => some (if c = '\'' then d.goto (.plain false) else d.push c)
  | .name quoted =>
    if c.isAlphanum then some { d with name := d.name ++ [c] }
    else if c = '{' ∧ d.name = [] then some (d.goto (.braced quoted))
    else
      let d := d.expand lookup
      some (if c = '$' then d else (d.push c).goto (.plain quoted))
  | .braced quoted =>
    if c = '}' then some ((d.expand lookup).goto (.plain quoted))
    else some { d with name := d.name ++ [c] }
  | .plain quoted =>
    some (if c = '$' then d.goto (.name quoted)
      else if c = '\\' then d.goto (.escape quoted)
      else if c = '"' then d.goto (.plain !quoted)
      else if quoted then d.push c
      else if c = '\'' then d.goto .literal
      else if c = ' ' ∨ c = '\t' then d.goto .tail
      else d.push c)

def read? (lookup : String → String) (d : Draft) : List Char → Option (List Char)
  | [] => if d.spot.canEnd then some (d.expand lookup).output else none
  | c :: rest =>
    if d.spot = .tail ∧ c = '#' then some d.output
    else
      match d.step? lookup c with
      | some d => d.read? lookup rest
      | none => none

end Draft

def value? (lookup : String → String) (cs : List Char) : Option String :=
  ((⟨.plain false, [], []⟩ : Draft).read? lookup cs).map String.ofList

/-! ## Assignments -/

def name? : List Char → Option (String × List Char)
  | [] => none
  | c :: rest =>
    let isNameChar (c : Char) : Bool := c.isAlphanum || c == '_' || c == '.'
    if c.isAlpha || c == '_' then
      some (String.ofList (c :: rest.takeWhile isNameChar), rest.dropWhile isNameChar)
    else none

def target? (cs : List Char) : Option (String × List Char) := do
  let (name, rest) ← name? cs
  match trimStart rest with
  | '=' :: rest => return (name, trimStart rest)
  | _ => none

def assignment? (cs : List Char) : Option (String × List Char) :=
  match target? cs with
  | some found => some found
  | none =>
    match name? cs with
    | some ("export", rest) => target? (trimStart rest)
    | _ => none

/-- What assignments have set so far, in a file and in the environment. -/
structure Loading where
  environment : Environment
  stored : List (String × String)

namespace Loading

/-- The value that a name stands for. The environment counts first. -/
def lookup (l : Loading) (name : String) : String :=
  match if name.isEmpty then none else l.environment.get? name with
  | some value => value
  | none => (l.stored.lookup name).getD ""

def assign (l : Loading) (name value : String) : Loading :=
  ⟨l.environment.offer name value, (name, value) :: l.stored⟩

def line? (l : Loading) (cs : List Char) : Option Loading :=
  let cs := trimStart (trimEnd cs)
  if cs.isEmpty || cs.head? = some '#' then some l
  else do
    let (name, text) ← assignment? cs
    if text.isEmpty || text.head? = some '#' then return l.assign name ""
    else return l.assign name (← value? l.lookup text)

def lines (l : Loading) : List (Option (List Char)) → Loading
  | some cs :: rest =>
    match l.line? cs with
    | some l => l.lines rest
    | none => l
  | _ => l

end Loading

def withoutMark (text : String) : List Char :=
  match text.toList with
  | '\ufeff' :: cs => cs
  | cs => cs

/-- An environment with the assignments of its file `.env`. What was set before stays. -/
def withAssignments (e : Environment) : Environment :=
  match e.at? [".env"] with
  | none => e
  | some text =>
    ((⟨e, []⟩ : Loading).lines
      (wholeLines .nothing [] (rawLines [] (withoutMark text)))).environment

end Interlace.Environment
