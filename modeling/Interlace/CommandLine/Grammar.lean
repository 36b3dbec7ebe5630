/-!
# Command lines

A command line names a command, a command below it and so on, and gives each of them options and
arguments. An option is written with two dashes; its value stands behind a sign or comes next. A
value that comes next is taken up, and found good or bad, only when something else needs it to be:
the next option, an argument, or the end. So which of two faults counts is settled here too.
-/

namespace Interlace.CommandLine

inductive Refusal where
  | helpAsked
  | helpNeeded
  | missingSubcommand
  | missingArgument
  | unknownArgument
  | unknownSubcommand
  | noValue
  | badValue
  | repeated
  | surplusValue
deriving DecidableEq

structure Choice where
  name : String
  isList : Bool
  isValid : String → Bool

/-- A command with what it takes. All of its arguments must be given. -/
inductive Command where
  | mk (name : String) (choices : List Choice) (arguments : List String)
    (subcommands : List Command)

namespace Command

def name : Command → String
  | mk name _ _ _ => name

def choices : Command → List Choice
  | mk _ choices _ _ => choices

def arguments : Command → List String
  | mk _ _ arguments _ => arguments

def subcommands : Command → List Command
  | mk _ _ _ subcommands => subcommands

def choice? (c : Command) (name : String) : Option Choice :=
  c.choices.find? fun o => o.name == name

def subcommand? (c : Command) (name : String) : Option Command :=
  c.subcommands.find? fun s => s.name == name

/-- Whether a word stands for help here. Only commands with others below them have it. -/
def isHelp (c : Command) (word : String) : Bool :=
  !c.subcommands.isEmpty && word == "help"

def help (c : Command) : List String → Refusal
  | [] => .helpAsked
  | word :: rest =>
    match c.subcommand? word with
    | some sub => sub.help rest
    | none => if c.isHelp word && rest.isEmpty then .helpAsked else .unknownSubcommand

end Command

structure Level where
  command : String
  values : List (String × List String)

def Level.get? (l : Level) (name : String) : Option (List String) := l.values.lookup name

structure Progress where
  values : List (String × List String)
  pending : Option (Choice × Option String)
  onlyArguments : Bool
  arguments : Nat

namespace Progress

def new : Progress := ⟨[], none, false, 0⟩

def isOpen (p : Progress) : Bool := p.pending matches some (_, none)

def add (p : Progress) (name : String) (values : List String) : Progress :=
  { p with values := (name, (p.values.lookup name).getD [] ++ values) ::
      p.values.filter (·.1 != name) }

def take (p : Progress) (o : Choice) (value : String) : Except Refusal Progress :=
  let values := if o.isList then value.splitOn "," else [value]
  if !o.isList && (p.values.lookup o.name).isSome then .error .repeated
  else if values.all o.isValid then .ok (p.add o.name values)
  else .error .badValue

def settle (p : Progress) : Except Refusal Progress :=
  match p.pending with
  | none => .ok p
  | some (_, none) => .error .noValue
  | some (o, some value) => { p with pending := none }.take o value

/-- Ends the part of a command; `followed` says whether the part of a subcommand comes behind. -/
def finish (p : Progress) (c : Command) (followed : Bool) : Except Refusal Level := do
  let p ← p.settle
  if !followed && !c.subcommands.isEmpty then
    throw (if p.values.isEmpty then .helpNeeded else .missingSubcommand)
  else if p.arguments < c.arguments.length then throw .missingArgument
  else return ⟨c.name, p.values⟩

def option (p : Progress) (c : Command) (name : String) (attached : Option String) :
    Except Refusal Progress :=
  if name = "help" then do
    if attached.isSome then throw .surplusValue
    else
      let _ ← p.settle
      throw .helpAsked
  else
    match c.choice? name with
    | none => .error .unknownArgument
    | some o => do
      let p ← p.settle
      match attached with
      | some value => p.take o value
      | none => return { p with pending := some (o, none) }

def letters (p : Progress) (letter : Char) : Except Refusal Progress :=
  if letter = 'h' then do
    let _ ← p.settle
    throw .helpAsked
  else .error .unknownArgument

def argument (p : Progress) (c : Command) (word : String) : Except Refusal Progress :=
  match c.arguments[p.arguments]? with
  | some name => do
    let p ← p.settle
    return { p.add name [word] with arguments := p.arguments + 1 }
  | none =>
    let isCommand := (c.subcommand? word).isSome || c.isHelp word
    if p.onlyArguments && isCommand then .error .unknownArgument
    else if !c.subcommands.isEmpty && c.arguments.isEmpty then .error .unknownSubcommand
    else .error .unknownArgument

def word (p : Progress) (c : Command) (w : String) : Except Refusal Progress :=
  if p.onlyArguments then p.argument c w
  else
    match w.toList with
    | ['-', '-'] => .ok { p with onlyArguments := true }
    | '-' :: '-' :: cs =>
      let attached := match cs.dropWhile (· != '=') with
        | '=' :: value => some (String.ofList value)
        | _ => none
      p.option c (String.ofList (cs.takeWhile (· != '='))) attached
    | '-' :: letter :: _ => p.letters letter
    | _ =>
      match p.pending with
      | some (o, none) => .ok { p with pending := some (o, some w) }
      | _ => p.argument c w

end Progress

def Command.read (c : Command) (p : Progress) : List String → Except Refusal (List Level)
  | [] => do return [← p.finish c false]
  | w :: rest =>
    if !p.onlyArguments && !p.isOpen && c.isHelp w then .error (c.help rest)
    else
      match if p.onlyArguments || p.isOpen then none else c.subcommand? w with
      | some sub => do
        let levels ← sub.read .new rest
        return (← p.finish c true) :: levels
      | none => do (c.read (← p.word c w) rest)

end Interlace.CommandLine
