import Interlace.Showcase

/-!
# A small language for coroutines

A program is a sequence of statements. It computes with data, yields requests, and may catch what
is thrown into it. Expressions are evaluated when the request they belong to is built, not when
its work is invoked.
-/

namespace Interlace.Script

inductive Expr where
  | var (name : String)
  | number (x : Number)
  | text (s : String)
  | bool (b : Bool)
  | null
  | list (items : List Expr)
  | record (members : List (String × Expr))
  | error (code message : Expr)
  | repeated (s : String) (times : Nat)
  | add (a b : Expr)
  | sub (a b : Expr)
  | mul (a b : Expr)
  | less (a b : Expr)
  | same (a b : Expr)
  | isNull (a : Expr)
  | isError (a : Expr)
  | item (a index : Expr)
  | length (a : Expr)
  | push (a last : Expr)
  | join (items : List Expr)
  | plain (a : Expr)
  | codeOf (a : Expr)
  | messageOf (a : Expr)
  | pair (a value : Expr)
deriving Inhabited

inductive Cry where
  | operation (message : Expr)
  | raised (message : Expr)
  | raisedAs (code message : Expr)
  | returned (code message : Expr)
  | ofProblem (code message : Expr)
  | ofItem (index : Nat) (cause : Cry)
  | made (origin : Origin) (code message : Expr)
  | caught (name : String)
deriving Inhabited

inductive Ending where
  | ok (value : Expr)
  | failed (cry : Cry)
deriving Inhabited

mutual

inductive Deed where
  | value (a : Expr)
  | failure (cry : Cry)
  | sleep (ms : Expr)
  | delayedFailure (ms : Expr) (cry : Cry)
  | defer (key : Expr)
  | drop
  /-- Completes what was deferred under a key, before or after itself. -/
  | fire (key : Expr) (other : Ending) (first : Bool) (own : Ending)
  | thread (a : Expr)
  | join (parts : List Part)
  | task (part : Part)
  | contents (path : Expr)

inductive Part where
  | deed (d : Deed)
  | coroutine (m : Maker)

inductive Maker where
  | program (name : String) (captured : List Expr)
  /-- Is one instance, made when the recipe is built. -/
  | instanceOf (name : String) (captured : List Expr)
  /-- Builds work when it is used, waits for it and returns its outcome. -/
  | ofDeed (d : Deed)
  | returning (a : Expr)
  | failing (cry : Cry)
  | fanOutSleeps (latencies : List Nat) (immediate : List Expr)
  | fanOutNested (times : List Nat) (gauge : String)
  | lookupCaptured
  | lookupDelegated

end

instance : Inhabited Deed := ⟨.drop⟩
instance : Inhabited Part := ⟨.deed .drop⟩
instance : Inhabited Maker := ⟨.lookupCaptured⟩

inductive Ask where
  | single (d : Deed)
  | fan (parts : List Part)
  | both (p : Part)
  | delegate (m : Maker)
deriving Inhabited

inductive Statement where
  /-- Waits for a request. Its value goes to a variable; so does what is thrown in, if there is a
  statement to go on at in that case. -/
  | yield (ask : Ask) (target : String) (handler : Option Nat)
  | set (target : String) (a : Expr)
  | log (a : Expr)
  | goto (pc : Nat)
  | branch (condition : Expr) (pc : Nat)
  | enter (gauge : String)
  | leave (gauge : String)
  | give (a : Expr)
  | raise (cry : Cry)
  | finish (ending : Ending)
deriving Inhabited

abbrev Program := Array Statement

abbrev Library := List (String × Program)

end Interlace.Script
