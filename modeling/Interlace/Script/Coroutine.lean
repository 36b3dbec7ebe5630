import Interlace.Script.Evaluation

/-!
# Programs as coroutines

`Script.behaviour` turns a library of programs into a kind of coroutine. Building a request may
instantiate programs, which are numbered in the order of their making, and may raise; a raise
while building counts as thrown into the program at that statement.
-/

namespace Interlace.Script

/-- The request an instance waits for: where its value goes, and where to go on after a failure. -/
structure Pending where
  target : String
  handler : Option Nat

structure Instance where
  name : String
  index : Nat
  pc : Nat
  vars : Variables
  pending : Option Pending

inductive Recipe where
  | program (name : String) (captured : List Datum)
  | ready (i : Instance)
  | ofDeed (d : Deed)
  | returning (d : Datum)
  | failing (e : Failure)
  | demo (d : Demo)

inductive Note where
  | made (name : String) (index : Nat) (args : List Datum)
  | stepped (name : String) (index : Nat) (input : Input)
  | yielded (index : Nat) (kind summary : String)
  | logged (index : Nat) (d : Datum)
  | invoked (kind : String) (ms : Option Nat) (key : Option String)

inductive Body where
  | instance (i : Instance)
  | once (work : Option (Work Recipe Note))
  | giving (d : Option Datum)
  | raising (e : Option Failure)
  | demo (body : Demo.Body)

structure World where
  made : Nat
  gauges : Gauges

def World.new : World := ⟨0, .empty⟩

def Instance.new (name : String) (index : Nat) (args captured : List Datum) : Instance :=
  ⟨name, index, 0, [("args", .list args), ("cap", .list captured)], none⟩

/-! ## Building -/

abbrev Build := ExceptT Failure (StateM World)

def announced (kind : String) (work : Work Recipe Note) : Work Recipe Note :=
  .noted (.invoked kind none none) work

def buildInstance (name : String) (captured : List Datum) : Build Recipe := do
  let w ← getThe World
  set { w with made := w.made + 1 }
  return .ready (.new name w.made [] captured)

mutual

def Deed.build (limit : Nat) (vars : Variables) : Deed → Build (Work Recipe Note)
  | .value a => return announced "from" (.done (.ok (a.eval vars)))
  | .failure cry => return announced "error" (.done (.error (cry.eval vars)))
  | .sleep a =>
    let ms := wordOf (a.eval vars)
    return .noted (.invoked "sleep" (some ms) none) (.sleep ms)
  | .delayedFailure a cry =>
    let ms := wordOf (a.eval vars)
    return .noted (.invoked "delayed_error" (some ms) none)
      (.primitive ⟨[], .delay ms (.error (cry.eval vars)), []⟩)
  | .defer a =>
    let key := a.evalText vars
    return .noted (.invoked "defer" none (some key)) (.primitive ⟨[], .keep key, []⟩)
  | .drop => return announced "drop" (.primitive ⟨[], .drop, []⟩)
  | .fire a other first own =>
    let key := a.evalText vars
    let poke : Poke := ⟨key, other.eval vars⟩
    let fate := Fate.complete (own.eval vars)
    return .noted (.invoked "fire" none (some key))
      (.primitive (if first then ⟨[poke], fate, []⟩ else ⟨[], fate, [poke]⟩))
  | .thread a => return announced "thread" (.done (.ok (a.eval vars)))
  | .join parts => do
    let items ← buildParts limit vars parts
    return announced "join" (.gather (items.map (Item.toWork limit)))
  | .task part => do
    let item ← part.build limit vars
    return announced "task" (item.toWork limit)
  | .contents a =>
    match Demo.contents (a.evalText vars) with
    | .ok work => return announced "read_file" work
    | .error e => throw e

def Part.build (limit : Nat) (vars : Variables) : Part → Build (Item Recipe Note)
  | .deed d => .work <$> d.build limit vars
  | .coroutine m => .coroutine <$> m.build vars

def buildParts (limit : Nat) (vars : Variables) : List Part → Build (List (Item Recipe Note))
  | [] => return []
  | p :: ps => do
    let item ← p.build limit vars
    let items ← buildParts limit vars ps
    return item :: items

def Maker.build (vars : Variables) : Maker → Build Recipe
  | .program name captured => return .program name (Expr.evalAll vars captured)
  | .instanceOf name captured => buildInstance name (Expr.evalAll vars captured)
  | .ofDeed d => return .ofDeed d
  | .returning a => return .returning (a.eval vars)
  | .failing cry => return .failing (cry.eval vars)
  | .fanOutSleeps latencies immediate =>
    return .demo (.fanOutSleeps latencies (Expr.evalAll vars immediate))
  | .fanOutNested times gauge => return .demo (.fanOutNested times gauge)
  | .lookupCaptured => return .demo .lookupCaptured
  | .lookupDelegated => return .demo .lookupDelegated

end

def Ask.build (limit : Nat) (vars : Variables) : Ask → Build (Request Recipe Note)
  | .single d => .single <$> d.build limit vars
  | .fan parts => .all <$> buildParts limit vars parts
  | .both p => .caught <$> p.build limit vars
  | .delegate m => .inner <$> m.build vars

/-! ## Running -/

def Program.ofName (library : Library) (name : String) : Program :=
  (library.lookup name).getD #[]

/-- How many statements a program may execute between two requests. -/
def statementLimit : Nat := 10 ^ 12

/-- An instance in the middle of a step, with the notes left so far, the latest first. -/
structure Going where
  self : Instance
  notes : List Note
  world : World

namespace Going

def goto (g : Going) (pc : Nat) : Going := { g with self := { g.self with pc } }

def next (g : Going) : Going := g.goto (g.self.pc + 1)

def set (g : Going) (name : String) (d : Datum) : Going :=
  { g with self := { g.self with vars := g.self.vars.set name d } }

def note (g : Going) (n : Note) : Going := { g with notes := n :: g.notes }

/-- Goes on after a failure was thrown in, if there is a statement to go on at. -/
def catchInto (g : Going) (p : Pending) (e : Failure) : Except Failure Going :=
  match p.handler with
  | some pc => .ok ((g.set p.target (caughtValue e)).goto pc)
  | none => .error e

inductive Advance where
  | go (g : Going)
  | stop (answer : Answer Recipe Note) (g : Going)

def execute (limit : Nat) (g : Going) : Statement → Advance
  | .yield ask target handler =>
    let pending : Pending := ⟨target, handler⟩
    let (built, world) := (ask.build limit g.self.vars).run g.world
    let g := { g with world }
    match built with
    | .ok request =>
      let g := g.note (.yielded g.self.index request.kind request.summary)
      let g := g.next
      .stop (.wait request) { g with self := { g.self with pending := some pending } }
    | .error e =>
      match g.catchInto pending e with
      | .ok g => .go g
      | .error e => .stop (.raise e) g
  | .set target a => .go (g.set target (a.eval g.self.vars)).next
  | .log a => .go (g.note (.logged g.self.index (a.eval g.self.vars))).next
  | .goto pc => .go (g.goto pc)
  | .branch a pc =>
    .go (match a.eval g.self.vars with
      | .bool true => g.goto pc
      | _ => g.next)
  | .enter name => .go { g with world.gauges := g.world.gauges.enter name }.next
  | .leave name => .go { g with world.gauges := g.world.gauges.leave name }.next
  | .give a => .stop (.give (a.eval g.self.vars)) g
  | .raise cry => .stop (.raise (cry.eval g.self.vars)) g
  | .finish ending => .stop (.ofOutcome (ending.eval g.self.vars)) g

/-- Executes statements up to an answer. Beyond the last statement the answer is `null`. -/
def run (limit : Nat) (program : Program) : Nat → Going → Answer Recipe Note × Going
  | 0, g => (.give .null, g)
  | fuel + 1, g =>
    match program[g.self.pc]? with
    | none => (.give .null, g)
    | some statement =>
      match g.execute limit statement with
      | .go g => run limit program fuel g
      | .stop answer g => (answer, g)

def takeUp (g : Going) (input : Input) : Except Failure Going :=
  match g.self.pending with
  | none => .ok g
  | some pending =>
    let g := { g with self := { g.self with pending := none } }
    match input with
    | .start => .ok g
    | .value d => .ok (g.set pending.target d)
    | .failure e => g.catchInto pending e

end Going

def Instance.step (library : Library) (limit : Nat) (i : Instance) (input : Input) (w : World) :
    Answer Recipe Note × Going :=
  let g : Going := ⟨i, [.stepped i.name i.index input], w⟩
  match g.takeUp input with
  | .error e => (.raise e, g)
  | .ok g => g.run limit (.ofName library i.name) statementLimit

def make (limit : Nat) (recipe : Recipe) (args : List Datum) (w : World) :
    Body × List Note × World :=
  match recipe with
  | .program name captured =>
    (.instance (.new name w.made args captured), [.made name w.made args],
      { w with made := w.made + 1 })
  | .ready i => (.instance i, [], w)
  | .ofDeed d =>
    let (built, w) := (d.build limit [("args", .list args), ("cap", .list [])]).run w
    match built with
    | .ok work => (.once (some work), [], w)
    | .error e => (.once (some (.done (.error e))), [], w)
  | .returning d => (.giving (some d), [], w)
  | .failing e => (.raising (some e), [], w)
  | .demo d => (.demo (d.make args), [], w)

def step (library : Library) (limit : Nat) (body : Body) (input : Input) (w : World) :
    Answer Recipe Note × Body × List Note × World :=
  match body with
  | .instance i =>
    let (answer, g) := i.step library limit input w
    (answer, .instance g.self, g.notes.reverse, g.world)
  | .once (some work) => (.wait (.single work), .once none, [], w)
  | .once none => (.ofOutcome input.outcome, .once none, [], w)
  | .giving d => (.give (d.getD .null), .giving none, [], w)
  | .raising (some e) => (.raise e, .raising none, [], w)
  | .raising none => (.give .null, .raising none, [], w)
  | .demo body =>
    let (answer, body, gauges) := Demo.step Recipe.demo body input w.gauges
    (answer, .demo body, [], { w with gauges })

/-- The coroutines of a library of programs. Joins and tasks that are built as work run their
coroutines on stacks of at most `limit` frames. -/
def behaviour (library : Library) (limit : Nat) : Behaviour where
  Recipe := Recipe
  Body := Body
  World := World
  Note := Note
  make := make limit
  step := step library limit

end Interlace.Script
