import Interlace.Machine.Basic

/-!
# Steps of the machine

`Machine.perform` does one job. A job either ends or puts what has to happen next in front of the
agenda, so what a called continuation sets off is done before the caller goes on. Work that is
invoked by a run is followed on the agenda by a `check`: a result that arrives before is left in
the mail of the run, a result that arrives after resumes the parked run in place.
-/

namespace Interlace.Machine

variable {b : Behaviour}

abbrev Effect (b : Behaviour) := List (Event b) × Machine b

/-- Hands the outcome of a run that has ended to its continuation. A top-level run that never
parked keeps an uncaught error from its continuation, which is dropped uncalled. -/
def finish (m : Machine b) (p : Place) (wasParked : Bool) (o : Outcome) : Effect b :=
  match p, o with
  | [n], .error e =>
    if !wasParked && e.isUncaught then ([.escaped n e], m) else ([], m.push [.deliver p o])
  | _, _ => ([], m.push [.deliver p o])

/-- Makes a recipe into a run and starts it. A stack that has no room for even one frame fails
the run at once. -/
def start (m : Machine b) (p : Place) (recipe : b.Recipe) (args : List Datum) (limit : Nat) :
    Effect b :=
  let (body, notes, world) := b.make recipe args m.world
  let m := { m with world }
  let events := notes.map Event.note ++ [.made p]
  match (Frames.empty limit).push body with
  | .ok frames =>
    (events, (m.setRun p ⟨frames, 0, .driving, false⟩).push [.drive p .start])
  | .error e => (events, m.push [.deliver p (.error e)])

def drive (m : Machine b) (p : Place) (input : Input) : Effect b :=
  match m.run? p with
  | none => ([], m)
  | some r =>
    let serial := (r.frames.top?.map Frame.serial).getD 0
    let t := r.frames.turn b input m.world
    let m := { m with world := t.world }
    let events := Event.stepped p serial input :: t.notes.map Event.note
    match t.turn with
    | .next input => (events, (m.setRun p { r with frames := t.frames }).push [.drive p input])
    | .await work uptake =>
      let r := { r with frames := t.frames, phase := .invoking uptake .empty }
      (events, (m.setRun p r).push [.invoke (r.wait :: p) work, .check p])
    | .finished o =>
      let (more, m) := (m.remove p).finish p r.wasParked o
      (events ++ more, m)
    | .fault f => (events ++ [.fault p f], m.remove p)

def resume (m : Machine b) (p : Place) (r : Run b) (uptake : Uptake) (o : Outcome) : Machine b :=
  (m.setRun p { r with wait := r.wait + 1, phase := .driving }).push [.drive p (uptake.apply o)]

/-- Gives up a run whose continuation is lost, and with it the continuation of the run. -/
def abandon (m : Machine b) (p : Place) : Machine b := (m.remove p).push [.drop p]

def check (m : Machine b) (p : Place) : Effect b :=
  match m.run? p with
  | some r =>
    match r.phase with
    | .invoking uptake (.outcome o) => ([], m.resume p r uptake o)
    | .invoking uptake .empty =>
      ([], m.setRun p { r with phase := .parked uptake, wasParked := true })
    | .invoking _ .lost => ([], m.abandon p)
    | _ => ([.fault p .waitOver], m)
  | none => ([.fault p .waitOver], m)

def fateJob (p : Place) : Fate → Job b
  | .complete o => .deliver p o
  | .keep key => .hold p (.keyed key)
  | .delay ms o => .hold p (.timed ms o)
  | .drop => .drop p

def invoke (m : Machine b) (p : Place) : Work b.Recipe b.Note → Effect b
  | .primitive w =>
    ([.invoked p], m.push (w.before.map .poke ++ fateJob p w.fate :: w.after.map .poke))
  | .noted note work => ([.note note], m.push [.invoke p work])
  | .gather [] => ([.invoked p], m.push [.deliver p (.ok (.list []))])
  | .gather (w :: ws) =>
    ([.invoked p], (m.setGather p (.new (ws.length + 1))).push [.items p 0 (w :: ws)])
  | .nested limit recipe => ([.invoked p], m.push [.start p recipe [] limit])

/-- One holder of a join less. With the last one the join goes, and its continuation with it
unless it was called. -/
def release (m : Machine b) (p : Place) (g : Gather) : Machine b :=
  let g := g.release
  if g.holders = 0 then
    let m := m.remove p
    if g.settled then m else m.push [.drop p]
  else m.setGather p g

/-- Starts the items of a join in order. The loop itself holds the join until it is through. -/
def items (m : Machine b) (p : Place) (index : Nat) : List (Work b.Recipe b.Note) → Effect b
  | w :: ws => ([], m.push [.invoke (index :: p) w, .items p (index + 1) ws])
  | [] =>
    match m.gather? p with
    | some g => ([], m.release p g)
    | none => ([], m)

def poke (m : Machine b) (k : Poke) : Effect b :=
  match takeKeyed k.key m.held with
  | some (p, held) => ([], { m with held }.push [.deliver p k.outcome, .tell k.key true])
  | none => ([], m.push [.tell k.key false])

/-- Hands an outcome to a run for its wait `n`. What comes for another wait is ignored. -/
def deliverRun (m : Machine b) (p : Place) (n : Nat) (r : Run b) (o : Outcome) : Machine b :=
  if n = r.wait then
    match r.phase with
    | .invoking uptake .empty => m.setRun p { r with phase := .invoking uptake (.outcome o) }
    | .parked uptake => m.resume p r uptake o
    | _ => m
  else m

def deliverGather (m : Machine b) (p : Place) (n : Nat) (g : Gather) (o : Outcome) : Effect b :=
  let (settlement, g) := g.report n o
  let m := m.release p g
  match settlement with
  | .done o => ([], m.push [.deliver p o])
  | .fault f => ([.fault p f], m)
  | .pending | .discarded => ([], m)

def deliver (m : Machine b) (p : Place) (o : Outcome) : Effect b :=
  let (events, m) :=
    match p with
    | [] => ([], m)
    | n :: owner =>
      match m.nodes.find? owner with
      | some (.run r) => ([], m.deliverRun owner n r o)
      | some (.gather g) => m.deliverGather owner n g o
      | none => ([], m)
  (.called p o :: events, m)

/-- Tells a run that its wait `n` will bring nothing. -/
def dropRun (m : Machine b) (p : Place) (n : Nat) (r : Run b) : Machine b :=
  if n = r.wait then
    match r.phase with
    | .invoking uptake .empty => m.setRun p { r with phase := .invoking uptake .lost }
    | .parked _ => m.abandon p
    | _ => m
  else m

def drop (m : Machine b) (p : Place) : Effect b :=
  let m :=
    match p with
    | [] => m
    | n :: owner =>
      match m.nodes.find? owner with
      | some (.run r) => m.dropRun owner n r
      | some (.gather g) => m.release owner g
      | none => m
  ([.dropped p], m)

def perform (m : Machine b) : Job b → Effect b
  | .start p recipe args limit => m.start p recipe args limit
  | .drive p input => m.drive p input
  | .invoke p work => m.invoke p work
  | .check p => m.check p
  | .items p index rest => m.items p index rest
  | .hold p hold => ([.held p hold], { m with held := m.held ++ [⟨p, hold⟩] })
  | .poke k => m.poke k
  | .tell key found => ([.poked key found], m)
  | .deliver p o => m.deliver p o
  | .drop p => m.drop p

def step? (m : Machine b) : Option (Effect b) :=
  match m.agenda with
  | [] => none
  | job :: rest => some ({ m with agenda := rest }.perform job)

/-- Works the agenda off, in at most `fuel` steps, and hands each event to `watch`. -/
def runWith {α : Type} (watch : α → Event b → α) : Nat → α → Machine b → α × Machine b
  | 0, seen, m => (seen, m)
  | fuel + 1, seen, m =>
    match m.step? with
    | none => (seen, m)
    | some (events, m) => runWith watch fuel (events.foldl watch seen) m

/-! ## Acts from outside -/

inductive Act (b : Behaviour) where
  | begin (n : Nat) (recipe : b.Recipe) (args : List Datum) (limit : Nat)
  | call (p : Place) (outcome : Outcome)
  | drop (p : Place)

/-- Puts an act on the agenda. A continuation that is not handed out can be neither called nor
dropped. -/
def act (m : Machine b) : Act b → Machine b
  | .begin n recipe args limit => m.push [.start [n] recipe args limit]
  | .call p o =>
    match takePlace p m.held with
    | some held => { m with held }.push [.deliver p o]
    | none => m
  | .drop p =>
    match takePlace p m.held with
    | some held => { m with held }.push [.drop p]
    | none => m

def keyed? (m : Machine b) (key : String) : Option Place :=
  (takeKeyed key m.held).map Prod.fst

end Interlace.Machine
