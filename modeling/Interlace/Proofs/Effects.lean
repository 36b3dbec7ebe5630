import Interlace.Proofs.Ownership

/-!
# What each job does

The effect of a job, by what stands at the place it is about.
-/

namespace Interlace

variable {b : Behaviour}

/-- What a join that lets go of one of its holders leaves at its place. -/
def Gather.remains (g : Gather) : Option (Node b) :=
  if g.release.holders = 0 then none else some (.gather g.release)

def Gather.dropped (g : Gather) (q : Place) : List (Job b) :=
  if g.release.holders = 0 ∧ g.settled = false then [.drop q] else []

def Settlement.answer (q : Place) : Settlement → List (Job b)
  | .done o => [.deliver q o]
  | _ => []

namespace Machine

variable {m : Machine b}

def stepEvents (p : Place) (r : Run b) (x : Input) (w : b.World) : List (Event b) :=
  .stepped p ((r.frames.top?.map Frame.serial).getD 0) x :: (r.frames.turn b x w).notes.map .note

theorem perform_start {p : Place} {recipe : b.Recipe} {args : List Datum} {limit : Nat}
    (hLimit : 0 < limit) {body : b.Body} {notes : List b.Note} {world : b.World}
    (hMake : b.make recipe args m.world = (body, notes, world)) :
    m.perform (.start p recipe args limit) = (notes.map .note ++ [.made p], { m with
      world := world
      nodes := m.nodes.update p
        (some (.run ⟨⟨[⟨body, .ready, 0⟩], limit, 1⟩, 0, .driving, false⟩))
      agenda := [.drive p .start] ++ m.agenda }) := by
  simp [perform, start, hMake, Frames.push, Frames.empty, Frames.depth, Nat.not_le.mpr hLimit, push,
    setRun, Table.update]

theorem perform_start_zero {p : Place} {recipe : b.Recipe} {args : List Datum}
    {body : b.Body} {notes : List b.Note} {world : b.World}
    (hMake : b.make recipe args m.world = (body, notes, world)) :
    m.perform (.start p recipe args 0) = (notes.map .note ++ [.made p], { m with
      world := world
      agenda := [.deliver p (.error (.tooDeep 0))] ++ m.agenda }) := by
  simp [perform, start, hMake, Frames.push, Frames.empty, push]

section Drive

variable {p : Place} {x : Input} {r : Run b} (hFind : m.nodes.find? p = some (.run r))
include hFind

theorem perform_drive_next {y : Input} (hTurn : (r.frames.turn b x m.world).turn = .next y) :
    m.perform (.drive p x) = (stepEvents p r x m.world, { m with
      world := (r.frames.turn b x m.world).world
      nodes := m.nodes.update p
        (some (.run { r with frames := (r.frames.turn b x m.world).frames }))
      agenda := [.drive p y] ++ m.agenda }) := by
  simp [perform, drive, run?, hFind, hTurn, push, setRun, Table.update, stepEvents]

theorem perform_drive_await {work : Work b.Recipe b.Note} {uptake : Uptake}
    (hTurn : (r.frames.turn b x m.world).turn = .await work uptake) :
    m.perform (.drive p x) = (stepEvents p r x m.world, { m with
      world := (r.frames.turn b x m.world).world
      nodes := m.nodes.update p (some (.run { r with
        frames := (r.frames.turn b x m.world).frames
        phase := .invoking uptake .empty }))
      agenda := [.invoke (r.wait :: p) work, .check p] ++ m.agenda }) := by
  simp [perform, drive, run?, hFind, hTurn, push, setRun, Table.update, stepEvents]

theorem perform_drive_finished {o : Outcome}
    (hTurn : (r.frames.turn b x m.world).turn = .finished o)
    (hEscapes : ¬ Escapes p r.wasParked o) :
    m.perform (.drive p x) = (stepEvents p r x m.world, { m with
      world := (r.frames.turn b x m.world).world
      nodes := m.nodes.update p none
      agenda := [.deliver p o] ++ m.agenda }) := by
  simp [perform, drive, run?, hFind, hTurn, finish_of_not_escapes hEscapes, push, remove,
    Table.update, stepEvents]

omit hFind in
theorem perform_drive_escaped {n : Nat} {e : Failure} (hFind : m.nodes.find? [n] = some (.run r))
    (hTurn : (r.frames.turn b x m.world).turn = .finished (.error e))
    (hParked : r.wasParked = false) (hUncaught : e.isUncaught = true) :
    m.perform (.drive [n] x) = (stepEvents [n] r x m.world ++ [.escaped n e], { m with
      world := (r.frames.turn b x m.world).world
      nodes := m.nodes.update [n] none
      agenda := [] ++ m.agenda }) := by
  simp [perform, drive, run?, hFind, hTurn, finish, hParked, hUncaught, remove, Table.update,
    stepEvents]

end Drive

section Check

variable {p : Place} {r : Run b} {u : Uptake} (hFind : m.nodes.find? p = some (.run r))
include hFind

theorem perform_check_empty (hPhase : r.phase = .invoking u .empty) :
    m.perform (.check p) = ([], { m with
      nodes := m.nodes.update p (some (.run { r with phase := .parked u, wasParked := true }))
      agenda := [] ++ m.agenda }) := by
  simp [perform, check, run?, hFind, hPhase, setRun, Table.update]

theorem perform_check_outcome {o : Outcome} (hPhase : r.phase = .invoking u (.outcome o)) :
    m.perform (.check p) = ([], { m with
      nodes := m.nodes.update p (some (.run { r with wait := r.wait + 1, phase := .driving }))
      agenda := [.drive p (u.apply o)] ++ m.agenda }) := by
  simp [perform, check, run?, hFind, hPhase, resume, setRun, push, Table.update]

theorem perform_check_lost (hPhase : r.phase = .invoking u .lost) :
    m.perform (.check p) = ([], { m with
      nodes := m.nodes.update p none
      agenda := [.drop p] ++ m.agenda }) := by
  simp [perform, check, run?, hFind, hPhase, abandon, remove, push, Table.update]

end Check

section Return

variable {n : Nat} {q : Place} {r : Run b} {u : Uptake}
  (hFind : m.nodes.find? q = some (.run r)) (hWait : r.wait = n)
include hFind hWait

theorem perform_deliver_invoking {o : Outcome} (hPhase : r.phase = .invoking u .empty) :
    m.perform (.deliver (n :: q) o) = ([.called (n :: q) o], { m with
      nodes := m.nodes.update q (some (.run { r with phase := .invoking u (.outcome o) }))
      agenda := [] ++ m.agenda }) := by
  simp [perform, deliver, deliverRun, hFind, hWait, hPhase, setRun, Table.update]

theorem perform_deliver_parked {o : Outcome} (hPhase : r.phase = .parked u) :
    m.perform (.deliver (n :: q) o) = ([.called (n :: q) o], { m with
      nodes := m.nodes.update q (some (.run { r with wait := r.wait + 1, phase := .driving }))
      agenda := [.drive q (u.apply o)] ++ m.agenda }) := by
  simp [perform, deliver, deliverRun, hFind, hWait, hPhase, resume, setRun, push, Table.update]

theorem perform_drop_invoking (hPhase : r.phase = .invoking u .empty) :
    m.perform (.drop (n :: q)) = ([.dropped (n :: q)], { m with
      nodes := m.nodes.update q (some (.run { r with phase := .invoking u .lost }))
      agenda := [] ++ m.agenda }) := by
  simp [perform, drop, dropRun, hFind, hWait, hPhase, setRun, Table.update]

theorem perform_drop_parked (hPhase : r.phase = .parked u) :
    m.perform (.drop (n :: q)) = ([.dropped (n :: q)], { m with
      nodes := m.nodes.update q none
      agenda := [.drop q] ++ m.agenda }) := by
  simp [perform, drop, dropRun, hFind, hWait, hPhase, abandon, remove, push, Table.update]

end Return

theorem release_eq (m : Machine b) (q : Place) (g : Gather) :
    m.release q g =
      { m with nodes := m.nodes.update q g.remains, agenda := g.dropped q ++ m.agenda } := by
  simp only [release, Gather.remains, Gather.dropped, remove, push, setGather, Gather.release]
  by_cases hHolders : g.holders - 1 = 0 <;> by_cases hSettled : g.settled = true <;>
    simp [hHolders, hSettled, Table.update]

section Join

variable {n : Nat} {q : Place} {g : Gather} (hFind : m.nodes.find? q = some (.gather g))
include hFind

theorem perform_deliver_item {o : Outcome} {g' : Gather} {settlement : Settlement}
    (hReport : g.report n o = (settlement, g')) (hFault : ∀ f, settlement ≠ .fault f) :
    m.perform (.deliver (n :: q) o) = ([.called (n :: q) o], { m with
      nodes := m.nodes.update q g'.remains
      agenda := (settlement.answer q ++ g'.dropped q) ++ m.agenda }) := by
  cases settlement with
  | fault f => exact absurd rfl (hFault f)
  | pending | discarded | done =>
    simp [perform, deliver, deliverGather, hFind, hReport, release_eq, push, Settlement.answer]

theorem perform_drop_item :
    m.perform (.drop (n :: q)) = ([.dropped (n :: q)], { m with
      nodes := m.nodes.update q g.remains
      agenda := ([] ++ g.dropped q) ++ m.agenda }) := by
  simp [perform, drop, hFind, release_eq]

theorem perform_items_nil (index : Nat) :
    m.perform (.items q index []) = ([], { m with
      nodes := m.nodes.update q g.remains
      agenda := ([] ++ g.dropped q) ++ m.agenda }) := by
  simp [perform, items, gather?, hFind, release_eq]

end Join

theorem perform_invoke_gather (p : Place) (w : Work b.Recipe b.Note)
    (ws : List (Work b.Recipe b.Note)) :
    m.perform (.invoke p (.gather (w :: ws))) = ([.invoked p], { m with
      nodes := m.nodes.update p (some (.gather (.new (ws.length + 1))))
      agenda := [.items p 0 (w :: ws)] ++ m.agenda }) := rfl

theorem perform_invoke_primitive (p : Place) (w : Primitive) :
    m.perform (.invoke p (.primitive w)) = ([.invoked p], { m with
      agenda := (w.before.map .poke ++ fateJob p w.fate :: w.after.map .poke) ++ m.agenda }) := rfl

theorem perform_poke {k : Poke} {p : Place} {others : List Held}
    (hTake : takeKeyed k.key m.held = some (p, others)) :
    m.perform (.poke k) = ([], { m with
      held := others
      agenda := [.deliver p k.outcome, .tell k.key true] ++ m.agenda }) := by
  simp [perform, poke, hTake, push]

theorem perform_poke_none {k : Poke} (hTake : takeKeyed k.key m.held = none) :
    m.perform (.poke k) = ([], { m with agenda := [.tell k.key false] ++ m.agenda }) := by
  simp [perform, poke, hTake, push]

theorem perform_deliver_top {n : Nat} (hFind : m.nodes.find? [] = none) (o : Outcome) :
    m.perform (.deliver [n] o) = ([.called [n] o], m) := by
  simp [perform, deliver, hFind]

theorem perform_drop_top {n : Nat} (hFind : m.nodes.find? [] = none) :
    m.perform (.drop [n]) = ([.dropped [n]], m) := by
  simp [perform, drop, hFind]

end Machine

end Interlace
