import Interlace.Proofs.Belonging

/-!
# The same job in two machines

When bodies do not look at the world, what a job does depends on nothing but what stands at the
place that it is about. Two machines that agree there do the same, whatever else they have to do.
-/

namespace Interlace

variable {b : Behaviour}

/-- The same stands at `p` in both machines, and the same jobs were put on top of the agendas `rest`
and `rest'`, all for the top-level run `n`. -/
structure Machine.Twin (p : Place) (n : Nat) (owned : Prop) (rest rest' : List (Job b))
    (m m' : Machine b) : Prop where
  node : m'.nodes.find? p = m.nodes.find? p
  agenda : ∃ put, m.agenda = put ++ rest ∧ m'.agenda = put ++ rest' ∧ Led n owned put

namespace Machine.Twin

variable {p : Place} {n : Nat} {owned : Prop} {rest rest' : List (Job b)} {m m' : Machine b}
  (hp : topOf p = some n) (h : Twin p n owned rest rest' m m')
include h

theorem setWorld (world world' : b.World) :
    Twin p n owned rest rest' { m with world } { m' with world := world' } := ⟨h.node, h.agenda⟩

theorem pushes {jobs : List (Job b)} (hJobs : Led n owned jobs) :
    Twin p n owned rest rest' (m.push jobs) (m'.push jobs) := by
  obtain ⟨put, hPut, hPut', hLed⟩ := h.agenda
  refine ⟨h.node, jobs ++ put, ?_, ?_, hJobs.append hLed⟩
  · rw [Machine.push, hPut, List.append_assoc]
  · rw [Machine.push, hPut', List.append_assoc]

theorem push {job : Job b} (hTop : job.top? = some n) (hWork : ∀ p work, job ≠ .invoke p work) :
    Twin p n owned rest rest' (m.push [job]) (m'.push [job]) :=
  h.pushes (.placed hTop hWork .nil)

theorem setRun (r : Run b) : Twin p n owned rest rest' (m.setRun p r) (m'.setRun p r) := by
  refine ⟨?_, h.agenda⟩
  simp [Machine.setRun]

theorem setGather (g : Gather) :
    Twin p n owned rest rest' (m.setGather p g) (m'.setGather p g) := by
  refine ⟨?_, h.agenda⟩
  simp [Machine.setGather]

theorem remove : Twin p n owned rest rest' (m.remove p) (m'.remove p) := by
  refine ⟨?_, h.agenda⟩
  simp [Machine.remove]

theorem run? : m'.run? p = m.run? p := by
  rw [Machine.run?, Machine.run?, h.node]

theorem gather? : m'.gather? p = m.gather? p := by
  rw [Machine.gather?, Machine.gather?, h.node]

include hp

theorem finish (wasParked : Bool) (o : Outcome) : Twin p n owned rest rest'
    (m.finish p wasParked o).2 (m'.finish p wasParked o).2 := by
  by_cases hEscapes : Escapes p wasParked o
  · obtain ⟨hParked, k, e, rfl, rfl, hUncaught⟩ := hEscapes
    simpa [Machine.finish, hParked, hUncaught] using h
  · rw [Machine.finish_of_not_escapes hEscapes, Machine.finish_of_not_escapes hEscapes]
    exact h.push hp (by simp)

theorem start (hb : b.Unshared) (recipe : b.Recipe) (args : List Datum) (limit : Nat) :
    Twin p n owned rest rest' (m.start p recipe args limit).2
      (m'.start p recipe args limit).2 := by
  rw [Machine.start, Machine.start]
  have hBody := hb.make recipe args m.world m'.world
  generalize b.make recipe args m.world = made at hBody
  generalize b.make recipe args m'.world = made' at hBody
  obtain ⟨body, notes, world⟩ := made
  obtain ⟨body', notes', world'⟩ := made'
  obtain rfl : body = body' := hBody
  dsimp only
  cases (Frames.empty limit).push body with
  | ok frames => exact ((h.setWorld world world').setRun _).push hp (by simp)
  | error => exact (h.setWorld world world').push hp (by simp)

theorem drive (hb : b.Unshared) {input : Input}
    (hPoised : ∀ r, m.nodes.find? p = some (.run r) → r.frames.Poised input) :
    Twin p n owned rest rest' (m.drive p input).2 (m'.drive p input).2 := by
  rw [Machine.drive, Machine.drive, h.run?, Machine.run?]
  cases hFind : m.nodes.find? p with
  | none => exact h
  | some node =>
  cases node with
  | gather g => exact h
  | run r =>
    obtain ⟨hTurn, hFrames⟩ := Frames.turn_congr hb (hPoised r hFind) m.world m'.world
    have hWorld := h.setWorld (r.frames.turn b input m.world).world
      (r.frames.turn b input m'.world).world
    dsimp only
    rw [← hTurn, ← hFrames]
    cases (r.frames.turn b input m.world).turn with
    | next input => exact (hWorld.setRun _).push hp (by simp)
    | await work uptake =>
      refine (hWorld.setRun _).pushes (.leans ?_ (by simp) (Or.inl (by simp)) ?_)
      · exact Or.inr (topOf_cons hp _)
      · exact .placed hp (by simp) .nil
    | finished o => exact hWorld.remove.finish hp r.wasParked o
    | fault f => exact hWorld.remove

theorem resume (r : Run b) (uptake : Uptake) (o : Outcome) :
    Twin p n owned rest rest' (m.resume p r uptake o) (m'.resume p r uptake o) :=
  (h.setRun _).push hp (by simp)

theorem abandon : Twin p n owned rest rest' (m.abandon p) (m'.abandon p) :=
  h.remove.push hp (by simp)

theorem check : Twin p n owned rest rest' (m.check p).2 (m'.check p).2 := by
  rw [Machine.check, Machine.check, h.run?]
  cases m.run? p with
  | none => exact h
  | some r =>
    dsimp only
    cases r.phase with
    | driving | parked => exact h
    | invoking uptake mail =>
      cases mail with
      | empty => exact h.setRun _
      | outcome o => exact h.resume hp r uptake o
      | lost => exact h.abandon hp

omit h hp in
theorem led_pokes (hOwned : owned) (pokes : List Poke) :
    Led n owned (pokes.map Job.poke : List (Job b)) := by
  induction pokes with
  | nil => exact .nil
  | cons poke pokes ih => exact .leans (Or.inl rfl) (by simp) (Or.inr hOwned) ih

theorem invoke (hOwned : owned) (work : Work b.Recipe b.Note) :
    Twin p n owned rest rest' (m.invoke p work).2 (m'.invoke p work).2 := by
  cases work with
  | primitive w =>
    refine h.pushes ((led_pokes hOwned _).append (.placed ?_ ?_ (led_pokes hOwned _)))
    · cases w.fate <;> exact hp
    · cases w.fate <;> simp [Machine.fateJob]
  | noted note work =>
    refine h.pushes (.leans (Or.inr hp) ?_ (Or.inr hOwned) .nil)
    rintro work ⟨⟩
    cases hp
  | nested limit recipe => exact h.push hp (by simp)
  | gather items =>
    cases items with
    | nil => exact h.push hp (by simp)
    | cons w ws => exact (h.setGather _).push hp (by simp)

theorem release (g : Gather) : Twin p n owned rest rest' (m.release p g) (m'.release p g) := by
  rw [Machine.release, Machine.release]
  dsimp only
  split
  · split
    · exact h.remove
    · exact h.remove.push hp (by simp)
  · exact h.setGather _

theorem items (index : Nat) (works : List (Work b.Recipe b.Note)) :
    Twin p n owned rest rest' (m.items p index works).2 (m'.items p index works).2 := by
  cases works with
  | cons w ws =>
    refine h.pushes (.leans ?_ (by simp) (Or.inl (by simp)) ?_)
    · exact Or.inr (topOf_cons hp _)
    · exact .placed hp (by simp) .nil
  | nil =>
    rw [Machine.items, Machine.items, h.gather?]
    cases m.gather? p with
    | none => exact h
    | some g => exact h.release hp g

theorem deliverRun (k : Nat) (r : Run b) (o : Outcome) :
    Twin p n owned rest rest' (m.deliverRun p k r o) (m'.deliverRun p k r o) := by
  rw [Machine.deliverRun, Machine.deliverRun]
  split
  · cases r.phase with
    | driving => exact h
    | parked uptake => exact h.resume hp r uptake o
    | invoking uptake mail =>
      cases mail with
      | empty => exact h.setRun _
      | outcome | lost => exact h
  · exact h

theorem deliverGather (k : Nat) (g : Gather) (o : Outcome) :
    Twin p n owned rest rest' (m.deliverGather p k g o).2 (m'.deliverGather p k g o).2 := by
  rw [Machine.deliverGather, Machine.deliverGather]
  rcases g.report k o with ⟨settlement, g'⟩
  cases settlement with
  | pending | discarded | fault => exact h.release hp g'
  | done o' => exact (h.release hp g').push hp (by simp)

theorem dropRun (k : Nat) (r : Run b) :
    Twin p n owned rest rest' (m.dropRun p k r) (m'.dropRun p k r) := by
  rw [Machine.dropRun, Machine.dropRun]
  split
  · cases r.phase with
    | driving => exact h
    | parked uptake => exact h.abandon hp
    | invoking uptake mail =>
      cases mail with
      | empty => exact h.setRun _
      | outcome | lost => exact h
  · exact h

theorem deliver (k : Nat) (o : Outcome) :
    Twin p n owned rest rest' (m.deliver (k :: p) o).2 (m'.deliver (k :: p) o).2 := by
  rw [Machine.deliver, Machine.deliver]
  dsimp only
  rw [h.node]
  cases m.nodes.find? p with
  | none => exact h
  | some node =>
    cases node with
    | run r => exact h.deliverRun hp k r o
    | gather g => exact h.deliverGather hp k g o

theorem drop (k : Nat) :
    Twin p n owned rest rest' (m.drop (k :: p)).2 (m'.drop (k :: p)).2 := by
  rw [Machine.drop, Machine.drop]
  dsimp only
  rw [h.node]
  cases m.nodes.find? p with
  | none => exact h
  | some node =>
    cases node with
    | run r => exact h.dropRun hp k r
    | gather g => exact h.release hp g

theorem perform (hb : b.Unshared) {job : Job b} (hSite : job.site = some p)
    (hOwned : ∀ work, job = .invoke p work → owned)
    (hPoised : ∀ x r, job = .drive p x → m.nodes.find? p = some (.run r) → r.frames.Poised x) :
    Twin p n owned rest rest' (m.perform job).2 (m'.perform job).2 := by
  cases job with
  | start q recipe args limit =>
    cases hSite
    exact h.start hp hb recipe args limit
  | drive q x =>
    cases hSite
    exact h.drive hp hb fun r => hPoised x r rfl
  | invoke q work =>
    cases hSite
    exact h.invoke hp (hOwned work rfl) work
  | check q =>
    cases hSite
    exact h.check hp
  | items q index works =>
    cases hSite
    exact h.items hp index works
  | deliver q o =>
    cases q with
    | nil => cases hSite
    | cons k q =>
      cases hSite
      exact h.deliver hp k o
  | drop q =>
    cases q with
    | nil => cases hSite
    | cons k q =>
      cases hSite
      exact h.drop hp k
  | hold | poke | tell => cases hSite

end Machine.Twin

end Interlace
