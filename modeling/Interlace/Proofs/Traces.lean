import Interlace.Proofs.Descent

/-!
# What a job shows

Every event comes of a job of its own kind. Coroutines leave notes when they are made and when they
are stepped, and only then does the world change; work may be noted when it is invoked. An error
escapes only with the step that ends a top-level run which never parked.
-/

namespace Interlace.Machine

variable {b : Behaviour}

/-- The events that a job can show. -/
inductive Shows (m : Machine b) : Job b → Event b → Prop where
  | made {p : Place} {recipe : b.Recipe} {args : List Datum} {limit : Nat} :
      Shows m (.start p recipe args limit) (.made p)
  | making {p : Place} {recipe : b.Recipe} {args : List Datum} {limit : Nat} {note : b.Note}
      (hNote : note ∈ (b.make recipe args m.world).2.1) :
      Shows m (.start p recipe args limit) (.note note)
  | stepped {p : Place} {x : Input} {serial : Nat} : Shows m (.drive p x) (.stepped p serial x)
  | stepping {p : Place} {x : Input} {r : Run b} {note : b.Note}
      (hFind : m.nodes.find? p = some (.run r))
      (hNote : note ∈ (r.frames.turn b x m.world).notes) : Shows m (.drive p x) (.note note)
  | escaped {n : Nat} {x : Input} {r : Run b} {e : Failure}
      (hFind : m.nodes.find? [n] = some (.run r))
      (hTurn : (r.frames.turn b x m.world).turn = .finished (.error e))
      (hParked : r.wasParked = false) (hUncaught : e.isUncaught = true) :
      Shows m (.drive [n] x) (.escaped n e)
  | invoked {p : Place} {work : Work b.Recipe b.Note} : Shows m (.invoke p work) (.invoked p)
  | noted {p : Place} {note : b.Note} {work : Work b.Recipe b.Note} :
      Shows m (.invoke p (.noted note work)) (.note note)
  | held {p : Place} {hold : Hold} : Shows m (.hold p hold) (.held p hold)
  | poked {key : String} {found : Bool} : Shows m (.tell key found) (.poked key found)
  | called {p : Place} {o : Outcome} : Shows m (.deliver p o) (.called p o)
  | dropped {p : Place} : Shows m (.drop p) (.dropped p)
  | fault {job : Job b} {p : Place} {f : Fault} : Shows m job (.fault p f)

variable {m : Machine b} {event : Event b}

theorem shows_of_start {p : Place} {recipe : b.Recipe} {args : List Datum} {limit : Nat}
    (h : event ∈ (m.start p recipe args limit).1) : m.Shows (.start p recipe args limit) event := by
  have hEvents : (m.start p recipe args limit).1 =
      (b.make recipe args m.world).2.1.map Event.note ++ [.made p] := by
    rcases hMake : b.make recipe args m.world with ⟨body, notes, world⟩
    simp only [start, hMake]
    cases (Frames.empty limit).push body <;> rfl
  rw [hEvents, List.mem_append, List.mem_map, List.mem_singleton] at h
  rcases h with ⟨note, hNote, rfl⟩ | rfl
  · exact .making hNote
  · exact .made

theorem shows_of_drive {p : Place} {x : Input} (h : event ∈ (m.drive p x).1) :
    m.Shows (.drive p x) event := by
  rw [drive, run?] at h
  cases hFind : m.nodes.find? p with
  | none => simp [hFind] at h
  | some node =>
    cases node with
    | gather => simp [hFind] at h
    | run r =>
      have hStep : ∀ {serial}, event ∈ Event.stepped p serial x ::
          (r.frames.turn b x m.world).notes.map Event.note → m.Shows (.drive p x) event := by
        intro serial h
        rw [List.mem_cons, List.mem_map] at h
        rcases h with rfl | ⟨note, hNote, rfl⟩
        · exact .stepped
        · exact .stepping hFind hNote
      simp only [hFind] at h
      cases hTurn : (r.frames.turn b x m.world).turn with
      | next | await =>
        rw [hTurn] at h
        exact hStep h
      | fault f =>
        rw [hTurn] at h
        rcases List.mem_append.mp h with h | h
        · exact hStep h
        · obtain rfl := List.mem_singleton.mp h
          exact .fault
      | finished o =>
        rw [hTurn] at h
        rcases List.mem_append.mp h with h | h
        · exact hStep h
        · revert h
          fun_cases finish _ p r.wasParked o with
          | case1 n e hEscapes =>
            intro h
            obtain rfl := List.mem_singleton.mp h
            simp only [Bool.and_eq_true, Bool.not_eq_true'] at hEscapes
            exact .escaped hFind hTurn hEscapes.1 hEscapes.2
          | case2 | case3 => exact fun h => absurd h List.not_mem_nil

theorem shows_of_invoke {p : Place} {work : Work b.Recipe b.Note}
    (h : event ∈ (m.invoke p work).1) : m.Shows (.invoke p work) event := by
  revert h
  fun_cases invoke m p work with
  | case2 note work =>
    intro h
    obtain rfl := List.mem_singleton.mp h
    exact .noted
  | _ =>
    intro h
    obtain rfl := List.mem_singleton.mp h
    exact .invoked

theorem shows_of_deliver {p : Place} {o : Outcome} (h : event ∈ (m.deliver p o).1) :
    m.Shows (.deliver p o) event := by
  have hGather : ∀ q n g, event ∈ (m.deliverGather q n g o).1 → m.Shows (.deliver p o) event := by
    intro q n g
    rw [deliverGather]
    rcases g.report n o with ⟨settlement, g'⟩
    cases settlement with
    | done | pending | discarded => exact fun h => absurd h List.not_mem_nil
    | fault f =>
      intro h
      obtain rfl := List.mem_singleton.mp h
      exact .fault
  rcases List.mem_cons.mp h with rfl | h
  · exact .called
  · cases p with
    | nil => exact absurd h List.not_mem_nil
    | cons n q =>
      cases hFind : m.nodes.find? q with
      | none => simp [hFind] at h
      | some node =>
        cases node with
        | run r => simp [hFind] at h
        | gather g => exact hGather q n g (by simpa [hFind] using h)

theorem shows_of_mem {job : Job b} (h : event ∈ (m.perform job).1) : m.Shows job event := by
  cases job with
  | start p recipe args limit => exact shows_of_start h
  | drive p x => exact shows_of_drive h
  | invoke p work => exact shows_of_invoke h
  | deliver p o => exact shows_of_deliver h
  | check p =>
    rw [perform] at h
    revert h
    fun_cases check m p with
    | case4 | case5 =>
      intro h
      obtain rfl := List.mem_singleton.mp h
      exact .fault
    | _ => exact fun h => absurd h List.not_mem_nil
  | items p index rest =>
    rw [perform] at h
    revert h
    fun_cases items m p index rest <;> exact fun h => absurd h List.not_mem_nil
  | poke k =>
    rw [perform] at h
    revert h
    fun_cases poke m k <;> exact fun h => absurd h List.not_mem_nil
  | hold p hold =>
    obtain rfl := List.mem_singleton.mp h
    exact .held
  | tell key found =>
    obtain rfl := List.mem_singleton.mp h
    exact .poked
  | drop p =>
    obtain rfl := List.mem_singleton.mp h
    exact .dropped

/-! ## The world -/

theorem world_release (q : Place) (g : Gather) : (m.release q g).world = m.world := by
  fun_cases release m q g <;> rfl

theorem world_finish (p : Place) (wasParked : Bool) (o : Outcome) :
    (m.finish p wasParked o).2.world = m.world := by
  fun_cases finish m p wasParked o <;> rfl

theorem world_deliver (p : Place) (o : Outcome) : (m.deliver p o).2.world = m.world := by
  have hGather : ∀ q n g, (m.deliverGather q n g o).2.world = m.world := by
    intro q n g
    rw [deliverGather]
    rcases g.report n o with ⟨settlement, g'⟩
    cases settlement <;> exact world_release q g'
  cases p with
  | nil => rfl
  | cons n q =>
    rw [deliver]
    cases m.nodes.find? q with
    | none => rfl
    | some node =>
      cases node with
      | gather g => exact hGather q n g
      | run r =>
        change (m.deliverRun q n r o).world = m.world
        fun_cases deliverRun m q n r o <;> rfl

theorem world_drop (p : Place) : (m.drop p).2.world = m.world := by
  cases p with
  | nil => rfl
  | cons n q =>
    rw [drop]
    cases m.nodes.find? q with
    | none => rfl
    | some node =>
      cases node with
      | gather g => exact world_release q g
      | run r =>
        change (m.dropRun q n r).world = m.world
        fun_cases dropRun m q n r <;> rfl

theorem world_perform {job : Job b}
    (hStart : ∀ p recipe args limit, job ≠ .start p recipe args limit)
    (hDrive : ∀ p x, job ≠ .drive p x) : (m.perform job).2.world = m.world := by
  cases job with
  | start p recipe args limit => exact absurd rfl (hStart p recipe args limit)
  | drive p x => exact absurd rfl (hDrive p x)
  | invoke p work =>
    change (m.invoke p work).2.world = m.world
    fun_cases invoke m p work <;> rfl
  | check p =>
    change (m.check p).2.world = m.world
    fun_cases check m p <;> rfl
  | items p index rest =>
    change (m.items p index rest).2.world = m.world
    fun_cases items m p index rest with
    | case1 | case3 => rfl
    | case2 g => exact world_release p g
  | hold | tell => rfl
  | poke k =>
    change (m.poke k).2.world = m.world
    fun_cases poke m k <;> rfl
  | deliver p o => exact world_deliver p o
  | drop p => exact world_drop p

end Interlace.Machine
