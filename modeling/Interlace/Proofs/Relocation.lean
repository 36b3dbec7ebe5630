import Interlace.Proofs.Transitions

/-!
# The same work under other places

What a child does on its parent's stack is known by the parent's place. On a stack of its own it
has a place of its own, where its waits are counted anew. A `Relocation` renames places
accordingly, and a machine does the same under the new names.
-/

namespace Interlace

variable {b : Behaviour}

/-- The waits of the run at `origin` from number `wait` on, and all that is below them, are moved to
the run at `target`, whose own place is among them. -/
structure Relocation where
  origin : Place
  wait : Nat
  target : Place
  rooted : origin ≠ []
  covered : ∃ path n, wait ≤ n ∧ target = path ++ n :: origin

namespace Relocation

variable (e : Relocation)

def Covers (x : Place) : Prop := ∃ path n, e.wait ≤ n ∧ x = path ++ n :: e.origin

def place : Place → Place
  | [] => []
  | n :: x =>
    if x = e.origin then if e.wait ≤ n then (n - e.wait) :: e.target else n :: x
    else n :: place x

def site (x : Place) : Place := if x = e.origin then e.target else e.place x

def job : Job b → Job b
  | .start x recipe args limit => .start (e.place x) recipe args limit
  | .drive x input => .drive (e.site x) input
  | .invoke x work => .invoke (e.place x) work
  | .check x => .check (e.site x)
  | .items x index rest => .items (e.place x) index rest
  | .hold x hold => .hold (e.place x) hold
  | .poke k => .poke k
  | .tell key found => .tell key found
  | .deliver x o => .deliver (e.place x) o
  | .drop x => .drop (e.place x)

def held (h : Held) : Held := ⟨e.place h.place, h.hold⟩

def act : Machine.Act b → Machine.Act b
  | .begin n recipe args limit => .begin n recipe args limit
  | .call x o => .call (e.place x) o
  | .drop x => .drop (e.place x)

def move : Move b → Move b
  | .work => .work
  | .begin n recipe args limit => .begin n recipe args limit
  | .call x o => .call (e.place x) o
  | .drop x => .drop (e.place x)

/-! ## Places -/

variable {e}

theorem place_covered {n : Nat} (hn : e.wait ≤ n) (path : Place) :
    e.place (path ++ n :: e.origin) = path ++ (n - e.wait) :: e.target := by
  induction path with
  | nil => simp [place, hn]
  | cons m path ih =>
    have hLonger : path ++ n :: e.origin ≠ e.origin := by
      intro h
      have := congrArg List.length h
      simp only [List.length_append, List.length_cons] at this
      omega
    rw [List.cons_append, place, if_neg hLonger, ih, List.cons_append]

theorem place_of_not_covers {x : Place} (h : ¬ e.Covers x) : e.place x = x := by
  induction x with
  | nil => rfl
  | cons n x ih =>
    rw [place]
    split
    · rename_i hx
      subst hx
      exact if_neg fun hn => h ⟨[], n, hn, rfl⟩
    · rw [ih]
      rintro ⟨path, m, hm, rfl⟩
      exact h ⟨n :: path, m, hm, rfl⟩

theorem place_cons {x : Place} (hx : x ≠ e.origin) (n : Nat) :
    e.place (n :: x) = n :: e.place x := by
  rw [place, if_neg hx]

theorem place_wait (n : Nat) : e.place ((e.wait + n) :: e.origin) = n :: e.target := by
  have h := place_covered (e := e) (Nat.le_add_right e.wait n) []
  rwa [Nat.add_sub_cancel_left] at h

theorem not_covers_origin : ¬ e.Covers e.origin := by
  rintro ⟨path, n, -, h⟩
  have := congrArg List.length h
  simp only [List.length_append, List.length_cons] at this
  omega

theorem place_origin : e.place e.origin = e.origin := place_of_not_covers not_covers_origin

theorem length_place {x : Place} (h : e.Covers x) : e.target.length < (e.place x).length := by
  obtain ⟨path, n, hn, rfl⟩ := h
  rw [place_covered hn]
  simp only [List.length_append, List.length_cons]
  omega

theorem place_injective {x y : Place} (h : e.place x = e.place y) : x = y := by
  -- A place that moves gets a name that is itself covered, so it is not that of one that stays.
  have hApart : ∀ {x y : Place}, e.Covers x → ¬ e.Covers y → e.place x ≠ e.place y := by
    intro x y hx hy h
    obtain ⟨path, n, hn, rfl⟩ := hx
    rw [place_covered hn, place_of_not_covers hy] at h
    obtain ⟨path', m, hm, hTarget⟩ := e.covered
    refine hy ⟨path ++ (n - e.wait) :: path', m, hm, ?_⟩
    rw [← h, hTarget]
    simp
  by_cases hx : e.Covers x <;> by_cases hy : e.Covers y
  · obtain ⟨path, n, hn, rfl⟩ := hx
    obtain ⟨path', m, hm, rfl⟩ := hy
    rw [place_covered hn, place_covered hm, List.append_cons, List.append_cons path'] at h
    obtain ⟨hPath, hLast⟩ := List.append_inj' (List.append_cancel_right h) rfl
    have hn' := (List.cons.inj hLast).1
    obtain rfl : n = m := by omega
    rw [hPath]
  · exact absurd h (hApart hx hy)
  · exact absurd h.symm (hApart hy hx)
  · rwa [place_of_not_covers hx, place_of_not_covers hy] at h

theorem place_ne {x y : Place} (hy : e.Covers y) (hLength : y.length ≤ e.target.length) :
    e.place x ≠ y := by
  intro h
  by_cases hx : e.Covers x
  · have := length_place hx
    rw [h] at this
    omega
  · rw [place_of_not_covers hx] at h
    exact hx (h ▸ hy)

theorem place_ne_target (x : Place) : e.place x ≠ e.target := place_ne e.covered (Nat.le_refl _)

theorem place_ne_origin {x : Place} (hx : x ≠ e.origin) : e.place x ≠ e.origin := by
  intro h
  rw [← place_origin] at h
  exact hx (place_injective h)

theorem site_of_ne {x : Place} (hx : x ≠ e.origin) : e.site x = e.place x := if_neg hx

theorem site_origin : e.site e.origin = e.target := if_pos rfl

theorem site_ne_origin (x : Place) : e.site x ≠ e.origin := by
  by_cases hx : x = e.origin
  · rw [hx, site_origin]
    intro h
    exact not_covers_origin (h ▸ e.covered)
  · rw [site_of_ne hx]
    exact place_ne_origin hx

theorem site_eq_target {x : Place} : e.site x = e.target ↔ x = e.origin := by
  constructor
  · intro h
    by_contra hx
    rw [site_of_ne hx] at h
    exact place_ne_target x h
  · rintro rfl
    exact site_origin

theorem place_top {x : Place} {n : Nat} : e.place x = [n] ↔ x = [n] := by
  have hOrigin := List.length_pos_iff_ne_nil.mpr e.rooted
  have hTop : ¬ e.Covers [n] := by
    rintro ⟨path, m, -, h⟩
    have := congrArg List.length h
    simp only [List.length_append, List.length_cons, List.length_nil] at this
    omega
  constructor
  · intro h
    rw [← place_of_not_covers hTop] at h
    exact place_injective h
  · rintro rfl
    exact place_of_not_covers hTop

theorem site_job {job : Job b} (hSite : job.site ≠ some e.origin) :
    (e.job job).site = job.site.map e.place := by
  have hNe : ∀ {x}, some x ≠ some e.origin → x ≠ e.origin :=
    fun hx hSame => hx (congrArg some hSame)
  cases job with
  | start | invoke | items | hold | poke | tell => rfl
  | drive x | check x => exact congrArg some (site_of_ne (hNe hSite))
  | deliver x | drop x =>
    cases x with
    | nil => rfl
    | cons n x =>
      rw [job, place_cons (hNe hSite)]
      rfl

theorem site_job_ne {job : Job b} (hSite : job.site ≠ some e.origin) {y : Place}
    (hy : ∀ x, x ≠ e.origin → e.place x ≠ y) : (e.job job).site ≠ some y := by
  rw [site_job hSite]
  intro hEq
  obtain ⟨x, hx, rfl⟩ := Option.map_eq_some_iff.mp hEq
  refine hy x ?_ rfl
  rintro rfl
  exact hSite hx

/-! ## The machine -/

variable (e)

/-- The machine `m'` has come to the same as `m` under the new names, the run at the origin apart,
and the same jobs were put on top of the agendas `base` and `base'`. -/
structure Alike (base base' : List (Job b)) (m m' : Machine b) : Prop where
  world : m'.world = m.world
  held : m'.held = m.held.map e.held
  nodes : ∀ x, x ≠ e.origin → m'.nodes.find? (e.place x) = m.nodes.find? x
  agenda : ∃ put, m.agenda = put ++ base ∧ m'.agenda = put.map e.job ++ base'

variable {e}

theorem job_fateJob (x : Place) (fate : Fate) :
    e.job (Machine.fateJob x fate : Job b) = Machine.fateJob (e.place x) fate := by
  cases fate <;> rfl

theorem takeKeyed_held (key : String) (held : List Held) : takeKeyed key (held.map e.held) =
    (takeKeyed key held).map fun found => (e.place found.1, found.2.map e.held) := by
  induction held with
  | nil => simp [takeKeyed]
  | cons first held ih =>
    have hNext : takeKeyed.next key (e.held first) (held.map e.held) =
        (takeKeyed.next key first held).map fun found => (e.place found.1, found.2.map e.held) := by
      rw [takeKeyed.next, takeKeyed.next, ih, Option.map_map, Option.map_map]
      rfl
    rw [List.map_cons, takeKeyed, takeKeyed, hNext]
    obtain ⟨x, hold⟩ := first
    cases hold with
    | timed => rfl
    | keyed k =>
      by_cases hk : k = key
      · simp [Relocation.held, hk]
      · simp [Relocation.held, hk]

theorem takePlace_held (x : Place) (held : List Held) : takePlace (e.place x) (held.map e.held) =
    (takePlace x held).map (List.map e.held) := by
  have hSame : ∀ h : Held, ((e.held h).place == e.place x) = (h.place == x) := by
    intro h
    rw [Bool.eq_iff_iff, beq_iff_eq, beq_iff_eq]
    exact ⟨place_injective, congrArg e.place⟩
  have hOther : ∀ h : Held, ((e.held h).place != e.place x) = (h.place != x) := by
    intro h
    rw [bne, bne, hSame]
  simp only [takePlace, List.any_map, List.filter_map, Function.comp_def, hSame, hOther]
  split <;> rfl

namespace Alike

variable {base base' : List (Job b)} {m m' : Machine b} (h : e.Alike base base' m m')
include h

theorem withAgenda (rest rest' : List (Job b)) :
    e.Alike rest rest' { m with agenda := rest } { m' with agenda := rest' } :=
  ⟨h.world, h.held, h.nodes, [], rfl, rfl⟩

theorem push {jobs jobs' : List (Job b)} (hJobs : jobs' = jobs.map e.job) :
    e.Alike base base' (m.push jobs) (m'.push jobs') := by
  obtain ⟨put, hPut, hPut'⟩ := h.agenda
  refine ⟨h.world, h.held, h.nodes, jobs ++ put, ?_, ?_⟩
  · rw [Machine.push, hPut, List.append_assoc]
  · rw [Machine.push, hPut', hJobs, List.map_append, List.append_assoc]

theorem setWorld (world : b.World) : e.Alike base base' { m with world } { m' with world } :=
  ⟨rfl, h.held, h.nodes, h.agenda⟩

theorem setHeld (held : List Held) :
    e.Alike base base' { m with held } { m' with held := held.map e.held } :=
  ⟨h.world, rfl, h.nodes, h.agenda⟩

theorem update {x : Place} (hx : x ≠ e.origin) (node : Option (Node b)) :
    e.Alike base base' { m with nodes := m.nodes.update x node }
      { m' with nodes := m'.nodes.update (e.place x) node } := by
  refine ⟨h.world, h.held, fun y hy => ?_, h.agenda⟩
  by_cases hxy : y = x
  · subst hxy
    rw [Table.find?_update_self, Table.find?_update_self]
  · rw [Table.find?_update_of_ne _ _ hxy, Table.find?_update_of_ne, h.nodes y hy]
    exact fun hSame => hxy (place_injective hSame)

theorem updateOrigin (node node' : Option (Node b)) :
    e.Alike base base' { m with nodes := m.nodes.update e.origin node }
      { m' with nodes := m'.nodes.update e.target node' } := by
  refine ⟨h.world, h.held, fun y hy => ?_, h.agenda⟩
  rw [Table.find?_update_of_ne _ _ hy, Table.find?_update_of_ne _ _ (place_ne_target y),
    h.nodes y hy]

section

variable {x : Place} (hx : x ≠ e.origin)
include hx

theorem run? : m'.run? (e.place x) = m.run? x := by
  rw [Machine.run?, Machine.run?, h.nodes x hx]

theorem gather? : m'.gather? (e.place x) = m.gather? x := by
  rw [Machine.gather?, Machine.gather?, h.nodes x hx]

theorem setRun (r : Run b) : e.Alike base base' (m.setRun x r) (m'.setRun (e.place x) r) :=
  h.update hx (some (.run r))

theorem setGather (g : Gather) :
    e.Alike base base' (m.setGather x g) (m'.setGather (e.place x) g) :=
  h.update hx (some (.gather g))

theorem remove : e.Alike base base' (m.remove x) (m'.remove (e.place x)) := h.update hx none

omit hx in
theorem finish (wasParked : Bool) (o : Outcome) : e.Alike base base'
    (m.finish x wasParked o).2 (m'.finish (e.place x) wasParked o).2 := by
  have hSame : Escapes (e.place x) wasParked o ↔ Escapes x wasParked o := by
    simp only [Escapes, place_top]
  by_cases hEscapes : Escapes x wasParked o
  · obtain ⟨hParked, n, f, hTop, rfl, hUncaught⟩ := hEscapes
    rw [place_top.mpr hTop, hTop]
    simpa [Machine.finish, hParked, hUncaught] using h
  · rw [Machine.finish_of_not_escapes hEscapes,
      Machine.finish_of_not_escapes (fun h => hEscapes (hSame.mp h))]
    exact h.push rfl

theorem start (recipe : b.Recipe) (args : List Datum) (limit : Nat) : e.Alike base base'
    (m.start x recipe args limit).2 (m'.start (e.place x) recipe args limit).2 := by
  rw [Machine.start, Machine.start, h.world]
  rcases b.make recipe args m.world with ⟨body, notes, world⟩
  dsimp only
  cases (Frames.empty limit).push body with
  | ok frames =>
    refine ((h.setWorld world).setRun hx _).push ?_
    simp [job, site_of_ne hx]
  | error => exact (h.setWorld world).push rfl

theorem drive (input : Input) : e.Alike base base'
    (m.drive x input).2 (m'.drive (e.site x) input).2 := by
  rw [Machine.drive, Machine.drive, site_of_ne hx, h.run? hx, h.world]
  cases m.run? x with
  | none => exact h
  | some r =>
    have hWorld := h.setWorld (r.frames.turn b input m.world).world
    dsimp only
    cases (r.frames.turn b input m.world).turn with
    | next input =>
      refine (hWorld.setRun hx _).push ?_
      simp [job, site_of_ne hx]
    | await work uptake =>
      refine (hWorld.setRun hx _).push ?_
      simp [job, site_of_ne hx, place_cons hx]
    | finished o => exact (hWorld.remove hx).finish r.wasParked o
    | fault f => exact hWorld.remove hx

theorem resume (r : Run b) (uptake : Uptake) (o : Outcome) : e.Alike base base'
    (m.resume x r uptake o) (m'.resume (e.place x) r uptake o) := by
  refine (h.setRun hx _).push ?_
  simp [job, site_of_ne hx]

theorem abandon : e.Alike base base' (m.abandon x) (m'.abandon (e.place x)) :=
  (h.remove hx).push rfl

theorem check : e.Alike base base' (m.check x).2 (m'.check (e.site x)).2 := by
  rw [Machine.check, Machine.check, site_of_ne hx, h.run? hx]
  cases m.run? x with
  | none => exact h
  | some r =>
    dsimp only
    cases r.phase with
    | driving | parked => exact h
    | invoking uptake mail =>
      cases mail with
      | empty => exact h.setRun hx _
      | outcome o => exact h.resume hx r uptake o
      | lost => exact h.abandon hx

theorem invoke (work : Work b.Recipe b.Note) : e.Alike base base'
    (m.invoke x work).2 (m'.invoke (e.place x) work).2 := by
  cases work with
  | primitive w =>
    refine h.push ?_
    rw [List.map_append, List.map_map, List.map_cons, List.map_map, job_fateJob]
    rfl
  | noted note work => exact h.push rfl
  | nested limit recipe => exact h.push rfl
  | gather items =>
    cases items with
    | nil => exact h.push rfl
    | cons w ws => exact (h.setGather hx _).push rfl

theorem release (g : Gather) :
    e.Alike base base' (m.release x g) (m'.release (e.place x) g) := by
  rw [Machine.release_eq, Machine.release_eq]
  refine (h.update hx g.remains).push ?_
  simp only [Gather.dropped]
  split <;> rfl

theorem items (index : Nat) (rest : List (Work b.Recipe b.Note)) : e.Alike base base'
    (m.items x index rest).2 (m'.items (e.place x) index rest).2 := by
  cases rest with
  | cons w ws =>
    refine h.push ?_
    simp [job, place_cons hx]
  | nil =>
    rw [Machine.items, Machine.items, h.gather? hx]
    cases m.gather? x with
    | none => exact h
    | some g => exact h.release hx g

theorem deliverRun (n : Nat) (r : Run b) (o : Outcome) : e.Alike base base'
    (m.deliverRun x n r o) (m'.deliverRun (e.place x) n r o) := by
  rw [Machine.deliverRun, Machine.deliverRun]
  split
  · cases r.phase with
    | driving => exact h
    | parked uptake => exact h.resume hx r uptake o
    | invoking uptake mail =>
      cases mail with
      | empty => exact h.setRun hx _
      | outcome | lost => exact h
  · exact h

theorem deliverGather (n : Nat) (g : Gather) (o : Outcome) : e.Alike base base'
    (m.deliverGather x n g o).2 (m'.deliverGather (e.place x) n g o).2 := by
  rw [Machine.deliverGather, Machine.deliverGather]
  rcases g.report n o with ⟨settlement, g'⟩
  cases settlement with
  | pending | discarded | fault => exact h.release hx g'
  | done o' => exact (h.release hx g').push rfl

theorem dropRun (n : Nat) (r : Run b) : e.Alike base base'
    (m.dropRun x n r) (m'.dropRun (e.place x) n r) := by
  rw [Machine.dropRun, Machine.dropRun]
  split
  · cases r.phase with
    | driving => exact h
    | parked uptake => exact h.abandon hx
    | invoking uptake mail =>
      cases mail with
      | empty => exact h.setRun hx _
      | outcome | lost => exact h
  · exact h

end

theorem returned {x : Place} (hx : ∀ n, x ≠ n :: e.origin) (o : Outcome) :
    e.Alike base base' (m.deliver x o).2 (m'.deliver (e.place x) o).2 ∧
      e.Alike base base' (m.drop x).2 (m'.drop (e.place x)).2 := by
  cases x with
  | nil => exact ⟨h, h⟩
  | cons n x =>
    have hOwner : x ≠ e.origin := fun hSame => hx n (hSame ▸ rfl)
    rw [place_cons hOwner, Machine.deliver, Machine.deliver, Machine.drop, Machine.drop]
    dsimp only
    rw [h.nodes x hOwner]
    cases m.nodes.find? x with
    | none => exact ⟨h, h⟩
    | some node =>
      cases node with
      | run r => exact ⟨h.deliverRun hOwner n r o, h.dropRun hOwner n r⟩
      | gather g => exact ⟨h.deliverGather hOwner n g o, h.release hOwner g⟩

theorem poke (k : Poke) : e.Alike base base' (m.poke k).2 (m'.poke k).2 := by
  rw [Machine.poke, Machine.poke, h.held, takeKeyed_held]
  cases takeKeyed k.key m.held with
  | none => exact h.push rfl
  | some found => exact (h.setHeld found.2).push rfl

/-- A job that is not about the origin does the same under the new names. -/
theorem perform {job : Job b} (hSite : job.site ≠ some e.origin) :
    e.Alike base base' (m.perform job).2 (m'.perform (e.job job)).2 := by
  have hNe : ∀ {x}, some x ≠ some e.origin → x ≠ e.origin :=
    fun hx hSame => hx (congrArg some hSame)
  cases job with
  | start x recipe args limit => exact h.start (hNe hSite) recipe args limit
  | drive x input => exact h.drive (hNe hSite) input
  | invoke x work => exact h.invoke (hNe hSite) work
  | check x => exact h.check (hNe hSite)
  | items x index rest => exact h.items (hNe hSite) index rest
  | hold x hold =>
    refine ⟨h.world, ?_, h.nodes, h.agenda⟩
    have hHeld : (m.held ++ [Held.mk x hold]).map e.held = m'.held ++ [⟨e.place x, hold⟩] := by
      rw [List.map_append, h.held]
      rfl
    exact hHeld.symm
  | poke k => exact h.poke k
  | tell => exact h
  | deliver x o =>
    refine (h.returned (fun n hx => ?_) o).1
    exact hSite (hx ▸ rfl)
  | drop x =>
    refine (h.returned (fun n hx => ?_) (.ok .null)).2
    exact hSite (hx ▸ rfl)

end Alike

end Relocation

end Interlace
