import Interlace.Proofs.Delivery
import Interlace.Proofs.Passage

/-!
# Two machines abreast

One machine has a child on its parent's stack, and another one has the same child on a stack of its
own. They go abreast until the child ends: a job of the first one is the same job under the new
names in the second one, which then passes on to the parent what the child has come to.
-/

namespace Interlace

variable {b : Behaviour}

namespace Detour

variable (e : Detour b)

/-- Until the run with the child is parked, the job that goes on with it is the last one of the call
that invoked the child. What the second machine has still to do in this call comes after that. -/
inductive Lines : Bool → List (Job b) → List (Job b) → Prop where
  | calling {above below : List (Job b)} {steer : Job b} (hSteers : steer.steers e.place = true) :
      Lines false (above ++ steer :: below)
        (above.map e.relocation.job ++ e.relocation.job steer ::
          (e.late false ++ below.map e.relocation.job))
  | parked (jobs : List (Job b)) : Lines true jobs (jobs.map e.relocation.job)

structure Abreast (parked : Bool) (m m' : Machine b) : Prop where
  alike : e.relocation.Alike m.agenda m'.agenda m m'
  lines : e.Lines parked m.agenda m'.agenda
  parent : m'.nodes.find? e.place = some (.run (e.parent parked))
  join : e.way = .joined →
    m'.nodes.find? (e.wait :: e.place) = some (.gather (.ofOne (if parked then 1 else 2)))
  child : ∃ r c, m.nodes.find? e.place = some (.run r) ∧
    m'.nodes.find? e.child = some (.run c) ∧ e.Split r c ∧ r.wasParked = (e.wasParked || parked)

structure Resumed (parked : Bool) (o : Outcome) (m m' : Machine b) : Prop where
  alike : e.relocation.Alike m.agenda m'.agenda m m'
  agenda : ∃ rest, m.agenda = .drive e.place (.ofOutcome o) :: rest ∧
    m'.agenda = .drive e.place (e.way.input o) :: rest.map e.relocation.job
  run : ∃ r, m.nodes.find? e.place = some (.run r) ∧ r.frames.frames = e.under ∧
    r.frames.limit = e.limit ∧ r.phase = .driving ∧ r.wasParked = (e.wasParked || parked)
  parent : m'.nodes.find? e.place = some (.run (e.resumed parked))

/-- What comes of both machines when they do the job that comes next. -/
inductive Onward (parked : Bool) (m m' : Machine b) (job : Job b) (rest : List (Job b)) : Prop where
  | goes {rest' : List (Job b)} {m'' : Machine b}
      (hAgenda' : m'.agenda = e.relocation.job job :: rest')
      (hPasses : e.Passes (m'.afterJob (e.relocation.job job) rest') m'')
      (hParks : ¬ ∃ r u, job = .check e.place ∧ m.nodes.find? e.place = some (.run r) ∧
        r.phase = .invoking u .empty)
      (hAbreast : e.Abreast parked (m.afterJob job rest) m'') : Onward parked m m' job rest
  | parks {rest' : List (Job b)} {m'' : Machine b} {r : Run b} {u : Uptake}
      (hAgenda' : m'.agenda = e.relocation.job job :: rest')
      (hPasses : e.Passes (m'.afterJob (e.relocation.job job) rest') m'')
      (hJob : job = .check e.place) (hFind : m.nodes.find? e.place = some (.run r))
      (hPhase : r.phase = .invoking u .empty)
      (hAbreast : e.Abreast true (m.afterJob job rest) m'') :
      Onward parked m m' job rest
  | ends {rest' : List (Job b)} {m'' : Machine b} {x : Input} {r c : Run b} {f : Frame b.Body}
      {o : Outcome} (hAgenda' : m'.agenda = e.relocation.job job :: rest')
      (hPasses : e.Passes (m'.afterJob (e.relocation.job job) rest') m'')
      (hJob : job = .drive e.place x) (hFind : m.nodes.find? e.place = some (.run r))
      (hTop : r.frames.top? = some f) (hSerial : f.serial = e.pushed)
      (hEnded : (b.step f.body x m.world).1.ended? = some o)
      (hFind' : m'.nodes.find? e.child = some (.run c))
      (hTurn' : (c.frames.turn b x m'.world).turn = .finished o)
      (hResumed : e.Resumed parked o (m.afterJob job rest) m'') : Onward parked m m' job rest
  | gone (hFind : (m.afterJob job rest).nodes.find? e.place = none)
      (hDrop : .drop e.place ∈ (m.afterJob job rest).agenda) : Onward parked m m' job rest

variable {e}

/-! ## Names -/

theorem place_ne {x y : Place} (hx : x ≠ e.place)
    (hy : y = e.place ∨ y = e.wait :: e.place ∨ y = e.child) : e.relocation.place x ≠ y := by
  rcases hy with rfl | rfl | rfl
  · exact Relocation.place_ne_origin (e := e.relocation) hx
  · refine Relocation.place_ne (e := e.relocation) ⟨[], e.wait, Nat.le_refl _, rfl⟩ ?_
    change _ ≤ e.child.length
    rw [child]
    cases e.way <;> simp [Way.place]
  · exact Relocation.place_ne_target (e := e.relocation) x

theorem not_passing (job : Job b) : ¬ e.Passing (e.relocation.job job) := by
  have hPlace : ∀ {x : Place}, e.relocation.place x ≠ e.child ∧
      e.relocation.place x ≠ e.wait :: e.place := by
    intro x
    by_cases hx : x = e.place
    · have hOrigin : e.relocation.place e.place = e.place := Relocation.place_origin
      rw [hx, hOrigin]
      exact ⟨child_ne_place.symm, wait_ne_place.symm⟩
    · exact ⟨place_ne hx (Or.inr (Or.inr rfl)), place_ne hx (Or.inr (Or.inl rfl))⟩
  cases job with
  | start x => exact hPlace.1
  | invoke x | deliver x =>
    rintro (h | h)
    · exact hPlace.1 h
    · exact hPlace.2 h
  | items x => exact hPlace.2
  | check x => exact Relocation.site_ne_origin (e := e.relocation) x
  | drive | hold | poke | tell | drop => exact id

theorem job_drive (x : Input) :
    e.relocation.job (.drive e.place x : Job b) = .drive e.child x :=
  congrArg (Job.drive · x) (Relocation.site_origin (e := e.relocation))

theorem job_check : e.relocation.job (.check e.place : Job b) = .check e.child :=
  congrArg Job.check (Relocation.site_origin (e := e.relocation))

theorem Split.place_wait {r c : Run b} (h : e.Split r c) :
    e.relocation.place (r.wait :: e.place) = c.wait :: e.child := by
  rw [h.wait]
  exact Relocation.place_wait (e := e.relocation) c.wait

theorem Passes.alike {m m' m'' : Machine b} {base base' : List (Job b)} (h : e.Passes m' m'')
    (hAlike : e.relocation.Alike base base' m m') (hWorld : m''.world = m'.world)
    (hHeld : m''.held = m'.held) : e.relocation.Alike m.agenda m''.agenda m m'' := by
  refine ⟨hWorld.trans hAlike.world, hHeld.trans hAlike.held, fun x hx => ?_, [], rfl, rfl⟩
  rw [h.nodes fun hy => place_ne hx hy rfl]
  exact hAlike.nodes x hx

/-! ## The job that comes next -/

namespace Lines

theorem first (steer : Job b) (below : List (Job b)) (hSteers : steer.steers e.place = true) :
    e.Lines false (steer :: below)
      (e.relocation.job steer :: (e.late false ++ below.map e.relocation.job)) :=
  @calling _ e [] below steer hSteers

/-- Both machines do the same job, and go on with the same jobs. A job that goes on with the run of
the child puts another such job behind all others that it puts. -/
theorem step {parked : Bool} {job : Job b} {rest agenda' : List (Job b)}
    (h : e.Lines parked (job :: rest) agenda')
    (hOnce : job.steers e.place = true → ∀ other ∈ rest, other.steers e.place = false) :
    ∃ rest', agenda' = e.relocation.job job :: rest' ∧ ∀ put,
      (job.steers e.place = true → ∃ others steer, put = others ++ [steer] ∧
        steer.steers e.place = true) →
      e.Lines parked (put ++ rest) (put.map e.relocation.job ++ rest') := by
  generalize hAgenda : job :: rest = agenda at h
  cases h with
  | parked =>
    subst hAgenda
    refine ⟨_, rfl, fun put _ => ?_⟩
    rw [← List.map_append]
    exact .parked _
  | @calling above below steer hSteers =>
    cases above with
    | nil =>
      cases hAgenda
      refine ⟨_, rfl, fun put hPut => ?_⟩
      obtain ⟨others, steer, rfl, hNext⟩ := hPut hSteers
      rw [List.map_append, List.append_assoc, List.append_assoc]
      exact .calling hNext
    | cons first above =>
      rw [List.cons_append] at hAgenda
      obtain ⟨rfl, rfl⟩ := List.cons.inj hAgenda
      refine ⟨above.map e.relocation.job ++ e.relocation.job steer ::
        (e.late false ++ below.map e.relocation.job), rfl, fun put _ => ?_⟩
      rw [← List.append_assoc, ← List.append_assoc, ← List.map_append]
      exact .calling hSteers

theorem last {parked : Bool} {job : Job b} {rest agenda' : List (Job b)}
    (h : e.Lines parked (job :: rest) agenda')
    (hOnce : ∀ other ∈ rest, other.steers e.place = false) :
    agenda' = e.relocation.job job :: (e.late parked ++ rest.map e.relocation.job) := by
  generalize hAgenda : job :: rest = agenda at h
  cases h with
  | parked =>
    subst hAgenda
    rfl
  | @calling above below steer hSteers =>
    cases above with
    | nil =>
      cases hAgenda
      rfl
    | cons first above =>
      obtain ⟨rfl, rfl⟩ := List.cons.inj hAgenda
      have hFalse := hOnce steer (by simp)
      rw [hSteers] at hFalse
      cases hFalse

theorem head? {parked : Bool} {agenda agenda' : List (Job b)} (h : e.Lines parked agenda agenda') :
    agenda'.head? = agenda.head?.map e.relocation.job := by
  cases h with
  | parked => exact List.head?_map
  | @calling above below steer =>
    cases above with
    | nil => rfl
    | cons first above => rfl

theorem push {parked : Bool} {agenda agenda' : List (Job b)} (h : e.Lines parked agenda agenda')
    (put : List (Job b)) :
    e.Lines parked (put ++ agenda) (put.map e.relocation.job ++ agenda') := by
  cases h with
  | parked =>
    rw [← List.map_append]
    exact .parked _
  | calling hSteers =>
    rw [← List.append_assoc, ← List.append_assoc, ← List.map_append]
    exact .calling hSteers

end Lines

theorem Abreast.clear {parked : Bool} {m m' : Machine b} (h : e.Abreast parked m m') :
    e.Clear m' := by
  intro job rest hAgenda hPassing
  have hHead := h.lines.head?
  rw [hAgenda, List.head?_cons] at hHead
  obtain ⟨job', -, rfl⟩ := Option.map_eq_some_iff.mp hHead.symm
  exact not_passing job' hPassing

theorem Resumed.clear {parked : Bool} {o : Outcome} {m m' : Machine b}
    (h : e.Resumed parked o m m') : e.Clear m' := by
  intro job rest hAgenda hPassing
  obtain ⟨below, -, hAgenda'⟩ := h.agenda
  rw [hAgenda] at hAgenda'
  obtain ⟨rfl, -⟩ := List.cons.inj hAgenda'
  exact hPassing

namespace Abreast

variable {parked : Bool} {h : History b} {m' : Machine b} {job : Job b} {rest : List (Job b)}

section

variable (hAbreast : e.Abreast parked h.machine m') (hs : h.Sound)
  (hAgenda : h.machine.agenda = job :: rest)
include hAbreast hs hAgenda

theorem step : ∃ rest', m'.agenda = e.relocation.job job :: rest' ∧ ∀ put,
    (job.steers e.place = true → ∃ others steer, put = others ++ [steer] ∧
      steer.steers e.place = true) →
    e.Lines parked (put ++ rest) (put.map e.relocation.job ++ rest') := by
  have hLines := hAbreast.lines
  rw [hAgenda] at hLines
  exact hLines.step fun hSteers => hs.steers_once hAgenda hSteers

theorem last (hSteers : job.steers e.place = true) :
    m'.agenda = e.relocation.job job :: (e.late parked ++ rest.map e.relocation.job) := by
  have hLines := hAbreast.lines
  rw [hAgenda] at hLines
  exact hLines.last (hs.steers_once hAgenda hSteers)

theorem elsewhere (hSite : job.site ≠ some e.place) : e.Onward parked h.machine m' job rest := by
  obtain ⟨rest', hAgenda', hLines⟩ := hAbreast.step hs hAgenda
  have hAlike := (hAbreast.alike.withAgenda rest rest').perform hSite
  have hOther : job.steers e.place ≠ true := by
    intro hSteers
    cases job <;> simp [Job.steers] at hSteers
    all_goals exact hSite (congrArg some hSteers)
  have hSame : ∀ y, y = e.place ∨ y = e.wait :: e.place ∨ y = e.child →
      (m'.afterJob (e.relocation.job job) rest').nodes.find? y = m'.nodes.find? y := by
    intro y hy
    refine (Machine.local_perform (m := { m' with agenda := rest' }) _).nodes y ?_
    exact Relocation.site_job_ne hSite fun x hx => place_ne hx hy
  obtain ⟨r, c, hRun, hChild, hSplit, hParked⟩ := hAbreast.child
  refine .goes hAgenda' (.refl _) ?_ ⟨?_, ?_, ?_, ?_, r, c, ?_, ?_, hSplit, hParked⟩
  · rintro ⟨r, u, rfl, -⟩
    exact hSite rfl
  · exact ⟨hAlike.world, hAlike.held, hAlike.nodes, [], rfl, rfl⟩
  · obtain ⟨put, hPut, hPut'⟩ := hAlike.agenda
    rw [Machine.afterJob, Machine.afterJob, hPut, hPut']
    exact hLines put fun hSteers => absurd hSteers hOther
  · exact (hSame _ (Or.inl rfl)).trans hAbreast.parent
  · intro hWay
    exact (hSame _ (Or.inr (Or.inl rfl))).trans (hAbreast.join hWay)
  · rw [← h.machine_afterJob, History.find?_afterJob hSite]
    exact hRun
  · exact (hSame _ (Or.inr (Or.inr rfl))).trans hChild

theorem effect {job' : Job b} (hJob : e.relocation.job job = job') {events : List (Event b)}
    {world world' : b.World} {put put' : List (Job b)} {r c : Run b}
    (hPerform : { h.machine with agenda := rest }.perform job = (events, { h.machine with
      world := world
      nodes := h.machine.nodes.update e.place (some (.run r))
      agenda := put ++ rest }))
    (hPerform' : ∀ rest', ∃ events', { m' with agenda := rest' }.perform job' = (events', { m' with
      world := world'
      nodes := m'.nodes.update e.child (some (.run c))
      agenda := put' ++ rest' }))
    (hWorld : world = world') (hMap : put.map e.relocation.job = put')
    (hParks : ¬ ∃ r u, job = .check e.place ∧ h.machine.nodes.find? e.place = some (.run r) ∧
      r.phase = .invoking u .empty)
    (hPut : job.steers e.place = true → ∃ others steer, put = others ++ [steer] ∧
      steer.steers e.place = true)
    (hSplit : e.Split r c) (hParked : r.wasParked = (e.wasParked || parked)) :
    e.Onward parked h.machine m' job rest := by
  subst hJob hWorld hMap
  obtain ⟨rest', hAgenda', hLines⟩ := hAbreast.step hs hAgenda
  obtain ⟨events', hPerform'⟩ := hPerform' rest'
  have hAlike := ((hAbreast.alike.withAgenda (put ++ rest)
    (put.map e.relocation.job ++ rest')).setWorld world).updateOrigin
      (some (.run r)) (some (.run c))
  have hSame : ∀ y, y ≠ e.child → (m'.nodes.update e.child (some (.run c))).find? y =
      m'.nodes.find? y := fun y hy => Table.find?_update_of_ne _ _ hy
  refine .goes hAgenda' (.refl _) hParks ?_
  rw [Machine.afterJob, Machine.afterJob, hPerform, hPerform']
  refine ⟨?_, hLines put hPut, ?_, ?_, r, c, ?_, ?_, hSplit, hParked⟩
  · exact ⟨hAlike.world, hAlike.held, hAlike.nodes, [], rfl, rfl⟩
  · exact (hSame _ child_ne_place.symm).trans hAbreast.parent
  · intro hWay
    exact (hSame _ fun h => aside_child hWay h.symm).trans (hAbreast.join hWay)
  · exact Table.find?_update_self _ _ _
  · exact Table.find?_update_self _ _ _

end

section

variable (hAbreast : e.Abreast parked h.machine m') (hs : h.Sound) {r c : Run b}
  (hRun : h.machine.nodes.find? e.place = some (.run r))
  (hChild : m'.nodes.find? e.child = some (.run c)) (hSplit : e.Split r c)
  (hParked : r.wasParked = (e.wasParked || parked))
include hAbreast hs hRun hChild hSplit hParked

theorem drive {x : Input} (hAgenda : h.machine.agenda = .drive e.place x :: rest) {t t' : Turned b}
    (ht : r.frames.turn b x h.machine.world = t) (ht' : c.frames.turn b x m'.world = t')
    (hTurn : t.turn = t'.turn) (hWorld : t.world = t'.world)
    (hGoes : (∃ x, t'.turn = .next x) ∨ ∃ work u, t'.turn = .await work u)
    (hNext : e.Split { r with frames := t.frames } { c with frames := t'.frames }) :
    e.Onward parked h.machine m' (.drive e.place x) rest := by
  subst ht ht'
  rcases hGoes with ⟨y, hGoes⟩ | ⟨work, u, hGoes⟩
  · exact hAbreast.effect hs hAgenda (job_drive x)
      (Machine.perform_drive_next (m := { h.machine with agenda := rest }) hRun (hTurn.trans hGoes))
      (fun rest' => ⟨_, Machine.perform_drive_next (m := { m' with agenda := rest' }) hChild hGoes⟩)
      hWorld (congrArg (· :: []) (job_drive y)) (by simp)
      (fun _ => ⟨[], _, rfl, by simp [Job.steers]⟩) hNext hParked
  · have hMap : [Job.invoke (r.wait :: e.place) work, .check e.place].map e.relocation.job =
        [.invoke (c.wait :: e.child) work, .check e.child] := by
      rw [← hSplit.place_wait, ← job_check]
      rfl
    refine hAbreast.effect hs hAgenda (job_drive x)
      (c := { c with frames := (c.frames.turn b x m'.world).frames, phase := .invoking u .empty })
      (Machine.perform_drive_await (m := { h.machine with agenda := rest })
        hRun (hTurn.trans hGoes))
      (fun rest' =>
        ⟨_, Machine.perform_drive_await (m := { m' with agenda := rest' }) hChild hGoes⟩)
      hWorld hMap (by simp) (fun _ => ⟨[_], _, rfl, by simp [Job.steers]⟩) ?_ hParked
    exact ⟨hNext.frames, hNext.bottom, hNext.limit, hNext.limit_child, hNext.pushed, hNext.wait,
      rfl⟩

theorem resume {u : Uptake} {o : Outcome} (hAgenda : h.machine.agenda = .check e.place :: rest)
    (hPhase : r.phase = .invoking u (.outcome o)) :
    e.Onward parked h.machine m' (.check e.place) rest := by
  have hParks : ¬ ∃ r u, (.check e.place : Job b) = .check e.place ∧
      h.machine.nodes.find? e.place = some (.run r) ∧ r.phase = .invoking u .empty := by
    rintro ⟨r', u', -, hFind, hEmpty⟩
    rw [hRun] at hFind
    cases hFind
    rw [hPhase] at hEmpty
    cases hEmpty
  refine hAbreast.effect hs hAgenda job_check
    (Machine.perform_check_outcome (m := { h.machine with agenda := rest }) hRun hPhase)
    (fun rest' => ⟨_, Machine.perform_check_outcome (m := { m' with agenda := rest' }) hChild
      (hSplit.phase ▸ hPhase)⟩)
    hAbreast.alike.world.symm (congrArg (· :: []) (job_drive _)) hParks
    (fun _ => ⟨[], _, rfl, by simp [Job.steers]⟩) ?_ hParked
  refine ⟨hSplit.frames, hSplit.bottom, hSplit.limit, hSplit.limit_child, hSplit.pushed, ?_, rfl⟩
  change r.wait + 1 = e.wait + (c.wait + 1)
  rw [hSplit.wait, Nat.add_assoc]

theorem mail {u : Uptake} {o : Outcome}
    (hAgenda : h.machine.agenda = .deliver (r.wait :: e.place) o :: rest)
    (hPhase : r.phase = .invoking u .empty) :
    e.Onward parked h.machine m' (.deliver (r.wait :: e.place) o) rest :=
  hAbreast.effect hs hAgenda (congrArg (Job.deliver · o) hSplit.place_wait)
    (Machine.perform_deliver_invoking (m := { h.machine with agenda := rest }) hRun rfl hPhase)
    (fun rest' => ⟨_, Machine.perform_deliver_invoking (m := { m' with agenda := rest' }) hChild rfl
      (hSplit.phase ▸ hPhase)⟩)
    hAbreast.alike.world.symm rfl (by simp) (by simp [Job.steers])
    ⟨hSplit.frames, hSplit.bottom, hSplit.limit, hSplit.limit_child, hSplit.pushed, hSplit.wait,
      rfl⟩
    hParked

theorem lose {u : Uptake} (hAgenda : h.machine.agenda = .drop (r.wait :: e.place) :: rest)
    (hPhase : r.phase = .invoking u .empty) :
    e.Onward parked h.machine m' (.drop (r.wait :: e.place)) rest :=
  hAbreast.effect hs hAgenda (congrArg Job.drop hSplit.place_wait)
    (Machine.perform_drop_invoking (m := { h.machine with agenda := rest }) hRun rfl hPhase)
    (fun rest' => ⟨_, Machine.perform_drop_invoking (m := { m' with agenda := rest' }) hChild rfl
      (hSplit.phase ▸ hPhase)⟩)
    hAbreast.alike.world.symm rfl (by simp) (by simp [Job.steers])
    ⟨hSplit.frames, hSplit.bottom, hSplit.limit, hSplit.limit_child, hSplit.pushed, hSplit.wait,
      rfl⟩
    hParked

theorem wake {u : Uptake} {o : Outcome}
    (hAgenda : h.machine.agenda = .deliver (r.wait :: e.place) o :: rest)
    (hPhase : r.phase = .parked u) :
    e.Onward parked h.machine m' (.deliver (r.wait :: e.place) o) rest := by
  refine hAbreast.effect hs hAgenda (congrArg (Job.deliver · o) hSplit.place_wait)
    (Machine.perform_deliver_parked (m := { h.machine with agenda := rest }) hRun rfl hPhase)
    (fun rest' => ⟨_, Machine.perform_deliver_parked (m := { m' with agenda := rest' }) hChild rfl
      (hSplit.phase ▸ hPhase)⟩)
    hAbreast.alike.world.symm (congrArg (· :: []) (job_drive _)) (by simp) (by simp [Job.steers]) ?_
    hParked
  refine ⟨hSplit.frames, hSplit.bottom, hSplit.limit, hSplit.limit_child, hSplit.pushed, ?_, rfl⟩
  change r.wait + 1 = e.wait + (c.wait + 1)
  rw [hSplit.wait, Nat.add_assoc]

omit hParked in
theorem park {u : Uptake} (hAgenda : h.machine.agenda = .check e.place :: rest)
    (hPhase : r.phase = .invoking u .empty) :
    e.Onward parked h.machine m' (.check e.place) rest := by
  have hAgenda' := hAbreast.last hs hAgenda (by simp [Job.steers])
  have hPark := Machine.perform_check_empty (m := { h.machine with agenda := rest }) hRun hPhase
  have hPark' := Machine.perform_check_empty
    (m := { m' with agenda := e.late parked ++ rest.map e.relocation.job }) hChild
    (hSplit.phase ▸ hPhase)
  have hSame : ∀ y node, y ≠ e.child → (m'.nodes.update e.child node).find? y = m'.nodes.find? y :=
    fun y node hy => Table.find?_update_of_ne _ _ hy
  have hAlike := hAbreast.alike.updateOrigin
    (some (.run { r with phase := .parked u, wasParked := true }))
    (some (.run { c with phase := .parked u, wasParked := true }))
  -- What the second machine does for the parent, it does before anything else can happen.
  obtain ⟨nodes, hPasses, hParent, hJoin, hNodes⟩ := passes_park (e := e)
    (m := { m' with
      nodes := m'.nodes.update e.child
        (some (.run { c with phase := .parked u, wasParked := true }))
      agenda := e.late parked ++ rest.map e.relocation.job })
    rfl ((hSame _ _ child_ne_place.symm).trans hAbreast.parent)
    (fun hWay => (hSame _ _ fun h => aside_child hWay h.symm).trans (hAbreast.join hWay))
  have hSplit' : e.Split { r with phase := .parked u, wasParked := true }
      { c with phase := .parked u, wasParked := true } :=
    ⟨hSplit.frames, hSplit.bottom, hSplit.limit, hSplit.limit_child, hSplit.pushed, hSplit.wait,
      rfl⟩
  have hPasses' : e.Passes (m'.afterJob (e.relocation.job (.check e.place))
      (e.late parked ++ rest.map e.relocation.job))
      { m' with nodes := nodes, agenda := rest.map e.relocation.job } := by
    rw [job_check, Machine.afterJob, hPark']
    exact hPasses
  refine .parks hAgenda' hPasses' rfl hRun hPhase
    ⟨?_, ?_, hParent, hJoin, _, _, ?_, ?_, hSplit', ?_⟩
  · rw [Machine.afterJob, hPark]
    exact hPasses.alike (hAlike.withAgenda rest _) rfl rfl
  · rw [Machine.afterJob, hPark]
    exact .parked rest
  · rw [Machine.afterJob, hPark]
    exact Table.find?_update_self _ _ _
  · exact (hNodes _ aside_child child_ne_place).trans (Table.find?_update_self _ _ _)
  · simp

omit hSplit in
theorem ends {x : Input} (hAgenda : h.machine.agenda = .drive e.place x :: rest)
    {f : Frame b.Body} {o : Outcome} {t t' : Turned b} (hTop : r.frames.top? = some f)
    (hSerial : f.serial = e.pushed)
    (hEnded : (b.step f.body x h.machine.world).1.ended? = some o) (hPhase : r.phase = .driving)
    (ht : r.frames.turn b x h.machine.world = t) (ht' : c.frames.turn b x m'.world = t')
    (hTurn : t.turn = .next (.ofOutcome o)) (hTurn' : t'.turn = .finished o)
    (hWorld : t.world = t'.world) (hFrames : t.frames.frames = e.under)
    (hLimit : t.frames.limit = e.limit) :
    e.Onward parked h.machine m' (.drive e.place x) rest := by
  subst ht ht'
  have hAgenda' := hAbreast.last hs hAgenda (by simp [Job.steers])
  have hNext := Machine.perform_drive_next (m := { h.machine with agenda := rest }) hRun hTurn
  have hFinish := Machine.perform_drive_finished
    (m := { m' with agenda := e.late parked ++ rest.map e.relocation.job }) hChild hTurn'
    (not_escapes c.wasParked o)
  have hSame : ∀ y, y ≠ e.child → (m'.nodes.update e.child none).find? y = m'.nodes.find? y :=
    fun y hy => Table.find?_update_of_ne _ _ hy
  have hAlike := (hAbreast.alike.setWorld (r.frames.turn b x h.machine.world).world).updateOrigin
    (some (.run { r with frames := (r.frames.turn b x h.machine.world).frames })) none
  obtain ⟨nodes, hPasses, hParent⟩ := passes_end (e := e) (o := o)
    (m := { m' with
      world := (r.frames.turn b x h.machine.world).world
      nodes := m'.nodes.update e.child none
      agenda := .deliver e.child o :: (e.late parked ++ rest.map e.relocation.job) })
    rfl ((hSame _ child_ne_place.symm).trans hAbreast.parent)
    (fun hWay => (hSame _ fun h => aside_child hWay h.symm).trans (hAbreast.join hWay))
  have hPasses' : e.Passes (m'.afterJob (e.relocation.job (.drive e.place x))
      (e.late parked ++ rest.map e.relocation.job)) { m' with
        world := (r.frames.turn b x h.machine.world).world
        nodes := nodes
        agenda := .drive e.place (e.way.input o) :: rest.map e.relocation.job } := by
    rw [job_drive, Machine.afterJob, hFinish, ← hWorld]
    exact hPasses
  refine .ends hAgenda' hPasses' rfl hRun hTop hSerial hEnded hChild hTurn'
    ⟨?_, ⟨rest, ?_, rfl⟩, ?_, hParent⟩
  · rw [Machine.afterJob, hNext]
    exact hPasses.alike (hAlike.withAgenda _ _) rfl rfl
  · rw [Machine.afterJob, hNext]
    rfl
  · rw [Machine.afterJob, hNext]
    exact ⟨_, Table.find?_update_self _ _ _, hFrames, hLimit, hPhase, hParked⟩

end

/-- The two machines go on abreast until the child has ended or is given up. -/
theorem onward (hAbreast : e.Abreast parked h.machine m') (hs : h.Sound) (hUnder : e.under ≠ [])
    (hAgenda : h.machine.agenda = job :: rest)
    (hRoom : ∀ x r f recipe, job = .drive e.place x →
      h.machine.nodes.find? e.place = some (.run r) → r.frames.top? = some f →
      (b.step f.body x h.machine.world).1 = .wait (.inner recipe) →
        r.frames.depth < r.frames.limit) : e.Onward parked h.machine m' job rest := by
  obtain ⟨r, c, hRun, hChild, hSplit, hParked⟩ := hAbreast.child
  have hDriven : ∀ {x}, History.Sound.Driven h e.place x rest r → job = .drive e.place x →
      e.Onward parked h.machine m' job rest := by
    rintro x hDriven rfl
    have hTurn := hSplit.turn hUnder hDriven.poised (w := h.machine.world)
      fun f hTop recipe hAnswer => hRoom x r f recipe rfl hRun hTop hAnswer
    have hLimit := (Frames.turn_sound hDriven.poised h.machine.world).1
    have hSame : c.frames.turn b x m'.world = c.frames.turn b x h.machine.world := by
      rw [hAbreast.alike.world]
    generalize ht : r.frames.turn b x h.machine.world = t at hTurn hLimit
    generalize c.frames.turn b x h.machine.world = t' at hTurn hSame
    cases hTurn with
    | goes hTurn hWorld hGoes hNext =>
      exact hAbreast.drive hs hRun hChild hSplit hParked hAgenda ht hSame hTurn hWorld hGoes hNext
    | ends hTop hSerial hEnded hTurn hTurn' hWorld hFrames =>
      exact hAbreast.ends hs hRun hChild hParked hAgenda hTop hSerial hEnded hDriven.phase ht hSame
        hTurn hTurn' hWorld hFrames (hLimit.trans hSplit.limit)
  cases hs.run_step hAgenda hRun with
  | elsewhere hSite => exact hAbreast.elsewhere hs hAgenda hSite
  | next h | await h | finish h | escape _ h => exact hDriven h rfl
  | park hPhase => exact hAbreast.park hs hRun hChild hSplit hAgenda hPhase
  | resume hPhase => exact hAbreast.resume hs hRun hChild hSplit hParked hAgenda hPhase
  | mail hPhase => exact hAbreast.mail hs hRun hChild hSplit hParked hAgenda hPhase
  | wake hPhase => exact hAbreast.wake hs hRun hChild hSplit hParked hAgenda hPhase
  | lose hPhase => exact hAbreast.lose hs hRun hChild hSplit hParked hAgenda hPhase
  | giveUp _ hDoes | abandon _ hDoes =>
    refine .gone hDoes.node ?_
    rw [← h.machine_afterJob, hDoes.agenda]
    simp

/-! ## Acts from outside -/

theorem put {m : Machine b} (hAbreast : e.Abreast parked m m') (held : List Held)
    (put : List (Job b)) : e.Abreast parked { m with held := held, agenda := put ++ m.agenda }
      { m' with
        held := held.map e.relocation.held
        agenda := put.map e.relocation.job ++ m'.agenda } := by
  have hAlike := (hAbreast.alike.setHeld held).withAgenda (put ++ m.agenda)
    (put.map e.relocation.job ++ m'.agenda)
  exact ⟨⟨hAlike.world, hAlike.held, hAlike.nodes, [], rfl, rfl⟩, hAbreast.lines.push put,
    hAbreast.parent, hAbreast.join, hAbreast.child⟩

theorem act {m : Machine b} (hAbreast : e.Abreast parked m m') (act : Machine.Act b) :
    e.Abreast parked (m.act act) (m'.act (e.relocation.act act)) := by
  have hTake : ∀ x, takePlace (e.relocation.place x) m'.held =
      (takePlace x m.held).map (List.map e.relocation.held) := by
    intro x
    rw [hAbreast.alike.held]
    exact Relocation.takePlace_held x m.held
  cases act with
  | begin n recipe args limit =>
    have hTop : e.relocation.place [n] = [n] := Relocation.place_top.mpr rfl
    have hPut := hAbreast.put m.held [.start [n] recipe args limit]
    rw [← hAbreast.alike.held] at hPut
    simpa [Machine.act, Machine.push, Relocation.act, Relocation.job, hTop] using hPut
  | call x o =>
    rw [Relocation.act, Machine.act, Machine.act, hTake]
    cases takePlace x m.held with
    | none => exact hAbreast
    | some held => exact hAbreast.put held [.deliver x o]
  | drop x =>
    rw [Relocation.act, Machine.act, Machine.act, hTake]
    cases takePlace x m.held with
    | none => exact hAbreast
    | some held => exact hAbreast.put held [.drop x]

theorem move {h' : History b} (hAbreast : e.Abreast parked h.machine h'.machine)
    (hBegun : h'.begun = h.begun) {mv : Move b} (hIdle : mv = .work → h.machine.agenda = []) :
    e.Abreast parked (h.move mv).machine (h'.move (e.relocation.move mv)).machine := by
  cases mv with
  | work =>
    have hAgenda := hIdle rfl
    have hHead := hAbreast.lines.head?
    rw [hAgenda] at hHead
    have hAgenda' : h'.machine.agenda = [] := List.head?_eq_none_iff.mp hHead
    rw [Relocation.move, History.move, History.move, hAgenda, hAgenda']
    exact hAbreast
  | begin n recipe args limit =>
    rw [Relocation.move, History.move, History.move, hBegun]
    split
    · exact hAbreast
    · exact hAbreast.act (.begin n recipe args limit)
  | call x o => exact hAbreast.act (.call x o)
  | drop x => exact hAbreast.act (.drop x)

end Abreast

end Detour

end Interlace
