import Interlace.Proofs.Steps

/-!
# What a job means for one place

A job changes at most what stands at its `site`. For a run and for a join, `RunStep` and `JoinStep`
list what a job can mean for it in a sound history, with the effect of the job in each case.
-/

namespace Interlace

variable {b : Behaviour}

/-- The place whose run or join a job may change. -/
def Job.site : Job b → Option Place
  | .start p _ _ _ | .drive p _ | .invoke p _ | .check p | .items p _ _ => some p
  | .deliver (_ :: p) _ | .drop (_ :: p) => some p
  | _ => none

def Job.returned? : Job b → Option (Place × Option Outcome)
  | .deliver p o => some (p, some o)
  | .drop p => some (p, none)
  | _ => none

def Event.returned? : Event b → Option (Place × Option Outcome)
  | .called p o => some (p, some o)
  | .dropped p => some (p, none)
  | _ => none

namespace Machine

variable {m : Machine b}

/-- A part of a step that changes at most what stands at `p`, and puts jobs on the agenda, of which
none drops another continuation. -/
structure Local (m m' : Machine b) (p : Option Place) : Prop where
  nodes : ∀ q, p ≠ some q → m'.nodes.find? q = m.nodes.find? q
  agenda : ∃ put, m'.agenda = put ++ m.agenda ∧ ∀ x, .drop x ∈ put → p = some x

theorem Local.refl (p : Option Place) : Local m m p := ⟨fun _ _ => rfl, [], rfl, by simp⟩

theorem Local.trans {m' m'' : Machine b} {p : Option Place} (h : Local m m' p)
    (h' : Local m' m'' p) : Local m m'' p := by
  obtain ⟨put, hPut, hDrops⟩ := h.agenda
  obtain ⟨put', hPut', hDrops'⟩ := h'.agenda
  refine ⟨fun q hq => (h'.nodes q hq).trans (h.nodes q hq), put' ++ put, ?_, fun x hx => ?_⟩
  · rw [hPut', hPut, List.append_assoc]
  · rcases List.mem_append.mp hx with hx | hx
    · exact hDrops' x hx
    · exact hDrops x hx

theorem local_push (jobs : List (Job b)) (p : Option Place)
    (hDrops : ∀ x, .drop x ∈ jobs → p = some x) : Local m (m.push jobs) p :=
  ⟨fun _ _ => rfl, jobs, rfl, hDrops⟩

theorem local_world (world : b.World) (p : Option Place) : Local m { m with world } p :=
  ⟨fun _ _ => rfl, [], rfl, by simp⟩

theorem local_setRun (p : Place) (r : Run b) : Local m (m.setRun p r) (some p) := by
  refine ⟨fun q hq => ?_, [], rfl, by simp⟩
  exact m.nodes.find?_insert_of_ne _ fun h => hq (congrArg some h.symm)

theorem local_setGather (p : Place) (g : Gather) : Local m (m.setGather p g) (some p) := by
  refine ⟨fun q hq => ?_, [], rfl, by simp⟩
  exact m.nodes.find?_insert_of_ne _ fun h => hq (congrArg some h.symm)

theorem local_remove (p : Place) : Local m (m.remove p) (some p) := by
  refine ⟨fun q hq => ?_, [], rfl, by simp⟩
  exact m.nodes.find?_erase_of_ne fun h => hq (congrArg some h.symm)

theorem local_finish (p : Place) (wasParked : Bool) (o : Outcome) (q : Option Place) :
    Local m (m.finish p wasParked o).2 q := by
  fun_cases Machine.finish m p wasParked o with
  | case1 => exact .refl q
  | case2 | case3 => exact local_push _ q (by simp)

theorem local_release (p : Place) (g : Gather) : Local m (m.release p g) (some p) := by
  rw [release_eq]
  refine ⟨fun q hq => ?_, _, rfl, fun x hx => ?_⟩
  · exact m.nodes.find?_update_of_ne _ fun h => hq (congrArg some h.symm)
  · rw [Gather.dropped] at hx
    split at hx
    · cases List.mem_singleton.mp hx
      rfl
    · cases hx

theorem local_start (p : Place) (recipe : b.Recipe) (args : List Datum) (limit : Nat) :
    Local m (m.start p recipe args limit).2 (some p) := by
  rw [start]
  rcases b.make recipe args m.world with ⟨body, notes, world⟩
  dsimp only
  cases (Frames.empty limit).push body with
  | ok frames =>
    exact (local_world world _).trans ((local_setRun p _).trans (local_push _ _ (by simp)))
  | error e => exact (local_world world _).trans (local_push _ _ (by simp))

theorem local_drive (p : Place) (x : Input) : Local m (m.drive p x).2 (some p) := by
  rw [drive]
  cases m.run? p with
  | none => exact .refl _
  | some r =>
    refine (local_world (r.frames.turn b x m.world).world _).trans ?_
    dsimp only
    cases (r.frames.turn b x m.world).turn with
    | next y => exact (local_setRun p _).trans (local_push _ _ (by simp))
    | await work uptake => exact (local_setRun p _).trans (local_push _ _ (by simp))
    | finished o => exact (local_remove p).trans (local_finish p r.wasParked o _)
    | fault f => exact local_remove p

theorem local_resume (p : Place) (r : Run b) (u : Uptake) (o : Outcome) :
    Local m (m.resume p r u o) (some p) :=
  (local_setRun p _).trans (local_push _ _ (by simp))

theorem local_abandon (p : Place) : Local m (m.abandon p) (some p) := by
  refine (local_remove p).trans (local_push _ _ fun x hx => ?_)
  cases List.mem_singleton.mp hx
  rfl

theorem local_check (p : Place) : Local m (m.check p).2 (some p) := by
  fun_cases Machine.check m p with
  | case1 => exact local_resume p _ _ _
  | case2 => exact local_setRun p _
  | case3 => exact local_abandon p
  | case4 | case5 => exact .refl _

theorem local_invoke (p : Place) (work : Work b.Recipe b.Note) :
    Local m (m.invoke p work).2 (some p) := by
  fun_cases Machine.invoke m p work with
  | case1 w =>
    refine local_push _ _ fun x hx => ?_
    rcases List.mem_append.mp hx with hx | hx
    · simp at hx
    · rcases List.mem_cons.mp hx with hx | hx
      · cases hFate : w.fate <;> rw [hFate] at hx <;> cases hx
        rfl
      · simp at hx
  | case2 | case3 | case5 => exact local_push _ _ (by simp)
  | case4 w ws => exact (local_setGather p _).trans (local_push _ _ (by simp))

theorem local_items (p : Place) (index : Nat) (rest : List (Work b.Recipe b.Note)) :
    Local m (m.items p index rest).2 (some p) := by
  fun_cases Machine.items m p index rest with
  | case1 w ws => exact local_push _ _ (by simp)
  | case2 g => exact local_release p g
  | case3 => exact .refl _

theorem local_poke (k : Poke) (q : Option Place) : Local m (m.poke k).2 q := by
  rw [poke]
  cases takeKeyed k.key m.held with
  | none => exact local_push _ q (by simp)
  | some found =>
    exact ⟨fun _ _ => rfl, [.deliver found.1 k.outcome, .tell k.key true], rfl, by simp⟩

theorem local_deliverRun (p : Place) (n : Nat) (r : Run b) (o : Outcome) :
    Local m (m.deliverRun p n r o) (some p) := by
  fun_cases Machine.deliverRun m p n r o with
  | case1 => exact local_setRun p _
  | case2 => exact local_resume p r _ o
  | case3 | case4 => exact .refl _

theorem local_deliverGather (p : Place) (n : Nat) (g : Gather) (o : Outcome) :
    Local m (m.deliverGather p n g o).2 (some p) := by
  rw [deliverGather]
  rcases g.report n o with ⟨settlement, g'⟩
  cases settlement with
  | done o => exact (local_release p g').trans (local_push _ _ (by simp))
  | pending | discarded | fault => exact local_release p g'

theorem local_dropRun (p : Place) (n : Nat) (r : Run b) : Local m (m.dropRun p n r) (some p) := by
  fun_cases Machine.dropRun m p n r with
  | case1 => exact local_setRun p _
  | case2 => exact local_abandon p
  | case3 | case4 => exact .refl _

theorem local_deliver (p : Place) (o : Outcome) :
    Local m (m.deliver p o).2 (Job.deliver p o : Job b).site := by
  cases p with
  | nil => exact .refl _
  | cons n p =>
    rw [deliver]
    dsimp only
    cases m.nodes.find? p with
    | none => exact .refl _
    | some node =>
      cases node with
      | run r => exact local_deliverRun p n r o
      | gather g => exact local_deliverGather p n g o

theorem local_drop (p : Place) : Local m (m.drop p).2 (Job.drop p : Job b).site := by
  cases p with
  | nil => exact .refl _
  | cons n p =>
    rw [drop]
    dsimp only
    cases m.nodes.find? p with
    | none => exact .refl _
    | some node =>
      cases node with
      | run r => exact local_dropRun p n r
      | gather g => exact local_release p g

theorem local_perform (job : Job b) : Local m (m.perform job).2 job.site := by
  cases job with
  | start p recipe args limit => exact local_start p recipe args limit
  | drive p x => exact local_drive p x
  | invoke p work => exact local_invoke p work
  | check p => exact local_check p
  | items p index rest => exact local_items p index rest
  | hold p hold => exact ⟨fun _ _ => rfl, [], rfl, by simp⟩
  | poke k => exact local_poke k none
  | tell key found => exact .refl none
  | deliver p o => exact local_deliver p o
  | drop p => exact local_drop p

theorem returned_perform (job : Job b) :
    (m.perform job).1.filterMap Event.returned? = job.returned?.toList := by
  have hNotes : ∀ notes : List b.Note, (notes.map Event.note).filterMap Event.returned? = [] := by
    intro notes
    rw [List.filterMap_eq_nil_iff]
    simp [Event.returned?]
  cases job with
  | start p recipe args limit =>
    rcases hMake : b.make recipe args m.world with ⟨body, notes, world⟩
    simp only [perform, start, hMake]
    cases (Frames.empty limit).push body <;> simp [hNotes, Event.returned?, Job.returned?]
  | drive p x =>
    simp only [perform, drive]
    cases m.run? p with
    | none => rfl
    | some r =>
      dsimp only
      cases (r.frames.turn b x m.world).turn with
      | next | await | fault =>
        simp [hNotes, List.filterMap_cons, Event.returned?, Job.returned?]
      | finished o =>
        dsimp only
        fun_cases finish _ p r.wasParked o <;>
          simp [hNotes, List.filterMap_cons, Event.returned?, Job.returned?]
  | invoke p work =>
    change (m.invoke p work).1.filterMap _ = _
    fun_cases invoke m p work <;> rfl
  | check p =>
    change (m.check p).1.filterMap _ = _
    fun_cases check m p <;> rfl
  | items p index rest =>
    change (m.items p index rest).1.filterMap _ = _
    fun_cases items m p index rest <;> rfl
  | hold p hold => rfl
  | poke k =>
    change (m.poke k).1.filterMap _ = _
    fun_cases poke m k <;> rfl
  | tell key found => rfl
  | deliver p o =>
    have hGather : ∀ q n g, (m.deliverGather q n g o).1.filterMap Event.returned? = [] := by
      intro q n g
      rw [deliverGather]
      rcases g.report n o with ⟨settlement, g'⟩
      cases settlement <;> rfl
    cases p with
    | nil => rfl
    | cons n q =>
      simp only [perform, deliver]
      cases m.nodes.find? q with
      | none => rfl
      | some node =>
        cases node with
        | run r => rfl
        | gather g =>
          simp [hGather, Event.returned?, Job.returned?]
  | drop p => rfl

end Machine

namespace History

structure Does (h : History b) (job : Job b) (rest : List (Job b)) (p : Place)
    (events : List (Event b)) (put : List (Job b)) (node : Option (Node b)) : Prop where
  log : (h.afterJob job rest).log = h.log ++ events
  agenda : (h.afterJob job rest).machine.agenda = put ++ rest
  node : (h.afterJob job rest).machine.nodes.find? p = node

variable {h : History b}

theorem Does.of_perform {job : Job b} {rest put : List (Job b)} {p : Place}
    {events : List (Event b)} {world : b.World} {node : Option (Node b)}
    (hPerform : { h.machine with agenda := rest }.perform job = (events, { h.machine with
      world := world
      nodes := h.machine.nodes.update p node
      agenda := put ++ rest })) : h.Does job rest p events put node := by
  constructor <;> simp [afterJob, hPerform]

theorem find?_afterJob {job : Job b} {p : Place} (hSite : job.site ≠ some p)
    (rest : List (Job b)) :
    (h.afterJob job rest).machine.nodes.find? p = h.machine.nodes.find? p :=
  (Machine.local_perform (m := { h.machine with agenda := rest }) job).nodes p hSite

/-- What a job can mean for the run `r` at `p`. -/
inductive RunStep (h : History b) (rest : List (Job b)) (p : Place) (r : Run b) : Job b → Prop where
  | elsewhere {job : Job b} (hSite : job.site ≠ some p) : RunStep h rest p r job
  | next {x y : Input} (hDriven : Sound.Driven h p x rest r)
      (hTurn : (r.frames.turn b x h.machine.world).turn = .next y)
      (hDoes : h.Does (.drive p x) rest p (Machine.stepEvents p r x h.machine.world) [.drive p y]
        (some (.run { r with frames := (r.frames.turn b x h.machine.world).frames }))) :
      RunStep h rest p r (.drive p x)
  | await {x : Input} {work : Work b.Recipe b.Note} {u : Uptake}
      (hDriven : Sound.Driven h p x rest r)
      (hTurn : (r.frames.turn b x h.machine.world).turn = .await work u)
      (hDoes : h.Does (.drive p x) rest p (Machine.stepEvents p r x h.machine.world)
        [.invoke (r.wait :: p) work, .check p] (some (.run { r with
          frames := (r.frames.turn b x h.machine.world).frames
          phase := .invoking u .empty }))) :
      RunStep h rest p r (.drive p x)
  | finish {x : Input} {o : Outcome} (hDriven : Sound.Driven h p x rest r)
      (hTurn : (r.frames.turn b x h.machine.world).turn = .finished o)
      (hEscapes : ¬ Escapes p r.wasParked o)
      (hDoes : h.Does (.drive p x) rest p (Machine.stepEvents p r x h.machine.world) [.deliver p o]
        none) : RunStep h rest p r (.drive p x)
  | escape {x : Input} {n : Nat} {e : Failure} (hp : p = [n]) (hDriven : Sound.Driven h p x rest r)
      (hTurn : (r.frames.turn b x h.machine.world).turn = .finished (.error e))
      (hParked : r.wasParked = false) (hUncaught : e.isUncaught = true)
      (hDoes : h.Does (.drive p x) rest p
        (Machine.stepEvents p r x h.machine.world ++ [.escaped n e]) [] none) :
      RunStep h rest p r (.drive p x)
  | park {u : Uptake} (hPhase : r.phase = .invoking u .empty)
      (hDoes : h.Does (.check p) rest p [] []
        (some (.run { r with phase := .parked u, wasParked := true }))) :
      RunStep h rest p r (.check p)
  | resume {u : Uptake} {o : Outcome} (hPhase : r.phase = .invoking u (.outcome o))
      (hDoes : h.Does (.check p) rest p [] [.drive p (u.apply o)]
        (some (.run { r with wait := r.wait + 1, phase := .driving }))) :
      RunStep h rest p r (.check p)
  | giveUp {u : Uptake} (hPhase : r.phase = .invoking u .lost)
      (hDoes : h.Does (.check p) rest p [] [.drop p] none) : RunStep h rest p r (.check p)
  | mail {u : Uptake} {o : Outcome} (hPhase : r.phase = .invoking u .empty)
      (hDoes : h.Does (.deliver (r.wait :: p) o) rest p [.called (r.wait :: p) o] []
        (some (.run { r with phase := .invoking u (.outcome o) }))) :
      RunStep h rest p r (.deliver (r.wait :: p) o)
  | wake {u : Uptake} {o : Outcome} (hPhase : r.phase = .parked u)
      (hDoes : h.Does (.deliver (r.wait :: p) o) rest p [.called (r.wait :: p) o]
        [.drive p (u.apply o)] (some (.run { r with wait := r.wait + 1, phase := .driving }))) :
      RunStep h rest p r (.deliver (r.wait :: p) o)
  | lose {u : Uptake} (hPhase : r.phase = .invoking u .empty)
      (hDoes : h.Does (.drop (r.wait :: p)) rest p [.dropped (r.wait :: p)] []
        (some (.run { r with phase := .invoking u .lost }))) :
      RunStep h rest p r (.drop (r.wait :: p))
  | abandon {u : Uptake} (hPhase : r.phase = .parked u)
      (hDoes : h.Does (.drop (r.wait :: p)) rest p [.dropped (r.wait :: p)] [.drop p] none) :
      RunStep h rest p r (.drop (r.wait :: p))

/-- What a job can mean for the join `g` at `q`. -/
inductive JoinStep (h : History b) (rest : List (Job b)) (q : Place) (g : Gather) :
    Job b → Prop where
  | elsewhere {job : Job b} (hSite : job.site ≠ some q) : JoinStep h rest q g job
  | item {index : Nat} {w : Work b.Recipe b.Note} {ws : List (Work b.Recipe b.Note)}
      (hDoes : h.Does (.items q index (w :: ws)) rest q []
        [.invoke (index :: q) w, .items q (index + 1) ws] (some (.gather g))) :
      JoinStep h rest q g (.items q index (w :: ws))
  | through {index : Nat}
      (hDoes : h.Does (.items q index []) rest q [] (g.dropped q) g.remains) :
      JoinStep h rest q g (.items q index [])
  | report {n : Nat} {o : Outcome} {settlement : Settlement} {g' : Gather}
      (hPart : n ∈ h.machine.parts q) (hReported : g.Reported n o (settlement, g'))
      (hDoes : h.Does (.deliver (n :: q) o) rest q [.called (n :: q) o]
        (settlement.answer q ++ g'.dropped q) g'.remains) :
      JoinStep h rest q g (.deliver (n :: q) o)
  | lose {n : Nat} (hPart : n ∈ h.machine.parts q)
      (hDoes : h.Does (.drop (n :: q)) rest q [.dropped (n :: q)] (g.dropped q) g.remains) :
      JoinStep h rest q g (.drop (n :: q))

namespace Sound

theorem not_dormant_of_find? (hs : h.Sound) {p : Place} {node : Node b}
    (hFind : h.machine.nodes.find? p = some node) : p ∉ h.machine.dormant := by
  intro hp
  rw [(hs.vacant_of_dormant hp).1] at hFind
  cases hFind

theorem run_step (hs : h.Sound) {job : Job b} {rest : List (Job b)}
    (hAgenda : h.machine.agenda = job :: rest) {p : Place} {r : Run b}
    (hFind : h.machine.nodes.find? p = some (.run r)) : RunStep h rest p r job := by
  by_cases hSite : job.site = some p
  case neg => exact .elsewhere hSite
  -- A job for `p` that starts something would find nothing there, so it can only go on with `r`.
  have hDormant := hs.not_dormant_of_find? hFind
  have hp := hs.ne_nil_of_find? hFind
  cases job with
  | hold | poke | tell => cases hSite
  | start p' recipe args limit | invoke p' work =>
    cases hSite
    exact absurd (by simp [Machine.dormant, hAgenda, Job.dormant]) hDormant
  | items p' index ws =>
    cases hSite
    have hStarting : 0 < h.machine.starting p := by
      simp [Machine.starting, hAgenda, Job.starts]
    have hFits := hs.fits p hp
    rw [hFind] at hFits
    cases hFits with
    | driving _ _ _ _ hNone | invoking _ _ _ _ hNone | notified _ _ _ _ _ hNone
    | parked _ _ _ _ hNone =>
      simp only [Machine.view] at hNone
      omega
  | drive p' x =>
    cases hSite
    obtain ⟨r', hDriven⟩ := hs.driven hAgenda
    obtain rfl : r = r' := by
      have := hFind.symm.trans hDriven.find
      cases this
      rfl
    cases hTurn : (r.frames.turn b x h.machine.world).turn with
    | next y =>
      exact .next hDriven hTurn (.of_perform
        (Machine.perform_drive_next (m := { h.machine with agenda := rest }) hFind hTurn))
    | await work u =>
      exact .await hDriven hTurn (.of_perform
        (Machine.perform_drive_await (m := { h.machine with agenda := rest }) hFind hTurn))
    | finished o =>
      by_cases hEscapes : Escapes p r.wasParked o
      · obtain ⟨hParked, n, e, rfl, rfl, hUncaught⟩ := hEscapes
        exact .escape rfl hDriven hTurn hParked hUncaught (.of_perform
          (Machine.perform_drive_escaped (m := { h.machine with agenda := rest }) hFind hTurn
            hParked hUncaught))
      · exact .finish hDriven hTurn hEscapes (.of_perform
          (Machine.perform_drive_finished (m := { h.machine with agenda := rest }) hFind hTurn
            hEscapes))
    | fault f =>
      have hSound := Frames.turn_sound hDriven.poised h.machine.world
      rw [Turned.Sound, hTurn] at hSound
      exact hSound.2.elim
  | check p' =>
    cases hSite
    obtain ⟨r', u, mail, hChecked⟩ := hs.checked hAgenda
    obtain rfl : r = r' := by
      have := hFind.symm.trans hChecked.find
      cases this
      rfl
    cases mail with
    | empty =>
      exact .park hChecked.phase (.of_perform
        (Machine.perform_check_empty (m := { h.machine with agenda := rest }) hFind hChecked.phase))
    | outcome o =>
      exact .resume hChecked.phase (.of_perform
        (Machine.perform_check_outcome (m := { h.machine with agenda := rest }) hFind
          hChecked.phase))
    | lost =>
      exact .giveUp hChecked.phase (.of_perform
        (Machine.perform_check_lost (m := { h.machine with agenda := rest }) hFind hChecked.phase))
  | deliver x o =>
    cases x with
    | nil => cases hSite
    | cons n p' =>
      cases hSite
      have hn : n ∈ h.machine.parts p :=
        mem_parts_of_agenda hAgenda (by simp [Job.carried, Job.returning])
      rcases hs.part_cases hp hn with ⟨r', u, hAwaited⟩ | ⟨g, hGathering⟩
      · obtain rfl : r = r' := by
          have := hFind.symm.trans hAwaited.find
          cases this
          rfl
        obtain rfl := hAwaited.wait
        rcases hAwaited.phase with ⟨hPhase, -⟩ | ⟨hPhase, -⟩
        · exact .mail hPhase (.of_perform (Machine.perform_deliver_invoking
            (m := { h.machine with agenda := rest }) hFind rfl hPhase))
        · exact .wake hPhase (.of_perform (Machine.perform_deliver_parked
            (m := { h.machine with agenda := rest }) hFind rfl hPhase))
      · exact absurd (hFind.symm.trans hGathering.find) (by simp)
  | drop x =>
    cases x with
    | nil => cases hSite
    | cons n p' =>
      cases hSite
      have hn : n ∈ h.machine.parts p :=
        mem_parts_of_agenda hAgenda (by simp [Job.carried, Job.returning])
      rcases hs.part_cases hp hn with ⟨r', u, hAwaited⟩ | ⟨g, hGathering⟩
      · obtain rfl : r = r' := by
          have := hFind.symm.trans hAwaited.find
          cases this
          rfl
        obtain rfl := hAwaited.wait
        rcases hAwaited.phase with ⟨hPhase, -⟩ | ⟨hPhase, -⟩
        · exact .lose hPhase (.of_perform
            (Machine.perform_drop_invoking (m := { h.machine with agenda := rest }) hFind rfl
              hPhase))
        · exact .abandon hPhase (.of_perform
            (Machine.perform_drop_parked (m := { h.machine with agenda := rest }) hFind rfl hPhase))
      · exact absurd (hFind.symm.trans hGathering.find) (by simp)

theorem gathering (hs : h.Sound) {q : Place} {g : Gather}
    (hFind : h.machine.nodes.find? q = some (.gather g)) : Gathering h q g := by
  have hFits := hs.fits q (hs.ne_nil_of_find? hFind)
  rw [hFind] at hFits
  cases hFits with
  | gathering hAwaits hHolders hHeld hSteering hStarting =>
    exact ⟨hFind, hAwaits, hHolders, hSteering, hStarting⟩

theorem join_step (hs : h.Sound) {job : Job b} {rest : List (Job b)}
    (hAgenda : h.machine.agenda = job :: rest) {q : Place} {g : Gather}
    (hFind : h.machine.nodes.find? q = some (.gather g)) : JoinStep h rest q g job := by
  by_cases hSite : job.site = some q
  case neg => exact .elsewhere hSite
  have hDormant := hs.not_dormant_of_find? hFind
  have hGathering := hs.gathering hFind
  have hSteering : ¬ job.steers q = true :=
    List.filter_eq_nil_iff.mp hGathering.steering job (by simp [hAgenda])
  cases job with
  | hold | poke | tell => cases hSite
  | start p' recipe args limit | invoke p' work =>
    cases hSite
    exact absurd (by simp [Machine.dormant, hAgenda, Job.dormant]) hDormant
  | drive p' x | check p' =>
    cases hSite
    simp [Job.steers] at hSteering
  | items p' index ws =>
    cases hSite
    cases ws with
    | nil =>
      exact .through (.of_perform
        (Machine.perform_items_nil (m := { h.machine with agenda := rest }) hFind index))
    | cons w ws => exact .item ⟨rfl, rfl, hFind⟩
  | deliver x o =>
    cases x with
    | nil => cases hSite
    | cons n p' =>
      cases hSite
      have hn : n ∈ h.machine.parts q :=
        mem_parts_of_agenda hAgenda (by simp [Job.carried, Job.returning])
      have hReported := Gather.report_reported hGathering.awaits hn o
      rcases hReport : g.report n o with ⟨settlement, g'⟩
      rw [hReport] at hReported
      have hFault : ∀ f, settlement ≠ .fault f := by
        cases hReported <;> simp
      exact .report hn hReported (.of_perform
        (Machine.perform_deliver_item (m := { h.machine with agenda := rest }) hFind hReport
          hFault))
  | drop x =>
    cases x with
    | nil => cases hSite
    | cons n p' =>
      cases hSite
      have hn : n ∈ h.machine.parts q :=
        mem_parts_of_agenda hAgenda (by simp [Job.carried, Job.returning])
      exact .lose hn (.of_perform
        (Machine.perform_drop_item (m := { h.machine with agenda := rest }) hFind))

theorem find?_of_site (hs : h.Sound) {job : Job b} {rest : List (Job b)}
    (hAgenda : h.machine.agenda = job :: rest) {p : Place} (hp : p ≠ [])
    (hSite : job.site = some p) (hDormant : p ∉ job.dormant) :
    ∃ node, h.machine.nodes.find? p = some node := by
  cases hFind : h.machine.nodes.find? p with
  | some node => exact ⟨node, rfl⟩
  | none =>
    have hView := hs.view_of_vacant hp hFind
    simp only [Machine.view, View.mk.injEq] at hView
    obtain ⟨hParts, hSteering, hStarting⟩ := hView
    cases job with
    | hold | poke | tell => cases hSite
    | start p' recipe args limit | invoke p' work =>
      cases hSite
      exact absurd (by simp [Job.dormant]) hDormant
    | drive p' x | check p' =>
      cases hSite
      simp [Machine.steering, hAgenda, Job.steers] at hSteering
    | items p' index ws =>
      cases hSite
      simp [Machine.starting, hAgenda, Job.starts] at hStarting
    | deliver x o | drop x =>
      cases x with
      | nil => cases hSite
      | cons n p' =>
        cases hSite
        have hn : n ∈ h.machine.parts p :=
          mem_parts_of_agenda hAgenda (by simp [Job.carried, Job.returning])
        rw [hParts] at hn
        cases hn

theorem site_ne_of_returned (hs : h.Sound) {job : Job b} {rest : List (Job b)}
    (hAgenda : h.machine.agenda = job :: rest) {p : Place} (hp : p ∈ h.returned)
    (hFind : h.machine.nodes.find? p = none) : job.site ≠ some p := by
  intro hSite
  have hNil : p ≠ [] := (hs.rooted p (mem_ledger_of_returned hp)).1
  have hDormant : p ∉ job.dormant := by
    intro hDormant
    refine hs.not_returned_of_dormant ?_ hp
    rw [Machine.dormant, hAgenda, List.flatMap_cons]
    exact List.mem_append_left _ (List.mem_append_left _ hDormant)
  obtain ⟨node, hNode⟩ := hs.find?_of_site hAgenda hNil hSite hDormant
  rw [hFind] at hNode
  cases hNode

end Sound

theorem vacant_cases (job : Job b) (rest : List (Job b)) {p : Place}
    (hFind : h.machine.nodes.find? p = none) :
    (h.afterJob job rest).machine.nodes.find? p = none ∨
      (∃ recipe args limit, 0 < limit ∧ job = .start p recipe args limit) ∨
        ∃ w ws, job = .invoke p (.gather (w :: ws)) := by
  by_cases hSite : job.site = some p
  case neg =>
    rw [find?_afterJob hSite]
    exact Or.inl hFind
  cases job with
  | hold | poke | tell => cases hSite
  | start p' recipe args limit =>
    cases hSite
    cases limit with
    | zero =>
      refine Or.inl ?_
      rw [afterJob, Machine.perform_start_zero (m := { h.machine with agenda := rest }) rfl]
      exact hFind
    | succ limit => exact Or.inr (Or.inl ⟨recipe, args, _, Nat.succ_pos limit, rfl⟩)
  | invoke p' work =>
    cases hSite
    cases work with
    | primitive w | noted note work | nested limit recipe => exact Or.inl hFind
    | gather items =>
      cases items with
      | nil => exact Or.inl hFind
      | cons w ws => exact Or.inr (Or.inr ⟨w, ws, rfl⟩)
  | drive p' x =>
    cases hSite
    refine Or.inl ?_
    simp [afterJob, Machine.perform, Machine.drive, Machine.run?, hFind]
  | check p' =>
    cases hSite
    refine Or.inl ?_
    simp [afterJob, Machine.perform, Machine.check, Machine.run?, hFind]
  | items p' index ws =>
    cases hSite
    cases ws with
    | nil =>
      refine Or.inl ?_
      simp [afterJob, Machine.perform, Machine.items, Machine.gather?, hFind]
    | cons w ws => exact Or.inl hFind
  | deliver x o | drop x =>
    cases x with
    | nil => cases hSite
    | cons n p' =>
      cases hSite
      refine Or.inl ?_
      simp [afterJob, Machine.perform, Machine.deliver, Machine.drop, hFind]

theorem does_start {p : Place} {recipe : b.Recipe} {args : List Datum} {limit : Nat}
    (hLimit : 0 < limit) (rest : List (Job b)) :
    h.Does (.start p recipe args limit) rest p
      ((b.make recipe args h.machine.world).2.1.map .note ++ [.made p]) [.drive p .start]
      (some (.run ⟨⟨[⟨(b.make recipe args h.machine.world).1, .ready, 0⟩], limit, 1⟩, 0, .driving,
        false⟩)) :=
  .of_perform (Machine.perform_start (m := { h.machine with agenda := rest }) hLimit rfl)

theorem does_gather (p : Place) (w : Work b.Recipe b.Note) (ws : List (Work b.Recipe b.Note))
    (rest : List (Job b)) :
    h.Does (.invoke p (.gather (w :: ws))) rest p [.invoked p] [.items p 0 (w :: ws)]
      (some (.gather (.new (ws.length + 1)))) :=
  .of_perform (Machine.perform_invoke_gather (m := { h.machine with agenda := rest }) p w ws)

end History

end Interlace
