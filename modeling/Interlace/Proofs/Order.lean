import Interlace.Proofs.Origins

/-!
# The machine never breaks its own rules

Between two jobs every run is in order: its stack is neither empty nor too deep, its frames are
in the stages that its phase asks for, and a job that goes on with it finds it in the phase for
that job. So no fault is ever logged.
-/

namespace Interlace

variable {b : Behaviour}

theorem Input.stage_eq_ready {x : Input} : x.stage = .ready ↔ x = .start := by
  cases x <;> simp [Input.stage, Input.isStart]

theorem Input.stage_eq_suspended {x : Input} : x.stage = .suspended ↔ x ≠ .start := by
  cases x <;> simp [Input.stage, Input.isStart]

namespace History

variable {h : History b}

theorem Does.events {job : Job b} {rest put : List (Job b)} {p : Place} {events : List (Event b)}
    {node : Option (Node b)} (hDoes : h.Does job rest p events put node) :
    ({ h.machine with agenda := rest }.perform job).1 = events :=
  List.append_cancel_left hDoes.log

theorem fault_not_mem_stepEvents {p q : Place} {r : Run b} {x : Input} {w : b.World} {f : Fault} :
    .fault q f ∉ Machine.stepEvents p r x w := by
  simp [Machine.stepEvents]

namespace Sound

theorem fault_not_mem_perform (hs : h.Sound) {job : Job b} {rest : List (Job b)}
    (hAgenda : h.machine.agenda = job :: rest) (q : Place) (f : Fault) :
    .fault q f ∉ ({ h.machine with agenda := rest }.perform job).1 := by
  cases job with
  | start p recipe args limit =>
    rcases hMake : b.make recipe args h.machine.world with ⟨body, notes, world⟩
    simp only [Machine.perform, Machine.start, hMake]
    cases (Frames.empty limit).push body <;> simp
  | invoke p work =>
    change _ ∉ (Machine.invoke _ p work).1
    fun_cases Machine.invoke { h.machine with agenda := rest } p work <;> simp
  | items p index ws =>
    change _ ∉ (Machine.items _ p index ws).1
    fun_cases Machine.items { h.machine with agenda := rest } p index ws <;> simp
  | hold | tell | drop => simp [Machine.perform, Machine.drop]
  | poke k =>
    change _ ∉ (Machine.poke _ k).1
    fun_cases Machine.poke { h.machine with agenda := rest } k <;> simp
  | drive p x =>
    obtain ⟨r, hDriven⟩ := hs.driven hAgenda
    cases hs.run_step hAgenda hDriven.find with
    | elsewhere hSite => exact absurd rfl hSite
    | next _ _ hDoes | await _ _ hDoes | finish _ _ _ hDoes =>
      rw [hDoes.events]
      exact fault_not_mem_stepEvents
    | escape _ _ _ _ _ hDoes =>
      rw [hDoes.events]
      simp [fault_not_mem_stepEvents]
  | check p =>
    obtain ⟨r, u, mail, hChecked⟩ := hs.checked hAgenda
    cases hs.run_step hAgenda hChecked.find with
    | elsewhere hSite => exact absurd rfl hSite
    | park _ hDoes | resume _ hDoes | giveUp _ hDoes =>
      rw [hDoes.events]
      exact List.not_mem_nil
  | deliver x o =>
    cases x with
    | nil => simp [Machine.perform, Machine.deliver]
    | cons n p =>
      cases hFind : h.machine.nodes.find? p with
      | none => simp [Machine.perform, Machine.deliver, hFind]
      | some node =>
        cases node with
        | run r => simp [Machine.perform, Machine.deliver, hFind]
        | gather g =>
          cases hs.join_step hAgenda hFind with
          | elsewhere hSite => exact absurd rfl hSite
          | report _ _ hDoes =>
            rw [hDoes.events]
            simp

end Sound

/-- The order that runs are in between two jobs. A stack is neither empty nor deeper than its run
was started with. A run that is driven has one input pending, and its top frame is ready if that is
the start, and suspended if it is anything else. All frames of a run that waits are suspended, also
before it parks. -/
structure InOrder (h : History b) : Prop where
  stack : ∀ p r, h.machine.nodes.find? p = some (.run r) →
    r.frames.frames ≠ [] ∧ ∃ recipe args limit, (∃ d ∈ h.done, d.job = .start p recipe args limit) ∧
      r.frames.depth ≤ limit
  driving : ∀ p r, h.machine.nodes.find? p = some (.run r) → r.phase = .driving →
    ∃ x f below, h.machine.agenda.filter (Job.steers p) = [.drive p x] ∧
      r.frames.frames = f :: below ∧ (f.stage = .ready ↔ x = .start) ∧
      (f.stage = .suspended ↔ x ≠ .start) ∧ ∀ g ∈ below, g.stage = .suspended
  waiting : ∀ p r, h.machine.nodes.find? p = some (.run r) → r.phase ≠ .driving →
    ∀ f ∈ r.frames.frames, f.stage = .suspended
  driven : ∀ p x, .drive p x ∈ h.machine.agenda →
    ∃ r, h.machine.nodes.find? p = some (.run r) ∧ r.phase = .driving
  checked : ∀ p, .check p ∈ h.machine.agenda →
    ∃ r u mail, h.machine.nodes.find? p = some (.run r) ∧ r.phase = .invoking u mail
  faultless : ∀ p f, .fault p f ∉ h.log

namespace Sound

theorem steered (hs : h.Sound) {p : Place} {job : Job b} (hJob : job ∈ h.machine.agenda)
    (hSteers : job.steers p = true) :
    ∃ r, h.machine.nodes.find? p = some (.run r) ∧
      ((∃ x, job = .drive p x ∧ r.phase = .driving) ∨
        ∃ u mail, job = .check p ∧ r.phase = .invoking u mail) := by
  have hMem : job ∈ h.machine.steering p := List.mem_filter.mpr ⟨hJob, hSteers⟩
  have hFits := hs.fits p (hs.ne_nil_of_steers job hJob hSteers)
  generalize hNode : h.machine.nodes.find? p = node at hFits
  cases hFits with
  | vacant _ hSteering | parked _ _ _ hSteering | gathering _ _ _ hSteering =>
    rw [show h.machine.steering p = [] from hSteering] at hMem
    cases hMem
  | @driving r x hPhase _ _ hSteering =>
    rw [show h.machine.steering p = [.drive p x] from hSteering] at hMem
    exact ⟨r, rfl, Or.inl ⟨x, List.mem_singleton.mp hMem, hPhase⟩⟩
  | @invoking r u hPhase _ _ hSteering | @notified r u mail hPhase _ _ _ hSteering =>
    rw [show h.machine.steering p = [.check p] from hSteering] at hMem
    exact ⟨r, rfl, Or.inr ⟨u, _, List.mem_singleton.mp hMem, hPhase⟩⟩

theorem frames_cases (hs : h.Sound) {p : Place} {r : Run b}
    (hFind : h.machine.nodes.find? p = some (.run r)) :
    (r.phase = .driving ∧ ∃ x, h.machine.steering p = [.drive p x] ∧ r.frames.Poised x) ∨
      r.phase ≠ .driving ∧ r.frames.Asleep := by
  have hFits := hs.fits p (hs.ne_nil_of_find? hFind)
  rw [hFind] at hFits
  cases hFits with
  | @driving _ x hPhase hFrames _ hSteering => exact Or.inl ⟨hPhase, x, hSteering, hFrames⟩
  | invoking hPhase hFrames | notified hPhase _ hFrames | parked hPhase hFrames =>
    exact Or.inr ⟨by simp [hPhase], hFrames⟩

end Sound

end History

namespace Schedule

variable (s : Schedule b) (world : b.World)

theorem fault_not_mem_log (k : Nat) (p : Place) (f : Fault) :
    .fault p f ∉ (s.after world k).log := by
  induction k with
  | zero => exact List.not_mem_nil
  | succ k ih =>
    rcases s.after_succ world k with ⟨job, rest, -, hAgenda, hAfter⟩ | ⟨-, put, hAdded⟩
    · rw [hAfter, History.afterJob, List.mem_append, not_or]
      exact ⟨ih, (s.sound world k).fault_not_mem_perform hAgenda p f⟩
    · rw [hAdded.log]
      exact ih

/-- Whatever happens, and at whatever moment one looks, all runs are in order. -/
theorem in_order (k : Nat) : (s.after world k).InOrder where
  stack p r hFind := by
    have hLimited : r.frames.frames ≠ [] ∧ r.frames.depth ≤ r.frames.limit := by
      rcases (s.sound world k).frames_cases hFind with ⟨-, x, -, hPoised⟩ | ⟨-, hAsleep⟩
      · obtain ⟨f, below, hFrames, -⟩ := hPoised.top
        exact ⟨by simp [hFrames], hPoised.within⟩
      · exact ⟨hAsleep.nonempty, hAsleep.within⟩
    obtain ⟨i, hi, -, recipe, args, hStart⟩ := origin hFind
    have hDone : ⟨.start p recipe args r.frames.limit, (s.after world i).machine.world⟩ ∈
        (s.after world k).done := (s.mem_done world).mpr ⟨i, hi, hStart, rfl⟩
    exact ⟨hLimited.1, recipe, args, r.frames.limit, ⟨_, hDone, rfl⟩, hLimited.2⟩
  driving p r hFind hPhase := by
    rcases (s.sound world k).frames_cases hFind with ⟨-, x, hSteering, hPoised⟩ | ⟨hNot, -⟩
    · obtain ⟨f, below, hFrames, hStage, hBelow⟩ := hPoised.top
      refine ⟨x, f, below, hSteering, hFrames, ?_, ?_, hBelow⟩
      · rw [hStage, Input.stage_eq_ready]
      · rw [hStage, Input.stage_eq_suspended]
    · exact absurd hPhase hNot
  waiting p r hFind hPhase := by
    rcases (s.sound world k).frames_cases hFind with ⟨hDriving, -⟩ | ⟨-, hAsleep⟩
    · exact absurd hDriving hPhase
    · exact hAsleep.suspended
  driven p x hJob := by
    obtain ⟨r, hFind, ⟨y, -, hPhase⟩ | ⟨u, mail, hCheck, -⟩⟩ :=
      (s.sound world k).steered (p := p) hJob (by simp [Job.steers])
    · exact ⟨r, hFind, hPhase⟩
    · cases hCheck
  checked p hJob := by
    obtain ⟨r, hFind, ⟨y, hDrive, -⟩ | ⟨u, mail, -, hPhase⟩⟩ :=
      (s.sound world k).steered (p := p) hJob (by simp [Job.steers])
    · cases hDrive
    · exact ⟨r, u, mail, hFind, hPhase⟩
  faultless := s.fault_not_mem_log world k

end Schedule

end Interlace
