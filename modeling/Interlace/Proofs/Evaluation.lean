import Interlace.Proofs.Accounts
import Interlace.Proofs.Delivery
import Interlace.Proofs.Order
import Interlace.Proofs.Recursion
import Interlace.Showcase

/-!
# A run does what the evaluator does

The machine steps the frames of a run one by one, lets other jobs come between, parks the run and
wakes it. With the worlds that it found at the steps of the run and the results that were handed to
its waits, the evaluator makes the same steps and comes to the same end.
-/

namespace Interlace

variable {b : Behaviour}

def Event.stepOf? (p : Place) : Event b → Option (Nat × Input)
  | .stepped q serial x => if q = p then some (serial, x) else none
  | _ => none

def Doing.worldOf? (p : Place) : Doing b → Option b.World
  | ⟨.drive q _, w⟩ => if q = p then some w else none
  | _ => none

/-- The outcome with which a continuation was called, if it was that of a wait of the run at `p`. -/
def resultFor (p : Place) : Place × Option Outcome → Option Outcome
  | (_ :: q, some o) => if q = p then some o else none
  | _ => none

namespace History

/-- The steps of the frames of the run at `p`. -/
def steps (h : History b) (p : Place) : List (Nat × Input) := h.log.filterMap (Event.stepOf? p)

def worlds (h : History b) (p : Place) : List b.World := h.done.filterMap (Doing.worldOf? p)

def results (h : History b) (p : Place) : List Outcome :=
  (h.log.filterMap Event.returned?).filterMap (resultFor p)

end History

namespace Machine

variable {m : Machine b}

theorem stepped_not_mem_finish (p q : Place) (wasParked : Bool) (o : Outcome) (serial : Nat)
    (x : Input) : .stepped p serial x ∉ (m.finish q wasParked o).1 := by
  fun_cases finish m q wasParked o <;> simp

theorem stepped_not_mem_perform {job : Job b} {p : Place} {x : Input} (h : job ≠ .drive p x)
    (serial : Nat) : .stepped p serial x ∉ (m.perform job).1 := by
  cases job with
  | start q recipe args limit =>
    rcases hMake : b.make recipe args m.world with ⟨body, notes, world⟩
    simp only [perform, start, hMake]
    cases (Frames.empty limit).push body <;> simp
  | drive q y =>
    have hOther : ¬ (p = q ∧ x = y) := fun hEq => h (by rw [hEq.1, hEq.2])
    simp only [perform, drive]
    cases m.run? q with
    | none => simp
    | some r =>
      dsimp only
      cases (r.frames.turn b y m.world).turn with
      | next | await | fault =>
        simp only [List.mem_cons, List.mem_append, List.mem_map, Event.stepped.injEq]
        rintro hMem
        simp_all
      | finished o =>
        simp only [List.mem_append, List.mem_cons, List.mem_map, Event.stepped.injEq]
        rintro ((hEq | ⟨note, -, hEq⟩) | hMem)
        · exact hOther ⟨hEq.1, hEq.2.2⟩
        · cases hEq
        · exact stepped_not_mem_finish _ _ _ _ _ _ hMem
  | invoke q work =>
    change _ ∉ (invoke m q work).1
    fun_cases invoke m q work <;> simp
  | check q =>
    change _ ∉ (check m q).1
    fun_cases check m q <;> simp
  | items q index ws =>
    change _ ∉ (items m q index ws).1
    fun_cases items m q index ws <;> simp
  | hold | tell | drop => simp [perform, drop]
  | poke k =>
    change _ ∉ (poke m k).1
    fun_cases poke m k <;> simp
  | deliver y o =>
    have hGather : ∀ q n g, .stepped p serial x ∉ (m.deliverGather q n g o).1 := by
      intro q n g
      rw [deliverGather]
      rcases g.report n o with ⟨settlement, g'⟩
      cases settlement <;> simp
    cases y with
    | nil => simp [perform, deliver]
    | cons n q =>
      simp only [perform, deliver]
      cases m.nodes.find? q with
      | none => simp
      | some node =>
        cases node with
        | run r => simp
        | gather g => simp [hGather]

end Machine

namespace History

variable {h h' h'' : History b} {p : Place}

structure Grown (h h' : History b) (p : Place) (steps : List (Nat × Input))
    (worlds : List b.World) (results : List Outcome) : Prop where
  steps : h'.steps p = h.steps p ++ steps
  worlds : h'.worlds p = h.worlds p ++ worlds
  results : h'.results p = h.results p ++ results

theorem Grown.of_added {mv : Move b} {put : List (Job b)} (hAdded : Added h mv h' put) :
    Grown h h' p [] [] [] := by
  constructor <;> simp [History.steps, History.worlds, History.results, hAdded.log, hAdded.done]

theorem results_afterJob (job : Job b) (rest : List (Job b)) :
    (h.afterJob job rest).results p =
      h.results p ++ job.returned?.toList.filterMap (resultFor p) := by
  rw [results, results, afterJob, List.filterMap_append, List.filterMap_append,
    Machine.returned_perform]

theorem grown_of_not_drive {job : Job b} (hOther : ∀ x, job ≠ .drive p x) (rest : List (Job b)) :
    Grown h (h.afterJob job rest) p [] []
      (job.returned?.toList.filterMap (resultFor p)) := by
  refine ⟨?_, ?_, results_afterJob job rest⟩
  · rw [steps, steps, afterJob, List.filterMap_append]
    refine congrArg _ (List.filterMap_eq_nil_iff.mpr fun event hEvent => ?_)
    cases event with
    | stepped q serial x =>
      by_cases hq : q = p
      · rw [hq] at hEvent
        exact absurd hEvent (Machine.stepped_not_mem_perform (hOther x) serial)
      · exact if_neg hq
    | _ => rfl
  · rw [worlds, worlds, afterJob, List.filterMap_append]
    refine congrArg _ ?_
    cases job with
    | drive q x =>
      have hq : q ≠ p := by
        rintro rfl
        exact hOther x rfl
      simp [Doing.worldOf?, hq]
    | _ => rfl

theorem grown_of_elsewhere {job : Job b} (hSite : job.site ≠ some p) (rest : List (Job b)) :
    Grown h (h.afterJob job rest) p [] [] [] := by
  have hGrown : Grown h (h.afterJob job rest) p [] []
      (job.returned?.toList.filterMap (resultFor p)) := by
    refine grown_of_not_drive (fun x hJob => ?_) rest
    rw [hJob] at hSite
    exact hSite rfl
  have hNone : job.returned?.toList.filterMap (resultFor p) = [] := by
    cases job with
    | deliver y o =>
      cases y with
      | nil => rfl
      | cons n q =>
        have hq : q ≠ p := fun hq => hSite (congrArg some hq)
        simp [Job.returned?, resultFor, hq]
    | drop y => cases y <;> rfl
    | _ => rfl
  rwa [hNone] at hGrown

theorem grown_of_drive {x : Input} {r : Run b} {rest : List (Job b)} {events : List (Event b)}
    (hLog : (h.afterJob (.drive p x) rest).log =
      h.log ++ (Machine.stepEvents p r x h.machine.world ++ events))
    (hNone : events.filterMap (Event.stepOf? p) = []) :
    Grown h (h.afterJob (.drive p x) rest) p [((r.frames.top?.map Frame.serial).getD 0, x)]
      [h.machine.world] [] := by
  refine ⟨?_, ?_, results_afterJob _ rest⟩
  · have hNotes : ∀ notes : List b.Note,
        (notes.map Event.note).filterMap (Event.stepOf? p) = [] := by
      intro notes
      rw [List.filterMap_eq_nil_iff]
      simp [Event.stepOf?]
    rw [steps, steps, hLog]
    simp [Machine.stepEvents, Event.stepOf?, hNotes, hNone]
  · simp [worlds, afterJob, Doing.worldOf?]

end History

def Phase.awaits? : Phase → Option Uptake
  | .invoking u .empty | .invoking u .lost | .parked u => some u
  | _ => none

namespace Schedule

variable (s : Schedule b) (world : b.World)

/-- What is still to come of the run at `p` after `k` moves, by the worlds and results to come. -/
inductive Outlook (k : Nat) (p : Place) : (List b.World → List Outcome → Report b) → Prop where
  | driving {r : Run b} {x : Input}
      (hFind : (s.after world k).machine.nodes.find? p = some (.run r))
      (hPhase : r.phase = .driving) (hDrive : .drive p x ∈ (s.after world k).machine.agenda) :
      Outlook k p (r.frames.eventual x)
  | awaiting {r : Run b} {u : Uptake}
      (hFind : (s.after world k).machine.nodes.find? p = some (.run r))
      (hPhase : r.phase.awaits? = some u) : Outlook k p (r.frames.awaiting u)
  | notified {r : Run b} {u : Uptake} {o : Outcome}
      (hFind : (s.after world k).machine.nodes.find? p = some (.run r))
      (hPhase : r.phase = .invoking u (.outcome o)) : Outlook k p (r.frames.eventual (u.apply o))
  | ended {l : Nat} {o : Outcome} (hl : l < k) (hEnds : s.Ends world l p o) (made : Nat) :
      Outlook k p fun worlds results => ⟨[], .ended o, worlds, results, made⟩
  | gone (hFind : (s.after world k).machine.nodes.find? p = none) (hGone : s.Gone world k p)
      (frames : Frames b.Body) (u : Uptake) : Outlook k p (frames.awaiting u)

/-- An evaluation reports the steps of the run at `p`, and goes on to report what is to come. -/
def Foretold (evaluation : List b.World → List Outcome → Report b) (k : Nat) (p : Place)
    (rest : List b.World → List Outcome → Report b) : Prop :=
  ∀ worlds results,
    evaluation ((s.after world k).worlds p ++ worlds) ((s.after world k).results p ++ results) =
      (rest worlds results).after ((s.after world k).steps p)

variable {s world} {evaluation rest rest' : List b.World → List Outcome → Report b} {k : Nat}
  {p : Place}

theorem Foretold.grown (h : s.Foretold world evaluation k p rest) {steps : List (Nat × Input)}
    {worlds : List b.World} {results : List Outcome}
    (hGrown : History.Grown (s.after world k) (s.after world (k + 1)) p steps worlds results)
    (hRest : ∀ ws rs, rest (worlds ++ ws) (results ++ rs) = (rest' ws rs).after steps) :
    s.Foretold world evaluation (k + 1) p rest' := by
  intro ws rs
  rw [hGrown.steps, hGrown.worlds, hGrown.results, List.append_assoc, List.append_assoc, h, hRest,
    Report.after_after]

theorem Foretold.same (h : s.Foretold world evaluation k p rest)
    (hGrown : History.Grown (s.after world k) (s.after world (k + 1)) p [] [] []) :
    s.Foretold world evaluation (k + 1) p rest :=
  h.grown hGrown fun _ _ => rfl

theorem Outlook.of_added (h : s.Outlook world k p rest) {put : List (Job b)}
    (hAdded : (s.after world k).Added (s k) (s.after world (k + 1)) put) :
    s.Outlook world (k + 1) p rest := by
  cases h with
  | driving hFind hPhase hDrive =>
    refine .driving (by rw [hAdded.nodes, hFind]) hPhase ?_
    rw [hAdded.agenda]
    exact List.mem_append_right _ hDrive
  | awaiting hFind hPhase => exact .awaiting (by rw [hAdded.nodes, hFind]) hPhase
  | notified hFind hPhase => exact .notified (by rw [hAdded.nodes, hFind]) hPhase
  | ended hl hEnds made => exact .ended (Nat.lt_succ_of_lt hl) hEnds made
  | gone hFind hGone frames u => exact .gone (by rw [hAdded.nodes, hFind]) hGone.succ frames u

theorem Outlook.of_elsewhere (h : s.Outlook world k p rest) {job : Job b} {jobs : List (Job b)}
    (hJob : s.job? world k = some job)
    (hAfter : s.after world (k + 1) = (s.after world k).afterJob job jobs)
    (hSite : job.site ≠ some p) : s.Outlook world (k + 1) p rest := by
  have hSame : (s.after world (k + 1)).machine.nodes.find? p =
      (s.after world k).machine.nodes.find? p := by
    rw [hAfter, History.find?_afterJob hSite]
  cases h with
  | driving hFind hPhase hDrive =>
    refine .driving (hSame.trans hFind) hPhase ?_
    rcases s.mem_agenda_succ world hDrive with hDrive | hNow
    · exact hDrive
    · rw [hJob] at hNow
      cases hNow
      exact absurd rfl hSite
  | awaiting hFind hPhase => exact .awaiting (hSame.trans hFind) hPhase
  | notified hFind hPhase => exact .notified (hSame.trans hFind) hPhase
  | ended hl hEnds made => exact .ended (Nat.lt_succ_of_lt hl) hEnds made
  | gone hFind hGone frames u => exact .gone (hSame.trans hFind) hGone.succ frames u

theorem Outlook.cases_run (h : s.Outlook world k p rest) {r : Run b}
    (hFind : (s.after world k).machine.nodes.find? p = some (.run r)) :
    (∃ x, r.phase = .driving ∧ .drive p x ∈ (s.after world k).machine.agenda ∧
      rest = r.frames.eventual x) ∨
    (∃ u, r.phase.awaits? = some u ∧ rest = r.frames.awaiting u) ∨
    ∃ u o, r.phase = .invoking u (.outcome o) ∧ rest = r.frames.eventual (u.apply o) := by
  cases h with
  | driving hFind' hPhase hDrive =>
    rw [hFind] at hFind'
    cases hFind'
    exact Or.inl ⟨_, hPhase, hDrive, rfl⟩
  | awaiting hFind' hPhase =>
    rw [hFind] at hFind'
    cases hFind'
    exact Or.inr (Or.inl ⟨_, hPhase, rfl⟩)
  | notified hFind' hPhase =>
    rw [hFind] at hFind'
    cases hFind'
    exact Or.inr (Or.inr ⟨_, _, hPhase, rfl⟩)
  | ended hl hEnds =>
    rw [find?_of_ends hEnds hl] at hFind
    cases hFind
  | gone hNone =>
    rw [hNone] at hFind
    cases hFind

theorem Outlook.of_driven (h : s.Outlook world k p rest) {x : Input} {jobs : List (Job b)}
    {r : Run b} (hAgenda : (s.after world k).machine.agenda = .drive p x :: jobs)
    (hDriven : History.Sound.Driven (s.after world k) p x jobs r) : rest = r.frames.eventual x := by
  rcases h.cases_run hDriven.find with ⟨y, -, hDrive, hRest⟩ | ⟨u, hPhase, -⟩ | ⟨u, o, hPhase, -⟩
  · rw [hAgenda] at hDrive
    rcases List.mem_cons.mp hDrive with hEq | hDrive
    · cases hEq
      exact hRest
    · refine absurd hDrive ?_
      have hNone := List.filter_eq_nil_iff.mp hDriven.steering
      exact fun hMem => hNone _ hMem (by simp [Job.steers])
  · rw [hDriven.phase] at hPhase
    cases hPhase
  · rw [hDriven.phase] at hPhase
    cases hPhase

theorem Outlook.of_awaiting (h : s.Outlook world k p rest) {r : Run b} {u : Uptake}
    (hFind : (s.after world k).machine.nodes.find? p = some (.run r))
    (hPhase : r.phase.awaits? = some u) : rest = r.frames.awaiting u := by
  rcases h.cases_run hFind with ⟨y, hDriving, -⟩ | ⟨u', hPhase', hRest⟩ | ⟨u', o, hNotified, -⟩
  · rw [hDriving] at hPhase
    cases hPhase
  · rw [hPhase] at hPhase'
    cases hPhase'
    exact hRest
  · rw [hNotified] at hPhase
    cases hPhase

theorem Outlook.of_notified (h : s.Outlook world k p rest) {r : Run b} {u : Uptake} {o : Outcome}
    (hFind : (s.after world k).machine.nodes.find? p = some (.run r))
    (hPhase : r.phase = .invoking u (.outcome o)) : rest = r.frames.eventual (u.apply o) := by
  rcases h.cases_run hFind with ⟨y, hDriving, -⟩ | ⟨u', hAwaits, -⟩ | ⟨u', o', hPhase', hRest⟩
  · rw [hDriving] at hPhase
    cases hPhase
  · rw [hPhase] at hAwaits
    cases hAwaits
  · rw [hPhase] at hPhase'
    cases hPhase'
    exact hRest

theorem Foretold.driven (h : s.Foretold world evaluation k p rest)
    (hOutlook : s.Outlook world k p rest) {x : Input} {jobs : List (Job b)} {r : Run b}
    {events : List (Event b)}
    (hAgenda : (s.after world k).machine.agenda = .drive p x :: jobs)
    (hAfter : s.after world (k + 1) = (s.after world k).afterJob (.drive p x) jobs)
    (hDriven : History.Sound.Driven (s.after world k) p x jobs r)
    (hLog : (s.after world (k + 1)).log = (s.after world k).log ++
      (Machine.stepEvents p r x (s.after world k).machine.world ++ events))
    (hNone : events.filterMap (Event.stepOf? p) = []) :
    s.Foretold world evaluation (k + 1) p
      (Frames.remaining (r.frames.turn b x (s.after world k).machine.world)) := by
  have hGrown := History.grown_of_drive (hAfter ▸ hLog) hNone
  rw [← hAfter] at hGrown
  refine h.grown hGrown fun ws rs => ?_
  rw [hOutlook.of_driven hAgenda hDriven]
  exact Frames.eventual_cons hDriven.poised _ ws rs

theorem Foretold.ended {t : Turned b} (h : s.Foretold world evaluation k p (Frames.remaining t))
    {o : Outcome} (hTurn : t.turn = .finished o) :
    s.Foretold world evaluation k p fun worlds results =>
      ⟨[], .ended o, worlds, results, t.frames.pushed⟩ := by
  intro ws rs
  rw [h, Frames.remaining, hTurn]

theorem Foretold.succ_run (h : s.Foretold world evaluation k p rest)
    (hOutlook : s.Outlook world k p rest) {r : Run b}
    (hFind : (s.after world k).machine.nodes.find? p = some (.run r)) :
    ∃ rest', s.Outlook world (k + 1) p rest' ∧ s.Foretold world evaluation (k + 1) p rest' := by
  rcases s.after_succ world k with ⟨job, jobs, hJob, hAgenda, hAfter⟩ | ⟨-, put, hAdded⟩
  case inr => exact ⟨rest, hOutlook.of_added hAdded, h.same (.of_added hAdded)⟩
  -- Only a step of the run and a call of its wait move the evaluation on.
  have hQuiet : (∀ x, job ≠ .drive p x) → job.returned?.toList.filterMap (resultFor p) = [] →
      s.Foretold world evaluation (k + 1) p rest := by
    intro hOther hNone
    have hGrown := History.grown_of_not_drive (h := s.after world k) hOther jobs
    rw [hNone, ← hAfter] at hGrown
    exact h.same hGrown
  have hHanded : ∀ {n o}, job = .deliver (n :: p) o →
      History.Grown (s.after world k) (s.after world (k + 1)) p [] [] [o] := by
    rintro n o rfl
    have hGrown := History.grown_of_not_drive (h := s.after world k)
      (show ∀ x, Job.deliver (n :: p) o ≠ .drive p x by simp) jobs
    rw [← hAfter] at hGrown
    simpa [Job.returned?, resultFor] using hGrown
  have hNil : ([] : List (Event b)).filterMap (Event.stepOf? p) = [] := rfl
  cases (s.sound world k).run_step hAgenda hFind with
  | elsewhere hSite =>
    refine ⟨rest, hOutlook.of_elsewhere hJob hAfter hSite, h.same ?_⟩
    rw [hAfter]
    exact History.grown_of_elsewhere hSite jobs
  | @next x y hDriven hTurn hDoes =>
    obtain ⟨hLog, hPut, hNode⟩ := does_succ hAfter hDoes
    have hForetold := h.driven hOutlook hAgenda hAfter hDriven (hLog.trans (by simp)) hNil
    have hDrive : .drive p y ∈ (s.after world (k + 1)).machine.agenda := by simp [hPut]
    refine ⟨_, .driving hNode hDriven.phase hDrive, fun ws rs => (hForetold ws rs).trans ?_⟩
    rw [Frames.remaining, hTurn]
  | await hDriven hTurn hDoes =>
    obtain ⟨hLog, -, hNode⟩ := does_succ hAfter hDoes
    have hForetold := h.driven hOutlook hAgenda hAfter hDriven (hLog.trans (by simp)) hNil
    refine ⟨_, .awaiting hNode rfl, fun ws rs => (hForetold ws rs).trans ?_⟩
    rw [Frames.remaining, hTurn]
  | @finish x o hDriven hTurn hEscapes hDoes =>
    obtain ⟨hLog, -, -⟩ := does_succ hAfter hDoes
    have hForetold := h.driven hOutlook hAgenda hAfter hDriven (hLog.trans (by simp)) hNil
    exact ⟨_, .ended (Nat.lt_succ_self k) ⟨x, r, hJob, hFind, hTurn⟩ _, hForetold.ended hTurn⟩
  | @escape x n e hp hDriven hTurn hParked hUncaught hDoes =>
    obtain ⟨hLog, -, -⟩ := does_succ hAfter hDoes
    have hForetold := h.driven hOutlook hAgenda hAfter hDriven hLog (by simp [Event.stepOf?])
    exact ⟨_, .ended (Nat.lt_succ_self k) ⟨x, r, hJob, hFind, hTurn⟩ _, hForetold.ended hTurn⟩
  | park hPhase hDoes =>
    obtain ⟨-, -, hNode⟩ := does_succ hAfter hDoes
    obtain rfl := hOutlook.of_awaiting hFind (by rw [hPhase]; rfl)
    exact ⟨_, .awaiting hNode rfl, hQuiet (by simp) rfl⟩
  | @resume u o hPhase hDoes =>
    obtain ⟨-, hPut, hNode⟩ := does_succ hAfter hDoes
    obtain rfl := hOutlook.of_notified hFind hPhase
    have hDrive : .drive p (u.apply o) ∈ (s.after world (k + 1)).machine.agenda := by simp [hPut]
    exact ⟨_, .driving hNode rfl hDrive, hQuiet (by simp) rfl⟩
  | giveUp hPhase hDoes =>
    obtain ⟨-, hPut, hNode⟩ := does_succ hAfter hDoes
    obtain rfl := hOutlook.of_awaiting hFind (by rw [hPhase]; rfl)
    exact ⟨_, .gone hNode (Or.inl (by simp [hPut])) _ _, hQuiet (by simp) rfl⟩
  | mail hPhase hDoes =>
    obtain ⟨-, -, hNode⟩ := does_succ hAfter hDoes
    obtain rfl := hOutlook.of_awaiting hFind (by rw [hPhase]; rfl)
    exact ⟨_, .notified hNode rfl, h.grown (hHanded rfl) fun _ _ => rfl⟩
  | @wake u o hPhase hDoes =>
    obtain ⟨-, hPut, hNode⟩ := does_succ hAfter hDoes
    obtain rfl := hOutlook.of_awaiting hFind (by rw [hPhase]; rfl)
    have hDrive : .drive p (u.apply o) ∈ (s.after world (k + 1)).machine.agenda := by simp [hPut]
    exact ⟨_, .driving hNode rfl hDrive, h.grown (hHanded rfl) fun _ _ => rfl⟩
  | lose hPhase hDoes =>
    obtain ⟨-, -, hNode⟩ := does_succ hAfter hDoes
    obtain rfl := hOutlook.of_awaiting hFind (by rw [hPhase]; rfl)
    exact ⟨_, .awaiting hNode rfl, hQuiet (by simp) rfl⟩
  | abandon hPhase hDoes =>
    obtain ⟨-, hPut, hNode⟩ := does_succ hAfter hDoes
    obtain rfl := hOutlook.of_awaiting hFind (by rw [hPhase]; rfl)
    exact ⟨_, .gone hNode (Or.inl (by simp [hPut])) _ _, hQuiet (by simp) rfl⟩

theorem Foretold.succ_over (h : s.Foretold world evaluation k p rest)
    (hOutlook : s.Outlook world k p rest) (hReturned : p ∈ (s.after world k).returned)
    (hFind : (s.after world k).machine.nodes.find? p = none) :
    s.Outlook world (k + 1) p rest ∧ s.Foretold world evaluation (k + 1) p rest := by
  rcases s.after_succ world k with ⟨job, jobs, hJob, hAgenda, hAfter⟩ | ⟨-, put, hAdded⟩
  · have hSite := (s.sound world k).site_ne_of_returned hAgenda hReturned hFind
    refine ⟨hOutlook.of_elsewhere hJob hAfter hSite, h.same ?_⟩
    rw [hAfter]
    exact History.grown_of_elsewhere hSite jobs
  · exact ⟨hOutlook.of_added hAdded, h.same (.of_added hAdded)⟩

theorem untouched_of_dormant {i : Nat} (hDormant : p ∈ (s.after world i).machine.dormant) :
    ∀ k ≤ i, (s.after world k).steps p = [] ∧ (s.after world k).worlds p = [] ∧
      (s.after world k).results p = [] := by
  intro k
  induction k with
  | zero => exact fun _ => ⟨rfl, rfl, rfl⟩
  | succ k ih =>
    intro hki
    obtain ⟨hSteps, hWorlds, hResults⟩ := ih (Nat.le_of_succ_le hki)
    have hGrown : History.Grown (s.after world k) (s.after world (k + 1)) p [] [] [] := by
      rcases s.after_succ world k with ⟨job, jobs, hJob, hAgenda, hAfter⟩ | ⟨-, put, hAdded⟩
      case inr => exact .of_added hAdded
      have hOther : ∀ x, job ≠ .drive p x := by
        rintro x rfl
        obtain ⟨r, hDriven⟩ := (s.sound world k).driven hAgenda
        have hFind := hDriven.find
        rw [find?_of_dormant (Nat.le_of_succ_le hki) hDormant] at hFind
        cases hFind
      have hNone : job.returned?.toList.filterMap (resultFor p) = [] := by
        refine List.filterMap_eq_nil_iff.mpr fun result hResult => ?_
        rcases result with ⟨_ | ⟨n, q⟩, _ | o⟩
        case cons.some =>
          refine if_neg fun hq => ?_
          have hCalled : .called (n :: q) o ∈ (s.after world i).log := by
            refine s.mem_log world hki ((s.called_log world).mpr ⟨k, Nat.lt_succ_self k, ?_⟩)
            rw [hJob]
            cases job with
            | deliver y o' =>
              obtain ⟨rfl, rfl⟩ : n :: q = y ∧ o = o' := by simpa [Job.returned?] using hResult
              rfl
            | _ => simp [Job.returned?] at hResult
          rw [hq] at hCalled
          exact part_not_in_log hDormant rfl hCalled
        all_goals rfl
      have hGrown := History.grown_of_not_drive (h := s.after world k) hOther jobs
      rwa [hNone, ← hAfter] at hGrown
    exact ⟨by rw [hGrown.steps, hSteps]; rfl, by rw [hGrown.worlds, hWorlds]; rfl,
      by rw [hGrown.results, hResults]; rfl⟩

theorem exists_foretold {i : Nat} {recipe : b.Recipe} {args : List Datum} {limit : Nat}
    (hLimit : 0 < limit) (hStart : s.job? world i = some (.start p recipe args limit))
    (hik : i < k) :
    ∃ rest, s.Outlook world k p rest ∧ s.Foretold world
      (evaluate b limit 1 0 1 (b.make recipe args (s.after world i).machine.world).1 .start) k p
      rest := by
  -- By induction on the moves since the start: the outlook is what the evaluator still has to do.
  induction hik with
  | refl =>
    obtain ⟨jobs, -, hAfter⟩ := s.after_succ_of_job world hStart
    obtain ⟨hSteps, hWorlds, hResults⟩ :=
      untouched_of_dormant (dormant_of_job (p := p) hStart (by simp [Job.dormant])) i
        (Nat.le_refl i)
    obtain ⟨-, hPut, hNode⟩ := does_succ hAfter (History.does_start hLimit jobs)
    have hGrown := History.grown_of_not_drive (h := s.after world i)
      (show ∀ x, Job.start p recipe args limit ≠ .drive p x by simp) jobs
    rw [← hAfter] at hGrown
    have hDrive : .drive p .start ∈ (s.after world (i + 1)).machine.agenda := by simp [hPut]
    refine ⟨_, .driving hNode rfl hDrive, fun ws rs => ?_⟩
    rw [hGrown.steps, hGrown.worlds, hGrown.results, hSteps, hWorlds, hResults]
    rfl
  | @step k hik ih =>
    obtain ⟨rest, hOutlook, hForetold⟩ := ih
    cases hFind : (s.after world k).machine.nodes.find? p with
    | none =>
      refine ⟨rest, hForetold.succ_over hOutlook ?_ hFind⟩
      rcases touched_of_start hStart hik with hOpened | hReturned
      · obtain ⟨node, hNode, -⟩ := Table.find?_of_mem_opened (s.sound world k).keyed hOpened
        rw [hFind] at hNode
        cases hNode
      · exact hReturned
    | some node =>
      cases node with
      | run r => exact hForetold.succ_run hOutlook hFind
      | gather g =>
        obtain ⟨j, -, w, ws, hInvoke⟩ := origin hFind
        exact (start_ne_gather hStart hInvoke).elim

/-! ## The report and the run -/

variable (s world)

/-- What an evaluation reports of the run at `p`, for the worlds that the run found at its steps and
the results that were handed to its waits. It makes the same steps. It ends with an outcome just if
the run ended with it, and waits just if the run waits for a result or its wait was dropped. One of
the two is so when the machine is at rest, and then it makes no other step, in however many worlds.
Whatever worlds and results are to come, what was done is done. -/
structure Evaluated (k : Nat) (p : Place)
    (evaluation : List b.World → List Outcome → Report b) : Prop where
  steps : (evaluation ((s.after world k).worlds p) ((s.after world k).results p)).steps =
    (s.after world k).steps p
  ended : ∀ o, (evaluation ((s.after world k).worlds p) ((s.after world k).results p)).verdict =
    .ended o ↔ ∃ l < k, s.Ends world l p o
  waiting : (evaluation ((s.after world k).worlds p) ((s.after world k).results p)).verdict =
    .waiting ↔ (∃ r u, (s.after world k).machine.nodes.find? p = some (.run r) ∧
      r.phase.awaits? = some u) ∨ s.Gone world k p
  rest : (s.after world k).AtRest →
    (evaluation ((s.after world k).worlds p) ((s.after world k).results p)).verdict ≠ .unfinished
  settled : (evaluation ((s.after world k).worlds p) ((s.after world k).results p)).verdict ≠
    .unfinished → ∀ worlds,
      (evaluation ((s.after world k).worlds p ++ worlds) ((s.after world k).results p)).steps =
        (s.after world k).steps p ∧
      (evaluation ((s.after world k).worlds p ++ worlds) ((s.after world k).results p)).verdict =
        (evaluation ((s.after world k).worlds p) ((s.after world k).results p)).verdict
  done : ∀ worlds results, (s.after world k).steps p <+:
    (evaluation ((s.after world k).worlds p ++ worlds)
      ((s.after world k).results p ++ results)).steps

variable {s world}

theorem not_gone_of_ends {i l : Nat} {o : Outcome} (hStart : s.Starts world i p)
    (hEnds : s.Ends world l p o) (hlk : l < k) : ¬ s.Gone world k p := by
  rcases standing_of_ends hStart hEnds hlk with
    ⟨-, c, -, hPending | ⟨d, -, hdk, -, hJob⟩⟩ | ⟨n, e, hp, -, -, -, -, hEscaped⟩
  · exact fun hGone => hGone.not_told (Or.inl ⟨o, hPending.mem⟩)
  · exact fun hGone => hGone.not_told (Or.inr ⟨o, (s.called_log world).mpr ⟨d, hdk, hJob⟩⟩)
  · exact not_gone_of_escaped hEscaped hp

theorem Evaluated.of_foretold (h : s.Foretold world evaluation k p rest) {verdict : Verdict}
    (hNow : (rest [] []).steps = [] ∧ (rest [] []).verdict = verdict)
    (hLater : verdict ≠ .unfinished →
      ∀ ws, (rest ws []).steps = [] ∧ (rest ws []).verdict = verdict)
    (hEnded : ∀ o, verdict = .ended o ↔ ∃ l < k, s.Ends world l p o)
    (hWaiting : verdict = .waiting ↔ (∃ r u, (s.after world k).machine.nodes.find? p =
      some (.run r) ∧ r.phase.awaits? = some u) ∨ s.Gone world k p)
    (hRest : (s.after world k).AtRest → verdict ≠ .unfinished) :
    s.Evaluated world k p evaluation := by
  have hReport : ∀ ws,
      evaluation ((s.after world k).worlds p ++ ws) ((s.after world k).results p) =
        (rest ws []).after ((s.after world k).steps p) := by
    intro ws
    rw [← h, List.append_nil]
  have hReported := hReport []
  rw [List.append_nil] at hReported
  have hVerdict : (evaluation ((s.after world k).worlds p) ((s.after world k).results p)).verdict =
      verdict := by
    rw [hReported, Report.verdict_after, hNow.2]
  refine ⟨?_, ?_, ?_, ?_, fun hSettled ws => ?_, fun ws rs => ?_⟩
  · rw [hReported, Report.after, hNow.1, List.append_nil]
  · rwa [hVerdict]
  · rwa [hVerdict]
  · rwa [hVerdict]
  · rw [hVerdict] at hSettled ⊢
    rw [hReport, Report.verdict_after, (hLater hSettled ws).2, Report.after, (hLater hSettled ws).1,
      List.append_nil]
    exact ⟨rfl, rfl⟩
  · rw [h]
    exact List.prefix_append _ _

theorem Evaluated.of_busy {r : Run b} {x : Input}
    (h : s.Foretold world evaluation k p (r.frames.eventual x))
    (hFind : (s.after world k).machine.nodes.find? p = some (.run r))
    (hPhase : r.phase.awaits? = none) : s.Evaluated world k p evaluation := by
  refine .of_foretold h (Frames.eventual_nil r.frames x []) (absurd rfl) (fun o => ?_) ?_
    fun hRest => ?_
  · refine ⟨nofun, ?_⟩
    rintro ⟨l, hl, hEnds⟩
    exact absurd hEnds (not_ends_of_find? hFind l hl o)
  · refine ⟨nofun, ?_⟩
    rintro (⟨r', u, hFind', hAwaits⟩ | hGone)
    · rw [hFind] at hFind'
      cases hFind'
      rw [hPhase] at hAwaits
      cases hAwaits
    · exact absurd hGone (not_gone_of_opened ((s.sound world k).opened_of_run hFind))
  · obtain ⟨u, hParked⟩ := (s.sound world k).parked hRest hFind
    rw [hParked] at hPhase
    cases hPhase

/-- A run of whatever coroutine does what the evaluator does, whenever its waits are handed what. -/
theorem evaluated {i : Nat} {recipe : b.Recipe} {args : List Datum} {limit : Nat}
    (hLimit : 0 < limit) (hStart : s.job? world i = some (.start p recipe args limit))
    (hik : i < k) :
    s.Evaluated world k p
      (evaluate b limit 1 0 1 (b.make recipe args (s.after world i).machine.world).1 .start) := by
  obtain ⟨rest, hOutlook, hForetold⟩ := exists_foretold hLimit hStart hik
  have hStarts : s.Starts world i p := ⟨recipe, args, limit, hLimit, hStart⟩
  cases hOutlook with
  | driving hFind hPhase => exact .of_busy hForetold hFind (by rw [hPhase]; rfl)
  | notified hFind hPhase => exact .of_busy hForetold hFind (by rw [hPhase]; rfl)
  | awaiting hFind hPhase =>
    refine .of_foretold hForetold ⟨rfl, rfl⟩ (fun _ _ => ⟨rfl, rfl⟩) (fun o => ⟨nofun, ?_⟩)
      (iff_of_true rfl (Or.inl ⟨_, _, hFind, hPhase⟩)) (fun _ => nofun)
    rintro ⟨l, hl, hEnds⟩
    exact absurd hEnds (not_ends_of_find? hFind l hl o)
  | gone hFind hGone =>
    refine .of_foretold hForetold ⟨rfl, rfl⟩ (fun _ _ => ⟨rfl, rfl⟩) (fun o => ⟨nofun, ?_⟩)
      (iff_of_true rfl (Or.inr hGone)) (fun _ => nofun)
    rintro ⟨l, hl, hEnds⟩
    exact absurd hGone (not_gone_of_ends hStarts hEnds hl)
  | @ended l o hl hEnds made =>
    refine .of_foretold hForetold ⟨rfl, rfl⟩ (fun _ _ => ⟨rfl, rfl⟩) (fun o' => ?_) ⟨nofun, ?_⟩
      (fun _ => nofun)
    · constructor
      · intro hEq
        cases hEq
        exact ⟨l, hl, hEnds⟩
      · rintro ⟨l', -, hEnds'⟩
        rw [(ends_unique hEnds hEnds').2]
    · rintro (⟨r, u, hFind, -⟩ | hGone)
      · rw [find?_of_ends hEnds hl] at hFind
        cases hFind
      · exact absurd hGone (not_gone_of_ends hStarts hEnds hl)

theorem evaluated_lookup :
    let evaluation :=
      evaluate Demo.behaviour 2 1 0 1 (Demo.lookupDelegated.make [.text "foo"]) .start
    lookup.job? .empty 1 = some (.start [0] .lookupDelegated [.text "foo"] 2) ∧
    lookup.Evaluated .empty 20 [0] evaluation ∧
    (evaluation ((lookup.after .empty 20).worlds [0])
      ((lookup.after .empty 20).results [0])).verdict = .ended (.ok (.text "bar")) := by
  have hStart : lookup.job? .empty 1 = some (.start [0] .lookupDelegated [.text "foo"] 2) := rfl
  have hEvaluated := evaluated Nat.two_pos hStart (k := 20) (by decide)
  have hEnds : lookup.Ends .empty 17 [0] (.ok (.text "bar")) := ⟨_, _, rfl, rfl, rfl⟩
  exact ⟨hStart, hEvaluated, (hEvaluated.ended _).mpr ⟨17, by decide, hEnds⟩⟩

end Schedule

end Interlace
