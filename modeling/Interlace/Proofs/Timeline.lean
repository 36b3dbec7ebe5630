import Interlace.Proofs.Transitions

/-!
# What happens when

The moves of a schedule, one after the other: what a move leaves alone, and what the log and the
jobs done so far tell about the moves before.
-/

namespace Interlace

variable {b : Behaviour}

namespace History

structure Added (h : History b) (mv : Move b) (h' : History b) (put : List (Job b)) : Prop where
  nodes : h'.machine.nodes = h.machine.nodes
  log : h'.log = h.log
  done : h'.done = h.done
  agenda : h'.machine.agenda = put ++ h.machine.agenda
  put : put = [] ∨
    (∃ n recipe args limit, mv = .begin n recipe args limit ∧ n ∉ h.begun ∧
      put = [.start [n] recipe args limit]) ∨
    (∃ p o, mv = .call p o ∧ p ∈ h.machine.held.map Held.place ∧ put = [.deliver p o]) ∨
    ∃ p, mv = .drop p ∧ p ∈ h.machine.held.map Held.place ∧ put = [.drop p]

variable {h : History b}

theorem Added.none (mv : Move b) : Added h mv h [] := ⟨rfl, rfl, rfl, rfl, Or.inl rfl⟩

theorem mem_held_of_takePlace {p : Place} {held others : List Held}
    (hTake : takePlace p held = some others) : p ∈ held.map Held.place := by
  rw [takePlace] at hTake
  split at hTake
  · rename_i hAny
    obtain ⟨e, he, hEq⟩ := List.any_eq_true.mp hAny
    exact List.mem_map.mpr ⟨e, he, eq_of_beq hEq⟩
  · cases hTake

theorem takePlace_of_mem {p : Place} {held : List Held} (hp : p ∈ held.map Held.place) :
    ∃ others, takePlace p held = some others := by
  obtain ⟨e, he, rfl⟩ := List.mem_map.mp hp
  exact ⟨_, if_pos (List.any_eq_true.mpr ⟨e, he, beq_self_eq_true e.place⟩)⟩

theorem move_cases (h : History b) (mv : Move b) :
    (∃ job rest, mv = .work ∧ h.machine.agenda = job :: rest ∧ h.move mv = h.afterJob job rest) ∨
      (mv = .work → h.machine.agenda = []) ∧ ∃ put, Added h mv (h.move mv) put := by
  cases mv with
  | work =>
    cases hAgenda : h.machine.agenda with
    | nil =>
      have hMove : h.move .work = h := by simp [move, hAgenda]
      exact Or.inr ⟨fun _ => rfl, [], hMove.symm ▸ Added.none .work⟩
    | cons job rest => exact Or.inl ⟨job, rest, rfl, rfl, by simp [move, hAgenda]⟩
  | begin n recipe args limit =>
    refine Or.inr ⟨by simp, ?_⟩
    by_cases hn : n ∈ h.begun
    · exact ⟨[], by simpa [move, hn] using Added.none _⟩
    · refine ⟨[.start [n] recipe args limit], ?_⟩
      simp only [move, if_neg hn]
      exact ⟨rfl, rfl, rfl, rfl, Or.inr (Or.inl ⟨n, recipe, args, limit, rfl, hn, rfl⟩)⟩
  | call p o =>
    refine Or.inr ⟨by simp, ?_⟩
    cases hTake : takePlace p h.machine.held with
    | none => exact ⟨[], by simpa [move, afterAct, Machine.act, hTake] using Added.none _⟩
    | some others =>
      refine ⟨[.deliver p o], ?_⟩
      simp only [move, afterAct, Machine.act, hTake]
      exact ⟨rfl, rfl, rfl, rfl,
        Or.inr (Or.inr (Or.inl ⟨p, o, rfl, mem_held_of_takePlace hTake, rfl⟩))⟩
  | drop p =>
    refine Or.inr ⟨by simp, ?_⟩
    cases hTake : takePlace p h.machine.held with
    | none => exact ⟨[], by simpa [move, afterAct, Machine.act, hTake] using Added.none _⟩
    | some others =>
      refine ⟨[.drop p], ?_⟩
      simp only [move, afterAct, Machine.act, hTake]
      exact ⟨rfl, rfl, rfl, rfl,
        Or.inr (Or.inr (Or.inr ⟨p, rfl, mem_held_of_takePlace hTake, rfl⟩))⟩

end History

namespace Schedule

variable (s : Schedule b) (world : b.World)

theorem job?_eq_some {k : Nat} {job : Job b} : s.job? world k = some job ↔
    s k = .work ∧ ∃ rest, (s.after world k).machine.agenda = job :: rest := by
  rw [job?]
  cases hMove : s k with
  | work =>
    rw [List.head?_eq_some_iff]
    exact ⟨fun hRest => ⟨rfl, hRest⟩, fun hRest => hRest.2⟩
  | begin | call | drop => simp

theorem after_succ (k : Nat) :
    (∃ job rest, s.job? world k = some job ∧ (s.after world k).machine.agenda = job :: rest ∧
      s.after world (k + 1) = (s.after world k).afterJob job rest) ∨
    s.job? world k = none ∧ ∃ put, (s.after world k).Added (s k) (s.after world (k + 1)) put := by
  rcases (s.after world k).move_cases (s k) with
    ⟨job, rest, hMove, hAgenda, hAfter⟩ | ⟨hMove, hAdded⟩
  · exact Or.inl ⟨job, rest, (s.job?_eq_some world).mpr ⟨hMove, rest, hAgenda⟩, hAgenda, hAfter⟩
  · refine Or.inr ⟨?_, hAdded⟩
    cases hJob : s.job? world k with
    | none => rfl
    | some job =>
      obtain ⟨hWork, rest, hAgenda⟩ := (s.job?_eq_some world).mp hJob
      rw [hMove hWork] at hAgenda
      cases hAgenda

theorem after_succ_of_job {k : Nat} {job : Job b} (hJob : s.job? world k = some job) :
    ∃ rest, (s.after world k).machine.agenda = job :: rest ∧
      s.after world (k + 1) = (s.after world k).afterJob job rest := by
  rcases s.after_succ world k with ⟨job', rest, hJob', hAgenda, hAfter⟩ | ⟨hNone, -⟩
  · rw [hJob] at hJob'
    cases hJob'
    exact ⟨rest, hAgenda, hAfter⟩
  · rw [hJob] at hNone
    cases hNone

theorem after_succ_at {k : Nat} {job : Job b} {rest : List (Job b)}
    (hJob : s.job? world k = some job) (hAgenda : (s.after world k).machine.agenda = job :: rest) :
    s.after world (k + 1) = (s.after world k).afterJob job rest := by
  obtain ⟨rest', hAgenda', hAfter⟩ := s.after_succ_of_job world hJob
  rw [hAgenda] at hAgenda'
  obtain ⟨-, rfl⟩ := List.cons.inj hAgenda'
  exact hAfter

theorem after_of_rest {l k : Nat} (hRest : (s.after world l).AtRest)
    (hWork : ∀ j, l ≤ j → s j = .work) (hlk : l ≤ k) : s.after world k = s.after world l := by
  induction hlk with
  | refl => rfl
  | step hlk ih =>
    have hAgenda : (s.after world l).machine.agenda = [] := hRest
    rw [after, ih, hWork _ hlk, History.move, hAgenda]

theorem mem_agenda_succ {k : Nat} {job : Job b} (hJob : job ∈ (s.after world k).machine.agenda) :
    job ∈ (s.after world (k + 1)).machine.agenda ∨ s.job? world k = some job := by
  rcases s.after_succ world k with ⟨first, rest, hFirst, hAgenda, hAfter⟩ | ⟨-, put, hAdded⟩
  · rw [hAgenda] at hJob
    rcases List.mem_cons.mp hJob with rfl | hJob
    · exact Or.inr hFirst
    · obtain ⟨put, hPut, -⟩ := (Machine.local_perform
        (m := { (s.after world k).machine with agenda := rest }) first).agenda
      refine Or.inl ?_
      rw [hAfter, History.afterJob, hPut]
      exact List.mem_append_right _ hJob
  · rw [hAdded.agenda]
    exact Or.inl (List.mem_append_right _ hJob)

theorem mem_or_done {j k : Nat} {job : Job b} (hJob : job ∈ (s.after world j).machine.agenda)
    (hjk : j ≤ k) : job ∈ (s.after world k).machine.agenda ∨
      ∃ l, j ≤ l ∧ l < k ∧ s.job? world l = some job := by
  induction hjk with
  | refl => exact Or.inl hJob
  | @step k hjk ih =>
    rcases ih with hMem | ⟨l, hjl, hlk, hDone⟩
    · rcases s.mem_agenda_succ world hMem with hMem | hDone
      · exact Or.inl hMem
      · exact Or.inr ⟨k, hjk, Nat.lt_succ_self k, hDone⟩
    · exact Or.inr ⟨l, hjl, Nat.lt_succ_of_lt hlk, hDone⟩

theorem kept {j k : Nat} (hjk : j ≤ k) : History.Kept (s.after world j) (s.after world k) := by
  induction hjk with
  | refl => exact (s.sound world j).kept
  | @step k _ ih => exact ih.trans ((s.sound world k).move (s k))

theorem log_prefix {j k : Nat} (hjk : j ≤ k) :
    (s.after world j).log <+: (s.after world k).log := by
  induction hjk with
  | refl => exact List.prefix_rfl
  | @step k _ ih =>
    refine ih.trans ?_
    rcases s.after_succ world k with ⟨job, rest, -, -, hAfter⟩ | ⟨-, put, hAdded⟩
    · rw [hAfter]
      exact List.prefix_append _ _
    · exact ⟨[], by rw [List.append_nil, hAdded.log]⟩

theorem mem_log {j k : Nat} (hjk : j ≤ k) {event : Event b}
    (hEvent : event ∈ (s.after world j).log) :
    event ∈ (s.after world k).log :=
  (s.log_prefix world hjk).subset hEvent

theorem mem_done {k : Nat} {d : Doing b} : d ∈ (s.after world k).done ↔
    ∃ j < k, s.job? world j = some d.job ∧ (s.after world j).machine.world = d.world := by
  induction k with
  | zero => simp [after, History.new]
  | succ k ih =>
    have hDone : ∀ job rest, d ∈ ((s.after world k).afterJob job rest).done ↔
        d ∈ (s.after world k).done ∨ job = d.job ∧ (s.after world k).machine.world = d.world := by
      intro job rest
      obtain ⟨job', world'⟩ := d
      simp [History.afterJob, eq_comm]
    rcases s.after_succ world k with ⟨job, rest, hJob, -, hAfter⟩ | ⟨hNone, put, hAdded⟩
    · rw [hAfter, hDone, ih]
      constructor
      · rintro (⟨j, hj, h⟩ | h)
        · exact ⟨j, Nat.lt_succ_of_lt hj, h⟩
        · exact ⟨k, Nat.lt_succ_self k, hJob.trans (congrArg some h.1), h.2⟩
      · rintro ⟨j, hj, h⟩
        rcases Nat.lt_succ_iff_lt_or_eq.mp hj with hj | rfl
        · exact Or.inl ⟨j, hj, h⟩
        · exact Or.inr ⟨Option.some.inj (hJob.symm.trans h.1), h.2⟩
    · rw [hAdded.done, ih]
      constructor
      · rintro ⟨j, hj, h⟩
        exact ⟨j, Nat.lt_succ_of_lt hj, h⟩
      · rintro ⟨j, hj, h⟩
        rcases Nat.lt_succ_iff_lt_or_eq.mp hj with hj | rfl
        · exact ⟨j, hj, h⟩
        · rw [hNone] at h
          cases h.1

theorem returned_log {k : Nat} {x : Place} {result : Option Outcome} :
    (x, result) ∈ (s.after world k).log.filterMap Event.returned? ↔
      ∃ j < k, ∃ job, s.job? world j = some job ∧ job.returned? = some (x, result) := by
  induction k with
  | zero => simp [after, History.new]
  | succ k ih =>
    rcases s.after_succ world k with ⟨job, rest, hJob, -, hAfter⟩ | ⟨hNone, put, hAdded⟩
    · have hLog : ((s.after world k).afterJob job rest).log.filterMap Event.returned? =
          (s.after world k).log.filterMap Event.returned? ++ job.returned?.toList := by
        rw [History.afterJob, List.filterMap_append]
        exact congrArg _ (Machine.returned_perform job)
      rw [hAfter, hLog, List.mem_append, ih, Option.mem_toList]
      constructor
      · rintro (⟨j, hj, h⟩ | h)
        · exact ⟨j, Nat.lt_succ_of_lt hj, h⟩
        · exact ⟨k, Nat.lt_succ_self k, job, hJob, h⟩
      · rintro ⟨j, hj, job', hJob', h⟩
        rcases Nat.lt_succ_iff_lt_or_eq.mp hj with hj | rfl
        · exact Or.inl ⟨j, hj, job', hJob', h⟩
        · rw [hJob] at hJob'
          cases hJob'
          exact Or.inr h
    · rw [hAdded.log, ih]
      constructor
      · rintro ⟨j, hj, h⟩
        exact ⟨j, Nat.lt_succ_of_lt hj, h⟩
      · rintro ⟨j, hj, job', hJob', h⟩
        rcases Nat.lt_succ_iff_lt_or_eq.mp hj with hj | rfl
        · exact ⟨j, hj, job', hJob', h⟩
        · rw [hNone] at hJob'
          cases hJob'

theorem called_log {k : Nat} {x : Place} {o : Outcome} : .called x o ∈ (s.after world k).log ↔
    ∃ j < k, s.job? world j = some (.deliver x o) := by
  have hMem : .called x o ∈ (s.after world k).log ↔
      (x, some o) ∈ (s.after world k).log.filterMap Event.returned? := by
    rw [List.mem_filterMap]
    constructor
    · intro hCalled
      exact ⟨_, hCalled, rfl⟩
    · rintro ⟨event, hEvent, hReturned⟩
      cases event <;> simp_all [Event.returned?]
  rw [hMem, returned_log]
  constructor
  · rintro ⟨j, hj, job, hJob, hReturned⟩
    cases job <;> simp_all [Job.returned?]
    exact ⟨j, hj, hJob⟩
  · rintro ⟨j, hj, hJob⟩
    exact ⟨j, hj, _, hJob, rfl⟩

theorem dropped_log {k : Nat} {x : Place} : .dropped x ∈ (s.after world k).log ↔
    ∃ j < k, s.job? world j = some (.drop x) := by
  have hMem : .dropped x ∈ (s.after world k).log ↔
      (x, none) ∈ (s.after world k).log.filterMap Event.returned? := by
    rw [List.mem_filterMap]
    constructor
    · intro hDropped
      exact ⟨_, hDropped, rfl⟩
    · rintro ⟨event, hEvent, hReturned⟩
      cases event <;> simp_all [Event.returned?]
  rw [hMem, returned_log]
  constructor
  · rintro ⟨j, hj, job, hJob, hReturned⟩
    cases job <;> simp_all [Job.returned?]
    exact ⟨j, hj, hJob⟩
  · rintro ⟨j, hj, hJob⟩
    exact ⟨j, hj, _, hJob, rfl⟩

end Schedule

end Interlace
