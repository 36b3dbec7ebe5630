import Interlace.Proofs.Trees

/-!
# Trees come to rest

Whatever comes next for a tree is done, with all that it sets going, after finitely many moves: a
result goes up from one join to the next, and what is invoked is a smaller tree.
-/

namespace Interlace

variable {b : Behaviour}

theorem Uptake.apply_ne_start (u : Uptake) (o : Outcome) : u.apply o ≠ .start := by
  intro hEq
  have hStage := u.stage_apply o
  rw [hEq] at hStage
  cases hStage

namespace Machine

theorem find?_of_run? {m : Machine b} {p : Place} {r : Run b} (h : m.run? p = some r) :
    m.nodes.find? p = some (.run r) := by
  rw [run?] at h
  split at h
  · cases h
    assumption
  · cases h

theorem find?_of_gather? {m : Machine b} {q : Place} {g : Gather} (h : m.gather? q = some g) :
    m.nodes.find? q = some (.gather g) := by
  rw [gather?] at h
  split at h
  · cases h
    assumption
  · cases h

end Machine

namespace Schedule

variable (s : Schedule b) (world : b.World)

/-- The call that a job makes is over after some moves, whenever the job comes next. -/
def Clears (job : Job b) : Prop :=
  ∀ k rest, (s.after world k).machine.agenda = job :: rest →
    ∃ l, k < l ∧ (s.after world l).machine.agenda = rest

variable {s world}

theorem clears_all {put rest : List (Job b)} (hClears : ∀ job ∈ put, s.Clears world job) {k : Nat}
    (hAgenda : (s.after world k).machine.agenda = put ++ rest) :
    ∃ l, k ≤ l ∧ (s.after world l).machine.agenda = rest := by
  induction put generalizing k with
  | nil => exact ⟨k, Nat.le_refl k, hAgenda⟩
  | cons job put ih =>
    obtain ⟨hJob, hPut⟩ := List.forall_mem_cons.mp hClears
    obtain ⟨l, hkl, hNext⟩ := hJob k (put ++ rest) hAgenda
    obtain ⟨l', hll', hEnd⟩ := ih hPut hNext
    exact ⟨l', Nat.le_trans (Nat.le_of_lt hkl) hll', hEnd⟩

theorem clears_of_put {job : Job b}
    (hPut : ∀ k rest, (s.after world k).machine.agenda = job :: rest →
      ∃ put, (s.after world (k + 1)).machine.agenda = put ++ rest ∧
        ∀ job' ∈ put, s.Clears world job') : s.Clears world job := by
  intro k rest hAgenda
  obtain ⟨put, hNext, hClears⟩ := hPut k rest hAgenda
  obtain ⟨l, hkl, hEnd⟩ := clears_all hClears hNext
  exact ⟨l, hkl, hEnd⟩

theorem clears_answer {p : Place} (hDeliver : ∀ o, s.Clears world (.deliver p o))
    (hDrop : s.Clears world (.drop p)) (settlement : Settlement) (g : Gather) :
    ∀ job ∈ settlement.answer p ++ g.dropped p, s.Clears world job := by
  intro job hJob
  rcases List.mem_append.mp hJob with hJob | hJob
  · cases settlement with
    | done o => exact List.mem_singleton.mp hJob ▸ hDeliver o
    | pending | discarded | fault => cases hJob
  · rw [Gather.dropped] at hJob
    split at hJob
    · exact List.mem_singleton.mp hJob ▸ hDrop
    · cases hJob

variable {n limit width : Nat} {recipe : b.Recipe} {args : List Datum} {child : Fin width → Tree}
  (hCalm : s.Calm world n recipe args limit) (hLimit : 0 < limit)
  (hGrows : b.Grows (.node width child) (.coroutine recipe))
include hCalm

theorem Calm.work {k : Nat} (hBusy : (s.after world k).machine.agenda ≠ []) : s k = .work := by
  by_contra hMove
  exact hBusy (hCalm.rests k hMove)

theorem Calm.job {k : Nat} {job : Job b} {rest : List (Job b)}
    (hAgenda : (s.after world k).machine.agenda = job :: rest) : s.job? world k = some job :=
  (s.job?_eq_some world).mpr ⟨hCalm.work (by simp [hAgenda]), rest, hAgenda⟩

theorem Calm.next {k : Nat} {job : Job b} {rest : List (Job b)}
    (hAgenda : (s.after world k).machine.agenda = job :: rest) :
    s.after world (k + 1) = (s.after world k).afterJob job rest :=
  s.after_succ_at world (hCalm.job hAgenda) hAgenda

include hLimit hGrows

/-! ## Results -/

theorem clears_resumed {p : Place} {x : Input} (hx : x ≠ .start)
    (hDeliver : ∀ o, s.Clears world (.deliver p o)) : s.Clears world (.drive p x) := by
  refine clears_of_put fun k rest hAgenda => ?_
  obtain ⟨r, hTurns⟩ := exists_turns (hCalm.job hAgenda)
  obtain ⟨_, _, hTree⟩ := exists_treeTurn hCalm hLimit hGrows hTurns
  cases hTree with
  | first => exact absurd rfl hx
  | last _ _ _ _ hFinished =>
    cases (s.sound world k).run_step hAgenda hTurns.find with
    | elsewhere hSite => exact absurd rfl hSite
    | next _ hTurn | await _ hTurn =>
      rw [turned, hTurn] at hFinished
      cases hFinished
    | finish _ _ _ hDoes =>
      refine ⟨_, (does_succ (hCalm.next hAgenda) hDoes).2.1, ?_⟩
      exact List.forall_mem_singleton.mpr (hDeliver _)
    | escape _ _ _ _ _ hDoes =>
      exact ⟨_, (does_succ (hCalm.next hAgenda) hDoes).2.1, by simp⟩

section

variable {p : Place} (hDeliver : ∀ o, s.Clears world (.deliver p o))
  (hDrop : s.Clears world (.drop p))
include hDeliver hDrop

theorem clears_deliver (m : Nat) (o : Outcome) : s.Clears world (.deliver (m :: p) o) := by
  refine clears_of_put fun k rest hAgenda => ?_
  have hNext := hCalm.next hAgenda
  cases hFind : (s.after world k).machine.nodes.find? p with
  | none =>
    refine ⟨[], ?_, by simp⟩
    rw [hNext]
    simp [History.afterJob, Machine.perform, Machine.deliver, hFind]
  | some node =>
    cases node with
    | run r =>
      cases (s.sound world k).run_step hAgenda hFind with
      | elsewhere hSite => exact absurd rfl hSite
      | mail _ hDoes => exact ⟨_, (does_succ hNext hDoes).2.1, by simp⟩
      | @wake u _ _ hDoes =>
        refine ⟨_, (does_succ hNext hDoes).2.1, List.forall_mem_singleton.mpr ?_⟩
        exact clears_resumed hCalm hLimit hGrows (u.apply_ne_start o) hDeliver
    | gather g =>
      cases (s.sound world k).join_step hAgenda hFind with
      | elsewhere hSite => exact absurd rfl hSite
      | report _ _ hDoes => exact ⟨_, (does_succ hNext hDoes).2.1, clears_answer hDeliver hDrop _ _⟩

omit hLimit hGrows in
theorem clears_drop (m : Nat) : s.Clears world (.drop (m :: p)) := by
  refine clears_of_put fun k rest hAgenda => ?_
  have hNext := hCalm.next hAgenda
  cases hFind : (s.after world k).machine.nodes.find? p with
  | none =>
    refine ⟨[], ?_, by simp⟩
    rw [hNext]
    simp [History.afterJob, Machine.perform, Machine.drop, hFind]
  | some node =>
    cases node with
    | run r =>
      cases (s.sound world k).run_step hAgenda hFind with
      | elsewhere hSite => exact absurd rfl hSite
      | lose _ hDoes => exact ⟨_, (does_succ hNext hDoes).2.1, by simp⟩
      | abandon _ hDoes =>
        exact ⟨_, (does_succ hNext hDoes).2.1, List.forall_mem_singleton.mpr hDrop⟩
    | gather g =>
      cases (s.sound world k).join_step hAgenda hFind with
      | elsewhere hSite => exact absurd rfl hSite
      | lose _ hDoes =>
        exact ⟨_, (does_succ hNext hDoes).2.1, clears_answer hDeliver hDrop .pending _⟩

end

theorem clears_returned (x : Place) :
    (∀ o, s.Clears world (.deliver x o)) ∧ s.Clears world (.drop x) := by
  induction x with
  | nil =>
    refine ⟨fun o => clears_of_put fun k rest hAgenda => ⟨[], ?_, by simp⟩,
      clears_of_put fun k rest hAgenda => ⟨[], ?_, by simp⟩⟩
    · rw [hCalm.next hAgenda]
      rfl
    · rw [hCalm.next hAgenda]
      rfl
  | cons m p ih =>
    exact ⟨clears_deliver hCalm hLimit hGrows ih.1 ih.2 m, clears_drop hCalm ih.1 ih.2 m⟩

theorem clears_check (p : Place) : s.Clears world (.check p) := by
  obtain ⟨hDeliver, hDrop⟩ := clears_returned hCalm hLimit hGrows p
  refine clears_of_put fun k rest hAgenda => ?_
  have hNext := hCalm.next hAgenda
  cases hFind : (s.after world k).machine.run? p with
  | none =>
    refine ⟨[], ?_, by simp⟩
    rw [hNext]
    have hRun : Machine.run? { (s.after world k).machine with agenda := rest } p = none := hFind
    simp [History.afterJob, Machine.perform, Machine.check, hRun]
  | some r =>
    cases (s.sound world k).run_step hAgenda (Machine.find?_of_run? hFind) with
    | elsewhere hSite => exact absurd rfl hSite
    | park _ hDoes => exact ⟨_, (does_succ hNext hDoes).2.1, by simp⟩
    | @resume u o _ hDoes =>
      refine ⟨_, (does_succ hNext hDoes).2.1, List.forall_mem_singleton.mpr ?_⟩
      exact clears_resumed hCalm hLimit hGrows (u.apply_ne_start o) hDeliver
    | giveUp _ hDoes =>
      exact ⟨_, (does_succ hNext hDoes).2.1, List.forall_mem_singleton.mpr hDrop⟩

/-! ## Work -/

theorem clears_items {works : List (Work b.Recipe b.Note)}
    (hWorks : ∀ work ∈ works, ∀ x, s.Clears world (.invoke x work)) (q : Place) (n : Nat) :
    s.Clears world (.items q n works) := by
  induction works generalizing n with
  | nil =>
    obtain ⟨-, hDrop⟩ := clears_returned hCalm hLimit hGrows q
    refine clears_of_put fun k rest hAgenda => ?_
    have hNext := hCalm.next hAgenda
    cases hFind : (s.after world k).machine.gather? q with
    | none =>
      refine ⟨[], ?_, by simp⟩
      rw [hNext]
      have hGather : Machine.gather? { (s.after world k).machine with agenda := rest } q = none :=
        hFind
      simp [History.afterJob, Machine.perform, Machine.items, hGather]
    | some g =>
      cases (s.sound world k).join_step hAgenda (Machine.find?_of_gather? hFind) with
      | elsewhere hSite => exact absurd rfl hSite
      | through hDoes =>
        refine ⟨_, (does_succ hNext hDoes).2.1, fun job hJob => ?_⟩
        rw [Gather.dropped] at hJob
        split at hJob
        · exact List.mem_singleton.mp hJob ▸ hDrop
        · cases hJob
  | cons work works ih =>
    obtain ⟨hWork, hWorks⟩ := List.forall_mem_cons.mp hWorks
    refine clears_of_put fun k rest hAgenda =>
      ⟨[.invoke (n :: q) work, .items q (n + 1) works], ?_, ?_⟩
    · rw [hCalm.next hAgenda]
      rfl
    · exact List.forall_mem_cons.mpr
        ⟨hWork (n :: q), List.forall_mem_singleton.mpr (ih hWorks (n + 1))⟩

theorem clears_leaf {work : Work b.Recipe b.Note} {fate : Fate}
    (hCore : work.core = .primitive ⟨[], fate, []⟩) (x : Place) :
    s.Clears world (.invoke x work) := by
  obtain ⟨hDeliver, hDrop⟩ := clears_returned hCalm hLimit hGrows x
  have hHold : ∀ hold, s.Clears world (.hold x hold) := by
    refine fun hold => clears_of_put fun k rest hAgenda => ⟨[], ?_, by simp⟩
    rw [hCalm.next hAgenda]
    rfl
  fun_induction Work.core work with
  | case1 note work ih =>
    refine clears_of_put fun k rest hAgenda =>
      ⟨[.invoke x work], ?_, List.forall_mem_singleton.mpr (ih hCore)⟩
    rw [hCalm.next hAgenda]
    rfl
  | case2 =>
    subst hCore
    refine clears_of_put fun k rest hAgenda => ⟨[Machine.fateJob x fate], ?_, ?_⟩
    · rw [hCalm.next hAgenda]
      rfl
    · refine List.forall_mem_singleton.mpr ?_
      cases fate with
      | complete o => exact hDeliver o
      | keep | delay => exact hHold _
      | drop => exact hDrop

theorem clears_gather {works : List (Work b.Recipe b.Note)}
    (hWorks : ∀ work ∈ works, ∀ x, s.Clears world (.invoke x work)) (q : Place) :
    s.Clears world (.invoke q (.gather works)) := by
  refine clears_of_put fun k rest hAgenda => ?_
  have hNext := hCalm.next hAgenda
  cases works with
  | nil =>
    refine ⟨[.deliver q (.ok (.list []))], ?_, List.forall_mem_singleton.mpr ?_⟩
    · rw [hNext]
      rfl
    · exact (clears_returned hCalm hLimit hGrows q).1 _
  | cons work works =>
    refine ⟨[.items q 0 (work :: works)], ?_, List.forall_mem_singleton.mpr ?_⟩
    · rw [hNext]
      rfl
    · exact clears_items hCalm hLimit hGrows hWorks q 0

theorem clears_start {p : Place} {recipe' : b.Recipe} {args' : List Datum} {limit' width' : Nat}
    {child' : Fin width' → Tree} (hLimit' : 0 < limit')
    (hGrows' : b.Grows (.node width' child') (.coroutine recipe'))
    (hChildren : ∀ i item, b.Grows (child' i) item →
      ∀ x, s.Clears world (.invoke x (item.toWork limit'))) :
    s.Clears world (.start p recipe' args' limit') := by
  intro k rest hAgenda
  have hStart := hCalm.job hAgenda
  have hFirst : (s.after world (k + 1)).machine.agenda = .drive p .start :: rest :=
    (does_succ (hCalm.next hAgenda) (History.does_start hLimit' rest)).2.1
  obtain ⟨m, hkm, hmk, hTurns⟩ := first_turn hLimit' hStart (hCalm.job hFirst)
  obtain rfl : m = k + 1 := by omega
  obtain ⟨items, hBears, hAsks⟩ := asks_of_fresh hGrows' hTurns
  have hItems : ∀ work ∈ items.map (Item.toWork limit'), ∀ x, s.Clears world (.invoke x work) := by
    intro work hWork
    obtain ⟨item, hItem, rfl⟩ := List.mem_map.mp hWork
    obtain ⟨n, hn, rfl⟩ := List.getElem_of_mem hItem
    exact hChildren ⟨n, hBears.length ▸ hn⟩ _ (hBears.grows _ _ (List.getElem?_eq_getElem hn))
  have hPut : ∀ job ∈ [.invoke (0 :: p) (.gather (items.map (Item.toWork limit'))), .check p],
      s.Clears world job :=
    List.forall_mem_cons.mpr ⟨clears_gather hCalm hLimit hGrows hItems (0 :: p),
      List.forall_mem_singleton.mpr (clears_check hCalm hLimit hGrows p)⟩
  obtain ⟨l, hkl, hEnd⟩ := clears_all hPut (agenda_of_await_at hTurns hAsks.turn hFirst)
  exact ⟨l, by omega, hEnd⟩

theorem clears_grown {t : Tree} {item : Item b.Recipe b.Note} {limit' : Nat}
    (hItem : b.Grows t item) (hLimit' : 0 < limit') (x : Place) :
    s.Clears world (.invoke x (item.toWork limit')) := by
  induction t generalizing item x with
  | leaf fate =>
    obtain ⟨work, rfl, hCore⟩ := hItem
    exact clears_leaf hCalm hLimit hGrows hCore x
  | node width' child' ih =>
    obtain ⟨recipe', rfl, -⟩ := id hItem
    have hStart : s.Clears world (.start x recipe' [] limit') :=
      clears_start hCalm hLimit hGrows hLimit' hItem fun i item hItem y => ih i hItem y
    refine clears_of_put fun k rest hAgenda =>
      ⟨[.start x recipe' [] limit'], ?_, List.forall_mem_singleton.mpr hStart⟩
    rw [hCalm.next hAgenda]
    rfl

theorem clears_root (p : Place) : s.Clears world (.start p recipe args limit) :=
  clears_start hCalm hLimit hGrows hLimit hGrows fun _ _ hItem x =>
    clears_grown hCalm hLimit hGrows hItem hLimit x

/-- Whatever is done from outside, all jobs are done at last. -/
theorem exists_rest (k : Nat) : ∃ l, k ≤ l ∧ (s.after world l).AtRest := by
  induction k with
  | zero => exact ⟨0, Nat.le_refl 0, rfl⟩
  | succ k ih =>
    obtain ⟨l, hkl, hRest⟩ := ih
    rcases Nat.lt_or_eq_of_le hkl with hkl | rfl
    · exact ⟨l, hkl, hRest⟩
    · rcases s.after_succ world k with ⟨job, rest, -, hAgenda, -⟩ | ⟨-, put, hAdded⟩
      · rw [hRest] at hAgenda
        cases hAgenda
      · have hPut : ∀ job ∈ put, s.Clears world job := by
          rcases hAdded.put with rfl | ⟨n', recipe', args', limit', hMove, -, rfl⟩ |
            ⟨x, o, -, -, rfl⟩ | ⟨x, -, -, rfl⟩
          · simp
          · obtain ⟨-, rfl, rfl, rfl⟩ := hCalm.begins _ _ _ _ _ hMove
            exact List.forall_mem_singleton.mpr (clears_root hCalm hLimit hGrows _)
          · exact List.forall_mem_singleton.mpr ((clears_returned hCalm hLimit hGrows x).1 o)
          · exact List.forall_mem_singleton.mpr (clears_returned hCalm hLimit hGrows x).2
        exact clears_all hPut (hRest ▸ hAdded.agenda)

end Schedule

end Interlace
