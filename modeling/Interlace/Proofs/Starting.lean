import Interlace.Proofs.Budget
import Interlace.Proofs.Completion
import Mathlib.Data.Nat.Find

/-!
# How the items of a join are started

A join starts its items one after the other, each when the call is over that the one before was
started in. Whether the join has been settled meanwhile makes no difference to that. The run that
waits for the join goes on when all items have been started, and a settled join takes no notice of
the items that are still to report.
-/

namespace Interlace

variable {b : Behaviour}

theorem Work.core_ne_noted {Recipe Note : Type} (work work' : Work Recipe Note) (note : Note) :
    work.core ≠ noted note work' := by
  fun_induction Work.core work with
  | case1 _ _ ih => exact ih
  | case2 work hNoted => exact hNoted note work'

namespace Schedule

variable (s : Schedule b) (world : b.World)

/-- Move `c` invokes work with the continuation `y`, after the notes that it leaves first. -/
structure Invokes (c : Nat) (y : Place) (work : Work b.Recipe b.Note) : Prop where
  job : s.job? world c = some (.invoke y work)
  core : work.core = work

/-- After move `i` work was invoked with the continuation `y`, and the call was over before `l`
moves were made. -/
def Begun (i l : Nat) (y : Place) (work : Work b.Recipe b.Note) : Prop :=
  ∃ c k, i < c ∧ k ≤ l ∧ s.Invokes world c y work.core ∧ s.Returns world c k

/-- Whatever comes next on the agenda is done at some time. -/
def Fair : Prop :=
  ∀ k job rest, (s.after world k).machine.agenda = job :: rest →
    ∃ l, k ≤ l ∧ s.job? world l = some job ∧ (s.after world l).machine.agenda = job :: rest

variable {s world}

/-! ## Work is invoked once -/

theorem dormant_of_brings {k : Nat} {job job' : Job b} {rest : List (Job b)} {y : Place}
    (hAgenda : (s.after world k).machine.agenda = job :: rest)
    (hBrings : (s.after world k).machine.Brings job job') (hy : y ∈ job'.dormant) :
    y ∈ job.dormant ∨ y ∉ (s.after world k).ledger := by
  have hs := s.sound world k
  cases hBrings with
  | work hFind =>
    cases List.mem_singleton.mp hy
    refine Or.inr fun hLedger => ?_
    have hWaits := hs.waits _ _ hFind _ hLedger
    rw [Run.waits, phase_of_drive (by rw [hAgenda]; exact List.mem_cons_self) hFind] at hWaits
    exact Nat.lt_irrefl _ hWaits
  | items =>
    obtain ⟨n, -, -, rfl⟩ := mem_itemPlaces.mp hy
    refine Or.inr ((hs.vacant_of_dormant ?_).2 n)
    rw [Machine.dormant, hAgenda]
    simp [Job.dormant]
  | @fate p w =>
    have hCarried : y ∈ (Machine.fateJob p w.fate : Job b).carried := List.mem_append_left _ hy
    rw [Machine.carried_fateJob] at hCarried
    exact Or.inl hCarried
  | noted | nested => exact Or.inl hy
  | item =>
    cases List.mem_singleton.mp hy
    exact Or.inl List.mem_cons_self
  | more => exact Or.inl (List.mem_cons_of_mem _ hy)
  | first | refused | next | check | finish | resume | giveUp | poke | nothing | found | tell | wake
  | answer | drop => cases hy

theorem Invokes.use {c : Nat} {y : Place} {work : Work b.Recipe b.Note}
    (h : s.Invokes world c y work) {m : Machine b} {job : Job b}
    (hBrings : m.Brings (.invoke y work) job) (hy : y ∈ job.dormant) :
    (∃ recipe args limit, job = .start y recipe args limit) ∨ ∃ hold, job = .hold y hold := by
  have hCore := h.core
  cases hBrings with
  | noted => exact absurd hCore (Work.core_ne_noted _ _ _)
  | @fate _ w =>
    rcases w with ⟨before, fate, after⟩
    cases fate with
    | complete | drop => cases hy
    | keep | delay => cases List.mem_singleton.mp hy; exact Or.inr ⟨_, rfl⟩
  | nested => cases List.mem_singleton.mp hy; exact Or.inl ⟨_, _, _, rfl⟩
  | items =>
    obtain ⟨n, -, -, hEq⟩ := mem_itemPlaces.mp hy
    exact absurd (congrArg List.length hEq) (by simp)
  | drop | poke | nothing => cases hy

theorem Invokes.spent {c k : Nat} {y : Place} {work : Work b.Recipe b.Note}
    (h : s.Invokes world c y work) (hck : c < k) :
    ∀ job ∈ (s.after world k).machine.agenda, y ∈ job.dormant →
      (∃ recipe args limit, job = .start y recipe args limit) ∨ ∃ hold, job = .hold y hold := by
  induction hck with
  | refl =>
    intro job hJob hy
    obtain ⟨rest, hAgenda, hAfter⟩ := s.after_succ_of_job world h.job
    rw [hAfter] at hJob
    rcases Machine.brings_of_mem hJob with hRest | hBrings
    · have hNodup := (List.nodup_append.mp (s.sound world c).nodup_states).1
      rw [Machine.dormant, hAgenda, List.flatMap_cons, List.append_assoc] at hNodup
      have hMem : y ∈ rest.flatMap Job.dormant := List.mem_flatMap.mpr ⟨job, hRest, hy⟩
      exact absurd rfl ((List.nodup_append.mp hNodup).2.2 y (by simp [Job.dormant]) y
        (List.mem_append_left _ hMem))
    · exact h.use hBrings hy
  | @step k hck ih =>
    intro job hJob hy
    rcases s.after_succ world k with ⟨first, rest, hFirst, hAgenda, hAfter⟩ | ⟨-, put, hAdded⟩
    · rw [hAfter] at hJob
      rcases Machine.brings_of_mem hJob with hRest | hBrings
      · exact ih job (by rw [hAgenda]; exact List.mem_cons_of_mem first hRest) hy
      · rcases dormant_of_brings hAgenda hBrings hy with hOld | hNew
        · rcases ih first (mem_agenda_of_job hFirst) hOld with
            ⟨recipe, args, limit, rfl⟩ | ⟨hold, rfl⟩
          · cases hBrings with
            | first | refused | drop => cases hy
          · cases hBrings with
            | drop => cases hy
        · refine absurd ((s.kept world (Nat.le_of_lt hck)).ledger y ?_) hNew
          refine History.mem_ledger_of_dormant ?_
          exact dormant_of_job h.job (List.mem_singleton_self y)
    · rw [hAdded.agenda] at hJob
      rcases List.mem_append.mp hJob with hPut | hMem
      · rcases hAdded.put with rfl | ⟨n, recipe, args, limit, -, -, rfl⟩ | ⟨x, o, -, -, rfl⟩ |
          ⟨x, -, -, rfl⟩
        · cases hPut
        · cases List.mem_singleton.mp hPut
          cases List.mem_singleton.mp hy
          exact Or.inl ⟨recipe, args, limit, rfl⟩
        · cases List.mem_singleton.mp hPut
          cases hy
        · cases List.mem_singleton.mp hPut
          cases hy
      · exact ih job hMem hy

theorem Invokes.unique {c c' : Nat} {y : Place} {work work' : Work b.Recipe b.Note}
    (h : s.Invokes world c y work) (h' : s.Invokes world c' y work') : c = c' := by
  have hOrder : ∀ {c c' work work'}, s.Invokes world c y work → s.Invokes world c' y work' →
      ¬ c < c' := by
    intro c c' work work' h h' hcc'
    rcases h.spent hcc' _ (mem_agenda_of_job h'.job) (List.mem_singleton_self y) with
      ⟨recipe, args, limit, hJob⟩ | ⟨hold, hJob⟩ <;> cases hJob
  exact Nat.le_antisymm (Nat.le_of_not_lt (hOrder h' h)) (Nat.le_of_not_lt (hOrder h h'))

/-! ## What is done by the end of a call -/

theorem done_by_return {l k : Nat} {job : Job b} {below rest : List (Job b)} (hlk : l ≤ k)
    (hAgenda : (s.after world l).machine.agenda = job :: (below ++ rest))
    (hEnd : (s.after world k).machine.agenda = rest) :
    ∃ m, l ≤ m ∧ m < k ∧ s.job? world m = some job ∧
      (s.after world m).machine.agenda = job :: (below ++ rest) := by
  rcases waits_or_done hlk hAgenda with ⟨front, hFront⟩ | hDone
  · rw [hEnd] at hFront
    exact absurd (congrArg List.length hFront) (by simp; omega)
  · exact hDone

theorem agenda_of_returns {c k : Nat} {job : Job b} {rest : List (Job b)}
    (h : s.Returns world c k) (hAgenda : (s.after world c).machine.agenda = job :: rest) :
    (s.after world k).machine.agenda = rest := by
  obtain ⟨-, rest', ⟨⟨job', hAgenda'⟩, -⟩, hEnd⟩ := h
  rw [hAgenda] at hAgenda'
  obtain ⟨-, rfl⟩ := List.cons.inj hAgenda'
  exact hEnd

theorem above_or_returns {c k : Nat} {job : Job b} {rest : List (Job b)} (hck : c < k)
    (hAgenda : (s.after world c).machine.agenda = job :: rest) :
    (∃ front, front ≠ [] ∧ (s.after world k).machine.agenda = front ++ rest) ∨
      ∃ n ≤ k, s.Returns world c n ∧ (s.after world n).machine.agenda = rest := by
  rcases lasts_or_returns hck hAgenda with ⟨-, hAbove⟩ | ⟨n, hn, hReturns⟩
  · exact Or.inl hAbove
  · exact Or.inr ⟨n, hn, hReturns, agenda_of_returns hReturns hAgenda⟩

theorem above_or_invoked {c k : Nat} {y : Place} {work : Work b.Recipe b.Note}
    {rest : List (Job b)} (hInvoke : s.job? world c = some (.invoke y work))
    (hAgenda : (s.after world c).machine.agenda = .invoke y work :: rest) (hck : c < k) :
    (∃ front, front ≠ [] ∧ (s.after world k).machine.agenda = front ++ rest) ∨
      ∃ c' n, c ≤ c' ∧ n ≤ k ∧ s.Invokes world c' y work.core ∧ s.Returns world c' n ∧
        (s.after world n).machine.agenda = rest := by
  fun_induction Work.core work generalizing c with
  | case1 note work ih =>
    have hNext : (s.after world (c + 1)).machine.agenda = .invoke y work :: rest := by
      rw [s.after_succ_at world hInvoke hAgenda]
      rfl
    rcases waits_or_done hck hNext with ⟨front, hFront⟩ | ⟨c', hcc', hck', hJob, hNow⟩
    · exact Or.inl ⟨front ++ [.invoke y work], by simp, by simp [hFront]⟩
    · rcases ih hJob hNow hck' with hAbove | ⟨c'', n, hc'', hDone⟩
      · exact Or.inl hAbove
      · exact Or.inr ⟨c'', n, by omega, hDone⟩
  | case2 work hNoted =>
    rcases above_or_returns hck hAgenda with hAbove | ⟨n, hn, hReturns, hEnd⟩
    · exact Or.inl hAbove
    · exact Or.inr ⟨c, n, Nat.le_refl c, hn, ⟨hInvoke, Work.core.eq_2 work hNoted⟩, hReturns, hEnd⟩

theorem Begun.mono {i l l' : Nat} {y : Place} {work : Work b.Recipe b.Note} (hl : l ≤ l')
    (h : s.Begun world i l y work) : s.Begun world i l' y work := by
  obtain ⟨c, k, hic, hkl, hDone⟩ := h
  exact ⟨c, k, hic, Nat.le_trans hkl hl, hDone⟩

/-! ## The loop -/

/-- Move `l` goes on with the loop at the item `n`, and all items before were started in turn. -/
structure Loops (s : Schedule b) (world : b.World) (i : Nat) (q : Place)
    (works : List (Work b.Recipe b.Note)) (rest : List (Job b)) (l n : Nat) : Prop where
  job : s.job? world l = some (.items q n (works.drop n))
  agenda : (s.after world l).machine.agenda = .items q n (works.drop n) :: rest
  after : i < l
  begun : ∀ m (hm : m < works.length), m < n → s.Begun world i l (m :: q) works[m]

theorem Loops.next {i l n : Nat} {q : Place} {works : List (Work b.Recipe b.Note)}
    {rest : List (Job b)} (h : s.Loops world i q works rest l n) (hn : n < works.length) :
    (s.after world (l + 1)).machine.agenda =
      .invoke (n :: q) works[n] :: .items q (n + 1) (works.drop (n + 1)) :: rest := by
  rw [s.after_succ_at world h.job h.agenda, List.drop_eq_getElem_cons hn]
  rfl

theorem Fair.invokes (hFair : s.Fair world) {c : Nat} {y : Place} {work : Work b.Recipe b.Note}
    {rest : List (Job b)} (hInvoke : s.job? world c = some (.invoke y work))
    (hAgenda : (s.after world c).machine.agenda = .invoke y work :: rest) :
    ∃ c', c ≤ c' ∧ s.Invokes world c' y work.core ∧
      (s.after world c').machine.agenda = .invoke y work.core :: rest := by
  fun_induction Work.core work generalizing c with
  | case1 note work ih =>
    have hNext : (s.after world (c + 1)).machine.agenda = .invoke y work :: rest := by
      rw [s.after_succ_at world hInvoke hAgenda]
      rfl
    obtain ⟨l, hcl, hJob, hNow⟩ := hFair _ _ _ hNext
    obtain ⟨c', hlc', hDone⟩ := ih hJob hNow
    exact ⟨c', by omega, hDone⟩
  | case2 work hNoted => exact ⟨c, Nat.le_refl c, ⟨hInvoke, Work.core.eq_2 work hNoted⟩, hAgenda⟩

section

variable {i : Nat} {q : Place} {works : List (Work b.Recipe b.Note)} {rest : List (Job b)}
  (hInvoke : s.job? world i = some (.invoke q (.gather works)))
  (hAgenda : (s.after world i).machine.agenda = .invoke q (.gather works) :: rest)

include hInvoke in
theorem no_items_before {n : Nat} {us : List (Work b.Recipe b.Note)} :
    .items q n us ∉ (s.after world i).machine.agenda := by
  intro hMem
  have hs := s.sound world i
  have hDormant := dormant_of_job hInvoke (p := q) (List.mem_singleton_self q)
  have hq : q ≠ [] := (hs.rooted q (History.mem_ledger_of_dormant hDormant)).1
  have hView := hs.view_of_vacant hq (hs.vacant_of_dormant hDormant).1
  have hStarting : (s.after world i).machine.starting q = 0 := congrArg View.starting hView
  rw [Machine.starting, List.countP_eq_zero] at hStarting
  exact hStarting _ hMem (by simp [Job.starts])

include hInvoke hAgenda

theorem agenda_of_gather (hWorks : works ≠ []) :
    (s.after world (i + 1)).machine.agenda = .items q 0 works :: rest := by
  obtain ⟨w, ws, rfl⟩ := List.exists_cons_of_ne_nil hWorks
  rw [s.after_succ_at world hInvoke hAgenda]
  rfl

theorem loops_or_pending (hWorks : works ≠ []) {K n : Nat} (hiK : i < K) (hn : n ≤ works.length) :
    (∃ m ≤ n, .items q m (works.drop m) ∈ (s.after world K).machine.agenda) ∨
      ∃ l < K, s.Loops world i q works rest l n := by
  induction n with
  | zero =>
    rcases waits_or_done hiK (agenda_of_gather hInvoke hAgenda hWorks) with
      ⟨front, hFront⟩ | ⟨l, hil, hlK, hJob, hNow⟩
    · exact Or.inl ⟨0, Nat.le_refl 0, by simp [hFront]⟩
    · exact Or.inr ⟨l, hlK, hJob, hNow, hil, by simp⟩
  | succ n ih =>
    rcases ih (Nat.le_of_succ_le hn) with ⟨m, hm, hPending⟩ | ⟨l, hlK, hLoops⟩
    · exact Or.inl ⟨m, Nat.le_succ_of_le hm, hPending⟩
    · obtain ⟨rest', hAgenda', hAfter⟩ := s.after_succ_of_job world hLoops.job
      rw [hLoops.agenda] at hAgenda'
      obtain ⟨-, rfl⟩ := List.cons.inj hAgenda'
      have hNext : (s.after world (l + 1)).machine.agenda =
          .invoke (n :: q) works[n] :: .items q (n + 1) (works.drop (n + 1)) :: rest := by
        rw [hAfter, List.drop_eq_getElem_cons hn]
        rfl
      rcases waits_or_done hlK hNext with ⟨front, hFront⟩ | ⟨c, hlc, hcK, hJob, hNow⟩
      · exact Or.inl ⟨n + 1, Nat.le_refl _, by simp [hFront]⟩
      · rcases above_or_invoked hJob hNow hcK with
          ⟨front, -, hFront⟩ | ⟨c', k, hcc', hkK, hInvokes, hReturns, hEnd⟩
        · exact Or.inl ⟨n + 1, Nat.le_refl _, by simp [hFront]⟩
        · rcases waits_or_done hkK hEnd with ⟨front, hFront⟩ | ⟨l', hkl', hlK', hJob', hNow'⟩
          · exact Or.inl ⟨n + 1, Nat.le_refl _, by simp [hFront]⟩
          · have hck := hReturns.1
            have hil := hLoops.after
            refine Or.inr ⟨l', hlK', hJob', hNow', by omega, ?_⟩
            intro m hm hmn
            rcases Nat.lt_succ_iff_lt_or_eq.mp hmn with hmn | rfl
            · exact (hLoops.begun m hm hmn).mono (by omega)
            · exact ⟨c', k, by omega, hkl', hInvokes, hReturns⟩

theorem exists_loops (hFair : s.Fair world) (hWorks : works ≠ [])
    (hReturns : ∀ n c work, s.Invokes world c (n :: q) work → ∃ k, s.Returns world c k) {n : Nat}
    (hn : n ≤ works.length) : ∃ l, s.Loops world i q works rest l n := by
  induction n with
  | zero =>
    obtain ⟨l, hil, hJob, hNow⟩ := hFair _ _ _ (agenda_of_gather hInvoke hAgenda hWorks)
    exact ⟨l, hJob, hNow, hil, by simp⟩
  | succ n ih =>
    obtain ⟨l, hLoops⟩ := ih (Nat.le_of_succ_le hn)
    obtain ⟨c, hlc, hJob, hNow⟩ := hFair _ _ _ (hLoops.next hn)
    obtain ⟨c', hcc', hInvokes, hNow'⟩ := hFair.invokes hJob hNow
    obtain ⟨k, hReturned⟩ := hReturns n c' _ hInvokes
    obtain ⟨l', hkl', hJob', hLoop⟩ := hFair _ _ _ (agenda_of_returns hReturned hNow')
    have hck := hReturned.1
    have hil := hLoops.after
    refine ⟨l', hJob', hLoop, by omega, ?_⟩
    intro m hm hmn
    rcases Nat.lt_succ_iff_lt_or_eq.mp hmn with hmn | rfl
    · exact (hLoops.begun m hm hmn).mono (by omega)
    · exact ⟨c', k, by omega, hkl', hInvokes, hReturned⟩

end

section

variable {i : Nat} {q : Place} {works : List (Work b.Recipe b.Note)}
  (hInvoke : s.job? world i = some (.invoke q (.gather works)))
include hInvoke

theorem begun_of_returns {k : Nat} (hReturns : s.Returns world i k) {n : Nat}
    (hn : n < works.length) : s.Begun world i k (n :: q) works[n] := by
  obtain ⟨rest, hAgenda, -⟩ := s.after_succ_of_job world hInvoke
  have hWorks : works ≠ [] := by
    rintro rfl
    exact Nat.not_lt_zero n hn
  rcases loops_or_pending hInvoke hAgenda hWorks hReturns.1 (Nat.le_refl works.length) with
    ⟨m, -, hPending⟩ | ⟨l, hlk, hLoops⟩
  · rw [agenda_of_returns hReturns hAgenda] at hPending
    have hMem := List.mem_cons_of_mem (.invoke q (.gather works)) hPending
    rw [← hAgenda] at hMem
    exact absurd hMem (no_items_before hInvoke)
  · exact (hLoops.begun n hn hn).mono (Nat.le_of_lt hlk)

theorem begun_before {n c : Nat} {work : Work b.Recipe b.Note}
    (hItem : s.job? world c = some (.invoke (n :: q) work)) (hic : i < c) (hn : n < works.length)
    {m : Nat} (hmn : m < n) :
    s.Begun world i c (m :: q) (works.get ⟨m, Nat.lt_trans hmn hn⟩) := by
  obtain ⟨rest, hAgenda, -⟩ := s.after_succ_of_job world hInvoke
  have hWorks : works ≠ [] := by
    rintro rfl
    exact Nat.not_lt_zero n hn
  rcases loops_or_pending hInvoke hAgenda hWorks hic (Nat.le_of_lt hn) with
    ⟨j, hjn, hPending⟩ | ⟨l, hlc, hLoops⟩
  · -- The loop would hand along the continuation that the item is invoked with.
    obtain ⟨others, hNow, -⟩ := s.after_succ_of_job world hItem
    have hNodup := (List.nodup_append.mp (s.sound world c).nodup_states).1
    rw [Machine.dormant, hNow, List.flatMap_cons, List.append_assoc] at hNodup
    rw [hNow] at hPending
    have hOther := (List.mem_cons.mp hPending).resolve_left (by simp)
    have hMem : n :: q ∈ others.flatMap Job.dormant := by
      refine List.mem_flatMap.mpr ⟨_, hOther, mem_itemPlaces.mpr ⟨n, hjn, ?_, rfl⟩⟩
      rw [List.length_drop]
      omega
    exact absurd rfl ((List.nodup_append.mp hNodup).2.2 _ (by simp [Job.dormant]) _
      (List.mem_append_left _ hMem))
  · exact (hLoops.begun m _ hmn).mono (Nat.le_of_lt hlc)

theorem discards {d n : Nat} {o o' : Outcome} {rest : List (Job b)} (hWorks : works ≠ [])
    (hAnswered : .deliver q o' ∈ (s.after world d).machine.agenda ∨
      .called q o' ∈ (s.after world d).log)
    (hReport : s.job? world d = some (.deliver (n :: q) o))
    (hAgenda : (s.after world d).machine.agenda = .deliver (n :: q) o :: rest) :
    (s.after world (d + 1)).machine.agenda = rest ∧ ∀ y, y ≠ q →
      (s.after world (d + 1)).machine.nodes.find? y = (s.after world d).machine.nodes.find? y := by
  obtain ⟨w, ws, rfl⟩ := List.exists_cons_of_ne_nil hWorks
  obtain ⟨g, settlement, g', -, hEq, hLike, hNext⟩ := report_at hInvoke hReport hAgenda
  have hSettled : g.settled = true := by
    have hCourse := Gather.course (Nat.succ_pos ws.length) (admissible hInvoke d)
    have hCalls := calls_of_told hInvoke hAnswered
    have hBefore := hCourse.settled.mpr (List.ne_nil_of_mem hCalls)
    rw [← hLike]
    exact hBefore
  rw [Gather.report_settled hSettled] at hEq
  obtain ⟨rfl, rfl⟩ := Prod.mk.inj hEq
  constructor
  · rw [hNext, Gather.dropped, if_neg (by simp [hSettled])]
    rfl
  · intro y hy
    rw [s.after_succ_at world hReport hAgenda]
    exact History.find?_afterJob (by simpa [Job.site] using Ne.symm hy) rest

end

/-! ## What is started for a request -/

theorem first_turn {j l limit : Nat} {y : Place} {x : Input} {recipe : b.Recipe}
    {args : List Datum} (hLimit : 0 < limit)
    (hStart : s.job? world j = some (.start y recipe args limit))
    (hDrive : s.job? world l = some (.drive y x)) :
    ∃ m, j < m ∧ m ≤ l ∧ s.Turns world m y .start (s.fresh world j recipe args limit) := by
  classical
  have hExists : ∃ m x, s.job? world m = some (.drive y x) := ⟨l, x, hDrive⟩
  obtain ⟨x₀, hFirst⟩ := Nat.find_spec hExists
  obtain ⟨r, hTurns⟩ := exists_turns hFirst
  have hNone : ∀ m < Nat.find hExists, ∀ x, s.job? world m ≠ some (.drive y x) :=
    fun m hm x hDrive => Nat.find_min hExists hm ⟨x, hDrive⟩
  have hAfter := lt_of_turns hStart hTurns
  have hBy := Nat.find_min' hExists ⟨x, hDrive⟩
  have hFollows := hTurns.follows hLimit hStart
  generalize Nat.find hExists = m at *
  cases hFollows with
  | first => exact ⟨m, hAfter, hBy, hTurns⟩
  | next hLast | told hLast => exact absurd hLast.turns.job (hNone _ hLast.before _)

theorem Invokes.starts {c k limit : Nat} {y : Place} {recipe : b.Recipe} (hLimit : 0 < limit)
    (h : s.Invokes world c y (.nested limit recipe)) (hReturns : s.Returns world c k) :
    ∃ j l, c < j ∧ j < l ∧ l < k ∧ s.job? world j = some (.start y recipe [] limit) ∧
      s.Turns world l y .start (s.fresh world j recipe [] limit) := by
  obtain ⟨rest, hAgenda, hAfter⟩ := s.after_succ_of_job world h.job
  have hEnd := agenda_of_returns hReturns hAgenda
  have hStart :
      (s.after world (c + 1)).machine.agenda = .start y recipe [] limit :: ([] ++ rest) := by
    rw [hAfter]
    rfl
  obtain ⟨j, hcj, hjk, hJob, hNow⟩ := done_by_return hReturns.1 hStart hEnd
  have hDrive : (s.after world (j + 1)).machine.agenda = .drive y .start :: ([] ++ rest) := by
    rw [s.after_succ_at world hJob hNow, (History.does_start hLimit _).agenda]
    rfl
  obtain ⟨l, -, hlk, hTurn, -⟩ := done_by_return hjk hDrive hEnd
  obtain ⟨m, hjm, hml, hTurns⟩ := first_turn hLimit hJob hTurn
  exact ⟨j, m, hcj, hjm, Nat.lt_of_le_of_lt hml hlk, hJob, hTurns⟩

/-- When the call of a request for several items is over, they have all been started. -/
theorem begun_of_request {i c k n limit : Nat} {q : Place} {items : List (Item b.Recipe b.Note)}
    {item : Item b.Recipe b.Note} (hic : i < c)
    (hInvoke : s.job? world c = some (.invoke q (.gather (items.map (Item.toWork limit)))))
    (hReturns : s.Returns world c k) (hItem : items[n]? = some item) :
    s.Begun world i k (n :: q) (item.toWork limit) := by
  obtain ⟨hn, rfl⟩ := List.getElem?_eq_some_iff.mp hItem
  obtain ⟨c', k', hcc', hDone⟩ := begun_of_returns hInvoke hReturns (n := n) (by simpa using hn)
  rw [List.getElem_map] at hDone
  exact ⟨c', k', Nat.lt_trans hic hcc', hDone⟩

section

variable {i : Nat} {p : Place} {x : Input} {r : Run b} {f : Frame b.Body}
  {items : List (Item b.Recipe b.Note)} (hStep : s.Steps world i p x r f)
  (hAnswer : (s.stepped world i f x).1 = .wait (.all items))
include hStep hAnswer

theorem gather_turn : (s.turned world i x r).turn =
    .await (.gather (items.map (Item.toWork r.frames.limit))) .throwing :=
  hStep.awaits hAnswer rfl

theorem begun_before_turn {j n : Nat} {y : Input} {r' : Run b} {item : Item b.Recipe b.Note}
    (hij : i < j) (hTurns : s.Turns world j p y r') (hItem : items[n]? = some item) :
    s.Begun world i j (n :: r.wait :: p) (item.toWork r.frames.limit) := by
  have hTurn := gather_turn hStep hAnswer
  -- The next step of the run comes after it has looked for the result of the join.
  obtain ⟨m, j', him, hmj', hj'j, hCheck⟩ : ∃ m j', i < m ∧ m < j' ∧ j' ≤ j ∧
      s.job? world m = some (.check p) := by
    have hNext : ∀ {j' z r'}, s.LastTurn world i j' p x r → s.Turns world j' p z r' →
        ∃ m, i < m ∧ m < j' ∧ s.job? world m = some (.check p) := by
      intro j' z r' hLast hTurns
      obtain ⟨k, hkj', hLimit, recipe, args, hStart⟩ := hTurns.start
      have hFollows := hTurns.follows hLimit hStart
      generalize r'.frames.limit = limit at hFollows
      cases hFollows with
      | first hNone => exact absurd hStep.turns.job (hNone i hLast.before x)
      | next hLast' hTurn' =>
        obtain ⟨rfl, rfl, rfl⟩ := hLast'.unique hLast
        rw [hTurn] at hTurn'
        cases hTurn'
      | told hLast' _ _ _ hCalled hHow =>
        obtain ⟨rfl, rfl, rfl⟩ := hLast'.unique hLast
        rcases hHow with ⟨-, m, hdm, hmj', hCheck⟩ | ⟨-, ⟨m, hlm, hmd, hCheck⟩, -⟩
        · exact ⟨m, Nat.lt_trans hCalled.1 hdm, hmj', hCheck⟩
        · exact ⟨m, hlm, Nat.lt_trans hmd hCalled.2.1, hCheck⟩
    rcases hStep.turns.last_or_next hij with hLast | ⟨j', hj'j, hLast, z, r₀, hTurns₀⟩
    · obtain ⟨m, him, hmj, hCheck⟩ := hNext hLast hTurns
      exact ⟨m, j, him, hmj, Nat.le_refl j, hCheck⟩
    · obtain ⟨m, him, hmj', hCheck⟩ := hNext hLast hTurns₀
      exact ⟨m, j', him, hmj', Nat.le_of_lt hj'j, hCheck⟩
  obtain ⟨c, k, hic, hkm, hInvoke, hReturns⟩ := returns_of_check hStep.turns hTurn him hCheck
  exact (begun_of_request hic hInvoke hReturns hItem).mono (by omega)

theorem begun_by_rest {k n : Nat} {item : Item b.Recipe b.Note} (hRest : (s.after world k).AtRest)
    (hik : i < k) (hItem : items[n]? = some item) :
    s.Begun world i k (n :: r.wait :: p) (item.toWork r.frames.limit) := by
  obtain ⟨c, hic, hck, hInvoke⟩ :=
    hStep.turns.invoke_by_rest hRest (gather_turn hStep hAnswer) hik
  obtain ⟨rest, hAgenda, -⟩ := s.after_succ_of_job world hInvoke
  rcases above_or_returns hck hAgenda with ⟨front, hFront, hAbove⟩ | ⟨m, hmk, hReturns, -⟩
  · rw [hRest] at hAbove
    exact absurd (List.append_eq_nil_iff.mp hAbove.symm).1 hFront
  · exact (begun_of_request hic hInvoke hReturns hItem).mono hmk

theorem invoked_in_order {m n c c' : Nat} {work work' : Work b.Recipe b.Note} (hmn : m < n)
    (h : s.Invokes world c (m :: r.wait :: p) work)
    (h' : s.Invokes world c' (n :: r.wait :: p) work') : ∃ k ≤ c', s.Returns world c k := by
  obtain ⟨i', item, -, hi'c', hInvoke, hItem, -⟩ := item_of_request hStep hAnswer h'.job
  obtain ⟨hn, -⟩ := List.getElem?_eq_some_iff.mp hItem
  obtain ⟨c₀, k, -, hkc', hInvokes, hReturns⟩ :=
    begun_before hInvoke h'.job hi'c' (by simpa using hn) hmn
  obtain rfl := hInvokes.unique h
  exact ⟨k, hkc', hReturns⟩

theorem gather_of_report {d n : Nat} {o : Outcome}
    (hReport : s.job? world d = some (.deliver (n :: r.wait :: p) o)) :
    ∃ c, s.job? world c =
        some (.invoke (r.wait :: p) (.gather (items.map (Item.toWork r.frames.limit)))) ∧
      items.map (Item.toWork r.frames.limit) ≠ [] := by
  obtain ⟨c', -, work, hInvoke, -⟩ := handed_of_deliver (mem_agenda_of_job hReport) (by simp)
  obtain ⟨c, item, -, -, hGather, hItem, -⟩ := item_of_request hStep hAnswer hInvoke
  refine ⟨c, hGather, fun hNone => ?_⟩
  rw [List.map_eq_nil_iff.mp hNone] at hItem
  cases hItem

theorem exists_invokes {n : Nat} {item : Item b.Recipe b.Note} (hFair : s.Fair world)
    (hReturns : ∀ n c work, s.Invokes world c (n :: r.wait :: p) work → ∃ k, s.Returns world c k)
    (hItem : items[n]? = some item) :
    ∃ l, s.Begun world i l (n :: r.wait :: p) (item.toWork r.frames.limit) := by
  obtain ⟨hn, rfl⟩ := List.getElem?_eq_some_iff.mp hItem
  obtain ⟨rest, hAgenda⟩ := agenda_of_await hStep.turns (gather_turn hStep hAnswer)
  obtain ⟨c, hic, hInvoke, hNow⟩ := hFair _ _ _ hAgenda
  have hWorks : items.map (Item.toWork r.frames.limit) ≠ [] := by
    intro hNil
    rw [List.map_eq_nil_iff] at hNil
    simp [hNil] at hn
  obtain ⟨l, hLoops⟩ := exists_loops hInvoke hNow hFair hWorks hReturns (Nat.le_refl _)
  obtain ⟨c', k, hcc', hDone⟩ := hLoops.begun n (by simpa using hn) (by simpa using hn)
  rw [List.getElem_map] at hDone
  exact ⟨l, c', k, by omega, hDone⟩

end

/-! ## Items that outlive the join -/

theorem returned_unique {d d' : Nat} {x : Place} {o : Outcome} {job : Job b}
    {result : Option Outcome} (hDeliver : s.job? world d = some (.deliver x o))
    (hJob : s.job? world d' = some job) (hReturned : job.returned? = some (x, result)) :
    d' = d := by
  cases job with
  | deliver =>
    cases hReturned
    exact deliver_unique hJob hDeliver
  | drop =>
    cases hReturned
    have hGone : s.Gone world (max d d' + 1) x :=
      Or.inr ((s.dropped_log world).mpr ⟨d', by omega, hJob⟩)
    exact absurd (Or.inr ⟨o, (s.called_log world).mpr ⟨d, by omega, hDeliver⟩⟩) hGone.not_told
  | _ => cases hReturned

theorem nested_situation {k : Nat} {y : Place} (hNested : 2 ≤ y.length)
    (hRest : (s.after world k).AtRest) (hStarted : s.Started world k y) :
    (∃ o, (s.after world k).calls y = [o]) ∨ s.Waiting world k y ∨
      ∃ m, .dropped (m :: y) ∈ (s.after world k).log := by
  rcases situation hRest hStarted with hSettled | hAbandoned | hWaiting
  · rcases hSettled with hCalled | ⟨n, e, rfl, -⟩
    · exact Or.inl hCalled
    · simp at hNested
  · exact Or.inr (Or.inr ((run_dropped_iff hRest hStarted).mp hAbandoned.1))
  · exact Or.inr (Or.inl hWaiting)

/-! ## Fan-outs -/

variable (s world)

/-- What becomes of it when the run `r` at `p` asks for several items with its step at move `i`. No
item is invoked twice, and each is invoked when the invocations of all items before it are over. If
every invocation returns, all items are invoked, whatever became of others. The invocations of all
items are over when the run is stepped again, and when all jobs are done. A coroutine that is
invoked is made with no arguments, once, and each of its frames is started once. The join calls or
drops its continuation once at most. After that an item that reports goes on at once, and has
changed nothing but the join. The run of an item gets the results that it waits for itself, and when
all jobs are done it has ended or waits, unless one of its own results was dropped. -/
structure FannedOut (i : Nat) (p : Place) (r : Run b) (items : List (Item b.Recipe b.Note)) :
    Prop where
  item : ∀ n c work, s.Invokes world c (n :: r.wait :: p) work →
    i < c ∧ ∃ item, items[n]? = some item ∧ (item.toWork r.frames.limit).core = work
  once : ∀ n c c' work work', s.Invokes world c (n :: r.wait :: p) work →
    s.Invokes world c' (n :: r.wait :: p) work' → c = c'
  ordered : ∀ m n c c' work work', m < n → s.Invokes world c (m :: r.wait :: p) work →
    s.Invokes world c' (n :: r.wait :: p) work' → ∃ k ≤ c', s.Returns world c k
  all : s.Fair world →
    (∀ n c work, s.Invokes world c (n :: r.wait :: p) work → ∃ k, s.Returns world c k) →
      ∀ n item, items[n]? = some item →
        ∃ k, s.Begun world i k (n :: r.wait :: p) (item.toWork r.frames.limit)
  before : ∀ j y r', i < j → s.Turns world j p y r' → ∀ n item, items[n]? = some item →
    s.Begun world i j (n :: r.wait :: p) (item.toWork r.frames.limit)
  rest : ∀ k, (s.after world k).AtRest → i < k → ∀ n item, items[n]? = some item →
    s.Begun world i k (n :: r.wait :: p) (item.toWork r.frames.limit)
  starts : ∀ n c k recipe, s.Invokes world c (n :: r.wait :: p) (.nested r.frames.limit recipe) →
    s.Returns world c k → ∃ j l, c < j ∧ j < l ∧ l < k ∧
      s.job? world j = some (.start (n :: r.wait :: p) recipe [] r.frames.limit) ∧
      s.Turns world l (n :: r.wait :: p) .start (s.fresh world j recipe [] r.frames.limit)
  made : ∀ n j j' recipe recipe' args args' limit limit',
    s.job? world j = some (.start (n :: r.wait :: p) recipe args limit) →
      s.job? world j' = some (.start (n :: r.wait :: p) recipe' args' limit') → j = j'
  started : ∀ n l l' r' r'' f f', s.Steps world l (n :: r.wait :: p) .start r' f →
    s.Steps world l' (n :: r.wait :: p) .start r'' f' → f.serial = f'.serial → l = l'
  answers : ∀ d d' o job result, s.job? world d = some (.deliver (r.wait :: p) o) →
    s.job? world d' = some job → job.returned? = some (r.wait :: p, result) → d' = d
  late : ∀ d n o o' rest, (.deliver (r.wait :: p) o' ∈ (s.after world d).machine.agenda ∨
      .called (r.wait :: p) o' ∈ (s.after world d).log) →
    s.job? world d = some (.deliver (n :: r.wait :: p) o) →
      (s.after world d).machine.agenda = .deliver (n :: r.wait :: p) o :: rest →
        (s.after world (d + 1)).machine.agenda = rest ∧ ∀ y, y ≠ r.wait :: p →
          (s.after world (d + 1)).machine.nodes.find? y = (s.after world d).machine.nodes.find? y
  results : ∀ d n m o, s.job? world d = some (.deliver (m :: n :: r.wait :: p) o) →
    s.Arrives world d m (n :: r.wait :: p) o
  outlives : ∀ k n, (s.after world k).AtRest → s.Started world k (n :: r.wait :: p) →
    (∃ o, (s.after world k).calls (n :: r.wait :: p) = [o]) ∨
      s.Waiting world k (n :: r.wait :: p) ∨
        ∃ m, .dropped (m :: n :: r.wait :: p) ∈ (s.after world k).log

variable {s world}

/-- A request for several items has them all started, each once and in order, before its run goes
on, and no item is stopped because the join has been settled. -/
theorem fanned_out {i : Nat} {p : Place} {x : Input} {r : Run b} {f : Frame b.Body}
    {items : List (Item b.Recipe b.Note)} (hStep : s.Steps world i p x r f)
    (hAnswer : (s.stepped world i f x).1 = .wait (.all items)) :
    s.FannedOut world i p r items where
  item n c work hInvokes := by
    obtain ⟨i', item, hii', hi'c, -, hItem, hCore⟩ := item_of_request hStep hAnswer hInvokes.job
    exact ⟨Nat.lt_trans hii' hi'c, item, hItem, hCore.trans hInvokes.core⟩
  once n c c' work work' hInvokes hInvokes' := hInvokes.unique hInvokes'
  ordered m n c c' work work' hmn hInvokes hInvokes' :=
    invoked_in_order hStep hAnswer hmn hInvokes hInvokes'
  all hFair hReturns n item hItem := exists_invokes hStep hAnswer hFair hReturns hItem
  before j y r' hij hTurns n item hItem := begun_before_turn hStep hAnswer hij hTurns hItem
  rest k hRest hik n item hItem := begun_by_rest hStep hAnswer hRest hik hItem
  starts n c k recipe hInvokes hReturns := by
    obtain ⟨-, -, hLimit, -⟩ := hStep.turns.start
    exact hInvokes.starts hLimit hReturns
  made n j j' recipe recipe' args args' limit limit' hStart hStart' :=
    start_unique hStart hStart'
  started n l l' r' r'' f f' hFirst hFirst' hSame := by
    have hNever := (stacked_routed hFirst).2.starts.mp rfl
    have hNever' := (stacked_routed hFirst').2.starts.mp rfl
    refine Nat.le_antisymm ?_ ?_
    · exact Nat.le_of_not_lt fun hlt => hNever _ hlt _ _ _ hFirst' hSame.symm
    · exact Nat.le_of_not_lt fun hlt => hNever' _ hlt _ _ _ hFirst hSame
  answers d d' o job result hDeliver hJob hReturned := returned_unique hDeliver hJob hReturned
  late d n o o' rest hAnswered hReport hAgenda := by
    obtain ⟨c, hInvoke, hWorks⟩ := gather_of_report hStep hAnswer hReport
    exact discards hInvoke hWorks hAnswered hReport hAgenda
  results d n m o hDeliver := arrives (List.cons_ne_nil _ _) hDeliver
  outlives k n hRest hStarted := nested_situation (by simp) hRest hStarted

theorem fanned_out_nested : ∃ r f,
    (alone (b := Demo.behaviour) (.fanOutNested [1, 2] "gauge") [] 2).Steps .empty 2 [0]
      .start r f ∧
      ((alone (b := Demo.behaviour) (.fanOutNested [1, 2] "gauge") [] 2).stepped .empty 2 f
        .start).1 =
        .wait (.all [.coroutine (.sleepThenTriple 1 "gauge"),
          .coroutine (.sleepThenTriple 2 "gauge")]) ∧
      (alone (b := Demo.behaviour) (.fanOutNested [1, 2] "gauge") [] 2).FannedOut .empty 2 [0] r
        [.coroutine (.sleepThenTriple 1 "gauge"), .coroutine (.sleepThenTriple 2 "gauge")] := by
  have hStep : (alone (b := Demo.behaviour) (.fanOutNested [1, 2] "gauge") [] 2).Steps .empty 2 [0]
      .start _ _ := ⟨⟨rfl, rfl⟩, rfl⟩
  exact ⟨_, _, hStep, rfl, fanned_out hStep rfl⟩

end Schedule

end Interlace
