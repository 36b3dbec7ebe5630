import Interlace.Proofs.Descent
import Interlace.Proofs.Progress

/-!
# The invocation of the work that a run waits for

A run that asks for work has it invoked, and looks for the result when the invocation is over. The
result is that of this work, whenever it comes.
-/

namespace Interlace

variable {b : Behaviour}

namespace Schedule

variable {s : Schedule b} {world : b.World}

/-! ## Calls -/

theorem agenda_above {k : Nat} {front below : List (Job b)} (hFront : front ≠ [])
    (hAgenda : (s.after world k).machine.agenda = front ++ below) :
    ∃ front', (s.after world (k + 1)).machine.agenda = front' ++ below := by
  rcases s.after_succ world k with ⟨job, rest, -, hFirst, hAfter⟩ | ⟨-, put, hAdded⟩
  · cases front with
    | nil => exact absurd rfl hFront
    | cons first front =>
      rw [hFirst] at hAgenda
      obtain ⟨rfl, rfl⟩ := List.cons.inj hAgenda
      obtain ⟨put, hPut, -⟩ := (Machine.local_perform
        (m := { (s.after world k).machine with agenda := front ++ below }) job).agenda
      refine ⟨put ++ front, ?_⟩
      rw [hAfter, List.append_assoc]
      exact hPut
  · exact ⟨put ++ front, by rw [hAdded.agenda, hAgenda, List.append_assoc]⟩

theorem waits_or_done {l k : Nat} {job : Job b} {rest : List (Job b)} (hlk : l ≤ k)
    (hAgenda : (s.after world l).machine.agenda = job :: rest) :
    (∃ front, (s.after world k).machine.agenda = front ++ job :: rest) ∨
      ∃ c, l ≤ c ∧ c < k ∧ s.job? world c = some job ∧
        (s.after world c).machine.agenda = job :: rest := by
  induction hlk with
  | refl => exact Or.inl ⟨[], hAgenda⟩
  | @step k hlk ih =>
    rcases ih with ⟨front, hFront⟩ | ⟨c, hlc, hck, hDone⟩
    · cases front with
      | cons first front =>
        obtain ⟨front', hFront'⟩ := agenda_above (List.cons_ne_nil first front) hFront
        exact Or.inl ⟨front', hFront'⟩
      | nil =>
        rcases s.after_succ world k with ⟨first, others, hJob, hFirst, -⟩ | ⟨-, put, hAdded⟩
        · rw [hFirst] at hFront
          obtain ⟨rfl, rfl⟩ := List.cons.inj hFront
          exact Or.inr ⟨k, hlk, Nat.lt_succ_self k, hJob, hFirst⟩
        · exact Or.inl ⟨put, by rw [hAdded.agenda, hFront]; rfl⟩
    · exact Or.inr ⟨c, hlc, Nat.lt_succ_of_lt hck, hDone⟩

theorem lasts_or_returns {c k : Nat} {job : Job b} {rest : List (Job b)} (hck : c < k)
    (hAgenda : (s.after world c).machine.agenda = job :: rest) :
    (s.Lasts world c k rest ∧
        ∃ front, front ≠ [] ∧ (s.after world k).machine.agenda = front ++ rest) ∨
      ∃ n ≤ k, s.Returns world c n := by
  have hNow : ∀ {k front}, s.Lasts world c k rest → c < k →
      (s.after world k).machine.agenda = front ++ rest →
      (s.Lasts world c k rest ∧
          ∃ front, front ≠ [] ∧ (s.after world k).machine.agenda = front ++ rest) ∨
        ∃ n ≤ k, s.Returns world c n := by
    intro k front hLasts hck hFront
    cases front with
    | nil => exact Or.inr ⟨k, Nat.le_refl k, hck, rest, hLasts, hFront⟩
    | cons first front => exact Or.inl ⟨hLasts, _, List.cons_ne_nil first front, hFront⟩
  induction hck with
  | refl =>
    obtain ⟨front, hFront⟩ := agenda_above (List.cons_ne_nil job []) hAgenda
    exact hNow ⟨⟨job, hAgenda⟩, fun m hcm hmc => by omega⟩ (Nat.lt_succ_self c) hFront
  | @step k hck ih =>
    rcases ih with ⟨hLasts, front, hFront, hBelow⟩ | ⟨n, hn, hReturns⟩
    · obtain ⟨front', hFront'⟩ := agenda_above hFront hBelow
      exact hNow (hLasts.succ front hFront hBelow) (Nat.lt_succ_of_lt hck) hFront'
    · exact Or.inr ⟨n, Nat.le_succ_of_le hn, hReturns⟩

theorem deliver_unique {d d' : Nat} {x : Place} {o o' : Outcome}
    (hDeliver : s.job? world d = some (.deliver x o))
    (hDeliver' : s.job? world d' = some (.deliver x o')) : d = d' := by
  have hOrder : ∀ {d d' : Nat} {o o' : Outcome}, s.job? world d = some (.deliver x o) →
      s.job? world d' = some (.deliver x o') → ¬ d < d' := by
    intro d d' o o' hJob hJob' hdd'
    have hCalled := (s.called_log world).mpr ⟨d, hdd', hJob⟩
    exact not_returning_of_closed (mem_closed hCalled rfl)
      (mem_returning (mem_agenda_of_job hJob') (by simp [Job.returning]))
  have := hOrder hDeliver hDeliver'
  have := hOrder hDeliver' hDeliver
  omega

theorem lt_of_invoke_deliver {c d : Nat} {x : Place} {work : Work b.Recipe b.Note} {o : Outcome}
    (hInvoke : s.job? world c = some (.invoke x work))
    (hDeliver : s.job? world d = some (.deliver x o)) : c < d := by
  by_contra hdc
  have hDormant := dormant_of_job hInvoke (p := x) (by simp [Job.dormant])
  rcases Nat.lt_or_eq_of_le (Nat.le_of_not_lt hdc) with hdc | rfl
  · have hCalled := (s.called_log world).mpr ⟨d, hdc, hDeliver⟩
    exact (s.sound world c).not_returned_of_dormant hDormant
      (List.mem_append_right _ (mem_closed hCalled rfl))
  · rw [hInvoke] at hDeliver
    cases hDeliver

/-! ## Work that a run waits for -/

section

variable {l : Nat} {p : Place} {x : Input} {r : Run b} {work : Work b.Recipe b.Note} {u : Uptake}
  (hTurns : s.Turns world l p x r) (hTurn : (s.turned world l x r).turn = .await work u)
include hTurns hTurn

theorem agenda_of_await_at {rest : List (Job b)}
    (hAgenda : (s.after world l).machine.agenda = .drive p x :: rest) :
    (s.after world (l + 1)).machine.agenda =
      .invoke (r.wait :: p) work :: .check p :: rest := by
  have hAfter := s.after_succ_at world hTurns.job hAgenda
  have hNext := hTurn
  rw [turned] at hNext
  cases (s.sound world l).run_step hAgenda hTurns.find with
  | elsewhere hSite => exact absurd rfl hSite
  | next _ hTurn' | finish _ hTurn' | escape _ _ hTurn' =>
    rw [hNext] at hTurn'
    cases hTurn'
  | await _ hTurn' hDoes =>
    rw [hNext] at hTurn'
    cases hTurn'
    exact (does_succ hAfter hDoes).2.1

theorem agenda_of_await : ∃ rest, (s.after world (l + 1)).machine.agenda =
    .invoke (r.wait :: p) work :: .check p :: rest := by
  obtain ⟨rest, hAgenda, -⟩ := s.after_succ_of_job world hTurns.job
  exact ⟨rest, agenda_of_await_at hTurns hTurn hAgenda⟩

theorem returns_of_check {m : Nat} (hlm : l < m) (hCheck : s.job? world m = some (.check p)) :
    ∃ c n, l < c ∧ n ≤ m ∧ s.job? world c = some (.invoke (r.wait :: p) work) ∧
      s.Returns world c n := by
  obtain ⟨rest, hAgenda⟩ := agenda_of_await hTurns hTurn
  obtain ⟨others, hNow, -⟩ := s.after_succ_of_job world hCheck
  -- Only one check of the run is on the agenda, so nothing stands in front of this one.
  have hOnce : ∀ front, front ≠ [] →
      (s.after world m).machine.agenda ≠ front ++ .check p :: rest := by
    intro front hFront hBelow
    have hSteers : (.check p : Job b).steers p = true := by simp [Job.steers]
    cases front with
    | nil => exact hFront rfl
    | cons first front =>
      rw [hNow] at hBelow
      obtain ⟨-, hOthers⟩ := List.cons.inj hBelow
      have hNone := (s.sound world m).steers_once hNow hSteers (.check p) (by simp [hOthers])
      rw [hSteers] at hNone
      cases hNone
  rcases waits_or_done (Nat.succ_le_of_lt hlm) hAgenda with
    ⟨front, hFront⟩ | ⟨c, hlc, hcm, hInvoke, hFirst⟩
  · refine absurd ?_ (hOnce (front ++ [.invoke (r.wait :: p) work]) (by simp))
    simp [hFront]
  · rcases lasts_or_returns hcm hFirst with ⟨-, front, hFront, hBelow⟩ | ⟨n, hn, hReturns⟩
    · exact absurd hBelow (hOnce front hFront)
    · exact ⟨c, n, hlc, hn, hInvoke, hReturns⟩

theorem core_of_invoke {c : Nat} {work' : Work b.Recipe b.Note}
    (hInvoke : s.job? world c = some (.invoke (r.wait :: p) work')) : work'.core = work.core := by
  obtain ⟨whole, hCore, hBehalf⟩ := behalf hInvoke
  rw [← hCore]
  generalize hPlace : r.wait :: p = place at hBehalf
  cases hBehalf with
  | @item l' n q _ ws hl' hItems =>
    obtain ⟨-, rfl⟩ := List.cons.inj hPlace
    obtain ⟨i, -, hLimit, recipe, args, hStart⟩ := hTurns.start
    obtain ⟨j, -, all, hAll, hGather, -⟩ := handed_of_items hItems
    cases all with
    | nil => exact absurd rfl hAll
    | cons => exact (start_ne_gather hStart hGather).elim
  | @run l' p' y r' _ u' hl' hDrive hFind hTurn' =>
    obtain ⟨hWait, rfl⟩ := List.cons.inj hPlace
    have hTurns' : s.Turns world l' p y r' := ⟨hDrive, hFind⟩
    rcases Nat.lt_trichotomy l l' with hll' | rfl | hll'
    · have := (wait_lt hTurns hTurns' hll').2 work u hTurn
      omega
    · have hJob := hTurns.job.symm.trans hDrive
      have hRun := hTurns.find.symm.trans hFind
      cases hJob
      cases hRun
      rw [turned, hTurn'] at hTurn
      cases hTurn
      rfl
    · have := (wait_lt hTurns' hTurns hll').2 whole u' hTurn'
      omega

theorem result_of_deliver {d : Nat} {o : Outcome}
    (hDeliver : s.job? world d = some (.deliver (r.wait :: p) o)) :
    s.Result world d (r.wait :: p) work.core o := by
  have hLength : 2 ≤ (r.wait :: p).length := by
    have := List.length_pos_iff_ne_nil.mpr ((s.sound world l).ne_nil_of_find? hTurns.find)
    simp only [List.length_cons]
    omega
  obtain ⟨c, -, work', hInvoke, hResult⟩ :=
    handed_of_deliver (mem_agenda_of_job hDeliver) hLength
  have hCore : work'.core = work' := by cases hResult <;> rfl
  rw [← core_of_invoke hTurns hTurn hInvoke, hCore]
  exact hResult

end

end Schedule

end Interlace
