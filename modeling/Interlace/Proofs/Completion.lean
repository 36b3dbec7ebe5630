import Interlace.Proofs.Accounts
import Interlace.Proofs.Routing

/-!
# Schedules that have gone to their end

When all jobs are done, whatever was on the agenda has been done. When besides no continuation is
held and none was dropped, all work that was ever invoked has been completed.
-/

namespace Interlace

variable {b : Behaviour}

namespace Schedule

variable {s : Schedule b} {world : b.World}

theorem core_unique {c c' : Nat} {x : Place} {work work' : Work b.Recipe b.Note}
    (hInvoke : s.job? world c = some (.invoke x work))
    (hInvoke' : s.job? world c' = some (.invoke x work')) : work.core = work'.core := by
  obtain ⟨whole, hCore, hBehalf⟩ := behalf hInvoke
  cases hBehalf with
  | run _ hDrive hFind hTurn =>
    have hTurns : s.Turns world _ _ _ _ := ⟨hDrive, hFind⟩
    rw [core_of_invoke hTurns hTurn hInvoke, core_of_invoke hTurns hTurn hInvoke']
  | item _ hItems =>
    obtain ⟨i, -, works, hWorks, hGather, -⟩ := handed_of_items hItems
    obtain ⟨w, ws, rfl⟩ := List.exists_cons_of_ne_nil hWorks
    obtain ⟨v, hv, hItem⟩ := item_of_invoke hGather hInvoke
    obtain ⟨v', hv', hItem'⟩ := item_of_invoke hGather hInvoke'
    rw [hv] at hv'
    cases hv'
    rw [← hItem, hItem']

section

variable {k : Nat} (hRest : (s.after world k).AtRest)
include hRest

theorem done_by_rest {j : Nat} {job : Job b} (hMem : job ∈ (s.after world j).machine.agenda)
    (hjk : j ≤ k) : ∃ l, j ≤ l ∧ l < k ∧ s.job? world l = some job := by
  rcases s.mem_or_done world hMem hjk with hMem | hDone
  · exact absurd hMem (not_mem_of_rest hRest job)
  · exact hDone

theorem next_by_rest {j : Nat} {job job' : Job b} (hJob : s.job? world j = some job) (hjk : j < k)
    (hPut : ∀ rest, job' ∈ ((s.after world j).afterJob job rest).machine.agenda) :
    ∃ l, j < l ∧ l < k ∧ s.job? world l = some job' := by
  obtain ⟨rest, -, hAfter⟩ := s.after_succ_of_job world hJob
  have hMem := hPut rest
  rw [← hAfter] at hMem
  exact done_by_rest hRest hMem hjk

theorem invoke_of_noted {j : Nat} {x : Place} {note : b.Note} {work : Work b.Recipe b.Note}
    (hInvoke : s.job? world j = some (.invoke x (.noted note work))) (hjk : j < k) :
    ∃ l, j < l ∧ l < k ∧ s.job? world l = some (.invoke x work) :=
  next_by_rest hRest hInvoke hjk fun _ => List.mem_cons_self

theorem start_of_nested {j limit : Nat} {x : Place} {recipe : b.Recipe}
    (hInvoke : s.job? world j = some (.invoke x (.nested limit recipe))) (hjk : j < k) :
    ∃ l, j < l ∧ l < k ∧ s.job? world l = some (.start x recipe [] limit) :=
  next_by_rest hRest hInvoke hjk fun _ => List.mem_cons_self

theorem items_of_gather {j n : Nat} {q : Place} {works : List (Work b.Recipe b.Note)}
    (hWorks : works ≠ []) (hInvoke : s.job? world j = some (.invoke q (.gather works)))
    (hjk : j < k) (hn : n ≤ works.length) :
    ∃ l, j < l ∧ l < k ∧ s.job? world l = some (.items q n (works.drop n)) := by
  induction n with
  | zero =>
    obtain ⟨w, ws, rfl⟩ := List.exists_cons_of_ne_nil hWorks
    exact next_by_rest hRest hInvoke hjk fun _ => List.mem_cons_self
  | succ n ih =>
    obtain ⟨l, hjl, hlk, hItems⟩ := ih (Nat.le_of_succ_le hn)
    rw [List.drop_eq_getElem_cons hn] at hItems
    obtain ⟨m, hlm, hmk, hJob⟩ := next_by_rest hRest hItems hlk fun _ =>
      List.mem_cons_of_mem _ (List.mem_cons_self (a := Job.items q (n + 1) (works.drop (n + 1))))
    exact ⟨m, Nat.lt_trans hjl hlm, hmk, hJob⟩

theorem invoke_of_gather {j n : Nat} {q : Place} {work : Work b.Recipe b.Note}
    {works : List (Work b.Recipe b.Note)}
    (hInvoke : s.job? world j = some (.invoke q (.gather works))) (hjk : j < k)
    (hItem : works[n]? = some work) :
    ∃ l, j < l ∧ l < k ∧ s.job? world l = some (.invoke (n :: q) work) := by
  obtain ⟨hn, hWork⟩ := List.getElem?_eq_some_iff.mp hItem
  have hWorks : works ≠ [] := by
    rintro rfl
    exact absurd hn (Nat.not_lt_zero n)
  obtain ⟨l, hjl, hlk, hItems⟩ := items_of_gather hRest hWorks hInvoke hjk (Nat.le_of_lt hn)
  rw [List.drop_eq_getElem_cons hn, hWork] at hItems
  obtain ⟨m, hlm, hmk, hJob⟩ := next_by_rest hRest hItems hlk fun _ => List.mem_cons_self
  exact ⟨m, Nat.lt_trans hjl hlm, hmk, hJob⟩

theorem Turns.invoke_by_rest {l : Nat} {p : Place} {x : Input} {r : Run b}
    {work : Work b.Recipe b.Note} {u : Uptake} (h : s.Turns world l p x r)
    (hTurn : (s.turned world l x r).turn = .await work u) (hlk : l < k) :
    ∃ c, l < c ∧ c < k ∧ s.job? world c = some (.invoke (r.wait :: p) work) := by
  obtain ⟨rest, hAgenda⟩ := agenda_of_await h hTurn
  refine done_by_rest hRest ?_ hlk
  rw [hAgenda]
  exact List.mem_cons_self

theorem first_by_rest {i limit : Nat} {p : Place} {recipe : b.Recipe} {args : List Datum}
    (hLimit : 0 < limit) (hStart : s.job? world i = some (.start p recipe args limit))
    (hik : i < k) : ∃ j < k, s.Turns world j p .start (s.fresh world i recipe args limit) ∧
      ∀ m < j, ∀ y, s.job? world m ≠ some (.drive p y) := by
  have hPut : ∀ rest, .drive p .start ∈
      ((s.after world i).afterJob (.start p recipe args limit) rest).machine.agenda := by
    intro rest
    rw [(History.does_start hLimit rest).agenda]
    exact List.mem_cons_self
  obtain ⟨l, -, hlk, hDrive⟩ := next_by_rest hRest hStart hik hPut
  -- Going back from this step leads to the first one.
  have hFirst : ∀ l < k, ∀ x r, s.Turns world l p x r →
      ∃ j < k, s.Turns world j p .start (s.fresh world i recipe args limit) ∧
        ∀ m < j, ∀ y, s.job? world m ≠ some (.drive p y) := by
    intro l
    induction l using Nat.strongRecOn with
    | ind l ih =>
      intro hlk x r hTurns
      have hFollows := hTurns.follows hLimit hStart
      cases hFollows with
      | first hNone => exact ⟨l, hlk, hTurns, hNone⟩
      | next hLast | told hLast =>
        exact ih _ hLast.before (Nat.lt_trans hLast.before hlk) _ _ hLast.turns
  obtain ⟨r, hTurns⟩ := exists_turns hDrive
  exact hFirst l hlk _ r hTurns

end

/-! ## All work is completed -/

variable (s world)

/-- After `k` moves all jobs are done, and no continuation is held or was dropped. -/
structure Complete (k : Nat) : Prop where
  rest : (s.after world k).AtRest
  held : (s.after world k).machine.held = []
  careful : ∀ x, ¬ s.Discarded world k x

variable {s world}

namespace Complete

variable {k : Nat} (h : s.Complete world k)
include h

theorem not_live (x : Place) : x ∉ (s.after world k).machine.live := by
  intro hLive
  rw [Machine.live, h.rest, h.held] at hLive
  have hOpened : x ∈ (s.after world k).machine.nodes.opened := by simpa using hLive
  obtain ⟨leaf, hLeaf, -⟩ := (s.sound world k).exists_leaf h.rest hOpened
  rw [h.held] at hLeaf
  cases hLeaf

theorem called {x : Place} (hLedger : x ∈ (s.after world k).ledger) (hNested : 2 ≤ x.length) :
    ∃ d < k, ∃ o, s.job? world d = some (.deliver x o) := by
  rcases List.mem_append.mp hLedger with hLive | hClosed
  · exact absurd hLive (h.not_live x)
  · obtain ⟨event, hEvent, hx⟩ := List.mem_filterMap.mp hClosed
    cases event with
    | called y o =>
      cases hx
      obtain ⟨d, hdk, hDeliver⟩ := (s.called_log world).mp hEvent
      exact ⟨d, hdk, o, hDeliver⟩
    | dropped y =>
      obtain ⟨leaf, hDiscarded⟩ := exists_discarded h.rest hEvent
      exact absurd hDiscarded (h.careful leaf)
    | escaped n e =>
      cases hx
      simp at hNested
    | _ => cases hx

theorem result {j : Nat} {x : Place} {work : Work b.Recipe b.Note}
    (hInvoke : s.job? world j = some (.invoke x work)) (hjk : j < k) :
    ∃ d < k, ∃ o, s.job? world d = some (.deliver x o) := by
  refine h.called ?_ (nested_of_invoke hInvoke)
  refine (s.kept world (Nat.le_of_lt hjk)).ledger x (History.mem_ledger_of_dormant ?_)
  exact dormant_of_job hInvoke (by simp [Job.dormant])

end Complete

end Schedule

end Interlace
