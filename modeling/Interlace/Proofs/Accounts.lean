import Interlace.Proofs.Joins
import Interlace.Showcase
import Mathlib.Logic.Relation

/-!
# No run is lost

At rest every run that was started has settled, is abandoned, or is parked with a continuation
that is still held and leads to it.
-/

namespace Interlace

variable {b : Behaviour}

/-- Calling the continuation `x` goes on to `p`: the run at `p` is parked and waits for it, or the
join at `p` waits for its report. -/
inductive Machine.Link (m : Machine b) : Place → Place → Prop where
  | cell {p : Place} {r : Run b} {u : Uptake} (hFind : m.nodes.find? p = some (.run r))
      (hPhase : r.phase = .parked u) : Link m (r.wait :: p) p
  | report {q : Place} {g : Gather} {n : Nat} (hFind : m.nodes.find? q = some (.gather g))
      (hOpen : g.settled = false) (hVacant : g.slots[n]? = some none) : Link m (n :: q) q

theorem exists_bound (places : List Place) : ∃ bound, ∀ x ∈ places, x.length ≤ bound := by
  induction places with
  | nil => exact ⟨0, by simp⟩
  | cons x places ih =>
    obtain ⟨bound, hBound⟩ := ih
    refine ⟨max x.length bound, fun y hy => ?_⟩
    rcases List.mem_cons.mp hy with rfl | hy
    · exact Nat.le_max_left _ _
    · exact Nat.le_trans (hBound y hy) (Nat.le_max_right _ _)

namespace History

variable {h : History b}

namespace Sound

theorem exists_link (hs : h.Sound) (hRest : h.AtRest) {p : Place}
    (hp : p ∈ h.machine.nodes.opened) :
    ∃ n, h.machine.Link (n :: p) p ∧ n :: p ∈ h.machine.live := by
  obtain ⟨node, hFind, hNode⟩ := Table.find?_of_mem_opened hs.keyed hp
  have hSteering : h.machine.steering p = [] := by
    rw [Machine.steering, hRest]
    rfl
  have hFits := hs.fits p (hs.ne_nil_of_find? hFind)
  rw [hFind] at hFits
  cases hFits with
  | driving _ _ _ hOne | invoking _ _ _ hOne | notified _ _ _ _ hOne =>
    simp only [Machine.view, hSteering] at hOne
    cases hOne
  | @parked r u hPhase _ hParts =>
    have hParts : h.machine.parts p = [r.wait] := hParts
    refine ⟨r.wait, .cell hFind hPhase, Machine.mem_parts.mp ?_⟩
    rw [hParts]
    exact List.mem_singleton_self _
  | @gathering g hAwaits hHolders hHeld _ _ =>
    have hOpen : g.settled = false := by
      by_contra hSettled
      simp [Node.opened, hSettled] at hNode
    have hStarting : h.machine.starting p = 0 := by
      rw [Machine.starting, hRest]
      rfl
    have hLength : 0 < (h.machine.parts p).length := by
      simp only [Machine.view, hStarting] at hHolders
      omega
    obtain ⟨n, hn⟩ := List.exists_mem_of_length_pos hLength
    exact ⟨n, .report hFind hOpen ((hAwaits hOpen).vacant n hn), Machine.mem_parts.mp hn⟩

theorem parked (hs : h.Sound) (hRest : h.AtRest) {p : Place} {r : Run b}
    (hFind : h.machine.nodes.find? p = some (.run r)) : ∃ u, r.phase = .parked u := by
  obtain ⟨n, hLink, -⟩ := hs.exists_link hRest (hs.opened_of_run hFind)
  cases hLink with
  | cell hFind' hPhase =>
    rw [hFind] at hFind'
    cases hFind'
    exact ⟨_, hPhase⟩
  | report hFind' =>
    rw [hFind] at hFind'
    cases hFind'

theorem exists_leaf (hs : h.Sound) (hRest : h.AtRest) {p : Place}
    (hp : p ∈ h.machine.nodes.opened) :
    ∃ leaf ∈ h.machine.held, Relation.TransGen h.machine.Link leaf.place p := by
  obtain ⟨bound, hBound⟩ := exists_bound h.machine.live
  have hLive : h.machine.live = h.machine.held.map Held.place ++ h.machine.nodes.opened := by
    rw [Machine.live, hRest]
    rfl
  -- The induction is on how much deeper a live continuation could be.
  have hDeep : ∀ fuel p, p ∈ h.machine.nodes.opened → bound < p.length + fuel →
      ∃ leaf ∈ h.machine.held, Relation.TransGen h.machine.Link leaf.place p := by
    intro fuel
    induction fuel with
    | zero =>
      intro p hp hFuel
      have := hBound p (by rw [hLive]; exact List.mem_append_right _ hp)
      omega
    | succ fuel ih =>
      intro p hp hFuel
      obtain ⟨n, hLink, hMem⟩ := hs.exists_link hRest hp
      rw [hLive] at hMem
      rcases List.mem_append.mp hMem with hHeld | hOpened
      · obtain ⟨leaf, hLeaf, hPlace⟩ := List.mem_map.mp hHeld
        exact ⟨leaf, hLeaf, .single (hPlace ▸ hLink)⟩
      · have hLength : (n :: p).length = p.length + 1 := rfl
        obtain ⟨leaf, hLeaf, hLeads⟩ := ih (n :: p) hOpened (by omega)
        exact ⟨leaf, hLeaf, hLeads.tail hLink⟩
  exact hDeep (bound + 1) p hp (by omega)

end Sound

end History

namespace Schedule

variable (s : Schedule b) (world : b.World)

/-- A run was started with the continuation `p`. -/
def Started (k : Nat) (p : Place) : Prop :=
  ∃ i < k, ∃ recipe args limit, s.job? world i = some (.start p recipe args limit)

/-- A join of `width` items was started with the continuation `q`. -/
def Joined (k : Nat) (q : Place) (width : Nat) : Prop :=
  ∃ i < k, ∃ w ws, s.job? world i = some (.invoke q (.gather (w :: ws))) ∧ width = ws.length + 1

/-- An operation, or whoever it left the continuation `x` to, dropped it. -/
def Discarded (k : Nat) (x : Place) : Prop :=
  ∃ j < k, (s j = .drop x ∧ x ∈ (s.after world j).machine.held.map Held.place) ∨
    ∃ w, s.job? world j = some (.invoke x (.primitive w)) ∧ w.fate = .drop

/-- Every item of the join at `q` has succeeded or was dropped, and one was dropped. -/
def Bereft (k : Nat) (q : Place) (width : Nat) : Prop :=
  (∀ n < width, s.Succeeded world k q n ∨ .dropped (n :: q) ∈ (s.after world k).log) ∧
    ∃ n < width, .dropped (n :: q) ∈ (s.after world k).log

/-- The outcome of the run at `p` was handed over once, or has escaped. -/
def Settled (k : Nat) (p : Place) : Prop :=
  (∃ o, (s.after world k).calls p = [o]) ∨
    ∃ n e, p = [n] ∧ .escaped n e ∈ (s.after world k).log

/-- The continuation of the run at `p` was dropped and will never be called. -/
def Abandoned (k : Nat) (p : Place) : Prop :=
  .dropped p ∈ (s.after world k).log ∧ ∀ k', (s.after world k').calls p = []

/-- The run at `p` is parked, and a continuation that is held, not used up, leads to it. -/
def Waiting (k : Nat) (p : Place) : Prop :=
  (∃ r u, (s.after world k).machine.nodes.find? p = some (.run r) ∧ r.phase = .parked u) ∧
    ∃ leaf ∈ (s.after world k).machine.held, leaf.place ∉ (s.after world k).closed ∧
      Relation.TransGen (s.after world k).machine.Link leaf.place p

def Cause (k : Nat) (x : Place) : Prop :=
  s.Started world k x ∨ (∃ width, s.Joined world k x width) ∨ s.Discarded world k x

variable {s world}

theorem Cause.succ {k : Nat} {x : Place} (h : s.Cause world k x) : s.Cause world (k + 1) x := by
  rcases h with ⟨i, hi, h⟩ | ⟨width, i, hi, h⟩ | ⟨i, hi, h⟩
  · exact Or.inl ⟨i, Nat.lt_succ_of_lt hi, h⟩
  · exact Or.inr (Or.inl ⟨width, i, Nat.lt_succ_of_lt hi, h⟩)
  · exact Or.inr (Or.inr ⟨i, Nat.lt_succ_of_lt hi, h⟩)

theorem cause_of_find? {k : Nat} {x : Place} {node : Node b}
    (hFind : (s.after world k).machine.nodes.find? x = some node) : s.Cause world k x := by
  cases node with
  | run r =>
    obtain ⟨i, hi, -, recipe, args, hStart⟩ := origin hFind
    exact Or.inl ⟨i, hi, recipe, args, _, hStart⟩
  | gather g =>
    obtain ⟨i, hi, w, ws, hInvoke⟩ := origin hFind
    exact Or.inr (Or.inl ⟨_, i, hi, w, ws, hInvoke, rfl⟩)

theorem drop_of_invoke {k : Nat} {x : Place} {work : Work b.Recipe b.Note} {rest : List (Job b)}
    (hJob : s.job? world k = some (.invoke x work)) (hRest : .drop x ∉ rest)
    (hDrop : .drop x ∈ ((s.after world k).afterJob (.invoke x work) rest).machine.agenda) :
    ∃ w, s.job? world k = some (.invoke x (.primitive w)) ∧ w.fate = .drop := by
  cases work with
  | primitive w =>
    refine ⟨w, hJob, ?_⟩
    have hPut : .drop x ∈ w.before.map Job.poke ++
        Machine.fateJob x w.fate :: w.after.map (Job.poke (b := b)) ++ rest := hDrop
    cases hFate : w.fate with
    | drop => rfl
    | complete | keep | delay =>
      rw [hFate] at hPut
      simp [Machine.fateJob, hRest] at hPut
  | noted note work | nested limit recipe =>
    rcases List.mem_cons.mp hDrop with hDrop | hDrop
    · cases hDrop
    · exact absurd hDrop hRest
  | gather items =>
    cases items <;>
    · rcases List.mem_cons.mp hDrop with hDrop | hDrop
      · cases hDrop
      · exact absurd hDrop hRest

theorem cause_of_gone {k : Nat} {x : Place} (hGone : s.Gone world k x) : s.Cause world k x := by
  induction k with
  | zero => rcases hGone with hDrop | hDropped <;> cases ‹_ ∈ _›
  | succ k ih =>
    by_cases hOld : s.Gone world k x
    · exact (ih hOld).succ
    have hx : x ≠ [] :=
      ((s.sound world (k + 1)).rooted x (History.mem_ledger_of_returned hGone.returned)).1
    rcases s.after_succ world k with ⟨job, rest, hJob, hAgenda, hAfter⟩ | ⟨-, put, hAdded⟩
    · have hDrop : .drop x ∈ (s.after world (k + 1)).machine.agenda := by
        rcases hGone with hDrop | hDropped
        · exact hDrop
        · rcases (dropped_succ hJob).mp hDropped with hDropped | rfl
          · exact absurd (Or.inr hDropped) hOld
          · exact absurd (Or.inl (by simp [hAgenda])) hOld
      have hRest : .drop x ∉ rest := fun hMem =>
        hOld (Or.inl (by rw [hAgenda]; exact List.mem_cons_of_mem _ hMem))
      obtain ⟨put, hPut, hDrops⟩ := (Machine.local_perform
        (m := { (s.after world k).machine with agenda := rest }) job).agenda
      have hSite : job.site = some x := by
        rw [hAfter, History.afterJob, hPut] at hDrop
        rcases List.mem_append.mp hDrop with hDrop | hDrop
        · exact hDrops x hDrop
        · exact absurd hDrop hRest
      by_cases hDormant : x ∈ job.dormant
      case neg =>
        obtain ⟨node, hFind⟩ := (s.sound world k).find?_of_site hAgenda hx hSite hDormant
        exact (cause_of_find? hFind).succ
      cases job with
      | hold | poke | tell => cases hSite
      | drive | check | deliver | drop => cases hDormant
      | items p index ws =>
        cases hSite
        obtain ⟨n, -, -, hEq⟩ := mem_itemPlaces.mp hDormant
        exact absurd hEq (by simp)
      | start p recipe args limit =>
        cases hSite
        exact Or.inl ⟨k, Nat.lt_succ_self k, recipe, args, limit, hJob⟩
      | invoke p work =>
        cases hSite
        rw [hAfter] at hDrop
        exact Or.inr (Or.inr ⟨k, Nat.lt_succ_self k, Or.inr (drop_of_invoke hJob hRest hDrop)⟩)
    · rw [Gone, hAdded.agenda, hAdded.log, List.mem_append] at hGone
      rcases hGone with (hDrop | hDrop) | hDropped
      · rcases hAdded.put with rfl | ⟨n, recipe, args, limit, -, -, rfl⟩ | ⟨p, o, -, -, rfl⟩ |
          ⟨p, hMove, hHeld, rfl⟩
        · cases hDrop
        · simp at hDrop
        · simp at hDrop
        · cases List.mem_singleton.mp hDrop
          exact Or.inr (Or.inr ⟨k, Nat.lt_succ_self k, Or.inl ⟨hMove, hHeld⟩⟩)
      · exact absurd (Or.inl hDrop) hOld
      · exact absurd (Or.inr hDropped) hOld

/-! ## At rest -/

theorem dropped_of_gone {k : Nat} {x : Place} (hRest : (s.after world k).AtRest)
    (hGone : s.Gone world k x) : .dropped x ∈ (s.after world k).log := by
  rcases hGone with hDrop | hDropped
  · rw [hRest] at hDrop
    cases hDrop
  · exact hDropped

theorem called_of_told {k : Nat} {x : Place} (hRest : (s.after world k).AtRest)
    (hTold : s.Told world k x) : ∃ o, .called x o ∈ (s.after world k).log := by
  rcases hTold with ⟨o, hDeliver⟩ | hCalled
  · rw [hRest] at hDeliver
    cases hDeliver
  · exact hCalled

theorem abandoned_of_dropped {k : Nat} {p : Place} (hDropped : .dropped p ∈ (s.after world k).log) :
    s.Abandoned world k p := by
  refine ⟨hDropped, fun k' => List.eq_nil_iff_forall_not_mem.mpr fun o hCalled => ?_⟩
  have hCalled := s.mem_log world (Nat.le_max_right k k') (History.mem_calls.mp hCalled)
  have hDropped := s.mem_log world (Nat.le_max_left k k') hDropped
  cases closed_unique hDropped hCalled rfl rfl

theorem not_settled_of_opened {k : Nat} {p : Place}
    (hOpened : p ∈ (s.after world k).machine.nodes.opened) : ¬ s.Settled world k p := by
  rintro (⟨o, hCalled⟩ | ⟨n, e, rfl, hEscaped⟩)
  · rw [calls_eq_nil (Or.inl hOpened)] at hCalled
    cases hCalled
  · exact not_opened_of_closed (mem_closed hEscaped rfl) hOpened

theorem not_settled_of_dropped {k : Nat} {p : Place}
    (hDropped : .dropped p ∈ (s.after world k).log) : ¬ s.Settled world k p := by
  rintro (⟨o, hCalled⟩ | ⟨n, e, rfl, hEscaped⟩)
  · rw [(abandoned_of_dropped hDropped).2 k] at hCalled
    cases hCalled
  · cases closed_unique hDropped hEscaped rfl rfl

theorem situation {k : Nat} {p : Place} (hRest : (s.after world k).AtRest)
    (hStarted : s.Started world k p) :
    s.Settled world k p ∨ s.Abandoned world k p ∨ s.Waiting world k p := by
  have hs := s.sound world k
  obtain ⟨i, hik, recipe, args, limit, hStart⟩ := hStarted
  rcases touched_of_start hStart hik with hOpened | hReturned
  · refine Or.inr (Or.inr ⟨?_, ?_⟩)
    · obtain ⟨node, hFind, -⟩ := Table.find?_of_mem_opened hs.keyed hOpened
      cases node with
      | gather g =>
        obtain ⟨j, -, w, ws, hInvoke⟩ := origin hFind
        exact (start_ne_gather hStart hInvoke).elim
      | run r =>
        obtain ⟨u, hPhase⟩ := hs.parked hRest hFind
        exact ⟨r, u, hFind, hPhase⟩
    · obtain ⟨leaf, hLeaf, hLeads⟩ := hs.exists_leaf hRest hOpened
      refine ⟨leaf, hLeaf, fun hClosed => ?_, hLeads⟩
      refine (List.nodup_append'.mp hs.once).2.2 ?_ hClosed
      exact List.mem_append_right _ (List.mem_append_left _ (List.mem_map.mpr ⟨leaf, hLeaf, rfl⟩))
  · rcases returned_cases hReturned with hGone | hTold | ⟨n, e, hp, hEscaped⟩
    · exact Or.inr (Or.inl (abandoned_of_dropped (dropped_of_gone hRest hGone)))
    · obtain ⟨o, hCalled⟩ := called_of_told hRest hTold
      exact Or.inl (Or.inl ⟨o, calls_eq_singleton hCalled⟩)
    · exact Or.inl (Or.inr ⟨n, e, hp, hEscaped⟩)

theorem run_dropped_iff {k : Nat} {p : Place} (hRest : (s.after world k).AtRest)
    (hStarted : s.Started world k p) :
    .dropped p ∈ (s.after world k).log ↔ ∃ n, .dropped (n :: p) ∈ (s.after world k).log := by
  obtain ⟨i, hik, recipe, args, limit, hStart⟩ := hStarted
  have hFate := runFate hStart hik
  constructor
  · exact fun hDropped => hFate.gone (Or.inr hDropped)
  · rintro ⟨n, hDropped⟩
    rcases hFate.dropped n hDropped with ⟨r, u, hFind, hLost⟩ | hGone
    · have hOpened := (s.sound world k).opened_of_run hFind
      obtain ⟨n, hLink, -⟩ := (s.sound world k).exists_link hRest hOpened
      cases hLink with
      | cell hFind' hPhase =>
        rw [hFind] at hFind'
        cases hFind'
        rw [hLost] at hPhase
        cases hPhase
      | report hFind' =>
        rw [hFind] at hFind'
        cases hFind'
    · exact dropped_of_gone hRest hGone

theorem join_dropped_iff {k : Nat} {q : Place} {width : Nat} (hRest : (s.after world k).AtRest)
    (hJoined : s.Joined world k q width) :
    .dropped q ∈ (s.after world k).log ↔ s.Bereft world k q width := by
  obtain ⟨i, hik, w, ws, hInvoke, rfl⟩ := hJoined
  cases (joinFate hInvoke hik).2 with
  | @awaiting g hFind hOpen hTallied =>
    have hOpened : q ∈ (s.after world k).machine.nodes.opened :=
      Table.mem_opened_of_find? (s.sound world k).keyed hFind (by simp [Node.opened, hOpen])
    refine ⟨fun hDropped => absurd (Or.inr hDropped) (not_gone_of_opened hOpened), fun h => ?_⟩
    obtain ⟨n, hLink, hLive⟩ := (s.sound world k).exists_link hRest hOpened
    have hClosed : n :: q ∉ (s.after world k).closed := fun hClosed =>
      (List.nodup_append'.mp (s.sound world k).once).2.2 hLive hClosed
    have hn : n < ws.length + 1 := by
      cases hLink with
      | cell hFind' =>
        rw [hFind] at hFind'
        cases hFind'
      | report hFind' _ hVacant =>
        rw [hFind] at hFind'
        cases hFind'
        rw [← hTallied.length]
        exact (List.getElem?_eq_some_iff.mp hVacant).1
    rcases h.1 n hn with ⟨d, hCalled⟩ | hDropped
    · exact absurd (mem_closed hCalled rfl) hClosed
    · exact absurd (mem_closed hDropped rfl) hClosed
  | told hTold hWhy =>
    refine ⟨fun hDropped => absurd hTold (Gone.not_told (Or.inr hDropped)), ?_⟩
    rintro ⟨hAll, hSome⟩
    rcases hWhy with ⟨n, hn, e, hFailed⟩ | hSucceeded
    · rcases hAll n hn with ⟨d, hCalled⟩ | hDropped
      · cases closed_unique hCalled hFailed rfl rfl
      · cases closed_unique hDropped hFailed rfl rfl
    · obtain ⟨n, hn, hDropped⟩ := hSome
      obtain ⟨d, hCalled⟩ := hSucceeded n hn
      cases closed_unique hCalled hDropped rfl rfl
  | gone hFind hGone hAll hSome =>
    exact ⟨fun _ => ⟨hAll, hSome⟩, fun _ => dropped_of_gone hRest hGone⟩

theorem gone_of_discarded {k : Nat} {x : Place} (h : s.Discarded world k x) : s.Gone world k x := by
  obtain ⟨j, hjk, hDrop⟩ := h
  have hNext : s.Gone world (j + 1) x := by
    rcases hDrop with ⟨hMove, hHeld⟩ | ⟨w, hJob, hFate⟩
    · obtain ⟨others, hTake⟩ := History.takePlace_of_mem hHeld
      refine Or.inl ?_
      simp [after, hMove, History.move, History.afterAct, Machine.act, hTake, Machine.push]
    · obtain ⟨rest, -, hAfter⟩ := s.after_succ_of_job world hJob
      refine Or.inl ?_
      rw [hAfter]
      simp [History.afterJob, Machine.perform_invoke_primitive, hFate, Machine.fateJob]
  induction hjk with
  | refl => exact hNext
  | step _ ih => exact ih.succ

/-- Every drop goes back to a continuation that its operation dropped. -/
theorem exists_discarded {k : Nat} {x : Place} (hRest : (s.after world k).AtRest)
    (hDropped : .dropped x ∈ (s.after world k).log) : ∃ leaf, s.Discarded world k leaf := by
  obtain ⟨bound, hBound⟩ := exists_bound (s.after world k).closed
  -- The part that was dropped is deeper, and no continuation that was used up is too deep.
  have hDeep : ∀ fuel x, .dropped x ∈ (s.after world k).log → bound < x.length + fuel →
      ∃ leaf, s.Discarded world k leaf := by
    intro fuel
    induction fuel with
    | zero =>
      intro x hDropped hFuel
      have := hBound x (mem_closed hDropped rfl)
      omega
    | succ fuel ih =>
      intro x hDropped hFuel
      have hPart : (∃ n, .dropped (n :: x) ∈ (s.after world k).log) ∨ s.Discarded world k x := by
        rcases cause_of_gone (Or.inr hDropped) with hStarted | ⟨width, hJoined⟩ | hDiscarded
        · exact Or.inl ((run_dropped_iff hRest hStarted).mp hDropped)
        · obtain ⟨n, -, hItem⟩ := ((join_dropped_iff hRest hJoined).mp hDropped).2
          exact Or.inl ⟨n, hItem⟩
        · exact Or.inr hDiscarded
      rcases hPart with ⟨n, hPart⟩ | hDiscarded
      · have hLength : (n :: x).length = x.length + 1 := rfl
        exact ih (n :: x) hPart (by omega)
      · exact ⟨x, hDiscarded⟩
  exact hDeep (bound + 1) x hDropped (by omega)

variable (s world)

/-- What can be said of all runs when the machine is at rest after `k` moves. A started run is in
exactly one of three situations. It is abandoned just if a continuation that it waited for was
dropped, and a continuation is dropped by its operation, because its run lost the result of a wait,
or because its join can no longer report, and for no other reason. If no operation drops a
continuation and none is held any more, every run has settled. -/
structure Accounted (k : Nat) : Prop where
  situations : ∀ p, s.Started world k p →
    (s.Settled world k p ∨ s.Abandoned world k p ∨ s.Waiting world k p) ∧
      ¬ (s.Settled world k p ∧ s.Abandoned world k p) ∧
      ¬ (s.Settled world k p ∧ s.Waiting world k p) ∧
      ¬ (s.Abandoned world k p ∧ s.Waiting world k p)
  runs : ∀ p, s.Started world k p →
    (s.Abandoned world k p ↔ ∃ n, .dropped (n :: p) ∈ (s.after world k).log)
  drops : ∀ x, .dropped x ∈ (s.after world k).log ↔ s.Discarded world k x ∨
    (s.Started world k x ∧ ∃ n, .dropped (n :: x) ∈ (s.after world k).log) ∨
      ∃ width, s.Joined world k x width ∧ s.Bereft world k x width
  joins : ∀ q width, s.Joined world k q width →
    (.dropped q ∈ (s.after world k).log ↔ s.Bereft world k q width)
  settled : (∀ x, ¬ s.Discarded world k x) → (s.after world k).machine.held = [] →
    ∀ p, s.Started world k p → s.Settled world k p

variable {s world}

theorem accounted {k : Nat} (hRest : (s.after world k).AtRest) : s.Accounted world k where
  situations p hStarted := by
    refine ⟨situation hRest hStarted, ?_, ?_, ?_⟩
    · rintro ⟨hSettled, hAbandoned⟩
      exact not_settled_of_dropped hAbandoned.1 hSettled
    · rintro ⟨hSettled, ⟨r, u, hFind, -⟩, -⟩
      exact not_settled_of_opened ((s.sound world k).opened_of_run hFind) hSettled
    · rintro ⟨hAbandoned, ⟨r, u, hFind, -⟩, -⟩
      exact not_gone_of_opened ((s.sound world k).opened_of_run hFind) (Or.inr hAbandoned.1)
  runs p hStarted := by
    rw [← run_dropped_iff hRest hStarted]
    exact ⟨fun hAbandoned => hAbandoned.1, abandoned_of_dropped⟩
  drops x := by
    constructor
    · intro hDropped
      rcases cause_of_gone (Or.inr hDropped) with hStarted | ⟨width, hJoined⟩ | hDiscarded
      · exact Or.inr (Or.inl ⟨hStarted, (run_dropped_iff hRest hStarted).mp hDropped⟩)
      · exact Or.inr (Or.inr ⟨width, hJoined, (join_dropped_iff hRest hJoined).mp hDropped⟩)
      · exact Or.inl hDiscarded
    · rintro (hDiscarded | ⟨hStarted, hLost⟩ | ⟨width, hJoined, hBereft⟩)
      · exact dropped_of_gone hRest (gone_of_discarded hDiscarded)
      · exact (run_dropped_iff hRest hStarted).mpr hLost
      · exact (join_dropped_iff hRest hJoined).mpr hBereft
  joins q width hJoined := join_dropped_iff hRest hJoined
  settled hCareful hHeld p hStarted := by
    rcases situation hRest hStarted with hSettled | hAbandoned | ⟨-, leaf, hLeaf, -⟩
    · exact hSettled
    · obtain ⟨leaf, hDiscarded⟩ := exists_discarded hRest hAbandoned.1
      exact absurd hDiscarded (hCareful leaf)
    · rw [hHeld] at hLeaf
      cases hLeaf

theorem accounted_lookup :
    ((alone (b := Demo.behaviour) .lookupDelegated [] 2).after .empty 7).AtRest ∧
      (alone (b := Demo.behaviour) .lookupDelegated [] 2).Accounted .empty 7 :=
  ⟨rfl, accounted rfl⟩

end Schedule

end Interlace
