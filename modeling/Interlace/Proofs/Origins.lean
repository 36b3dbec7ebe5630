import Interlace.Proofs.Timeline

/-!
# Where runs and joins come from

What stands at a place was put there by one job, and a continuation is never dormant again once a
run or a join was started with it.
-/

namespace Interlace

variable {b : Behaviour}

namespace Schedule

variable {s : Schedule b} {world : b.World}

theorem touched_of_start {i k : Nat} {p : Place} {recipe : b.Recipe} {args : List Datum}
    {limit : Nat} (hStart : s.job? world i = some (.start p recipe args limit)) (hik : i < k) :
    p ∈ (s.after world k).machine.nodes.opened ∨ p ∈ (s.after world k).returned := by
  refine (s.kept world (Nat.succ_le_of_lt hik)).touched p ?_
  obtain ⟨rest, hAgenda, hAfter⟩ := s.after_succ_of_job world hStart
  have hs := s.sound world (i + 1)
  rw [hAfter] at hs ⊢
  cases limit with
  | zero =>
    refine Or.inr (List.mem_append_left _ ?_)
    rw [History.afterJob, Machine.perform_start_zero
      (m := { (s.after world i).machine with agenda := rest }) rfl]
    simp [Machine.returning, Job.returning]
  | succ limit =>
    exact hs.opened_or_returned (History.does_start (Nat.succ_pos limit) rest).node

theorem touched_of_gather {i k : Nat} {p : Place} {w : Work b.Recipe b.Note}
    {ws : List (Work b.Recipe b.Note)}
    (hInvoke : s.job? world i = some (.invoke p (.gather (w :: ws)))) (hik : i < k) :
    p ∈ (s.after world k).machine.nodes.opened ∨ p ∈ (s.after world k).returned := by
  refine (s.kept world (Nat.succ_le_of_lt hik)).touched p ?_
  obtain ⟨rest, hAgenda, hAfter⟩ := s.after_succ_of_job world hInvoke
  have hs := s.sound world (i + 1)
  rw [hAfter] at hs ⊢
  exact hs.opened_or_returned (History.does_gather p w ws rest).node

theorem not_dormant_of_touched {k : Nat} {p : Place}
    (hTouched : p ∈ (s.after world k).machine.nodes.opened ∨ p ∈ (s.after world k).returned) :
    p ∉ (s.after world k).machine.dormant := by
  intro hDormant
  rcases hTouched with hOpened | hReturned
  · exact (s.sound world k).not_opened_of_dormant hDormant hOpened
  · exact (s.sound world k).not_returned_of_dormant hDormant hReturned

theorem dormant_of_job {k : Nat} {job : Job b} (hJob : s.job? world k = some job) {p : Place}
    (hp : p ∈ job.dormant) : p ∈ (s.after world k).machine.dormant := by
  obtain ⟨rest, hAgenda, -⟩ := s.after_succ_of_job world hJob
  rw [Machine.dormant, hAgenda, List.flatMap_cons]
  exact List.mem_append_left _ (List.mem_append_left _ hp)

theorem start_unique {i j : Nat} {p : Place} {recipe recipe' : b.Recipe} {args args' : List Datum}
    {limit limit' : Nat} (hStart : s.job? world i = some (.start p recipe args limit))
    (hStart' : s.job? world j = some (.start p recipe' args' limit')) : i = j := by
  rcases Nat.lt_trichotomy i j with hij | hij | hij
  · exact absurd (dormant_of_job hStart' (by simp [Job.dormant]))
      (not_dormant_of_touched (touched_of_start hStart hij))
  · exact hij
  · exact absurd (dormant_of_job hStart (by simp [Job.dormant]))
      (not_dormant_of_touched (touched_of_start hStart' hij))

theorem start_ne_gather {i j : Nat} {p : Place} {recipe : b.Recipe} {args : List Datum}
    {limit : Nat} {w : Work b.Recipe b.Note} {ws : List (Work b.Recipe b.Note)}
    (hStart : s.job? world i = some (.start p recipe args limit))
    (hInvoke : s.job? world j = some (.invoke p (.gather (w :: ws)))) : False := by
  rcases Nat.lt_trichotomy i j with hij | rfl | hij
  · exact not_dormant_of_touched (touched_of_start hStart hij)
      (dormant_of_job hInvoke (by simp [Job.dormant]))
  · rw [hStart] at hInvoke
    cases hInvoke
  · exact not_dormant_of_touched (touched_of_gather hInvoke hij)
      (dormant_of_job hStart (by simp [Job.dormant]))

/-- The job that put there what stands at a place. -/
def Origin (s : Schedule b) (world : b.World) (k : Nat) (p : Place) : Node b → Prop
  | .run r => ∃ i < k, 0 < r.frames.limit ∧
      ∃ recipe args, s.job? world i = some (.start p recipe args r.frames.limit)
  | .gather _ => ∃ i < k, ∃ w ws, s.job? world i = some (.invoke p (.gather (w :: ws)))

theorem Origin.succ {k : Nat} {p : Place} {node : Node b} (h : s.Origin world k p node) :
    s.Origin world (k + 1) p node := by
  cases node with
  | run r =>
    obtain ⟨i, hi, h⟩ := h
    exact ⟨i, Nat.lt_succ_of_lt hi, h⟩
  | gather g =>
    obtain ⟨i, hi, h⟩ := h
    exact ⟨i, Nat.lt_succ_of_lt hi, h⟩

theorem Origin.run {k : Nat} {p : Place} {r r' : Run b} (h : s.Origin world k p (.run r))
    (hLimit : r'.frames.limit = r.frames.limit) : s.Origin world (k + 1) p (.run r') := by
  obtain ⟨i, hi, h⟩ := h
  rw [← hLimit] at h
  exact ⟨i, Nat.lt_succ_of_lt hi, h⟩

theorem origin {k : Nat} {p : Place} {node : Node b}
    (hFind : (s.after world k).machine.nodes.find? p = some node) : s.Origin world k p node := by
  induction k generalizing node with
  | zero => cases hFind
  | succ k ih =>
    have hs := s.sound world k
    rcases s.after_succ world k with ⟨job, rest, hJob, hAgenda, hAfter⟩ | ⟨-, put, hAdded⟩
    case inr =>
      rw [hAdded.nodes] at hFind
      exact (ih hFind).succ
    rw [hAfter] at hFind
    cases hOld : (s.after world k).machine.nodes.find? p with
    | none =>
      rcases History.vacant_cases job rest hOld with hNone | ⟨recipe, args, limit, hLimit, rfl⟩ |
        ⟨w, ws, rfl⟩
      · rw [hNone] at hFind
        cases hFind
      · rw [(History.does_start hLimit rest).node] at hFind
        cases hFind
        exact ⟨k, Nat.lt_succ_self k, hLimit, recipe, args, hJob⟩
      · rw [(History.does_gather p w ws rest).node] at hFind
        cases hFind
        exact ⟨k, Nat.lt_succ_self k, w, ws, hJob⟩
    | some old =>
      cases old with
      | run r =>
        cases hs.run_step hAgenda hOld with
        | elsewhere hSite =>
          rw [History.find?_afterJob hSite, hOld] at hFind
          cases hFind
          exact (ih hOld).succ
        | next hDriven hTurn hDoes | await hDriven hTurn hDoes =>
          rw [hDoes.node] at hFind
          cases hFind
          exact (ih hOld).run (Frames.turn_sound hDriven.poised _).1
        | finish _ _ _ hDoes | escape _ _ _ _ _ hDoes | giveUp _ hDoes | abandon _ hDoes =>
          rw [hDoes.node] at hFind
          cases hFind
        | park _ hDoes | resume _ hDoes | mail _ hDoes | wake _ hDoes | lose _ hDoes =>
          rw [hDoes.node] at hFind
          cases hFind
          exact (ih hOld).run rfl
      | gather g =>
        obtain ⟨i, hi, hOrigin⟩ := ih hOld
        have hGather : ∀ g' : Gather, s.Origin world (k + 1) p (.gather g') := fun _ =>
          ⟨i, Nat.lt_succ_of_lt hi, hOrigin⟩
        have hRemains : ∀ g' : Gather, g'.remains = some node → s.Origin world (k + 1) p node := by
          intro g' hRemains
          rw [Gather.remains] at hRemains
          split at hRemains
          · cases hRemains
          · cases hRemains
            exact hGather _
        cases hs.join_step hAgenda hOld with
        | elsewhere hSite =>
          rw [History.find?_afterJob hSite, hOld] at hFind
          cases hFind
          exact hGather g
        | item hDoes =>
          rw [hDoes.node] at hFind
          cases hFind
          exact hGather g
        | through hDoes | report _ _ hDoes | lose _ hDoes =>
          rw [hDoes.node] at hFind
          exact hRemains _ hFind

end Schedule

end Interlace
