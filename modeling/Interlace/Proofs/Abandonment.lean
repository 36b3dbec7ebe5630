import Interlace.Proofs.Closings
import Interlace.Proofs.Calls

/-!
# What becomes of runs and joins whose parts are dropped

A run is given up just if the continuation of one of its waits is dropped. A join is given up
just if each of its items succeeded or was dropped, and one was dropped.
-/

namespace Interlace

variable {b : Behaviour}

namespace Schedule

variable {s : Schedule b} {world : b.World}

/-! ## Runs -/

/-- What the drops of its waits mean for a run. -/
structure RunFate (s : Schedule b) (world : b.World) (k : Nat) (p : Place) : Prop where
  gone : s.Gone world k p → ∃ n, .dropped (n :: p) ∈ (s.after world k).log
  lost : ∀ r u, (s.after world k).machine.nodes.find? p = some (.run r) →
    r.phase = .invoking u .lost → ∃ n, .dropped (n :: p) ∈ (s.after world k).log
  dropped : ∀ n, .dropped (n :: p) ∈ (s.after world k).log →
    (∃ r u, (s.after world k).machine.nodes.find? p = some (.run r) ∧
      r.phase = .invoking u .lost) ∨ s.Gone world k p

theorem dropped_succ {k : Nat} {job : Job b} (hJob : s.job? world k = some job) {x : Place} :
    .dropped x ∈ (s.after world (k + 1)).log ↔
      .dropped x ∈ (s.after world k).log ∨ job = .drop x := by
  rw [dropped_log, dropped_log]
  constructor
  · rintro ⟨j, hj, hDrop⟩
    rcases Nat.lt_succ_iff_lt_or_eq.mp hj with hj | rfl
    · exact Or.inl ⟨j, hj, hDrop⟩
    · exact Or.inr (Option.some.inj (hJob.symm.trans hDrop))
  · rintro (⟨j, hj, hDrop⟩ | rfl)
    · exact ⟨j, Nat.lt_succ_of_lt hj, hDrop⟩
    · exact ⟨k, Nat.lt_succ_self k, hJob⟩

theorem called_succ {k : Nat} {job : Job b} (hJob : s.job? world k = some job) {x : Place}
    {o : Outcome} : .called x o ∈ (s.after world (k + 1)).log ↔
      .called x o ∈ (s.after world k).log ∨ job = .deliver x o := by
  rw [called_log, called_log]
  constructor
  · rintro ⟨j, hj, hDeliver⟩
    rcases Nat.lt_succ_iff_lt_or_eq.mp hj with hj | rfl
    · exact Or.inl ⟨j, hj, hDeliver⟩
    · exact Or.inr (Option.some.inj (hJob.symm.trans hDeliver))
  · rintro (⟨j, hj, hDeliver⟩ | rfl)
    · exact ⟨j, Nat.lt_succ_of_lt hj, hDeliver⟩
    · exact ⟨k, Nat.lt_succ_self k, hJob⟩

theorem not_gone_of_escaped {k n : Nat} {e : Failure} {p : Place}
    (hEscaped : .escaped n e ∈ (s.after world k).log) (hp : p = [n]) : ¬ s.Gone world k p := by
  have hClosed : Event.closed? (.escaped n e : Event b) = some p := by rw [hp]; rfl
  rintro (hDrop | hDropped)
  · exact not_returning_of_closed (mem_closed hEscaped hClosed)
      (mem_returning hDrop (by simp [Job.returning]))
  · cases closed_unique hEscaped hDropped hClosed rfl

theorem not_gone_of_opened {k : Nat} {p : Place}
    (hOpened : p ∈ (s.after world k).machine.nodes.opened) : ¬ s.Gone world k p := fun hGone =>
  (s.sound world k).not_returned_of_opened hOpened hGone.returned

namespace RunFate

variable {k : Nat} {p : Place}

theorem of_kept {r : Run b} (hFind : (s.after world k).machine.nodes.find? p = some (.run r))
    (hPhase : ∀ u, r.phase ≠ .invoking u .lost)
    (hNone : ∀ n, .dropped (n :: p) ∉ (s.after world k).log) : s.RunFate world k p where
  gone hGone := absurd hGone (not_gone_of_opened ((s.sound world k).opened_of_run hFind))
  lost r' u hFind' hLost := by
    rw [hFind] at hFind'
    cases hFind'
    exact absurd hLost (hPhase u)
  dropped n hDropped := absurd hDropped (hNone n)

theorem of_ended (hFind : (s.after world k).machine.nodes.find? p = none)
    (hNot : ¬ s.Gone world k p) (hNone : ∀ n, .dropped (n :: p) ∉ (s.after world k).log) :
    s.RunFate world k p where
  gone hGone := absurd hGone hNot
  lost r u hRun := by
    rw [hFind] at hRun
    cases hRun
  dropped n hDropped := absurd hDropped (hNone n)

theorem of_gone (hGone : s.Gone world k p)
    (hFind : (s.after world k).machine.nodes.find? p = none) {n : Nat}
    (hDropped : .dropped (n :: p) ∈ (s.after world k).log) : s.RunFate world k p where
  gone _ := ⟨n, hDropped⟩
  lost r u hRun := by
    rw [hFind] at hRun
    cases hRun
  dropped _ _ := Or.inr hGone

theorem not_dropped (h : s.RunFate world k p) {r : Run b}
    (hFind : (s.after world k).machine.nodes.find? p = some (.run r))
    (hPhase : ∀ u, r.phase ≠ .invoking u .lost) (n : Nat) :
    .dropped (n :: p) ∉ (s.after world k).log := by
  intro hDropped
  rcases h.dropped n hDropped with ⟨r', u, hFind', hLost⟩ | hGone
  · rw [hFind] at hFind'
    cases hFind'
    exact hPhase u hLost
  · exact not_gone_of_opened ((s.sound world k).opened_of_run hFind) hGone

theorem succ_run (h : s.RunFate world k p) {r : Run b}
    (hFind : (s.after world k).machine.nodes.find? p = some (.run r)) :
    s.RunFate world (k + 1) p := by
  rcases s.after_succ world k with ⟨job, rest, hJob, hAgenda, hAfter⟩ | ⟨-, put, hAdded⟩
  case inr =>
    have hFind' : (s.after world (k + 1)).machine.nodes.find? p = some (.run r) := by
      rw [hAdded.nodes, hFind]
    refine ⟨fun hGone => ?_, fun r' u hRun hLost => ?_, fun n hDropped => ?_⟩
    · exact absurd hGone (not_gone_of_opened ((s.sound world (k + 1)).opened_of_run hFind'))
    · rw [hAdded.nodes] at hRun
      rw [hAdded.log]
      exact h.lost r' u hRun hLost
    · rw [hAdded.log] at hDropped
      rw [hAdded.nodes]
      exact (h.dropped n hDropped).imp_right Gone.succ
  -- No wait of the run is dropped by a job for another place, nor by one that drops nothing.
  have hSame : ∀ {n}, job.site ≠ some p → .dropped (n :: p) ∈ (s.after world (k + 1)).log →
      .dropped (n :: p) ∈ (s.after world k).log := by
    intro n hSite hDropped
    rcases (dropped_succ hJob).mp hDropped with hDropped | rfl
    · exact hDropped
    · exact absurd rfl hSite
  have hOther : (∀ n, job ≠ .drop (n :: p)) → (∀ u, r.phase ≠ .invoking u .lost) →
      ∀ n, .dropped (n :: p) ∉ (s.after world (k + 1)).log := by
    intro hDrop hPhase n hDropped
    rcases (dropped_succ hJob).mp hDropped with hDropped | hDropped
    · exact h.not_dropped hFind hPhase n hDropped
    · exact hDrop n hDropped
  cases (s.sound world k).run_step hAgenda hFind with
  | elsewhere hSite =>
    have hFind' : (s.after world (k + 1)).machine.nodes.find? p = some (.run r) := by
      rw [hAfter, History.find?_afterJob hSite, hFind]
    refine ⟨fun hGone => ?_, fun r' u hRun hLost => ?_, fun n hDropped => ?_⟩
    · exact absurd hGone (not_gone_of_opened ((s.sound world (k + 1)).opened_of_run hFind'))
    · rw [hFind'] at hRun
      obtain ⟨n, hDropped⟩ := h.lost r' u (hFind.trans hRun) hLost
      exact ⟨n, s.mem_log world (Nat.le_succ k) hDropped⟩
    · rw [hFind', ← hFind]
      exact (h.dropped n (hSame hSite hDropped)).imp_right Gone.succ
  | next hDriven _ hDoes | await hDriven _ hDoes =>
    obtain ⟨-, -, hNode⟩ := does_succ hAfter hDoes
    exact of_kept hNode (by simp [hDriven.phase]) (hOther (by simp) (by simp [hDriven.phase]))
  | park hPhase hDoes | resume hPhase hDoes | mail hPhase hDoes | wake hPhase hDoes =>
    obtain ⟨-, -, hNode⟩ := does_succ hAfter hDoes
    exact of_kept hNode (by simp) (hOther (by simp) (by simp [hPhase]))
  | @finish x o hDriven _ _ hDoes =>
    obtain ⟨-, hPut, hNode⟩ := does_succ hAfter hDoes
    have hTold : s.Told world (k + 1) p := Or.inl ⟨o, by simp [hPut]⟩
    refine of_ended hNode (fun hGone => hGone.not_told hTold) ?_
    exact hOther (by simp) (by simp [hDriven.phase])
  | @escape x n e hp hDriven _ _ _ hDoes =>
    obtain ⟨hLog, -, hNode⟩ := does_succ hAfter hDoes
    have hEscaped : .escaped n e ∈ (s.after world (k + 1)).log := by simp [hLog]
    refine of_ended hNode (not_gone_of_escaped hEscaped hp) ?_
    exact hOther (by simp) (by simp [hDriven.phase])
  | giveUp hPhase hDoes =>
    obtain ⟨-, hPut, hNode⟩ := does_succ hAfter hDoes
    obtain ⟨n, hDropped⟩ := h.lost r _ hFind hPhase
    exact of_gone (Or.inl (by simp [hPut])) hNode (s.mem_log world (Nat.le_succ k) hDropped)
  | lose hPhase hDoes =>
    obtain ⟨hLog, -, hNode⟩ := does_succ hAfter hDoes
    have hDropped : .dropped (r.wait :: p) ∈ (s.after world (k + 1)).log := by simp [hLog]
    refine ⟨fun _ => ⟨_, hDropped⟩, fun _ _ _ _ => ⟨_, hDropped⟩, fun n _ => ?_⟩
    exact Or.inl ⟨_, _, hNode, rfl⟩
  | abandon hPhase hDoes =>
    obtain ⟨hLog, hPut, hNode⟩ := does_succ hAfter hDoes
    exact of_gone (Or.inl (by simp [hPut])) hNode (n := r.wait) (by simp [hLog])

theorem succ_over (h : s.RunFate world k p)
    (hFind : (s.after world k).machine.nodes.find? p = none)
    (hReturned : p ∈ (s.after world k).returned) : s.RunFate world (k + 1) p := by
  have hFind' := (find?_of_gone (Nat.le_succ k) hReturned hFind).1
  have hSame : ∀ n, .dropped (n :: p) ∈ (s.after world (k + 1)).log →
      .dropped (n :: p) ∈ (s.after world k).log := by
    intro n hDropped
    rcases s.after_succ world k with ⟨job, rest, hJob, hAgenda, -⟩ | ⟨-, put, hAdded⟩
    · rcases (dropped_succ hJob).mp hDropped with hDropped | rfl
      · exact hDropped
      · exact absurd rfl ((s.sound world k).site_ne_of_returned hAgenda hReturned hFind)
    · rwa [hAdded.log] at hDropped
  by_cases hGone : s.Gone world k p
  · obtain ⟨n, hDropped⟩ := h.gone hGone
    exact of_gone hGone.succ hFind' (s.mem_log world (Nat.le_succ k) hDropped)
  · have hNone : ∀ n, .dropped (n :: p) ∉ (s.after world (k + 1)).log := by
      intro n hDropped
      rcases h.dropped n (hSame n hDropped) with ⟨r, u, hRun, -⟩ | hGone'
      · rw [hFind] at hRun
        cases hRun
      · exact hGone hGone'
    refine of_ended hFind' ?_ hNone
    rcases returned_cases hReturned with hGone' | hTold | ⟨n, e, hp, hEscaped⟩
    · exact absurd hGone' hGone
    · exact fun hGone' => hGone'.not_told hTold.succ
    · exact not_gone_of_escaped (s.mem_log world (Nat.le_succ k) hEscaped) hp

end RunFate

theorem part_not_in_log {k : Nat} {p : Place} (hp : p ∈ (s.after world k).machine.dormant)
    {n : Nat} {event : Event b} (hClosed : event.closed? = some (n :: p)) :
    event ∉ (s.after world k).log := fun hEvent =>
  ((s.sound world k).vacant_of_dormant hp).2 n
    (List.mem_append_right _ (mem_closed hEvent hClosed))

theorem runFate {i k : Nat} {p : Place} {recipe : b.Recipe} {args : List Datum} {limit : Nat}
    (hStart : s.job? world i = some (.start p recipe args limit)) (hik : i < k) :
    s.RunFate world k p := by
  induction hik with
  | refl =>
    obtain ⟨rest, hAgenda, hAfter⟩ := s.after_succ_of_job world hStart
    have hDormant := dormant_of_job (p := p) hStart (by simp [Job.dormant])
    have hNone : ∀ n, .dropped (n :: p) ∉ (s.after world (i + 1)).log := by
      intro n hDropped
      rcases (dropped_succ hStart).mp hDropped with hDropped | hDrop
      · exact part_not_in_log hDormant rfl hDropped
      · cases hDrop
    cases limit with
    | zero =>
      have hNext : (s.after world (i + 1)).machine.agenda =
            .deliver p (.error (.tooDeep 0)) :: rest ∧
          (s.after world (i + 1)).machine.nodes = (s.after world i).machine.nodes := by
        rw [hAfter, History.afterJob, Machine.perform_start_zero
          (m := { (s.after world i).machine with agenda := rest }) rfl]
        exact ⟨rfl, rfl⟩
      have hTold : s.Told world (i + 1) p := Or.inl ⟨.error (.tooDeep 0), by simp [hNext.1]⟩
      have hFind : (s.after world (i + 1)).machine.nodes.find? p = none := by
        rw [hNext.2]
        exact find?_of_dormant (Nat.le_refl i) hDormant
      exact .of_ended hFind (fun hGone => hGone.not_told hTold) hNone
    | succ limit =>
      obtain ⟨-, -, hNode⟩ := does_succ hAfter (History.does_start (Nat.succ_pos limit) rest)
      exact .of_kept hNode (by simp) hNone
  | @step k hik ih =>
    cases hFind : (s.after world k).machine.nodes.find? p with
    | none =>
      refine ih.succ_over hFind ?_
      rcases touched_of_start hStart hik with hOpened | hReturned
      · obtain ⟨node, hNode, -⟩ := Table.find?_of_mem_opened (s.sound world k).keyed hOpened
        rw [hFind] at hNode
        cases hNode
      · exact hReturned
    | some node =>
      cases node with
      | run r => exact ih.succ_run hFind
      | gather g =>
        obtain ⟨j, -, w, ws, hInvoke⟩ := origin hFind
        exact (start_ne_gather hStart hInvoke).elim

end Schedule

end Interlace
