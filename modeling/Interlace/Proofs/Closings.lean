import Interlace.Proofs.Timeline
import Mathlib.Data.List.Pairwise

/-!
# How continuations are used up

A continuation is called or dropped, once, and stays so.
-/

namespace Interlace

variable {b : Behaviour}

def Event.calls? (p : Place) : Event b → Option Outcome
  | .called q o => if q = p then some o else none
  | _ => none

/-- The outcomes with which the continuation `p` was called. -/
def History.calls (h : History b) (p : Place) : List Outcome := h.log.filterMap (Event.calls? p)

namespace History

variable {h : History b}

theorem mem_calls {p : Place} {o : Outcome} :
    o ∈ h.calls p ↔ .called p o ∈ h.log := by
  rw [calls, List.mem_filterMap]
  constructor
  · rintro ⟨event, hEvent, hCalls⟩
    cases event with
    | called q o' =>
      simp only [Event.calls?] at hCalls
      split at hCalls
      · rename_i hq
        cases hCalls
        rw [← hq]
        exact hEvent
      · cases hCalls
    | _ => cases hCalls
  · intro hCalled
    exact ⟨_, hCalled, by simp [Event.calls?]⟩

theorem calls_length_le (h : History b) (p : Place) : (h.calls p).length ≤ h.closed.count p := by
  rw [calls, closed]
  induction h.log with
  | nil => simp
  | cons event log ih =>
    cases event with
    | called q o =>
      by_cases hq : q = p <;> simp [Event.calls?, Event.closed?, hq] <;> omega
    | dropped q | escaped n e =>
      simp only [List.filterMap_cons, Event.calls?, Event.closed?, List.count_cons]
      omega
    | _ => exact ih

end History

namespace Schedule

variable {s : Schedule b} {world : b.World}

theorem nodup_closed (k : Nat) : (s.after world k).closed.Nodup :=
  (List.nodup_append'.mp (s.sound world k).once).2.1

theorem calls_eq_singleton {k : Nat} {p : Place} {o : Outcome}
    (hCalled : .called p o ∈ (s.after world k).log) : (s.after world k).calls p = [o] := by
  have hLength : ((s.after world k).calls p).length ≤ 1 :=
    Nat.le_trans (History.calls_length_le _ p) (List.nodup_iff_count_le_one.mp (nodup_closed k) p)
  have hMem := History.mem_calls.mpr hCalled
  generalize (s.after world k).calls p = calls at hLength hMem
  cases calls with
  | nil => cases hMem
  | cons o' calls =>
    cases calls with
    | nil => rw [List.mem_singleton.mp hMem]
    | cons => simp at hLength

theorem not_opened_of_closed {k : Nat} {p : Place} (hClosed : p ∈ (s.after world k).closed) :
    p ∉ (s.after world k).machine.nodes.opened := by
  intro hOpened
  exact (s.sound world k).not_returned_of_opened hOpened (List.mem_append_right _ hClosed)

theorem not_returning_of_closed {k : Nat} {p : Place} (hClosed : p ∈ (s.after world k).closed) :
    p ∉ (s.after world k).machine.returning := by
  intro hReturning
  have hReturned := (List.nodup_append'.mp
    (List.nodup_append'.mp (s.sound world k).nodup_states).2.1).2.1
  exact (List.nodup_append'.mp hReturned).2.2 hReturning hClosed

theorem calls_eq_nil {k : Nat} {p : Place}
    (hp : p ∈ (s.after world k).machine.nodes.opened ∨ p ∈ (s.after world k).machine.returning) :
    (s.after world k).calls p = [] := by
  refine List.eq_nil_iff_forall_not_mem.mpr fun o hCalled => ?_
  have hClosed : p ∈ (s.after world k).closed :=
    List.mem_filterMap.mpr ⟨_, History.mem_calls.mp hCalled, rfl⟩
  rcases hp with hp | hp
  · exact not_opened_of_closed hClosed hp
  · exact not_returning_of_closed hClosed hp

theorem closed_unique {k : Nat} {p : Place} {event event' : Event b}
    (hEvent : event ∈ (s.after world k).log) (hEvent' : event' ∈ (s.after world k).log)
    (hClosed : event.closed? = some p) (hClosed' : event'.closed? = some p) : event = event' := by
  have hNodup : (s.after world k).closed.Nodup := nodup_closed k
  rw [History.closed] at hNodup
  generalize (s.after world k).log = log at hEvent hEvent' hNodup
  induction log with
  | nil => cases hEvent
  | cons first log ih =>
    have hTail : ∀ {other : Event b}, other ∈ log → other.closed? = some p →
        first.closed? ≠ some p := by
      intro other hOther hOtherClosed hFirst
      rw [List.filterMap_cons_some hFirst] at hNodup
      exact (List.nodup_cons.mp hNodup).1 (List.mem_filterMap.mpr ⟨other, hOther, hOtherClosed⟩)
    rcases List.mem_cons.mp hEvent with hFirst | hLater
    · rcases List.mem_cons.mp hEvent' with hFirst' | hLater'
      · rw [hFirst, hFirst']
      · exact absurd (hFirst ▸ hClosed) (hTail hLater' hClosed')
    · rcases List.mem_cons.mp hEvent' with hFirst' | hLater'
      · exact absurd (hFirst' ▸ hClosed') (hTail hLater hClosed)
      · refine ih hLater hLater' ?_
        exact hNodup.sublist ((List.sublist_cons_self first log).filterMap _)

/-- A continuation that is dropped, or about to be. -/
def Gone (s : Schedule b) (world : b.World) (k : Nat) (x : Place) : Prop :=
  .drop x ∈ (s.after world k).machine.agenda ∨ .dropped x ∈ (s.after world k).log

/-- A continuation that is called, or about to be. -/
def Told (s : Schedule b) (world : b.World) (k : Nat) (x : Place) : Prop :=
  (∃ o, .deliver x o ∈ (s.after world k).machine.agenda) ∨ ∃ o, .called x o ∈ (s.after world k).log

theorem Gone.succ {k : Nat} {x : Place} (h : s.Gone world k x) : s.Gone world (k + 1) x := by
  rcases h with hDrop | hDropped
  · rcases s.mem_agenda_succ world hDrop with hDrop | hJob
    · exact Or.inl hDrop
    · exact Or.inr ((s.dropped_log world).mpr ⟨k, Nat.lt_succ_self k, hJob⟩)
  · exact Or.inr (s.mem_log world (Nat.le_succ k) hDropped)

theorem Told.succ {k : Nat} {x : Place} (h : s.Told world k x) : s.Told world (k + 1) x := by
  rcases h with ⟨o, hDeliver⟩ | ⟨o, hCalled⟩
  · rcases s.mem_agenda_succ world hDeliver with hDeliver | hJob
    · exact Or.inl ⟨o, hDeliver⟩
    · exact Or.inr ⟨o, (s.called_log world).mpr ⟨k, Nat.lt_succ_self k, hJob⟩⟩
  · exact Or.inr ⟨o, s.mem_log world (Nat.le_succ k) hCalled⟩

theorem mem_returning {k : Nat} {x : Place} {job : Job b}
    (hJob : job ∈ (s.after world k).machine.agenda) (hx : x ∈ job.returning) :
    x ∈ (s.after world k).machine.returning :=
  List.mem_flatMap.mpr ⟨job, hJob, hx⟩

theorem mem_closed {k : Nat} {x : Place} {event : Event b}
    (hEvent : event ∈ (s.after world k).log) (hx : event.closed? = some x) :
    x ∈ (s.after world k).closed :=
  List.mem_filterMap.mpr ⟨event, hEvent, hx⟩

theorem Gone.returned {k : Nat} {x : Place} (h : s.Gone world k x) :
    x ∈ (s.after world k).returned := by
  rcases h with hDrop | hDropped
  · exact List.mem_append_left _ (mem_returning hDrop (by simp [Job.returning]))
  · exact List.mem_append_right _ (mem_closed hDropped rfl)

theorem Told.returned {k : Nat} {x : Place} (h : s.Told world k x) :
    x ∈ (s.after world k).returned := by
  rcases h with ⟨o, hDeliver⟩ | ⟨o, hCalled⟩
  · exact List.mem_append_left _ (mem_returning hDeliver (by simp [Job.returning]))
  · exact List.mem_append_right _ (mem_closed hCalled rfl)

theorem returned_cases {k : Nat} {x : Place} (hx : x ∈ (s.after world k).returned) :
    s.Gone world k x ∨ s.Told world k x ∨
      ∃ n e, x = [n] ∧ .escaped n e ∈ (s.after world k).log := by
  rcases List.mem_append.mp hx with hx | hx
  · obtain ⟨job, hJob, hx⟩ := List.mem_flatMap.mp hx
    cases job with
    | deliver y o =>
      obtain rfl := List.mem_singleton.mp hx
      exact Or.inr (Or.inl (Or.inl ⟨o, hJob⟩))
    | drop y =>
      obtain rfl := List.mem_singleton.mp hx
      exact Or.inl (Or.inl hJob)
    | _ => cases hx
  · obtain ⟨event, hEvent, hx⟩ := List.mem_filterMap.mp hx
    cases event with
    | called y o =>
      cases hx
      exact Or.inr (Or.inl (Or.inr ⟨o, hEvent⟩))
    | dropped y =>
      cases hx
      exact Or.inl (Or.inr hEvent)
    | escaped n e =>
      cases hx
      exact Or.inr (Or.inr ⟨n, e, rfl, hEvent⟩)
    | _ => cases hx

theorem returning_unique {k : Nat} {x : Place} {job job' : Job b}
    (hJob : job ∈ (s.after world k).machine.agenda)
    (hJob' : job' ∈ (s.after world k).machine.agenda)
    (hx : x ∈ job.returning) (hx' : x ∈ job'.returning) : job = job' := by
  have hNodup := (List.nodup_append'.mp (List.nodup_append'.mp
    (List.nodup_append'.mp (s.sound world k).nodup_states).2.1).2.1).1
  rw [Machine.returning, List.nodup_flatMap] at hNodup
  -- Disjointness is symmetric, so the pairwise statement holds in either order of the two jobs.
  have : Std.Symm (Function.onFun List.Disjoint (Job.returning (b := b))) :=
    ⟨fun _ _ hDisjoint _ hLeft hRight => hDisjoint hRight hLeft⟩
  by_contra hNe
  exact hNodup.2.forall hJob hJob' hNe hx hx'

theorem Gone.not_told {k : Nat} {x : Place} (h : s.Gone world k x) : ¬ s.Told world k x := by
  intro hTold
  rcases h with hDrop | hDropped
  · rcases hTold with ⟨o, hDeliver⟩ | ⟨o, hCalled⟩
    · cases returning_unique (x := x) hDrop hDeliver (by simp [Job.returning])
        (by simp [Job.returning])
    · exact not_returning_of_closed (mem_closed hCalled rfl)
        (mem_returning hDrop (by simp [Job.returning]))
  · rcases hTold with ⟨o, hDeliver⟩ | ⟨o, hCalled⟩
    · exact not_returning_of_closed (mem_closed hDropped rfl)
        (mem_returning hDeliver (by simp [Job.returning]))
    · cases closed_unique hDropped hCalled rfl rfl

end Schedule

end Interlace
