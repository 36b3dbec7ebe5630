import Interlace.Proofs.Abandonment

/-!
# What becomes of a join

A join answers with its first failure or when all its items have succeeded. It is given up just
if every item succeeded or was dropped, and one was dropped.
-/

namespace Interlace

variable {b : Behaviour}

theorem Gather.Awaits.exists_vacant {g : Gather} {parts : List Nat} (h : g.Awaits parts) :
    ∃ n : Nat, g.slots[n]? = some none := by
  have hCount : 0 < g.slots.countP Option.isNone := h.counted ▸ h.positive
  obtain ⟨slot, hSlot, hNone⟩ := List.countP_pos_iff.mp hCount
  obtain ⟨n, hn⟩ := List.mem_iff_getElem?.mp hSlot
  rw [Option.isNone_iff_eq_none.mp hNone] at hn
  exact ⟨n, hn⟩

theorem Gather.Awaits.vacant_unique {g : Gather} {parts : List Nat} (h : g.Awaits parts)
    (hRemaining : g.remaining = 1) {n m : Nat} (hn : g.slots[n]? = some none)
    (hm : g.slots[m]? = some none) : m = n := by
  by_contra hNe
  obtain ⟨hLength, hSlot⟩ := List.getElem?_eq_some_iff.mp hn
  have hCount := List.countP_set (p := Option.isNone) (a := some Datum.null) hLength
  rw [← h.counted, hRemaining, hSlot] at hCount
  have hNone := List.countP_eq_zero.mp hCount
  have hMem : none ∈ g.slots.set n (some .null) := by
    refine List.mem_iff_getElem?.mpr ⟨m, ?_⟩
    rw [List.getElem?_set_ne (Ne.symm hNe), hm]
  exact hNone none hMem rfl

namespace Schedule

/-- Item `n` of the join at `q` has reported a value. -/
def Succeeded (s : Schedule b) (world : b.World) (k : Nat) (q : Place) (n : Nat) : Prop :=
  ∃ d, .called (n :: q) (.ok d) ∈ (s.after world k).log

/-- The slots of a join tell which items have succeeded, and none has failed. -/
structure Tallied (s : Schedule b) (world : b.World) (k : Nat) (q : Place) (width : Nat)
    (slots : List (Option Datum)) : Prop where
  length : slots.length = width
  slots : ∀ n < width, slots[n]? = some none ↔ ¬ s.Succeeded world k q n
  unfailed : ∀ n < width, ∀ e, .called (n :: q) (.error e) ∉ (s.after world k).log

/-- What a join of some width has come to. -/
inductive JoinFate (s : Schedule b) (world : b.World) (k : Nat) (q : Place) (width : Nat) :
    Prop where
  | awaiting {g : Gather} (hFind : (s.after world k).machine.nodes.find? q = some (.gather g))
      (hOpen : g.settled = false) (hTallied : s.Tallied world k q width g.slots)
  | told (hTold : s.Told world k q)
      (hWhy : (∃ n < width, ∃ e, .called (n :: q) (.error e) ∈ (s.after world k).log) ∨
        ∀ n < width, s.Succeeded world k q n)
  | gone (hFind : (s.after world k).machine.nodes.find? q = none) (hGone : s.Gone world k q)
      (hAll : ∀ n < width, s.Succeeded world k q n ∨ .dropped (n :: q) ∈ (s.after world k).log)
      (hSome : ∃ n < width, .dropped (n :: q) ∈ (s.after world k).log)

variable {s : Schedule b} {world : b.World}

theorem Succeeded.succ {k n : Nat} {q : Place} (h : s.Succeeded world k q n) :
    s.Succeeded world (k + 1) q n :=
  h.imp fun _ hCalled => s.mem_log world (Nat.le_succ k) hCalled

theorem Tallied.of_log {k k' : Nat} {q : Place} {width : Nat} {slots : List (Option Datum)}
    (h : s.Tallied world k q width slots)
    (hLog : ∀ n o, .called (n :: q) o ∈ (s.after world k').log ↔
      .called (n :: q) o ∈ (s.after world k).log) : s.Tallied world k' q width slots where
  length := h.length
  slots n hn := by
    rw [h.slots n hn]
    simp only [Succeeded, hLog]
  unfailed n hn e := by
    rw [hLog]
    exact h.unfailed n hn e

theorem Tallied.accept {k n : Nat} {q : Place} {width : Nat} {slots : List (Option Datum)}
    {d : Datum} (h : s.Tallied world k q width slots)
    (hJob : s.job? world k = some (.deliver (n :: q) (.ok d))) :
    s.Tallied world (k + 1) q width (slots.set n (some d)) where
  length := by rw [List.length_set, h.length]
  slots m hm := by
    by_cases hmn : m = n
    · subst hmn
      have hSucceeded : s.Succeeded world (k + 1) q m :=
        ⟨d, (called_succ hJob).mpr (Or.inr rfl)⟩
      simp [hSucceeded, List.getElem?_set]
    · rw [List.getElem?_set_ne (Ne.symm hmn), h.slots m hm]
      simp only [Succeeded, called_succ hJob]
      simp [Ne.symm hmn]
  unfailed m hm e hFailed := by
    rcases (called_succ hJob).mp hFailed with hFailed | hEq
    · exact h.unfailed m hm e hFailed
    · cases hEq

namespace JoinFate

variable {k : Nat} {q : Place} {width : Nat}

theorem of_remains {g : Gather} {parts : List Nat} {rest : List (Job b)} (hq : q ≠ [])
    (hItems : ∀ n < width, n :: q ∈ (s.after world k).ledger)
    (hFind : (s.after world k).machine.nodes.find? q = g.remains)
    (hAgenda : (s.after world k).machine.agenda = g.dropped q ++ rest) (hOpen : g.settled = false)
    (hAwaits : g.Awaits parts) (hTallied : s.Tallied world k q width g.slots) :
    s.JoinFate world k q width := by
  have hs := s.sound world k
  rw [Gather.remains] at hFind
  by_cases hHolders : g.release.holders = 0
  case neg =>
    rw [if_neg hHolders] at hFind
    exact .awaiting hFind hOpen hTallied
  rw [if_pos hHolders] at hFind
  have hGone : s.Gone world k q := by
    refine Or.inl ?_
    rw [hAgenda, Gather.dropped, if_pos ⟨hHolders, hOpen⟩]
    exact List.mem_append_left _ List.mem_cons_self
  have hAll : ∀ n < width, s.Succeeded world k q n ∨
      .dropped (n :: q) ∈ (s.after world k).log := by
    intro n hn
    rcases List.mem_append.mp (hItems n hn) with hLive | hClosed
    · have hView := hs.view_of_vacant hq hFind
      have hParts : (s.after world k).machine.parts q = [] := congrArg View.parts hView
      have hPart := Machine.mem_parts.mpr hLive
      rw [hParts] at hPart
      cases hPart
    · obtain ⟨event, hEvent, hClosed⟩ := List.mem_filterMap.mp hClosed
      cases event with
      | called x o =>
        obtain rfl := Option.some.inj hClosed
        cases o with
        | ok d => exact Or.inl ⟨d, hEvent⟩
        | error e => exact absurd hEvent (hTallied.unfailed n hn e)
      | dropped x =>
        obtain rfl := Option.some.inj hClosed
        exact Or.inr hEvent
      | escaped m e =>
        exact absurd (List.cons.inj (Option.some.inj hClosed)).2.symm hq
      | _ => cases hClosed
  obtain ⟨n, hVacant⟩ := hAwaits.exists_vacant
  have hn : n < width := by
    rw [← hTallied.length]
    exact (List.getElem?_eq_some_iff.mp hVacant).1
  refine .gone hFind hGone hAll ⟨n, hn, ?_⟩
  exact (hAll n hn).resolve_left ((hTallied.slots n hn).mp hVacant)

theorem succ_told (hTold : s.Told world k q)
    (hWhy : (∃ n < width, ∃ e, .called (n :: q) (.error e) ∈ (s.after world k).log) ∨
      ∀ n < width, s.Succeeded world k q n) : s.JoinFate world (k + 1) q width := by
  refine .told hTold.succ ?_
  rcases hWhy with ⟨n, hn, e, hFailed⟩ | hAll
  · exact Or.inl ⟨n, hn, e, s.mem_log world (Nat.le_succ k) hFailed⟩
  · exact Or.inr fun n hn => (hAll n hn).succ

theorem succ_awaiting {g : Gather} (hItems : ∀ n < width, n :: q ∈ (s.after world k).ledger)
    (hFind : (s.after world k).machine.nodes.find? q = some (.gather g))
    (hOpen : g.settled = false) (hTallied : s.Tallied world k q width g.slots) :
    s.JoinFate world (k + 1) q width := by
  have hs := s.sound world k
  have hq := hs.ne_nil_of_find? hFind
  have hItems' : ∀ n < width, n :: q ∈ (s.after world (k + 1)).ledger := fun n hn =>
    (s.kept world (Nat.le_succ k)).ledger _ (hItems n hn)
  have hAwaits := (hs.gathering hFind).awaits hOpen
  rcases s.after_succ world k with ⟨job, rest, hJob, hAgenda, hAfter⟩ | ⟨-, put, hAdded⟩
  case inr =>
    refine .awaiting (by rw [hAdded.nodes, hFind]) hOpen (hTallied.of_log fun n o => ?_)
    rw [hAdded.log]
  have hSame : (∀ n o, job ≠ .deliver (n :: q) o) → s.Tallied world (k + 1) q width g.slots := by
    intro hDeliver
    refine hTallied.of_log fun n o => ?_
    rw [called_succ hJob]
    exact or_iff_left (hDeliver n o)
  have hInside : ∀ {n}, n ∈ (s.after world k).machine.parts q → n < width := by
    intro n hn
    rw [← hTallied.length]
    exact (List.getElem?_eq_some_iff.mp (hAwaits.vacant n hn)).1
  cases hs.join_step hAgenda hFind with
  | elsewhere hSite =>
    refine .awaiting (by rw [hAfter, History.find?_afterJob hSite, hFind]) hOpen (hSame ?_)
    rintro n o rfl
    exact hSite rfl
  | item hDoes =>
    obtain ⟨-, -, hNode⟩ := does_succ hAfter hDoes
    exact .awaiting hNode hOpen (hSame (by simp))
  | through hDoes | lose _ hDoes =>
    obtain ⟨-, hPut, hNode⟩ := does_succ hAfter hDoes
    exact of_remains hq hItems' hNode hPut hOpen hAwaits (hSame (by simp))
  | @report n o settlement g' hPart hReported hDoes =>
    obtain ⟨hLog, hPut, hNode⟩ := does_succ hAfter hDoes
    have hCalled : .called (n :: q) o ∈ (s.after world (k + 1)).log := by simp [hLog]
    have hAnswer : ∀ {o'}, (s.after world (k + 1)).machine.agenda =
        (Settlement.done o').answer q ++ g'.dropped q ++ rest →
        .deliver q o' ∈ (s.after world (k + 1)).machine.agenda := by
      intro o' hPut
      rw [hPut]
      exact List.mem_append_left _ (List.mem_append_left _ List.mem_cons_self)
    cases hReported with
    | discarded hSettled =>
      rw [hSettled] at hOpen
      cases hOpen
    | failed =>
      exact .told (Or.inl ⟨_, hAnswer hPut⟩) (Or.inl ⟨n, hInside hPart, _, hCalled⟩)
    | @pending d _ hRemaining =>
      have hPerm := List.perm_cons_erase hPart
      have hNodup := hPerm.nodup_iff.mp (hs.nodup_parts q)
      have hAwaits' : g.Awaits (n :: ((s.after world k).machine.parts q).erase n) :=
        ⟨hAwaits.counted, hAwaits.positive, fun i hi => hAwaits.vacant i (hPerm.mem_iff.mpr hi)⟩
      refine of_remains hq hItems' hNode hPut hOpen (hAwaits'.accept hNodup hRemaining d) ?_
      exact hTallied.accept hJob
    | completed _ hRemaining =>
      refine .told (Or.inl ⟨_, hAnswer hPut⟩) (Or.inr fun m hm => ?_)
      by_cases hmn : m = n
      · rw [hmn]
        exact ⟨_, hCalled⟩
      · by_contra hVacant
        refine hmn (hAwaits.vacant_unique hRemaining (hAwaits.vacant n hPart) ?_)
        exact (hTallied.slots m hm).mpr fun hSucceeded => hVacant hSucceeded.succ

theorem succ (hItems : ∀ n < width, n :: q ∈ (s.after world k).ledger)
    (h : s.JoinFate world k q width) : s.JoinFate world (k + 1) q width := by
  cases h with
  | awaiting hFind hOpen hTallied => exact succ_awaiting hItems hFind hOpen hTallied
  | told hTold hWhy => exact succ_told hTold hWhy
  | gone hFind hGone hAll hSome =>
    refine .gone (find?_of_gone (Nat.le_succ k) hGone.returned hFind).1 hGone.succ ?_ ?_
    · intro n hn
      exact (hAll n hn).imp Succeeded.succ (s.mem_log world (Nat.le_succ k))
    · obtain ⟨n, hn, hDropped⟩ := hSome
      exact ⟨n, hn, s.mem_log world (Nat.le_succ k) hDropped⟩

end JoinFate

theorem joinFate {i k : Nat} {q : Place} {w : Work b.Recipe b.Note}
    {ws : List (Work b.Recipe b.Note)}
    (hInvoke : s.job? world i = some (.invoke q (.gather (w :: ws)))) (hik : i < k) :
    (∀ n < ws.length + 1, n :: q ∈ (s.after world k).ledger) ∧
      s.JoinFate world k q (ws.length + 1) := by
  induction hik with
  | refl =>
    obtain ⟨rest, hAgenda, hAfter⟩ := s.after_succ_of_job world hInvoke
    obtain ⟨hLog, hPut, hNode⟩ := does_succ hAfter (History.does_gather q w ws rest)
    have hDormant := dormant_of_job (p := q) hInvoke (by simp [Job.dormant])
    have hNone : ∀ n o, .called (n :: q) o ∉ (s.after world (i + 1)).log := by
      intro n o hCalled
      rcases (called_succ hInvoke).mp hCalled with hCalled | hDeliver
      · exact part_not_in_log hDormant rfl hCalled
      · cases hDeliver
    refine ⟨fun n hn => ?_, .awaiting hNode rfl ⟨?_, fun n hn => ?_, fun n _ e => hNone n _⟩⟩
    · refine List.mem_append_left _ (List.mem_append_left _ ?_)
      rw [hPut]
      refine List.mem_flatMap.mpr ⟨.items q 0 (w :: ws), by simp, ?_⟩
      exact List.mem_append_left _ (mem_itemPlaces.mpr ⟨n, Nat.zero_le n, by simpa using hn, rfl⟩)
    · simp [Gather.new]
    · have hVacant : ¬ s.Succeeded world (i + 1) q n := by
        rintro ⟨d, hCalled⟩
        exact hNone n _ hCalled
      simp [Gather.new, hVacant, hn]
  | @step k _ ih =>
    refine ⟨fun n hn => (s.kept world (Nat.le_succ k)).ledger _ (ih.1 n hn), ?_⟩
    exact ih.2.succ ih.1

end Schedule

end Interlace
