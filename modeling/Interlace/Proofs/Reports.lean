import Interlace.Proofs.Joins
import Mathlib.Data.List.Induction

/-!
# A join and its reports

The items of a join report in any order, each at most once. The first failure settles the join, or
else the last success does, and what comes later changes nothing.
-/

namespace Interlace

def Settlement.outcome? : Settlement → Option Outcome
  | .done o => some o
  | _ => none

namespace Gather

/-- A join after some reports, in the order in which they came. -/
def afterReports (g : Gather) (reports : List (Nat × Outcome)) : Gather :=
  reports.foldl (fun g r => (g.report r.1 r.2).2) g

def calls (g : Gather) : List (Nat × Outcome) → List Outcome
  | [] => []
  | r :: reports => (g.report r.1 r.2).1.outcome?.toList ++ (g.report r.1 r.2).2.calls reports

/-- Items of a join of `width` items report, each at most once. -/
structure Admissible (width : Nat) (reports : List (Nat × Outcome)) : Prop where
  once : (reports.map Prod.fst).Nodup
  inside : ∀ r ∈ reports, r.1 < width

@[simp] theorem afterReports_nil (g : Gather) : g.afterReports [] = g := rfl

theorem afterReports_concat (g : Gather) (reports : List (Nat × Outcome)) (n : Nat) (o : Outcome) :
    g.afterReports (reports ++ [(n, o)]) = ((g.afterReports reports).report n o).2 := by
  simp [afterReports]

theorem calls_concat (g : Gather) (reports : List (Nat × Outcome)) (n : Nat) (o : Outcome) :
    g.calls (reports ++ [(n, o)]) =
      g.calls reports ++ ((g.afterReports reports).report n o).1.outcome?.toList := by
  induction reports generalizing g with
  | nil => simp [calls]
  | cons r reports ih =>
    rw [List.cons_append, calls, ih, calls, List.append_assoc]
    rfl

theorem Admissible.of_append {width : Nat} {before after : List (Nat × Outcome)}
    (h : Admissible width (before ++ after)) : Admissible width before where
  once := h.once.sublist ((List.sublist_append_left before after).map Prod.fst)
  inside r hr := h.inside r (List.mem_append_left after hr)

theorem Admissible.fresh {width n : Nat} {o : Outcome} {before after : List (Nat × Outcome)}
    (h : Admissible width (before ++ (n, o) :: after)) : n < width ∧ n ∉ before.map Prod.fst := by
  refine ⟨h.inside (n, o) (by simp), fun hn => ?_⟩
  have hOnce := h.once
  rw [List.map_append] at hOnce
  exact (List.nodup_append'.mp hOnce).2.2 hn (by simp)

/-! ## What a join has come to -/

/-- An unsettled join has the values that were reported, each in its place. -/
structure Partial (width : Nat) (reports : List (Nat × Outcome)) (g : Gather) : Prop where
  settled : g.settled = false
  unfailed : ∀ r ∈ reports, ∃ d, r.2 = .ok d
  length : g.slots.length = width
  filled : ∀ n d, g.slots[n]? = some (some d) ↔ (n, .ok d) ∈ reports
  vacant : ∀ n, g.slots[n]? = some none ↔ n < width ∧ n ∉ reports.map Prod.fst
  counted : g.remaining = g.slots.countP Option.isNone
  positive : 0 < g.remaining

structure AllReported (width : Nat) (reports : List (Nat × Outcome)) (values : List Datum) :
    Prop where
  length : values.length = width
  reported : ∀ i < width, ∃ v, values[i]? = some v ∧ (i, .ok v) ∈ reports

inductive Stands (width : Nat) (reports : List (Nat × Outcome)) (g : Gather)
    (calls : List Outcome) : Prop where
  | collecting (hPartial : Partial width reports g) (hCalls : calls = [])
  | failed (hSettled : g.settled = true) {before after : List (Nat × Outcome)} {n : Nat}
      {e : Failure} (hSplit : reports = before ++ (n, .error e) :: after)
      (hBefore : ∀ r ∈ before, ∃ d, r.2 = .ok d) (hCalls : calls = [.error (.ofItem n e)])
  | completed (hSettled : g.settled = true) {values : List Datum}
      (hAll : AllReported width reports values) (hCalls : calls = [.ok (.list values)])

theorem new_partial {width : Nat} (hWidth : 0 < width) : Partial width [] (new width) where
  settled := rfl
  unfailed r hr := nomatch hr
  length := List.length_replicate
  filled n d := by simp [new, List.getElem?_replicate]
  vacant n := by simp [new, List.getElem?_replicate]
  counted := by simp [new, List.countP_replicate]
  positive := hWidth

theorem Partial.awaits {width n : Nat} {reports : List (Nat × Outcome)} {g : Gather}
    (h : Partial width reports g) (hn : n < width) (hNew : n ∉ reports.map Prod.fst) :
    g.Awaits [n] where
  counted := h.counted
  positive := h.positive
  vacant m hm := by
    rw [List.mem_singleton.mp hm]
    exact (h.vacant n).mpr ⟨hn, hNew⟩

theorem Partial.set {width n : Nat} {reports : List (Nat × Outcome)} {g : Gather}
    (h : Partial width reports g) (hn : n < width) (hNew : n ∉ reports.map Prod.fst) (d : Datum)
    (m : Nat) (d' : Datum) : (g.slots.set n (some d))[m]? = some (some d') ↔
      (m, .ok d') ∈ reports ++ [(n, .ok d)] := by
  have hLength : n < g.slots.length := by rw [h.length]; exact hn
  rw [List.mem_append, List.mem_singleton]
  by_cases hmn : n = m
  · subst hmn
    have hNot : (n, .ok d') ∉ reports := fun hMem => hNew (List.mem_map.mpr ⟨_, hMem, rfl⟩)
    rw [List.getElem?_set_self hLength]
    simp [hNot, eq_comm]
  · have hOther : (m, (.ok d' : Outcome)) ≠ (n, .ok d) := by
      intro hEq
      exact hmn (congrArg Prod.fst hEq).symm
    rw [List.getElem?_set_ne hmn, h.filled m d', or_iff_left hOther]

theorem Partial.concat {width n : Nat} {reports : List (Nat × Outcome)} {g : Gather}
    (h : Partial width reports g) (hn : n < width) (hNew : n ∉ reports.map Prod.fst)
    (hRemaining : 1 < g.remaining) (d : Datum) :
    Partial width (reports ++ [(n, .ok d)])
      { g with slots := g.slots.set n (some d), remaining := g.remaining - 1 } := by
  have hLength : n < g.slots.length := by rw [h.length]; exact hn
  have hAccepted := (h.awaits hn hNew).accept (List.nodup_singleton n) hRemaining d
  refine ⟨h.settled, ?_, by simp [h.length], h.set hn hNew d, ?_, hAccepted.counted,
    hAccepted.positive⟩
  · intro r hr
    rcases List.mem_append.mp hr with hr | hr
    · exact h.unfailed r hr
    · exact ⟨d, by rw [List.mem_singleton.mp hr]⟩
  · intro m
    dsimp only
    rw [List.map_append, List.mem_append, not_or]
    by_cases hmn : n = m
    · subst hmn
      simp [List.getElem?_set_self hLength]
    · rw [List.getElem?_set_ne hmn, h.vacant m]
      simp [Ne.symm hmn]

theorem Partial.full {width n : Nat} {reports : List (Nat × Outcome)} {g : Gather}
    (h : Partial width reports g) (hn : n < width) (hNew : n ∉ reports.map Prod.fst)
    (hRemaining : g.remaining = 1) {m : Nat} (hm : m < width) (hmn : m ≠ n) :
    m ∈ reports.map Prod.fst := by
  by_contra hAbsent
  refine hmn ((h.awaits hn hNew).vacant_unique hRemaining ?_ ?_)
  · exact (h.vacant n).mpr ⟨hn, hNew⟩
  · exact (h.vacant m).mpr ⟨hm, hAbsent⟩

theorem Partial.allReported {width n : Nat} {reports : List (Nat × Outcome)} {g : Gather}
    (h : Partial width reports g) (hn : n < width) (hNew : n ∉ reports.map Prod.fst)
    (hRemaining : g.remaining = 1) (d : Datum) :
    AllReported width (reports ++ [(n, .ok d)]) ((g.slots.set n (some d)).map (·.getD .null)) := by
  refine ⟨by simp [h.length], fun i hi => ?_⟩
  have hSlot : ∃ v, (g.slots.set n (some d))[i]? = some (some v) ∧
      (i, .ok v) ∈ reports ++ [(n, .ok d)] := by
    by_cases hin : i = n
    · exact ⟨d, (h.set hn hNew d i d).mpr (by simp [hin]), by simp [hin]⟩
    · obtain ⟨⟨m, o⟩, hMem, rfl⟩ := List.mem_map.mp (h.full hn hNew hRemaining hi hin)
      obtain ⟨v, rfl⟩ : ∃ v, o = .ok v := h.unfailed _ hMem
      have hMem' : (m, .ok v) ∈ reports ++ [(n, .ok d)] := List.mem_append_left _ hMem
      exact ⟨v, (h.set hn hNew d m v).mpr hMem', hMem'⟩
  obtain ⟨v, hSlot, hMem⟩ := hSlot
  refine ⟨v, ?_, hMem⟩
  rw [List.getElem?_map, hSlot]
  rfl

theorem report_settled {g : Gather} (hSettled : g.settled = true) (n : Nat) (o : Outcome) :
    g.report n o = (.discarded, g) := by
  rw [report.eq_def, if_pos hSettled]

theorem Stands.concat {width n : Nat} {reports : List (Nat × Outcome)} {g : Gather}
    {calls : List Outcome} (h : Stands width reports g calls) (hn : n < width)
    (hNew : n ∉ reports.map Prod.fst) (o : Outcome) :
    Stands width (reports ++ [(n, o)]) (g.report n o).2
      (calls ++ (g.report n o).1.outcome?.toList) := by
  cases h with
  | failed hSettled hSplit hBefore hCalls =>
    rw [report_settled hSettled]
    refine .failed hSettled (by rw [hSplit, List.append_assoc, List.cons_append]) hBefore ?_
    rw [hCalls]
    rfl
  | completed hSettled hAll hCalls =>
    obtain ⟨v, -, hMem⟩ := hAll.reported n hn
    exact absurd (List.mem_map.mpr ⟨_, hMem, rfl⟩) hNew
  | collecting hPartial hCalls =>
    have hReported := report_reported (fun _ => hPartial.awaits hn hNew) List.mem_cons_self o
    generalize g.report n o = report at hReported
    cases hReported with
    | discarded hSettled =>
      rw [hPartial.settled] at hSettled
      cases hSettled
    | failed hSettled =>
      refine .failed rfl rfl hPartial.unfailed ?_
      rw [hCalls]
      rfl
    | pending hSettled hRemaining =>
      exact .collecting (hPartial.concat hn hNew hRemaining _) (by rw [hCalls]; rfl)
    | completed hSettled hRemaining =>
      exact .completed rfl (hPartial.allReported hn hNew hRemaining _) (by rw [hCalls]; rfl)

theorem stands {width : Nat} (hWidth : 0 < width) {reports : List (Nat × Outcome)}
    (h : Admissible width reports) :
    Stands width reports ((new width).afterReports reports) ((new width).calls reports) := by
  -- By induction on the reports from the first one on.
  induction reports using List.reverseRecOn with
  | nil => exact .collecting (new_partial hWidth) rfl
  | append_singleton before r ih =>
    obtain ⟨n, o⟩ := r
    obtain ⟨hn, hNew⟩ := h.fresh
    rw [afterReports_concat, calls_concat]
    exact (ih h.of_append).concat hn hNew o

/-! ## The course of a join -/

def settlementAfter (width : Nat) (before : List (Nat × Outcome)) (n : Nat) (o : Outcome) :
    Settlement :=
  (((new width).afterReports before).report n o).1

/-- The promises that a join of `width` items keeps at the report `(n, o)` after those in `before`.
It fails just at the first failure that is reported, with its item and its error, and succeeds just
when the last item has reported a value, with all values in their places. Until it is settled it
counts its empty slots, of which the report takes one. What comes after that is discarded and
changes nothing. -/
structure Promises (width : Nat) (before : List (Nat × Outcome)) (n : Nat) (o : Outcome) :
    Prop where
  fails : ∀ e, settlementAfter width before n o = .done (.error e) ↔
    ∃ cause, o = .error cause ∧ e = .ofItem n cause ∧ ∀ r ∈ before, ∃ d, r.2 = .ok d
  succeeds : ∀ d, settlementAfter width before n o = .done (.ok d) ↔
    ∃ values, d = .list values ∧ AllReported width (before ++ [(n, o)]) values
  discards : ((new width).afterReports before).settled = true →
    ((new width).afterReports before).report n o =
      (.discarded, (new width).afterReports before)
  faultless : ∀ f, settlementAfter width before n o ≠ .fault f
  counts : ((new width).afterReports before).settled = false →
    Partial width before ((new width).afterReports before) ∧
      ((new width).afterReports before).slots[n]? = some none

theorem Admissible.unique {width i : Nat} {reports : List (Nat × Outcome)} {o o' : Outcome}
    (h : Admissible width reports) (hMem : (i, o) ∈ reports) (hMem' : (i, o') ∈ reports) :
    o = o' := by
  have hEq := List.inj_on_of_nodup_map h.once hMem hMem' rfl
  exact (Prod.mk.inj hEq).2

theorem AllReported.unique {width : Nat} {reports : List (Nat × Outcome)}
    {values values' : List Datum} (hAll : AllReported width reports values)
    (h : Admissible width reports) (hAll' : AllReported width reports values') :
    values = values' := by
  apply List.ext_getElem?
  intro i
  by_cases hi : i < width
  · obtain ⟨v, hv, hMem⟩ := hAll.reported i hi
    obtain ⟨v', hv', hMem'⟩ := hAll'.reported i hi
    rw [hv, hv', Except.ok.inj (h.unique hMem hMem')]
  · have hLength := hAll.length
    have hLength' := hAll'.length
    rw [List.getElem?_eq_none (by omega), List.getElem?_eq_none (by omega)]

theorem Partial.exists_vacant {width : Nat} {reports : List (Nat × Outcome)} {g : Gather}
    (h : Partial width reports g) : ∃ n : Nat, g.slots[n]? = some none := by
  have hAwaits : g.Awaits [] := ⟨h.counted, h.positive, nofun⟩
  exact hAwaits.exists_vacant

theorem Partial.exists_missing {width n : Nat} {before : List (Nat × Outcome)} {g : Gather}
    (h : Partial width before g) (hn : n < width) (hNew : n ∉ before.map Prod.fst)
    (hRemaining : 1 < g.remaining) (d : Datum) :
    ∃ m < width, m ∉ (before ++ [(n, (.ok d : Outcome))]).map Prod.fst := by
  have hNext := h.concat hn hNew hRemaining d
  obtain ⟨m, hm⟩ := hNext.exists_vacant
  exact ⟨m, (hNext.vacant m).mp hm⟩

theorem promises {width n : Nat} {before after : List (Nat × Outcome)} {o : Outcome}
    (hWidth : 0 < width) (h : Admissible width (before ++ (n, o) :: after)) :
    Promises width before n o := by
  obtain ⟨hn, hNew⟩ := h.fresh
  have hNow : Admissible width (before ++ [(n, o)]) := by
    rw [← List.singleton_append, ← List.append_assoc] at h
    exact h.of_append
  have hOwn : ∀ v, (n, .ok v) ∈ before ++ [(n, o)] → o = .ok v := by
    intro v hMem
    exact (hNow.unique hMem (by simp)).symm
  cases stands hWidth h.of_append with
  | completed _ hAll =>
    obtain ⟨v, -, hMem⟩ := hAll.reported n hn
    exact absurd (List.mem_map.mpr ⟨_, hMem, rfl⟩) hNew
  | @failed hSettled first last m e hSplit =>
    have hReport := report_settled hSettled n o
    have hMem : (m, .error e) ∈ before := by simp [hSplit]
    refine ⟨fun e' => ?_, fun d => ?_, fun _ => hReport, fun f => ?_, fun hOpen => ?_⟩
    · rw [settlementAfter, hReport]
      refine ⟨nofun, ?_⟩
      rintro ⟨cause, -, -, hBefore⟩
      obtain ⟨d, hd⟩ := hBefore _ hMem
      cases hd
    · rw [settlementAfter, hReport]
      refine ⟨nofun, ?_⟩
      rintro ⟨values, -, hAll⟩
      obtain ⟨v, -, hv⟩ := hAll.reported m (h.of_append.inside _ hMem)
      cases hNow.unique hv (List.mem_append_left _ hMem)
    · rw [settlementAfter, hReport]
      exact nofun
    · rw [hSettled] at hOpen
      cases hOpen
  | collecting hPartial =>
    have hCounts := And.intro hPartial ((hPartial.vacant n).mpr ⟨hn, hNew⟩)
    have hDiscards : ((new width).afterReports before).settled = true →
        ((new width).afterReports before).report n o =
          (.discarded, (new width).afterReports before) := by
      intro hSettled
      rw [hPartial.settled] at hSettled
      cases hSettled
    have hReported := report_reported (fun _ => hPartial.awaits hn hNew) List.mem_cons_self o
    generalize hReport : ((new width).afterReports before).report n o = report at hReported
    have hSettlement : settlementAfter width before n o = report.1 := by
      rw [settlementAfter, hReport]
    rw [hReport] at hDiscards
    refine ⟨fun e' => ?_, fun d' => ?_, hReport ▸ hDiscards, fun f => ?_, fun _ => hCounts⟩
    · rw [hSettlement]
      cases hReported with
      | discarded hSettled =>
        rw [hPartial.settled] at hSettled
        cases hSettled
      | failed =>
        constructor
        · intro hEq
          cases hEq
          exact ⟨_, rfl, rfl, hPartial.unfailed⟩
        · rintro ⟨cause, hCause, rfl, -⟩
          cases hCause
          rfl
      | pending | completed =>
        refine ⟨nofun, ?_⟩
        rintro ⟨cause, hCause, -⟩
        cases hCause
    · rw [hSettlement]
      cases hReported with
      | discarded hSettled =>
        rw [hPartial.settled] at hSettled
        cases hSettled
      | failed =>
        refine ⟨nofun, ?_⟩
        rintro ⟨values, -, hAll⟩
        obtain ⟨v, -, hv⟩ := hAll.reported n hn
        cases hOwn v hv
      | @pending d _ hRemaining =>
        refine ⟨nofun, ?_⟩
        rintro ⟨values, -, hAll⟩
        obtain ⟨m, hm, hMissing⟩ := hPartial.exists_missing hn hNew hRemaining d
        obtain ⟨v, -, hv⟩ := hAll.reported m hm
        exact absurd (List.mem_map.mpr ⟨_, hv, rfl⟩) hMissing
      | @completed d _ hRemaining =>
        have hAll := hPartial.allReported hn hNew hRemaining d
        constructor
        · intro hEq
          cases hEq
          exact ⟨_, rfl, hAll⟩
        · rintro ⟨values, rfl, hAll'⟩
          rw [hAll'.unique hNow hAll]
    · rw [hSettlement]
      cases hReported <;> exact nofun

/-- What a join of `width` items makes of a whole course of reports. It calls its continuation at
most once, and has called it just if it is settled. Until then it counts its empty slots, and there
is one. -/
structure Course (width : Nat) (reports : List (Nat × Outcome)) : Prop where
  once : ((new width).calls reports).length ≤ 1
  settled : ((new width).afterReports reports).settled = true ↔ (new width).calls reports ≠ []
  collects : ((new width).afterReports reports).settled = false →
    Partial width reports ((new width).afterReports reports)
  fails : ∀ e, .error e ∈ (new width).calls reports ↔ ∃ before n cause after,
    reports = before ++ (n, .error cause) :: after ∧ (∀ r ∈ before, ∃ d, r.2 = .ok d) ∧
      e = .ofItem n cause
  succeeds : ∀ d, .ok d ∈ (new width).calls reports ↔
    ∃ values, d = .list values ∧ AllReported width reports values
  promises : ∀ before n o after, reports = before ++ (n, o) :: after → Promises width before n o

theorem firstFailure_unique {before before' after after' : List (Nat × Outcome)} {n n' : Nat}
    {e e' : Failure} (hEq : before ++ (n, .error e) :: after = before' ++ (n', .error e') :: after')
    (hBefore : ∀ r ∈ before, ∃ d, r.2 = .ok d) (hBefore' : ∀ r ∈ before', ∃ d, r.2 = .ok d) :
    n = n' ∧ e = e' := by
  induction before generalizing before' with
  | nil =>
    cases before' with
    | nil =>
      cases hEq
      exact ⟨rfl, rfl⟩
    | cons r' before' =>
      obtain ⟨d, hd⟩ := hBefore' r' List.mem_cons_self
      cases hEq
      cases hd
  | cons r before ih =>
    cases before' with
    | nil =>
      obtain ⟨d, hd⟩ := hBefore r List.mem_cons_self
      cases hEq
      cases hd
    | cons r' before' =>
      exact ih (List.cons.inj hEq).2 (fun x hx => hBefore x (List.mem_cons_of_mem r hx))
        fun x hx => hBefore' x (List.mem_cons_of_mem r' hx)

theorem course {width : Nat} {reports : List (Nat × Outcome)} (hWidth : 0 < width)
    (h : Admissible width reports) : Course width reports := by
  have hPromises : ∀ before n o after, reports = before ++ (n, o) :: after →
      Promises width before n o := by
    rintro before n o after rfl
    exact Gather.promises hWidth h
  cases stands hWidth h with
  | collecting hPartial hCalls =>
    refine ⟨by simp [hCalls], by simp [hPartial.settled, hCalls], fun _ => hPartial, fun e => ?_,
      fun d => ?_, hPromises⟩
    · refine ⟨by simp [hCalls], ?_⟩
      rintro ⟨before, n, cause, after, hSplit, -⟩
      obtain ⟨d, hd⟩ := hPartial.unfailed (n, .error cause) (by simp [hSplit])
      cases hd
    · refine ⟨by simp [hCalls], ?_⟩
      rintro ⟨values, -, hAll⟩
      obtain ⟨n, hVacant⟩ := hPartial.exists_vacant
      obtain ⟨hn, hMissing⟩ := (hPartial.vacant n).mp hVacant
      obtain ⟨v, -, hMem⟩ := hAll.reported n hn
      exact absurd (List.mem_map.mpr ⟨_, hMem, rfl⟩) hMissing
  | @failed hSettled before after n cause hSplit hBefore hCalls =>
    refine ⟨by simp [hCalls], by simp [hSettled, hCalls], by simp [hSettled], fun e => ?_,
      fun d => ?_, hPromises⟩
    · rw [hCalls, List.mem_singleton]
      constructor
      · intro hEq
        cases hEq
        exact ⟨before, n, cause, after, hSplit, hBefore, rfl⟩
      · rintro ⟨before', n', cause', after', hSplit', hBefore', rfl⟩
        obtain ⟨rfl, rfl⟩ := firstFailure_unique (hSplit.symm.trans hSplit') hBefore hBefore'
        rfl
    · refine ⟨by simp [hCalls], ?_⟩
      rintro ⟨values, -, hAll⟩
      have hFailed : (n, .error cause) ∈ reports := by simp [hSplit]
      obtain ⟨v, -, hMem⟩ := hAll.reported n (h.inside _ hFailed)
      cases h.unique hMem hFailed
  | @completed hSettled values hAll hCalls =>
    refine ⟨by simp [hCalls], by simp [hSettled, hCalls], by simp [hSettled], fun e => ?_,
      fun d => ?_, hPromises⟩
    · refine ⟨by simp [hCalls], ?_⟩
      rintro ⟨before, n, cause, after, hSplit, -⟩
      have hFailed : (n, .error cause) ∈ reports := by simp [hSplit]
      obtain ⟨v, -, hMem⟩ := hAll.reported n (h.inside _ hFailed)
      cases h.unique hMem hFailed
    · rw [hCalls, List.mem_singleton]
      constructor
      · intro hEq
        cases hEq
        exact ⟨values, rfl, hAll⟩
      · rintro ⟨values', rfl, hAll'⟩
        rw [hAll'.unique h hAll]

end Gather

end Interlace
