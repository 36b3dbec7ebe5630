import Interlace.Proofs.Descent
import Interlace.Proofs.Reports
import Interlace.Showcase

/-!
# Joins in the machine

What stands where a join was started is the join after the reports that its items have made so far,
and it calls its continuation as those reports say. Items report at any moment, also inside of the
call that their join makes.
-/

namespace Interlace

variable {b : Behaviour}

/-- The report to the join at `q` for which a continuation is called. -/
def reportTo (q : Place) : Place × Option Outcome → Option (Nat × Outcome)
  | (n :: p, some o) => if p = q then some (n, o) else none
  | _ => none

namespace History

/-- The reports that were made to the join at `q`, in their order. -/
def reports (h : History b) (q : Place) : List (Nat × Outcome) :=
  (h.log.filterMap Event.returned?).filterMap (reportTo q)

variable {h : History b}

theorem reportTo_eq_some {q : Place} {returned : Place × Option Outcome} {n : Nat} {o : Outcome} :
    reportTo q returned = some (n, o) ↔ returned = (n :: q, some o) := by
  rcases returned with ⟨_ | ⟨m, p⟩, _ | o'⟩
  case cons.some =>
    by_cases hp : p = q <;> simp [reportTo, hp]
  all_goals simp [reportTo]

theorem mem_reports {q : Place} {n : Nat} {o : Outcome} :
    (n, o) ∈ h.reports q ↔ .called (n :: q) o ∈ h.log := by
  simp only [reports, List.mem_filterMap, reportTo_eq_some]
  constructor
  · rintro ⟨returned, ⟨event, hEvent, hReturned⟩, rfl⟩
    cases event with
    | called x o' =>
      cases hReturned
      exact hEvent
    | _ => cases hReturned
  · intro hCalled
    exact ⟨_, ⟨_, hCalled, rfl⟩, rfl⟩

theorem reports_afterJob (job : Job b) (rest : List (Job b)) (q : Place) :
    (h.afterJob job rest).reports q =
      h.reports q ++ job.returned?.toList.filterMap (reportTo q) := by
  rw [reports, reports, afterJob, List.filterMap_append, List.filterMap_append,
    Machine.returned_perform]

theorem reports_of_elsewhere {job : Job b} {q : Place} (hOther : ∀ n o, job ≠ .deliver (n :: q) o)
    (rest : List (Job b)) : (h.afterJob job rest).reports q = h.reports q := by
  have hNone : job.returned?.toList.filterMap (reportTo q) = [] := by
    refine List.filterMap_eq_nil_iff.mpr fun returned hReturned => ?_
    cases hReport : reportTo q returned with
    | none => rfl
    | some report =>
      obtain ⟨n, o⟩ := report
      rw [reportTo_eq_some.mp hReport] at hReturned
      cases job with
      | deliver x o' =>
        have hEq : x = n :: q ∧ o' = o := by simpa [Job.returned?, eq_comm] using hReturned
        exact absurd (by rw [hEq.1]) (hOther n o')
      | _ => simp [Job.returned?] at hReturned
  rw [reports_afterJob, hNone, List.append_nil]

theorem reports_deliver {q : Place} (n : Nat) (o : Outcome) (rest : List (Job b)) :
    (h.afterJob (.deliver (n :: q) o) rest).reports q = h.reports q ++ [(n, o)] := by
  rw [reports_afterJob]
  simp [Job.returned?, reportTo]

theorem reports_sublist (h : History b) (q : Place) :
    ((h.reports q).map Prod.fst).Sublist (h.closed.filterMap (partOf q)) := by
  rw [reports, closed]
  induction h.log with
  | nil => exact .slnil
  | cons event log ih =>
    cases event with
    | called x o =>
      cases hReport : reportTo q (x, some o) with
      | none =>
        simp only [List.filterMap_cons, Event.returned?, Event.closed?, hReport]
        cases partOf q x with
        | none => exact ih
        | some n => exact ih.cons n
      | some report =>
        obtain ⟨n, o'⟩ := report
        obtain ⟨rfl, -⟩ := Prod.mk.inj (reportTo_eq_some.mp hReport)
        have hPart : partOf q (n :: q) = some n := partOf_eq_some.mpr rfl
        simp only [List.filterMap_cons, Event.returned?, Event.closed?, hReport, hPart]
        exact ih.cons_cons n
    | dropped x =>
      have hNone : reportTo q (x, none) = none := by cases x <;> rfl
      simp only [List.filterMap_cons, Event.returned?, Event.closed?, hNone]
      cases partOf q x with
      | none => exact ih
      | some n => exact ih.cons n
    | escaped n e =>
      simp only [List.filterMap_cons, Event.returned?, Event.closed?]
      cases partOf q [n] with
      | none => exact ih
      | some m => exact ih.cons m
    | _ => exact ih

end History

namespace Gather

/-- A join that has let go of some of its holders. -/
def Like (g g' : Gather) : Prop := { g with holders := g'.holders } = g'

theorem Like.report {g g' : Gather} (h : g.Like g') (n : Nat) (o : Outcome) :
    (g.report n o).1 = (g'.report n o).1 ∧ (g.report n o).2.Like (g'.report n o).2 := by
  obtain ⟨slots, remaining, settled, _⟩ := g
  obtain ⟨_, _, _, holders⟩ := g'
  cases h
  rw [Gather.report.eq_def, Gather.report.eq_def]
  cases settled with
  | true => exact ⟨rfl, rfl⟩
  | false =>
    cases o with
    | error e => exact ⟨rfl, rfl⟩
    | ok d =>
      simp only [accept, Bool.false_eq_true, if_false]
      cases slots[n]? with
      | none => exact ⟨rfl, rfl⟩
      | some slot =>
        cases slot with
        | some d' => exact ⟨rfl, rfl⟩
        | none =>
          dsimp only
          by_cases hRemaining : 0 < remaining - 1
          · rw [if_pos hRemaining, if_pos hRemaining]
            exact ⟨rfl, rfl⟩
          · rw [if_neg hRemaining, if_neg hRemaining]
            exact ⟨rfl, rfl⟩

theorem Like.release {g g' : Gather} (h : g.Like g') : g.Like g'.release := by
  rw [Like] at h
  rw [Like, Gather.release, ← h]

theorem Reported.unique {g : Gather} {n : Nat} {o : Outcome} {report report' : Settlement × Gather}
    (h : g.Reported n o report) (h' : g.Reported n o report') : report = report' := by
  cases h <;> cases h' <;> first | rfl | simp_all

theorem mem_calls_mono {g : Gather} {reports reports' : List (Nat × Outcome)} {o : Outcome}
    (hPrefix : reports <+: reports') (ho : o ∈ g.calls reports) : o ∈ g.calls reports' := by
  obtain ⟨more, rfl⟩ := hPrefix
  induction more using List.reverseRecOn with
  | nil => rwa [List.append_nil]
  | append_singleton more r ih =>
    obtain ⟨n, o'⟩ := r
    rw [← List.append_assoc, calls_concat]
    exact List.mem_append_left _ ih

end Gather

namespace Schedule

variable {s : Schedule b} {world : b.World}

theorem gather_unique {i j : Nat} {q : Place} {w w' : Work b.Recipe b.Note}
    {ws ws' : List (Work b.Recipe b.Note)}
    (hInvoke : s.job? world i = some (.invoke q (.gather (w :: ws))))
    (hInvoke' : s.job? world j = some (.invoke q (.gather (w' :: ws')))) :
    w :: ws = w' :: ws' := by
  obtain rfl : i = j := by
    rcases Nat.lt_trichotomy i j with hij | hij | hij
    · exact absurd (dormant_of_job hInvoke' (by simp [Job.dormant]))
        (not_dormant_of_touched (touched_of_gather hInvoke hij))
    · exact hij
    · exact absurd (dormant_of_job hInvoke (by simp [Job.dormant]))
        (not_dormant_of_touched (touched_of_gather hInvoke' hij))
  rw [hInvoke] at hInvoke'
  cases hInvoke'
  rfl

theorem reports_mono {j k : Nat} (hjk : j ≤ k) (q : Place) :
    (s.after world j).reports q <+: (s.after world k).reports q :=
  ((s.log_prefix world hjk).filterMap _).filterMap _

theorem calls_report {k n width : Nat} {q : Place} {o o' : Outcome}
    (hReport : s.job? world k = some (.deliver (n :: q) o)) :
    o' ∈ (Gather.new width).calls ((s.after world (k + 1)).reports q) ↔
      o' ∈ (Gather.new width).calls ((s.after world k).reports q) ∨
        Gather.settlementAfter width ((s.after world k).reports q) n o = .done o' := by
  obtain ⟨rest, -, hAfter⟩ := s.after_succ_of_job world hReport
  rw [hAfter, History.reports_deliver, Gather.calls_concat, List.mem_append]
  refine or_congr_right ?_
  rw [Gather.settlementAfter, Option.mem_toList]
  generalize (((Gather.new width).afterReports _).report n o).1 = settlement
  cases settlement <;> simp [Settlement.outcome?]

theorem nested_of_invoke {c : Nat} {x : Place} {work : Work b.Recipe b.Note}
    (hInvoke : s.job? world c = some (.invoke x work)) : 2 ≤ x.length := by
  obtain ⟨whole, -, hBehalf⟩ := behalf hInvoke
  cases hBehalf with
  | @run l p x r _ u _ _ hFind =>
    have := List.length_pos_iff_ne_nil.mpr ((s.sound world l).ne_nil_of_find? hFind)
    simp only [List.length_cons]
    omega
  | @item l n q' _ more _ hItems =>
    obtain ⟨rest, hAgenda, -⟩ := s.after_succ_of_job world hItems
    have hMem : n :: q' ∈ (s.after world l).ledger := by
      refine History.mem_ledger_of_dormant (dormant_of_job hItems ?_)
      exact mem_itemPlaces.mpr ⟨n, Nat.le_refl n, by simp, rfl⟩
    have hq' : q' ≠ [] := by
      rintro rfl
      have hIdle := (s.sound world l).idle.2
      simp [Machine.starting, hAgenda, Job.starts] at hIdle
    have := List.length_pos_iff_ne_nil.mpr hq'
    simp only [List.length_cons]
    omega

section

variable {i : Nat} {q : Place} {w : Work b.Recipe b.Note} {ws : List (Work b.Recipe b.Note)}
  (hInvoke : s.job? world i = some (.invoke q (.gather (w :: ws))))
include hInvoke

theorem reports_before {k : Nat} (hki : k ≤ i) : (s.after world k).reports q = [] := by
  refine List.eq_nil_iff_forall_not_mem.mpr ?_
  rintro ⟨n, o⟩ hMem
  have hCalled := s.mem_log world hki (History.mem_reports.mp hMem)
  exact part_not_in_log (dormant_of_job hInvoke (by simp [Job.dormant])) rfl hCalled

theorem item_of_invoke {c n : Nat} {work : Work b.Recipe b.Note}
    (hItem : s.job? world c = some (.invoke (n :: q) work)) :
    ∃ whole, (w :: ws)[n]? = some whole ∧ whole.core = work.core := by
  obtain ⟨whole, hCore, hBehalf⟩ := behalf hItem
  cases hBehalf with
  | run _ _ hFind =>
    obtain ⟨j, -, -, recipe, args, hStart⟩ := origin hFind
    exact (start_ne_gather hStart hInvoke).elim
  | @item l _ _ _ more _ hItems =>
    obtain ⟨j, -, all, hAll, hGather, -, hRest⟩ := handed_of_items hItems
    cases all with
    | nil => exact absurd rfl hAll
    | cons w' ws' =>
      have hSame := gather_unique hInvoke hGather
      refine ⟨whole, ?_, hCore⟩
      rw [hSame]
      have hFirst := congrArg (fun works => works[0]?) hRest
      simpa using hFirst.symm

theorem nested_of_gather : 2 ≤ q.length := nested_of_invoke hInvoke

theorem admissible (k : Nat) :
    Gather.Admissible (ws.length + 1) ((s.after world k).reports q) where
  once := by
    refine (History.reports_sublist _ q).nodup ?_
    refine (nodup_closed k).filterMap fun x x' n hx hx' => ?_
    rw [partOf_eq_some.mp hx, partOf_eq_some.mp hx']
  inside r hr := by
    obtain ⟨n, o⟩ := r
    obtain ⟨j, -, hJob⟩ := (s.called_log world).mp (History.mem_reports.mp hr)
    have hLength := nested_of_gather hInvoke
    obtain ⟨c, -, work, hItem, -⟩ := handed_of_deliver (mem_agenda_of_job hJob) (by simp; omega)
    obtain ⟨whole, hWhole, -⟩ := item_of_invoke hInvoke hItem
    exact (List.getElem?_eq_some_iff.mp hWhole).1

theorem like_of_find? {k : Nat} {g : Gather}
    (hFind : (s.after world k).machine.nodes.find? q = some (.gather g)) :
    ((Gather.new (ws.length + 1)).afterReports ((s.after world k).reports q)).Like g := by
  induction k generalizing g with
  | zero => cases hFind
  | succ k ih =>
    rcases s.after_succ world k with ⟨job, rest, hJob, hAgenda, hAfter⟩ | ⟨-, put, hAdded⟩
    case inr =>
      rw [hAdded.nodes] at hFind
      rw [History.reports, hAdded.log]
      exact ih hFind
    have hs := s.sound world k
    rw [hAfter] at hFind
    cases hOld : (s.after world k).machine.nodes.find? q with
    | none =>
      rcases History.vacant_cases job rest hOld with hNone | ⟨recipe, args, limit, -, rfl⟩ |
        ⟨w', ws', rfl⟩
      · rw [hNone] at hFind
        cases hFind
      · exact (start_ne_gather hJob hInvoke).elim
      · rw [(History.does_gather q w' ws' rest).node] at hFind
        cases hFind
        have hSame := congrArg List.length (gather_unique hInvoke hJob)
        simp only [List.length_cons] at hSame
        rw [hAfter, History.reports_of_elsewhere (by simp), reports_before hJob (Nat.le_refl k)]
        rw [hSame]
        rfl
    | some node =>
      cases node with
      | run r =>
        obtain ⟨j, -, -, recipe, args, hStart⟩ := origin hOld
        exact (start_ne_gather hStart hInvoke).elim
      | gather g₀ =>
        have hLike := ih hOld
        have hRemains : ∀ {g' g'' : Gather}, g'.remains = some (Node.gather g : Node b) →
            g''.Like g' → g''.Like g := by
          intro g' g'' hRemains hLike'
          rw [Gather.remains] at hRemains
          split at hRemains
          · cases hRemains
          · cases hRemains
            exact hLike'.release
        cases hs.join_step hAgenda hOld with
        | elsewhere hSite =>
          rw [History.find?_afterJob hSite, hOld] at hFind
          cases hFind
          rw [hAfter, History.reports_of_elsewhere]
          · exact hLike
          · rintro n o rfl
            exact hSite rfl
        | item hDoes =>
          rw [hDoes.node] at hFind
          cases hFind
          rw [hAfter, History.reports_of_elsewhere (by simp)]
          exact hLike
        | through hDoes | lose _ hDoes =>
          rw [hDoes.node] at hFind
          rw [hAfter, History.reports_of_elsewhere (by simp)]
          exact hRemains hFind hLike
        | @report n o settlement g' hPart hReported hDoes =>
          have hReport : g₀.report n o = (settlement, g') :=
            (Gather.report_reported (hs.gathering hOld).awaits hPart o).unique hReported
          rw [hDoes.node] at hFind
          rw [hAfter, History.reports_deliver, Gather.afterReports_concat]
          refine hRemains hFind ?_
          have hNext := (hLike.report n o).2
          rwa [hReport] at hNext

theorem report_at {k n : Nat} {o : Outcome} {rest : List (Job b)}
    (hReport : s.job? world k = some (.deliver (n :: q) o))
    (hAgenda : (s.after world k).machine.agenda = .deliver (n :: q) o :: rest) :
    ∃ g settlement g', (s.after world k).machine.nodes.find? q = some (.gather g) ∧
      g.report n o = (settlement, g') ∧
      ((Gather.new (ws.length + 1)).afterReports ((s.after world k).reports q)).Like g ∧
      (s.after world (k + 1)).machine.agenda = settlement.answer q ++ g'.dropped q ++ rest := by
  have hAfter := s.after_succ_at world hReport hAgenda
  have hs := s.sound world k
  have hq : q ≠ [] := by
    have := nested_of_gather hInvoke
    rintro rfl
    simp at this
  obtain ⟨node, hFind⟩ := hs.find?_of_site hAgenda hq rfl (by simp [Job.dormant])
  cases node with
  | run r =>
    obtain ⟨j, -, -, recipe, args, hStart⟩ := origin hFind
    exact (start_ne_gather hStart hInvoke).elim
  | gather g =>
    cases hs.join_step hAgenda hFind with
    | elsewhere hSite => exact absurd rfl hSite
    | @report _ _ settlement g' hPart hReported hDoes =>
      have hEq : g.report n o = (settlement, g') :=
        (Gather.report_reported (hs.gathering hFind).awaits hPart o).unique hReported
      exact ⟨g, settlement, g', hFind, hEq, like_of_find? hInvoke hFind,
        (does_succ hAfter hDoes).2.1⟩

theorem report_step {k n : Nat} {o : Outcome}
    (hReport : s.job? world k = some (.deliver (n :: q) o)) :
    ∃ g settlement g' rest, (s.after world k).machine.nodes.find? q = some (.gather g) ∧
      g.report n o = (settlement, g') ∧
      ((Gather.new (ws.length + 1)).afterReports ((s.after world k).reports q)).Like g ∧
      (s.after world (k + 1)).machine.agenda = settlement.answer q ++ g'.dropped q ++ rest := by
  obtain ⟨rest, hAgenda, -⟩ := s.after_succ_of_job world hReport
  obtain ⟨g, settlement, g', hReported⟩ := report_at hInvoke hReport hAgenda
  exact ⟨g, settlement, g', rest, hReported⟩

theorem told_of_calls {k : Nat} {o : Outcome}
    (ho : o ∈ (Gather.new (ws.length + 1)).calls ((s.after world k).reports q)) :
    .deliver q o ∈ (s.after world k).machine.agenda ∨ .called q o ∈ (s.after world k).log := by
  induction k with
  | zero => cases ho
  | succ k ih =>
    have hOld : o ∈ (Gather.new (ws.length + 1)).calls ((s.after world k).reports q) →
        .deliver q o ∈ (s.after world (k + 1)).machine.agenda ∨
          .called q o ∈ (s.after world (k + 1)).log := by
      intro ho
      rcases ih ho with hDeliver | hCalled
      · rcases s.mem_agenda_succ world hDeliver with hDeliver | hJob
        · exact Or.inl hDeliver
        · exact Or.inr ((s.called_log world).mpr ⟨k, Nat.lt_succ_self k, hJob⟩)
      · exact Or.inr (s.mem_log world (Nat.le_succ k) hCalled)
    rcases s.after_succ world k with ⟨job, rest, hJob, hAgenda, hAfter⟩ | ⟨-, put, hAdded⟩
    case inr =>
      rw [History.reports, hAdded.log] at ho
      exact hOld ho
    by_cases hReport : ∃ n o', job = .deliver (n :: q) o'
    case neg =>
      rw [hAfter, History.reports_of_elsewhere fun n o' hEq => hReport ⟨n, o', hEq⟩] at ho
      exact hOld ho
    obtain ⟨n, o', rfl⟩ := hReport
    rcases (calls_report hJob).mp ho with ho | hDone
    · exact hOld ho
    · obtain ⟨g, settlement, g', rest', -, hEq, hLike, hPut⟩ := report_step hInvoke hJob
      have hSettlement : settlement = .done o := by
        have hSame := (hLike.report n o').1
        rw [hEq] at hSame
        exact hSame.symm.trans hDone
      rw [hSettlement] at hPut
      exact Or.inl (by simp [hPut, Settlement.answer])

theorem le_of_dormant {j : Nat} (hDormant : q ∈ (s.after world j).machine.dormant) : j ≤ i := by
  by_contra hij
  exact not_dormant_of_touched (touched_of_gather hInvoke (Nat.lt_of_not_le hij)) hDormant

theorem lt_of_returned {j : Nat} (hReturned : q ∈ (s.after world j).returned) : i < j := by
  by_contra hij
  have hTouched := (s.kept world (Nat.le_of_not_lt hij)).touched q (Or.inr hReturned)
  exact not_dormant_of_touched hTouched (dormant_of_job hInvoke (by simp [Job.dormant]))

theorem report_of_deliver {k : Nat} {o : Outcome}
    (hDeliver : .deliver q o ∈ (s.after world k).machine.agenda) :
    ∃ j < k, ∃ n o' g g', s.job? world j = some (.deliver (n :: q) o') ∧
      (s.after world j).machine.nodes.find? q = some (.gather g) ∧
      g.report n o' = (.done o, g') := by
  obtain ⟨j, hj, hNow, hStems⟩ := stems hDeliver
  have hij : i < j + 1 := lt_of_returned hInvoke
    (List.mem_append_left _ (mem_returning hNow (by simp [Job.returning])))
  have hNotRun : ∀ r, (s.after world j).machine.nodes.find? q ≠ some (.run r) := by
    intro r hFind
    obtain ⟨l, -, -, recipe, args, hStart⟩ := origin hFind
    exact start_ne_gather hStart hInvoke
  have hThen : q ∈ (s.after world j).machine.dormant → j = i := by
    intro hDormant
    have := le_of_dormant hInvoke hDormant
    omega
  have hHeld : q ∈ (s.after world j).machine.held.map Held.place → j = i := fun hHeld =>
    hThen (List.mem_append_right _ hHeld)
  rcases hStems with ⟨parent, hParent, hBrings⟩ | hAdmits
  · have hParentThen : j = i → parent = .invoke q (.gather (w :: ws)) := by
      rintro rfl
      rw [hParent] at hInvoke
      exact Option.some.inj hInvoke
    generalize hChild : Job.deliver q o = child at hBrings
    cases hBrings with
    | refused =>
      cases hChild
      exact (start_ne_gather hParent hInvoke).elim
    | finish hFind =>
      cases hChild
      exact absurd hFind (hNotRun _)
    | @fate x v =>
      cases hFate : v.fate with
      | complete o' =>
        rw [hFate] at hChild
        cases hChild
        cases hParentThen (hThen (dormant_of_job hParent (by simp [Job.dormant])))
      | keep | delay | drop =>
        rw [hFate] at hChild
        cases hChild
    | nothing =>
      cases hChild
      cases hParentThen (hThen (dormant_of_job hParent (by simp [Job.dormant])))
    | found hTake =>
      cases hChild
      cases hParentThen (hHeld ((takeKeyed_perm hTake).mem_iff.mp List.mem_cons_self))
    | answer hFind hReport =>
      cases hChild
      exact ⟨j, hj, _, _, _, _, hParent, hFind, hReport⟩
    | _ => cases hChild
  · cases hAdmits with
    | call hMove hMem =>
      obtain rfl := hHeld hMem
      rw [job?, hMove] at hInvoke
      cases hInvoke

theorem calls_of_told {k : Nat} {o : Outcome}
    (hTold : .deliver q o ∈ (s.after world k).machine.agenda ∨
      .called q o ∈ (s.after world k).log) :
    o ∈ (Gather.new (ws.length + 1)).calls ((s.after world k).reports q) := by
  have hDeliver : ∃ l ≤ k, .deliver q o ∈ (s.after world l).machine.agenda := by
    rcases hTold with hDeliver | hCalled
    · exact ⟨k, Nat.le_refl k, hDeliver⟩
    · obtain ⟨l, hl, hJob⟩ := (s.called_log world).mp hCalled
      exact ⟨l, Nat.le_of_lt hl, mem_agenda_of_job hJob⟩
  obtain ⟨l, hl, hDeliver⟩ := hDeliver
  obtain ⟨j, hj, n, o', g, g', hJob, hFind, hReport⟩ := report_of_deliver hInvoke hDeliver
  have hSame := ((like_of_find? hInvoke hFind).report n o').1
  rw [hReport] at hSame
  refine Gather.mem_calls_mono (reports_mono (show j + 1 ≤ k by omega) q) ?_
  exact (calls_report hJob).mpr (Or.inr hSame)

end

/-- What a join of `width` items with the continuation `q` keeps to. Its items report at most once
each, and what stands at its place is the join after the reports so far. Its continuation was
called, or is about to be, just as those reports say, and the report that settles it calls its
continuation before anything else. -/
structure Gathered (s : Schedule b) (world : b.World) (q : Place) (width : Nat) : Prop where
  admissible : ∀ k, Gather.Admissible width ((s.after world k).reports q)
  stands : ∀ k g, (s.after world k).machine.nodes.find? q = some (.gather g) →
    ((Gather.new width).afterReports ((s.after world k).reports q)).Like g
  calls : ∀ k o, o ∈ (Gather.new width).calls ((s.after world k).reports q) ↔
    .deliver q o ∈ (s.after world k).machine.agenda ∨ o ∈ (s.after world k).calls q
  promptly : ∀ k n o o', s.job? world k = some (.deliver (n :: q) o) →
    Gather.settlementAfter width ((s.after world k).reports q) n o = .done o' →
      (s.after world (k + 1)).machine.agenda.head? = some (.deliver q o')

/-- A join does right by every course of reports, and in every schedule it has such a course. -/
theorem gathered {width : Nat} (hWidth : 0 < width) :
    (∀ reports, Gather.Admissible width reports → Gather.Course width reports) ∧
      ∀ (b : Behaviour) (s : Schedule b) (world : b.World) (i : Nat) (q : Place)
        (works : List (Work b.Recipe b.Note)), works.length = width →
        s.job? world i = some (.invoke q (.gather works)) → s.Gathered world q width := by
  refine ⟨fun reports hAdmissible => Gather.course hWidth hAdmissible, ?_⟩
  rintro b s world i q works rfl hInvoke
  cases works with
  | nil => exact absurd hWidth (Nat.lt_irrefl 0)
  | cons w ws =>
    refine ⟨admissible hInvoke, fun k g => like_of_find? hInvoke, fun k o => ?_, ?_⟩
    · rw [History.mem_calls]
      exact ⟨told_of_calls hInvoke, calls_of_told hInvoke⟩
    · intro k n o o' hReport hDone
      obtain ⟨g, settlement, g', rest, -, hEq, hLike, hPut⟩ := report_step hInvoke hReport
      have hSame := (hLike.report n o).1
      rw [hEq] at hSame
      have hSettlement : settlement = .done o' := hSame.symm.trans hDone
      rw [hPut, hSettlement]
      rfl

theorem gathered_pair : 0 < 2 ∧ Gather.Admissible 2 [(1, .ok .null), (0, .ok .null)] ∧
    Gather.Course 2 [(1, .ok .null), (0, .ok .null)] ∧
    (alone (b := Demo.behaviour) (.fanOutSleeps [] [.null, .null]) [] 2).Gathered .empty
      [0, 0] 2 := by
  have hWidth : 0 < 2 := by decide
  have hAdmissible : Gather.Admissible 2 [(1, .ok .null), (0, .ok .null)] :=
    ⟨by decide, by simp⟩
  refine ⟨hWidth, hAdmissible, (gathered hWidth).1 _ hAdmissible, ?_⟩
  exact (gathered hWidth).2 Demo.behaviour _ _ 3 [0, 0]
    [Work.done (.ok .null), Work.done (.ok .null)] rfl rfl

end Schedule

end Interlace
