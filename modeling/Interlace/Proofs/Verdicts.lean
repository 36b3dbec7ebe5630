import Interlace.Proofs.Spreading

/-!
# What a tree comes to

Where a tree has got quiet, the reports of its leaves decide what it has come to: the first failure,
with the path to its leaf, or else the values of all leaves. This goes up from the subtrees to the
tree, since a subtree has got quiet whenever a leaf beside it reports, and so has failed before the
trees beside it that fail later. Nothing is handed over for a tree before a leaf has failed or all
leaves have reported values, quiet or not.
-/

namespace Interlace

variable {b : Behaviour}

namespace Schedule

variable {s : Schedule b} {world : b.World}

/-! ## One node -/

section

variable {width l c e k : Nat} {x : Place} {child : Fin width → Tree} {r : Run b}
  {items : List (Item b.Recipe b.Note)} (h : s.Spread world x child l c e r items)
include h

theorem Spread.first_lt : c < e := h.returns.1

theorem Spread.passes_on (hek : e ≤ k) (hQuiet : (s.after world k).Quiet x) :
    (s.after world k).calls x = (s.after world k).calls (0 :: x) := by
  have hce := h.first_lt
  have hlc := h.before
  obtain ⟨i, recipe, args, limit, hil, hLimit, hGrows, hStart⟩ := h.start
  have hWaits : ∀ {l' y r' work u}, s.LastTurn world l' k x y r' →
      (s.turned world l' y r').turn = .await work u → r'.wait = 0 := by
    intro l' y r' work u hLast hTurn
    cases treeTurn hGrows hLimit hStart hLast.turns with
    | first _ hAsks => exact hAsks.wait
    | last _ _ _ _ hFinished =>
      rw [hFinished] at hTurn
      cases hTurn
  cases progress hLimit hStart (by omega : i < k) with
  | fresh hNone => exact absurd h.asks.turns.job (hNone l (by omega) .start)
  | next _ _ _ hDrive | told _ _ _ _ _ hDrive =>
    exact absurd hDrive (hQuiet.not_mem rfl (List.suffix_refl x))
  | invoking _ _ _ _ _ hCheck => exact absurd hCheck (hQuiet.not_mem rfl (List.suffix_refl x))
  | parked hLast hTurn hFind =>
    have hWait := hWaits hLast hTurn
    have hOpened := (s.sound world k).opened_of_run hFind
    rw [calls_eq_nil (Or.inl hOpened), eq_comm, List.eq_nil_iff_forall_not_mem]
    intro o ho
    obtain ⟨d, hdk, hDeliver⟩ := (s.called_log world).mp (History.mem_calls.mp ho)
    exact not_parked_of_called hFind rfl (by simpa [hWait] using hDeliver) hdk
  | @ended l' y r' o hLast hTurn =>
    cases treeTurn hGrows hLimit hStart hLast.turns with
    | first _ hAsks =>
      rw [hAsks.turn] at hTurn
      cases hTurn
    | @last _ d _ _ _ _ _ hAsks _ hCalled hFinished =>
      rw [hFinished] at hTurn
      cases hTurn
      have hl'k := hLast.before
      have hdl' := hCalled.2.1
      rw [calls_eq_singleton ((s.called_log world).mpr ⟨d, by omega, hCalled.2.2⟩)]
      have hEnds : s.Ends world l' x o := ⟨_, r', hLast.turns.job, hLast.turns.find, hFinished⟩
      rcases standing_of_ends ⟨recipe, args, limit, hLimit, hStart⟩ hEnds hl'k with
        ⟨-, _, -, hPending | ⟨d', -, hd'k, -, hDeliver⟩⟩ | ⟨_, failure, -, rfl, hUncaught, -⟩
      · exact absurd hPending.mem (hQuiet.not_mem rfl (List.suffix_refl x))
      · exact calls_eq_singleton ((s.called_log world).mpr ⟨d', hd'k, hDeliver⟩)
      · cases hAsks.joint hCalled.2.2 with
        | failure => cases hUncaught
  | gone hLast hTurn _ hGone hDropped =>
    rw [hWaits hLast hTurn] at hDropped
    rw [(abandoned_of_dropped hDropped).2 k]
    rcases hGone with hDrop | hDrop
    · exact absurd hDrop (hQuiet.not_mem rfl (List.suffix_refl x))
    · exact (abandoned_of_dropped hDrop).2 k

theorem Spread.mem_joined (hek : e ≤ k) (hQuiet : (s.after world k).Quiet x) {o : Outcome} :
    o ∈ (s.after world k).calls (0 :: x) ↔ width = 0 ∧ o = .ok (.list []) ∨
      0 < width ∧ o ∈ (Gather.new width).calls ((s.after world k).reports (0 :: x)) := by
  have hce := h.first_lt
  have hLength := h.bears.length
  have hInvoke := h.invoke
  have hDone : ∀ {o}, .deliver (0 :: x) o ∉ (s.after world k).machine.agenda := fun {o} =>
    hQuiet.not_mem rfl (List.suffix_cons 0 x)
  cases items with
  | nil =>
    have hWidth : width = 0 := hLength.symm
    subst hWidth
    simp only [true_and, Nat.lt_irrefl, false_and, or_false]
    constructor
    · intro ho
      obtain ⟨d, -, hDeliver⟩ := (s.called_log world).mp (History.mem_calls.mp ho)
      have hResult := result_of_deliver h.asks.turns h.asks.turn
        (by rw [h.asks.wait]; exact hDeliver)
      cases hResult with
      | nothing => rfl
    · rintro rfl
      obtain ⟨rest, -, hAfter⟩ := s.after_succ_of_job world hInvoke
      have hMem : .deliver (0 :: x) (.ok (.list [])) ∈ (s.after world (c + 1)).machine.agenda := by
        rw [hAfter]
        exact List.mem_cons_self
      rcases s.mem_or_done world hMem (by omega : c + 1 ≤ k) with hMem | ⟨d, -, hdk, hDeliver⟩
      · exact absurd hMem hDone
      · exact History.mem_calls.mpr ((s.called_log world).mpr ⟨d, hdk, hDeliver⟩)
  | cons item items =>
    have hWidth : width = (items.map (Item.toWork r.frames.limit)).length + 1 := by
      simpa using hLength.symm
    rw [List.map_cons] at hInvoke
    rw [hWidth]
    simp only [Nat.add_one_ne_zero, false_and, false_or, Nat.zero_lt_succ, true_and]
    constructor
    · exact fun ho => calls_of_told hInvoke (Or.inr (History.mem_calls.mp ho))
    · intro ho
      rcases told_of_calls hInvoke ho with hMem | hCalled
      · exact absurd hMem hDone
      · exact History.mem_calls.mpr hCalled

theorem Spread.course (hWidth : 0 < width) (k : Nat) :
    Gather.Admissible width ((s.after world k).reports (0 :: x)) ∧
      Gather.Course width ((s.after world k).reports (0 :: x)) := by
  have hLength := h.bears.length
  have hInvoke := h.invoke
  cases items with
  | nil => exact absurd hLength.symm (Nat.ne_of_gt hWidth)
  | cons item items =>
    rw [List.map_cons] at hInvoke
    have hAdmissible := admissible hInvoke k
    rw [List.length_map, ← List.length_cons, hLength] at hAdmissible
    exact ⟨hAdmissible, Gather.course hWidth hAdmissible⟩

theorem Spread.calls_of_deliver (hWidth : 0 < width) {d : Nat} {o : Outcome}
    (hDeliver : s.job? world d = some (.deliver (0 :: x) o)) :
    o ∈ (Gather.new width).calls ((s.after world d).reports (0 :: x)) := by
  have hLength := h.bears.length
  have hInvoke := h.invoke
  cases items with
  | nil => exact absurd hLength.symm (Nat.ne_of_gt hWidth)
  | cons item items =>
    rw [List.map_cons] at hInvoke
    have ho := calls_of_told hInvoke (Or.inl (mem_agenda_of_job hDeliver))
    rwa [List.length_map, ← List.length_cons, hLength] at ho

theorem Spread.joined_values (hWidth : 0 < width) {values : Fin width → Datum}
    (hAll : ∀ i, .ok (values i) ∈ (s.after world k).calls (i.val :: 0 :: x)) :
    .ok (.list (List.ofFn values)) ∈
      (Gather.new width).calls ((s.after world k).reports (0 :: x)) := by
  refine ((h.course hWidth k).2.succeeds _).mpr ⟨_, rfl, List.length_ofFn, fun i hi => ?_⟩
  refine ⟨values ⟨i, hi⟩, by simp [hi], History.mem_reports.mpr ?_⟩
  exact History.mem_calls.mp (hAll ⟨i, hi⟩)

theorem Spread.mem_report (hWidth : 0 < width) {n : Nat} {o : Outcome}
    (hReport : (n, o) ∈ (s.after world k).reports (0 :: x)) :
    n < width ∧ o ∈ (s.after world k).calls (n :: 0 :: x) :=
  ⟨(h.course hWidth k).1.inside _ hReport,
    History.mem_calls.mpr (History.mem_reports.mp hReport)⟩

end

/-! ## All nodes -/

variable (s world) in
/-- What the reports of its leaves mean for a tree with the continuation `x`, before move `k`. -/
structure Verdict (k : Nat) (x : Place) (t : Tree) : Prop where
  succeeds : ∀ values : List Nat → Datum, (∀ path fate, t.leaf? path = some fate →
    ∃ a < k, s.Reports world a x t path (.ok (values path))) →
      (s.after world k).calls x = [.ok (t.value values)]
  fails : ∀ a < k, ∀ path e, s.Reports world a x t path (.error e) →
    (∀ a' < a, ∀ path' e', ¬ s.Reports world a' x t path' (.error e')) →
      (s.after world k).calls x = [.error (Tree.wrapped path e)]

theorem mem_calls_of_job {d k : Nat} {x : Place} {o : Outcome} (hdk : d < k)
    (hDeliver : s.job? world d = some (.deliver x o)) : o ∈ (s.after world k).calls x :=
  History.mem_calls.mpr ((s.called_log world).mpr ⟨d, hdk, hDeliver⟩)

theorem job_of_mem_calls {k : Nat} {x : Place} {o : Outcome} (ho : o ∈ (s.after world k).calls x) :
    ∃ d < k, s.job? world d = some (.deliver x o) :=
  (s.called_log world).mp (History.mem_calls.mp ho)

theorem job_of_calls {k : Nat} {x : Place} {o : Outcome} (h : (s.after world k).calls x = [o]) :
    ∃ d < k, s.job? world d = some (.deliver x o) :=
  job_of_mem_calls (h ▸ List.mem_singleton_self o)

theorem calls_of_mem {k : Nat} {x : Place} {o : Outcome} (ho : o ∈ (s.after world k).calls x) :
    (s.after world k).calls x = [o] :=
  calls_eq_singleton (History.mem_calls.mp ho)

theorem verdict_leaf {k : Nat} {x : Place} {fate : Fate} : s.Verdict world k x (.leaf fate) where
  succeeds values hAll := by
    obtain ⟨a, hak, -, hDeliver⟩ := hAll [] fate rfl
    exact calls_of_mem (mem_calls_of_job hak hDeliver)
  fails a hak path e hReports _ := by
    obtain ⟨⟨fate', hLeaf⟩, hDeliver⟩ := hReports
    cases path with
    | nil => exact calls_of_mem (mem_calls_of_job hak hDeliver)
    | cons => cases hLeaf

theorem first_of_child {width a : Nat} {x : Place} {child : Fin width → Tree}
    (hFirst : ∀ a' < a, ∀ path e, ¬ s.Reports world a' x (.node width child) path (.error e))
    (i : Fin width) :
    ∀ a' < a, ∀ path e, ¬ s.Reports world a' (i.val :: 0 :: x) (child i) path (.error e) :=
  fun a' ha' path e hReports =>
    hFirst a' ha' (i.val :: path) e (reports_cons.mpr ⟨i.isLt, hReports⟩)

section

variable {n limit width : Nat} {recipe : b.Recipe} {args : List Datum} {child : Fin width → Tree}
  (hCalm : s.Calm world n recipe args limit) (hLimit : 0 < limit)
  (hGrows : b.Grows (.node width child) (.coroutine recipe))
include hCalm hLimit hGrows

theorem joined_of_called {width' K k : Nat} {child' : Fin width' → Tree} {x : Place} {o : Outcome}
    (hPlanted : s.Planted world K x (.node width' child'))
    (hCalled : o ∈ (s.after world k).calls x) :
    ∃ d < k, ∃ l c e r items, s.Spread world x child' l c e r items ∧
      (width' = 0 ∧ o = .ok (.list []) ∨
        0 < width' ∧ o ∈ (Gather.new width').calls ((s.after world d).reports (0 :: x))) := by
  obtain ⟨i, hiK, recipe', args', limit', hLimit', hGrows', hStart⟩ := id hPlanted
  obtain ⟨l, hlk, ⟨y, r, hDrive, hFind, hTurn⟩, -⟩ :=
    ends_of_called ⟨recipe', args', limit', hLimit', hStart⟩ hCalled
  obtain ⟨d, hdl, hDeliver⟩ : ∃ d < l, s.job? world d = some (.deliver (0 :: x) o) := by
    rw [← turned] at hTurn
    cases treeTurn hGrows' hLimit' hStart ⟨hDrive, hFind⟩ with
    | first _ hAsks =>
      rw [hAsks.turn] at hTurn
      cases hTurn
    | last _ _ _ hCalled hFinished =>
      rw [hFinished] at hTurn
      cases hTurn
      exact ⟨_, hCalled.2⟩
  -- At some later time all is quiet, and what was started before is known.
  obtain ⟨R, hR, hRest⟩ := exists_rest hCalm hLimit hGrows (K + d + 1)
  obtain ⟨l', c, e', r', items, heR, hSpread⟩ :=
    spread (hPlanted.mono (by omega : K ≤ R)) (hRest.quiet x)
  refine ⟨d, Nat.lt_trans hdl hlk, l', c, e', r', items, hSpread, ?_⟩
  rcases (hSpread.mem_joined heR (hRest.quiet x)).mp
    (mem_calls_of_job (by omega : d < R) hDeliver) with hNone | ⟨hWidth, -⟩
  · exact Or.inl hNone
  · exact Or.inr ⟨hWidth, hSpread.calls_of_deliver hWidth hDeliver⟩

theorem exists_failed {t : Tree} {K k : Nat} {x : Place} {e : Failure}
    (hPlanted : s.Planted world K x t) (hFailed : .error e ∈ (s.after world k).calls x) :
    ∃ a < k, ∃ path e', s.Reports world a x t path (.error e') := by
  induction t generalizing K k x e with
  | leaf fate =>
    obtain ⟨d, hdk, hDeliver⟩ := job_of_mem_calls hFailed
    exact ⟨d, hdk, [], e, ⟨fate, rfl⟩, hDeliver⟩
  | node width' child' ih =>
    obtain ⟨d, hdk, _, _, _, _, _, hSpread, ⟨-, hEq⟩ | ⟨hWidth, hJoined⟩⟩ :=
      joined_of_called hCalm hLimit hGrows hPlanted hFailed
    · cases hEq
    · obtain ⟨before, m, cause, after, hSplit, -, -⟩ :=
        ((hSpread.course hWidth d).2.fails e).mp hJoined
      obtain ⟨hm, hCause⟩ := hSpread.mem_report hWidth (k := d) (n := m) (o := .error cause)
        (by rw [hSplit]; simp)
      obtain ⟨_, _, -, -, hSown⟩ := hSpread.sown ⟨m, hm⟩
      obtain ⟨a, had, path, e', hReports⟩ := ih ⟨m, hm⟩ hSown.planted hCause
      exact ⟨a, Nat.lt_trans had hdk, m :: path, e', reports_cons.mpr ⟨hm, hReports⟩⟩

theorem all_succeeded {t : Tree} {K k : Nat} {x : Place} {v : Datum} {path : List Nat} {fate : Fate}
    (hPlanted : s.Planted world K x t) (hOk : .ok v ∈ (s.after world k).calls x)
    (hLeaf : t.leaf? path = some fate) : ∃ a < k, ∃ v', s.Reports world a x t path (.ok v') := by
  induction t generalizing K k x v path with
  | leaf fate' =>
    obtain ⟨d, hdk, hDeliver⟩ := job_of_mem_calls hOk
    cases path with
    | nil => exact ⟨d, hdk, v, ⟨fate', rfl⟩, hDeliver⟩
    | cons => cases hLeaf
  | node width' child' ih =>
    cases path with
    | nil => cases hLeaf
    | cons m path =>
      obtain ⟨hm, hLeaf⟩ := Tree.leaf?_cons.mp hLeaf
      obtain ⟨d, hdk, _, _, _, _, _, hSpread, ⟨hNone, -⟩ | ⟨hWidth, hJoined⟩⟩ :=
        joined_of_called hCalm hLimit hGrows hPlanted hOk
      · omega
      · obtain ⟨values, -, hAll⟩ := ((hSpread.course hWidth d).2.succeeds v).mp hJoined
        obtain ⟨value, -, hReport⟩ := hAll.reported m hm
        obtain ⟨-, hValue⟩ := hSpread.mem_report hWidth hReport
        obtain ⟨_, _, -, -, hSown⟩ := hSpread.sown ⟨m, hm⟩
        obtain ⟨a, had, v', hReports⟩ := ih ⟨m, hm⟩ hSown.planted hValue hLeaf
        exact ⟨a, Nat.lt_trans had hdk, v', reports_cons.mpr ⟨hm, hReports⟩⟩

section

variable {width' l c e' a : Nat} {x : Place} {child' : Fin width' → Tree} {r : Run b}
  {items : List (Item b.Recipe b.Note)} (h : s.Spread world x child' l c e' r items)
  (ih : ∀ i k, s.Planted world k (i.val :: 0 :: x) (child' i) →
    (s.after world k).Quiet (i.val :: 0 :: x) → s.Verdict world k (i.val :: 0 :: x) (child' i))
  {i : Fin width'} {path : List Nat} {e : Failure}
  (hReports : s.Reports world a (i.val :: 0 :: x) (child' i) path (.error e))
  (hFirst : ∀ a' < a, ∀ path' e', ¬ s.Reports world a' x (.node width' child') path' (.error e'))
include h ih hReports hFirst

theorem Spread.fails_before {d : Nat} {j : Fin width'} (hij : i ≠ j) {failure : Failure}
    (hFailed : .error failure ∈ (s.after world d).calls (j.val :: 0 :: x)) :
    ∃ d' < d, s.job? world d' =
      some (.deliver (i.val :: 0 :: x) (.error (Tree.wrapped path e))) := by
  obtain ⟨_, _, -, -, hSown⟩ := h.sown i
  obtain ⟨_, _, -, -, hSown'⟩ := h.sown j
  obtain ⟨a', ha'd, path', e'', hReports'⟩ :=
    exists_failed hCalm hLimit hGrows hSown'.planted hFailed
  have haa' : a < a' := by
    rcases Nat.lt_trichotomy a' a with hLess | rfl | hLess
    · exact absurd (reports_cons.mpr ⟨j.isLt, hReports'⟩) (hFirst a' hLess (j.val :: path') e'')
    · have hSuffix := Tree.suffix_part (j.val :: 0 :: x) path'
      rw [← (deliver_inj hReports.2 hReports'.2).1] at hSuffix
      exact absurd (Fin.ext (Tree.index_unique (Tree.suffix_part _ path) hSuffix)) hij
    · exact hLess
  -- It has got quiet when the other one fails, so that it has come to its failure by then.
  have hBeside := h.quiet_beside hCalm hLimit hGrows hij hReports hReports' haa'
  have hPlanted := (hSown.planted.of_report hReports).mono (Nat.le_of_lt haa')
  have hFails := (ih i a' hPlanted hBeside).fails a haa' path e hReports (first_of_child hFirst i)
  obtain ⟨d', hd'a', hDeliver⟩ := job_of_calls hFails
  exact ⟨d', Nat.lt_trans hd'a' ha'd, hDeliver⟩

/-- The report with which a node fails is that of the subtree with the first leaf to fail. -/
theorem Spread.first_failure {k : Nat} (he'k : e' ≤ k) (hQuiet : (s.after world k).Quiet x)
    (hak : a < k) : ∃ before after, (s.after world k).reports (0 :: x) =
      before ++ (i.val, .error (Tree.wrapped path e)) :: after ∧
        ∀ report ∈ before, ∃ d, report.2 = .ok d := by
  obtain ⟨_, e'', -, he'', hSown⟩ := h.sown i
  have hPlanted := hSown.planted.mono (Nat.le_trans he'' he'k)
  have hFails := (ih i k hPlanted (hQuiet.part (Tree.suffix_part x [i.val]))).fails a hak path e
    hReports (first_of_child hFirst i)
  obtain ⟨d, hdk, hDeliver⟩ := job_of_calls hFails
  obtain ⟨rest, -, hAfter⟩ := s.after_succ_of_job world hDeliver
  have hPrefix : (s.after world (d + 1)).reports (0 :: x) <+: (s.after world k).reports (0 :: x) :=
    reports_mono (Nat.succ_le_of_lt hdk) (0 :: x)
  rw [hAfter, History.reports_deliver] at hPrefix
  obtain ⟨after, hSplit⟩ := hPrefix
  refine ⟨(s.after world d).reports (0 :: x), after, by simp [← hSplit], ?_⟩
  rintro ⟨j, o⟩ hReport
  cases o with
  | ok v => exact ⟨v, rfl⟩
  | error failure =>
    have hWidth : 0 < width' := Nat.lt_of_le_of_lt (Nat.zero_le i) i.isLt
    obtain ⟨hj, hFailed⟩ := h.mem_report hWidth hReport
    obtain ⟨d', hd'd, o', hDeliver'⟩ : ∃ d' < d, ∃ o',
        s.job? world d' = some (.deliver (i.val :: 0 :: x) o') := by
      by_cases hij : i = ⟨j, hj⟩
      · subst hij
        obtain ⟨d', hd'd, hDeliver'⟩ := job_of_mem_calls hFailed
        exact ⟨d', hd'd, _, hDeliver'⟩
      · obtain ⟨d', hd'd, hDeliver'⟩ :=
          h.fails_before hCalm hLimit hGrows ih hReports hFirst hij hFailed
        exact ⟨d', hd'd, _, hDeliver'⟩
    exact absurd (deliver_unique hDeliver' hDeliver) (Nat.ne_of_lt hd'd)

end

/-- The reports of its leaves decide what a tree has come to when it is quiet. -/
theorem verdict {t : Tree} {k : Nat} {x : Place} (hPlanted : s.Planted world k x t)
    (hQuiet : (s.after world k).Quiet x) : s.Verdict world k x t := by
  induction t generalizing k x with
  | leaf => exact verdict_leaf
  | node width' child' ih =>
    obtain ⟨l, c, e', r, items, he'k, hSpread⟩ := spread hPlanted hQuiet
    have hPart : ∀ j : Nat, x <:+ j :: 0 :: x := fun j => Tree.suffix_part x [j]
    have hChild : ∀ j, s.Verdict world k (j.val :: 0 :: x) (child' j) := by
      intro j
      obtain ⟨_, e'', -, he'', hSown⟩ := hSpread.sown j
      exact ih j (hSown.planted.mono (Nat.le_trans he'' he'k)) (hQuiet.part (hPart j))
    have hCalls := hSpread.passes_on he'k hQuiet
    have hJoined := fun o => hSpread.mem_joined he'k hQuiet (o := o)
    constructor
    · intro values hAll
      rw [hCalls]
      refine calls_of_mem ((hJoined _).mpr ?_)
      rcases Nat.eq_zero_or_pos width' with rfl | hWidth
      · exact Or.inl ⟨rfl, rfl⟩
      · refine Or.inr ⟨hWidth, hSpread.joined_values hWidth fun i => ?_⟩
        rw [(hChild i).succeeds (fun path => values (i.val :: path))]
        · exact List.mem_singleton_self _
        · intro path fate hLeaf
          obtain ⟨a, hak, hReports⟩ :=
            hAll (i.val :: path) fate (Tree.leaf?_cons.mpr ⟨i.isLt, hLeaf⟩)
          obtain ⟨_, hReports⟩ := reports_cons.mp hReports
          exact ⟨a, hak, hReports⟩
    · intro a hak path e hReports hFirst
      cases path with
      | nil =>
        obtain ⟨⟨fate, hLeaf⟩, -⟩ := hReports
        cases hLeaf
      | cons i path =>
        obtain ⟨hi, hReports⟩ := reports_cons.mp hReports
        have hWidth : 0 < width' := Nat.lt_of_le_of_lt (Nat.zero_le i) hi
        obtain ⟨before, after, hSplit, hBefore⟩ := hSpread.first_failure hCalm hLimit hGrows
          (fun i k => ih i) (i := ⟨i, hi⟩) hReports hFirst he'k hQuiet hak
        rw [hCalls]
        refine calls_of_mem ((hJoined _).mpr (Or.inr ⟨hWidth, ?_⟩))
        exact ((hSpread.course hWidth k).2.fails _).mpr
          ⟨before, i, Tree.wrapped path e, after, hSplit, hBefore, rfl⟩

end

end Schedule

end Interlace
