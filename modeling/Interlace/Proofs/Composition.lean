import Interlace.Proofs.Verdicts

/-!
# Nested fan-outs compose

A run whose coroutines all fan out over their items, and hand back what becomes of them, is one
fan-out over the leaves of the tree. All of them are started before the call returns that starts the
run. It comes to the nested list of their values, or to the first failure among them with the path
to its leaf.
-/

namespace Interlace

variable {b : Behaviour}

namespace Schedule

variable (s : Schedule b) (world : b.World)

/-- What a top-level run keeps to that is a tree, and was started by a call that move `i` makes and
that is over before move `r`. The call returns when all jobs are done, and whatever is called from
outside after that, they are done again. Before the run returns each leaf is started, once, and the
leaves that complete at once have reported, in depth-first order. Any other leaf reports after that,
when its continuation is called that was left to somebody, and no leaf reports twice. When all leaves
have reported values, the run has handed over the nested list of them, and when one has failed, the
first failure and the path to its leaf; neither before. It hands over nothing else, is not stepped
after that, and no error is kept from its continuation. -/
structure Composed (i r n : Nat) (t : Tree) : Prop where
  returns : s.Returns world i r ∧ (s.after world r).AtRest
  rests : ∀ k, ∃ l, k ≤ l ∧ (s.after world l).AtRest
  starts : ∀ path fate, t.leaf? path = some fate → ∃ c, i < c ∧ c < r ∧
    s.Invokes world c (Tree.part [n] path) (.primitive ⟨[], fate, []⟩) ∧
      ∀ c' work, s.Invokes world c' (Tree.part [n] path) work → c' = c
  prompt : ∀ path o, t.leaf? path = some (.complete o) → ∃ a, i < a ∧ a < r ∧
    s.Reports world a [n] t path o
  ordered : ∀ a a' path path' o o' v v', t.leaf? path = some (.complete v) →
    t.leaf? path' = some (.complete v') → s.Reports world a [n] t path o →
      s.Reports world a' [n] t path' o' → path < path' → a < a'
  deferred : ∀ a path o fate, t.leaf? path = some fate → (∀ v, fate ≠ .complete v) →
    s.Reports world a [n] t path o → ∃ j, r ≤ j ∧ a = j + 1 ∧ (s.after world j).AtRest ∧
      s j = .call (Tree.part [n] path) o
  arrives : ∀ j path o fate, t.leaf? path = some fate → s j = .call (Tree.part [n] path) o →
    Tree.part [n] path ∈ (s.after world j).machine.held.map Held.place →
      s.Reports world (j + 1) [n] t path o
  once : ∀ a a' path o o', s.Reports world a [n] t path o → s.Reports world a' [n] t path o' →
    a = a' ∧ o = o'
  succeeds : ∀ k, (s.after world k).AtRest → i < k → ∀ values : List Nat → Datum,
    (∀ path fate, t.leaf? path = some fate →
      ∃ a < k, s.Reports world a [n] t path (.ok (values path))) →
      (s.after world k).calls [n] = [.ok (t.value values)]
  fails : ∀ k, (s.after world k).AtRest → ∀ a < k, ∀ path e,
    s.Reports world a [n] t path (.error e) →
      (∀ a' < a, ∀ path' e', ¬ s.Reports world a' [n] t path' (.error e')) →
      (s.after world k).calls [n] = [.error ⟨.joined, "JoinFailed",
        String.join (path.map fun i => "item " ++ toString i ++ ": ") ++ e.message⟩]
  last : ∀ d v, s.job? world d = some (.deliver [n] (.ok v)) → ∀ path fate,
    t.leaf? path = some fate → ∃ a < d, ∃ v', s.Reports world a [n] t path (.ok v')
  first : ∀ d e, s.job? world d = some (.deliver [n] (.error e)) →
    ∃ a < d, ∃ path e', s.Reports world a [n] t path (.error e')
  later : ∀ k k', k ≤ k' → (s.after world k).calls [n] ≠ [] →
    (s.after world k').calls [n] = (s.after world k).calls [n] ∧
      ∀ x, s.job? world k' ≠ some (.drive [n] x)
  told : ∀ k e, .escaped n e ∉ (s.after world k).log

variable {s world} {i n limit width : Nat} {recipe : b.Recipe} {args : List Datum}
  {child : Fin width → Tree}

theorem Returns.le_of_rest {r j : Nat} (h : s.Returns world i r) (hij : i < j)
    (hRest : (s.after world j).AtRest) : r ≤ j := by
  obtain ⟨-, rest, ⟨-, hLasts⟩, -⟩ := h
  by_contra hjr
  obtain ⟨front, hFront, hAgenda⟩ := hLasts j hij (Nat.lt_of_not_le hjr)
  exact List.append_ne_nil_of_left_ne_nil hFront rest (hAgenda.symm.trans hRest)

theorem Reports.unique {a a' : Nat} {t : Tree} {path : List Nat} {o o' : Outcome}
    (h : s.Reports world a [n] t path o) (h' : s.Reports world a' [n] t path o') :
    a = a' ∧ o = o' := by
  obtain rfl := deliver_unique h.2 h'.2
  exact ⟨rfl, (deliver_inj h.2 h'.2).2⟩

theorem Reports.lt_of_node {a d : Nat} {x : Place} {path : List Nat} {o o' : Outcome}
    (h : s.Reports world a x (.node width child) path o)
    (hDeliver : s.job? world d = some (.deliver x o')) (had : a < d + 1) : a < d := by
  obtain ⟨fate, hLeaf⟩ := h.1
  refine Nat.lt_of_le_of_ne (Nat.lt_succ_iff.mp had) ?_
  rintro rfl
  exact Tree.part_ne (Tree.ne_nil_of_leaf? hLeaf) (deliver_inj h.2 hDeliver).1

section

variable (hLimit : 0 < limit) (hStart : s.job? world i = some (.start [n] recipe args limit))
include hLimit hStart

theorem over_of_called {k k' : Nat} (hkk' : k ≤ k') (hCalls : (s.after world k).calls [n] ≠ []) :
    (s.after world k').calls [n] = (s.after world k).calls [n] ∧
      ∀ x, s.job? world k' ≠ some (.drive [n] x) := by
  obtain ⟨o, ho⟩ := List.exists_mem_of_ne_nil _ hCalls
  obtain ⟨d, hdk, hDeliver⟩ := job_of_mem_calls ho
  obtain ⟨l, hlk, hEnds, -⟩ := ends_of_called ⟨recipe, args, limit, hLimit, hStart⟩ ho
  refine ⟨?_, fun x hDrive => ?_⟩
  · rw [calls_of_mem ho, calls_of_mem (mem_calls_of_job (Nat.lt_of_lt_of_le hdk hkk') hDeliver)]
  · obtain ⟨r, -, hFind⟩ := exists_turns hDrive
    rw [find?_of_ends hEnds (Nat.lt_of_lt_of_le hlk hkk')] at hFind
    cases hFind

variable (hGrows : b.Grows (.node width child) (.coroutine recipe))
include hGrows

theorem never_escapes (k : Nat) (e : Failure) : .escaped n e ∉ (s.after world k).log := by
  intro hEscaped
  obtain ⟨l, -, ⟨x, r, hDrive, hFind, hTurn⟩, hUncaught, -⟩ :=
    (escapes_iff ⟨recipe, args, limit, hLimit, hStart⟩ rfl).mp hEscaped
  rw [← turned] at hTurn
  cases treeTurn hGrows hLimit hStart ⟨hDrive, hFind⟩ with
  | first _ hAsks =>
    rw [hAsks.turn] at hTurn
    cases hTurn
  | last _ hAsks _ hCalled hFinished =>
    rw [hFinished] at hTurn
    cases hTurn
    cases hAsks.joint hCalled.2.2 with
    | failure => cases hUncaught

theorem leaf_started {r : Nat} {path : List Nat} {fate : Fate}
    (hReturns : s.Returns world i r) (hRest : (s.after world r).AtRest)
    (hLeaf : (Tree.node width child).leaf? path = some fate) :
    ∃ c, i < c ∧ c < r ∧
      s.Invokes world c (Tree.part [n] path) (.primitive ⟨[], fate, []⟩) := by
  have hPlanted : s.Planted world r [n] (.node width child) :=
    ⟨i, hReturns.1, recipe, args, limit, hLimit, hGrows, hStart⟩
  obtain ⟨c, hcr, hInvokes⟩ := leaf_planted hPlanted (hRest.quiet [n]) hLeaf
  have hLedger := (s.sound world c).mem_ledger_of_place (mem_agenda_of_job hInvokes.job) rfl
  exact ⟨c, lt_of_ledger hStart (List.mem_singleton_self [n]) (Tree.suffix_part [n] path)
    (Tree.part_ne (Tree.ne_nil_of_leaf? hLeaf)) hLedger, hcr, hInvokes⟩

end

section

variable (hCalm : s.Calm world n recipe args limit)
  (hStart : s.job? world i = some (.start [n] recipe args limit))
include hCalm hStart

theorem agenda_of_start : (s.after world i).machine.agenda = [.start [n] recipe args limit] := by
  obtain ⟨j, -, hMem, ⟨parent, hParent, hBrings⟩ | hAdmits⟩ := stems_of_job hStart
  · generalize hChild : Job.start [n] recipe args limit = job at hBrings
    cases hBrings with
    | nested =>
      cases hChild
      have hLength := nested_of_invoke hParent
      simp at hLength
    | @fate _ w => cases hFate : w.fate <;> rw [hFate] at hChild <;> cases hChild
    | _ => cases hChild
  · cases hAdmits with
    | begin hMove =>
      have hRest : (s.after world j).machine.agenda = [] := hCalm.rests j (by simp [hMove])
      have hAgenda : (s.after world (j + 1)).machine.agenda = [.start [n] recipe args limit] := by
        rcases s.after_succ world j with ⟨job, rest, -, hBusy, -⟩ | ⟨-, put, hAdded⟩
        · rw [hRest] at hBusy
          cases hBusy
        · rw [hAdded.agenda, hRest, List.append_nil] at hMem ⊢
          rcases hAdded.put with rfl | ⟨_, _, _, _, -, -, rfl⟩ | ⟨_, _, -, -, rfl⟩ | ⟨_, -, -, rfl⟩
          · cases hMem
          · cases List.mem_singleton.mp hMem
            rfl
          · cases List.mem_singleton.mp hMem
          · cases List.mem_singleton.mp hMem
      rwa [start_unique hStart (hCalm.job hAgenda)]

variable (hLimit : 0 < limit) (hGrows : b.Grows (.node width child) (.coroutine recipe))
include hLimit hGrows

theorem returns_of_start : ∃ r, s.Returns world i r ∧ (s.after world r).AtRest := by
  have hAgenda := agenda_of_start hCalm hStart
  obtain ⟨l, hil, hDone⟩ := clears_root hCalm hLimit hGrows [n] i [] hAgenda
  rcases above_or_returns hil hAgenda with ⟨front, hFront, hBusy⟩ | ⟨r, -, hReturns, hRest⟩
  · rw [List.append_nil] at hBusy
    exact absurd (hBusy.symm.trans hDone) hFront
  · exact ⟨r, hReturns, hRest⟩

section

variable {r : Nat} (hReturns : s.Returns world i r) (hRest : (s.after world r).AtRest)
include hReturns hRest

theorem leaf_prompt {path : List Nat} {o : Outcome}
    (hLeaf : (Tree.node width child).leaf? path = some (.complete o)) :
    ∃ a, i < a ∧ a < r ∧ s.Reports world a [n] (.node width child) path o := by
  obtain ⟨c, hic, hcr, hInvokes⟩ := leaf_started hLimit hStart hGrows hReturns hRest hLeaf
  have hDeliver := hInvokes.completes hCalm
  have hBusy : c + 1 ≠ r := by
    rintro rfl
    have hNone : (s.after world (c + 1)).machine.agenda = [] := hRest
    have hMem := mem_agenda_of_job hDeliver
    rw [hNone] at hMem
    cases hMem
  exact ⟨c + 1, by omega, by omega, ⟨_, hLeaf⟩, hDeliver⟩

theorem leaf_deferred {a : Nat} {path : List Nat} {o : Outcome} {fate : Fate}
    (hLeaf : (Tree.node width child).leaf? path = some fate) (hLater : ∀ v, fate ≠ .complete v)
    (hReports : s.Reports world a [n] (.node width child) path o) :
    ∃ j, r ≤ j ∧ a = j + 1 ∧ (s.after world j).AtRest ∧ s j = .call (Tree.part [n] path) o := by
  obtain ⟨c, hic, -, hInvokes⟩ := leaf_started hLimit hStart hGrows hReturns hRest hLeaf
  rcases report_cases hCalm hLimit hGrows hInvokes hReports.2 with
    ⟨hNow, -⟩ | ⟨-, j, hja, hcj, hCall, hRestj, -⟩
  · exact absurd hNow (hLater o)
  · exact ⟨j, hReturns.le_of_rest (Nat.lt_trans hic hcj) hRestj, hja, hRestj, hCall⟩

end

/-- Whatever the shape of a tree, the depth that its runs have, and the order in which its leaves
report, the run at its root comes to what the leaves do. -/
theorem composed : ∃ r, s.Composed world i r n (.node width child) := by
  obtain ⟨r, hReturns, hRest⟩ := returns_of_start hCalm hStart hLimit hGrows
  have hPlanted : ∀ {k}, i < k → s.Planted world k [n] (.node width child) :=
    fun hik => ⟨i, hik, recipe, args, limit, hLimit, hGrows, hStart⟩
  have hVerdict : ∀ {k}, (s.after world k).AtRest → i < k →
      s.Verdict world k [n] (.node width child) :=
    fun hRest hik => verdict hCalm hLimit hGrows (hPlanted hik) (hRest.quiet [n])
  exact ⟨r, {
    returns := ⟨hReturns, hRest⟩
    rests := exists_rest hCalm hLimit hGrows
    starts := fun path fate hLeaf => by
      obtain ⟨c, hic, hcr, hInvokes⟩ := leaf_started hLimit hStart hGrows hReturns hRest hLeaf
      exact ⟨c, hic, hcr, hInvokes, fun c' work hInvokes' => hInvokes'.unique hInvokes⟩
    prompt := fun path o => leaf_prompt hCalm hStart hLimit hGrows hReturns hRest
    ordered := fun a a' path path' o o' v v' => prompt_order hCalm hLimit hGrows
      (hPlanted hReturns.1) (hRest.quiet [n])
    deferred := fun a path o fate => leaf_deferred hCalm hStart hLimit hGrows hReturns hRest
    arrives := fun j path o fate hLeaf hMove hHeld =>
      ⟨⟨fate, hLeaf⟩, hCalm.job (hCalm.agenda_of_call hMove hHeld)⟩
    once := fun a a' path o o' => Reports.unique
    succeeds := fun k hRest hik => (hVerdict hRest hik).succeeds
    fails := fun k hRest a hak path e hReports hFirst => by
      obtain ⟨fate, hLeaf⟩ := hReports.1
      have hik := Nat.lt_trans (hReports.lt_of_start hStart) hak
      rw [(hVerdict hRest hik).fails a hak path e hReports hFirst,
        Tree.wrapped_eq (Tree.ne_nil_of_leaf? hLeaf)]
    last := fun d v hDeliver path fate hLeaf => by
      obtain ⟨a, had, v', hReports⟩ := all_succeeded hCalm hLimit hGrows (hPlanted hReturns.1)
        (mem_calls_of_job (Nat.lt_succ_self d) hDeliver) hLeaf
      exact ⟨a, hReports.lt_of_node hDeliver had, v', hReports⟩
    first := fun d e hDeliver => by
      obtain ⟨a, had, path, e', hReports⟩ := exists_failed hCalm hLimit hGrows
        (hPlanted hReturns.1) (mem_calls_of_job (Nat.lt_succ_self d) hDeliver)
      exact ⟨a, hReports.lt_of_node hDeliver had, path, e', hReports⟩
    later := fun k k' => over_of_called hLimit hStart
    told := never_escapes hLimit hStart hGrows }⟩

end

end Schedule

/-! ## An example -/

namespace Tree

/-- What a coroutine asks for to have a tree run. -/
def item : Tree → Item Tree Empty
  | leaf fate => .work (.primitive ⟨[], fate, []⟩)
  | node width child => .coroutine (node width child)

def behaviour : Behaviour where
  Recipe := Tree
  Body := Tree
  World := Unit
  Note := Empty
  make t _ _ := (t, [], ())
  step t x _ :=
    match x, t with
    | .start, node _ child => (.wait (.all (List.ofFn fun i => (child i).item)), t, [], ())
    | .start, leaf fate => (.wait (.single (.primitive ⟨[], fate, []⟩)), t, [], ())
    | x, _ => (.ofOutcome x.outcome, t, [], ())

theorem handsOn (t : Tree) : behaviour.HandsOn t := by
  intro o _ _
  cases o <;> rfl

theorem grows (t : Tree) : behaviour.Grows t t.item := by
  induction t with
  | leaf => exact ⟨_, rfl, rfl⟩
  | node width child ih =>
    refine ⟨_, rfl, fun _ _ _ => ⟨_, List.length_ofFn, fun i item hItem => ?_, rfl, handsOn _⟩⟩
    have hChild : (List.ofFn fun i => (child i).item)[i.val]? = some (child i).item := by simp
    cases hItem.symm.trans hChild
    exact ih i

/-- Two leaves that are left to somebody, one of them in a subtree with a leaf that completes. -/
def grove : Tree :=
  node 2 fun i => if i = 0 then leaf (.keep "first") else
    node 2 fun i => if i = 0 then leaf (.complete (.ok .null)) else leaf (.keep "second")

/-- The leaf in the subtree fails before the other one succeeds. -/
def schedule : Schedule behaviour := fun k =>
  if k = 0 then .begin 0 grove [] 1
  else if k = 22 then .call [1, 0, 1, 0, 0] (.error (.raised "lost"))
  else if k = 30 then .call [0, 0, 0] (.ok .null)
  else .work

theorem calm : schedule.Calm () 0 grove [] 1 where
  begins k n recipe args limit h := by
    simp only [schedule] at h
    split_ifs at h
    cases h
    exact ⟨rfl, rfl, rfl, rfl⟩
  rests k h := by
    simp only [schedule] at h
    split_ifs at h with h₀ h₁ h₂
    · subst h₀
      rfl
    · subst h₁
      rfl
    · subst h₂
      rfl
    · exact absurd rfl h

theorem composed_grove : schedule.Calm () 0 grove [] 1 ∧ 0 < 1 ∧
    behaviour.Grows grove (.coroutine grove) ∧
    schedule.job? () 1 = some (.start [0] grove [] 1) ∧
    (∃ r, schedule.Composed () 1 r 0 grove) ∧ (schedule.after () 32).AtRest ∧
    (schedule.after () 30).calls [0] = [.error (.ofItem 1 (.ofItem 1 (.raised "lost")))] ∧
    (schedule.after () 32).calls [0] = [.error (.ofItem 1 (.ofItem 1 (.raised "lost")))] :=
  ⟨calm, Nat.one_pos, grows grove, rfl, Schedule.composed calm rfl Nat.one_pos (grows grove), rfl,
    rfl, rfl⟩

end Tree

end Interlace
