import Interlace.Proofs.Quiet

/-!
# How a tree is started and its leaves report

When a tree has got quiet for the first time, all its leaves have been invoked, one subtree after
the other. An operation that completes at once reports inside of its invocation, and any other one
when nothing else is going on.
-/

namespace Interlace

variable {b : Behaviour}

namespace Schedule

variable (s : Schedule b) (world : b.World)

def Planted (k : Nat) (x : Place) : Tree → Prop
  | .leaf fate => ∃ c < k, s.Invokes world c x (.primitive ⟨[], fate, []⟩)
  | .node width child => ∃ i < k, ∃ recipe args limit, 0 < limit ∧
      b.Grows (.node width child) (.coroutine recipe) ∧
        s.job? world i = some (.start x recipe args limit)

/-- A tree is started with the continuation `x` in the call that move `c` makes. This call is over
before move `e`. -/
structure Sown (c e : Nat) (x : Place) (t : Tree) : Prop where
  invokes : ∃ work, s.Invokes world c x work
  returns : s.Returns world c e
  planted : s.Planted world e x t

/-- The run at `x` made its first step with move `l`. The join of its items was started in the call
that move `c` makes, which is over before move `e`. -/
structure Spread (x : Place) {width : Nat} (child : Fin width → Tree) (l c e : Nat) (r : Run b)
    (items : List (Item b.Recipe b.Note)) : Prop where
  start : ∃ i recipe args limit, i < l ∧ 0 < limit ∧
    b.Grows (.node width child) (.coroutine recipe) ∧
      s.job? world i = some (.start x recipe args limit)
  bears : b.Bears child items
  asks : s.Asks world l x r items
  room : 0 < r.frames.limit
  invoke : s.job? world c =
    some (.invoke (0 :: x) (.gather (items.map (Item.toWork r.frames.limit))))
  before : l < c
  returns : s.Returns world c e

/-- With move `a` the leaf at the end of a path reports. -/
def Reports (a : Nat) (x : Place) (t : Tree) (path : List Nat) (o : Outcome) : Prop :=
  (∃ fate, t.leaf? path = some fate) ∧ s.job? world a = some (.deliver (Tree.part x path) o)

variable {s world}

theorem Planted.mono {k k' : Nat} {x : Place} {t : Tree} (h : s.Planted world k x t)
    (hkk' : k ≤ k') : s.Planted world k' x t := by
  cases t with
  | leaf =>
    obtain ⟨c, hck, hInvokes⟩ := h
    exact ⟨c, Nat.lt_of_lt_of_le hck hkk', hInvokes⟩
  | node =>
    obtain ⟨i, hik, hRest⟩ := h
    exact ⟨i, Nat.lt_of_lt_of_le hik hkk', hRest⟩

theorem Sown.quiet {c e : Nat} {x : Place} {t : Tree} (h : s.Sown world c e x t) :
    (s.after world e).Quiet x := by
  obtain ⟨work, hInvokes⟩ := h.invokes
  exact hInvokes.quiet h.returns

/-! ## How a node is started -/

section

variable {k width : Nat} {x : Place} {child : Fin width → Tree}

theorem spread (hPlanted : s.Planted world k x (.node width child))
    (hQuiet : (s.after world k).Quiet x) :
    ∃ l c e r items, e ≤ k ∧ s.Spread world x child l c e r items := by
  obtain ⟨i, hik, recipe, args, limit, hLimit, hGrows, hStart⟩ := hPlanted
  obtain ⟨rest, -, hAfter⟩ := s.after_succ_of_job world hStart
  have hDrive : .drive x .start ∈ (s.after world (i + 1)).machine.agenda := by
    rw [hAfter, (History.does_start hLimit rest).agenda]
    exact List.mem_cons_self
  rcases s.mem_or_done world hDrive hik with hMem | ⟨j, -, hjk, hJob⟩
  · exact absurd hMem (hQuiet.not_mem rfl (List.suffix_refl x))
  · obtain ⟨l, hil, hlj, hTurns⟩ := first_turn hLimit hStart hJob
    obtain ⟨items, hBears, hAsks⟩ := asks_of_fresh hGrows hTurns
    obtain ⟨below, hAgenda⟩ := agenda_of_await hTurns hAsks.turn
    have hCheck : .check x ∈ (s.after world (l + 1)).machine.agenda := by simp [hAgenda]
    rcases s.mem_or_done world hCheck (by omega : l + 1 ≤ k) with hMem | ⟨m, hlm, hmk, hJob⟩
    · exact absurd hMem (hQuiet.not_mem rfl (List.suffix_refl x))
    · obtain ⟨c, e, hlc, hem, hInvoke, hReturns⟩ := returns_of_check hTurns hAsks.turn hlm hJob
      exact ⟨l, c, e, _, items, by omega, ⟨i, recipe, args, limit, hil, hLimit, hGrows, hStart⟩,
        hBears, hAsks, hLimit, hInvoke, hlc, hReturns⟩

variable {l c e : Nat} {r : Run b} {items : List (Item b.Recipe b.Note)}

theorem Spread.begun (h : s.Spread world x child l c e r items) (i : Fin width) :
    ∃ item, items[i.val]? = some item ∧ b.Grows (child i) item ∧
      s.Begun world c e (i.val :: 0 :: x) (item.toWork r.frames.limit) := by
  have hi : i.val < items.length := h.bears.length ▸ i.isLt
  have hItem := List.getElem?_eq_getElem hi
  have hBegun := begun_of_returns h.invoke h.returns (n := i.val) (by simpa using hi)
  rw [List.getElem_map] at hBegun
  exact ⟨_, hItem, h.bears.grows i _ hItem, hBegun⟩

theorem sown_of_grows {t : Tree} {item : Item b.Recipe b.Note} {limit : Nat} (hLimit : 0 < limit)
    (hGrows : b.Grows t item) (hInvokes : s.Invokes world c x (item.toWork limit).core)
    (hReturns : s.Returns world c e) : s.Sown world c e x t := by
  refine ⟨⟨_, hInvokes⟩, hReturns, ?_⟩
  cases t with
  | leaf =>
    obtain ⟨work, rfl, hCore⟩ := hGrows
    rw [Item.toWork, hCore] at hInvokes
    exact ⟨c, hReturns.1, hInvokes⟩
  | node =>
    obtain ⟨recipe, rfl, -⟩ := id hGrows
    obtain ⟨j, m, -, hjm, hme, hStart, -⟩ := hInvokes.starts hLimit hReturns
    exact ⟨j, Nat.lt_trans hjm hme, recipe, [], limit, hLimit, hGrows, hStart⟩

theorem Spread.sown (h : s.Spread world x child l c e r items) (i : Fin width) :
    ∃ c' e', c < c' ∧ e' ≤ e ∧ s.Sown world c' e' (i.val :: 0 :: x) (child i) := by
  obtain ⟨item, -, hGrows, c', e', hcc', hee', hInvokes, hReturns⟩ := h.begun i
  exact ⟨c', e', hcc', hee', sown_of_grows h.room hGrows hInvokes hReturns⟩

theorem Spread.one_after_other (h : s.Spread world x child l c e r items) {i j : Fin width}
    (hij : i < j) {c' : Nat} {work : Work b.Recipe b.Note} (hcc' : c < c')
    (hInvokes : s.Invokes world c' (j.val :: 0 :: x) work) :
    ∃ c'' e'', c < c'' ∧ e'' ≤ c' ∧ s.Sown world c'' e'' (i.val :: 0 :: x) (child i) := by
  have hj : j.val < items.length := h.bears.length ▸ j.isLt
  obtain ⟨c'', e'', hcc'', hee'', hInvokes', hReturns⟩ :=
    begun_before h.invoke hInvokes.job hcc' (by simpa using hj) hij
  have hi : i.val < items.length := h.bears.length ▸ i.isLt
  rw [List.get_eq_getElem, List.getElem_map] at hInvokes'
  have hGrows := h.bears.grows i _ (List.getElem?_eq_getElem hi)
  exact ⟨c'', e'', hcc'', hee'', sown_of_grows h.room hGrows hInvokes' hReturns⟩

end

theorem leaf_planted {t : Tree} {k : Nat} {x : Place} {path : List Nat} {fate : Fate}
    (hPlanted : s.Planted world k x t) (hQuiet : (s.after world k).Quiet x)
    (hLeaf : t.leaf? path = some fate) :
    ∃ c < k, s.Invokes world c (Tree.part x path) (.primitive ⟨[], fate, []⟩) := by
  induction t generalizing k x path with
  | leaf fate' =>
    cases path with
    | nil =>
      cases hLeaf
      exact hPlanted
    | cons => cases hLeaf
  | node width child ih =>
    cases path with
    | nil => cases hLeaf
    | cons i path =>
      obtain ⟨hi, hLeaf⟩ := Tree.leaf?_cons.mp hLeaf
      obtain ⟨l, c, e, r, items, hek, hSpread⟩ := spread hPlanted hQuiet
      obtain ⟨c', e', -, hee', hSown⟩ := hSpread.sown ⟨i, hi⟩
      obtain ⟨c'', hc'', hInvokes⟩ := ih ⟨i, hi⟩ hSown.planted hSown.quiet hLeaf
      exact ⟨c'', by omega, hInvokes⟩

/-! ## Reports -/

theorem deliver_inj {a : Nat} {x y : Place} {o o' : Outcome}
    (h : s.job? world a = some (.deliver x o)) (h' : s.job? world a = some (.deliver y o')) :
    x = y ∧ o = o' := by
  have hSame := h.symm.trans h'
  rwa [Option.some.injEq, Job.deliver.injEq] at hSame

theorem reports_cons {a i width : Nat} {x : Place} {child : Fin width → Tree} {path : List Nat}
    {o : Outcome} : s.Reports world a x (.node width child) (i :: path) o ↔
      ∃ h : i < width, s.Reports world a (i :: 0 :: x) (child ⟨i, h⟩) path o := by
  constructor
  · rintro ⟨⟨fate, hLeaf⟩, hJob⟩
    obtain ⟨hi, hLeaf⟩ := Tree.leaf?_cons.mp hLeaf
    exact ⟨hi, ⟨fate, hLeaf⟩, hJob⟩
  · rintro ⟨hi, ⟨fate, hLeaf⟩, hJob⟩
    exact ⟨⟨fate, Tree.leaf?_cons.mpr ⟨hi, hLeaf⟩⟩, hJob⟩

theorem Reports.mem_ledger {a : Nat} {x : Place} {t : Tree} {path : List Nat} {o : Outcome}
    (h : s.Reports world a x t path o) : Tree.part x path ∈ (s.after world a).ledger :=
  (s.sound world a).mem_ledger_of_place (mem_agenda_of_job h.2) rfl

theorem Reports.lt_of_invokes {a c : Nat} {x : Place} {t : Tree} {path : List Nat} {o : Outcome}
    {work : Work b.Recipe b.Note} (h : s.Reports world a x t path o)
    (hInvokes : s.Invokes world c x work) : c < a := by
  by_cases hPath : path = []
  · subst hPath
    exact lt_of_invoke_deliver hInvokes.job h.2
  · exact lt_of_ledger hInvokes.job (List.mem_singleton_self x) (Tree.suffix_part x path)
      (Tree.part_ne hPath) h.mem_ledger

theorem Reports.lt_of_start {i a width limit : Nat} {x : Place} {child : Fin width → Tree}
    {path : List Nat} {o : Outcome} {recipe : b.Recipe} {args : List Datum}
    (h : s.Reports world a x (.node width child) path o)
    (hStart : s.job? world i = some (.start x recipe args limit)) : i < a := by
  obtain ⟨fate, hLeaf⟩ := h.1
  exact lt_of_ledger hStart (List.mem_singleton_self x) (Tree.suffix_part x path)
    (Tree.part_ne (Tree.ne_nil_of_leaf? hLeaf)) h.mem_ledger

theorem Planted.of_report {k a : Nat} {x : Place} {t : Tree} {path : List Nat} {o : Outcome}
    (h : s.Planted world k x t) (hReports : s.Reports world a x t path o) :
    s.Planted world a x t := by
  cases t with
  | leaf =>
    obtain ⟨c, -, hInvokes⟩ := h
    exact ⟨c, hReports.lt_of_invokes hInvokes, hInvokes⟩
  | node =>
    obtain ⟨i, -, recipe, args, limit, hLimit, hGrows, hStart⟩ := h
    exact ⟨i, hReports.lt_of_start hStart, recipe, args, limit, hLimit, hGrows, hStart⟩

section

variable {n limit width : Nat} {recipe : b.Recipe} {args : List Datum} {child : Fin width → Tree}
  (hCalm : s.Calm world n recipe args limit) (hLimit : 0 < limit)
  (hGrows : b.Grows (.node width child) (.coroutine recipe))
include hCalm

theorem Invokes.completes {c : Nat} {x : Place} {o : Outcome}
    (h : s.Invokes world c x (.primitive ⟨[], .complete o, []⟩)) :
    s.job? world (c + 1) = some (.deliver x o) := by
  obtain ⟨rest, -, hAfter⟩ := s.after_succ_of_job world h.job
  have hNext : (s.after world (c + 1)).machine.agenda = .deliver x o :: rest := by
    rw [hAfter]
    rfl
  exact hCalm.job hNext

theorem Calm.agenda_of_call {j : Nat} {x : Place} {o : Outcome} (hMove : s j = .call x o)
    (hHeld : x ∈ (s.after world j).machine.held.map Held.place) :
    (s.after world (j + 1)).machine.agenda = [.deliver x o] := by
  have hRest : (s.after world j).machine.agenda = [] := hCalm.rests j (by simp [hMove])
  obtain ⟨others, hTake⟩ := History.takePlace_of_mem hHeld
  rw [after, hMove, History.move, History.afterAct, Machine.act, hTake]
  simp [Machine.push, hRest]

include hLimit hGrows

theorem report_cases {c a : Nat} {x : Place} {fate : Fate} {o : Outcome}
    (hInvokes : s.Invokes world c x (.primitive ⟨[], fate, []⟩))
    (hDeliver : s.job? world a = some (.deliver x o)) :
    (fate = .complete o ∧ a = c + 1) ∨ (∀ o', fate ≠ .complete o') ∧ ∃ j, a = j + 1 ∧ c < j ∧
      s j = .call x o ∧ (s.after world j).AtRest ∧
        (s.after world a).machine.agenda = [.deliver x o] := by
  obtain ⟨c', -, work, hInvoke, hResult⟩ :=
    handed_of_deliver (mem_agenda_of_job hDeliver) (nested_of_invoke hInvokes.job)
  have hCore : work.core = work := by cases hResult <;> rfl
  have hSame : ∀ {c' work}, s.job? world c' = some (.invoke x work) → work.core = work → c' = c :=
    fun hJob hCore => Invokes.unique ⟨hJob, hCore⟩ hInvokes
  obtain rfl := hSame hInvoke hCore
  have hWork := hInvoke.symm.trans hInvokes.job
  cases hWork
  cases hResult with
  | completed hFate =>
    cases hFate
    exact Or.inl ⟨rfl, deliver_unique hDeliver (hInvokes.completes hCalm)⟩
  | @taken _ _ h j hold hh hj hHold hFate hTakes =>
    refine Or.inr ⟨fun o' hComplete => ?_, j, ?_⟩
    · cases hComplete
      cases hFate
    · have hch : c' < h := by
        obtain ⟨c'', hc''h, w, hInvoke', -⟩ := handed_of_hold hHold
        obtain rfl := hSame hInvoke' rfl
        exact hc''h
      rcases hTakes with ⟨hMove, hHeld⟩ | ⟨k, others, hPoke, -⟩
      · have hNext := hCalm.agenda_of_call hMove hHeld
        obtain rfl := deliver_unique hDeliver (hCalm.job hNext)
        exact ⟨rfl, Nat.lt_trans hch hh, hMove, hCalm.rests j (by simp [hMove]), hNext⟩
      · exact (grown hCalm hLimit hGrows (mem_agenda_of_job hPoke)).elim

theorem Sown.prompt {c e a : Nat} {x : Place} {t : Tree} {path : List Nat} {o o' : Outcome}
    (h : s.Sown world c e x t) (hLeaf : t.leaf? path = some (.complete o'))
    (hReports : s.Reports world a x t path o) : a ≤ e := by
  obtain ⟨c', hc'e, hInvokes⟩ := leaf_planted h.planted h.quiet hLeaf
  rcases report_cases hCalm hLimit hGrows hInvokes hReports.2 with ⟨-, rfl⟩ | ⟨hLater, -⟩
  · exact hc'e
  · exact absurd rfl (hLater o')

theorem Spread.quiet_beside {x : Place} {width' l c e a a' : Nat} {child' : Fin width' → Tree}
    {r : Run b} {items : List (Item b.Recipe b.Note)} {i j : Fin width'} {path path' : List Nat}
    {o o' : Outcome} (h : s.Spread world x child' l c e r items) (hij : i ≠ j)
    (hReports : s.Reports world a (i.val :: 0 :: x) (child' i) path o)
    (hReports' : s.Reports world a' (j.val :: 0 :: x) (child' j) path' o') (haa' : a < a') :
    (s.after world a').Quiet (i.val :: 0 :: x) := by
  obtain ⟨ci, ei, hci, -, hSowni⟩ := h.sown i
  obtain ⟨cj, ej, hcj, hej, hSownj⟩ := h.sown j
  obtain ⟨worki, hInvokesi⟩ := hSowni.invokes
  obtain ⟨workj, hInvokesj⟩ := hSownj.invokes
  obtain ⟨fate, hLeaf⟩ := hReports'.1
  obtain ⟨c', hc', hInvokes⟩ := leaf_planted hSownj.planted hSownj.quiet hLeaf
  rcases report_cases hCalm hLimit hGrows hInvokes hReports'.2 with
    ⟨rfl, rfl⟩ | ⟨-, -, -, -, -, -, hAlone⟩
  · rcases Nat.lt_or_gt_of_ne (Fin.val_ne_of_ne hij) with hLess | hLess
    · -- The subtree before got quiet at the end of its call, and nothing came from outside since.
      obtain ⟨c'', e'', hc'', he'', hSown⟩ := h.one_after_other hLess hcj hInvokesj
      obtain ⟨work, hInvokes''⟩ := hSown.invokes
      have hStarted := hReports'.lt_of_invokes hInvokesj
      refine hInvokes''.quiet_until hCalm hLimit hGrows hSown.returns.1 hSown.quiet (by omega) ?_
      intro m hem hm
      obtain ⟨-, rest, ⟨-, hLasts⟩, -⟩ := h.returns
      have := hSown.returns.1
      obtain ⟨front, hFront, hAgenda⟩ := hLasts m (by omega) (by omega)
      rw [hAgenda]
      exact List.append_ne_nil_of_left_ne_nil hFront rest
    · -- The subtree after it was not started yet.
      obtain ⟨c'', e'', -, he'', hSown⟩ := h.one_after_other hLess hci hInvokesi
      have hEarly := hSown.prompt hCalm hLimit hGrows hLeaf hReports'
      have hStarted := hReports.lt_of_invokes hInvokesi
      omega
  · intro job hJob y hPlace hSuffix
    rw [hAlone] at hJob
    cases List.mem_singleton.mp hJob
    cases hPlace
    exact hij (Fin.ext (Tree.index_unique hSuffix (Tree.suffix_part _ path')))

/-- The leaves that complete at once report in the order of their paths. -/
theorem prompt_order {t : Tree} {k a a' : Nat} {x : Place} {path path' : List Nat}
    {o o' v v' : Outcome} (hPlanted : s.Planted world k x t) (hQuiet : (s.after world k).Quiet x)
    (hLeaf : t.leaf? path = some (.complete v)) (hLeaf' : t.leaf? path' = some (.complete v'))
    (hReports : s.Reports world a x t path o) (hReports' : s.Reports world a' x t path' o')
    (hLess : path < path') : a < a' := by
  induction t generalizing k x path path' with
  | leaf =>
    cases path' with
    | nil => exact absurd hLess (List.not_lt_nil path)
    | cons => cases hLeaf'
  | node width' child' ih =>
    cases path with
    | nil => cases hLeaf
    | cons i path =>
      cases path' with
      | nil => cases hLeaf'
      | cons j path' =>
        obtain ⟨hi, hLeaf⟩ := Tree.leaf?_cons.mp hLeaf
        obtain ⟨hj, hLeaf'⟩ := Tree.leaf?_cons.mp hLeaf'
        obtain ⟨_, hReports⟩ := reports_cons.mp hReports
        obtain ⟨_, hReports'⟩ := reports_cons.mp hReports'
        obtain ⟨l, c, e, r, items, -, hSpread⟩ := spread hPlanted hQuiet
        rcases List.cons_lt_cons_iff.mp hLess with hij | ⟨rfl, hBehind⟩
        · obtain ⟨cj, ej, hcj, -, hSownj⟩ := hSpread.sown ⟨j, hj⟩
          obtain ⟨work, hInvokes⟩ := hSownj.invokes
          obtain ⟨ci, ei, -, hei, hSowni⟩ := hSpread.one_after_other (i := ⟨i, hi⟩) hij hcj hInvokes
          have hEarly := hSowni.prompt hCalm hLimit hGrows hLeaf hReports
          have hStarted := hReports'.lt_of_invokes hInvokes
          omega
        · obtain ⟨ci, ei, -, -, hSown⟩ := hSpread.sown ⟨i, hi⟩
          exact ih ⟨i, hi⟩ hSown.planted hSown.quiet hLeaf hLeaf' hReports hReports' hBehind

end

end Schedule

end Interlace
