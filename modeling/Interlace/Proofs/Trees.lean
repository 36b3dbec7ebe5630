import Interlace.Proofs.Starting

/-!
# Trees of fan-outs

A coroutine in such a tree asks for several items at once, which are operations and coroutines of
the same kind, and ends with what their join comes to. It is stepped twice at most, and waits once.
-/

namespace Interlace

/-- A tree of fan-outs. A leaf is an operation, known by what it does with its continuation. -/
inductive Tree where
  | leaf (fate : Fate)
  | node (width : Nat) (child : Fin width → Tree)

namespace Tree

def leaf? : Tree → List Nat → Option Fate
  | leaf fate, [] => some fate
  | node width child, i :: path => if h : i < width then (child ⟨i, h⟩).leaf? path else none
  | _, _ => none

theorem leaf?_cons {width i : Nat} {child : Fin width → Tree} {path : List Nat} {fate : Fate} :
    (node width child).leaf? (i :: path) = some fate ↔
      ∃ h : i < width, (child ⟨i, h⟩).leaf? path = some fate := by
  rw [leaf?]
  split
  · rename_i h
    exact ⟨fun hLeaf => ⟨h, hLeaf⟩, fun ⟨_, hLeaf⟩ => hLeaf⟩
  · rename_i h
    exact ⟨fun hLeaf => (nomatch hLeaf), fun ⟨hi, _⟩ => absurd hi h⟩

theorem ne_nil_of_leaf? {width : Nat} {child : Fin width → Tree} {path : List Nat} {fate : Fate}
    (h : (node width child).leaf? path = some fate) : path ≠ [] := by
  rintro rfl
  cases h

/-- The nested list with the shape of a tree and the values of its leaves. -/
def value : Tree → (List Nat → Datum) → Datum
  | leaf _, values => values []
  | node _ child, values =>
    .list (List.ofFn fun i => (child i).value fun path => values (i :: path))

/-- The continuation at the end of a path, for a tree that has the continuation `x`. The joins of
its coroutines belong to their first waits. -/
def part (x : Place) : List Nat → Place
  | [] => x
  | i :: path => part (i :: 0 :: x) path

/-- What the failure of a leaf has become when it has passed all joins on its path. -/
def wrapped : List Nat → Failure → Failure
  | [], e => e
  | i :: path, e => .ofItem i (wrapped path e)

theorem message_wrapped (path : List Nat) (e : Failure) : (wrapped path e).message =
    String.join (path.map fun i => "item " ++ toString i ++ ": ") ++ e.message := by
  induction path with
  | nil => simp [wrapped]
  | cons i path ih =>
    rw [List.map_cons, String.join_cons, String.append_assoc, ← ih]
    rfl

theorem wrapped_eq {path : List Nat} (hPath : path ≠ []) (e : Failure) :
    wrapped path e = ⟨.joined, "JoinFailed",
      String.join (path.map fun i => "item " ++ toString i ++ ": ") ++ e.message⟩ := by
  rw [← message_wrapped]
  cases path with
  | nil => exact absurd rfl hPath
  | cons i path => rfl

theorem suffix_part (x : Place) (path : List Nat) : x <:+ part x path := by
  induction path generalizing x with
  | nil => exact List.suffix_refl x
  | cons i path ih =>
    exact ((List.suffix_cons 0 x).trans (List.suffix_cons i (0 :: x))).trans (ih (i :: 0 :: x))

theorem length_part (x : Place) (path : List Nat) :
    (part x path).length = x.length + 2 * path.length := by
  induction path generalizing x with
  | nil => simp [part]
  | cons i path ih =>
    rw [part, ih]
    simp only [List.length_cons]
    omega

theorem part_ne {x : Place} {path : List Nat} (hPath : path ≠ []) : part x path ≠ x := by
  intro hSame
  have hLength := length_part x path
  have := List.length_pos_iff_ne_nil.mpr hPath
  rw [hSame] at hLength
  omega

theorem index_unique {x y : Place} {i j : Nat} (hi : i :: x <:+ y) (hj : j :: x <:+ y) : i = j :=
  (List.cons.inj ((List.suffix_of_suffix_length_le hi hj (by simp)).eq_of_length (by simp))).1

end Tree

inductive Joint : Outcome → Prop where
  | values (ds : List Datum) : Joint (.ok (.list ds))
  | failure (i : Nat) (e : Failure) : Joint (.error (.ofItem i e))

theorem joint_of_report {g g' : Gather} {n : Nat} {o o' : Outcome}
    (hReport : g.report n o' = (.done o, g')) : Joint o := by
  unfold Gather.report at hReport
  split at hReport
  · cases hReport
  · cases o' with
    | error e =>
      cases hReport
      exact .failure n e
    | ok d =>
      dsimp only [Gather.accept] at hReport
      split at hReport
      · cases hReport
      · cases hReport
      · split at hReport
        · cases hReport
        · cases hReport
          exact .values _

namespace Behaviour

variable (b : Behaviour)

def HandsOn (body : b.Body) : Prop :=
  ∀ o, Joint o → ∀ world, (b.step body (.ofOutcome o) world).1 = .ofOutcome o

/-- An item that is a tree of fan-outs. -/
def Grows : Tree → Item b.Recipe b.Note → Prop
  | .leaf fate, item => ∃ work, item = .work work ∧ work.core = .primitive ⟨[], fate, []⟩
  | .node width child, item => ∃ recipe, item = .coroutine recipe ∧ ∀ args world world',
    ∃ items : List (Item b.Recipe b.Note), items.length = width ∧
      (∀ i item, items[i.val]? = some item → Grows (child i) item) ∧
      (b.step (b.make recipe args world).1 .start world').1 = .wait (.all items) ∧
      b.HandsOn (b.step (b.make recipe args world).1 .start world').2.1

structure Bears {width : Nat} (child : Fin width → Tree) (items : List (Item b.Recipe b.Note)) :
    Prop where
  length : items.length = width
  grows : ∀ i item, items[i.val]? = some item → b.Grows (child i) item

end Behaviour

variable {b : Behaviour}

namespace Schedule

variable (s : Schedule b) (world : b.World)

structure Asks (l : Nat) (p : Place) (r : Run b) (items : List (Item b.Recipe b.Note)) : Prop where
  turns : s.Turns world l p .start r
  wait : r.wait = 0
  turn : (s.turned world l .start r).turn =
    .await (.gather (items.map (Item.toWork r.frames.limit))) .throwing
  hands : ∃ body, (s.turned world l .start r).frames =
    ⟨[⟨body, .suspended, 0⟩], r.frames.limit, 1⟩ ∧ b.HandsOn body

variable {s world}

theorem Asks.joint {l d : Nat} {p : Place} {r : Run b} {items : List (Item b.Recipe b.Note)}
    {o : Outcome} (h : s.Asks world l p r items)
    (hDeliver : s.job? world d = some (.deliver (0 :: p) o)) : Joint o := by
  have hResult := result_of_deliver h.turns h.turn (by rw [h.wait]; exact hDeliver)
  generalize items.map (Item.toWork r.frames.limit) = works at hResult
  cases hResult with
  | nothing => exact .values []
  | joined _ _ _ hDone => exact joint_of_report hDone

theorem Asks.finishes {l k : Nat} {p : Place} {r r' : Run b} {items : List (Item b.Recipe b.Note)}
    {o : Outcome} (h : s.Asks world l p r items) (ho : Joint o)
    (hFrames : r'.frames = (s.turned world l .start r).frames) :
    (s.turned world k (.ofOutcome o) r').turn = .finished o := by
  obtain ⟨body, hBody, hHands⟩ := h.hands
  have hEnded : (b.step body (.ofOutcome o) (s.after world k).machine.world).1.ended? = some o := by
    rw [hHands o ho]
    cases ho <;> rfl
  have hTop : r'.frames.frames = [⟨body, .suspended, 0⟩] := by rw [hFrames, hBody]
  have hCase := Frames.turn_case (x := .ofOutcome o) hTop (by simp) (s.after world k).machine.world
  rw [turned, hCase.unique (.finished hEnded rfl)]

section

variable {i limit width : Nat} {p : Place} {recipe : b.Recipe} {args : List Datum}
  {child : Fin width → Tree} (hGrows : b.Grows (.node width child) (.coroutine recipe))
include hGrows

theorem asks_of_fresh {l : Nat}
    (hTurns : s.Turns world l p .start (s.fresh world i recipe args limit)) :
    ∃ items, b.Bears child items ∧ s.Asks world l p (s.fresh world i recipe args limit) items := by
  obtain ⟨recipe', hRecipe, hGrows⟩ := hGrows
  cases hRecipe
  obtain ⟨items, hLength, hChildren, hAnswer, hHands⟩ :=
    hGrows args (s.after world i).machine.world (s.after world l).machine.world
  have hTop : (s.fresh world i recipe args limit).frames.frames =
      [⟨(b.make recipe args (s.after world i).machine.world).1, .ready, 0⟩] := rfl
  have hCase := (Frames.turn_case (x := .start) hTop rfl (s.after world l).machine.world).unique
    (.awaited hAnswer rfl)
  refine ⟨items, ⟨hLength, hChildren⟩, hTurns, rfl, ?_, _, ?_, hHands⟩
  · rw [turned, hCase]
  · rw [turned, hCase]
    rfl

variable (s world) in
inductive TreeTurn (child : Fin width → Tree) (l : Nat) (p : Place) : Input → Run b → Prop where
  | first {r : Run b} {items : List (Item b.Recipe b.Note)} (hBears : b.Bears child items)
      (hAsks : s.Asks world l p r items) : TreeTurn child l p .start r
  | last {l₀ d : Nat} {r₀ r : Run b} {items : List (Item b.Recipe b.Note)} {o : Outcome}
      (hBears : b.Bears child items) (hAsks : s.Asks world l₀ p r₀ items)
      (hLast : s.LastTurn world l₀ l p .start r₀) (hCalled : s.CalledIn world l₀ l (0 :: p) o d)
      (hTurn : (s.turned world l (.ofOutcome o) r).turn = .finished o) :
      TreeTurn child l p (.ofOutcome o) r

theorem treeTurn (hLimit : 0 < limit) (hStart : s.job? world i = some (.start p recipe args limit))
    {l : Nat} {x : Input} {r : Run b} (h : s.Turns world l p x r) :
    s.TreeTurn world child l p x r := by
  induction l using Nat.strongRecOn generalizing x r with
  | ind l ih =>
    cases h.follows hLimit hStart with
    | first =>
      obtain ⟨items, hBears, hAsks⟩ := asks_of_fresh hGrows h
      exact .first hBears hAsks
    | next hLast hTurn =>
      cases ih _ hLast.before hLast.turns with
      | first _ hAsks =>
        rw [hAsks.turn] at hTurn
        cases hTurn
      | last _ _ _ _ hFinished =>
        rw [hFinished] at hTurn
        cases hTurn
    | told hLast hTurn hFrames _ hCalled =>
      cases ih _ hLast.before hLast.turns with
      | first hBears hAsks =>
        rw [hAsks.turn] at hTurn
        cases hTurn
        rw [hAsks.wait] at hCalled
        exact .last hBears hAsks hLast hCalled (hAsks.finishes (hAsks.joint hCalled.2.2) hFrames)
      | last _ _ _ _ hFinished =>
        rw [hFinished] at hTurn
        cases hTurn

end

end Schedule

/-! ## What is on the agenda -/

inductive Behaviour.Sprouts (b : Behaviour) : Work b.Recipe b.Note → Prop where
  | leaf {work : Work b.Recipe b.Note} {fate : Fate}
      (hCore : work.core = .primitive ⟨[], fate, []⟩) : Sprouts b work
  | node {limit width : Nat} {recipe : b.Recipe} {child : Fin width → Tree} (hLimit : 0 < limit)
      (hGrows : b.Grows (.node width child) (.coroutine recipe)) : Sprouts b (.nested limit recipe)

theorem Behaviour.Grows.sprouts {t : Tree} {item : Item b.Recipe b.Note} {limit : Nat}
    (h : b.Grows t item) (hLimit : 0 < limit) : b.Sprouts (item.toWork limit) := by
  cases t with
  | leaf =>
    obtain ⟨work, rfl, hCore⟩ := h
    exact .leaf hCore
  | node =>
    obtain ⟨recipe, rfl, -⟩ := id h
    exact .node hLimit h

theorem Behaviour.Bears.sprouts {width : Nat} {child : Fin width → Tree}
    {items : List (Item b.Recipe b.Note)} (h : b.Bears child items) {limit : Nat}
    (hLimit : 0 < limit) : ∀ work ∈ items.map (Item.toWork limit), b.Sprouts work := by
  intro work hWork
  obtain ⟨item, hItem, rfl⟩ := List.mem_map.mp hWork
  obtain ⟨n, hn, rfl⟩ := List.getElem_of_mem hItem
  exact (h.grows ⟨n, h.length ▸ hn⟩ _ (List.getElem?_eq_getElem hn)).sprouts hLimit

def Job.Grown : Job b → Prop
  | .start _ recipe _ limit =>
    0 < limit ∧ ∃ width, ∃ child : Fin width → Tree, b.Grows (.node width child) (.coroutine recipe)
  | .invoke _ work => b.Sprouts work ∨ ∃ works, work = .gather works ∧ ∀ w ∈ works, b.Sprouts w
  | .items _ _ rest => ∀ w ∈ rest, b.Sprouts w
  | .poke _ => False
  | _ => True

namespace Schedule

/-- Nothing is begun but one run, and its operations complete nothing but themselves: what is done
from outside is done when all jobs are done. -/
structure Calm (s : Schedule b) (world : b.World) (n : Nat) (recipe : b.Recipe) (args : List Datum)
    (limit : Nat) : Prop where
  begins : ∀ k n' recipe' args' limit', s k = .begin n' recipe' args' limit' →
    n' = n ∧ recipe' = recipe ∧ args' = args ∧ limit' = limit
  rests : ∀ k, s k ≠ .work → (s.after world k).AtRest

variable {s : Schedule b} {world : b.World} {n limit width : Nat} {recipe : b.Recipe}
  {args : List Datum} {child : Fin width → Tree} (hCalm : s.Calm world n recipe args limit)
  (hLimit : 0 < limit) (hGrows : b.Grows (.node width child) (.coroutine recipe))
include hCalm hLimit hGrows

theorem grown {k : Nat} {job : Job b} (hJob : job ∈ (s.after world k).machine.agenda) :
    job.Grown := by
  induction k using Nat.strongRecOn generalizing job with
  | ind k ih =>
    obtain ⟨j, hjk, -, ⟨parent, hParent, hBrings⟩ | hAdmits⟩ := stems hJob
    · have hGrown := ih j hjk (mem_agenda_of_job hParent)
      cases hBrings with
      | first | refused | next | check | finish | resume | giveUp | nothing | found | tell | wake
      | answer | drop => trivial
      | @fate p w =>
        rcases w with ⟨before, fate, after⟩
        cases fate <;> trivial
      | @work p x r work u hFind hTurn =>
        obtain ⟨i, hij, hRoom, recipe', args', hStart⟩ := Turns.start ⟨hParent, hFind⟩
        obtain ⟨-, width', child', hGrows'⟩ :=
          ih i (Nat.lt_trans hij hjk) (mem_agenda_of_job hStart)
        have hCase := treeTurn hGrows' hRoom hStart ⟨hParent, hFind⟩
        rw [← turned] at hTurn
        cases hCase with
        | first hBears hAsks =>
          rw [hAsks.turn] at hTurn
          cases hTurn
          exact Or.inr ⟨_, rfl, hBears.sprouts hRoom⟩
        | last _ _ _ _ hFinished =>
          rw [hFinished] at hTurn
          cases hTurn
      | poke hPoke =>
        rcases hGrown with hSprouts | ⟨works, hWorks, -⟩
        · cases hSprouts with
          | leaf hCore =>
            cases hCore
            cases hPoke
        · cases hWorks
      | noted =>
        rcases hGrown with hSprouts | ⟨works, hWorks, -⟩
        · cases hSprouts with
          | leaf hCore => exact Or.inl (.leaf hCore)
        · cases hWorks
      | items =>
        rcases hGrown with hSprouts | ⟨works, hWorks, hAll⟩
        · cases hSprouts with
          | leaf hCore => cases hCore
        · cases hWorks
          exact hAll
      | nested =>
        rcases hGrown with hSprouts | ⟨works, hWorks, -⟩
        · cases hSprouts with
          | leaf hCore => cases hCore
          | node hLimit' hGrows' => exact ⟨hLimit', _, _, hGrows'⟩
        · cases hWorks
      | item => exact Or.inl (hGrown _ List.mem_cons_self)
      | more => exact fun w hw => hGrown w (List.mem_cons_of_mem _ hw)
    · cases hAdmits with
      | begin hMove =>
        obtain ⟨-, rfl, -, rfl⟩ := hCalm.begins _ _ _ _ _ hMove
        exact ⟨hLimit, width, child, hGrows⟩
      | call | drop => trivial

theorem exists_treeTurn {l : Nat} {p : Place} {x : Input} {r : Run b} (h : s.Turns world l p x r) :
    ∃ width, ∃ child : Fin width → Tree, s.TreeTurn world child l p x r := by
  obtain ⟨i, -, hRoom, recipe', args', hStart⟩ := h.start
  obtain ⟨-, width', child', hGrows'⟩ := grown hCalm hLimit hGrows (mem_agenda_of_job hStart)
  exact ⟨width', child', treeTurn hGrows' hRoom hStart h⟩

end Schedule

end Interlace
