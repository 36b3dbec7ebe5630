import Interlace.Proofs.Relocation
import Interlace.Proofs.Turns

/-!
# A child on a stack of its own

A run may have a child run on its own stack, or ask for work that runs the child on another stack.
The stack of the child is then what stands above the frames of the parent in the first way, and the
run of the parent waits beside it.
-/

namespace Interlace

/-- The ways to have a coroutine run on a stack of its own. -/
inductive Way (Note : Type) where
  | single (notes : List Note)
  | joined
  | captured

namespace Way

variable {Recipe Note : Type}

def request (limit : Nat) (recipe : Recipe) : Way Note → Request Recipe Note
  | single notes => .single (notes.foldr .noted (.nested limit recipe))
  | joined => .all [.coroutine recipe]
  | captured => .caught (.coroutine recipe)

def work (limit : Nat) (recipe : Recipe) : Way Note → Work Recipe Note
  | single notes => notes.foldr .noted (.nested limit recipe)
  | joined => .gather [.nested limit recipe]
  | captured => .nested limit recipe

def uptake : Way Note → Uptake
  | single _ | joined => .throwing
  | captured => .capturing

def place (x : Place) : Way Note → Place
  | single _ | captured => x
  | joined => 0 :: x

def result : Way Note → Outcome → Outcome
  | single _, o | captured, o => o
  | joined, .ok d => .ok (.list [d])
  | joined, .error e => .error (.ofItem 0 e)

def input : Way Note → Outcome → Input
  | single _, o => .ofOutcome o
  | joined, .ok d => .value (.list [d])
  | joined, .error e => .failure (.ofItem 0 e)
  | captured, .ok d => .value (.list [.null, d])
  | captured, .error e => .value (.list [.error e.problem, .null])

theorem resolve_request (way : Way Note) (limit : Nat) (recipe : Recipe) :
    (way.request limit recipe).resolve limit = .await (way.work limit recipe) way.uptake := by
  cases way <;> rfl

theorem apply_result (way : Way Note) (o : Outcome) :
    way.uptake.apply (way.result o) = way.input o := by
  cases way <;> cases o <;> rfl

end Way

def Gather.ofOne (holders : Nat) : Gather := ⟨[none], 1, false, holders⟩

variable {b : Behaviour}

/-- The wait of a run for a child on a stack of its own. Beside the place and number of the wait it
tells how the run stood when it asked: its limit, how many frames it had pushed and whether it was
ever parked. If the child were put on the stack of the run, it would be above the frames `under`;
now the frames `beside` wait for it. -/
structure Detour (b : Behaviour) where
  way : Way b.Note
  place : Place
  rooted : place ≠ []
  wait : Nat
  limit : Nat
  pushed : Nat
  wasParked : Bool
  under : List (Frame b.Body)
  beside : List (Frame b.Body)

namespace Detour

variable (e : Detour b)

def child : Place := e.way.place (e.wait :: e.place)

def relocation : Relocation where
  origin := e.place
  wait := e.wait
  target := e.child
  rooted := e.rooted
  covered := by
    rw [child]
    cases e.way with
    | single | captured => exact ⟨[], e.wait, Nat.le_refl _, rfl⟩
    | joined => exact ⟨[0], e.wait, Nat.le_refl _, rfl⟩

def lift (f : Frame b.Body) : Frame b.Body := { f with serial := e.pushed + f.serial }

/-- The run `c` has those frames that the run `r` has above the frames `under`. -/
structure Split (r c : Run b) : Prop where
  frames : r.frames.frames = c.frames.frames.map e.lift ++ e.under
  bottom : c.frames.frames.getLast?.map Frame.serial = some 0
  limit : r.frames.limit = e.limit
  limit_child : c.frames.limit = e.limit
  pushed : r.frames.pushed = e.pushed + c.frames.pushed
  wait : r.wait = e.wait + c.wait
  phase : r.phase = c.phase

variable {e}

/-! ## Turns -/

inductive SplitTurn (e : Detour b) (r c : Run b) (x : Input) (w : b.World) :
    Turned b → Turned b → Prop where
  | goes {t t' : Turned b} (hTurn : t.turn = t'.turn) (hWorld : t.world = t'.world)
      (hGoes : (∃ x, t'.turn = .next x) ∨ ∃ work u, t'.turn = .await work u)
      (hSplit : e.Split { r with frames := t.frames } { c with frames := t'.frames }) :
      SplitTurn e r c x w t t'
  | ends {t t' : Turned b} {f : Frame b.Body} {o : Outcome} (hTop : r.frames.top? = some f)
      (hSerial : f.serial = e.pushed) (hEnded : (b.step f.body x w).1.ended? = some o)
      (hTurn : t.turn = .next (.ofOutcome o)) (hTurn' : t'.turn = .finished o)
      (hWorld : t.world = t'.world) (hFrames : t.frames.frames = e.under) :
      SplitTurn e r c x w t t'

theorem Split.nonempty {r c : Run b} (h : e.Split r c) : c.frames.frames ≠ [] := by
  intro hEmpty
  have hBottom := h.bottom
  rw [hEmpty] at hBottom
  cases hBottom

theorem Split.top {r c : Run b} (h : e.Split r c) {f : Frame b.Body} {below : List (Frame b.Body)}
    (hFrames : r.frames.frames = f :: below) : ∃ g above, c.frames.frames = g :: above ∧
      f = e.lift g ∧ below = above.map e.lift ++ e.under := by
  obtain ⟨g, above, hChild⟩ := List.exists_cons_of_ne_nil h.nonempty
  have hSplit := h.frames
  rw [hChild, hFrames] at hSplit
  obtain ⟨hTop, hBelow⟩ := List.cons.inj hSplit
  exact ⟨g, above, hChild, hTop, hBelow⟩

theorem Split.turn {r c : Run b} (h : e.Split r c) (hUnder : e.under ≠ []) {x : Input}
    (hPoised : r.frames.Poised x) {w : b.World}
    (hRoom : ∀ f ∈ r.frames.top?, ∀ recipe, (b.step f.body x w).1 = .wait (.inner recipe) →
      r.frames.depth < r.frames.limit) :
    e.SplitTurn r c x w (r.frames.turn b x w) (c.frames.turn b x w) := by
  obtain ⟨f, below, hFrames, hStage, -⟩ := hPoised.top
  obtain ⟨g, above, hChild, rfl, rfl⟩ := h.top hFrames
  have hCase := Frames.turn_case hFrames hStage w
  have hBelow : above.map e.lift ++ e.under ≠ [] := by simp [hUnder]
  have hLonger : above.length + 1 < r.frames.depth := by
    have := List.length_pos_iff_ne_nil.mpr hUnder
    simp only [Frames.depth, hFrames, List.length_cons, List.length_append, List.length_map]
    omega
  have hRoom : ∀ recipe, (b.step g.body x w).1 = .wait (.inner recipe) →
      r.frames.depth < r.frames.limit := by
    refine hRoom (e.lift g) ?_
    simp [Frames.top?, hFrames]
  have hSplit : ∀ {frames frames' : List (Frame b.Body)} {n : Nat},
      frames = frames'.map e.lift ++ e.under →
      frames'.getLast?.map Frame.serial = c.frames.frames.getLast?.map Frame.serial →
      e.Split { r with frames := { r.frames with frames := frames, pushed := r.frames.pushed + n } }
        { c with frames := { c.frames with
            frames := frames', pushed := c.frames.pushed + n } } := by
    intro frames frames' n hEq hBottom
    refine ⟨hEq, hBottom.trans h.bottom, h.limit, h.limit_child, ?_, h.wait, h.phase⟩
    rw [h.pushed, Nat.add_assoc]
  have hKept : ∀ g' : Frame b.Body, g'.serial = g.serial →
      (g' :: above).getLast?.map Frame.serial = c.frames.frames.getLast?.map Frame.serial := by
    intro g' hSame
    rw [hChild]
    cases above with
    | nil => simp [hSame]
    | cons => simp [List.getLast?_cons_cons]
  have hLimit := h.limit.trans h.limit_child.symm
  have hCase' := Frames.turn_case hChild (f := g) (x := x) hStage w
  -- Only on the stack of the child the last frame is told from the others, so its cases decide.
  generalize r.frames.turn b x w = t at hCase ⊢
  generalize c.frames.turn b x w = t' at hCase' ⊢
  cases hCase' with
  | finished hEnded hAbove =>
    subst hAbove
    obtain rfl := hCase.unique (.returned hEnded hBelow)
    have hBottom := h.bottom
    rw [hChild] at hBottom
    have hZero : g.serial = 0 := Option.some.inj hBottom
    refine .ends (f := e.lift g) ?_ ?_ hEnded rfl rfl rfl rfl
    · simp [Frames.top?, hFrames]
    · simp [lift, hZero]
  | @returned o hEnded hAbove =>
    obtain rfl := hCase.unique (.returned hEnded hBelow)
    refine .goes rfl rfl (Or.inl ⟨_, rfl⟩) (hSplit (n := 0) rfl ?_)
    obtain ⟨g', above, rfl⟩ := List.exists_cons_of_ne_nil hAbove
    rw [hChild, List.getLast?_cons_cons]
  | @pushed recipe hAnswer hRoom' =>
    have hFits := hRoom recipe hAnswer
    simp only [Frames.depth, hFrames, List.length_cons] at hFits
    obtain rfl := hCase.unique (.pushed hAnswer hFits)
    refine .goes rfl rfl (Or.inl ⟨_, rfl⟩) (hSplit (n := 1) ?_ ?_)
    · simp [lift, h.pushed]
    · rw [List.getLast?_cons_cons]
      exact hKept _ rfl
  | @refused recipe hAnswer hFull =>
    have := hRoom recipe hAnswer
    omega
  | awaited hAnswer hResolve =>
    rw [← hLimit] at hResolve
    obtain rfl := hCase.unique (.awaited hAnswer hResolve)
    exact .goes rfl rfl (Or.inr ⟨_, _, rfl⟩) (hSplit (n := 0) rfl (hKept _ rfl))

end Detour

end Interlace
