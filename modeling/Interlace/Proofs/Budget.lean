import Interlace.Proofs.Routing

/-!
# The depth of frames

A frame has the same frames below it whenever it is stepped, so it never sits deeper than when it
was put on its stack, however often it delegates and however often its run parks in between. A
request for a coroutine on top is refused just if the stack of the run is full, and the stack of
another run has no part in that.
-/

namespace Interlace

variable {b : Behaviour}

/-- The coroutines that a request has run on stacks of their own, with the continuations they are
given. The request itself waits with the continuation `q`. -/
inductive Request.Runs {Recipe Note : Type} (q : Place) :
    Request Recipe Note → Place → Recipe → Prop where
  | item {items : List (Item Recipe Note)} {n : Nat} {recipe : Recipe}
      (hItem : items[n]? = some (.coroutine recipe)) : Runs q (.all items) (n :: q) recipe
  | operand {recipe : Recipe} : Runs q (.caught (.coroutine recipe)) q recipe

namespace Schedule

variable (s : Schedule b) (world : b.World)

structure Delegates (j : Nat) (p : Place) (x : Input) (r : Run b) (f : Frame b.Body)
    (below : List (Frame b.Body)) (recipe : b.Recipe) : Prop where
  steps : s.Steps world j p x r f
  frames : r.frames.frames = f :: below
  answer : (s.stepped world j f x).1 = .wait (.inner recipe)

/-- The run `r` goes on from its step at move `j` with an input for the stack `frames`. Nothing is
done before that but what comes from outside, and it is done when all jobs are. -/
structure GoesOn (j : Nat) (p : Place) (x : Input) (r : Run b) (y : Input)
    (frames : List (Frame b.Body)) : Prop where
  now : (s.after world (j + 1)).machine.agenda.head? = some (.drive p y)
  next : ∀ k z r', s.LastTurn world j k p x r → s.Turns world k p z r' →
    z = y ∧ r'.frames.frames = frames
  done : ∀ k, (s.after world k).AtRest → j < k →
    ∃ m < k, s.LastTurn world j m p x r ∧ ∃ r', s.Turns world m p y r'

structure Refused (j : Nat) (p : Place) (x : Input) (r : Run b) (f : Frame b.Body)
    (below : List (Frame b.Body)) : Prop where
  told : s.GoesOn world j p x r (.failure (.tooDeep r.frames.limit)) (s.lulled world j f x :: below)
  unmade : ∀ r' recipe body, ¬ s.Pushes world j p r' recipe body

structure Admitted (j : Nat) (p : Place) (x : Input) (r : Run b) (f : Frame b.Body)
    (below : List (Frame b.Body)) (recipe : b.Recipe) : Prop where
  started : s.GoesOn world j p x r .start
    (⟨(b.make recipe [] (s.stepped world j f x).2.2.2).1, .ready, r.frames.pushed⟩ ::
      s.lulled world j f x :: below)
  made : s.Pushes world j p r recipe (b.make recipe [] (s.stepped world j f x).2.2.2).1

variable {s world}

/-! ## What is below a frame -/

/-- While a frame sleeps it stays on its stack with what is below it. -/
theorem Steps.beneath {i j : Nat} {p : Place} {x y : Input} {r r' : Run b} {f : Frame b.Body}
    {below : List (Frame b.Body)} {request : Request b.Recipe b.Note} (h : s.Steps world i p x r f)
    (hFrames : r.frames.frames = f :: below)
    (hAnswer : (s.stepped world i f x).1 = .wait request) (hDozes : s.Dozes world i j p f.serial)
    (hij : i < j) (hTurns : s.Turns world j p y r') :
    ∃ above, r'.frames.frames = above ++ s.lulled world i f x :: below := by
  induction j using Nat.strongRecOn generalizing y r' with
  | ind j ih =>
    obtain ⟨l, z, r₀, hLast⟩ := h.turns.exists_last hij
    have hil : i ≤ l := by
      by_contra hli
      exact hLast.last i (Nat.lt_of_not_le hli) hij x h.turns.job
    rw [hLast.frames hTurns]
    obtain ⟨g, hStep⟩ := hLast.turns.steps
    obtain ⟨under, hUnder, hCase⟩ := hStep.case
    rcases Nat.lt_or_eq_of_le hil with hil | rfl
    · obtain ⟨above, hAbove⟩ := ih l hLast.before
        (fun m him hml => hDozes m him (Nat.lt_trans hml hLast.before)) hil hLast.turns
      -- Another frame is on top at move `l`, so only what is above can change.
      have hOther := hDozes l hil hLast.before z r₀ g hStep
      rw [hUnder] at hAbove
      cases above with
      | nil =>
        obtain ⟨rfl, -⟩ := List.cons.inj hAbove
        exact absurd rfl hOther
      | cons top above =>
        obtain ⟨rfl, rfl⟩ := List.cons.inj hAbove
        generalize s.turned world l z r₀ = turned at hCase
        cases hCase with
        | finished _ hBelow => simp at hBelow
        | returned => exact ⟨above, rfl⟩
        | pushed => exact ⟨_ :: _ :: above, rfl⟩
        | refused | awaited => exact ⟨_ :: above, rfl⟩
    · obtain ⟨rfl, rfl, rfl⟩ := hStep.unique h
      rw [hFrames] at hUnder
      obtain ⟨-, rfl⟩ := List.cons.inj hUnder
      rw [stepped] at hAnswer
      generalize s.turned world i z r₀ = turned at hCase
      cases hCase with
      | finished hEnded | returned hEnded =>
        rw [hAnswer] at hEnded
        cases hEnded
      | pushed => exact ⟨[_], rfl⟩
      | refused | awaited => exact ⟨[], rfl⟩

theorem Steps.same_below {i j : Nat} {p : Place} {x y : Input} {r r' : Run b} {f g : Frame b.Body}
    {below under : List (Frame b.Body)} (h : s.Steps world i p x r f)
    (hFrames : r.frames.frames = f :: below) (h' : s.Steps world j p y r' g)
    (hFrames' : r'.frames.frames = g :: under) (hij : i ≤ j) (hSame : f.serial = g.serial) :
    under = below := by
  induction j using Nat.strongRecOn generalizing y r' g under with
  | ind j ih =>
    rcases Nat.lt_or_eq_of_le hij with hij | rfl
    · obtain ⟨hStacked, hRouted⟩ := stacked_routed h'
      cases hRouted with
      | first hNever => exact absurd hSame (hNever i hij x r f h)
      | @settled m d _ request _ hAsked hSettles =>
        obtain ⟨z, c, hStep, hSerial, hAnswer, -⟩ := hAsked.step
        have him : i ≤ m := by
          by_contra hmi
          exact hAsked.dozes i (Nat.lt_of_not_le hmi) hij x r f h hSame
        obtain ⟨lower, hLower, -⟩ := hStep.case
        have hDozes := hAsked.dozes
        rw [← hSerial] at hDozes
        obtain ⟨above, hAbove⟩ := hStep.beneath hLower hAnswer hDozes hAsked.before h'.turns
        rw [hFrames'] at hAbove
        cases above with
        | nil =>
          obtain ⟨-, rfl⟩ := List.cons.inj hAbove
          exact ih m hAsked.before hStep hLower him (hSame.trans hSerial.symm)
        | cons top above =>
          obtain ⟨rfl, rfl⟩ := List.cons.inj hAbove
          -- The frame would be on its stack twice.
          have hSorted := hStacked.sorted
          rw [hFrames'] at hSorted
          have hLess := (List.pairwise_cons.mp hSorted).1 (s.lulled world m c z) (by simp)
          exact absurd hSerial (Nat.ne_of_lt hLess)
    · obtain ⟨-, rfl, rfl⟩ := h'.unique h
      rw [hFrames] at hFrames'
      exact (List.cons.inj hFrames').2.symm

/-! ## Requests for a coroutine on top -/

theorem Turns.goesOn {j : Nat} {p : Place} {x y : Input} {r : Run b}
    (h : s.Turns world j p x r) (hTurn : (s.turned world j x r).turn = .next y) :
    s.GoesOn world j p x r y (s.turned world j x r).frames.frames where
  now := by
    obtain ⟨rest, hAgenda, hAfter⟩ := s.after_succ_of_job world h.job
    rw [turned] at hTurn
    cases (s.sound world j).run_step hAgenda h.find with
    | elsewhere hSite => exact absurd rfl hSite
    | await _ hTurn' | finish _ hTurn' | escape _ _ hTurn' =>
      rw [hTurn] at hTurn'
      cases hTurn'
    | next _ hTurn' hDoes =>
      rw [hTurn] at hTurn'
      cases hTurn'
      rw [(does_succ hAfter hDoes).2.1]
      rfl
  next k z r' hLast hNext := by
    refine ⟨?_, congrArg Frames.frames (hLast.frames hNext)⟩
    obtain ⟨i, hik, hLimit, recipe, args, hStart⟩ := hNext.start
    have hFollows := hNext.follows hLimit hStart
    generalize r'.frames.limit = limit at hFollows
    cases hFollows with
    | first hNone => exact absurd h.job (hNone j hLast.before x)
    | next hLast' hTurn' =>
      obtain ⟨rfl, rfl, rfl⟩ := hLast'.unique hLast
      rw [hTurn] at hTurn'
      cases hTurn'
      rfl
    | told hLast' hTurn' =>
      obtain ⟨rfl, rfl, rfl⟩ := hLast'.unique hLast
      rw [hTurn] at hTurn'
      cases hTurn'
  done k hRest hjk := h.next_by_rest hRest hTurn hjk

section

variable {j : Nat} {p : Place} {x : Input} {r : Run b} {f : Frame b.Body}
  {below : List (Frame b.Body)} {recipe : b.Recipe}

theorem Delegates.within (h : s.Delegates world j p x r f below recipe) :
    r.frames.depth ≤ r.frames.limit :=
  h.steps.turns.driven.2.within

theorem Delegates.turned_full (h : s.Delegates world j p x r f below recipe)
    (hFull : r.frames.depth = r.frames.limit) :
    (s.turned world j x r).turn = .next (.failure (.tooDeep r.frames.limit)) ∧
      (s.turned world j x r).frames.frames = s.lulled world j f x :: below := by
  obtain ⟨under, hUnder, hCase⟩ := h.steps.case
  rw [h.frames] at hUnder
  obtain ⟨-, rfl⟩ := List.cons.inj hUnder
  have hAnswer := h.answer
  rw [stepped] at hAnswer
  rw [depth_of_frames h.frames] at hFull
  generalize s.turned world j x r = turned at hCase ⊢
  cases hCase with
  | finished hEnded | returned hEnded =>
    rw [hAnswer] at hEnded
    cases hEnded
  | pushed _ hRoom => exact absurd hFull (Nat.ne_of_lt hRoom)
  | refused => exact ⟨rfl, rfl⟩
  | awaited hAnswer' hResolve =>
    rw [hAnswer] at hAnswer'
    cases hAnswer'
    cases hResolve

theorem Delegates.turned_room (h : s.Delegates world j p x r f below recipe)
    (hRoom : r.frames.depth ≠ r.frames.limit) :
    (s.turned world j x r).turn = .next .start ∧ (s.turned world j x r).frames.frames =
      ⟨(b.make recipe [] (s.stepped world j f x).2.2.2).1, .ready, r.frames.pushed⟩ ::
        s.lulled world j f x :: below := by
  obtain ⟨under, hUnder, hCase⟩ := h.steps.case
  rw [h.frames] at hUnder
  obtain ⟨-, rfl⟩ := List.cons.inj hUnder
  have hAnswer := h.answer
  have hWithin := h.within
  rw [stepped] at hAnswer
  rw [depth_of_frames h.frames] at hRoom hWithin
  generalize s.turned world j x r = turned at hCase ⊢
  cases hCase with
  | finished hEnded | returned hEnded =>
    rw [hAnswer] at hEnded
    cases hEnded
  | pushed hAnswer' =>
    rw [hAnswer] at hAnswer'
    cases hAnswer'
    exact ⟨rfl, rfl⟩
  | refused _ hFull => exact absurd (Nat.le_antisymm hWithin hFull) hRoom
  | awaited hAnswer' hResolve =>
    rw [hAnswer] at hAnswer'
    cases hAnswer'
    cases hResolve

theorem Delegates.refused (h : s.Delegates world j p x r f below recipe)
    (hFull : r.frames.depth = r.frames.limit) : s.Refused world j p x r f below where
  told := by
    obtain ⟨hTurn, hFrames⟩ := h.turned_full hFull
    rw [← hFrames]
    exact h.steps.turns.goesOn hTurn
  unmade r' recipe' body hPushes := by
    obtain ⟨y, g, hStep, -⟩ := hPushes.step
    obtain ⟨-, rfl, -⟩ := hStep.unique h.steps
    exact absurd hFull (Nat.ne_of_lt hPushes.room)

theorem Delegates.admitted (h : s.Delegates world j p x r f below recipe)
    (hRoom : r.frames.depth ≠ r.frames.limit) : s.Admitted world j p x r f below recipe where
  started := by
    obtain ⟨hTurn, hFrames⟩ := h.turned_room hRoom
    rw [← hFrames]
    exact h.steps.turns.goesOn hTurn
  made := ⟨⟨x, f, h.steps, h.answer, rfl⟩, Nat.lt_of_le_of_ne h.within hRoom⟩

theorem Delegates.lt_child (h : s.Delegates world j p x r f below recipe) {d : Nat} {y : Input}
    {r' : Run b} {c : Frame b.Body} (hStep : s.Steps world d p y r' c)
    (hChild : c.serial = r.frames.pushed) : j < d := by
  by_contra hdj
  have hStacked := (stacked_routed h.steps).1
  have hCounted := hStep.counted (stacked_routed hStep).1
  have hGrown : r'.frames.pushed ≤ r.frames.pushed := by
    rcases Nat.lt_or_eq_of_le (Nat.le_of_not_lt hdj) with hdj | rfl
    · exact hStacked.grown d hdj y r' hStep.turns
    · obtain ⟨-, rfl, -⟩ := hStep.unique h.steps
      exact Nat.le_refl _
  omega

theorem Delegates.below_child (h : s.Delegates world j p x r f below recipe)
    (hRoom : r.frames.depth ≠ r.frames.limit) {d : Nat} {y : Input} {r' : Run b}
    {c : Frame b.Body} (hStep : s.Steps world d p y r' c) (hChild : c.serial = r.frames.pushed) :
    r'.frames.frames = c :: s.lulled world j f x :: below := by
  obtain ⟨hTurn, hFrames⟩ := h.turned_room hRoom
  obtain ⟨under, hUnder, -⟩ := hStep.case
  rw [hUnder]
  rcases h.steps.turns.last_or_next (h.lt_child hStep hChild) with
    hLast | ⟨k, hkd, hLast, z, r₀, hNext⟩
  · have hNow := congrArg Frames.frames (hLast.frames hStep.turns)
    rw [hFrames, hUnder] at hNow
    rw [(List.cons.inj hNow).2]
  · have hNow := congrArg Frames.frames (hLast.frames hNext)
    rw [hFrames] at hNow
    have hFirst : s.Steps world k p z r₀ _ := ⟨hNext, by rw [Frames.top?, hNow]; rfl⟩
    rw [hFirst.same_below hNow hStep hUnder (Nat.le_of_lt hkd) hChild.symm]

theorem Delegates.child_ended (h : s.Delegates world j p x r f below recipe)
    (hRoom : r.frames.depth ≠ r.frames.limit) {d : Nat} {y : Input} {r' : Run b}
    {c : Frame b.Body} {o : Outcome} (hStep : s.Steps world d p y r' c)
    (hChild : c.serial = r.frames.pushed) (hEnded : (s.stepped world d c y).1.ended? = some o) :
    s.GoesOn world d p y r' (.ofOutcome o) (s.lulled world j f x :: below) := by
  have hFrames := h.below_child hRoom hStep hChild
  obtain ⟨under, hUnder, hCase⟩ := hStep.case
  rw [hFrames] at hUnder
  obtain ⟨-, rfl⟩ := List.cons.inj hUnder
  have hTurned : (s.turned world d y r').turn = .next (.ofOutcome o) ∧
      (s.turned world d y r').frames.frames = s.lulled world j f x :: below := by
    rw [stepped] at hEnded
    generalize s.turned world d y r' = turned at hCase ⊢
    cases hCase with
    | finished _ hBelow => cases hBelow
    | returned hEnded' =>
      rw [hEnded] at hEnded'
      cases hEnded'
      exact ⟨rfl, rfl⟩
    | pushed hAnswer | refused hAnswer | awaited hAnswer =>
      rw [hAnswer] at hEnded
      cases hEnded
  rw [← hTurned.2]
  exact hStep.turns.goesOn hTurned.1

theorem Delegates.refused_iff (h : s.Delegates world j p x r f below recipe) :
    s.Refused world j p x r f below ↔ r.frames.depth = r.frames.limit := by
  constructor
  · intro hRefused
    by_contra hRoom
    exact hRefused.unmade _ _ _ (h.admitted hRoom).made
  · exact h.refused

theorem Delegates.admitted_iff (h : s.Delegates world j p x r f below recipe) :
    s.Admitted world j p x r f below recipe ↔ r.frames.depth ≠ r.frames.limit := by
  constructor
  · intro hAdmitted hFull
    exact (h.refused hFull).unmade _ _ _ hAdmitted.made
  · exact h.admitted

end

theorem Steps.born {k : Nat} {p : Place} {x : Input} {r : Run b} {f : Frame b.Body}
    (h : s.Steps world k p x r f) : f.serial = 0 ∨
      ∃ i < k, ∃ r' recipe body, s.Pushes world i p r' recipe body ∧
        f.serial = r'.frames.pushed := by
  induction k using Nat.strongRecOn generalizing x r f with
  | ind k ih =>
    cases (stacked_routed h).2 with
    | first _ hMade =>
      cases hMade with
      | bottom _ _ hSerial => exact Or.inl hSerial
      | pushed hik hPushes hSerial => exact Or.inr ⟨_, hik, _, _, _, hPushes, hSerial⟩
    | settled hAsked =>
      obtain ⟨y, g, hStep, hSerial, -⟩ := hAsked.step
      rcases ih _ hAsked.before hStep with hZero | ⟨i, hi, r', recipe, body, hPushes, hPushed⟩
      · exact Or.inl (hSerial.symm.trans hZero)
      · exact Or.inr ⟨i, Nat.lt_trans hi hAsked.before, r', recipe, body, hPushes,
          hSerial.symm.trans hPushed⟩

/-! ## Runs that are started -/

theorem Turns.limit {i j limit : Nat} {p : Place} {x : Input} {r : Run b} {recipe : b.Recipe}
    {args : List Datum} (h : s.Turns world j p x r)
    (hStart : s.job? world i = some (.start p recipe args limit)) : r.frames.limit = limit := by
  obtain ⟨i', -, -, recipe', args', hStart'⟩ := h.start
  obtain rfl := start_unique hStart hStart'
  rw [hStart] at hStart'
  cases hStart'
  rfl

theorem Turns.depth_first {j : Nat} {p : Place} {x : Input} {r : Run b} (h : s.Turns world j p x r)
    (hFirst : ∀ m < j, ∀ y, s.job? world m ≠ some (.drive p y)) : r.frames.depth = 1 := by
  obtain ⟨i, -, hLimit, recipe, args, hStart⟩ := h.start
  have hFollows := h.follows hLimit hStart
  generalize r.frames.limit = limit at hFollows
  cases hFollows with
  | first => rfl
  | next hLast | told hLast => exact absurd hLast.turns.job (hFirst _ hLast.before _)

theorem Turns.lt_invoke {c j : Nat} {p : Place} {x : Input} {r : Run b}
    {work : Work b.Recipe b.Note} (h : s.Turns world j p x r)
    (hInvoke : s.job? world c = some (.invoke (r.wait :: p) work)) : j < c := by
  by_contra hcj
  have hDormant := dormant_of_job hInvoke (List.mem_singleton_self (r.wait :: p))
  have hLedger := (s.kept world (Nat.le_of_not_lt hcj)).ledger _
    (History.mem_ledger_of_dormant hDormant)
  have hWaits := (s.sound world j).waits _ _ h.find _ hLedger
  rw [Run.waits, h.driven.1] at hWaits
  exact Nat.lt_irrefl _ hWaits

theorem item_of_request {c j n : Nat} {p : Place} {x : Input} {r : Run b} {f : Frame b.Body}
    {items : List (Item b.Recipe b.Note)} {work : Work b.Recipe b.Note}
    (h : s.Steps world j p x r f) (hAnswer : (s.stepped world j f x).1 = .wait (.all items))
    (hInvoke : s.job? world c = some (.invoke (n :: r.wait :: p) work)) :
    ∃ i item, j < i ∧ i < c ∧ s.job? world i =
        some (.invoke (r.wait :: p) (.gather (items.map (Item.toWork r.frames.limit)))) ∧
      items[n]? = some item ∧ (item.toWork r.frames.limit).core = work.core := by
  have hTurn : (s.turned world j x r).turn =
      .await (.gather (items.map (Item.toWork r.frames.limit))) .throwing := h.awaits hAnswer rfl
  have hPlace : 1 ≤ p.length :=
    List.length_pos_iff_ne_nil.mpr ((s.sound world j).ne_nil_of_find? h.turns.find)
  obtain ⟨whole, hCore, hBehalf⟩ := behalf hInvoke
  generalize hPlaces : n :: r.wait :: p = place at hBehalf
  cases hBehalf with
  | run hl hDrive hFind =>
    obtain ⟨-, rfl⟩ := List.cons.inj hPlaces
    obtain ⟨i₀, -, -, recipe₀, args₀, hStart₀⟩ := Turns.start ⟨hDrive, hFind⟩
    obtain ⟨-, c₀, -, hInvoke₀⟩ := handed_of_start hStart₀ (by simpa using hPlace)
    cases core_of_invoke h.turns hTurn hInvoke₀
  | item hl hItems =>
    obtain ⟨rfl, rfl⟩ := List.cons.inj hPlaces
    obtain ⟨i, hil, works, -, hGather, -, hRest⟩ := handed_of_items hItems
    have hWorks := core_of_invoke h.turns hTurn hGather
    have hWhole : works[n]? = some whole := by
      rw [← List.head?_drop, ← hRest]
      rfl
    cases hWorks
    rw [List.getElem?_map] at hWhole
    obtain ⟨item, hItem, rfl⟩ := Option.map_eq_some_iff.mp hWhole
    exact ⟨i, item, h.turns.lt_invoke hGather, Nat.lt_trans hil hl, hGather, hItem, hCore⟩

theorem start_of_request {i j limit : Nat} {p y : Place} {x : Input} {r : Run b} {f : Frame b.Body}
    {request : Request b.Recipe b.Note} {recipe recipe' : b.Recipe} {args : List Datum}
    (h : s.Steps world j p x r f) (hAnswer : (s.stepped world j f x).1 = .wait request)
    (hRuns : request.Runs (r.wait :: p) y recipe)
    (hStart : s.job? world i = some (.start y recipe' args limit)) :
    recipe' = recipe ∧ args = [] ∧ limit = r.frames.limit := by
  have hPlace : 1 ≤ p.length :=
    List.length_pos_iff_ne_nil.mpr ((s.sound world j).ne_nil_of_find? h.turns.find)
  cases hRuns with
  | operand =>
    obtain ⟨hArgs, c, -, hInvoke⟩ := handed_of_start hStart (by simpa using hPlace)
    have hCore := core_of_invoke h.turns (h.awaits hAnswer rfl) hInvoke
    cases hCore
    exact ⟨rfl, hArgs, rfl⟩
  | item hItem =>
    obtain ⟨hArgs, c, -, hInvoke⟩ := handed_of_start hStart (by simp)
    obtain ⟨i, item, -, -, -, hItem', hCore⟩ := item_of_request h hAnswer hInvoke
    rw [hItem] at hItem'
    cases hItem'
    cases hCore
    exact ⟨rfl, hArgs, rfl⟩

/-! ## The budget -/

variable (s world)

/-- What all runs keep to when their frames delegate. A run begins with one frame, and its stack
never has more than the run was started with. A run that is started for a frame has the limit of the
frame's run, whatever its depth. A frame that asks for a coroutine is refused just if its stack is
full. Otherwise the coroutine is started on top of it, and however it ends, the frame goes on at its
old depth. A frame has the same frames below it at all its steps, so none of its requests for a
coroutine is refused unless all are. -/
structure Budget : Prop where
  begins : ∀ i p recipe args limit, s.job? world i = some (.start p recipe args limit) →
    ∀ j x r, s.Turns world j p x r → r.frames.limit = limit ∧ r.frames.depth ≤ limit ∧
      ((∀ m < j, ∀ y, s.job? world m ≠ some (.drive p y)) → r.frames.depth = 1)
  nested : ∀ j p x r f request y recipe, s.Steps world j p x r f →
    (s.stepped world j f x).1 = .wait request → request.Runs (r.wait :: p) y recipe →
      ∀ i recipe' args limit, s.job? world i = some (.start y recipe' args limit) →
        recipe' = recipe ∧ args = [] ∧ limit = r.frames.limit
  refuses : ∀ j p x r f below recipe, s.Delegates world j p x r f below recipe →
    (s.Refused world j p x r f below ↔ r.frames.depth = r.frames.limit)
  admits : ∀ j p x r f below recipe, s.Delegates world j p x r f below recipe →
    (s.Admitted world j p x r f below recipe ↔ r.frames.depth ≠ r.frames.limit)
  born : ∀ k p x r f, s.Steps world k p x r f → f.serial = 0 ∨
    ∃ i < k, ∃ r' recipe body, s.Pushes world i p r' recipe body ∧ f.serial = r'.frames.pushed
  returns : ∀ j p x r f below recipe, s.Delegates world j p x r f below recipe →
    r.frames.depth ≠ r.frames.limit → ∀ d y r' c o, s.Steps world d p y r' c →
      c.serial = r.frames.pushed → (s.stepped world d c y).1.ended? = some o →
        s.GoesOn world d p y r' (.ofOutcome o) (s.lulled world j f x :: below)
  kept : ∀ i j p x y r r' f g below under, s.Steps world i p x r f →
    r.frames.frames = f :: below → s.Steps world j p y r' g → r'.frames.frames = g :: under →
      f.serial = g.serial → under = below ∧ r'.frames.depth = r.frames.depth ∧
        r'.frames.limit = r.frames.limit

variable {s world}

theorem Steps.same_depth {i j : Nat} {p : Place} {x y : Input} {r r' : Run b} {f g : Frame b.Body}
    {below under : List (Frame b.Body)} (h : s.Steps world i p x r f)
    (hFrames : r.frames.frames = f :: below) (h' : s.Steps world j p y r' g)
    (hFrames' : r'.frames.frames = g :: under) (hSame : f.serial = g.serial) :
    under = below ∧ r'.frames.depth = r.frames.depth ∧ r'.frames.limit = r.frames.limit := by
  have hBelow : under = below := by
    rcases Nat.le_total i j with hij | hji
    · exact h.same_below hFrames h' hFrames' hij hSame
    · exact (h'.same_below hFrames' h hFrames hji hSame.symm).symm
  obtain ⟨k, -, -, recipe, args, hStart⟩ := h.turns.start
  refine ⟨hBelow, ?_, h'.turns.limit hStart⟩
  rw [depth_of_frames hFrames, depth_of_frames hFrames', hBelow]

/-- In every schedule of every program delegations keep to the depth that their runs were started
with, and use up none of it for good. -/
theorem budgeted (s : Schedule b) (world : b.World) : s.Budget world where
  begins i p recipe args limit hStart j x r hTurns := by
    have hLimit := hTurns.limit hStart
    exact ⟨hLimit, hLimit ▸ hTurns.driven.2.within, hTurns.depth_first⟩
  nested j p x r f request y recipe hStep hAnswer hRuns i recipe' args limit hStart :=
    start_of_request hStep hAnswer hRuns hStart
  refuses j p x r f below recipe h := h.refused_iff
  admits j p x r f below recipe h := h.admitted_iff
  born k p x r f hStep := hStep.born
  returns j p x r f below recipe h hRoom d y r' c o hStep hChild hEnded :=
    h.child_ended hRoom hStep hChild hEnded
  kept i j p x y r r' f g below under hStep hFrames hStep' hFrames' hSame :=
    hStep.same_depth hFrames hStep' hFrames' hSame

end Schedule

end Interlace
