import Interlace.Proofs.Gathering
import Interlace.Proofs.Invocations
import Interlace.Proofs.Turns
import Mathlib.Data.List.Chain

/-!
# Which result goes to which frame

A frame is known by its run and its serial number. It is stepped with the start first, and after
that with nothing but the results of what it asked for itself, one after the other: the outcome of
the frame that was put on top of it, the refusal of one, or the result of the work that its run was
waiting for.
-/

namespace Interlace

variable {b : Behaviour}

namespace Schedule

variable (s : Schedule b) (world : b.World)

/-- Move `j` steps the frame `f` of the run `r` at `p`. -/
structure Steps (j : Nat) (p : Place) (x : Input) (r : Run b) (f : Frame b.Body) : Prop where
  turns : s.Turns world j p x r
  top : r.frames.top? = some f

/-- What comes of it when move `j` steps the frame `f`. -/
def stepped (j : Nat) (f : Frame b.Body) (x : Input) :
    Answer b.Recipe b.Note × b.Body × List b.Note × b.World :=
  b.step f.body x (s.after world j).machine.world

def lulled (j : Nat) (f : Frame b.Body) (x : Input) : Frame b.Body :=
  ⟨(s.stepped world j f x).2.1, .suspended, f.serial⟩

/-- Between two moves the frame with a serial number is not stepped. -/
def Dozes (i j : Nat) (p : Place) (serial : Nat) : Prop :=
  ∀ m, i < m → m < j → ∀ x r f, s.Steps world m p x r f → f.serial ≠ serial

/-- The last time that the frame `f` was stepped before move `j` was by move `i`, and it answered
with a request. -/
structure Asked (i j : Nat) (p : Place) (r : Run b) (request : Request b.Recipe b.Note)
    (f : Frame b.Body) : Prop where
  step : ∃ x g, s.Steps world i p x r g ∧ g.serial = f.serial ∧
    (s.stepped world i g x).1 = .wait request ∧ (s.stepped world i g x).2.1 = f.body
  before : i < j
  dozes : s.Dozes world i j p f.serial

structure Pushes (i : Nat) (p : Place) (r : Run b) (recipe : b.Recipe) (body : b.Body) : Prop where
  step : ∃ x g, s.Steps world i p x r g ∧ (s.stepped world i g x).1 = .wait (.inner recipe) ∧
    body = (b.make recipe [] (s.stepped world i g x).2.2.2).1
  room : r.frames.depth < r.frames.limit

/-- Where the body of a frame comes from that has not been stepped before move `j`. -/
inductive Made (j : Nat) (p : Place) (f : Frame b.Body) : Prop where
  | bottom {i limit : Nat} {recipe : b.Recipe} {args : List Datum} (hij : i < j)
      (hStart : s.job? world i = some (.start p recipe args limit)) (hSerial : f.serial = 0)
      (hBody : f.body = (b.make recipe args (s.after world i).machine.world).1)
  | pushed {i : Nat} {r : Run b} {recipe : b.Recipe} (hij : i < j)
      (hPushes : s.Pushes world i p r recipe f.body) (hSerial : f.serial = r.frames.pushed)

/-- The input `x` of move `j` settles what a frame of the run `r` at `p` asked for at move `i`, with
what move `d` brings: the outcome of the frame that was put on top, or the result of the work that
the run waits for. The result is acted on when the invocation of the work is over, and, if the run
was parked, before the call that brings it is over. -/
inductive Settles (i d j : Nat) (p : Place) (r : Run b) :
    Request b.Recipe b.Note → Input → Prop where
  | result {request : Request b.Recipe b.Note} {work : Work b.Recipe b.Note} {u : Uptake}
      {c n : Nat} {o : Outcome} (hResolve : request.resolve r.frames.limit = .await work u)
      (hInvoke : s.job? world c = some (.invoke (r.wait :: p) work)) (hic : i < c)
      (hDeliver : s.job? world d = some (.deliver (r.wait :: p) o)) (hcd : c < d) (hdj : d < j)
      (hResult : s.Result world d (r.wait :: p) work.core o)
      (hReturns : s.Returns world c n) (hnj : n < j)
      (hStill : ∀ m, i < m → m < j → ∀ y, s.job? world m ≠ some (.drive p y))
      (hWakes : s.Wakes world d p → n ≤ d ∧ s.Inside world d j) :
      Settles i d j p r request (u.apply o)
  | refused {recipe : b.Recipe} (hdi : d = i) (hFull : r.frames.limit ≤ r.frames.depth) :
      Settles i d j p r (.inner recipe) (.failure (.tooDeep r.frames.limit))
  | returned {recipe : b.Recipe} {y : Input} {r' : Run b} {c : Frame b.Body} {o : Outcome}
      {body : b.Body} (hPushes : s.Pushes world i p r recipe body)
      (hStep : s.Steps world d p y r' c) (hSerial : c.serial = r.frames.pushed) (hid : i < d)
      (hdj : d < j) (hEnded : (s.stepped world d c y).1.ended? = some o) :
      Settles i d j p r (.inner recipe) (.ofOutcome o)

/-- Why move `j` steps the frame `f` with an input. -/
inductive Routed (j : Nat) (p : Place) (f : Frame b.Body) : Input → Prop where
  | first (hNever : ∀ m < j, ∀ x r g, s.Steps world m p x r g → g.serial ≠ f.serial)
      (hMade : s.Made world j p f) : Routed j p f .start
  | settled {i d : Nat} {r : Run b} {request : Request b.Recipe b.Note} {x : Input}
      (hAsked : s.Asked world i j p r request f) (hSettles : s.Settles world i d j p r request x) :
      Routed j p f x

def Delegated (j : Nat) (p : Place) (c g : Frame b.Body) : Prop :=
  ∃ i r recipe body, s.Asked world i j p r (.inner recipe) g ∧ s.Pushes world i p r recipe body ∧
    c.serial = r.frames.pushed

structure Stacked (j : Nat) (p : Place) (r : Run b) : Prop where
  sorted : r.frames.frames.Pairwise fun c g => g.serial < c.serial
  counted : ∀ f ∈ r.frames.frames, f.serial < r.frames.pushed
  delegated : r.frames.frames.IsChain (s.Delegated world j p)
  grown : ∀ m < j, ∀ x r', s.Turns world m p x r' → r'.frames.pushed ≤ r.frames.pushed

variable {s world}

theorem Steps.case {j : Nat} {p : Place} {x : Input} {r : Run b} {f : Frame b.Body}
    (h : s.Steps world j p x r f) : ∃ below, r.frames.frames = f :: below ∧
      r.frames.TurnCase f below x (s.after world j).machine.world (s.turned world j x r) := by
  obtain ⟨g, below, hFrames, hStage, -⟩ := h.turns.driven.2.top
  have hTop := h.top
  rw [Frames.top?, hFrames, List.head?_cons] at hTop
  cases hTop
  exact ⟨below, hFrames, Frames.turn_case hFrames hStage _⟩

theorem Turns.steps {j : Nat} {p : Place} {x : Input} {r : Run b} (h : s.Turns world j p x r) :
    ∃ f, s.Steps world j p x r f := by
  obtain ⟨f, below, hFrames, -⟩ := h.driven.2.top
  exact ⟨f, h, by simp [Frames.top?, hFrames]⟩

theorem Steps.unique {j : Nat} {p : Place} {x y : Input} {r r' : Run b} {f g : Frame b.Body}
    (h : s.Steps world j p x r f) (h' : s.Steps world j p y r' g) : x = y ∧ r = r' ∧ f = g := by
  have hJob := h.turns.job.symm.trans h'.turns.job
  have hFind := h.turns.find.symm.trans h'.turns.find
  cases hJob
  cases hFind
  have hTop := h.top.symm.trans h'.top
  cases hTop
  exact ⟨rfl, rfl, rfl⟩

theorem Dozes.later {i l j : Nat} {p : Place} {x : Input} {r : Run b} {f : Frame b.Body}
    {serial : Nat} (h : s.Dozes world i l p serial) (hLast : s.LastTurn world l j p x r)
    (hTop : s.Steps world l p x r f) (hOther : f.serial ≠ serial) :
    s.Dozes world i j p serial := by
  intro m him hmj y r' g hStep
  rcases Nat.lt_trichotomy m l with hml | rfl | hlm
  · exact h m him hml y r' g hStep
  · obtain ⟨-, -, rfl⟩ := hTop.unique hStep
    exact hOther
  · exact absurd hStep.turns.job (hLast.last m hlm hmj y)

theorem Asked.later {i l j : Nat} {p : Place} {x : Input} {r r' : Run b} {f g : Frame b.Body}
    {request : Request b.Recipe b.Note} (h : s.Asked world i l p r' request g)
    (hLast : s.LastTurn world l j p x r) (hTop : s.Steps world l p x r f)
    (hOther : f.serial ≠ g.serial) : s.Asked world i j p r' request g :=
  ⟨h.step, Nat.lt_trans h.before hLast.before, h.dozes.later hLast hTop hOther⟩

theorem Asked.now {l j : Nat} {p : Place} {x : Input} {r : Run b} {f : Frame b.Body}
    {request : Request b.Recipe b.Note} (hLast : s.LastTurn world l j p x r)
    (hTop : s.Steps world l p x r f) (hAnswer : (s.stepped world l f x).1 = .wait request) :
    s.Asked world l j p r request (s.lulled world l f x) := by
  refine ⟨⟨x, f, hTop, rfl, hAnswer, rfl⟩, hLast.before, ?_⟩
  intro m hlm hmj y r' g hStep
  exact absurd hStep.turns.job (hLast.last m hlm hmj y)

section

variable {l j : Nat} {p : Place} {x : Input} {r : Run b} {f : Frame b.Body}
  {below : List (Frame b.Body)}

theorem Delegated.later {c c' g : Frame b.Body} (h : s.Delegated world l p c g)
    (hLast : s.LastTurn world l j p x r) (hTop : s.Steps world l p x r f)
    (hOther : f.serial ≠ g.serial) (hSame : c'.serial = c.serial) :
    s.Delegated world j p c' g := by
  obtain ⟨i, r', recipe, body, hAsked, hPushes, hSerial⟩ := h
  exact ⟨i, r', recipe, body, hAsked.later hLast hTop hOther, hPushes, hSame.trans hSerial⟩

theorem Stacked.rest (h : s.Stacked world l p r) (hLast : s.LastTurn world l j p x r)
    (hTop : s.Steps world l p x r f) (hFrames : r.frames.frames = f :: below) :
    below.IsChain (s.Delegated world j p) ∧
      ∀ f', f'.serial = f.serial → (f' :: below).IsChain (s.Delegated world j p) := by
  have hSorted := h.sorted
  have hDelegated := h.delegated
  rw [hFrames] at hSorted hDelegated
  obtain ⟨hBelow, -⟩ := List.pairwise_cons.mp hSorted
  obtain ⟨hFirst, hRest⟩ := List.isChain_cons.mp hDelegated
  have hChain : below.IsChain (s.Delegated world j p) := by
    refine hRest.imp_of_mem_imp fun c g _ hg hLink => ?_
    exact hLink.later hLast hTop (Nat.ne_of_gt (hBelow g hg)) rfl
  refine ⟨hChain, fun f' hSerial => List.isChain_cons.mpr ⟨fun g hg => ?_, hChain⟩⟩
  exact (hFirst g hg).later hLast hTop (Nat.ne_of_gt (hBelow g (List.mem_of_mem_head? hg))) hSerial

theorem Stacked.grown_now (h : s.Stacked world l p r) (hLast : s.LastTurn world l j p x r)
    {pushed : Nat} (hPushed : r.frames.pushed ≤ pushed) :
    ∀ m < j, ∀ y r', s.Turns world m p y r' → r'.frames.pushed ≤ pushed := by
  intro m hmj y r' hTurns
  rcases Nat.lt_trichotomy m l with hml | rfl | hlm
  · exact Nat.le_trans (h.grown m hml y r' hTurns) hPushed
  · have hFind := hLast.turns.find.symm.trans hTurns.find
    cases hFind
    exact hPushed
  · exact absurd hTurns.job (hLast.last m hlm hmj y)

theorem Stacked.kept (h : s.Stacked world l p r) (hLast : s.LastTurn world l j p x r)
    (hTop : s.Steps world l p x r f) (hFrames : r.frames.frames = f :: below) {r' : Run b}
    (hFrames' : r'.frames = { r.frames with frames := s.lulled world l f x :: below }) :
    s.Stacked world j p r' := by
  obtain ⟨-, hChain⟩ := h.rest hLast hTop hFrames
  have hSorted := h.sorted
  have hCounted := h.counted
  rw [hFrames] at hSorted hCounted
  obtain ⟨hBelow, hRest⟩ := List.pairwise_cons.mp hSorted
  refine ⟨?_, ?_, ?_, ?_⟩ <;> rw [hFrames']
  · exact List.pairwise_cons.mpr ⟨hBelow, hRest⟩
  · intro g hg
    rcases List.mem_cons.mp hg with rfl | hg
    · exact hCounted f List.mem_cons_self
    · exact hCounted g (List.mem_cons_of_mem f hg)
  · exact hChain _ rfl
  · exact h.grown_now hLast (Nat.le_refl _)

end

theorem Steps.counted {j : Nat} {p : Place} {x : Input} {r : Run b} {f : Frame b.Body}
    (h : s.Steps world j p x r f) (hStacked : s.Stacked world j p r) :
    f.serial < r.frames.pushed :=
  hStacked.counted f (List.mem_of_mem_head? h.top)

theorem depth_of_frames {r : Run b} {f : Frame b.Body} {below : List (Frame b.Body)}
    (hFrames : r.frames.frames = f :: below) : r.frames.depth = below.length + 1 := by
  simp [Frames.depth, hFrames]

theorem settles_of_told {l j d : Nat} {p : Place} {x : Input} {r : Run b}
    {request : Request b.Recipe b.Note} {work : Work b.Recipe b.Note} {u : Uptake} {o : Outcome}
    (hLast : s.LastTurn world l j p x r) (hTurn : (s.turned world l x r).turn = .await work u)
    (hResolve : request.resolve r.frames.limit = .await work u)
    (hCalled : s.CalledIn world l j (r.wait :: p) o d)
    (hHow : (s.Mails world d p ∧ ∃ m, d < m ∧ m < j ∧ s.job? world m = some (.check p)) ∨
      s.Wakes world d p ∧ (∃ m, l < m ∧ m < d ∧ s.job? world m = some (.check p)) ∧
        s.Inside world d j) :
    s.Settles world l d j p r request (u.apply o) := by
  obtain ⟨hld, hdj, hDeliver⟩ := hCalled
  have hResult := result_of_deliver hLast.turns hTurn hDeliver
  rcases hHow with ⟨⟨r', u', o', -, hFind, hPhase⟩, m, hdm, hmj, hCheck⟩ |
    ⟨-, ⟨m, hlm, hmd, hCheck⟩, hInside⟩
  · obtain ⟨c, n, hlc, hnm, hInvoke, hReturns⟩ :=
      returns_of_check hLast.turns hTurn (Nat.lt_trans hld hdm) hCheck
    refine .result hResolve hInvoke hlc hDeliver (lt_of_invoke_deliver hInvoke hDeliver) hdj hResult
      hReturns (Nat.lt_of_le_of_lt hnm hmj) hLast.last ?_
    rintro ⟨r'', u'', o'', -, hFind', hPhase'⟩
    rw [hFind] at hFind'
    cases hFind'
    rw [hPhase] at hPhase'
    cases hPhase'
  · obtain ⟨c, n, hlc, hnm, hInvoke, hReturns⟩ :=
      returns_of_check hLast.turns hTurn hlm hCheck
    refine .result hResolve hInvoke hlc hDeliver (lt_of_invoke_deliver hInvoke hDeliver) hdj hResult
      hReturns (by omega) hLast.last fun _ => ⟨by omega, hInside⟩

theorem stacked_routed {j : Nat} {p : Place} {x : Input} {r : Run b} {f : Frame b.Body}
    (h : s.Steps world j p x r f) : s.Stacked world j p r ∧ s.Routed world j p f x := by
  -- By induction on the steps of the run, from the last one before this.
  induction j using Nat.strongRecOn generalizing x r f with
  | ind j ih =>
    obtain ⟨i, hij, hLimit, recipe, args, hStart⟩ := h.turns.start
    have hFollows := h.turns.follows hLimit hStart
    generalize r.frames.limit = limit at hFollows hLimit hStart
    have hTop := h.top
    clear h
    cases hFollows with
    | first hNone =>
      cases hTop
      refine ⟨⟨by simp [fresh], by simp [fresh], by simp [fresh], ?_⟩,
        .first ?_ (.bottom hij hStart rfl rfl)⟩
      · intro m hmj y r' hTurns
        exact absurd hTurns.job (hNone m hmj y)
      · intro m hmj y r' g hStep
        exact absurd hStep.turns.job (hNone m hmj y)
    | @next l x₀ _ r₀ hLast hTurn =>
      obtain ⟨f₀, hStep⟩ := hLast.turns.steps
      obtain ⟨hStacked, -⟩ := ih l hLast.before hStep
      obtain ⟨below, hFrames, hCase⟩ := hStep.case
      generalize s.turned world l x₀ r₀ = turned at hTurn hTop hCase
      cases hCase with
      | finished | awaited => cases hTurn
      | @returned o hEnded hBelow =>
        cases hTurn
        obtain ⟨hChain, -⟩ := hStacked.rest hLast hStep hFrames
        have hSorted := hStacked.sorted
        have hCounted := hStacked.counted
        have hDelegated := hStacked.delegated
        rw [hFrames] at hSorted hCounted hDelegated
        obtain ⟨hAbove, hRest⟩ := List.pairwise_cons.mp hSorted
        refine ⟨⟨hRest, fun g hg => hCounted g (List.mem_cons_of_mem f₀ hg), hChain,
          hStacked.grown_now hLast (Nat.le_refl _)⟩, ?_⟩
        obtain ⟨m, r₁, recipe', body, hAsked, hPushes, hSerial⟩ :=
          (List.isChain_cons.mp hDelegated).1 f hTop
        have hOther : f₀.serial ≠ f.serial := Nat.ne_of_gt (hAbove f (List.mem_of_mem_head? hTop))
        exact .settled (hAsked.later hLast hStep hOther)
          (.returned hPushes hStep hSerial hAsked.before hLast.before hEnded)
      | @pushed recipe' hAnswer hRoom =>
        cases hTurn
        cases hTop
        have hKept : s.Stacked world j p { r₀ with
            frames := { r₀.frames with frames := s.lulled world l f₀ x₀ :: below } } :=
          hStacked.kept hLast hStep hFrames rfl
        have hPushes : s.Pushes world l p r₀ recipe' _ :=
          ⟨⟨x₀, f₀, hStep, hAnswer, rfl⟩, by rw [depth_of_frames hFrames]; exact hRoom⟩
        refine ⟨⟨?_, ?_, ?_, ?_⟩, .first ?_ (.pushed hLast.before hPushes rfl)⟩
        · exact List.pairwise_cons.mpr ⟨hKept.counted, hKept.sorted⟩
        · intro g hg
          rcases List.mem_cons.mp hg with rfl | hg
          · exact Nat.lt_succ_self _
          · exact Nat.lt_succ_of_lt (hKept.counted g hg)
        · refine List.isChain_cons.mpr ⟨fun g hg => ?_, hKept.delegated⟩
          cases hg
          exact ⟨l, r₀, recipe', _, Asked.now hLast hStep hAnswer, hPushes, rfl⟩
        · exact hStacked.grown_now hLast (Nat.le_succ _)
        · intro m hmj y r' g hBefore
          have hCounted := hBefore.counted (ih m hmj hBefore).1
          have hGrown := hKept.grown m hmj y r' hBefore.turns
          exact Nat.ne_of_lt (Nat.lt_of_lt_of_le hCounted hGrown)
      | @refused recipe' hAnswer hFull =>
        cases hTurn
        cases hTop
        have hSettles : s.Settles world l l j p r₀ (.inner recipe') _ :=
          .refused rfl (by rw [depth_of_frames hFrames]; exact hFull)
        exact ⟨hStacked.kept hLast hStep hFrames rfl,
          .settled (Asked.now hLast hStep hAnswer) hSettles⟩
    | @told l d x₀ r₀ _ work u o hLast hTurn hRunFrames hWait hCalled hHow =>
      obtain ⟨f₀, hStep⟩ := hLast.turns.steps
      obtain ⟨hStacked, -⟩ := ih l hLast.before hStep
      obtain ⟨below, hFrames, hCase⟩ := hStep.case
      have hTurn' := hTurn
      rw [hRunFrames] at hTop
      generalize s.turned world l x₀ r₀ = turned at hTurn' hTop hRunFrames hCase
      cases hCase with
      | finished | returned | pushed | refused => cases hTurn'
      | @awaited request _ _ hAnswer hResolve =>
        cases hTurn'
        cases hTop
        exact ⟨hStacked.kept hLast hStep hFrames hRunFrames,
          .settled (Asked.now hLast hStep hAnswer)
            (settles_of_told hLast hTurn hResolve hCalled hHow)⟩

/-! ## Nothing is used twice -/

theorem Settles.ne_start {i d j : Nat} {p : Place} {r : Run b} {request : Request b.Recipe b.Note}
    {x : Input} (h : s.Settles world i d j p r request x) : x ≠ .start := by
  rw [← Input.stage_eq_suspended]
  cases h with
  | result => exact Uptake.stage_apply _ _
  | refused => rfl
  | returned => exact Input.stage_ofOutcome _

theorem Asked.turns {i j : Nat} {p : Place} {r : Run b} {request : Request b.Recipe b.Note}
    {f : Frame b.Body} (h : s.Asked world i j p r request f) : ∃ x, s.Turns world i p x r := by
  obtain ⟨x, g, hStep, -⟩ := h.step
  exact ⟨x, hStep.turns⟩

theorem Asked.unique {i j j' : Nat} {p : Place} {x x' : Input} {r r₁ r₁' : Run b}
    {request request' : Request b.Recipe b.Note} {r' : Run b} {f f' : Frame b.Body}
    (h : s.Asked world i j p r request f) (hStep : s.Steps world j p x r₁ f)
    (h' : s.Asked world i j' p r' request' f') (hStep' : s.Steps world j' p x' r₁' f') :
    j = j' := by
  obtain ⟨y, g, hAsks, hSerial, -⟩ := h.step
  obtain ⟨y', g', hAsks', hSerial', -⟩ := h'.step
  obtain ⟨-, -, rfl⟩ := hAsks.unique hAsks'
  rcases Nat.lt_trichotomy j j' with hjj' | hjj' | hjj'
  · exact absurd (hSerial.symm.trans hSerial') (h'.dozes j h.before hjj' x r₁ f hStep)
  · exact hjj'
  · exact absurd (hSerial'.symm.trans hSerial) (h.dozes j' h'.before hjj' x' r₁' f' hStep')

theorem Steps.awaits {i : Nat} {p : Place} {x : Input} {r : Run b} {f : Frame b.Body}
    {request : Request b.Recipe b.Note} {work : Work b.Recipe b.Note} {u : Uptake}
    (h : s.Steps world i p x r f) (hAnswer : (s.stepped world i f x).1 = .wait request)
    (hResolve : request.resolve r.frames.limit = .await work u) :
    (s.turned world i x r).turn = .await work u := by
  obtain ⟨below, hFrames, hCase⟩ := h.case
  rw [stepped] at hAnswer
  generalize s.turned world i x r = turned at hCase
  cases hCase with
  | finished hEnded | returned hEnded =>
    rw [hAnswer] at hEnded
    cases hEnded
  | pushed hAnswer' | refused hAnswer' =>
    rw [hAnswer] at hAnswer'
    cases hAnswer'
    cases hResolve
  | awaited hAnswer' hResolve' =>
    rw [hAnswer] at hAnswer'
    cases hAnswer'
    rw [hResolve] at hResolve'
    cases hResolve'
    rfl

theorem Asked.awaits {i j : Nat} {p : Place} {r : Run b} {request : Request b.Recipe b.Note}
    {f : Frame b.Body} {work : Work b.Recipe b.Note} {u : Uptake}
    (h : s.Asked world i j p r request f)
    (hResolve : request.resolve r.frames.limit = .await work u) :
    ∃ x, s.Turns world i p x r ∧ (s.turned world i x r).turn = .await work u := by
  obtain ⟨x, g, hStep, -, hAnswer, -⟩ := h.step
  exact ⟨x, hStep.turns, hStep.awaits hAnswer hResolve⟩

theorem Pushes.turns {i : Nat} {p : Place} {r : Run b} {recipe : b.Recipe} {body : b.Body}
    (h : s.Pushes world i p r recipe body) : ∃ x, s.Turns world i p x r ∧
      (s.turned world i x r).frames.pushed = r.frames.pushed + 1 := by
  obtain ⟨x, g, hStep, hAnswer, -⟩ := h.step
  refine ⟨x, hStep.turns, ?_⟩
  obtain ⟨below, hFrames, hCase⟩ := hStep.case
  have hRoom := h.room
  rw [depth_of_frames hFrames] at hRoom
  rw [stepped] at hAnswer
  generalize s.turned world i x r = turned at hCase
  cases hCase with
  | finished hEnded | returned hEnded =>
    rw [hAnswer] at hEnded
    cases hEnded
  | pushed => rfl
  | refused _ hFull => omega
  | awaited hAnswer' hResolve =>
    rw [hAnswer] at hAnswer'
    cases hAnswer'
    cases hResolve

theorem LastTurn.unique {l l' j : Nat} {p : Place} {x x' : Input} {r r' : Run b}
    (h : s.LastTurn world l j p x r) (h' : s.LastTurn world l' j p x' r') :
    l = l' ∧ x = x' ∧ r = r' := by
  obtain rfl : l = l' := by
    rcases Nat.lt_trichotomy l l' with hll' | hll' | hll'
    · exact absurd h'.turns.job (h.last l' hll' h'.before x')
    · exact hll'
    · exact absurd h.turns.job (h'.last l hll' h.before x)
  have hJob := h.turns.job.symm.trans h'.turns.job
  have hFind := h.turns.find.symm.trans h'.turns.find
  cases hJob
  cases hFind
  exact ⟨rfl, rfl, rfl⟩

theorem Turns.last_or_next {l k : Nat} {p : Place} {x : Input} {r : Run b}
    (h : s.Turns world l p x r) (hlk : l < k) : s.LastTurn world l k p x r ∨
      ∃ j < k, s.LastTurn world l j p x r ∧ ∃ y r', s.Turns world j p y r' := by
  induction k using Nat.strongRecOn with
  | ind k ih =>
    by_cases hBetween : ∃ m, l < m ∧ m < k ∧ ∃ y, s.job? world m = some (.drive p y)
    · obtain ⟨m, hlm, hmk, y, hDrive⟩ := hBetween
      rcases ih m hmk hlm with hLast | ⟨j, hjm, hNext⟩
      · exact Or.inr ⟨m, hmk, hLast, y, exists_turns hDrive⟩
      · exact Or.inr ⟨j, Nat.lt_trans hjm hmk, hNext⟩
    · exact Or.inl ⟨h, hlk, fun m hlm hmk y hDrive => hBetween ⟨m, hlm, hmk, y, hDrive⟩⟩

theorem Turns.exists_last {l k : Nat} {p : Place} {x : Input} {r : Run b}
    (h : s.Turns world l p x r) (hlk : l < k) : ∃ j y r', s.LastTurn world j k p y r' := by
  induction hGap : k - l using Nat.strongRecOn generalizing l x r with
  | ind gap ih =>
    rcases h.last_or_next hlk with hLast | ⟨j, hjk, hLast, y, r', hNext⟩
    · exact ⟨l, x, r, hLast⟩
    · have := hLast.before
      exact ih (k - j) (by omega) hNext hjk rfl

theorem LastTurn.frames {l j : Nat} {p : Place} {x y : Input} {r r' : Run b}
    (h : s.LastTurn world l j p x r) (hNext : s.Turns world j p y r') :
    r'.frames = (s.turned world l x r).frames := by
  obtain ⟨i, -, hLimit, recipe, args, hStart⟩ := hNext.start
  have hFollows := hNext.follows hLimit hStart
  generalize r'.frames.limit = limit at hFollows
  cases hFollows with
  | first hNone => exact absurd h.turns.job (hNone l h.before x)
  | next hLast =>
    obtain ⟨rfl, rfl, rfl⟩ := h.unique hLast
    rfl
  | told hLast _ hFrames =>
    obtain ⟨rfl, rfl, rfl⟩ := h.unique hLast
    exact hFrames

theorem LastTurn.wait {l j : Nat} {p : Place} {x y : Input} {r r' : Run b}
    (h : s.LastTurn world l j p x r) (hNext : s.Turns world j p y r') : r'.wait =
      match (s.turned world l x r).turn with
      | .await _ _ => r.wait + 1
      | _ => r.wait := by
  obtain ⟨i, -, hLimit, recipe, args, hStart⟩ := hNext.start
  have hFollows := hNext.follows hLimit hStart
  generalize r'.frames.limit = limit at hFollows
  cases hFollows with
  | first hNone => exact absurd h.turns.job (hNone l h.before x)
  | next hLast hTurn =>
    obtain ⟨rfl, rfl, rfl⟩ := h.unique hLast
    rw [hTurn]
  | told hLast hTurn _ hWait =>
    obtain ⟨rfl, rfl, rfl⟩ := h.unique hLast
    rw [hTurn]
    exact hWait

theorem LastTurn.asked_of_await {l j : Nat} {p : Place} {x y : Input} {r r' : Run b}
    {f : Frame b.Body} {work : Work b.Recipe b.Note} {u : Uptake}
    (h : s.LastTurn world l j p x r) (hTurn : (s.turned world l x r).turn = .await work u)
    (hNext : s.Steps world j p y r' f) : ∃ request, s.Asked world l j p r request f ∧
      request.resolve r.frames.limit = .await work u := by
  obtain ⟨g, hStep⟩ := h.turns.steps
  obtain ⟨below, -, hCase⟩ := hStep.case
  have hTop := hNext.top
  rw [h.frames hNext.turns] at hTop
  generalize s.turned world l x r = turned at hTurn hTop hCase
  cases hCase with
  | finished | returned | pushed | refused => cases hTurn
  | @awaited request _ _ hAnswer hResolve =>
    cases hTurn
    cases hTop
    exact ⟨request, Asked.now h hStep hAnswer, hResolve⟩

theorem Pushes.lt {i i' : Nat} {p : Place} {r r' : Run b} {recipe recipe' : b.Recipe}
    {body body' : b.Body} (h : s.Pushes world i p r recipe body)
    (h' : s.Pushes world i' p r' recipe' body') (hii' : i < i') :
    r.frames.pushed < r'.frames.pushed := by
  obtain ⟨x, hTurns, hPushed⟩ := h.turns
  obtain ⟨x', hTurns', -⟩ := h'.turns
  obtain ⟨f, hStep⟩ := hTurns'.steps
  have hNow : ∀ {j y r₁}, s.LastTurn world i j p x r → s.Turns world j p y r₁ →
      r.frames.pushed < r₁.frames.pushed := by
    intro j y r₁ hLast hNext
    rw [hLast.frames hNext, hPushed]
    exact Nat.lt_succ_self _
  rcases hTurns.last_or_next hii' with hLast | ⟨j, hj, hLast, y, r₁, hNext⟩
  · exact hNow hLast hTurns'
  · exact Nat.lt_of_lt_of_le (hNow hLast hNext) ((stacked_routed hStep).1.grown j hj y r₁ hNext)

theorem Pushes.unique {i i' : Nat} {p : Place} {r r' : Run b} {recipe recipe' : b.Recipe}
    {body body' : b.Body} (h : s.Pushes world i p r recipe body)
    (h' : s.Pushes world i' p r' recipe' body') (hSame : r.frames.pushed = r'.frames.pushed) :
    i = i' := by
  rcases Nat.lt_trichotomy i i' with hii' | hii' | hii'
  · exact absurd hSame (Nat.ne_of_lt (h.lt h' hii'))
  · exact hii'
  · exact absurd hSame.symm (Nat.ne_of_lt (h'.lt h hii'))

theorem await_unique {i i' : Nat} {p : Place} {x x' : Input} {r r' : Run b}
    {work work' : Work b.Recipe b.Note} {u u' : Uptake} (h : s.Turns world i p x r)
    (hTurn : (s.turned world i x r).turn = .await work u) (h' : s.Turns world i' p x' r')
    (hTurn' : (s.turned world i' x' r').turn = .await work' u') (hSame : r.wait = r'.wait) :
    i = i' := by
  rcases Nat.lt_trichotomy i i' with hii' | hii' | hii'
  · have := (wait_lt h h' hii').2 work u hTurn
    omega
  · exact hii'
  · have := (wait_lt h' h hii').2 work' u' hTurn'
    omega

theorem Asked.not_ended {i : Nat} {j : Nat} {p p' : Place} {x : Input} {r r' : Run b}
    {request : Request b.Recipe b.Note} {f c : Frame b.Body}
    (h : s.Asked world i j p r request f) (hStep : s.Steps world i p' x r' c) :
    (s.stepped world i c x).1.ended? = none := by
  obtain ⟨y, g, hAsks, -, hAnswer, -⟩ := h.step
  have hJob := hAsks.turns.job.symm.trans hStep.turns.job
  cases hJob
  obtain ⟨-, -, rfl⟩ := hAsks.unique hStep
  rw [hAnswer]
  rfl

theorem Settles.unique {i i' d j j' : Nat} {p p' : Place} {x x' : Input} {r r' : Run b}
    {request request' : Request b.Recipe b.Note} {f f' : Frame b.Body}
    (hAsked : s.Asked world i j p r request f) (h : s.Settles world i d j p r request x)
    (hAsked' : s.Asked world i' j' p' r' request' f')
    (h' : s.Settles world i' d j' p' r' request' x') : p = p' ∧ i = i' := by
  obtain ⟨y, hTurns⟩ := hAsked.turns
  obtain ⟨y', hTurns'⟩ := hAsked'.turns
  cases h with
  | result hResolve _ _ hDeliver =>
    cases h' with
    | result hResolve' _ _ hDeliver' =>
      rw [hDeliver] at hDeliver'
      obtain ⟨hPlace, -⟩ := Job.deliver.inj (Option.some.inj hDeliver')
      obtain ⟨hWait, rfl⟩ := List.cons.inj hPlace
      obtain ⟨z, hAwaits, hTurn⟩ := hAsked.awaits hResolve
      obtain ⟨z', hAwaits', hTurn'⟩ := hAsked'.awaits hResolve'
      exact ⟨rfl, await_unique hAwaits hTurn hAwaits' hTurn' hWait⟩
    | refused hdi =>
      have hJob := hTurns'.job
      rw [← hdi, hDeliver] at hJob
      cases hJob
    | returned _ hStep =>
      have hJob := hStep.turns.job
      rw [hDeliver] at hJob
      cases hJob
  | refused hdi =>
    subst hdi
    cases h' with
    | result _ _ _ hDeliver =>
      rw [hTurns.job] at hDeliver
      cases hDeliver
    | refused hdi =>
      subst hdi
      have hJob := hTurns.job.symm.trans hTurns'.job
      cases hJob
      exact ⟨rfl, rfl⟩
    | returned _ hStep _ _ _ hEnded =>
      rw [hAsked.not_ended hStep] at hEnded
      cases hEnded
  | returned hPushes hStep hSerial _ _ hEnded =>
    cases h' with
    | result _ _ _ hDeliver =>
      have hJob := hStep.turns.job
      rw [hDeliver] at hJob
      cases hJob
    | refused hdi =>
      subst hdi
      rw [hAsked'.not_ended hStep] at hEnded
      cases hEnded
    | returned hPushes' hStep' hSerial' =>
      have hJob := hStep.turns.job.symm.trans hStep'.turns.job
      cases hJob
      obtain ⟨-, -, rfl⟩ := hStep.unique hStep'
      exact ⟨rfl, hPushes.unique hPushes' (hSerial.symm.trans hSerial')⟩

/-! ## Nothing is lost -/

theorem not_parked_of_called {k d : Nat} {p : Place} {r : Run b} {u : Uptake} {o : Outcome}
    (hFind : (s.after world k).machine.nodes.find? p = some (.run r)) (hPhase : r.phase = .parked u)
    (hDeliver : s.job? world d = some (.deliver (r.wait :: p) o)) (hdk : d < k) : False := by
  have hs := s.sound world k
  have hFits := hs.fits p (hs.ne_nil_of_find? hFind)
  rw [hFind] at hFits
  have hParts : r.wait ∈ (s.after world k).machine.parts p := by
    cases hFits with
    | driving hDriving | invoking hDriving | notified hDriving =>
      rw [hDriving] at hPhase
      cases hPhase
    | parked _ _ hParts =>
      rw [show (s.after world k).machine.parts p = [r.wait] from hParts]
      exact List.mem_singleton_self _
  have hCalled := (s.called_log world).mpr ⟨d, hdk, hDeliver⟩
  exact (List.nodup_append'.mp hs.once).2.2 (Machine.mem_parts.mp hParts) (mem_closed hCalled rfl)

section

variable {k : Nat} (hRest : (s.after world k).AtRest)
include hRest

theorem not_mem_of_rest (job : Job b) : job ∉ (s.after world k).machine.agenda := by
  rw [show (s.after world k).machine.agenda = [] from hRest]
  exact List.not_mem_nil

theorem Turns.next_by_rest {l : Nat} {p : Place} {x y : Input} {r : Run b}
    (h : s.Turns world l p x r) (hTurn : (s.turned world l x r).turn = .next y) (hlk : l < k) :
    ∃ j < k, s.LastTurn world l j p x r ∧ ∃ r', s.Turns world j p y r' := by
  obtain ⟨i, -, hLimit, recipe, args, hStart⟩ := h.start
  rcases h.last_or_next hlk with hLast | ⟨j, hjk, hLast, z, r', hNext⟩
  · exfalso
    cases progress hLimit hStart (Nat.lt_trans (lt_of_turns hStart h) hlk) with
    | fresh _ _ hDrive | next _ _ _ hDrive | told _ _ _ _ _ hDrive =>
      exact not_mem_of_rest hRest _ hDrive
    | invoking _ _ _ _ _ hCheck => exact not_mem_of_rest hRest _ hCheck
    | parked hLast' hTurn' | ended hLast' hTurn' | gone hLast' hTurn' =>
      obtain ⟨rfl, rfl, rfl⟩ := hLast.unique hLast'
      rw [hTurn] at hTurn'
      cases hTurn'
  · refine ⟨j, hjk, hLast, r', ?_⟩
    have hFollows := hNext.follows hLimit hStart
    cases hFollows with
    | first hNone => exact absurd h.job (hNone l hLast.before x)
    | next hLast' hTurn' =>
      obtain ⟨rfl, rfl, rfl⟩ := hLast.unique hLast'
      rw [hTurn] at hTurn'
      cases hTurn'
      exact hNext
    | told hLast' hTurn' =>
      obtain ⟨rfl, rfl, rfl⟩ := hLast.unique hLast'
      rw [hTurn] at hTurn'
      cases hTurn'

theorem Turns.told_by_rest {l d : Nat} {p : Place} {x : Input} {r : Run b}
    {work : Work b.Recipe b.Note} {u : Uptake} {o : Outcome} (h : s.Turns world l p x r)
    (hTurn : (s.turned world l x r).turn = .await work u)
    (hDeliver : s.job? world d = some (.deliver (r.wait :: p) o)) (hld : l < d) (hdk : d < k) :
    ∃ j < k, s.LastTurn world l j p x r ∧ ∃ r' f request, s.Steps world j p (u.apply o) r' f ∧
      s.Asked world l j p r request f ∧ s.Settles world l d j p r request (u.apply o) := by
  obtain ⟨i, -, hLimit, recipe, args, hStart⟩ := h.start
  have hlk : l < k := Nat.lt_trans hld hdk
  rcases h.last_or_next hlk with hLast | ⟨j, hjk, hLast, z, r', hNext⟩
  · exfalso
    cases progress hLimit hStart (Nat.lt_trans (lt_of_turns hStart h) hlk) with
    | fresh _ _ hDrive | next _ _ _ hDrive | told _ _ _ _ _ hDrive =>
      exact not_mem_of_rest hRest _ hDrive
    | invoking _ _ _ _ _ hCheck => exact not_mem_of_rest hRest _ hCheck
    | parked hLast' _ hFind =>
      obtain ⟨rfl, rfl, rfl⟩ := hLast.unique hLast'
      exact not_parked_of_called hFind rfl hDeliver hdk
    | ended hLast' hTurn' =>
      obtain ⟨rfl, rfl, rfl⟩ := hLast.unique hLast'
      rw [hTurn] at hTurn'
      cases hTurn'
    | gone hLast' _ _ _ hDropped =>
      obtain ⟨rfl, rfl, rfl⟩ := hLast.unique hLast'
      have hCalled := (s.called_log world).mpr ⟨d, hdk, hDeliver⟩
      cases closed_unique hCalled hDropped rfl rfl
  · obtain ⟨f, hStep⟩ := hNext.steps
    obtain ⟨request, hAsked, hResolve⟩ := hLast.asked_of_await hTurn hStep
    have hFollows := hNext.follows hLimit hStart
    cases hFollows with
    | first hNone => exact absurd h.job (hNone l hLast.before x)
    | next hLast' hTurn' =>
      obtain ⟨rfl, rfl, rfl⟩ := hLast.unique hLast'
      rw [hTurn] at hTurn'
      cases hTurn'
    | told hLast' hTurn' _ _ hCalled hHow =>
      obtain ⟨rfl, rfl, rfl⟩ := hLast.unique hLast'
      rw [hTurn] at hTurn'
      cases hTurn'
      obtain rfl := deliver_unique hDeliver hCalled.2.2
      have hSame := hDeliver.symm.trans hCalled.2.2
      cases hSame
      exact ⟨j, hjk, hLast, r', f, request, hStep, hAsked,
        settles_of_told hLast hTurn hResolve hCalled hHow⟩

end

/-! ## Routing -/

variable (s world)

/-- Whom the outcome reaches with which move `d` calls the continuation `n :: p`: the join that
waits for this item, or the run that waits for this work, which has acted on it when all jobs are
done. -/
inductive Arrives (d n : Nat) (p : Place) (o : Outcome) : Prop where
  | item {i : Nat} {w work : Work b.Recipe b.Note} {ws : List (Work b.Recipe b.Note)} (hid : i < d)
      (hInvoke : s.job? world i = some (.invoke p (.gather (w :: ws))))
      (hItem : (w :: ws)[n]? = some work) (hResult : s.Result world d (n :: p) work.core o)
  | wait {i : Nat} {x : Input} {r : Run b} {work : Work b.Recipe b.Note} {u : Uptake} (hid : i < d)
      (hTurns : s.Turns world i p x r) (hTurn : (s.turned world i x r).turn = .await work u)
      (hWait : r.wait = n) (hResult : s.Result world d (n :: p) work.core o)
      (hActed : ∀ k, (s.after world k).AtRest → d < k → ∃ j < k, ∃ r' f request,
        s.Steps world j p (u.apply o) r' f ∧ s.Asked world i j p r request f ∧
          s.Settles world i d j p r request (u.apply o))

/-- What a schedule keeps to when it hands results to frames. A step of a frame is its first one,
made with the start, or it settles what the frame asked for in its last one. Each request for a
frame on top leads to a frame with a number of its own. A request is settled by one step at most,
and a result is used by one step at most, of one frame in one run. No outcome is lost that a
continuation of a run or a join is called with, nor an input with which a run goes on by itself. -/
structure Routing : Prop where
  routed : ∀ j p x r f, s.Steps world j p x r f → s.Routed world j p f x
  starts : ∀ j p x r f, s.Steps world j p x r f →
    (x = .start ↔ ∀ m < j, ∀ y r' g, s.Steps world m p y r' g → g.serial ≠ f.serial)
  numbered : ∀ i i' p r r' recipe recipe' body body', s.Pushes world i p r recipe body →
    s.Pushes world i' p r' recipe' body' → r.frames.pushed = r'.frames.pushed → i = i'
  settled : ∀ i j j' p x x' r r' r₁ r₁' request request' f f', s.Asked world i j p r request f →
    s.Steps world j p x r₁ f → s.Asked world i j' p r' request' f' → s.Steps world j' p x' r₁' f' →
      j = j'
  used : ∀ i i' d j j' p p' x x' r r' r₁ r₁' request request' f f',
    s.Asked world i j p r request f → s.Steps world j p x r₁ f →
      s.Settles world i d j p r request x → s.Asked world i' j' p' r' request' f' →
      s.Steps world j' p' x' r₁' f' → s.Settles world i' d j' p' r' request' x' → p = p' ∧ j = j'
  arrives : ∀ d n p o, p ≠ [] → s.job? world d = some (.deliver (n :: p) o) →
    s.Arrives world d n p o
  goes : ∀ k, (s.after world k).AtRest → ∀ l < k, ∀ p x y r, s.Turns world l p x r →
    (s.turned world l x r).turn = .next y →
      ∃ j < k, s.LastTurn world l j p x r ∧ ∃ r', s.Turns world j p y r'

variable {s world}

theorem Routed.starts {j : Nat} {p : Place} {x : Input} {f : Frame b.Body}
    (h : s.Routed world j p f x) :
    x = .start ↔ ∀ m < j, ∀ y r g, s.Steps world m p y r g → g.serial ≠ f.serial := by
  cases h with
  | first hNever => exact ⟨fun _ => hNever, fun _ => rfl⟩
  | settled hAsked hSettles =>
    refine ⟨fun hStart => absurd hStart hSettles.ne_start, fun hNever => ?_⟩
    obtain ⟨y, g, hStep, hSerial, -⟩ := hAsked.step
    exact absurd hSerial (hNever _ hAsked.before y _ g hStep)

theorem awaits_of_deliver {d n : Nat} {p : Place} {o : Outcome} {r : Run b}
    (hDeliver : s.job? world d = some (.deliver (n :: p) o))
    (hFind : (s.after world d).machine.nodes.find? p = some (.run r)) :
    ∃ i x r₀ work u, i < d ∧ s.Turns world i p x r₀ ∧
      (s.turned world i x r₀).turn = .await work u ∧ r₀.wait = n := by
  obtain ⟨rest, hAgenda, -⟩ := s.after_succ_of_job world hDeliver
  obtain ⟨i, hid, hLimit, recipe, args, hStart⟩ := origin hFind
  have hProgress := progress hLimit hStart hid
  cases (s.sound world d).run_step hAgenda hFind with
  | elsewhere hSite => exact absurd rfl hSite
  | mail hPhase =>
    obtain ⟨l, x, r₀, work, hLast, hTurn, rfl, -⟩ := hProgress.of_invoking hFind hPhase
    exact ⟨l, x, r₀, work, _, hLast.before, hLast.turns, hTurn, rfl⟩
  | wake hPhase =>
    obtain ⟨l, x, r₀, work, hLast, hTurn, -, rfl⟩ := hProgress.of_parked hFind hPhase
    exact ⟨l, x, r₀, work, _, hLast.before, hLast.turns, hTurn, rfl⟩

theorem arrives {d n : Nat} {p : Place} {o : Outcome} (hp : p ≠ [])
    (hDeliver : s.job? world d = some (.deliver (n :: p) o)) : s.Arrives world d n p o := by
  obtain ⟨rest, hAgenda, -⟩ := s.after_succ_of_job world hDeliver
  obtain ⟨node, hFind⟩ :=
    (s.sound world d).find?_of_site hAgenda hp rfl (by simp [Job.dormant])
  cases node with
  | run r =>
    obtain ⟨i, x, r₀, work, u, hid, hTurns, hTurn, rfl⟩ := awaits_of_deliver hDeliver hFind
    refine .wait hid hTurns hTurn rfl (result_of_deliver hTurns hTurn hDeliver) ?_
    intro k hRest hdk
    obtain ⟨j, hjk, -, hSettled⟩ := hTurns.told_by_rest hRest hTurn hDeliver hid hdk
    exact ⟨j, hjk, hSettled⟩
  | gather g =>
    obtain ⟨i, hid, w, ws, hInvoke⟩ := origin hFind
    have hLength := nested_of_gather hInvoke
    obtain ⟨c, -, work', hItem, hResult⟩ :=
      handed_of_deliver (mem_agenda_of_job hDeliver) (by simp; omega)
    obtain ⟨work, hWork, hCore⟩ := item_of_invoke hInvoke hItem
    have hSame : work'.core = work' := by cases hResult <;> rfl
    rw [hSame] at hCore
    rw [← hCore] at hResult
    exact .item hid hInvoke hWork hResult

/-- In every schedule each result goes to the frame, item or run that asked for it, and to no
other. -/
theorem routing (s : Schedule b) (world : b.World) : s.Routing world where
  routed j p x r f hStep := (stacked_routed hStep).2
  starts j p x r f hStep := (stacked_routed hStep).2.starts
  numbered i i' p r r' recipe recipe' body body' hPushes hPushes' hSame :=
    hPushes.unique hPushes' hSame
  settled i j j' p x x' r r' r₁ r₁' request request' f f' hAsked hStep hAsked' hStep' :=
    hAsked.unique hStep hAsked' hStep'
  used i i' d j j' p p' x x' r r' r₁ r₁' request request' f f' hAsked hStep hSettles hAsked' hStep'
      hSettles' := by
    obtain ⟨rfl, rfl⟩ := hSettles.unique hAsked hAsked' hSettles'
    exact ⟨rfl, hAsked.unique hStep hAsked' hStep'⟩
  arrives d n p o hp hDeliver := arrives hp hDeliver
  goes k hRest l hlk p x y r hTurns hTurn := hTurns.next_by_rest hRest hTurn hlk

end Schedule

end Interlace
