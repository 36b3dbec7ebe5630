import Interlace.Proofs.Lifecycle

/-!
# The stack of frames under any use

A stack is pushed to, popped and has its top frame called, in any order. It never grows beyond its
limit, the frames below the top one are out of reach, and what is pushed and popped again leaves
all frames that were there before as they were.
-/

namespace Interlace

variable {b : Behaviour}

namespace Frames

inductive Use (b : Behaviour) where
  | push (body : b.Body)
  | pop
  | call (c : Call b)

inductive Told (b : Behaviour) where
  | pushed
  | refused (e : Failure)
  | popped (frame : Except Fault (Option (Frame b.Body)))
  | called (result : Except Fault (Frame.Stepped b))
  | empty

def use (s : Frames b.Body) : Use b → Told b × Frames b.Body
  | .push body =>
    match s.push body with
    | .ok s => (.pushed, s)
    | .error e => (.refused e, s)
  | .pop =>
    match s.popFault? with
    | some fault => (.popped (.error fault), s.pop.2)
    | none => (.popped (.ok s.pop.1), s.pop.2)
  | .call c =>
    match s.top? with
    | none => (.empty, s)
    | some f => (.called (f.call c).1, s.setTop (f.call c).2)

def after (s : Frames b.Body) (uses : List (Use b)) : Frames b.Body :=
  uses.foldl (fun s u => (s.use u).2) s

variable {s : Frames b.Body} {f : Frame b.Body} {below : List (Frame b.Body)}

theorem after_cons (s : Frames b.Body) (u : Use b) (uses : List (Use b)) :
    s.after (u :: uses) = (s.use u).2.after uses := rfl

theorem after_concat (s : Frames b.Body) (uses : List (Use b)) (u : Use b) :
    s.after (uses ++ [u]) = ((s.after uses).use u).2 := by
  simp only [after, List.foldl_append, List.foldl_cons, List.foldl_nil]

theorem use_push_full (hFull : s.limit ≤ s.depth) (body : b.Body) :
    s.use (.push body) = (.refused (.tooDeep s.limit), s) := by
  simp only [use, push, if_pos hFull]

theorem use_push_room (hRoom : s.depth < s.limit) (body : b.Body) :
    s.use (.push body) = (.pushed, { s with
      frames := .fresh body s.pushed :: s.frames
      pushed := s.pushed + 1 }) := by
  simp only [use, push, if_neg (Nat.not_le_of_lt hRoom), Frame.fresh]

theorem use_pop (hs : s.frames = f :: below) :
    s.use .pop =
      (.popped (if f.stage.isFinal then .ok (some f) else .error .liveFramePopped),
        { s with frames := below }) := by
  cases hFinal : f.stage.isFinal <;> simp [use, popFault?, pop, top?, hs, hFinal]

theorem use_call (hs : s.frames = f :: below) (c : Call b) :
    s.use (.call c) = (.called (f.call c).1, { s with frames := (f.call c).2 :: below }) := by
  simp [use, setTop, top?, hs]

theorem use_pop_empty (hs : s.frames = []) : s.use .pop = (.popped (.ok none), s) := by
  obtain ⟨frames, limit, pushed⟩ := s
  cases hs
  rfl

theorem use_call_empty (hs : s.frames = []) (c : Call b) : s.use (.call c) = (.empty, s) := by
  simp [use, top?, hs]

end Frames

theorem Frame.call_serial (f : Frame b.Body) (c : Call b) : (f.call c).2.serial = f.serial := by
  cases hFault : f.fault? c.input with
  | some fault => rw [call_of_fault hFault]
  | none =>
    rw [call_of_none hFault]
    rfl

namespace Frames

/-! ## Frames are as many as the limit allows, and younger the higher they are -/

/-- How a stack is that was used in any way since it was empty. -/
structure Ranked (limit : Nat) (s : Frames b.Body) : Prop where
  limit_eq : s.limit = limit
  bounded : s.depth ≤ limit
  past : ∀ f ∈ s.frames, f.serial < s.pushed
  younger : s.frames.Pairwise fun f g => g.serial < f.serial

theorem ranked_empty (limit : Nat) : Ranked limit (empty limit : Frames b.Body) where
  limit_eq := rfl
  bounded := Nat.zero_le limit
  past := by simp [empty]
  younger := .nil

theorem Ranked.use {limit : Nat} {s : Frames b.Body} (h : s.Ranked limit) (u : Use b) :
    (s.use u).2.Ranked limit := by
  obtain ⟨hLimit, hBounded, hPast, hYounger⟩ := h
  cases u with
  | push body =>
    by_cases hFull : s.limit ≤ s.depth
    · rw [use_push_full hFull]
      exact ⟨hLimit, hBounded, hPast, hYounger⟩
    · rw [use_push_room (Nat.lt_of_not_le hFull)]
      refine ⟨hLimit, ?_, ?_, .cons hPast hYounger⟩
      · simp only [depth, List.length_cons] at hFull ⊢
        omega
      · intro f hf
        rcases List.mem_cons.mp hf with rfl | hf
        · exact Nat.lt_succ_self s.pushed
        · exact Nat.lt_succ_of_lt (hPast f hf)
  | pop =>
    cases hs : s.frames with
    | nil =>
      rw [use_pop_empty hs]
      exact ⟨hLimit, hBounded, hPast, hYounger⟩
    | cons f below =>
      rw [use_pop hs]
      rw [hs] at hPast hYounger
      simp only [depth, hs, List.length_cons] at hBounded
      exact ⟨hLimit, Nat.le_of_succ_le hBounded, fun g hg => hPast g (List.mem_cons_of_mem f hg),
        hYounger.of_cons⟩
  | call c =>
    cases hs : s.frames with
    | nil =>
      rw [use_call_empty hs]
      exact ⟨hLimit, hBounded, hPast, hYounger⟩
    | cons f below =>
      rw [use_call hs]
      rw [hs] at hPast hYounger
      simp only [depth, hs, List.length_cons] at hBounded
      refine ⟨hLimit, hBounded, ?_, ?_⟩
      · intro g hg
        rcases List.mem_cons.mp hg with rfl | hg
        · rw [Frame.call_serial]
          exact hPast f List.mem_cons_self
        · exact hPast g (List.mem_cons_of_mem f hg)
      · rw [List.pairwise_cons, Frame.call_serial]
        exact List.pairwise_cons.mp hYounger

theorem ranked_after (limit : Nat) (uses : List (Use b)) :
    ((empty limit).after uses).Ranked limit := by
  induction uses using List.reverseRecOn with
  | nil => exact ranked_empty limit
  | append_singleton uses u ih =>
    rw [after_concat]
    exact ih.use u

/-! ## What is pushed and popped again -/

/-- The stack `t` has a frame where `s` would have its next, and below it the frames of `s`. -/
def Over (s t : Frames b.Body) : Prop :=
  ∃ upper f, t.frames = upper ++ f :: s.frames ∧ f.serial = s.pushed

theorem over_push {s : Frames b.Body} (hRoom : s.depth < s.limit) (body : b.Body) :
    s.Over (s.use (.push body)).2 := by
  rw [use_push_room hRoom]
  exact ⟨[], .fresh body s.pushed, rfl, rfl⟩

theorem Over.use {s t : Frames b.Body} (h : s.Over t) {u : Use b}
    (hDeep : s.depth < (t.use u).2.depth) : s.Over (t.use u).2 := by
  obtain ⟨upper, f, ht, hf⟩ := h
  cases u with
  | push body =>
    by_cases hFull : t.limit ≤ t.depth
    · rw [use_push_full hFull]
      exact ⟨upper, f, ht, hf⟩
    · rw [use_push_room (Nat.lt_of_not_le hFull)]
      exact ⟨.fresh body t.pushed :: upper, f, by rw [ht, List.cons_append], hf⟩
  | pop =>
    cases upper with
    | nil =>
      rw [use_pop ht] at hDeep
      exact absurd hDeep (Nat.lt_irrefl s.depth)
    | cons g upper =>
      rw [use_pop ht]
      exact ⟨upper, f, rfl, hf⟩
  | call c =>
    cases upper with
    | nil =>
      rw [use_call ht]
      exact ⟨[], (f.call c).2, rfl, by rw [Frame.call_serial, hf]⟩
    | cons g upper =>
      rw [use_call ht]
      exact ⟨(g.call c).2 :: upper, f, rfl, hf⟩

/-- Uses that begin by putting `body` on top, do `mid`, where they do not take that frame off, and
end where it is on top again, next to be taken off. -/
structure Brackets (s : Frames b.Body) (body : b.Body) (mid : List (Use b)) : Prop where
  room : s.depth < s.limit
  above : ∀ m m', mid = m ++ m' → s.depth < (s.after (.push body :: m)).depth
  last : (s.after (.push body :: mid)).depth = s.depth + 1

theorem Brackets.over {s : Frames b.Body} {body : b.Body} {mid : List (Use b)}
    (h : s.Brackets body mid) (m m' : List (Use b)) (hMid : mid = m ++ m') :
    s.Over (s.after (.push body :: m)) := by
  induction m using List.reverseRecOn generalizing m' with
  | nil => exact over_push h.room body
  | append_singleton m u ih =>
    have hDeep := h.above (m ++ [u]) m' hMid
    rw [← List.cons_append, after_concat] at hDeep ⊢
    exact (ih (u :: m') (by rw [hMid, List.append_assoc]; rfl)).use hDeep

theorem Brackets.top {s : Frames b.Body} {body : b.Body} {mid : List (Use b)}
    (h : s.Brackets body mid) :
    ∃ f, (s.after (.push body :: mid)).frames = f :: s.frames ∧ f.serial = s.pushed := by
  obtain ⟨upper, f, hFrames, hf⟩ := h.over mid [] (List.append_nil mid).symm
  have hLast := h.last
  cases upper with
  | nil => exact ⟨f, hFrames, hf⟩
  | cons g upper =>
    simp only [depth, hFrames, List.length_append, List.length_cons] at hLast
    omega

/-! ## The stack in any use -/

/-- What holds of a stack of at most `limit` frames after any uses. A push is refused just if the
stack is full, and then the stack stays as it is. Otherwise there is one frame more, on top, which
is the youngest of all. A call changes the top frame and no other; if it is a fault, it changes
nothing. A pop takes off the youngest of the frames. If that has not ended it is a fault, but the
frame is off all the same. Where there is no frame nothing is called or taken off. What is pushed is
popped again with all that was there before as it was, and nothing in between touches it. -/
structure Nesting (limit : Nat) (s : Frames b.Body) : Prop where
  bounded : s.depth ≤ limit
  refused : ∀ body e, (s.use (.push body)).1 = .refused e ↔ s.depth = limit ∧ e = .tooDeep limit
  refused_eq : ∀ body, s.depth = limit → (s.use (.push body)).2 = s
  pushed : ∀ body, s.depth ≠ limit → (s.use (.push body)).1 = .pushed ∧
    (s.use (.push body)).2.frames = .fresh body s.pushed :: s.frames ∧
      (s.use (.push body)).2.pushed = s.pushed + 1 ∧ ∀ f ∈ s.frames, f.serial < s.pushed
  called : ∀ f below c, s.frames = f :: below → (s.use (.call c)).1 = .called (f.call c).1 ∧
    (s.use (.call c)).2 = { s with frames := (f.call c).2 :: below } ∧
      (f.call c).2.serial = f.serial ∧
        ∀ fault, (f.call c).1 = .error fault → (s.use (.call c)).2 = s
  popped : ∀ f below, s.frames = f :: below → (s.use .pop).2 = { s with frames := below } ∧
    (∀ g ∈ below, g.serial < f.serial) ∧
      (f.stage.isFinal = true → (s.use .pop).1 = .popped (.ok (some f))) ∧
        (f.stage.isFinal = false → (s.use .pop).1 = .popped (.error .liveFramePopped))
  bare : s.frames = [] → s.use .pop = (.popped (.ok none), s) ∧
    ∀ c, s.use (.call c) = (.empty, s)
  nested : ∀ body mid, s.Brackets body mid →
    (∀ m m', mid = m ++ m' →
      ∃ upper, upper ≠ [] ∧ (s.after (.push body :: m)).frames = upper ++ s.frames) ∧
      (∃ f, (s.after (.push body :: mid)).top? = some f ∧ f.serial = s.pushed) ∧
        (s.after (.push body :: mid ++ [.pop])).frames = s.frames

theorem nesting (limit : Nat) (uses : List (Use b)) :
    Nesting limit ((empty limit : Frames b.Body).after uses) := by
  have h : ((empty limit).after uses).Ranked limit := ranked_after limit uses
  generalize (empty limit : Frames b.Body).after uses = s at h
  obtain ⟨rfl, hBounded, hPast, hYounger⟩ := h
  exact {
    bounded := hBounded
    refused := by
      intro body e
      by_cases hFull : s.limit ≤ s.depth
      · rw [use_push_full hFull]
        have hEq : s.depth = s.limit := Nat.le_antisymm hBounded hFull
        simp [hEq, eq_comm]
      · rw [use_push_room (Nat.lt_of_not_le hFull)]
        have hNe : s.depth ≠ s.limit := fun hEq => hFull (Nat.le_of_eq hEq.symm)
        simp [hNe]
    refused_eq := by
      intro body hEq
      rw [use_push_full (Nat.le_of_eq hEq.symm)]
    pushed := by
      intro body hNe
      rw [use_push_room (Nat.lt_of_le_of_ne hBounded hNe)]
      exact ⟨rfl, rfl, rfl, hPast⟩
    called := by
      intro f below c hs
      rw [use_call hs]
      refine ⟨rfl, rfl, Frame.call_serial f c, ?_⟩
      intro fault hFault
      rw [Frame.call_of_error hFault, ← hs]
    popped := by
      intro f below hs
      rw [use_pop hs]
      rw [hs] at hYounger
      exact ⟨rfl, (List.pairwise_cons.mp hYounger).1, fun hFinal => by rw [if_pos hFinal],
        fun hFinal => by rw [if_neg (by simp [hFinal])]⟩
    bare := fun hs => ⟨use_pop_empty hs, use_call_empty hs⟩
    nested := by
      intro body mid hBrackets
      obtain ⟨f, hFrames, hf⟩ := hBrackets.top
      refine ⟨?_, ⟨f, by rw [top?, hFrames, List.head?_cons], hf⟩, ?_⟩
      · intro m m' hMid
        obtain ⟨upper, g, hOver, -⟩ := hBrackets.over m m' hMid
        exact ⟨upper ++ [g], by simp, by rw [hOver, List.append_assoc]; rfl⟩
      · rw [after_concat, use_pop hFrames]
  }

end Frames

namespace Script

def madeBy (limit : Nat) (maker : Maker) (w : World) : Body × World :=
  let (built, w) := (maker.build []).run w
  let recipe := match built with
    | .ok recipe => recipe
    | .error e => .failing e
  let (body, _, w) := make limit recipe [] w
  (body, w)

def pushed (s : Frames Body) (w : World) :
    Except Failure (Frames Body) → StackReply × Frames Body × World
  | .ok s => (.pushed, s, w)
  | .error e => (.refused e, s, w)

def useOf (library : Library) (limit : Nat) (w : World) :
    StackStep → Frames.Use (behaviour library limit)
  | .push maker => .push (madeBy limit maker w).1
  | .pop => .pop
  | .top step => .call ⟨step.input, w⟩

def replyOf {library : Library} {limit : Nat} : Frames.Told (behaviour library limit) → StackReply
  | .pushed => .pushed
  | .refused e => .refused e
  | .popped frame => .popped (frame.map (Option.map Frame.stage))
  | .called result => .stepped (frameReply result)
  | .empty => .empty

variable {library : Library} {limit : Nat}

theorem stepStack_push {s : Frames Body} {maker : Maker} {w : World}
    {result : Except Failure (Frames Body)} (h : s.push (madeBy limit maker w).1 = result) :
    stepStack library limit s w (.push maker) = pushed s (madeBy limit maker w).2 result := by
  rw [← h]
  rfl

theorem stepStack_use (s : Frames (behaviour library limit).Body) (w : World) (step : StackStep) :
    (stepStack library limit s w step).1 = replyOf (s.use (useOf library limit w step)).1 ∧
      (stepStack library limit s w step).2.1 = (s.use (useOf library limit w step)).2 := by
  cases step with
  | push maker =>
    cases hPush : s.push (madeBy limit maker w).1 with
    | ok s' =>
      have hUse : s.use (useOf library limit w (.push maker)) = (.pushed, s') := by
        simp only [useOf, Frames.use, hPush]
      rw [stepStack_push hPush, hUse]
      exact ⟨rfl, rfl⟩
    | error e =>
      have hUse : s.use (useOf library limit w (.push maker)) = (.refused e, s) := by
        simp only [useOf, Frames.use, hPush]
      rw [stepStack_push hPush, hUse]
      exact ⟨rfl, rfl⟩
  | pop =>
    obtain ⟨frames, most, pushed⟩ := s
    cases frames with
    | nil => exact ⟨rfl, rfl⟩
    | cons f below =>
      obtain ⟨body, stage, serial⟩ := f
      cases stage with
      | ready | suspended | completed | failed => exact ⟨rfl, rfl⟩
  | top step =>
    obtain ⟨frames, most, pushed⟩ := s
    cases frames with
    | nil => exact ⟨rfl, rfl⟩
    | cons f below =>
      obtain ⟨hReply, hFrame⟩ := stepFrame_call f step w
      refine ⟨congrArg StackReply.stepped hReply, ?_⟩
      exact congrArg (fun f : Frame Body => (⟨f :: below, most, pushed⟩ : Frames Body)) hFrame

end Script

end Interlace
