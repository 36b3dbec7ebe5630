import Interlace.Frame

/-!
# The shape of a stack between its turns

A stack that waits is `Asleep`: all its frames are suspended. A stack that is about to be stepped
with an input is `Poised` for it: the frames below the top one are suspended, and the top one is
ready or suspended as the input asks. A turn leads from a poised stack to a poised stack, to one
that is asleep or to the end of the bottom frame, but never to a fault.
-/

namespace Interlace

variable {b : Behaviour} {Body : Type}

def Input.stage (x : Input) : Stage := if x.isStart then .ready else .suspended

@[simp] theorem Input.stage_ofOutcome (o : Outcome) : (Input.ofOutcome o).stage = .suspended := by
  cases o <;> rfl

@[simp] theorem Uptake.stage_apply (u : Uptake) (o : Outcome) : (u.apply o).stage = .suspended := by
  cases u with
  | throwing => exact Input.stage_ofOutcome o
  | capturing => rfl

namespace Frames

structure Asleep (s : Frames Body) : Prop where
  nonempty : s.frames ≠ []
  within : s.depth ≤ s.limit
  suspended : ∀ f ∈ s.frames, f.stage = .suspended

structure Poised (s : Frames Body) (x : Input) : Prop where
  within : s.depth ≤ s.limit
  top : ∃ f rest, s.frames = f :: rest ∧ f.stage = x.stage ∧ ∀ g ∈ rest, g.stage = .suspended

theorem Asleep.poised {s : Frames Body} (h : s.Asleep) {x : Input} (hx : x.stage = .suspended) :
    s.Poised x := by
  cases hs : s.frames with
  | nil => exact absurd hs h.nonempty
  | cons f rest =>
    have hAll := h.suspended
    rw [hs] at hAll
    exact ⟨h.within, f, rest, hs, (hAll f List.mem_cons_self).trans hx.symm,
      fun g hg => hAll g (List.mem_cons_of_mem f hg)⟩

end Frames

theorem Frame.fault?_of_stage {f : Frame Body} {x : Input} (h : f.stage = x.stage) :
    f.fault? x = none := by
  cases x <;> simp [Frame.fault?, h, Input.stage, Input.isStart, Stage.isFinal]

/-- What a turn leads to, as far as the shape of the stack goes. -/
def Turned.Sound (t : Turned b) (limit : Nat) : Prop :=
  t.frames.limit = limit ∧
    match t.turn with
    | .next x => t.frames.Poised x
    | .await _ _ => t.frames.Asleep
    | .finished _ => t.frames.frames = []
    | .fault _ => False

namespace Frames

theorem conclude_sound {s : Frames b.Body} {f : Frame b.Body} {rest : List (Frame b.Body)}
    (hs : s.frames = f :: rest) (hFinal : f.stage.isFinal = true) (hWithin : s.depth ≤ s.limit)
    (hRest : ∀ g ∈ rest, g.stage = .suspended) (o : Outcome) (notes : List b.Note) (w : b.World) :
    (s.conclude b o notes w).Sound s.limit := by
  have hFault : s.popFault? = none := by simp [popFault?, top?, hs, hFinal]
  rw [conclude, hFault]
  cases rest with
  | nil => simp [Turned.Sound, pop, isEmpty, hs]
  | cons g rest =>
    simp only [pop, isEmpty, hs, List.tail_cons, List.isEmpty_cons, Bool.false_eq_true, if_false]
    refine ⟨rfl, ?_, g, rest, rfl, ?_, fun g' hg => hRest g' (List.mem_cons_of_mem g hg)⟩
    · have hDepth : s.depth = rest.length + 2 := by simp [depth, hs]
      simp only [depth, List.length_cons]
      omega
    · rw [Input.stage_ofOutcome]
      exact hRest g List.mem_cons_self

theorem delegate_sound {s : Frames b.Body} (h : s.Asleep) (recipe : b.Recipe)
    (notes : List b.Note) (w : b.World) : (s.delegate b recipe notes w).Sound s.limit := by
  rw [delegate]
  rcases b.make recipe [] w with ⟨body, made, w⟩
  by_cases hFull : s.limit ≤ s.depth
  · simp only [push, if_pos hFull]
    exact ⟨rfl, h.poised rfl⟩
  · simp only [push, if_neg hFull]
    refine ⟨rfl, ?_, _, s.frames, rfl, rfl, h.suspended⟩
    simp only [depth, List.length_cons] at hFull ⊢
    omega

theorem turn_eq {s : Frames b.Body} {x : Input} {f : Frame b.Body} {rest : List (Frame b.Body)}
    (hs : s.frames = f :: rest) (hStage : f.stage = x.stage) {w w' : b.World}
    {answer : Answer b.Recipe b.Note} {body : b.Body} {notes : List b.Note}
    (hStep : b.step f.body x w = (answer, body, notes, w')) :
    s.turn b x w =
      let s' : Frames b.Body :=
        { s with frames := ⟨body, answer.suspension.stage, f.serial⟩ :: rest }
      match answer.suspension with
      | .completed d => s'.conclude b (.ok d) notes w'
      | .failed e => s'.conclude b (.error e) notes w'
      | .yielded request =>
        match request.resolve s.limit with
        | .push recipe => s'.delegate b recipe notes w'
        | .await work uptake => ⟨.await work uptake, s', notes, w'⟩ := by
  have hTop : s.top? = some f := by simp [top?, hs]
  have hFault : f.fault? x = none := Frame.fault?_of_stage hStage
  have hAdvance : f.advance b x w =
      .ok ⟨answer.suspension, ⟨body, answer.suspension.stage, f.serial⟩, notes, w'⟩ := by
    simp only [Frame.advance, hFault, Frame.stepBody, hStep]
  have hSet : ∀ g, s.setTop g = { s with frames := g :: rest } := by simp [setTop, hs]
  cases hSuspension : answer.suspension with
  | completed | failed => simp only [turn, hTop, hAdvance, hSet, hSuspension]
  | yielded request =>
    cases hResolve : request.resolve s.limit with
    | push | await => simp only [turn, hTop, hAdvance, hSet, hSuspension, hResolve]

theorem turn_sound {s : Frames b.Body} {x : Input} (h : s.Poised x) (w : b.World) :
    (s.turn b x w).Sound s.limit := by
  obtain ⟨f, rest, hs, hStage, hRest⟩ := h.top
  rcases hStep : b.step f.body x w with ⟨answer, body, notes, w'⟩
  rw [turn_eq hs hStage hStep]
  have hWithin : rest.length + 1 ≤ s.limit := by simpa [depth, hs] using h.within
  cases answer.suspension with
  | completed d =>
    exact conclude_sound (s := { s with frames := _ :: rest }) rfl rfl hWithin hRest
      (.ok d) notes w'
  | failed e =>
    exact conclude_sound (s := { s with frames := _ :: rest }) rfl rfl hWithin hRest
      (.error e) notes w'
  | yielded request =>
    have hAsleep : ({ s with frames := ⟨body, .suspended, f.serial⟩ :: rest } :
        Frames b.Body).Asleep := by
      refine ⟨by simp, hWithin, ?_⟩
      intro g hg
      rcases List.mem_cons.mp hg with rfl | hg
      · rfl
      · exact hRest g hg
    dsimp only [Suspension.stage]
    cases request.resolve s.limit with
    | push recipe => exact delegate_sound hAsleep recipe notes w'
    | await work uptake => exact ⟨rfl, hAsleep⟩

theorem completed_ne_error {answer : Answer b.Recipe b.Note} {d : Datum}
    (h : answer.suspension = .completed d) (problem : Problem) : d ≠ .error problem := by
  rintro rfl
  fun_cases Answer.suspension answer <;> simp_all [Answer.suspension]

theorem finished_conclude {s : Frames b.Body} {o o' : Outcome} {notes : List b.Note} {w : b.World}
    (h : (s.conclude b o notes w).turn = .finished o') : o' = o := by
  rw [conclude] at h
  split at h
  · cases h
  · dsimp only at h
    split at h <;> cases h
    rfl

theorem finished_ne_error {s : Frames b.Body} {x : Input} {w : b.World} {o : Outcome}
    (h : (s.turn b x w).turn = .finished o) (problem : Problem) : o ≠ .ok (.error problem) := by
  rw [turn] at h
  split at h
  · cases h
  · rename_i f hTop
    rw [Frame.advance] at h
    cases hFault : f.fault? x with
    | some fault =>
      rw [hFault] at h
      cases h
    | none =>
      rw [hFault] at h
      dsimp only at h
      rcases hStep : b.step f.body x w with ⟨answer, body, notes, w'⟩
      simp only [Frame.stepBody, hStep] at h
      cases hSuspension : answer.suspension with
      | completed d =>
        rw [hSuspension] at h
        rw [finished_conclude h]
        intro hEq
        exact completed_ne_error hSuspension problem (Except.ok.inj hEq)
      | failed e =>
        rw [hSuspension] at h
        rw [finished_conclude h]
        simp
      | yielded request =>
        rw [hSuspension] at h
        dsimp only at h
        split at h
        · rw [delegate] at h
          dsimp only at h
          split at h <;> cases h
        · cases h

end Frames

end Interlace
