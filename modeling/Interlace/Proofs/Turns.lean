import Interlace.Proofs.Frames

/-!
# The five ways of a turn

A frame on top ends, and is the last one or not; or it asks for a coroutine on top of it, for which
there is room or not; or it asks for work.
-/

namespace Interlace

variable {b : Behaviour}

/-- The outcome with which an answer ends its coroutine. An error value that is given is a
failure. -/
def Answer.ended? {Recipe Note : Type} : Answer Recipe Note → Option Outcome
  | .wait _ => none
  | .give (.error p) => some (.error (.ofReturned p))
  | .give d => some (.ok d)
  | .raise e => some (.error e)

namespace Frames

inductive TurnCase (s : Frames b.Body) (f : Frame b.Body) (below : List (Frame b.Body)) (x : Input)
    (w : b.World) : Turned b → Prop where
  | finished {o : Outcome} (hEnded : (b.step f.body x w).1.ended? = some o) (hBelow : below = []) :
      TurnCase s f below x w
        ⟨.finished o, { s with frames := [] }, (b.step f.body x w).2.2.1, (b.step f.body x w).2.2.2⟩
  | returned {o : Outcome} (hEnded : (b.step f.body x w).1.ended? = some o) (hBelow : below ≠ []) :
      TurnCase s f below x w ⟨.next (.ofOutcome o), { s with frames := below },
        (b.step f.body x w).2.2.1, (b.step f.body x w).2.2.2⟩
  | pushed {recipe : b.Recipe} (hAnswer : (b.step f.body x w).1 = .wait (.inner recipe))
      (hRoom : below.length + 1 < s.limit) :
      TurnCase s f below x w ⟨.next .start, { s with
          frames := ⟨(b.make recipe [] (b.step f.body x w).2.2.2).1, .ready, s.pushed⟩ ::
            ⟨(b.step f.body x w).2.1, .suspended, f.serial⟩ :: below
          pushed := s.pushed + 1 },
        (b.step f.body x w).2.2.1 ++ (b.make recipe [] (b.step f.body x w).2.2.2).2.1,
        (b.make recipe [] (b.step f.body x w).2.2.2).2.2⟩
  | refused {recipe : b.Recipe} (hAnswer : (b.step f.body x w).1 = .wait (.inner recipe))
      (hFull : s.limit ≤ below.length + 1) :
      TurnCase s f below x w ⟨.next (.failure (.tooDeep s.limit)),
        { s with frames := ⟨(b.step f.body x w).2.1, .suspended, f.serial⟩ :: below },
        (b.step f.body x w).2.2.1 ++ (b.make recipe [] (b.step f.body x w).2.2.2).2.1,
        (b.make recipe [] (b.step f.body x w).2.2.2).2.2⟩
  | awaited {request : Request b.Recipe b.Note} {work : Work b.Recipe b.Note} {u : Uptake}
      (hAnswer : (b.step f.body x w).1 = .wait request)
      (hResolve : request.resolve s.limit = .await work u) :
      TurnCase s f below x w ⟨.await work u,
        { s with frames := ⟨(b.step f.body x w).2.1, .suspended, f.serial⟩ :: below },
        (b.step f.body x w).2.2.1, (b.step f.body x w).2.2.2⟩

theorem TurnCase.unique {s : Frames b.Body} {f : Frame b.Body} {below : List (Frame b.Body)}
    {x : Input} {w : b.World} {t t' : Turned b} (h : s.TurnCase f below x w t)
    (h' : s.TurnCase f below x w t') : t = t' := by
  -- The answer, and the room that is left, decide which way it is.
  cases h <;> cases h' <;> grind [Answer.ended?, Request.resolve]

theorem conclude_cases {s : Frames b.Body} {f : Frame b.Body} {below : List (Frame b.Body)}
    (hs : s.frames = f :: below) (hFinal : f.stage.isFinal = true) (o : Outcome)
    (notes : List b.Note) (w : b.World) :
    (below = [] ∧ s.conclude b o notes w = ⟨.finished o, { s with frames := [] }, notes, w⟩) ∨
      below ≠ [] ∧
        s.conclude b o notes w = ⟨.next (.ofOutcome o), { s with frames := below }, notes, w⟩ := by
  have hFault : s.popFault? = none := by simp [popFault?, top?, hs, hFinal]
  rw [conclude, hFault]
  cases below with
  | nil => exact Or.inl ⟨rfl, by simp [pop, isEmpty, hs]⟩
  | cons g below => exact Or.inr ⟨by simp, by simp [pop, isEmpty, hs]⟩

theorem delegate_full {s : Frames b.Body} (hFull : s.limit ≤ s.depth) (recipe : b.Recipe)
    (notes : List b.Note) (w : b.World) :
    s.delegate b recipe notes w = ⟨.next (.failure (.tooDeep s.limit)), s,
      notes ++ (b.make recipe [] w).2.1, (b.make recipe [] w).2.2⟩ := by
  simp only [delegate, push, if_pos hFull]

theorem delegate_room {s : Frames b.Body} (hRoom : s.depth < s.limit) (recipe : b.Recipe)
    (notes : List b.Note) (w : b.World) :
    s.delegate b recipe notes w = ⟨.next .start, { s with
        frames := ⟨(b.make recipe [] w).1, .ready, s.pushed⟩ :: s.frames
        pushed := s.pushed + 1 },
      notes ++ (b.make recipe [] w).2.1, (b.make recipe [] w).2.2⟩ := by
  simp only [delegate, push, if_neg (Nat.not_le_of_lt hRoom)]

theorem turn_case {s : Frames b.Body} {f : Frame b.Body} {below : List (Frame b.Body)} {x : Input}
    (hs : s.frames = f :: below) (hStage : f.stage = x.stage) (w : b.World) :
    s.TurnCase f below x w (s.turn b x w) := by
  rcases hStep : b.step f.body x w with ⟨answer, body, notes, w'⟩
  have hAnswer : (b.step f.body x w).1 = answer := by rw [hStep]
  have hEnds : ∀ {stage : Stage} (o : Outcome), stage.isFinal = true → answer.ended? = some o →
      s.TurnCase f below x w
        (conclude b { s with frames := ⟨body, stage, f.serial⟩ :: below } o notes w') := by
    intro stage o hFinal hEnded
    rw [← hAnswer] at hEnded
    rcases conclude_cases (s := { s with frames := ⟨body, stage, f.serial⟩ :: below }) rfl hFinal o
      notes w' with ⟨hBelow, hEq⟩ | ⟨hBelow, hEq⟩
    · rw [hEq]
      simpa [hStep] using TurnCase.finished (s := s) hEnded hBelow
    · rw [hEq]
      simpa [hStep] using TurnCase.returned (s := s) hEnded hBelow
  rw [turn_eq hs hStage hStep]
  cases answer with
  | raise e => exact hEnds (.error e) rfl rfl
  | give d =>
    cases d with
    | error p => exact hEnds (.error (.ofReturned p)) rfl rfl
    | _ => exact hEnds (.ok _) rfl rfl
  | wait request =>
    dsimp only [Answer.suspension, Suspension.stage]
    cases hResolve : request.resolve s.limit with
    | await work u =>
      have hCase : TurnCase s f below x w _ := .awaited hAnswer hResolve
      simpa [hStep] using hCase
    | push recipe =>
      have hInner : request = .inner recipe := by
        cases request with
        | inner recipe' =>
          cases hResolve
          rfl
        | single | all | caught => cases hResolve
      subst hInner
      dsimp only
      by_cases hFull : s.limit ≤ below.length + 1
      · rw [delegate_full hFull]
        simpa [hStep] using TurnCase.refused (s := s) hAnswer hFull
      · rw [delegate_room (Nat.lt_of_not_le hFull)]
        simpa [hStep] using TurnCase.pushed (s := s) hAnswer (Nat.lt_of_not_le hFull)

end Frames

end Interlace
