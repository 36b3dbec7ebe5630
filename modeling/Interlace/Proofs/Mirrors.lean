import Interlace.Proofs.Parting
import Interlace.Proofs.Programs
import Interlace.Proofs.Sessions

/-!
# A schedule that goes along

After the parting a schedule mirrors the first one if it makes the same moves, under the new names,
and if nothing else happens while it passes on what is between the parent and the child. So what
completes an operation of the child comes inside of the operation, or when the call is over that
was driving the parent. Until the child has ended, both schedules stand abreast.
-/

namespace Interlace

variable {b : Behaviour}

namespace Schedule

variable {s : Schedule b} {world : b.World}

theorem job?_congr {s s' : Schedule b} (world : b.World) {k : Nat} (hSame : ∀ j ≤ k, s j = s' j) :
    s.job? world k = s'.job? world k := by
  rw [job?, job?, hSame k (Nat.le_refl k),
    after_congr world fun j hj => hSame j (Nat.le_of_lt hj)]

theorem Steps.works {k : Nat} {p : Place} {x : Input} {r : Run b} {f : Frame b.Body}
    (h : s.Steps world k p x r f) : s k = .work := ((s.job?_eq_some world).mp h.turns.job).1

theorem Steps.not_again {m l : Nat} {p : Place} {x y : Input} {r r' : Run b} {f c : Frame b.Body}
    {o : Outcome} (hEnd : s.Steps world m p x r f)
    (hEnded : (s.stepped world m f x).1.ended? = some o) (hml : m < l)
    (hStep : s.Steps world l p y r' c) : c.serial ≠ f.serial := by
  intro hSame
  -- By induction on the steps of the frame after its end: the first of them would settle a request.
  induction l using Nat.strongRecOn generalizing y r' c with
  | ind l ih =>
    cases (stacked_routed hStep).2 with
    | first hNever => exact hNever m hml x r f hEnd hSame.symm
    | @settled i _ _ _ _ hAsked =>
      obtain ⟨z, g, hAsks, hSerial, hAnswer, -⟩ := hAsked.step
      rcases Nat.lt_trichotomy m i with hmi | rfl | him
      · exact ih _ hAsked.before hmi hAsks (hSerial.trans hSame)
      · obtain ⟨rfl, -, rfl⟩ := hEnd.unique hAsks
        rw [hAnswer] at hEnded
        cases hEnded
      · exact hAsked.dozes m him hml x r f hEnd hSame.symm

theorem Steps.after_end {l : Nat} {p : Place} {x : Input} {r : Run b} {f : Frame b.Body}
    {below : List (Frame b.Body)} {o : Outcome} (h : s.Steps world l p x r f)
    (hFrames : r.frames.frames = f :: below) (hBelow : below ≠ [])
    (hEnded : (s.stepped world l f x).1.ended? = some o) :
    ∃ r', (s.after world (l + 1)).machine.nodes.find? p = some (.run r') ∧
      r'.frames.frames = below := by
  obtain ⟨below', hFrames', hCase⟩ := h.case
  rw [hFrames] at hFrames'
  obtain ⟨-, rfl⟩ := List.cons.inj hFrames'
  have hTurned := hCase.unique (.returned hEnded hBelow)
  rw [turned] at hTurned
  obtain ⟨rest, -, hAfter⟩ := s.after_succ_of_job world h.turns.job
  have hPerform := Machine.perform_drive_next
    (m := { (s.after world l).machine with agenda := rest }) h.turns.find
    (congrArg Turned.turn hTurned)
  rw [hAfter, History.machine_afterJob, Machine.afterJob, hPerform]
  refine ⟨_, Table.find?_update_self _ _ _, ?_⟩
  dsimp only
  rw [hTurned]

end Schedule

/-! ## Passing on in a schedule -/

namespace Detour

variable {e : Detour b} {s : Schedule b} {world : b.World}

theorem passes_of_jobs {a c : Nat} (hac : a ≤ c) (hJobs : ∀ n, a ≤ n → n < c →
      ∃ job, s.job? world n = some job ∧ e.Passing job) :
    e.Passes (s.after world a).machine (s.after world c).machine ∧
      (s.after world c).begun = (s.after world a).begun := by
  induction hac with
  | refl => exact ⟨.refl _, rfl⟩
  | @step c hac ih =>
    obtain ⟨hPasses, hBegun⟩ := ih fun n han hnc => hJobs n han (Nat.lt_succ_of_lt hnc)
    obtain ⟨job, hJob, hPassing⟩ := hJobs c hac (Nat.lt_succ_self c)
    obtain ⟨rest, hAgenda, hAfter⟩ := s.after_succ_of_job world hJob
    refine ⟨hPasses.trans (.step hAgenda hPassing ?_), ?_⟩
    · rw [hAfter]
      exact .refl _
    · rw [hAfter]
      exact hBegun

theorem Passes.moves {m m' : Machine b} (h : e.Passes m m') {a : Nat}
    (hWork : ∀ n, a ≤ n → s n = .work) (hMachine : (s.after world a).machine = m) :
    ∃ c, a ≤ c ∧ (s.after world c).machine = m' ∧ ∀ n, a ≤ n → n < c →
      ∃ job, s.job? world n = some job ∧ e.Passing job := by
  induction h generalizing a with
  | refl => exact ⟨a, Nat.le_refl a, hMachine, fun n han hna => by omega⟩
  | @step m m' job rest hAgenda hPassing _ ih =>
    subst hMachine
    have hJob : s.job? world a = some job :=
      (s.job?_eq_some world).mpr ⟨hWork a (Nat.le_refl a), rest, hAgenda⟩
    obtain ⟨rest', hAgenda', hAfter⟩ := s.after_succ_of_job world hJob
    rw [hAgenda] at hAgenda'
    obtain ⟨-, rfl⟩ := List.cons.inj hAgenda'
    obtain ⟨c, hac, hMachine, hJobs⟩ := ih (a := a + 1)
      (fun n han => hWork n (Nat.le_of_succ_le han)) (by rw [hAfter]; rfl)
    refine ⟨c, Nat.le_of_succ_le hac, hMachine, fun n han hnc => ?_⟩
    rcases Nat.eq_or_lt_of_le han with rfl | han
    · exact ⟨job, hJob, hPassing⟩
    · exact hJobs n han hnc

theorem steps_of_jobs {a c : Nat} (hac : a ≤ c) (hJobs : ∀ n, a ≤ n → n < c →
      ∃ job, s.job? world n = some job ∧ e.Passing job) (x : Place) :
    s.steps world x c = s.steps world x a := by
  induction hac with
  | refl => rfl
  | @step c hac ih =>
    obtain ⟨job, hJob, hPassing⟩ := hJobs c hac (Nat.lt_succ_self c)
    have hNone : s.step? world x c = none := by
      refine Schedule.step?_of_none fun y hDrive => ?_
      rw [hJob] at hDrive
      cases hDrive
      exact hPassing
    rw [Schedule.steps, hNone, ih fun n han hnc => hJobs n han (Nat.lt_succ_of_lt hnc)]
    exact List.append_nil _

end Detour

theorem Relocation.begun_move {e : Relocation} {h h' : History b} (hBegun : h'.begun = h.begun)
    (mv : Move b) : (h'.move (e.move mv)).begun = (h.move mv).begun := by
  have hWork : ∀ h : History b, (h.move .work).begun = h.begun := by
    intro h
    rw [History.move]
    split <;> rfl
  cases mv with
  | work => rw [Relocation.move, hWork, hWork, hBegun]
  | begin n recipe args limit =>
    rw [Relocation.move, History.move, History.move, hBegun]
    split
    · exact hBegun
    · rfl
  | call | drop => exact hBegun

namespace Parting

variable {s s' : Schedule b} {world world' : b.World} (P : Parting s s' world world')

/-- Up to move `l` the stack of the parent and the child has room for each frame that is asked
for. -/
def Roomy (l : Nat) : Prop :=
  ∀ m, P.move ≤ m → m ≤ l → ∀ x r f recipe, s.Steps world m P.place x r f →
    (s.stepped world m f x).1 = .wait (.inner recipe) → r.frames.depth < r.frames.limit

/-- Move `l` steps the child for the last time: it ends with an outcome. -/
structure Ending (l : Nat) (x : Input) (r : Run b) (c : Frame b.Body) (o : Outcome) : Prop where
  steps : s.Steps world l P.place x r c
  serial : c.serial = P.run.frames.pushed
  ended : (s.stepped world l c x).1.ended? = some o

/-- From move `a` until move `c` the schedule `s₁` does what move `m` of the first one does: it
makes the same move and passes on what there is to pass on. -/
structure Mirrored (s₁ : Schedule b) (m a c : Nat) : Prop where
  move : s₁ a = P.detour.relocation.move (s m)
  later : a < c
  passes : ∀ n, a < n → n < c → ∃ job, s₁.job? world' n = some job ∧ P.detour.Passing job
  clear : P.detour.Clear (s₁.after world' c).machine

/-- The schedule `s₁`, which is the second one up to the parting, goes along with the first one
until its move `k`: move `m` of the first one is made from move `t m` on. -/
structure Mirrors (s₁ : Schedule b) (t : Nat → Nat) (k : Nat) : Prop where
  before : ∀ n < P.move', s₁ n = s' n
  first : t P.move = P.move'
  each : ∀ m, P.move ≤ m → m < k → P.Mirrored s₁ m (t m) (t (m + 1))

structure Level (s₁ : Schedule b) (n m : Nat) (parked : Bool) : Prop where
  begun : (s₁.after world' n).begun = (s.after world m).begun
  abreast : P.detour.Abreast parked (s.after world m).machine (s₁.after world' n).machine
  parks : parked = true ↔ ∃ l, P.move < l ∧ l < m ∧ s.Parks world l P.place

inductive Advance (m : Nat) (parked : Bool) (h' : History b) : Prop where
  | goes {parked' : Bool} {m' : Machine b}
      (hPasses : P.detour.Passes (h'.move (P.detour.relocation.move (s m))).machine m')
      (hAbreast : P.detour.Abreast parked' (s.after world (m + 1)).machine m')
      (hParks : parked' = true ↔ parked = true ∨ s.Parks world m P.place) : Advance m parked h'
  | ends {m' : Machine b} {x : Input} {r c : Run b} {f : Frame b.Body} {o : Outcome}
      (hPasses : P.detour.Passes (h'.move (P.detour.relocation.move (s m))).machine m')
      (hEnding : P.Ending m x r f o)
      (hDrive : h'.machine.agenda.head? = some (.drive P.detour.child x))
      (hFind' : h'.machine.nodes.find? P.detour.child = some (.run c))
      (hTurn' : (c.frames.turn b x h'.machine.world).turn = .finished o)
      (hResumed : P.detour.Resumed parked o (s.after world (m + 1)).machine m') :
      Advance m parked h'
  | gone (hFind : (s.after world (m + 1)).machine.nodes.find? P.place = none)
      (hReturned : P.place ∈ (s.after world (m + 1)).returned) : Advance m parked h'

variable {P}

theorem advance {l m : Nat} (hRoomy : P.Roomy l) (hm : P.move ≤ m) (hml : m ≤ l) {parked : Bool}
    {h' : History b} (hBegun : h'.begun = (s.after world m).begun)
    (hAbreast : P.detour.Abreast parked (s.after world m).machine h'.machine) :
    P.Advance m parked h' := by
  rcases s.after_succ world m with ⟨job, rest, hJob, hAgenda, hAfter⟩ | ⟨hNone, put, hAdded⟩
  case inr =>
    have hIdle : s m = .work → (s.after world m).machine.agenda = [] := by
      intro hWork
      rw [Schedule.job?, hWork] at hNone
      exact List.head?_eq_none_iff.mp hNone
    refine .goes (.refl _) (hAbreast.move hBegun hIdle) ?_
    simp [Schedule.Parks, hNone]
  have hWork := ((s.job?_eq_some world).mp hJob).1
  have hMove : ∀ {rest'}, h'.machine.agenda = P.detour.relocation.job job :: rest' →
      (h'.move (P.detour.relocation.move (s m))).machine =
        h'.machine.afterJob (P.detour.relocation.job job) rest' := by
    intro rest' hAgenda'
    rw [hWork, Relocation.move, History.move, hAgenda']
    rfl
  have hOnward := hAbreast.onward (s.sound world m) (List.cons_ne_nil _ _) hAgenda
    fun x r f recipe hDrive hFind hTop hAnswer =>
      hRoomy m hm hml x r f recipe ⟨⟨hJob.trans (congrArg some hDrive), hFind⟩, hTop⟩ hAnswer
  have hMachine : (s.after world (m + 1)).machine = (s.after world m).machine.afterJob job rest :=
    congrArg History.machine hAfter
  cases hOnward with
  | goes hAgenda' hPasses hParks hAbreast' =>
    rw [← hMove hAgenda'] at hPasses
    rw [← hMachine] at hAbreast'
    refine .goes hPasses hAbreast' ⟨Or.inl, ?_⟩
    rintro (hParked | ⟨hCheck, r, u, hFind, hPhase⟩)
    · exact hParked
    · exact absurd ⟨r, u, Option.some.inj (hJob.symm.trans hCheck), hFind, hPhase⟩ hParks
  | parks hAgenda' hPasses hCheck hFind hPhase hAbreast' =>
    rw [← hMove hAgenda'] at hPasses
    rw [← hMachine] at hAbreast'
    have hParks : s.Parks world m P.place :=
      ⟨hJob.trans (congrArg some hCheck), _, _, hFind, hPhase⟩
    exact .goes hPasses hAbreast' ⟨fun _ => Or.inr hParks, fun _ => rfl⟩
  | ends hAgenda' hPasses hDrive hFind hTop hSerial hEnded hFind' hTurn' hResumed =>
    rw [← hMove hAgenda'] at hPasses
    rw [← hMachine] at hResumed
    have hSteps : s.Steps world m P.place _ _ _ :=
      ⟨⟨hJob.trans (congrArg some hDrive), hFind⟩, hTop⟩
    refine .ends hPasses ⟨hSteps, hSerial, hEnded⟩ ?_ hFind' hTurn' hResumed
    rw [hAgenda', List.head?_cons, hDrive]
    exact congrArg some (Detour.job_drive _)
  | gone hFind hDrop =>
    rw [← hMachine] at hFind hDrop
    refine .gone hFind (List.mem_append_left _ (List.mem_flatMap.mpr ⟨_, hDrop, ?_⟩))
    exact List.mem_singleton_self _

/-! ## The last step of the child -/

section

variable {l : Nat} {x : Input} {r : Run b} {c : Frame b.Body} {o : Outcome}
  (hEnding : P.Ending l x r c o)
include hEnding

theorem Ending.later : P.move < l := by
  rcases Nat.lt_trichotomy l P.move with hBefore | rfl | hLater
  · have hCounted := hEnding.steps.counted (Schedule.stacked_routed hEnding.steps).1
    have hGrown := (Schedule.stacked_routed P.steps).1.grown l hBefore x r hEnding.steps.turns
    have := hEnding.serial
    omega
  · obtain ⟨rfl, -, rfl⟩ := P.steps.unique hEnding.steps
    have hEnded := hEnding.ended
    rw [P.asks] at hEnded
    cases hEnded
  · exact hLater

theorem Ending.not_before {m : Nat} {y : Input} {r' : Run b} {c' : Frame b.Body} {o' : Outcome}
    (hBefore : P.Ending m y r' c' o') : ¬ m < l := fun hml =>
  hBefore.steps.not_again hBefore.ended hml hEnding.steps
    (hEnding.serial.trans hBefore.serial.symm)

theorem Ending.not_gone {m : Nat} (hml : m < l)
    (hFind : (s.after world (m + 1)).machine.nodes.find? P.place = none)
    (hReturned : P.place ∈ (s.after world (m + 1)).returned) : False := by
  have hNone := (Schedule.find?_of_gone (Nat.succ_le_of_lt hml) hReturned hFind).1
  rw [hEnding.steps.turns.find] at hNone
  cases hNone

theorem Ending.ends {parked : Bool} {h' : History b}
    (hAbreast : P.detour.Abreast parked (s.after world l).machine h'.machine)
    (hAdvance : P.Advance l parked h') : ∃ m' y c',
      P.detour.Passes (h'.move (P.detour.relocation.move (s l))).machine m' ∧
      h'.machine.agenda.head? = some (.drive P.detour.child y) ∧
      h'.machine.nodes.find? P.detour.child = some (.run c') ∧
      (c'.frames.turn b y h'.machine.world).turn = .finished o ∧
      P.detour.Resumed parked o (s.after world (l + 1)).machine m' := by
  obtain ⟨r', c', hFind, -, hSplit, -⟩ := hAbreast.child
  have hSame := hEnding.steps.turns.find.symm.trans hFind
  cases hSame
  obtain ⟨below, hFrames, -⟩ := hEnding.steps.case
  obtain ⟨g, above, hChild, rfl, rfl⟩ := hSplit.top hFrames
  obtain ⟨r', hAfter, hBelow⟩ := hEnding.steps.after_end hFrames (by simp [detour]) hEnding.ended
  cases hAdvance with
  | ends hPasses hEnding' hDrive hFind' hTurn' hResumed =>
    obtain ⟨rfl, -, rfl⟩ := hEnding'.steps.unique hEnding.steps
    have hOutcome := hEnding'.ended.symm.trans hEnding.ended
    cases hOutcome
    exact ⟨_, _, _, hPasses, hDrive, hFind', hTurn', hResumed⟩
  | gone hNone =>
    rw [hAfter] at hNone
    cases hNone
  | goes _ hAbreast' =>
    -- The bottom frame of the child would still be below one with a number that is not larger.
    obtain ⟨r₁, c₁, hFind₁, -, hSplit₁, -⟩ := hAbreast'.child
    have hSame := hAfter.symm.trans hFind₁
    cases hSame
    obtain ⟨bottom, hBottom, hZero⟩ := Option.map_eq_some_iff.mp hSplit₁.bottom
    have hMem : P.detour.lift bottom ∈ above.map P.detour.lift ++ P.detour.under := by
      rw [← hBelow, hSplit₁.frames]
      exact List.mem_append_left _ (List.mem_map_of_mem (List.mem_of_getLast? hBottom))
    have hSorted := (Schedule.stacked_routed hEnding.steps).1.sorted
    rw [hFrames] at hSorted
    have hLess := (List.pairwise_cons.mp hSorted).1 _ hMem
    have hSerial := hEnding.serial
    have hLift : (P.detour.lift bottom).serial = P.run.frames.pushed + bottom.serial := rfl
    omega

end

/-! ## Abreast -/

theorem Mirrored.congr {s₁ s₂ : Schedule b} {m a c : Nat} (h : P.Mirrored s₁ m a c)
    (hSame : ∀ n < c, s₂ n = s₁ n) : P.Mirrored s₂ m a c where
  move := (hSame a h.later).trans h.move
  later := h.later
  passes n hn hnc := by
    rw [Schedule.job?_congr world' fun j hj => hSame j (Nat.lt_of_le_of_lt hj hnc)]
    exact h.passes n hn hnc
  clear := by
    rw [Schedule.after_congr world' hSame]
    exact h.clear

namespace Mirrors

variable {s₁ : Schedule b} {t : Nat → Nat} {k : Nat} (h : P.Mirrors s₁ t k)
include h

theorem le {m m' : Nat} (hm : P.move ≤ m) (hmm' : m ≤ m') (hk : m' ≤ k) : t m ≤ t m' := by
  induction hmm' with
  | refl => exact Nat.le_refl _
  | @step m' hmm' ih =>
    exact Nat.le_trans (ih (Nat.le_of_succ_le hk))
      (Nat.le_of_lt (h.each m' (Nat.le_trans hm hmm') hk).later)

theorem after_first : s₁.after world' (t P.move) = s'.after world' P.move' := by
  rw [h.first]
  exact Schedule.after_congr world' h.before

theorem succ {m : Nat} (hm : P.move ≤ m) (hmk : m < k) :
    P.detour.Passes ((s₁.after world' (t m)).move (P.detour.relocation.move (s m))).machine
        (s₁.after world' (t (m + 1))).machine ∧
      (s₁.after world' (t (m + 1))).begun =
        ((s₁.after world' (t m)).move (P.detour.relocation.move (s m))).begun := by
  have hNext : s₁.after world' (t m + 1) =
      (s₁.after world' (t m)).move (P.detour.relocation.move (s m)) := by
    rw [Schedule.after, (h.each m hm hmk).move]
  rw [← hNext]
  exact Detour.passes_of_jobs (h.each m hm hmk).later (h.each m hm hmk).passes

theorem level_first (hRoom : P.run.frames.depth < P.run.frames.limit) (hk : P.move < k) :
    P.Level s₁ (t (P.move + 1)) (P.move + 1) false := by
  obtain ⟨hPasses, hBegun⟩ := h.succ (Nat.le_refl _) hk
  have hFirst : (s₁.after world' (t P.move)).move (P.detour.relocation.move (s P.move)) =
      s'.after world' (P.move' + 1) := by
    rw [h.after_first, Schedule.after, P.steps.works, P.steps'.works]
    rfl
  obtain ⟨m, hPasses', hAbreast⟩ := P.depart hRoom
  rw [hFirst] at hPasses
  obtain rfl := hPasses.unique (h.each P.move (Nat.le_refl _) hk).clear hPasses' hAbreast.clear
  refine ⟨?_, hAbreast, ?_⟩
  · have hSame : (s'.after world' P.move').begun = (s.after world P.move).begun := P.begun
    rw [hBegun, h.after_first]
    exact Relocation.begun_move hSame (s P.move)
  · simp only [Bool.false_eq_true, false_iff, not_exists, not_and]
    intro l hl hl'
    omega

theorem level {l : Nat} {x : Input} {r : Run b} {c : Frame b.Body} {o : Outcome}
    (hRoomy : P.Roomy l) (hEnding : P.Ending l x r c o) {m : Nat} (hm : P.move < m) (hmk : m ≤ k)
    (hml : m ≤ l) : ∃ parked, P.Level s₁ (t m) m parked := by
  -- By induction on the moves since the child was put on top.
  induction hm with
  | refl =>
    have hRoom := hRoomy P.move (Nat.le_refl _) (Nat.le_of_lt hEnding.later) _ _ _ _ P.steps P.asks
    exact ⟨false, h.level_first hRoom hmk⟩
  | @step m hLater ih =>
    obtain ⟨parked, hLevel⟩ := ih (Nat.le_of_succ_le hmk) (Nat.le_of_succ_le hml)
    have hm : P.move ≤ m := Nat.le_of_lt hLater
    obtain ⟨hPasses, hBegun⟩ := h.succ hm hmk
    cases advance hRoomy hm (Nat.le_of_succ_le hml) hLevel.begun hLevel.abreast with
    | ends _ hBefore => exact absurd hml (hEnding.not_before hBefore)
    | gone hFind hReturned => exact (hEnding.not_gone hml hFind hReturned).elim
    | @goes parked' m' hPasses' hAbreast hParks =>
      obtain rfl := hPasses.unique (h.each m hm hmk).clear hPasses' hAbreast.clear
      refine ⟨parked', hBegun.trans (Relocation.begun_move hLevel.begun (s m)), hAbreast, ?_⟩
      rw [hParks, hLevel.parks]
      constructor
      · rintro (⟨n, hn, hnm, hBefore⟩ | hNow)
        · exact ⟨n, hn, Nat.lt_succ_of_lt hnm, hBefore⟩
        · exact ⟨m, hLater, Nat.lt_succ_self m, hNow⟩
      · rintro ⟨n, hn, hnm, hParked⟩
        rcases Nat.lt_succ_iff_lt_or_eq.mp hnm with hnm | rfl
        · exact Or.inl ⟨n, hn, hnm, hParked⟩
        · exact Or.inr hParked

theorem extend (hk : P.move ≤ k) {m' : Machine b}
    (hPasses : P.detour.Passes
      ((s₁.after world' (t k)).move (P.detour.relocation.move (s k))).machine m')
    (hClear : P.detour.Clear m') : ∃ s₂ t₂, P.Mirrors s₂ t₂ (k + 1) := by
  -- After the move it only works, so it does what there is to pass on next.
  let s₂ : Schedule b := fun n =>
    if n < t k then s₁ n else if n = t k then P.detour.relocation.move (s k) else .work
  have hSame : ∀ n < t k, s₂ n = s₁ n := fun n hn => if_pos hn
  have hMove : s₂ (t k) = P.detour.relocation.move (s k) := by simp [s₂]
  have hWork : ∀ n, t k + 1 ≤ n → s₂ n = .work := by
    intro n hn
    have hLt : ¬ n < t k := by omega
    have hNe : n ≠ t k := by omega
    simp [s₂, hLt, hNe]
  have hAfter : s₂.after world' (t k + 1) =
      (s₁.after world' (t k)).move (P.detour.relocation.move (s k)) := by
    rw [Schedule.after, hMove, Schedule.after_congr world' hSame]
  obtain ⟨c, hc, hMachine, hJobs⟩ := hPasses.moves hWork (congrArg History.machine hAfter)
  have hOld : ∀ {m}, m ≤ k → (if m ≤ k then t m else c) = t m := fun hm => if_pos hm
  have hNew : (if k + 1 ≤ k then t (k + 1) else c) = c := if_neg (Nat.not_succ_le_self k)
  refine ⟨s₂, fun m => if m ≤ k then t m else c, ?_, (hOld hk).trans h.first, ?_⟩
  · intro n hn
    have hFirst := h.le (Nat.le_refl _) hk (Nat.le_refl _)
    rw [h.first] at hFirst
    exact (hSame n (by omega)).trans (h.before n hn)
  · intro m hm hmk
    rcases Nat.lt_succ_iff_lt_or_eq.mp hmk with hmk | rfl
    · rw [hOld (Nat.le_of_lt hmk), hOld (Nat.succ_le_of_lt hmk)]
      have hLast := h.le (Nat.le_succ_of_le hm) (Nat.succ_le_of_lt hmk) (Nat.le_refl _)
      exact (h.each m hm hmk).congr fun n hn => hSame n (Nat.lt_of_lt_of_le hn hLast)
    · rw [hOld (Nat.le_refl _), hNew]
      exact ⟨hMove, hc, fun n hn hnc => hJobs n hn hnc, hMachine ▸ hClear⟩

end Mirrors

/-- There is a schedule that goes along with the first one until the child has ended. -/
theorem exists_mirror {l : Nat} {x : Input} {r : Run b} {c : Frame b.Body} {o : Outcome}
    (hRoomy : P.Roomy l) (hEnding : P.Ending l x r c o) {k : Nat} (hk : P.move ≤ k)
    (hkl : k ≤ l + 1) : ∃ s₁ t, P.Mirrors s₁ t k := by
  induction hk with
  | refl =>
    refine ⟨s', fun _ => P.move', fun _ _ => rfl, rfl, fun m hm hmk => ?_⟩
    exact absurd hmk (Nat.not_lt_of_le hm)
  | @step k hk ih =>
    obtain ⟨s₁, t, hMirrors⟩ := ih (Nat.le_of_succ_le hkl)
    rcases Nat.eq_or_lt_of_le hk with rfl | hLater
    · have hRoom := hRoomy _ hk (Nat.le_of_lt hEnding.later) _ _ _ _ P.steps P.asks
      obtain ⟨m', hPasses, hAbreast⟩ := P.depart hRoom
      rw [Schedule.after, P.steps'.works, ← hMirrors.after_first] at hPasses
      refine hMirrors.extend hk ?_ hAbreast.clear
      rw [P.steps.works]
      exact hPasses
    · have hkl : k ≤ l := Nat.le_of_succ_le_succ hkl
      obtain ⟨parked, hLevel⟩ := hMirrors.level hRoomy hEnding hLater (Nat.le_refl k) hkl
      have hAdvance := advance hRoomy hk hkl hLevel.begun hLevel.abreast
      rcases Nat.eq_or_lt_of_le hkl with rfl | hkl
      · obtain ⟨m', -, -, hPasses, -, -, -, hResumed⟩ := hEnding.ends hLevel.abreast hAdvance
        exact hMirrors.extend hk hPasses hResumed.clear
      · cases hAdvance with
        | goes hPasses hAbreast => exact hMirrors.extend hk hPasses hAbreast.clear
        | ends _ hBefore => exact absurd hkl (hEnding.not_before hBefore)
        | gone hFind hReturned => exact (hEnding.not_gone hkl hFind hReturned).elim

end Parting

end Interlace
