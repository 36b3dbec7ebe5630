import Interlace.Proofs.Mirrors
import Interlace.Script.Coroutine

/-!
# Four ways to run a child

A coroutine may delegate to a child, wait for work that runs the child, join it as the only item,
or have its failure captured. The first way has the child on the coroutine's own stack, the others
on a stack of its own, and the child cannot tell them apart.
-/

namespace Interlace

variable {b : Behaviour}

namespace Relocation

variable {e : Relocation} {job : Job b}

theorem job_eq_drive {x : Input} : e.job job = .drive e.target x ↔ job = .drive e.origin x := by
  constructor
  · intro h
    cases job with
    | drive y z =>
      obtain ⟨hPlace, rfl⟩ := Job.drive.inj h
      rw [site_eq_target.mp hPlace]
    | _ => cases h
  · rintro rfl
    rw [Relocation.job, site_origin]

theorem job_eq_check : e.job job = .check e.target ↔ job = .check e.origin := by
  constructor
  · intro h
    cases job with
    | check y => rw [site_eq_target.mp (Job.check.inj h)]
    | _ => cases h
  · rintro rfl
    rw [Relocation.job, site_origin]

end Relocation

namespace Parting

variable {s s' : Schedule b} {world world' : b.World} (P : Parting s s' world world')

def raise (step : Schedule.Stepping b) : Schedule.Stepping b :=
  { step with serial := P.run.frames.pushed + step.serial }

/-- The schedule `s₁` makes move `m` of the first schedule from its move `t m` on. Until move `l`
the child goes on alike in both: what is stepped on the stack of the parent is the child, with the
same inputs, and the parent is parked beside the child as soon as its run is parked with the child
on top. Then the parent goes on with the outcome `o`. -/
structure Agrees (s₁ : Schedule b) (t : Nat → Nat) (l : Nat) (o : Outcome) : Prop where
  steps : ∀ m, P.move < m → m ≤ l + 1 → s.steps world P.place m =
    s.steps world P.place (P.move + 1) ++ (s₁.steps world' P.detour.child (t m)).map P.raise
  parks : ∀ m, P.move < m → m ≤ l →
    (s.Parks world m P.place ↔ s₁.Parks world' (t m) P.detour.child)
  parent : ∀ m, P.move < m → m ≤ l → ∃ parked,
    (parked = true ↔ ∃ n, P.move < n ∧ n < m ∧ s.Parks world n P.place) ∧
    (s₁.after world' (t m)).machine.nodes.find? P.place = some (.run (P.detour.parent parked))
  ends : s₁.Ends world' (t l) P.detour.child o
  resumes : ∃ parked, (parked = true ↔ ∃ n, P.move < n ∧ n < l ∧ s.Parks world n P.place) ∧
    P.detour.Resumed parked o (s.after world (l + 1)).machine (s₁.after world' (t (l + 1))).machine

variable {P}

/-! ## One move -/

namespace Level

variable {s₁ : Schedule b} {n m : Nat} {parked : Bool} (hLevel : P.Level s₁ n m parked)
  (hMove : s₁ n = P.detour.relocation.move (s m))
include hLevel hMove

theorem job? : s₁.job? world' n = (s.job? world m).map P.detour.relocation.job := by
  rw [Schedule.job?, Schedule.job?, hMove]
  cases s m with
  | work => exact hLevel.abreast.lines.head?
  | begin | call | drop => rfl

theorem drives {x : Input} : s₁.job? world' n = some (.drive P.detour.child x) ↔
    s.job? world m = some (.drive P.place x) := by
  rw [hLevel.job? hMove, Option.map_eq_some_iff]
  constructor
  · rintro ⟨job, hJob, hDrive⟩
    rw [hJob, (Relocation.job_eq_drive (e := P.detour.relocation)).mp hDrive]
    rfl
  · intro hJob
    exact ⟨_, hJob, Detour.job_drive x⟩

theorem parks_iff : s.Parks world m P.place ↔ s₁.Parks world' n P.detour.child := by
  obtain ⟨r, c, hFind, hChild, hSplit, -⟩ := hLevel.abreast.child
  have hCheck : s₁.job? world' n = some (.check P.detour.child) ↔
      s.job? world m = some (.check P.place) := by
    rw [hLevel.job? hMove, Option.map_eq_some_iff]
    constructor
    · rintro ⟨job, hJob, hCheck⟩
      rw [hJob, (Relocation.job_eq_check (e := P.detour.relocation)).mp hCheck]
      rfl
    · intro hJob
      exact ⟨_, hJob, Detour.job_check⟩
  constructor
  · rintro ⟨hJob, r', u, hFind', hPhase⟩
    have hSame := hFind.symm.trans hFind'
    cases hSame
    exact ⟨hCheck.mpr hJob, c, u, hChild, hSplit.phase ▸ hPhase⟩
  · rintro ⟨hJob, c', u, hChild', hPhase⟩
    have hSame := hChild.symm.trans hChild'
    cases hSame
    exact ⟨hCheck.mp hJob, r, u, hFind, hSplit.phase.trans hPhase⟩

theorem step? : s.step? world P.place m = (s₁.step? world' P.detour.child n).map P.raise := by
  by_cases hDrive : ∃ x, s.job? world m = some (.drive P.place x)
  · obtain ⟨x, hJob⟩ := hDrive
    obtain ⟨r, c, hFind, hChild, hSplit, -⟩ := hLevel.abreast.child
    obtain ⟨f, hStep⟩ := Schedule.Turns.steps ⟨hJob, hFind⟩
    obtain ⟨below, hFrames, -⟩ := hStep.case
    obtain ⟨g, above, hAbove, rfl, -⟩ := hSplit.top hFrames
    have hStep' : s₁.Steps world' n P.detour.child x c g :=
      ⟨⟨(hLevel.drives hMove).mpr hJob, hChild⟩, by rw [Frames.top?, hAbove, List.head?_cons]⟩
    -- The number of a frame has no part in what its body answers.
    have hAnswer : (s₁.stepped world' n g x).1 = (s.stepped world m (P.detour.lift g) x).1 := by
      rw [Schedule.stepped, hLevel.abreast.alike.world]
      rfl
    rw [Schedule.step?_of_steps hStep, Schedule.step?_of_steps hStep', hAnswer]
    rfl
  · rw [Schedule.step?_of_none fun x hJob => hDrive ⟨x, hJob⟩,
      Schedule.step?_of_none fun x hJob => hDrive ⟨x, (hLevel.drives hMove).mp hJob⟩]
    rfl

end Level

/-! ## From the parting to the end of the child -/

theorem not_driven (P : Parting s s' world world') {n : Nat} (hn : n ≤ P.move') (y : Input) :
    s'.job? world' n ≠ some (.drive P.detour.child y) := by
  intro hDrive
  obtain ⟨rest, hAgenda, -⟩ := s'.after_succ_of_job world' hDrive
  have hMem : .drive P.detour.child y ∈ (s'.after world' n).machine.agenda := by
    rw [hAgenda]
    exact List.mem_cons_self
  obtain ⟨r, hFind, -⟩ :=
    (s'.sound world' n).steered (p := P.detour.child) hMem (by simp [Job.steers])
  have hLedger := (s'.kept world' hn).ledger _ ((s'.sound world' n).mem_ledger_of_find? hFind)
  exact (s'.sound world' P.move').not_covers (e := P.detour.relocation) P.steps'.turns.find
    P.steps'.turns.driven.1 rfl hLedger P.detour.relocation.covered

namespace Mirrors

variable {s₁ : Schedule b} {t : Nat → Nat} {k : Nat} (h : P.Mirrors s₁ t k)
include h

theorem same_first (hk : P.move < k) {n : Nat} (hn : n ≤ P.move') : s₁ n = s' n := by
  rcases Nat.lt_or_eq_of_le hn with hn | rfl
  · exact h.before n hn
  · have hMove := (h.each P.move (Nat.le_refl _) hk).move
    rw [h.first, P.steps.works] at hMove
    exact hMove.trans P.steps'.works.symm

theorem steps_first (hk : P.move < k) : s₁.steps world' P.detour.child (t (P.move + 1)) = [] := by
  have hFirst := h.each P.move (Nat.le_refl _) hk
  rw [Detour.steps_of_jobs hFirst.later hFirst.passes, h.first]
  refine Schedule.steps_of_none fun n hn y => ?_
  have hn : n ≤ P.move' := Nat.le_of_lt_succ hn
  rw [Schedule.job?_congr world' fun j hj => h.same_first hk (Nat.le_trans hj hn)]
  exact P.not_driven hn y

section

variable {l : Nat} {x : Input} {r : Run b} {c : Frame b.Body} {o : Outcome}
  (hRoomy : P.Roomy l) (hEnding : P.Ending l x r c o)
include hRoomy hEnding

theorem steps_same {m : Nat} (hm : P.move < m) (hmk : m ≤ k) (hml : m ≤ l + 1) :
    s.steps world P.place m =
      s.steps world P.place (P.move + 1) ++ (s₁.steps world' P.detour.child (t m)).map P.raise := by
  induction hm with
  | refl =>
    rw [h.steps_first hmk]
    exact (List.append_nil _).symm
  | @step m hLater ih =>
    have hm : P.move < m := hLater
    have hEach := h.each m (Nat.le_of_lt hm) hmk
    obtain ⟨parked, hLevel⟩ := h.level hRoomy hEnding hm (Nat.le_of_lt hmk)
      (Nat.le_of_succ_le_succ hml)
    have hSteps' : s₁.steps world' P.detour.child (t (m + 1)) =
        s₁.steps world' P.detour.child (t m) ++ (s₁.step? world' P.detour.child (t m)).toList :=
      Detour.steps_of_jobs hEach.later hEach.passes P.detour.child
    rw [Schedule.steps, ih (Nat.le_of_lt hmk) (Nat.le_of_lt hml), hLevel.step? hEach.move, hSteps',
      List.map_append, List.append_assoc]
    cases s₁.step? world' P.detour.child (t m) <;> rfl

end

end Mirrors

theorem Mirrors.agrees {s₁ : Schedule b} {t : Nat → Nat} {l : Nat} {x : Input} {r : Run b}
    {c : Frame b.Body} {o : Outcome} (h : P.Mirrors s₁ t (l + 1)) (hRoomy : P.Roomy l)
    (hEnding : P.Ending l x r c o) : P.Agrees s₁ t l o := by
  have hLater := hEnding.later
  have hLast := h.each l (Nat.le_of_lt hLater) (Nat.lt_succ_self l)
  obtain ⟨parked, hLevel⟩ := h.level hRoomy hEnding hLater (Nat.le_succ l) (Nat.le_refl l)
  obtain ⟨m', y, c', hPasses, hDrive, hFind, hTurn, hResumed⟩ := hEnding.ends hLevel.abreast
    (advance hRoomy (Nat.le_of_lt hLater) (Nat.le_refl l) hLevel.begun hLevel.abreast)
  refine ⟨fun m hm hml => h.steps_same hRoomy hEnding hm hml hml, fun m hm hml => ?_,
    fun m hm hml => ?_, ⟨y, c', ?_, hFind, hTurn⟩, parked, hLevel.parks, ?_⟩
  · obtain ⟨parked, hLevel⟩ := h.level hRoomy hEnding hm (Nat.le_succ_of_le hml) hml
    exact hLevel.parks_iff (h.each m (Nat.le_of_lt hm) (Nat.lt_succ_of_le hml)).move
  · obtain ⟨parked, hLevel⟩ := h.level hRoomy hEnding hm (Nat.le_succ_of_le hml) hml
    exact ⟨parked, hLevel.parks, hLevel.abreast.parent⟩
  · rw [Schedule.job?, hLast.move, hEnding.steps.works]
    exact hDrive
  · obtain ⟨hPasses', -⟩ := h.succ (Nat.le_of_lt hLater) (Nat.lt_succ_self l)
    rw [hPasses'.unique hLast.clear hPasses hResumed.clear]
    exact hResumed

/-- Whichever way a child is run, it is stepped with the same inputs, its parent is parked exactly
when it has to be waited for, and goes on at the same moment with the same outcome. -/
theorem ways_agree {l : Nat} {x : Input} {r : Run b} {c : Frame b.Body} {o : Outcome}
    (hRoomy : P.Roomy l) (hEnding : P.Ending l x r c o) :
    (∃ s₁ t, P.Mirrors s₁ t (l + 1)) ∧ (∀ s₁ t, P.Mirrors s₁ t (l + 1) → P.Agrees s₁ t l o) ∧
      ∀ problem, (s.stepped world l c x).1 = .give (.error problem) →
        o = .error (.ofReturned problem) := by
  refine ⟨P.exists_mirror hRoomy hEnding (Nat.le_succ_of_le (Nat.le_of_lt hEnding.later))
    (Nat.le_refl _), fun s₁ t hMirrors => hMirrors.agrees hRoomy hEnding, fun problem hGiven => ?_⟩
  have hEnded := hEnding.ended
  rw [hGiven] at hEnded
  exact (Option.some.inj hEnded).symm

/-! ## A child that sleeps -/

def nap : Script.Maker := .ofDeed (.sleep (.number (Number.ofNat 3)))

def waiting (ask : Script.Ask) : Script.Program := #[.yield ask "x" none, .give (.var "x")]

def naps : Script.Library :=
  [("delegates", waiting (.delegate nap)), ("joins", waiting (.fan [.coroutine nap]))]

/-- The parent delegates to the child, whose sleep is over when nothing else is left to do. -/
def delegated : Schedule (Script.behaviour naps 3)
  | 8 => .call [0, 0] (.ok .null)
  | k => Schedule.alone (.program "delegates" []) [] 3 k

def joined : Schedule (Script.behaviour naps 3) := Schedule.alone (.program "joins" []) [] 3

def napping : Parting delegated joined .new .new where
  way := .joined
  recipe := .ofDeed (.sleep (.number (Number.ofNat 3)))
  move := 2
  move' := 2
  place := [0]
  input := .start
  input' := .start
  frame := ⟨.instance (.new "delegates" 0 [] []), .ready, 0⟩
  frame' := ⟨.instance (.new "joins" 0 [] []), .ready, 0⟩
  run := ⟨⟨[⟨.instance (.new "delegates" 0 [] []), .ready, 0⟩], 3, 1⟩, 0, .driving, false⟩
  steps := ⟨⟨rfl, rfl⟩, rfl⟩
  steps' := ⟨⟨rfl, rfl⟩, rfl⟩
  asks := rfl
  asks' := rfl
  worlds := rfl
  begun := rfl
  held := rfl
  agenda := rfl
  nodes _ hq := (Table.find?_insert_of_ne .empty _ hq).trans
    (Table.find?_insert_of_ne .empty _ hq).symm

theorem napping_roomy : napping.Roomy 10 := by
  have hRoom : ∀ m < 11, ((delegated.after .new m).machine.run? [0]).all
      (fun r => r.frames.depth < r.frames.limit) = true := by decide +kernel
  intro m _ hm x r f recipe hSteps _
  have hFits := hRoom m (Nat.lt_succ_of_le hm)
  have hFind : (delegated.after .new m).machine.nodes.find? [0] = some (.run r) := hSteps.turns.find
  rw [Machine.run?, hFind] at hFits
  exact of_decide_eq_true hFits

theorem ways_agree_nap : napping.Roomy 10 ∧ ∃ r c,
    napping.Ending 10 (.value .null) r c (.ok .null) ∧
    (∃ s₁ t, napping.Mirrors s₁ t 11) ∧
      (∀ s₁ t, napping.Mirrors s₁ t 11 → napping.Agrees s₁ t 10 (.ok .null)) ∧
      ∀ problem, (delegated.stepped .new 10 c (.value .null)).1 = .give (.error problem) →
        (.ok .null : Outcome) = .error (.ofReturned problem) := by
  have hEnding : napping.Ending 10 (.value .null) _ _ (.ok .null) := ⟨⟨⟨rfl, rfl⟩, rfl⟩, rfl, rfl⟩
  exact ⟨napping_roomy, _, _, hEnding, ways_agree napping_roomy hEnding⟩

end Parting

end Interlace
