import Interlace.Proofs.Parking
import Interlace.Proofs.Wrapping

/-!
# A stand-in on top of the frame that asks

A frame may ask for work, or for a coroutine on top of it that stands in for the work. While the
frame is not stepped its run does nothing in the first case, and in the second case it starts the
stand-in, waits for the same work under the same continuation, and takes the stand-in off.
-/

namespace Interlace

variable {b : Behaviour}

namespace Schedule

variable {s : Schedule b} {world : b.World}

variable (s world) in
/-- With move `m` the run at `p` goes on, on top of `R`, after its work has come to an outcome: the
frame `g` is stepped with the outcome `o`. If there is none, the run is given up. -/
def Resumes (m : Nat) (p : Place) (g : Frame b.Body) (R : List (Job b)) : Option Outcome → Prop
  | some o => (∃ r, s.Steps world m p (.ofOutcome o) r g) ∧
      (s.after world m).machine.agenda = .drive p (.ofOutcome o) :: R
  | none => s.job? world m = some (.drop p) ∧ (s.after world m).machine.agenda = .drop p :: R

theorem Dozes.mono {i j k : Nat} {p : Place} {serial : Nat} (h : s.Dozes world i k p serial)
    (hjk : j ≤ k) : s.Dozes world i j p serial :=
  fun m him hmj => h m him (Nat.lt_of_lt_of_le hmj hjk)

theorem Dozes.not_top {i m j : Nat} {p : Place} {serial : Nat} {y : Input} {r : Run b}
    {g : Frame b.Body} {below : List (Frame b.Body)} (h : s.Dozes world i j p serial) (him : i < m)
    (hmj : m < j) (hTurns : s.Turns world m p y r) (hFrames : r.frames.frames = g :: below)
    (hSame : g.serial = serial) : False :=
  h m him hmj y r g ⟨hTurns, by rw [Frames.top?, hFrames, List.head?_cons]⟩ hSame

theorem Turns.lt_ledger {l d : Nat} {p : Place} {x : Input} {r : Run b} (h : s.Turns world l p x r)
    (hLedger : r.wait :: p ∈ (s.after world d).ledger) : l < d := by
  by_contra hdl
  exact Nat.lt_irrefl _ (wait_lt_of_drive (mem_agenda_of_job h.job) h.find
    ((s.kept world (Nat.le_of_not_lt hdl)).ledger _ hLedger))

theorem LastTurn.since {l j k : Nat} {p : Place} {x y : Input} {r r' : Run b}
    (h : s.LastTurn world j k p y r') (hTurns : s.Turns world l p x r) (hlk : l < k) :
    (j = l ∧ y = x ∧ r' = r) ∨ l < j := by
  rcases Nat.lt_trichotomy j l with hjl | rfl | hlj
  · exact absurd hTurns.job (h.last l hjl hlk x)
  · have hJob := hTurns.job.symm.trans h.turns.job
    have hFind := hTurns.find.symm.trans h.turns.find
    cases hJob
    cases hFind
    exact Or.inl ⟨rfl, rfl, rfl⟩
  · exact Or.inr hlj

/-! ## Work alone -/

section

variable {l : Nat} {p : Place} {x : Input} {r : Run b} {f : Frame b.Body}
  {work : Work b.Recipe b.Note} (hStep : s.Steps world l p x r f)
  (hTurn : (s.turned world l x r).turn = .await work .throwing)
include hStep hTurn

theorem Steps.frames_of_await : ∃ below,
    (s.turned world l x r).frames.frames = s.lulled world l f x :: below := by
  obtain ⟨below, -, hCase⟩ := hStep.case
  generalize s.turned world l x r = turned at hTurn hCase
  cases hCase with
  | finished | returned | pushed | refused => cases hTurn
  | awaited => exact ⟨below, rfl⟩

theorem Steps.last_of_dozes {k : Nat} (hlk : l < k) (hDozes : s.Dozes world l k p f.serial) :
    s.LastTurn world l k p x r := by
  rcases hStep.turns.last_or_next hlk with hLast | ⟨j, hjk, hLast, y, r', hNext⟩
  · exact hLast
  · -- The frame that asked is still on top when the run is stepped next.
    obtain ⟨below, hFrames⟩ := hStep.frames_of_await hTurn
    rw [← hLast.frames hNext] at hFrames
    exact (hDozes.not_top hLast.before hjk hNext hFrames rfl).elim

theorem Steps.told_of_dozes {j : Nat} {y : Input} {r' : Run b} {f' : Frame b.Body} (hlj : l < j)
    (hDozes : s.Dozes world l j p f.serial) (hNext : s.Steps world j p y r' f') :
    ∃ d o, l < d ∧ d < j ∧ s.job? world d = some (.deliver (r.wait :: p) o) ∧ y = .ofOutcome o := by
  have hLast := hStep.last_of_dozes hTurn hlj hDozes
  obtain ⟨i, -, hLimit, recipe, args, hStart⟩ := hNext.turns.start
  have hFollows := hNext.turns.follows hLimit hStart
  generalize r'.frames.limit = limit at hFollows
  cases hFollows with
  | first hNone => exact absurd hStep.turns.job (hNone l hlj x)
  | next hLast' hTurn' =>
    obtain ⟨rfl, rfl, rfl⟩ := hLast.unique hLast'
    rw [hTurn] at hTurn'
    cases hTurn'
  | told hLast' hTurn' _ _ hCalled =>
    obtain ⟨rfl, rfl, rfl⟩ := hLast.unique hLast'
    rw [hTurn] at hTurn'
    cases hTurn'
    exact ⟨_, _, hCalled.1, hCalled.2.1, hCalled.2.2, rfl⟩

theorem Steps.leads_back {rest R : List (Job b)} {d : Nat} {res : Option Outcome}
    (hAgenda : (s.after world l).machine.agenda = .drive p x :: rest)
    (hClosing : s.job? world d = some (.closing (r.wait :: p) res))
    (hNow : (s.after world d).machine.agenda = .closing (r.wait :: p) res :: R) :
    ∃ R', (R' = R ∨ R' = rest ∧
        ∃ front, (s.after world d).machine.agenda = front ++ .check p :: rest) ∧
      s.Leads world (Job.Tends p) d R' fun m =>
        s.Resumes world m p (s.lulled world l f x) R' res := by
  refine Pursues.leads (e := s.quest world l p x r work .throwing rest)
    (fun R' m => s.Resumes world m p (s.lulled world l f x) R' res) ?_ ?_
    (fun k => pursues hStep.turns hTurn hAgenda)
    (hStep.turns.lt_ledger (mem_ledger_of_closing hClosing)) hClosing hNow
  · rintro n o r' R' rfl - hTurns hBack hDrive
    obtain ⟨below, hFrames⟩ := hStep.frames_of_await hTurn
    have hTop : r'.frames.frames = s.lulled world l f x :: below :=
      (congrArg Frames.frames hBack.frames).trans hFrames
    exact Or.inl ⟨⟨r', hTurns, by rw [Frames.top?, hTop, List.head?_cons]⟩, hDrive⟩
  · rintro m R' rfl hJob hDrop
    exact ⟨hJob, hDrop⟩

end

/-! ## A stand-in -/

variable (s world) in
/-- Why the run at `p` is stepped after its frame `g`, now above others, has asked for a stand-in
and was not stepped since: the stand-in starts, it ends, or `g` goes on. -/
inductive Inlined (v : Wrapper b) (l k : Nat) (p : Place) (wait serial : Nat)
    (under : List (Frame b.Body)) : Input → Run b → Prop where
  | first {r : Run b} (hFrames : r.frames.frames = v.fresh serial :: under)
      (hWait : r.wait = wait) : Inlined v l k p wait serial under .start r
  | last {d : Nat} {o : Outcome} {r : Run b} (hFrames : r.frames.frames = v.lulled serial :: under)
      (hld : l < d) (hdk : d < k) (hDeliver : s.job? world d = some (.deliver (wait :: p) o)) :
      Inlined v l k p wait serial under (.ofOutcome o) r
  | back {d : Nat} {o : Outcome} {r : Run b} (hFrames : r.frames.frames = under)
      (hld : l < d) (hdk : d < k) (hDeliver : s.job? world d = some (.deliver (wait :: p) o)) :
      Inlined v l k p wait serial under (.ofOutcome o.passed) r

section

variable {v : Wrapper b} {l j k : Nat} {p : Place} {wait serial : Nat}
  {under : List (Frame b.Body)} {y : Input} {r r' : Run b}
  (h : s.Inlined world v l j p wait serial under y r) (hUnder : under ≠ [])
  (hOver : r.frames.frames ≠ under) (hFrames : r'.frames = (s.turned world j y r).frames)
include h hUnder hOver hFrames

theorem Inlined.next {z : Input} (hjk : j < k) (hTurn : (s.turned world j y r).turn = .next z) :
    s.Inlined world v l k p wait serial under z r' := by
  cases h with
  | first hFresh =>
    rw [turned, v.turn_start hFresh] at hTurn
    cases hTurn
  | last hLulled hld hdj hDeliver =>
    rw [turned, v.turn_below hLulled hUnder] at hTurn hFrames
    cases hTurn
    exact .back (by rw [hFrames]) hld (Nat.lt_trans hdj hjk) hDeliver
  | back hBack => exact absurd hBack hOver

theorem Inlined.told {d : Nat} {o : Outcome} {work : Work b.Recipe b.Note} {u : Uptake}
    (hlj : l < j) (hTurn : (s.turned world j y r).turn = .await work u)
    (hCalled : s.CalledIn world j k (r.wait :: p) o d) :
    s.Inlined world v l k p wait serial under (u.apply o) r' := by
  cases h with
  | first hFresh hWait =>
    have hTurned : s.turned world j .start r = _ := v.turn_start hFresh _
    rw [hTurned] at hTurn hFrames
    cases hTurn
    rw [hWait] at hCalled
    exact .last (by rw [hFrames]) (Nat.lt_trans hlj hCalled.1) hCalled.2.1 hCalled.2.2
  | last hLulled =>
    rw [turned, v.turn_below hLulled hUnder] at hTurn
    cases hTurn
  | back hBack => exact absurd hBack hOver

end

section

variable {v : Wrapper b} {l : Nat} {p : Place} {x : Input} {r : Run b} {f : Frame b.Body}
  (hStep : s.Steps world l p x r f) (hAnswer : (s.stepped world l f x).1 = .wait (.inner v.recipe))
  (hRoom : r.frames.depth < r.frames.limit)
include hStep hAnswer hRoom

theorem turned_inner : ∃ below, (s.turned world l x r).turn = .next .start ∧
    (s.turned world l x r).frames.frames =
      v.fresh r.frames.pushed :: s.lulled world l f x :: below := by
  obtain ⟨below, hFrames, hCase⟩ := hStep.case
  rw [depth_of_frames hFrames] at hRoom
  have hPushed := hCase.unique (.pushed hAnswer hRoom)
  refine ⟨below, by rw [hPushed], ?_⟩
  rw [hPushed, v.make]
  rfl

theorem inlined : ∃ below, ∀ {k y r'}, s.Turns world k p y r' → l < k →
    s.Dozes world l k p f.serial →
      s.Inlined world v l k p r.wait r.frames.pushed (s.lulled world l f x :: below) y r' := by
  obtain ⟨below, hTurn, hFrames⟩ := turned_inner hStep hAnswer hRoom
  refine ⟨below, fun {k y r'} hTurns hlk hDozes => ?_⟩
  have hUnder : s.lulled world l f x :: below ≠ [] := by simp
  -- By induction on the steps of the run since then.
  induction k using Nat.strongRecOn generalizing y r' with
  | ind k ih =>
    have hOver : ∀ {j z r₀}, s.LastTurn world j k p z r₀ → l < j →
        r₀.frames.frames ≠ s.lulled world l f x :: below := fun hLast hlj hFrames' =>
      hDozes.not_top hlj hLast.before hLast.turns hFrames' rfl
    have hBefore : ∀ {j z r₀}, s.LastTurn world j k p z r₀ → l < j →
        s.Inlined world v l j p r.wait r.frames.pushed (s.lulled world l f x :: below) z r₀ :=
      fun hLast hlj => ih _ hLast.before hLast.turns hlj (hDozes.mono (Nat.le_of_lt hLast.before))
    obtain ⟨i, -, hLimit, recipe, args, hStart⟩ := hTurns.start
    have hFollows := hTurns.follows hLimit hStart
    generalize r'.frames.limit = limit at hFollows
    cases hFollows with
    | first hNone => exact absurd hStep.turns.job (hNone l hlk x)
    | next hLast hNext =>
      rcases hLast.since hStep.turns hlk with ⟨rfl, rfl, rfl⟩ | hlj
      · rw [hTurn] at hNext
        cases hNext
        exact .first hFrames rfl
      · exact (hBefore hLast hlj).next hUnder (hOver hLast hlj) rfl hLast.before hNext
    | told hLast hNext hSame _ hCalled =>
      rcases hLast.since hStep.turns hlk with ⟨rfl, rfl, rfl⟩ | hlj
      · rw [hTurn] at hNext
        cases hNext
      · exact (hBefore hLast hlj).told hUnder (hOver hLast hlj) hSame hlj hNext hCalled

theorem inlined_parks_iff {k : Nat} (hlk : l < k) (hDozes : s.Dozes world l k p f.serial)
    (hCheck : s.job? world k = some (.check p)) :
    s.Parks world k p ↔ ¬ s.Closed world k (r.wait :: p) := by
  obtain ⟨below, hTurn, -⟩ := turned_inner hStep hAnswer hRoom
  obtain ⟨below', hInlined⟩ := inlined hStep hAnswer hRoom
  obtain ⟨j, y, r', hLast⟩ := hStep.turns.exists_last hlk
  rcases hLast.since hStep.turns hlk with ⟨rfl, rfl, rfl⟩ | hlj
  · exact absurd hCheck (hLast.not_check hTurn)
  · cases hInlined hLast.turns hlj (hDozes.mono (Nat.le_of_lt hLast.before)) with
    | first hFrames hWait =>
      have hTurned : s.turned world j .start r' = _ := v.turn_start hFrames _
      rw [← hWait]
      exact hLast.parks_iff (congrArg Turned.turn hTurned) hCheck
    | @last d o _ hFrames =>
      have hTurned : s.turned world j (.ofOutcome o) r' = _ := v.turn_below hFrames (by simp) o _
      exact absurd hCheck (hLast.not_check (congrArg Turned.turn hTurned))
    | back hFrames =>
      exact (hDozes.not_top hlj hLast.before hLast.turns hFrames rfl).elim

/-- The frame goes on with what the work has brought, passed on. -/
theorem inlined_told {j : Nat} {y : Input} {r' : Run b} {f' : Frame b.Body} (hlj : l < j)
    (hDozes : s.Dozes world l j p f.serial) (hNext : s.Steps world j p y r' f')
    (hSame : f'.serial = f.serial) : ∃ d o, l < d ∧ d < j ∧
      s.job? world d = some (.deliver (r.wait :: p) o) ∧ y = .ofOutcome o.passed := by
  obtain ⟨below, hInlined⟩ := inlined hStep hAnswer hRoom
  have hCounted := hStep.counted (stacked_routed hStep).1
  have hOther : ∀ {g : Frame b.Body} {under : List (Frame b.Body)},
      r'.frames.frames = g :: under → g.serial ≠ r.frames.pushed := by
    intro g under hFrames hSerial
    have hTop := hNext.top
    rw [Frames.top?, hFrames, List.head?_cons] at hTop
    cases hTop
    omega
  cases hInlined hNext.turns hlj hDozes with
  | first hFrames | last hFrames => exact absurd rfl (hOther hFrames)
  | back _ hld hdj hDeliver => exact ⟨_, _, hld, hdj, hDeliver, rfl⟩

theorem inlined_silent {k : Nat} {job : Job b} (hlk : l < k)
    (hDozes : s.Dozes world l (k + 1) p f.serial) (hJob : s.job? world k = some job)
    (hSteers : job.steers p = true) : s.Silent world k := by
  obtain ⟨below, hInlined⟩ := inlined hStep hAnswer hRoom
  refine .of_job hJob (Job.site_of_steers hSteers) fun rest => ?_
  cases job with
  | drive q y =>
    obtain rfl := eq_of_beq hSteers
    obtain ⟨r', hTurns⟩ := exists_turns hJob
    have hSilent : ∀ {t : Turned b}, s.turned world k y r' = t →
        t.world = (s.after world k).machine.world → t.notes = [] →
          Machine.Silent { (s.after world k).machine with agenda := rest } (.drive q y) := by
      rintro t rfl hWorld hNotes
      exact Machine.silent_drive hTurns.find hNotes hWorld
    cases hInlined hTurns hlk (hDozes.mono (Nat.le_succ k)) with
    | first hFrames => exact hSilent (v.turn_start hFrames _) rfl rfl
    | last hFrames => exact hSilent (v.turn_below hFrames (by simp) _ _) rfl rfl
    | back hFrames => exact (hDozes.not_top hlk (Nat.lt_succ_self k) hTurns hFrames rfl).elim
  | check => exact Machine.silent_of_other nofun nofun nofun
  | _ => cases hSteers

section

variable {rest : List (Job b)} (hAgenda : (s.after world l).machine.agenda = .drive p x :: rest)
include hAgenda

theorem agenda_of_inner : ∃ below r',
    (s.after world (l + 1)).machine.agenda = .drive p .start :: rest ∧
    (s.after world (l + 1)).machine.nodes.find? p = some (.run r') ∧ r'.wait = r.wait ∧
      r'.frames.frames = v.fresh r.frames.pushed :: s.lulled world l f x :: below := by
  obtain ⟨below, hTurn, hFrames⟩ := turned_inner hStep hAnswer hRoom
  obtain ⟨hDrive, hFind⟩ := agenda_of_next hStep.turns hTurn hAgenda
  exact ⟨below, _, hDrive, hFind, rfl, hFrames⟩

theorem inlined_leads_to_work : s.Leads world (Job.Tends p) (l + 1) rest fun m =>
    s.job? world m = some (.invoke (r.wait :: p) v.work) ∧
      (s.after world m).machine.agenda = .invoke (r.wait :: p) v.work :: .check p :: rest := by
  obtain ⟨below, r', hDrive, hFind, hWait, hFrames⟩ := agenda_of_inner hStep hAnswer hRoom hAgenda
  refine Leads.of_drive hDrive hFind (Or.inl rfl) fun m _ hTurns hNow => Or.inr ?_
  have hTurned : s.turned world m .start r' = _ := v.turn_start hFrames _
  rw [← hWait]
  exact Leads.of_await hTurns (congrArg Turned.turn hTurned) hNow (Or.inl rfl)

theorem inlined_asked {d : Nat} (hLedger : r.wait :: p ∈ (s.after world d).ledger) :
    ∃ m < d, ∃ r' below, s.Turns world m p .start r' ∧ r'.wait = r.wait ∧
      r'.frames.frames = v.fresh r.frames.pushed :: s.lulled world l f x :: below ∧
      (s.after world m).machine.agenda = .drive p .start :: rest := by
  obtain ⟨below, r', hDrive, hFind, hWait, hFrames⟩ := agenda_of_inner hStep hAnswer hRoom hAgenda
  have hld := hStep.turns.lt_ledger hLedger
  rcases drive_waits hld hDrive hFind with ⟨front, hFront, hSame⟩ | ⟨m, -, hmd, hTurns, hNow⟩
  · -- Until the stand-in is stepped the run has not waited with this number.
    have hMem : .drive p .start ∈ (s.after world d).machine.agenda := by simp [hFront]
    have hBefore := wait_lt_of_drive hMem hSame hLedger
    omega
  · exact ⟨m, hmd, r', below, hTurns, hWait, hFrames, hNow⟩

theorem inlined_leads_back {R : List (Job b)} {d : Nat} {res : Option Outcome}
    (hClosing : s.job? world d = some (.closing (r.wait :: p) res))
    (hNow : (s.after world d).machine.agenda = .closing (r.wait :: p) res :: R) :
    ∃ R', (R' = R ∨ R' = rest ∧
        ∃ front, (s.after world d).machine.agenda = front ++ .check p :: rest) ∧
      s.Leads world (Job.Tends p) d R' fun m =>
        s.Resumes world m p (s.lulled world l f x) R' (res.map Outcome.passed) := by
  obtain ⟨m, hmd, r', below, hTurns, hWait, hFrames, hThen⟩ :=
    inlined_asked hStep hAnswer hRoom hAgenda (mem_ledger_of_closing hClosing)
  have hTurned : s.turned world m .start r' = _ := v.turn_start hFrames _
  have hTurn := congrArg Turned.turn hTurned
  rw [← hWait] at hClosing hNow
  refine Pursues.leads (e := s.quest world m p .start r' v.work .throwing rest)
    (fun R' m => s.Resumes world m p (s.lulled world l f x) R' (res.map Outcome.passed)) ?_ ?_
    (fun k => pursues hTurns hTurn hThen) hmd hClosing hNow
  · rintro n o r'' R' rfl - hTurns' hBack hDrive
    have hStack : r''.frames.frames =
        v.lulled r.frames.pushed :: s.lulled world l f x :: below := by
      rw [hBack.frames, Schedule.quest, hTurned]
    have hTurned' : s.turned world n (.ofOutcome o) r'' = _ := v.turn_below hStack (by simp) o _
    obtain ⟨hDrive', hFind'⟩ := agenda_of_next hTurns' (congrArg Turned.turn hTurned') hDrive
    refine Or.inr (Leads.of_drive hDrive' hFind' (Or.inl rfl) fun n' _ hTurns'' hNow' => Or.inl ?_)
    exact ⟨⟨_, hTurns'', congrArg (fun t => t.frames.top?) hTurned'⟩, hNow'⟩
  · rintro n R' rfl hJob hDrop
    exact ⟨hJob, hDrop⟩

end

end

end Schedule

end Interlace
