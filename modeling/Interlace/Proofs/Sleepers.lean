import Interlace.Proofs.Demos

/-!
# Schedules of the showcase

Runs of the showcase are started, and their timers go off, in any order and however they overlap.
Whatever comes from outside comes when all jobs are done. So each act leads from one scene at which
all jobs are done to the next.
-/

namespace Interlace

open Demo

/-- Runs of the showcase are started and left to their timers. What comes from outside comes when
all jobs are done. No job is left either when a top-level run has called its continuation, so what
the callee begins comes at such a moment, too. A stack has the room that its coroutine needs, a
continuation is called by the timer that holds it, and none is dropped. -/
structure Schedule.Sleepy (s : Schedule behaviour) (world : Gauges) : Prop where
  idle : ∀ k, s k ≠ .work → (s.after world k).AtRest
  shown : ∀ k n demo args limit, s k = .begin n demo args limit →
    demo.IsShown ∧ demo.depth ≤ limit
  timed : ∀ k p o, s k = .call p o →
    ∃ ms, ⟨p, .timed ms o⟩ ∈ (s.after world k).machine.held
  kept : ∀ k p, s k ≠ .drop p

/-- How the scene stands when some runs have been begun and all jobs are done. -/
structure Stands (rs : List Show) (c : Scene behaviour) : Prop where
  rest : c.agenda = []
  fares : ∀ r ∈ rs, r.Fares c
  fresh : ∀ n, n ∉ rs.map Show.number →
    heldOf n c.held = [] ∧ ∀ q, topOf q = some n → c.calls q = []

/-- What one act from outside comes to. -/
inductive Shift (rs : List Show) (c : Scene behaviour) : List Show → Scene behaviour → Prop where
  | begins {r : Show} {c' : Scene behaviour} (hNew : r.number ∉ rs.map Show.number)
      (hFresh : ∀ e ∈ r.sleeps, c.calls e.place = []) (hBeside : c.Beside r.number c')
      (hWorld : c'.world = r.demo.enters c.world) (hFares : r.Fares c')
      (hUnfired : ∀ e ∈ r.sleeps, c'.calls e.place = []) :
      Shift rs c (r :: rs) c'
  | fires {r : Show} {e : Held} {c' : Scene behaviour} (hr : r ∈ rs) (he : e ∈ r.sleeps)
      (hUnfired : c.calls e.place = []) (hBeside : c.Beside r.number c')
      (hFired : r.Fired e c c') : Shift rs c rs c'

theorem Stands.shift {rs rs' : List Show} {c c' : Scene behaviour} (h : Stands rs c)
    (hDistinct : (rs.map Show.number).Nodup) (hShift : Shift rs c rs' c') (hRest : c'.agenda = []) :
    Stands rs' c' := by
  cases hShift with
  | @begins r _ hNew _ hBeside _ hFares =>
    refine ⟨hRest, List.forall_mem_cons.mpr ⟨hFares, fun r' hr' => ?_⟩, fun n hn => ?_⟩
    · refine (h.fares r' hr').beside hBeside fun hSame => hNew ?_
      exact hSame ▸ List.mem_map_of_mem hr'
    · obtain ⟨hFirst, hOthers⟩ : n ≠ r.number ∧ n ∉ rs.map Show.number := by simpa using hn
      obtain ⟨hHeld, hCalls⟩ := h.fresh n hOthers
      refine ⟨(hBeside.held n hFirst).trans hHeld, fun q hq => ?_⟩
      exact (hBeside.calls q (by simpa [hq] using hFirst)).trans (hCalls q hq)
  | @fires r _ _ hr _ _ hBeside hFired =>
    refine ⟨hRest, fun r' hr' => ?_, fun n hn => ?_⟩
    · by_cases hSame : r'.number = r.number
      · cases List.inj_on_of_nodup_map hDistinct hr' hr hSame
        exact hFired.fares
      · exact (h.fares r' hr').beside hBeside hSame
    · have hOther : n ≠ r.number := fun hSame => hn (hSame ▸ List.mem_map_of_mem hr)
      obtain ⟨hHeld, hCalls⟩ := h.fresh n hn
      refine ⟨(hBeside.held n hOther).trans hHeld, fun q hq => ?_⟩
      exact (hBeside.calls q (by simpa [hq] using hOther)).trans (hCalls q hq)

namespace Schedule

variable (s : Schedule behaviour) (world : Gauges)

def shows : Nat → List Show
  | 0 => []
  | k + 1 =>
    match s k with
    | .begin n demo args limit =>
      if n ∈ (s.after world k).begun then shows k else ⟨n, demo, args, limit⟩ :: shows k
    | _ => shows k

theorem begun_eq (k : Nat) : (s.after world k).begun = (s.shows world k).map Show.number := by
  induction k with
  | zero => rfl
  | succ k ih =>
    have hAfter : s.after world (k + 1) = (s.after world k).move (s k) := rfl
    rw [hAfter, shows]
    cases hMove : s k with
    | begin n demo args limit =>
      simp only [History.move]
      split
      · exact ih
      · exact congrArg (n :: ·) ih
    | work | call | drop =>
      rw [History.begun_move (by simp)]
      exact ih

theorem distinct (k : Nat) : ((s.shows world k).map Show.number).Nodup := by
  induction k with
  | zero => exact List.nodup_nil
  | succ k ih =>
    rw [shows]
    split
    · split
      · exact ih
      · rename_i hNew
        rw [begun_eq] at hNew
        exact List.nodup_cons.mpr ⟨hNew, ih⟩
    · exact ih

variable {s world} (hSleepy : s.Sleepy world) {safe : Gauges → Gauges → Prop}
include hSleepy

theorem Sleepy.reaches {k : Nat} {h : History behaviour} (hWorks : (s.after world k).Works safe h) :
    ∃ l, k ≤ l ∧ s.after world l = h := by
  generalize hStart : s.after world k = start at hWorks
  induction hWorks using Relation.ReflTransGen.head_induction_on generalizing k with
  | refl => exact ⟨k, Nat.le_refl k, hStart⟩
  | head hStep _ ih =>
    obtain ⟨job, rest, hAgenda, rfl, -⟩ := hStep
    subst hStart
    have hMove : s k = .work := by
      by_contra hOutside
      have hRest : (s.after world k).machine.agenda = [] := hSleepy.idle k hOutside
      rw [hAgenda] at hRest
      cases hRest
    have hAfter : s.after world (k + 1) = (s.after world k).move (s k) := rfl
    rw [hMove, History.move_work hAgenda] at hAfter
    obtain ⟨l, hkl, hEnd⟩ := ih hAfter
    exact ⟨l, Nat.le_of_succ_le hkl, hEnd⟩

section Act

variable {k : Nat} (hRest : (s.after world k).AtRest)
  (hStands : Stands (s.shows world k) (s.after world k).scene)
include hRest hStands

theorem Sleepy.begins (hEnter : ∀ world gauge, safe world (world.enter gauge)) {r : Show}
    (hMove : s k = .begin r.number r.demo r.args r.limit)
    (hNew : r.number ∉ (s.after world k).begun) :
    ∃ h', (s.after world (k + 1)).Works safe h' ∧ h'.AtRest ∧
      Shift (s.shows world k) (s.after world k).scene (s.shows world (k + 1)) h'.scene := by
  have hShows : s.shows world (k + 1) = r :: s.shows world k := by
    rw [shows, hMove]
    exact if_neg hNew
  have hScene : (s.after world (k + 1)).scene =
      { (s.after world k).scene with agenda := [.start [r.number] r.demo r.args r.limit] } := by
    have hAfter : s.after world (k + 1) = (s.after world k).move (s k) := rfl
    have hAgenda : (s.after world k).machine.agenda = [] := hRest
    rw [hAfter, hMove]
    simp only [History.move, if_neg hNew, History.afterAct, Machine.act, Machine.push,
      History.scene, hAgenda]
    rfl
  rw [begun_eq] at hNew
  obtain ⟨hHeld, hCalls⟩ := hStands.fresh r.number hNew
  obtain ⟨hShown, hDepth⟩ := hSleepy.shown k _ _ _ _ hMove
  obtain ⟨c', hLeads, hEnd, hWorld, hFares, hUnfired⟩ :=
    @Show.begins safe r hEnter _ (s.after world k).scene.world _ _ hHeld hCalls hShown hDepth
      (s.sound world k).find?_nil
  obtain ⟨h', hWorks, rfl⟩ := hLeads.works _ hScene
  refine ⟨h', hWorks, hEnd, ?_⟩
  rw [hShows]
  exact .begins hNew (fun e he => hCalls _ (topOf_sleeps he))
    ⟨hLeads.beside.nodes, hLeads.beside.held, hLeads.beside.calls⟩ hWorld hFares hUnfired

theorem Sleepy.fires (hLeave : ∀ r ∈ s.shows world k, ∀ e ∈ r.sleeps,
      (s.after world k).calls e.place = [] →
      r.demo.leaves (s.after world k).machine.world = (s.after world k).machine.world ∨
        safe (s.after world k).machine.world (r.demo.leaves (s.after world k).machine.world))
    {p : Place} {o : Outcome} (hMove : s k = .call p o) :
    ∃ h', (s.after world (k + 1)).Works safe h' ∧ h'.AtRest ∧
      Shift (s.shows world k) (s.after world k).scene (s.shows world (k + 1)) h'.scene := by
  have hShows : s.shows world (k + 1) = s.shows world k := by
    rw [shows, hMove]
  obtain ⟨ms, hHeld⟩ := hSleepy.timed k p o hMove
  have hTake : takePlace p (s.after world k).machine.held =
      some (without p (s.after world k).machine.held) :=
    if_pos (List.any_eq_true.mpr ⟨_, hHeld, beq_self_eq_true p⟩)
  obtain ⟨n, hTop⟩ := History.exists_top_of_held (s.sound world k) (List.mem_map_of_mem hHeld)
  have hOwn : ⟨p, .timed ms o⟩ ∈ heldOf n (s.after world k).machine.held :=
    mem_heldOf.mpr ⟨hHeld, hTop⟩
  have hScene : (s.after world (k + 1)).scene = { (s.after world k).scene with
      held := without p (s.after world k).machine.held, agenda := [.deliver p o] } := by
    have hAfter : s.after world (k + 1) = (s.after world k).move (s k) := rfl
    have hAgenda : (s.after world k).machine.agenda = [] := hRest
    rw [hAfter, hMove]
    simp only [History.move, History.afterAct, Machine.act, hTake, Machine.push, History.scene,
      hAgenda]
    rfl
  obtain ⟨r, hr, rfl⟩ : ∃ r ∈ s.shows world k, r.number = n := by
    by_contra hNone
    have hEmpty : heldOf n (s.after world k).machine.held = [] :=
      (hStands.fresh n fun hn => hNone (List.mem_map.mp hn)).1
    rw [hEmpty] at hOwn
    cases hOwn
  have hFares := hStands.fares r hr
  obtain ⟨he, hUnfired⟩ := hFares.mem_held.mp hOwn
  obtain ⟨c', hLeads, hFired⟩ := hFares.fires (s.sound world k).find?_nil hOwn rfl
    (hLeave r hr _ he hUnfired)
  obtain ⟨h', hWorks, rfl⟩ := hLeads.works _ hScene
  refine ⟨h', hWorks, hFired.rest, ?_⟩
  rw [hShows]
  refine .fires hr he hUnfired ⟨hLeads.beside.nodes, fun m hm => ?_, hLeads.beside.calls⟩ hFired
  refine (hLeads.beside.held m hm).trans (heldOf_takePlace hTake ?_)
  rw [hTop]
  exact fun h => hm (Option.some.inj h).symm

end Act

omit hSleepy in
theorem works_of_rest {h h' : History behaviour} (hRest : h.AtRest) (hWorks : h.Works safe h') :
    h' = h := by
  rcases Relation.ReflTransGen.cases_head hWorks with rfl | ⟨_, ⟨job, rest, hAgenda, -⟩, -⟩
  · rfl
  · have hNone : h.machine.agenda = [] := hRest
    rw [hAgenda] at hNone
    cases hNone

omit hSleepy in
variable (s world safe) in
/-- The jobs that are left to do lead to where all are done and something is so. -/
def Upcoming (k : Nat) (P : Scene behaviour → Prop) : Prop :=
  ∃ h', (s.after world k).Works safe h' ∧ Stands (s.shows world k) h'.scene ∧ P h'.scene

section Upcoming

variable {P : Nat → Scene behaviour → Prop} {safe : Nat → Gauges → Gauges → Prop}
  (hSafe : ∀ k w w', safe k w w' → safe (k + 1) w w')
  (hStay : ∀ k c, s.shows world (k + 1) = s.shows world k → P k c → P (k + 1) c) {k : Nat}
include hSafe hStay

theorem Sleepy.upcoming_work (hUpcoming : s.Upcoming world (safe k) k (P k))
    (hBusy : ¬(s.after world k).AtRest) : s.Upcoming world (safe (k + 1)) (k + 1) (P (k + 1)) := by
  obtain ⟨h, hWorks, hStands, hP⟩ := hUpcoming
  have hAfter : s.after world (k + 1) = (s.after world k).move (s k) := rfl
  have hMove : s k = .work := by
    by_contra hOutside
    exact hBusy (hSleepy.idle k hOutside)
  have hShows : s.shows world (k + 1) = s.shows world k := by
    rw [shows, hMove]
  rcases Relation.ReflTransGen.cases_head hWorks with
    rfl | ⟨_, ⟨job, rest, hAgenda, rfl, -⟩, hLater⟩
  · exact absurd hStands.rest hBusy
  · rw [hMove, History.move_work hAgenda] at hAfter
    rw [Upcoming, hAfter, hShows]
    exact ⟨h, History.Works.mono hLater (hSafe k), hStands, hStay k _ hShows hP⟩

theorem Sleepy.upcoming_act (hEnter : ∀ k world gauge, safe k world (world.enter gauge))
    (hLeave : P k (s.after world k).scene → ∀ r ∈ s.shows world k, ∀ e ∈ r.sleeps,
      (s.after world k).calls e.place = [] →
      r.demo.leaves (s.after world k).machine.world = (s.after world k).machine.world ∨
        safe k (s.after world k).machine.world (r.demo.leaves (s.after world k).machine.world))
    (hShift : ∀ c', s k ≠ .work → P k (s.after world k).scene →
      Shift (s.shows world k) (s.after world k).scene (s.shows world (k + 1)) c' → P (k + 1) c')
    (hRest : (s.after world k).AtRest) (hStands : Stands (s.shows world k) (s.after world k).scene)
    (hP : P k (s.after world k).scene) : s.Upcoming world (safe (k + 1)) (k + 1) (P (k + 1)) := by
  have hAfter : s.after world (k + 1) = (s.after world k).move (s k) := rfl
  have hStill : s.after world (k + 1) = s.after world k →
      s.shows world (k + 1) = s.shows world k →
      s.Upcoming world (safe (k + 1)) (k + 1) (P (k + 1)) := by
    intro hSame hShows
    rw [Upcoming, hSame]
    exact ⟨_, .refl, hShows ▸ hStands, hStay k _ hShows hP⟩
  have hActs : s k ≠ .work → (∃ h', (s.after world (k + 1)).Works (safe k) h' ∧ h'.AtRest ∧
        Shift (s.shows world k) (s.after world k).scene (s.shows world (k + 1)) h'.scene) →
      s.Upcoming world (safe (k + 1)) (k + 1) (P (k + 1)) := by
    rintro hMove ⟨h', hWorks', hEnd, hAct⟩
    exact ⟨h', hWorks'.mono (hSafe k), hStands.shift (s.distinct world k) hAct hEnd,
      hShift _ hMove hP hAct⟩
  cases hMove : s k with
  | work =>
    refine hStill (hAfter.trans ?_) (by rw [shows, hMove])
    rw [hMove]
    exact History.move_rest hRest
  | begin n demo args limit =>
    by_cases hNew : n ∈ (s.after world k).begun
    · refine hStill (hAfter.trans ?_) (by rw [shows, hMove]; exact if_pos hNew)
      rw [hMove]
      exact if_pos hNew
    · exact hActs (by simp [hMove]) (@Sleepy.begins s world hSleepy (safe k) k hRest hStands
        (hEnter k) ⟨n, demo, args, limit⟩ hMove hNew)
  | call p o => exact hActs (by simp [hMove]) (hSleepy.fires hRest hStands (hLeave hP) hMove)
  | drop p => exact absurd hMove (hSleepy.kept k p)

/-- What is so at first, and stays so by each act, is so whenever all jobs are done next. -/
theorem Sleepy.upcoming (hEnter : ∀ k world gauge, safe k world (world.enter gauge))
    (hLeave : ∀ k, P k (s.after world k).scene → ∀ r ∈ s.shows world k, ∀ e ∈ r.sleeps,
      (s.after world k).calls e.place = [] →
      r.demo.leaves (s.after world k).machine.world = (s.after world k).machine.world ∨
        safe k (s.after world k).machine.world (r.demo.leaves (s.after world k).machine.world))
    (hNew : P 0 (s.after world 0).scene)
    (hShift : ∀ k c', s k ≠ .work → P k (s.after world k).scene →
      Shift (s.shows world k) (s.after world k).scene (s.shows world (k + 1)) c' → P (k + 1) c')
    (k : Nat) : s.Upcoming world (safe k) k (P k) := by
  induction k with
  | zero => exact ⟨_, .refl, ⟨rfl, nofun, fun _ _ => ⟨rfl, fun _ _ => rfl⟩⟩, hNew⟩
  | succ k ih =>
    by_cases hRest : (s.after world k).AtRest
    · obtain ⟨h, hWorks, hStands, hP⟩ := ih
      cases works_of_rest hRest hWorks
      exact hSleepy.upcoming_act hSafe hStay hEnter (hLeave k) (hShift k) hRest hStands hP
    · exact hSleepy.upcoming_work hSafe hStay ih hRest

end Upcoming

theorem Sleepy.ahead (k : Nat) : ∃ h', (s.after world k).Works (fun _ _ => True) h' ∧
    Stands (s.shows world k) h'.scene := by
  obtain ⟨h, hWorks, hStands, -⟩ := @Sleepy.upcoming s world hSleepy (fun _ _ => True)
    (fun _ _ _ => True) (fun _ _ _ _ => trivial) (fun _ _ _ _ => trivial) (fun _ _ _ => trivial)
    (fun _ _ _ _ _ _ _ => Or.inr trivial) trivial (fun _ _ _ _ _ => trivial) k
  exact ⟨h, hWorks, hStands⟩

theorem Sleepy.exists_rest (k : Nat) : ∃ l, k ≤ l ∧ (s.after world l).AtRest := by
  obtain ⟨h, hWorks, hStands⟩ := hSleepy.ahead k
  obtain ⟨l, hkl, rfl⟩ := hSleepy.reaches hWorks
  exact ⟨l, hkl, hStands.rest⟩

theorem Sleepy.stands {k : Nat} (hRest : (s.after world k).AtRest) :
    Stands (s.shows world k) (s.after world k).scene := by
  obtain ⟨h, hWorks, hStands⟩ := hSleepy.ahead k
  exact works_of_rest hRest hWorks ▸ hStands

omit hSleepy in
theorem mem_shows {j k : Nat} (hjk : j ≤ k) {r : Show} (hr : r ∈ s.shows world j) :
    r ∈ s.shows world k := by
  induction hjk with
  | refl => exact hr
  | step _ ih =>
    rw [shows]
    split
    · split
      · exact ih
      · exact List.mem_cons_of_mem _ ih
    · exact ih

omit hSleepy in
theorem calls_prefix {j k : Nat} (hjk : j ≤ k) (p : Place) :
    (s.after world j).calls p <+: (s.after world k).calls p :=
  (s.log_prefix world hjk).filterMap _

end Schedule

/-! ## What a run delivers -/

/-- The continuation of the run `n` is called once, with the result, as soon as all of the sleeps at
the given places have ended. At no moment was it called twice or with anything else, nor was it
dropped, or an error kept from it. -/
structure Schedule.Delivers (s : Schedule behaviour) (world : Gauges) (k n : Nat)
    (sleeps : List Place) (result : Datum) : Prop where
  called : (s.after world k).AtRest → (∀ p ∈ sleeps, (s.after world k).calls p ≠ []) →
    (s.after world k).calls [n] = [.ok result]
  silent : (s.after world k).AtRest → ∀ p ∈ sleeps, (s.after world k).calls p = [] →
    (s.after world k).calls [n] = []
  once : (s.after world k).calls [n] <+: [.ok result]
  kept : ∀ event ∈ (s.after world k).log, event.closed? = some [n] →
    event = .called [n] (.ok result)

theorem Demo.Show.Fares.run_or_called {r : Show} {c : Scene behaviour} (h : r.Fares c) :
    (∃ run, c.nodes [r.number] = some (.run run)) ∨
      c.calls [r.number] = [.ok (r.demo.result r.args)] := by
  cases h with
  | gathers _ hGathers => exact Or.inl ⟨_, hGathers.run⟩
  | captures _ hRun | delegates _ hRun => exact Or.inl ⟨_, hRun⟩
  | ended hCalled => exact Or.inr hCalled

theorem Schedule.Sleepy.delivers {s : Schedule behaviour} {world : Gauges}
    (hSleepy : s.Sleepy world) {k : Nat} {r : Show} (hr : r ∈ s.shows world k) :
    s.Delivers world k r.number (r.sleeps.map Held.place) (r.demo.result r.args) where
  called hRest hFired := ((hSleepy.stands hRest).fares r hr).called fun e he =>
    hFired _ (List.mem_map_of_mem he)
  silent hRest p hp hUnfired := by
    obtain ⟨e, he, rfl⟩ := List.mem_map.mp hp
    exact ((hSleepy.stands hRest).fares r hr).silent he hUnfired
  once := by
    obtain ⟨l, hkl, hRest⟩ := hSleepy.exists_rest k
    have hFares := (hSleepy.stands hRest).fares r (Schedule.mem_shows hkl hr)
    refine (Schedule.calls_prefix hkl _).trans ?_
    by_cases hFired : ∀ e ∈ r.sleeps, (s.after world l).calls e.place ≠ []
    · have hCalled : (s.after world l).calls [r.number] = _ := hFares.called hFired
      exact hCalled ▸ List.prefix_rfl
    · obtain ⟨e, he, hUnfired⟩ : ∃ e ∈ r.sleeps, (s.after world l).calls e.place = [] := by
        simpa using hFired
      have hSilent : (s.after world l).calls [r.number] = [] := hFares.silent he hUnfired
      rw [hSilent]
      exact List.nil_prefix
  kept event hEvent hClosed := by
    obtain ⟨l, hkl, hRest⟩ := hSleepy.exists_rest k
    have hLater := s.mem_log world hkl hEvent
    have hFares := (hSleepy.stands hRest).fares r (Schedule.mem_shows hkl hr)
    rcases hFares.run_or_called with ⟨run, hRun⟩ | hCalled
    · refine absurd ((s.sound world l).opened_of_run hRun) (Schedule.not_opened_of_closed ?_)
      exact List.mem_filterMap.mpr ⟨event, hLater, hClosed⟩
    · have hMem : .ok (r.demo.result r.args) ∈ (s.after world l).calls [r.number] := by
        rw [show (s.after world l).calls [r.number] = _ from hCalled]
        exact List.mem_singleton_self _
      exact Schedule.closed_unique hLater (History.mem_calls.mp hMem) hClosed rfl

/-! ## The two lookups -/

/-- A lookup that captures and a lookup that delegates come to the same. What was begun, and each
sleep that has ended, is followed up. -/
structure Schedule.LooksUp (s : Schedule behaviour) (world : Gauges) : Prop where
  rests : ∀ k, ∃ l, k ≤ l ∧ (s.after world l).AtRest
  captured : ∀ k n args limit, ⟨n, .lookupCaptured, args, limit⟩ ∈ s.shows world k →
    s.Delivers world k n [[0, 0, n]] (found args)
  delegated : ∀ k n args limit, ⟨n, .lookupDelegated, args, limit⟩ ∈ s.shows world k →
    s.Delivers world k n [[0, n]] (found args)
  agree : ∀ k n n' args limit limit', ⟨n, .lookupCaptured, args, limit⟩ ∈ s.shows world k →
    ⟨n', .lookupDelegated, args, limit'⟩ ∈ s.shows world k → (s.after world k).AtRest →
    (s.after world k).calls [0, 0, n] ≠ [] → (s.after world k).calls [0, n'] ≠ [] →
    (s.after world k).calls [n] = (s.after world k).calls [n']

theorem Schedule.lookups_agree {s : Schedule behaviour} {world : Gauges}
    (hSleepy : s.Sleepy world) : s.LooksUp world where
  rests := hSleepy.exists_rest
  captured _ _ _ _ hr := hSleepy.delivers hr
  delegated _ _ _ _ hr := hSleepy.delivers hr
  agree k n n' args _ _ hr hr' hRest hFired hFired' := by
    have hCaptured : (s.after world k).calls [n] = [.ok (found args)] :=
      (hSleepy.delivers hr).called hRest (List.forall_mem_singleton.mpr hFired)
    have hDelegated : (s.after world k).calls [n'] = [.ok (found args)] :=
      (hSleepy.delivers hr').called hRest (List.forall_mem_singleton.mpr hFired')
    rw [hCaptured, hDelegated]

namespace Schedule

/-- Both lookups of a key that is not there; the one begun last is over first. -/
def missing : Schedule behaviour
  | 0 => .begin 0 .lookupCaptured [.text "none"] 2
  | 10 => .begin 1 .lookupDelegated [.text "none"] 2
  | 18 => .call [0, 1] (.ok (.number (Number.ofNat 5)))
  | 23 => .call [0, 0, 0] (.ok (.number (Number.ofNat 5)))
  | _ => .work

theorem sleepy_missing : missing.Sleepy .empty where
  idle k hMove := by
    unfold missing at hMove
    split at hMove
    case h_5 => exact absurd rfl hMove
    all_goals decide +kernel
  shown k n demo args limit hMove := by
    unfold missing at hMove
    split at hMove <;> cases hMove
    · exact ⟨trivial, by decide⟩
    · exact ⟨trivial, by decide⟩
  timed k p o hMove := by
    unfold missing at hMove
    split at hMove <;> cases hMove
    · exact ⟨5, List.mem_of_getElem? (i := 1) rfl⟩
    · exact ⟨5, List.mem_of_getElem? (i := 0) rfl⟩
  kept k p hMove := by
    unfold missing at hMove
    split at hMove <;> cases hMove

theorem lookups_agree_missing : missing.Sleepy .empty ∧ missing.LooksUp .empty :=
  ⟨sleepy_missing, lookups_agree sleepy_missing⟩

end Schedule

end Interlace
