import Interlace.Proofs.Timeline
import Interlace.Session

/-!
# Sessions keep to schedules

Whatever a session does to its machine are moves of a schedule. So what holds of the machine after
the moves of every schedule holds of the machine of every session.
-/

namespace Interlace

variable {b : Behaviour}

theorem Schedule.after_congr {s s' : Schedule b} (world : b.World) {k : Nat}
    (hSame : ∀ j < k, s j = s' j) : s.after world k = s'.after world k := by
  induction k with
  | zero => rfl
  | succ k ih =>
    rw [after, after, hSame k (Nat.lt_succ_self k), ih fun j hj => hSame j (Nat.lt_succ_of_lt hj)]

namespace History

def Reachable (world : b.World) (h : History b) : Prop :=
  ∃ (s : Schedule b) (k : Nat), s.after world k = h

variable {world : b.World} {h : History b}

theorem Reachable.move (hReachable : h.Reachable world) (mv : Move b) :
    (h.move mv).Reachable world := by
  obtain ⟨s, k, rfl⟩ := hReachable
  have hSame : ∀ j < k, (fun j => if j < k then s j else mv) j = s j := by
    intro j hj
    exact if_pos hj
  refine ⟨fun j => if j < k then s j else mv, k + 1, ?_⟩
  rw [Schedule.after, Schedule.after_congr world hSame, if_neg (Nat.lt_irrefl k)]

theorem Reachable.runWith {α : Type} (watch : α → Event b → α) (fuel : Nat) (seen : α)
    (hReachable : h.Reachable world) :
    ∃ (h' : History b) (events : List (Event b)), h'.Reachable world ∧ h'.begun = h.begun ∧
      h'.log = h.log ++ events ∧
      Machine.runWith watch fuel seen h.machine = (events.foldl watch seen, h'.machine) := by
  induction fuel generalizing h seen with
  | zero => exact ⟨h, [], hReachable, rfl, (List.append_nil _).symm, rfl⟩
  | succ fuel ih =>
    cases hAgenda : h.machine.agenda with
    | nil =>
      refine ⟨h, [], hReachable, rfl, (List.append_nil _).symm, ?_⟩
      simp [Machine.runWith, Machine.step?, hAgenda]
    | cons job rest =>
      have hMove : h.move .work = h.afterJob job rest := by simp [History.move, hAgenda]
      have hNext := hReachable.move .work
      rw [hMove] at hNext
      obtain ⟨h', events, hReachable', hBegun, hLog, hRun⟩ := ih
        (({ h.machine with agenda := rest }.perform job).1.foldl watch seen) hNext
      refine ⟨h', ({ h.machine with agenda := rest }.perform job).1 ++ events, hReachable', hBegun,
        ?_, ?_⟩
      · rw [hLog, afterJob, List.append_assoc]
      · rw [Machine.runWith, Machine.step?, hAgenda, List.foldl_append]
        exact hRun

end History

def Errand.begun? : Errand b → Option Nat
  | .begin n _ _ _ => some n
  | _ => none

namespace Session

variable {world : b.World} {s : Session b} {h : History b}

def queued (s : Session b) : List Nat := s.errands.filterMap Errand.begun?

/-- A session stands at a history: it has its machine, and begins no run a second time. -/
structure Hosts (s : Session b) (world : b.World) (h : History b) : Prop where
  machine : s.machine = h.machine
  reachable : h.Reachable world
  numbered : ∀ n ∈ s.queued ++ h.begun, n < s.launches.size
  once : (s.queued ++ h.begun).Nodup

theorem Hosts.of_eq {s' : Session b} (hHosts : s.Hosts world h) (hMachine : s'.machine = s.machine)
    (hLaunches : s'.launches.size = s.launches.size) (hQueued : s'.queued = s.queued) :
    s'.Hosts world h := by
  refine ⟨hMachine.trans hHosts.machine, hHosts.reachable, ?_, ?_⟩
  · rw [hQueued, hLaunches]
    exact hHosts.numbered
  · rw [hQueued]
    exact hHosts.once

@[simp] theorem queued_enqueue (s : Session b) (e : Errand b) :
    (s.enqueue e).queued = s.queued ++ e.begun?.toList := by
  rw [queued, queued, enqueue, List.filterMap_append]
  cases e <;> rfl

theorem settle_same (s : Session b) (n : Nat) (told : Option Outcome) (o : Outcome) :
    (s.settle n told o).machine = s.machine ∧ (s.settle n told o).launches = s.launches ∧
      (s.settle n told o).queued = s.queued := by
  rw [settle]
  cases s.launches[n]? with
  | none => exact ⟨rfl, rfl, rfl⟩
  | some launch =>
    dsimp only
    cases launch.via with
    | callback => cases told <;> exact ⟨rfl, rfl, rfl⟩
    | future =>
      dsimp only
      split
      · exact ⟨rfl, rfl, rfl⟩
      · exact ⟨rfl, rfl, by simp [Errand.begun?]⟩

theorem observe_same (s : Session b) (event : Event b) :
    (s.observe event).machine = s.machine ∧ (s.observe event).launches = s.launches ∧
      (s.observe event).queued = s.queued := by
  fun_cases observe s event with
  | case3 p ms o => exact ⟨rfl, rfl, by simp [Errand.begun?]⟩
  | case4 n o => exact s.settle_same n _ o
  | case5 n => exact s.settle_same n _ _
  | case1 | case2 | case6 | case7 => exact ⟨rfl, rfl, rfl⟩

theorem observe_foldl (events : List (Event b)) (s : Session b) :
    (events.foldl observe s).launches = s.launches ∧
      (events.foldl observe s).queued = s.queued := by
  induction events generalizing s with
  | nil => exact ⟨rfl, rfl⟩
  | cons event events ih =>
    obtain ⟨-, hLaunches, hQueued⟩ := s.observe_same event
    obtain ⟨hLaunches', hQueued'⟩ := ih (s.observe event)
    exact ⟨hLaunches'.trans hLaunches, hQueued'.trans hQueued⟩

theorem Hosts.drain (hHosts : s.Hosts world h) (fuel : Nat) :
    ∃ h', (s.drain fuel).Hosts world h' ∧ h'.begun = h.begun := by
  obtain ⟨h', events, hReachable, hBegun, -, hRun⟩ := hHosts.reachable.runWith observe fuel s
  rw [← hHosts.machine] at hRun
  obtain ⟨hLaunches, hQueued⟩ := observe_foldl events s
  have hDrain : s.drain fuel = { events.foldl observe s with machine := h'.machine } := by
    rw [Session.drain, hRun]
  refine ⟨h', ?_, hBegun⟩
  rw [hDrain]
  refine ⟨rfl, hReachable, ?_, ?_⟩
  · rw [hBegun]
    change ∀ n ∈ (events.foldl observe s).queued ++ h.begun,
      n < (events.foldl observe s).launches.size
    rw [hQueued, hLaunches]
    exact hHosts.numbered
  · rw [hBegun]
    change ((events.foldl observe s).queued ++ h.begun).Nodup
    rw [hQueued]
    exact hHosts.once

theorem Hosts.act (hHosts : s.Hosts world h) (fuel : Nat) (mv : Move b) {a : Machine.Act b}
    (hMove : h.move mv = h.afterAct a) : ∃ h', (s.act fuel a).Hosts world h' := by
  have hNext : ({ s with machine := s.machine.act a } : Session b).Hosts world (h.move mv) := by
    refine ⟨?_, hHosts.reachable.move mv, ?_, ?_⟩
    · rw [hMove, hHosts.machine]
      rfl
    · rw [hMove]
      exact hHosts.numbered
    · rw [hMove]
      exact hHosts.once
  obtain ⟨h', hHosts', -⟩ := hNext.drain fuel
  exact ⟨h', hHosts'⟩

theorem Hosts.begin (hHosts : s.Hosts world h) (fuel : Nat) {n : Nat} (hn : n < s.launches.size)
    (hNew : n ∉ s.queued ++ h.begun) (recipe : b.Recipe) (args : List Datum) (limit : Nat) :
    ∃ h', (s.act fuel (.begin n recipe args limit)).Hosts world h' := by
  have hFresh : n ∉ h.begun := fun hMem => hNew (List.mem_append_right _ hMem)
  have hMove : h.move (.begin n recipe args limit) =
      { h.afterAct (.begin n recipe args limit) with begun := n :: h.begun } := by
    simp [History.move, hFresh]
  have hNext : ({ s with machine := s.machine.act (.begin n recipe args limit) } : Session b).Hosts
      world (h.move (.begin n recipe args limit)) := by
    refine ⟨?_, hHosts.reachable.move _, ?_, ?_⟩
    · rw [hMove, hHosts.machine]
      rfl
    · rw [hMove]
      intro m hm
      rcases List.mem_append.mp hm with hm | hm
      · exact hHosts.numbered m (List.mem_append_left _ hm)
      · rcases List.mem_cons.mp hm with rfl | hm
        · exact hn
        · exact hHosts.numbered m (List.mem_append_right _ hm)
    · rw [hMove]
      exact List.nodup_middle.mpr (List.nodup_cons.mpr ⟨hNew, hHosts.once⟩)
  obtain ⟨h', hHosts', -⟩ := hNext.drain fuel
  exact ⟨h', hHosts'⟩

theorem recordFuture_same (s : Session b) (n : Nat) (o : Outcome) :
    (s.recordFuture n o).machine = s.machine ∧ (s.recordFuture n o).launches = s.launches ∧
      (s.recordFuture n o).queued = s.queued := by
  rw [recordFuture]
  cases s.launches[n]? <;> exact ⟨rfl, rfl, rfl⟩

theorem Hosts.recordFuture (hHosts : s.Hosts world h) (n : Nat) (o : Outcome) :
    (s.recordFuture n o).Hosts world h := by
  obtain ⟨hMachine, hLaunches, hQueued⟩ := s.recordFuture_same n o
  exact hHosts.of_eq hMachine (by rw [hLaunches]) hQueued

theorem Hosts.run {e : Errand b} {errands : List (Errand b)} (hErrands : s.errands = e :: errands)
    (hHosts : s.Hosts world h) (fuel : Nat) :
    ∃ h', (({ s with errands } : Session b).run fuel e).Hosts world h' := by
  have hQueued : s.queued = e.begun?.toList ++ ({ s with errands } : Session b).queued := by
    rw [queued, hErrands, queued]
    cases e <;> rfl
  have hNumbered := hHosts.numbered
  have hOnce := hHosts.once
  rw [hQueued, List.append_assoc] at hNumbered hOnce
  have hTaken : ({ s with errands } : Session b).Hosts world h :=
    ⟨hHosts.machine, hHosts.reachable, fun n hn => hNumbered n (List.mem_append_right _ hn),
      (List.nodup_append'.mp hOnce).2.1⟩
  cases e with
  | begin n recipe args limit =>
    have hPolled : ({ s with
        errands, polling := some n, ending := none } : Session b).Hosts world h :=
      hTaken.of_eq rfl rfl rfl
    obtain ⟨h', hBegun⟩ := hPolled.begin fuel (hNumbered n (by simp [Errand.begun?]))
      (List.nodup_cons.mp hOnce).1 recipe args limit
    refine ⟨h', ?_⟩
    rw [Session.run]
    dsimp only
    split
    · refine Hosts.recordFuture ?_ n _
      exact hBegun.of_eq rfl rfl rfl
    · exact hBegun.of_eq rfl rfl rfl
  | setTimer p ms o =>
    rw [Session.run]
    split
    · exact hTaken.act fuel (.call p o) rfl
    · exact ⟨h, hTaken.of_eq rfl rfl rfl⟩
  | ring p o => exact hTaken.act fuel (.call p o) rfl
  | wake n o => exact ⟨h, hTaken.recordFuture n o⟩

theorem Hosts.rest (hHosts : s.Hosts world h) (fuel : Nat) :
    ∃ h', (Session.rest fuel s).Hosts world h' := by
  induction fuel generalizing s h with
  | zero => exact ⟨h, hHosts⟩
  | succ fuel ih =>
    rw [Session.rest]
    cases hErrands : s.errands with
    | nil => exact ⟨h, hHosts⟩
    | cons e errands =>
      obtain ⟨h', hHosts'⟩ := hHosts.run hErrands fuel
      exact ih hHosts'

theorem Hosts.moveTo (hHosts : s.Hosts world h) (fuel time : Nat) :
    ∃ h', (s.moveTo fuel time).Hosts world h' := by
  have hNone : (Errand.begun? ∘ fun t : Timer => (.ring t.place t.outcome : Errand b)) =
      fun _ => none := rfl
  rw [Session.moveTo]
  apply Hosts.rest
  refine hHosts.of_eq rfl rfl ?_
  rw [queued, queued, List.filterMap_append, List.filterMap_map, hNone]
  simp

theorem Hosts.advanceTo (hHosts : s.Hosts world h) (fuel time : Nat) :
    ∃ h', (Session.advanceTo fuel s time).Hosts world h' := by
  induction fuel generalizing s h with
  | zero => exact ⟨h, hHosts⟩
  | succ fuel ih =>
    rw [Session.advanceTo]
    cases s.nextDue? with
    | none => exact ⟨h, hHosts.of_eq rfl rfl rfl⟩
    | some due =>
      dsimp only
      split
      · obtain ⟨h', hHosts'⟩ := hHosts.moveTo fuel due
        exact ih hHosts'
      · exact ⟨h, hHosts.of_eq rfl rfl rfl⟩

theorem Hosts.exhaust (hHosts : s.Hosts world h) (fuel : Nat) :
    ∃ h', (Session.exhaust fuel s).Hosts world h' := by
  induction fuel generalizing s h with
  | zero => exact ⟨h, hHosts⟩
  | succ fuel ih =>
    rw [Session.exhaust]
    cases s.nextDue? with
    | none => exact ⟨h, hHosts⟩
    | some due =>
      obtain ⟨h', hHosts'⟩ := hHosts.moveTo fuel due
      exact ih hHosts'

/-- What a host can do to a session. -/
inductive Reached (world : b.World) : Session b → Prop where
  | new : Reached world (.new world)
  | start {s : Session b} (hReached : Reached world s) (fuel : Nat) (name : String)
      (recipe : b.Recipe) (args : List Datum) (limit : Nat) :
      Reached world (s.start fuel name recipe args limit).2
  | await {s : Session b} (hReached : Reached world s) (name : String) (recipe : b.Recipe)
      (args : List Datum) (limit : Nat) : Reached world (s.await name recipe args limit)
  | fire {s : Session b} (hReached : Reached world s) (fuel : Nat) (key : String) (o : Outcome) :
      Reached world (s.fire fuel key o).2
  | discard {s : Session b} (hReached : Reached world s) (fuel : Nat) (key : String) :
      Reached world (s.discard fuel key).2
  | rest {s : Session b} (hReached : Reached world s) (fuel : Nat) :
      Reached world (Session.rest fuel s)
  | advanceTo {s : Session b} (hReached : Reached world s) (fuel time : Nat) :
      Reached world (Session.advanceTo fuel s time)
  | exhaust {s : Session b} (hReached : Reached world s) (fuel : Nat) :
      Reached world (Session.exhaust fuel s)

theorem Hosts.launch (hHosts : s.Hosts world h) (launch : Launch) :
    ({ s with launches := s.launches.push launch } : Session b).Hosts world h := by
  refine ⟨hHosts.machine, hHosts.reachable, fun n hn => ?_, hHosts.once⟩
  rw [Array.size_push]
  exact Nat.lt_succ_of_lt (hHosts.numbered n hn)

theorem Hosts.new_number (hHosts : s.Hosts world h) : s.launches.size ∉ s.queued ++ h.begun :=
  fun hMem => Nat.lt_irrefl _ (hHosts.numbered _ hMem)

/-- Every session stands at a history that some schedule comes to. -/
theorem hosted (hReached : s.Reached world) : ∃ h, s.Hosts world h := by
  induction hReached with
  | new =>
    refine ⟨.new world, rfl, ⟨fun _ => .work, 0, rfl⟩, ?_, ?_⟩
    · simp [queued, Session.new, History.new]
    · simp [queued, Session.new, History.new]
  | @start s _ fuel name recipe args limit ih =>
    obtain ⟨h, hHosts⟩ := ih
    have hLaunched : ({ s with
        launches := s.launches.push ⟨name, .callback⟩,
        ending := none } : Session b).Hosts world h :=
      (hHosts.launch ⟨name, .callback⟩).of_eq rfl rfl rfl
    obtain ⟨h', hHosts'⟩ := hLaunched.begin fuel (n := s.launches.size) (by simp) hHosts.new_number
      recipe args limit
    exact ⟨h', hHosts'.of_eq rfl rfl rfl⟩
  | @await s _ name recipe args limit ih =>
    obtain ⟨h, hHosts⟩ := ih
    have hNumbered := (hHosts.launch ⟨name, .future⟩).numbered
    have hQueued : (s.await name recipe args limit).queued = s.queued ++ [s.launches.size] :=
      queued_enqueue _ _
    refine ⟨h, hHosts.machine, hHosts.reachable, ?_, ?_⟩
    · rw [hQueued, List.append_assoc]
      intro n hn
      rcases List.mem_append.mp hn with hn | hn
      · exact hNumbered n (List.mem_append_left _ hn)
      · rcases List.mem_cons.mp hn with rfl | hn
        · exact Array.size_push .. ▸ Nat.lt_succ_self _
        · exact hNumbered n (List.mem_append_right _ hn)
    · rw [hQueued, List.append_assoc]
      exact List.nodup_middle.mpr (List.nodup_cons.mpr ⟨hHosts.new_number, hHosts.once⟩)
  | @fire s _ fuel key o ih =>
    obtain ⟨h, hHosts⟩ := ih
    rw [fire]
    cases s.machine.keyed? key with
    | none => exact ⟨h, hHosts⟩
    | some p => exact hHosts.act fuel (.call p o) rfl
  | @discard s _ fuel key ih =>
    obtain ⟨h, hHosts⟩ := ih
    rw [discard]
    cases s.machine.keyed? key with
    | none => exact ⟨h, hHosts⟩
    | some p => exact hHosts.act fuel (.drop p) rfl
  | rest _ fuel ih =>
    obtain ⟨h, hHosts⟩ := ih
    exact hHosts.rest fuel
  | advanceTo _ fuel time ih =>
    obtain ⟨h, hHosts⟩ := ih
    exact hHosts.advanceTo fuel time
  | exhaust _ fuel ih =>
    obtain ⟨h, hHosts⟩ := ih
    exact hHosts.exhaust fuel

end Session

end Interlace
