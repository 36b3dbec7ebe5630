import Interlace.Proofs.FanIns

/-!
# Runs of the showcase

How a run of one of the four coroutines that stand for themselves fares: it waits for its sleeps,
and its continuation is called with its result as soon as all of them are over.
-/

namespace Interlace.Demo

/-- The coroutines that are started on their own. -/
def IsShown : Demo → Prop
  | fanOutSleeps _ _ | fanOutNested _ _ | lookupCaptured | lookupDelegated => True
  | _ => False

/-- How deep the stack of a coroutine gets. -/
def depth : Demo → Nat
  | lookupDelegated => 2
  | _ => 1

/-- The result of a coroutine whose sleeps have all ended. -/
def result (args : List Datum) : Demo → Datum
  | fanOutSleeps latencies immediate =>
    .list (latencies.map (fun ms => .number (Number.ofNat ms)) ++ immediate)
  | fanOutNested times _ => .list (times.map fun time => .number (Number.ofNat (time * 3)))
  | lookupCaptured | lookupDelegated => found args
  | _ => .null

def sleeps (n : Nat) : Demo → List Held
  | fanOutSleeps latencies _ => latencies.zipIdx.map fun (ms, i) => napping [i, 0, n] ms
  | fanOutNested times _ => times.zipIdx.map fun (time, i) => napping [0, i, 0, n] time
  | lookupCaptured => [napping [0, 0, n] 5]
  | lookupDelegated => [napping [0, n] 5]
  | _ => []

def gauge? : Demo → Option String
  | fanOutNested _ gauge => some gauge
  | _ => none

def enters (world : Gauges) (demo : Demo) : Gauges := demo.chores.foldl Chore.enters world

def leaves (world : Gauges) (demo : Demo) : Gauges := demo.gauge?.elim world world.leave

structure Show where
  number : Nat
  demo : Demo
  args : List Datum
  limit : Nat

namespace Show

def sleeps (r : Show) : List Held := r.demo.sleeps r.number

/-- How a run stands when all jobs are done. -/
inductive Fares (r : Show) (c : Scene behaviour) : Prop where
  | gathers {slots : List (Option Datum)} (hFan : r.demo.IsFanOut)
      (hGathers : Gathers r.demo r.number r.limit r.args slots c)
  | captures (hDemo : r.demo = lookupCaptured)
      (hRun : c.nodes [r.number] = some (.run
        (asleep (single lookupCaptured (keyArgument r.args) 1 r.limit) .capturing)))
      (hFetch : c.nodes [0, r.number] = some (.run
        (asleep (single (fetchCaptured (keyArgument r.args)) "" 1 r.limit) .throwing)))
      (hHeld : heldOf r.number c.held = r.sleeps) (hSilent : c.calls [r.number] = [])
      (hUnfired : c.calls [0, 0, r.number] = [])
  | delegates (hDemo : r.demo = lookupDelegated)
      (hRun : c.nodes [r.number] =
        some (.run (asleep (double (keyArgument r.args) 1 r.limit) .throwing)))
      (hHeld : heldOf r.number c.held = r.sleeps) (hSilent : c.calls [r.number] = [])
      (hUnfired : c.calls [0, r.number] = [])
  | ended (hCalled : c.calls [r.number] = [.ok (r.demo.result r.args)])
      (hFired : ∀ e ∈ r.sleeps, c.calls e.place ≠ []) (hUnheld : heldOf r.number c.held = [])

end Show

theorem result_fan {demo : Demo} (hFan : demo.IsFanOut) (args : List Datum) :
    demo.result args = .list (demo.chores.map Chore.value) := by
  cases demo with
  | fanOutSleeps | fanOutNested => simp [result, chores, Chore.value, Function.comp_def]
  | _ => exact hFan.elim

theorem mem_sleeps_fan {demo : Demo} (hFan : demo.IsFanOut) {n : Nat} {e : Held} :
    e ∈ demo.sleeps n ↔ ∃ i, ∃ chore : Chore, demo.chores[i]? = some chore ∧
      e ∈ chore.naps [i, 0, n] := by
  simp only [mem_naps]
  cases demo with
  | fanOutSleeps latencies immediate =>
    simp only [sleeps, chores, List.mem_map, Prod.exists, List.mem_zipIdx_iff_getElem?]
    constructor
    · rintro ⟨ms, i, hGet, rfl⟩
      refine ⟨i, .sleep ms, ?_, ms, rfl, rfl⟩
      rw [List.getElem?_append_left (by simpa using (List.getElem?_eq_some_iff.mp hGet).1)]
      simp [hGet]
    · rintro ⟨i, chore, hGet, ms, hLatency, rfl⟩
      rw [List.getElem?_append] at hGet
      split at hGet
      · obtain ⟨ms', hms, rfl⟩ : ∃ ms', latencies[i]? = some ms' ∧ Chore.sleep ms' = chore := by
          simpa using hGet
        cases hLatency
        exact ⟨ms, i, hms, rfl⟩
      · obtain ⟨d, -, rfl⟩ := List.mem_map.mp (List.mem_of_getElem? hGet)
        cases hLatency
  | fanOutNested times gauge =>
    simp only [sleeps, chores, List.mem_map, Prod.exists, List.mem_zipIdx_iff_getElem?]
    constructor
    · rintro ⟨time, i, hGet, rfl⟩
      exact ⟨i, .triple time gauge, by simp [hGet], time, rfl, rfl⟩
    · rintro ⟨i, chore, hGet, time, hLatency, rfl⟩
      obtain ⟨time', hTime, rfl⟩ : ∃ time', times[i]? = some time' ∧
          Chore.triple time' gauge = chore := by simpa using hGet
      cases hLatency
      exact ⟨time, i, hTime, rfl⟩
  | _ => exact hFan.elim

theorem topOf_sleeps {demo : Demo} {n : Nat} {e : Held} (he : e ∈ demo.sleeps n) :
    topOf e.place = some n := by
  cases demo with
  | fanOutSleeps | fanOutNested =>
    obtain ⟨_, _, rfl⟩ := List.mem_map.mp he
    rfl
  | lookupCaptured | lookupDelegated =>
    cases List.mem_singleton.mp he
    rfl
  | _ => cases he

theorem places_napping (times : List Nat) (f : Nat → Place) :
    (times.zipIdx.map fun (time, i) => napping (f i) time).map Held.place =
      (List.range times.length).map f := by
  rw [List.map_map, List.range_eq_range', ← List.zipIdx_map_snd 0 times, List.map_map]
  rfl

theorem nodup_sleeps (demo : Demo) (n : Nat) : ((demo.sleeps n).map Held.place).Nodup := by
  cases demo with
  | fanOutSleeps latencies immediate =>
    rw [sleeps, places_napping latencies ([·, 0, n])]
    exact List.nodup_range.map fun i j h => by simpa using h
  | fanOutNested times gauge =>
    rw [sleeps, places_napping times ([0, ·, 0, n])]
    exact List.nodup_range.map fun i j h => by simpa using h
  | lookupCaptured | lookupDelegated => exact List.nodup_singleton _
  | _ => exact List.nodup_nil

theorem leaves_fan {demo : Demo} {chore : Chore} (hChore : chore ∈ demo.chores) {ms : Nat}
    (hLatency : chore.latency? = some ms) (world : Gauges) :
    chore.leaves world = demo.leaves world := by
  cases demo with
  | fanOutSleeps latencies immediate =>
    rcases List.mem_append.mp hChore with hChore | hChore
    · obtain ⟨_, _, rfl⟩ := List.mem_map.mp hChore
      rfl
    · obtain ⟨_, _, rfl⟩ := List.mem_map.mp hChore
      cases hLatency
  | fanOutNested times gauge =>
    obtain ⟨_, _, rfl⟩ := List.mem_map.mp hChore
    rfl
  | _ => cases hChore

namespace Show

open Scene

variable {safe : Gauges → Gauges → Prop} {r : Show}

theorem Fares.of_gathered {c : Scene behaviour} (hFan : r.demo.IsFanOut)
    (h : Gathered r.demo r.number c) : r.Fares c := by
  refine .ended ?_ ?_ h.unheld
  · rw [result_fan hFan]
    exact h.called
  · intro e he
    obtain ⟨i, chore, hChore, hNap⟩ := (mem_sleeps_fan hFan).mp he
    obtain ⟨ms, -, rfl⟩ := mem_naps.mp hNap
    exact h.fired i chore hChore

theorem sleeps_captured (hDemo : r.demo = lookupCaptured) :
    r.sleeps = [napping [0, 0, r.number] 5] := by
  rw [sleeps, hDemo, Demo.sleeps]

theorem sleeps_delegated (hDemo : r.demo = lookupDelegated) :
    r.sleeps = [napping [0, r.number] 5] := by
  rw [sleeps, hDemo, Demo.sleeps]

section Begins

variable (hEnter : ∀ world gauge, safe world (world.enter gauge))
  {nodes : Place → Option (Node behaviour)} {world : Gauges} {held : List Held}
  {calls : Place → List Outcome} (hHeld : heldOf r.number held = [])
  (hCalls : ∀ q, topOf q = some r.number → calls q = [])
include hEnter hHeld hCalls

theorem fan_begins (hFan : r.demo.IsFanOut) (hLimit : 0 < r.limit) (hRoot : nodes [] = none) :
    ∃ c', Leads safe r.number
        ⟨nodes, world, held, [.start [r.number] r.demo r.args r.limit], calls⟩ c' ∧
      c'.agenda = [] ∧ c'.world = r.demo.enters world ∧ r.Fares c' ∧
      ∀ e ∈ r.sleeps, c'.calls e.place = [] := by
  obtain ⟨c', hLeads, hRest, hWorld, hGathers | ⟨hGathered, hAwake⟩⟩ :=
    @Demo.fan_begins safe r.number r.limit nodes world held calls r.demo hFan r.args hLimit hEnter
      hRoot hHeld hCalls
  · refine ⟨c', hLeads, hRest, hWorld, .gathers hFan hGathers, fun e he => ?_⟩
    obtain ⟨i, chore, hChore, hNap⟩ := (mem_sleeps_fan hFan).mp he
    obtain ⟨ms, hLatency, rfl⟩ := mem_naps.mp hNap
    refine (hGathers.spread.asleep i chore hChore ?_).1
    have hSlot : chore.atOnce = none := Chore.atOnce_eq_none.mpr (by simp [hLatency])
    rw [List.getElem?_map, hChore, Option.map_some, hSlot]
  · refine ⟨c', hLeads, hRest, hWorld, .of_gathered hFan hGathered, fun e he => ?_⟩
    obtain ⟨i, chore, hChore, hNap⟩ := (mem_sleeps_fan hFan).mp he
    obtain ⟨ms, hLatency, -⟩ := mem_naps.mp hNap
    rw [hAwake chore (List.mem_of_getElem? hChore)] at hLatency
    cases hLatency

theorem begins (hShown : r.demo.IsShown) (hDepth : r.demo.depth ≤ r.limit)
    (hRoot : nodes [] = none) :
    ∃ c', Leads safe r.number
        ⟨nodes, world, held, [.start [r.number] r.demo r.args r.limit], calls⟩ c' ∧
      c'.agenda = [] ∧ c'.world = r.demo.enters world ∧ r.Fares c' ∧
      ∀ e ∈ r.sleeps, c'.calls e.place = [] := by
  have hFresh : ∀ e ∈ r.sleeps, calls e.place = [] := fun e he => hCalls _ (topOf_sleeps he)
  have hOwn : ∀ p, topOf p = some r.number →
      heldOf r.number (held ++ [napping p 5]) = [napping p 5] := by
    intro p hp
    rw [heldOf, List.filter_append, ← heldOf, hHeld]
    simp [napping, hp]
  cases hDemo : r.demo with
  | fanOutSleeps | fanOutNested =>
    rw [← hDemo]
    refine fan_begins hEnter hHeld hCalls ?_ ?_ hRoot
    · rw [hDemo]
      trivial
    · exact Nat.lt_of_lt_of_le (by rw [hDemo]; exact Nat.one_pos) hDepth
  | lookupCaptured =>
    have hLimit : 0 < r.limit := by
      rw [hDemo] at hDepth
      exact hDepth
    have hSleeps := sleeps_captured hDemo
    obtain ⟨nodes', hLeads, hRun, hFetch⟩ :=
      @captured_begins safe r.number r.limit r.args nodes world held calls hLimit
    refine ⟨_, hLeads, rfl, rfl, .captures hDemo hRun hFetch ?_ (hCalls _ rfl) (hCalls _ rfl),
      hFresh⟩
    rw [hSleeps]
    exact hOwn _ rfl
  | lookupDelegated =>
    have hLimit : 2 ≤ r.limit := by
      rw [hDemo] at hDepth
      exact hDepth
    have hSleeps := sleeps_delegated hDemo
    obtain ⟨nodes', hLeads, hRun⟩ :=
      @delegated_begins safe r.number r.limit r.args nodes world held calls hLimit
    refine ⟨_, hLeads, rfl, rfl, .delegates hDemo hRun ?_ (hCalls _ rfl) (hCalls _ rfl), hFresh⟩
    rw [hSleeps]
    exact hOwn _ rfl
  | _ =>
    rw [hDemo] at hShown
    exact hShown.elim

end Begins

structure Fired (r : Show) (e : Held) (c c' : Scene behaviour) : Prop where
  rest : c'.agenda = []
  world : c'.world = r.demo.leaves c.world
  fares : r.Fares c'
  fired : c'.calls e.place ≠ []
  others : ∀ e' ∈ r.sleeps, e'.place ≠ e.place → c'.calls e'.place = c.calls e'.place

theorem fired_last {c : Scene behaviour} {p : Place} {ms : Nat}
    (hSleeps : r.sleeps = [napping p ms]) (hHeld : heldOf r.number c.held = r.sleeps)
    {nodes' : Place → Option (Node behaviour)} {calls' : Place → List Outcome}
    (hCalled : calls' [r.number] = [.ok (r.demo.result r.args)]) (hFired : calls' p ≠ [])
    (hWorld : r.demo.leaves c.world = c.world) :
    r.Fired (napping p ms) c ⟨nodes', c.world, without p c.held, [], calls'⟩ where
  rest := rfl
  world := hWorld.symm
  fares := by
    refine .ended hCalled ?_ ?_
    · intro e he
      rw [hSleeps] at he
      cases List.mem_singleton.mp he
      exact hFired
    · refine List.eq_nil_iff_forall_not_mem.mpr fun e he => ?_
      obtain ⟨he, hPlace⟩ := mem_heldOf_without.mp he
      rw [hHeld, hSleeps] at he
      cases List.mem_singleton.mp he
      exact hPlace rfl
  fired := hFired
  others e he hPlace := by
    rw [hSleeps] at he
    cases List.mem_singleton.mp he
    exact absurd rfl hPlace

theorem Fares.fires {c : Scene behaviour} (h : r.Fares c) (hRoot : c.nodes [] = none) {e : Held}
    (he : e ∈ heldOf r.number c.held) {ms : Nat} {o : Outcome} (hHold : e.hold = .timed ms o)
    (hSafe : r.demo.leaves c.world = c.world ∨ safe c.world (r.demo.leaves c.world)) :
    ∃ c', Leads safe r.number
        ⟨c.nodes, c.world, without e.place c.held, [.deliver e.place o], c.calls⟩ c' ∧
      r.Fired e c c' := by
  cases h with
  | gathers hFan hGathers =>
    obtain ⟨i, chore, hChore, hSlot, hNap⟩ := hGathers.spread.only e he
    obtain ⟨ms', hLatency, rfl⟩ := mem_naps.mp hNap
    cases hHold
    have hLeaves := leaves_fan (List.mem_of_getElem? hChore) hLatency c.world
    rw [← hLeaves] at hSafe
    obtain ⟨c', hLeads, hFired, hEnds⟩ :=
      gathers_fires hGathers hRoot hChore hSlot hLatency hSafe hFan
    have hFares : r.Fares c' := by
      rcases hEnds with ⟨slots', hGathers'⟩ | hGathered
      · exact .gathers hFan hGathers'
      · exact .of_gathered hFan hGathered
    refine ⟨c', hLeads, hFired.rest, hLeaves ▸ hFired.world, hFares, hFired.fired,
      fun e' he' hPlace => ?_⟩
    obtain ⟨j, chore', hChore', hNap'⟩ := (mem_sleeps_fan hFan).mp he'
    obtain ⟨_, -, rfl⟩ := mem_naps.mp hNap'
    refine hFired.others j (fun hji => ?_) chore'
    subst hji
    rw [hChore] at hChore'
    cases hChore'
    exact hPlace rfl
  | captures hDemo hRun hFetch hHeld hSilent =>
    have hSleeps := sleeps_captured hDemo
    rw [hHeld, hSleeps] at he
    cases List.mem_singleton.mp he
    cases hHold
    obtain ⟨nodes', calls', hLeads, hCalled, hFired⟩ :=
      @captured_fires safe r.number r.limit r.args c.nodes c.world (without [0, 0, r.number] c.held)
        c.calls hRoot hRun hFetch (.number (Number.ofNat 5))
    refine ⟨_, hLeads, fired_last hSleeps hHeld ?_ (by simp [hFired]) ?_⟩
    · rw [hCalled, hSilent, hDemo]
      rfl
    · rw [hDemo]
      rfl
  | delegates hDemo hRun hHeld hSilent =>
    have hSleeps := sleeps_delegated hDemo
    rw [hHeld, hSleeps] at he
    cases List.mem_singleton.mp he
    cases hHold
    obtain ⟨nodes', calls', hLeads, hCalled, hFired⟩ :=
      @delegated_fires safe r.number r.limit r.args c.nodes c.world (without [0, r.number] c.held)
        c.calls hRoot hRun (.number (Number.ofNat 5))
    refine ⟨_, hLeads, fired_last hSleeps hHeld ?_ (by simp [hFired]) ?_⟩
    · rw [hCalled, hSilent, hDemo]
      rfl
    · rw [hDemo]
      rfl
  | ended _ _ hUnheld =>
    rw [hUnheld] at he
    cases he

/-! ## What a run has come to -/

section Ends

variable {c : Scene behaviour} (h : r.Fares c)
include h

theorem Fares.called (hFired : ∀ e ∈ r.sleeps, c.calls e.place ≠ []) :
    c.calls [r.number] = [.ok (r.demo.result r.args)] := by
  cases h with
  | @gathers slots hFan hGathers =>
    obtain ⟨v, hv, hNone⟩ := List.countP_pos_iff.mp hGathers.missing
    obtain ⟨i, hSlot⟩ := List.mem_iff_getElem?.mp hv
    cases Option.isNone_iff_eq_none.mp hNone
    obtain ⟨chore, ms, hChore, hLatency⟩ := hGathers.spread.slot_of_missing hSlot
    refine absurd (hGathers.spread.asleep i chore hChore hSlot).1 (hFired (napping _ ms) ?_)
    exact (mem_sleeps_fan hFan).mpr ⟨i, chore, hChore, mem_naps.mpr ⟨ms, hLatency, rfl⟩⟩
  | captures hDemo _ _ _ _ hUnfired =>
    refine absurd hUnfired (hFired (napping [0, 0, r.number] 5) ?_)
    rw [sleeps_captured hDemo]
    exact List.mem_singleton_self _
  | delegates hDemo _ _ _ hUnfired =>
    refine absurd hUnfired (hFired (napping [0, r.number] 5) ?_)
    rw [sleeps_delegated hDemo]
    exact List.mem_singleton_self _
  | ended hCalled => exact hCalled

theorem Fares.silent {e : Held} (he : e ∈ r.sleeps) (hUnfired : c.calls e.place = []) :
    c.calls [r.number] = [] := by
  cases h with
  | gathers _ hGathers => exact hGathers.silent
  | captures _ _ _ _ hSilent | delegates _ _ _ hSilent => exact hSilent
  | ended _ hFired => exact absurd hUnfired (hFired e he)

theorem Fares.mem_held {e : Held} :
    e ∈ heldOf r.number c.held ↔ e ∈ r.sleeps ∧ c.calls e.place = [] := by
  cases h with
  | @gathers slots hFan hGathers =>
    have hSpread := hGathers.spread
    constructor
    · intro he
      obtain ⟨i, chore, hChore, hSlot, hNap⟩ := hSpread.only e he
      refine ⟨(mem_sleeps_fan hFan).mpr ⟨i, chore, hChore, hNap⟩, ?_⟩
      obtain ⟨_, -, rfl⟩ := mem_naps.mp hNap
      exact (hSpread.asleep i chore hChore hSlot).1
    · rintro ⟨he, hUnfired⟩
      obtain ⟨i, chore, hChore, hNap⟩ := (mem_sleeps_fan hFan).mp he
      obtain ⟨ms, hLatency, rfl⟩ := mem_naps.mp hNap
      refine mem_heldOf.mpr ⟨?_, topOf_sleeps he⟩
      have hi : i < slots.length := hSpread.length ▸ (List.getElem?_eq_some_iff.mp hChore).1
      cases hSlot : slots[i] with
      | none =>
        obtain ⟨-, -, ms', hLatency', hHeld⟩ := hSpread.asleep i chore hChore
          (List.getElem?_eq_some_iff.mpr ⟨hi, hSlot⟩)
        rw [hLatency] at hLatency'
        cases hLatency'
        exact hHeld
      | some v =>
        exact absurd hUnfired (hSpread.reported i chore v hChore
          (List.getElem?_eq_some_iff.mpr ⟨hi, hSlot⟩)).2
  | captures hDemo _ _ hHeld _ hUnfired | delegates hDemo _ hHeld _ hUnfired =>
    rw [hHeld]
    refine ⟨fun he => ⟨he, ?_⟩, And.left⟩
    rw [Show.sleeps, hDemo] at he
    cases List.mem_singleton.mp he
    exact hUnfired
  | ended _ hFired hUnheld =>
    rw [hUnheld]
    exact ⟨nofun, fun ⟨he, hUnfired⟩ => absurd hUnfired (hFired e he)⟩

theorem Fares.beside {c' : Scene behaviour} {m : Nat} (hBeside : c.Beside m c')
    (hm : r.number ≠ m) : r.Fares c' := by
  have hTop : ∀ q, topOf q = some r.number → topOf q ≠ some m := by
    intro q hq
    rw [hq]
    exact fun h => hm (Option.some.inj h)
  have hHeld := hBeside.held r.number hm
  have hNodes : ∀ q, topOf q = some r.number → c'.nodes q = c.nodes q :=
    fun q hq => hBeside.nodes q (hTop q hq)
  have hCalls : ∀ q, topOf q = some r.number → c'.calls q = c.calls q :=
    fun q hq => hBeside.calls q (hTop q hq)
  cases h with
  | gathers hFan hGathers =>
    refine .gathers hFan ⟨?_, ?_, hGathers.missing, ?_, ?_⟩
    · exact (hNodes _ rfl).trans hGathers.run
    · exact (hNodes _ rfl).trans hGathers.join
    · have hSpread := hGathers.spread.same (fun i _ => hNodes [i, 0, r.number] rfl)
        fun i _ chore => hCalls _ (topOf_place chore i r.number)
      refine ⟨hSpread.length, hSpread.reported, fun i chore hChore hSlot => ?_, ?_⟩
      · obtain ⟨hNew, hRests, ms, hLatency, hNap⟩ := hSpread.asleep i chore hChore hSlot
        refine ⟨hNew, hRests, ms, hLatency, ?_⟩
        have hOwn := mem_heldOf.mpr ⟨hNap, topOf_place chore i r.number⟩
        rw [← hHeld] at hOwn
        exact (mem_heldOf.mp hOwn).1
      · rw [hHeld]
        exact hSpread.only
    · exact (hCalls _ rfl).trans hGathers.silent
  | captures hDemo hRun hFetch hOwn hSilent hUnfired =>
    exact .captures hDemo ((hNodes _ rfl).trans hRun) ((hNodes _ rfl).trans hFetch)
      (hHeld.trans hOwn) ((hCalls _ rfl).trans hSilent) ((hCalls _ rfl).trans hUnfired)
  | delegates hDemo hRun hOwn hSilent hUnfired =>
    exact .delegates hDemo ((hNodes _ rfl).trans hRun) (hHeld.trans hOwn)
      ((hCalls _ rfl).trans hSilent) ((hCalls _ rfl).trans hUnfired)
  | ended hCalled hFired hUnheld =>
    refine .ended ((hCalls _ rfl).trans hCalled) (fun e he => ?_) (hHeld.trans hUnheld)
    rw [hCalls _ (topOf_sleeps he)]
    exact hFired e he

end Ends

end Show

end Interlace.Demo
