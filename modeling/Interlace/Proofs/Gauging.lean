import Mathlib
import Interlace.Proofs.Sleepers

/-!
# What a gauge shows

A gauge that the items of fan-outs enter and leave shows how many of them are asleep, and the
highest number of them that ever were.
-/

namespace Interlace

open Demo

/-! ## Gauges -/

theorem Gauges.get_set_self (gs : Gauges) (name : String) (g : Gauge) :
    (gs.set name g).get name = g := by
  simp [get, set]

theorem Gauges.get_set_of_ne (gs : Gauges) {name other : String} (hOther : other ≠ name)
    (g : Gauge) : (gs.set name g).get other = gs.get other := by
  have hLookup : (gs.entries.filter (·.1 != name)).lookup other = gs.entries.lookup other := by
    induction gs.entries with
    | nil => rfl
    | cons entry entries ih =>
      obtain ⟨key, value⟩ := entry
      by_cases hKey : key = name
      · have hSkip : (other == key) = false := by simpa [hKey] using hOther
        simp [List.lookup_cons, hKey, hKey ▸ hSkip, ih]
      · simp [List.lookup_cons, hKey, ih]
  have hFirst : (other == name) = false := by simpa using hOther
  simp [get, set, List.lookup_cons, hFirst, hLookup]

namespace Gauge

theorem toNat_max (a c : UInt64) : (max a c).toNat = max a.toNat c.toNat := by
  have hMax : max a c = if a ≤ c then c else a := rfl
  simp only [hMax, Nat.max_def, UInt64.le_iff_toNat_le]
  split <;> rfl

theorem enter_iterate_active (g : Gauge) (m : Nat) :
    (enter^[m] g).active = g.active + UInt64.ofNat m := by
  induction m with
  | zero => simp
  | succ m ih =>
    rw [Function.iterate_succ_apply', enter, ih, UInt64.ofNat_add, UInt64.add_assoc]
    rfl

theorem enter_iterate_peak {g : Gauge} (hPeak : g.active ≤ g.peak) {m : Nat}
    (hFits : g.active.toNat + m < 2 ^ 64) :
    (enter^[m] g).peak.toNat = max g.peak.toNat (g.active.toNat + m) := by
  induction m with
  | zero => exact (max_eq_left (UInt64.le_iff_toNat_le.mp hPeak)).symm
  | succ m ih =>
    have hCount : ((enter^[m] g).active + 1).toNat = g.active.toNat + (m + 1) := by
      rw [enter_iterate_active, UInt64.toNat_add, UInt64.toNat_add, UInt64.toNat_ofNat_of_lt']
      · simp
        omega
      · simp [UInt64.size]
        omega
    rw [Function.iterate_succ_apply', enter, toNat_max, ih (by omega), hCount]
    omega

end Gauge

namespace Demo

theorem get_foldl_enters (times : List Nat) (name gauge : String) (world : Gauges) :
    ((times.map (Chore.triple · name)).foldl Chore.enters world).get gauge =
      if name = gauge then Gauge.enter^[times.length] (world.get gauge) else world.get gauge := by
  induction times generalizing world with
  | nil => simp
  | cons time times ih =>
    rw [List.map_cons, List.foldl_cons, ih, Chore.enters, Gauges.enter]
    by_cases hName : name = gauge
    · rw [if_pos hName, if_pos hName, hName, Gauges.get_set_self, List.length_cons,
        Function.iterate_succ_apply]
    · rw [if_neg hName, if_neg hName, Gauges.get_set_of_ne _ (Ne.symm hName)]

theorem get_leaves (demo : Demo) (gauge : String) (world : Gauges) :
    (demo.leaves world).get gauge =
      if demo.gauge? = some gauge then (world.get gauge).leave else world.get gauge := by
  rw [leaves]
  cases demo.gauge? with
  | none => rfl
  | some name =>
    rw [Option.elim_some, Gauges.leave]
    by_cases hName : name = gauge
    · rw [if_pos (congrArg some hName), hName, Gauges.get_set_self]
    · rw [if_neg (by simpa using hName), Gauges.get_set_of_ne _ (Ne.symm hName)]

namespace Show

def unfired (r : Show) (calls : Place → List Outcome) : Nat :=
  r.sleeps.countP fun e => (calls e.place).isEmpty

/-- How many items of a run use a gauge. -/
def width (r : Show) (gauge : String) : Nat :=
  if r.demo.gauge? = some gauge then r.sleeps.length else 0

theorem get_enters (r : Show) (gauge : String) (world : Gauges) :
    (r.demo.enters world).get gauge = Gauge.enter^[r.width gauge] (world.get gauge) := by
  rw [width, sleeps, enters]
  cases r.demo with
  | fanOutNested times name =>
    rw [chores, get_foldl_enters]
    simp only [gauge?, Option.some.injEq, Demo.sleeps, List.length_map, List.length_zipIdx]
    split <;> rfl
  | fanOutSleeps latencies immediate =>
    have hSame : ∀ all : List Chore, (∀ chore ∈ all, ∀ w, chore.enters w = w) →
        all.foldl Chore.enters world = world := by
      intro all hAll
      induction all with
      | nil => rfl
      | cons chore all ih =>
        obtain ⟨hFirst, hAll⟩ := List.forall_mem_cons.mp hAll
        rw [List.foldl_cons, hFirst, ih hAll]
    rw [hSame]
    · rfl
    · intro chore hChore
      rcases List.mem_append.mp hChore with hChore | hChore <;>
        obtain ⟨_, -, rfl⟩ := List.mem_map.mp hChore <;> exact fun _ => rfl
  | _ => rfl

def counted (r : Show) (gauge : String) (calls : Place → List Outcome) : Nat :=
  if r.demo.gauge? = some gauge then r.unfired calls else 0

theorem unfired_le (r : Show) (calls : Place → List Outcome) : r.unfired calls ≤ r.sleeps.length :=
  List.countP_le_length

theorem unfired_nested (n : Nat) (times : List Nat) (gauge : String) (args : List Datum)
    (limit : Nat) (calls : Place → List Outcome) :
    (⟨n, fanOutNested times gauge, args, limit⟩ : Show).unfired calls =
      (List.range times.length).countP fun j => (calls [0, j, 0, n]).isEmpty := by
  have hPlaces : ((fanOutNested times gauge).sleeps n).map Held.place =
      (List.range times.length).map fun j => [0, j, 0, n] := places_napping times ([0, ·, 0, n])
  have hCount := congrArg (List.countP fun p => (calls p).isEmpty) hPlaces
  rw [List.countP_map, List.countP_map] at hCount
  exact hCount

theorem unfired_mono {r : Show} {calls calls' : Place → List Outcome}
    (hGrows : ∀ p, calls p ≠ [] → calls' p ≠ []) : r.unfired calls' ≤ r.unfired calls := by
  refine List.countP_mono_left fun e _ he => ?_
  rw [List.isEmpty_iff] at he ⊢
  by_contra hFired
  exact hGrows _ hFired he

theorem unfired_congr {r : Show} {calls calls' : Place → List Outcome}
    (hCalls : ∀ e ∈ r.sleeps, calls' e.place = calls e.place) :
    r.unfired calls' = r.unfired calls :=
  List.countP_congr fun e he => by rw [hCalls e he]

theorem unfired_fresh {r : Show} {calls : Place → List Outcome}
    (hFresh : ∀ e ∈ r.sleeps, calls e.place = []) : r.unfired calls = r.sleeps.length :=
  List.countP_eq_length.mpr fun e he => by simp [hFresh e he]

theorem unfired_fires {r : Show} {e : Held} (he : e ∈ r.sleeps)
    {calls calls' : Place → List Outcome} (hUnfired : calls e.place = [])
    (hFired : calls' e.place ≠ [])
    (hOthers : ∀ e' ∈ r.sleeps, e'.place ≠ e.place → calls' e'.place = calls e'.place) :
    r.unfired calls = r.unfired calls' + 1 := by
  have hNodup : (r.sleeps.map Held.place).Nodup := nodup_sleeps r.demo r.number
  rw [unfired, unfired]
  generalize r.sleeps = sleeps at he hOthers hNodup
  obtain ⟨front, back, rfl⟩ := List.append_of_mem he
  have hSame : ∀ rest : List Held, (∀ e' ∈ rest, e' ∈ front ++ e :: back) →
      (∀ e' ∈ rest, e'.place ≠ e.place) → (rest.countP fun e' => (calls' e'.place).isEmpty) =
        rest.countP fun e' => (calls e'.place).isEmpty :=
    fun rest hMem hPlace => List.countP_congr fun e' he' => by
      rw [hOthers e' (hMem e' he') (hPlace e' he')]
  simp only [List.map_append, List.map_cons, List.nodup_append', List.nodup_cons,
    List.disjoint_cons_right] at hNodup
  obtain ⟨-, ⟨hBack, -⟩, hFront, -⟩ := hNodup
  rw [List.countP_append, List.countP_append, List.countP_cons_of_pos (by simp [hUnfired]),
    List.countP_cons_of_neg (by simpa using hFired), hSame front, hSame back]
  · omega
  · exact fun e' he' => List.mem_append_right _ (List.mem_cons_of_mem _ he')
  · exact fun e' he' hPlace => hBack (hPlace ▸ List.mem_map_of_mem he')
  · exact fun e' he' => List.mem_append_left _ he'
  · exact fun e' he' hPlace => hFront (hPlace ▸ List.mem_map_of_mem he')

end Show

def pending (rs : List Show) (gauge : String) (calls : Place → List Outcome) : Nat :=
  (rs.map fun r => r.counted gauge calls).sum

section Pending

variable {rs : List Show} {gauge : String} {calls calls' : Place → List Outcome}

theorem pending_mono (hGrows : ∀ p, calls p ≠ [] → calls' p ≠ []) :
    pending rs gauge calls' ≤ pending rs gauge calls := by
  refine List.sum_le_sum fun r _ => ?_
  rw [Show.counted, Show.counted]
  split
  · exact Show.unfired_mono hGrows
  · exact Nat.le_refl 0

theorem pending_congr (hCalls : ∀ r ∈ rs, ∀ e ∈ r.sleeps, calls' e.place = calls e.place) :
    pending rs gauge calls' = pending rs gauge calls := by
  refine congrArg List.sum (List.map_congr_left fun r hr => ?_)
  rw [Show.counted, Show.counted, Show.unfired_congr (hCalls r hr)]

theorem pending_fresh {r : Show} (hFresh : ∀ e ∈ r.sleeps, calls e.place = []) :
    pending (r :: rs) gauge calls = pending rs gauge calls + r.width gauge := by
  rw [pending, List.map_cons, List.sum_cons, Nat.add_comm, Show.counted, Show.width,
    Show.unfired_fresh hFresh]
  rfl

theorem pending_none (hNone : ∀ r ∈ rs, r.demo.gauge? ≠ some gauge) :
    pending rs gauge calls = 0 := by
  rw [pending, List.sum_eq_zero]
  intro m hm
  obtain ⟨r, hr, rfl⟩ := List.mem_map.mp hm
  exact if_neg (hNone r hr)

theorem pending_alone (hDistinct : (rs.map Show.number).Nodup) {r : Show} (hr : r ∈ rs)
    (hGauge : r.demo.gauge? = some gauge)
    (hAlone : ∀ r' ∈ rs, r'.demo.gauge? = some gauge → r'.number = r.number) :
    pending rs gauge calls = r.unfired calls := by
  obtain ⟨front, back, rfl⟩ := List.append_of_mem hr
  simp only [List.map_append, List.map_cons, List.nodup_append', List.nodup_cons,
    List.disjoint_cons_right] at hDistinct
  obtain ⟨-, ⟨hBack, -⟩, hFront, -⟩ := hDistinct
  have hFrontNone : pending front gauge calls = 0 := by
    refine pending_none fun r' hr' hUses => hFront ?_
    rw [← hAlone r' (List.mem_append_left _ hr') hUses]
    exact List.mem_map_of_mem hr'
  have hBackNone : pending back gauge calls = 0 := by
    refine pending_none fun r' hr' hUses => hBack ?_
    rw [← hAlone r' (List.mem_append_right _ (List.mem_cons_of_mem _ hr')) hUses]
    exact List.mem_map_of_mem hr'
  rw [pending] at hFrontNone hBackNone ⊢
  rw [List.map_append, List.map_cons, List.sum_append, List.sum_cons, hFrontNone, hBackNone,
    Show.counted, if_pos hGauge]
  omega

theorem pending_pos {r : Show} (hr : r ∈ rs) (hGauge : r.demo.gauge? = some gauge) {e : Held}
    (he : e ∈ r.sleeps) (hUnfired : calls e.place = []) : 0 < pending rs gauge calls := by
  have hOwn : 0 < r.counted gauge calls := by
    rw [Show.counted, if_pos hGauge]
    exact List.countP_pos_iff.mpr ⟨e, he, List.isEmpty_iff.mpr hUnfired⟩
  obtain ⟨front, back, rfl⟩ := List.append_of_mem hr
  rw [pending, List.map_append, List.map_cons, List.sum_append, List.sum_cons]
  omega

theorem pending_fires (hDistinct : (rs.map Show.number).Nodup) {r : Show} (hr : r ∈ rs) {e : Held}
    (he : e ∈ r.sleeps) (hUnfired : calls e.place = []) (hFired : calls' e.place ≠ [])
    (hOthers : ∀ e' ∈ r.sleeps, e'.place ≠ e.place → calls' e'.place = calls e'.place)
    (hBeside : ∀ q, topOf q ≠ some r.number → calls' q = calls q) :
    pending rs gauge calls =
      pending rs gauge calls' + if r.demo.gauge? = some gauge then 1 else 0 := by
  obtain ⟨front, back, rfl⟩ := List.append_of_mem hr
  have hSame : ∀ rest : List Show, (∀ r' ∈ rest, r'.number ≠ r.number) →
      pending rest gauge calls' = pending rest gauge calls := by
    refine fun rest hNumber => pending_congr fun r' hr' e' he' => hBeside _ ?_
    have hTop : topOf e'.place = some r'.number := topOf_sleeps he'
    simpa [hTop] using hNumber r' hr'
  simp only [List.map_append, List.map_cons, List.nodup_append', List.nodup_cons,
    List.disjoint_cons_right] at hDistinct
  obtain ⟨-, ⟨hBack, -⟩, hFront, -⟩ := hDistinct
  have hFrontSame := hSame front fun r' hr' hNumber => hFront (hNumber ▸ List.mem_map_of_mem hr')
  have hBackSame := hSame back fun r' hr' hNumber => hBack (hNumber ▸ List.mem_map_of_mem hr')
  have hOwn := Show.unfired_fires he hUnfired hFired hOthers
  simp only [pending, List.map_append, List.map_cons, List.sum_append, List.sum_cons, Show.counted]
    at hFrontSame hBackSame ⊢
  rw [hFrontSame, hBackSame]
  split <;> omega

end Pending

end Demo

namespace Schedule

variable (s : Schedule behaviour) (world : Gauges) (gauge : String)

/-- How many items that use a gauge are asleep: their sleeps have not ended. -/
def asleep (k : Nat) : Nat := pending (s.shows world k) gauge (s.after world k).calls

/-- Up to a moment, there are never more of them than a count goes to. -/
def Fits (k : Nat) : Prop := ∀ j ≤ k, s.asleep world gauge j < 2 ^ 64

/-- What a gauge shows when all jobs are done. -/
structure Gauged (k : Nat) (c : Scene behaviour) : Prop where
  active : (c.world.get gauge).active = UInt64.ofNat (pending (s.shows world k) gauge c.calls)
  above : s.Fits world gauge k → ∀ j ≤ k, s.asleep world gauge j ≤ (c.world.get gauge).peak.toNat
  reached : s.Fits world gauge k →
    ∃ j ≤ k, s.asleep world gauge j = (c.world.get gauge).peak.toNat
  wide : s.Fits world gauge k → ∀ r ∈ s.shows world k,
    r.width gauge ≤ (c.world.get gauge).peak.toNat

/-- The world changes so that the count is not taken below zero. -/
def Safe (k : Nat) (w w' : Gauges) : Prop := s.Fits world gauge k →
  (w'.get gauge).active = (w.get gauge).active - 1 → (w.get gauge).active ≠ 0

variable {s world gauge}

theorem Fits.before {k : Nat} (hFits : s.Fits world gauge (k + 1)) : s.Fits world gauge k :=
  fun j hj => hFits j (Nat.le_succ_of_le hj)

theorem calls_succ {k : Nat} (hMove : s k ≠ .work) :
    (s.after world (k + 1)).calls = (s.after world k).calls := by
  rcases s.after_succ world k with ⟨_, _, hJob, -⟩ | ⟨-, put, hAdded⟩
  · exact absurd ((s.job?_eq_some world).mp hJob).1 hMove
  · funext p
    rw [History.calls, History.calls, hAdded.log]

theorem asleep_succ {k : Nat} (hShows : s.shows world (k + 1) = s.shows world k) :
    s.asleep world gauge (k + 1) ≤ s.asleep world gauge k := by
  rw [asleep, asleep, hShows]
  refine pending_mono fun p hp hNil => hp ?_
  have hPrefix : (s.after world k).calls p <+: (s.after world (k + 1)).calls p :=
    calls_prefix (Nat.le_succ k) p
  rw [hNil] at hPrefix
  exact List.prefix_nil.mp hPrefix

theorem ne_sub_one (a : UInt64) : a ≠ a - 1 := by
  intro h
  have hNat := congrArg UInt64.toNat h
  rw [UInt64.toNat_sub] at hNat
  have := a.toNat_lt
  simp at hNat
  omega

theorem add_one_ne_sub_one (a : UInt64) : a + 1 ≠ a - 1 := by
  intro h
  have hNat := congrArg UInt64.toNat h
  rw [UInt64.toNat_sub, UInt64.toNat_add] at hNat
  have := a.toNat_lt
  simp at hNat
  omega

theorem safe_enter (k : Nat) (w : Gauges) (name : String) :
    s.Safe world gauge k w (w.enter name) := by
  intro _ hLower
  rw [Gauges.enter] at hLower
  by_cases hName : name = gauge
  · rw [hName, Gauges.get_set_self] at hLower
    exact absurd hLower (add_one_ne_sub_one _)
  · rw [Gauges.get_set_of_ne _ (Ne.symm hName)] at hLower
    exact absurd hLower (ne_sub_one _)

theorem Gauged.stay {k : Nat} {c : Scene behaviour}
    (hShows : s.shows world (k + 1) = s.shows world k) (h : s.Gauged world gauge k c) :
    s.Gauged world gauge (k + 1) c where
  active := hShows ▸ h.active
  above hFits j hj := by
    rcases Nat.le_succ_iff.mp hj with hj | rfl
    · exact h.above hFits.before j hj
    · exact Nat.le_trans (asleep_succ hShows) (h.above hFits.before k (Nat.le_refl k))
  reached hFits := by
    obtain ⟨j, hj, hReached⟩ := h.reached hFits.before
    exact ⟨j, Nat.le_succ_of_le hj, hReached⟩
  wide hFits := hShows ▸ h.wide hFits.before

theorem Gauged.toNat_active {k : Nat} (h : s.Gauged world gauge k (s.after world k).scene)
    (hFits : s.Fits world gauge k) :
    ((s.after world k).machine.world.get gauge).active.toNat = s.asleep world gauge k :=
  (congrArg UInt64.toNat h.active).trans (UInt64.toNat_ofNat_of_lt' (hFits k (Nat.le_refl k)))

theorem Gauged.begins {k : Nat} {r : Show} {c' : Scene behaviour} (hMove : s k ≠ .work)
    (h : s.Gauged world gauge k (s.after world k).scene)
    (hShows : s.shows world (k + 1) = r :: s.shows world k)
    (hNumber : r.number ∉ (s.shows world k).map Show.number)
    (hFresh : ∀ e ∈ r.sleeps, (s.after world k).calls e.place = [])
    (hBeside : (s.after world k).scene.Beside r.number c')
    (hWorld : c'.world = r.demo.enters (s.after world k).machine.world)
    (hUnfired : ∀ e ∈ r.sleeps, c'.calls e.place = []) : s.Gauged world gauge (k + 1) c' := by
  have hAsleep : s.asleep world gauge (k + 1) = s.asleep world gauge k + r.width gauge := by
    rw [asleep, asleep, hShows, calls_succ hMove, pending_fresh hFresh]
  have hPending : pending (s.shows world (k + 1)) gauge c'.calls =
      s.asleep world gauge (k + 1) := by
    rw [hAsleep, hShows, pending_fresh hUnfired]
    congr 1
    refine pending_congr fun r' hr' e he => hBeside.calls _ ?_
    have hTop : topOf e.place = some r'.number := topOf_sleeps he
    rw [hTop]
    exact fun hSame => hNumber (Option.some.inj hSame ▸ List.mem_map_of_mem hr')
  have hGet : c'.world.get gauge =
      Gauge.enter^[r.width gauge] ((s.after world k).machine.world.get gauge) := by
    rw [hWorld]
    exact Show.get_enters r gauge _
  have hPeak : s.Fits world gauge (k + 1) → (c'.world.get gauge).peak.toNat =
      max ((s.after world k).machine.world.get gauge).peak.toNat
        (s.asleep world gauge (k + 1)) := by
    intro hFits
    have hActive := h.toNat_active hFits.before
    rw [hGet, Gauge.enter_iterate_peak, hActive, hAsleep]
    · rw [UInt64.le_iff_toNat_le, hActive]
      exact h.above hFits.before k (Nat.le_refl k)
    · rw [hActive, ← hAsleep]
      exact hFits (k + 1) (Nat.le_refl _)
  constructor
  · rw [hPending, hAsleep, hGet, Gauge.enter_iterate_active, UInt64.ofNat_add]
    exact congrArg (· + _) h.active
  · intro hFits j hj
    rw [hPeak hFits]
    rcases Nat.le_succ_iff.mp hj with hj | rfl
    · exact Nat.le_trans (h.above hFits.before j hj) (Nat.le_max_left _ _)
    · exact Nat.le_max_right _ _
  · intro hFits
    rw [hPeak hFits]
    obtain ⟨j, hj, hReached⟩ := h.reached hFits.before
    rcases Nat.le_total ((s.after world k).machine.world.get gauge).peak.toNat
      (s.asleep world gauge (k + 1)) with hLe | hLe
    · exact ⟨k + 1, Nat.le_refl _, (Nat.max_eq_right hLe).symm⟩
    · exact ⟨j, Nat.le_succ_of_le hj, hReached.trans (Nat.max_eq_left hLe).symm⟩
  · intro hFits r' hr'
    rw [hPeak hFits]
    rw [hShows] at hr'
    rcases List.mem_cons.mp hr' with rfl | hr'
    · exact Nat.le_trans (hAsleep ▸ Nat.le_add_left _ _) (Nat.le_max_right _ _)
    · exact Nat.le_trans (h.wide hFits.before r' hr') (Nat.le_max_left _ _)

theorem Gauged.fires {k : Nat} {r : Show} {e : Held} {c' : Scene behaviour}
    (h : s.Gauged world gauge k (s.after world k).scene)
    (hShows : s.shows world (k + 1) = s.shows world k) (hr : r ∈ s.shows world k)
    (he : e ∈ r.sleeps) (hUnfired : (s.after world k).calls e.place = [])
    (hBeside : (s.after world k).scene.Beside r.number c')
    (hFired : r.Fired e (s.after world k).scene c') : s.Gauged world gauge (k + 1) c' := by
  have hPending : pending (s.shows world k) gauge (s.after world k).calls = _ :=
    pending_fires (s.distinct world k) hr he hUnfired hFired.fired hFired.others hBeside.calls
  have hGet : c'.world.get gauge = _ := hFired.world ▸ get_leaves r.demo gauge _
  have hActive : ((s.after world k).scene.world.get gauge).active =
      UInt64.ofNat (pending (s.shows world k) gauge (s.after world k).calls) := h.active
  have hPeak : (c'.world.get gauge).peak = ((s.after world k).scene.world.get gauge).peak := by
    rw [hGet]
    split <;> rfl
  have hSame : s.Gauged world gauge k c' := by
    refine ⟨?_, hPeak ▸ h.above, hPeak ▸ h.reached, hPeak ▸ h.wide⟩
    by_cases hGauge : r.demo.gauge? = some gauge
    · rw [if_pos hGauge] at hPending hGet
      rw [hPending, UInt64.ofNat_add] at hActive
      rw [hGet, Gauge.leave, hActive]
      exact UInt64.add_sub_cancel _ _
    · rw [if_neg hGauge, Nat.add_zero] at hPending
      rw [if_neg hGauge] at hGet
      rw [hGet, ← hPending]
      exact hActive
  exact hSame.stay hShows

theorem Gauged.leaves {k : Nat} (h : s.Gauged world gauge k (s.after world k).scene) {r : Show}
    (hr : r ∈ s.shows world k) {e : Held} (he : e ∈ r.sleeps)
    (hUnfired : (s.after world k).calls e.place = []) :
    s.Safe world gauge k (s.after world k).machine.world
      (r.demo.leaves (s.after world k).machine.world) := by
  intro hFits hLower hZero
  have hGet : (r.demo.leaves (s.after world k).machine.world).get gauge = _ :=
    get_leaves r.demo gauge _
  rw [hGet] at hLower
  by_cases hGauge : r.demo.gauge? = some gauge
  · have hCount := h.toNat_active hFits
    rw [hZero] at hCount
    exact Nat.ne_of_lt (pending_pos hr hGauge he hUnfired) hCount
  · rw [if_neg hGauge] at hLower
    exact ne_sub_one _ hLower

theorem Sleepy.gauged (hSleepy : s.Sleepy world) (hNew : world.get gauge = .new) (k : Nat) :
    s.Upcoming world (s.Safe world gauge k) k (s.Gauged world gauge k) := by
  refine @Sleepy.upcoming s world hSleepy (s.Gauged world gauge) (s.Safe world gauge)
    (fun k w w' hSafe hFits => hSafe hFits.before) (fun k c => Gauged.stay) safe_enter
    (fun k h r hr e he hUnfired => Or.inr (h.leaves hr he hUnfired)) ?_ ?_ k
  · have hFirst : ((s.after world 0).scene.world.get gauge) = .new := hNew
    refine ⟨?_, fun _ j hj => ?_, fun _ => ⟨0, Nat.le_refl 0, ?_⟩, nofun⟩
    · rw [hFirst]
      rfl
    · cases Nat.le_zero.mp hj
      exact Nat.zero_le _
    · rw [hFirst]
      rfl
  · intro k c' hMove h hShift
    generalize hShows : s.shows world (k + 1) = rs at hShift
    cases hShift with
    | begins hNumber hFresh hBeside hWorld _ hUnfired =>
      exact h.begins hMove hShows hNumber hFresh hBeside hWorld hUnfired
    | fires hr he hUnfired hBeside hFired =>
      exact h.fires hShows hr he hUnfired hBeside hFired

theorem world_act (m : Machine behaviour) (a : Machine.Act behaviour) :
    (m.act a).world = m.world := by
  cases a with
  | begin => rfl
  | call | drop =>
    rw [Machine.act]
    split <;> rfl

theorem world_move (h : History behaviour) {mv : Move behaviour} (hMove : mv ≠ .work) :
    (h.move mv).machine.world = h.machine.world := by
  cases mv with
  | work => exact absurd rfl hMove
  | begin =>
    simp only [History.move]
    split
    · rfl
    · exact world_act _ _
  | call | drop => exact world_act _ _

def meter (s : Schedule behaviour) (world : Gauges) (gauge : String) (k : Nat) : Gauge :=
  (s.after world k).machine.world.get gauge

/-- A gauge counts the items that are asleep, as long as there are not too many of them. The peak is
the largest number of them so far, and no move takes the count below zero. While only one run uses
the gauge, it shows the items of that run, and the peak is their number. -/
structure Counts (s : Schedule behaviour) (world : Gauges) (gauge : String) (k : Nat) : Prop where
  active : (s.after world k).AtRest →
    (s.meter world gauge k).active = UInt64.ofNat (s.asleep world gauge k)
  exact : s.Fits world gauge k → (s.after world k).AtRest →
    (s.meter world gauge k).active.toNat = s.asleep world gauge k
  peak : s.Fits world gauge k → (s.after world k).AtRest →
    IsGreatest {m | ∃ j ≤ k, s.asleep world gauge j = m} (s.meter world gauge k).peak.toNat
  safe : s.Fits world gauge k →
    (s.meter world gauge (k + 1)).active = (s.meter world gauge k).active - 1 →
    (s.meter world gauge k).active ≠ 0
  alone : ∀ n times args limit, ⟨n, .fanOutNested times gauge, args, limit⟩ ∈ s.shows world k →
    (∀ r ∈ s.shows world k, r.demo.gauge? = some gauge → r.number = n) → times.length < 2 ^ 64 →
    (s.after world k).AtRest → s.Fits world gauge k ∧
      (s.meter world gauge k).active.toNat = ((List.range times.length).countP fun j =>
        ((s.after world k).calls [0, j, 0, n]).isEmpty) ∧
      (s.meter world gauge k).peak.toNat = times.length

theorem asleep_alone {k n limit : Nat} {times : List Nat} {args : List Datum}
    (hr : ⟨n, .fanOutNested times gauge, args, limit⟩ ∈ s.shows world k)
    (hAlone : ∀ r ∈ s.shows world k, r.demo.gauge? = some gauge → r.number = n) {j : Nat}
    (hj : j ≤ k) : s.asleep world gauge j ≤ times.length := by
  have hSame : ∀ r ∈ s.shows world j, r.demo.gauge? = some gauge →
      r = ⟨n, .fanOutNested times gauge, args, limit⟩ := by
    intro r hUser hUses
    have hLater := mem_shows hj hUser
    exact List.inj_on_of_nodup_map (s.distinct world k) hLater hr (hAlone r hLater hUses)
  by_cases hUser : ∃ r ∈ s.shows world j, r.demo.gauge? = some gauge
  · obtain ⟨r, hUser, hUses⟩ := hUser
    cases hSame r hUser hUses
    have hOnly : ∀ r ∈ s.shows world j, r.demo.gauge? = some gauge → r.number = n :=
      fun r hr hUses => by rw [hSame r hr hUses]
    rw [asleep, pending_alone (s.distinct world j) hUser rfl hOnly]
    refine Nat.le_trans (Show.unfired_le _ _) (Nat.le_of_eq ?_)
    simp [Show.sleeps, Demo.sleeps]
  · rw [asleep, pending_none fun r hr hUses => hUser ⟨r, hr, hUses⟩]
    exact Nat.zero_le _

theorem Sleepy.gauged_of_rest (hSleepy : s.Sleepy world) (hNew : world.get gauge = .new) {k : Nat}
    (hRest : (s.after world k).AtRest) : s.Gauged world gauge k (s.after world k).scene := by
  obtain ⟨h', hWorks, -, hAhead⟩ := hSleepy.gauged hNew k
  exact works_of_rest hRest hWorks ▸ hAhead

theorem Sleepy.safe (hSleepy : s.Sleepy world) (hNew : world.get gauge = .new) {k : Nat}
    (hFits : s.Fits world gauge k)
    (hLower : (s.meter world gauge (k + 1)).active = (s.meter world gauge k).active - 1) :
    (s.meter world gauge k).active ≠ 0 := by
  obtain ⟨h', hWorks, hStands, -⟩ := hSleepy.gauged hNew k
  have hAfter : s.after world (k + 1) = (s.after world k).move (s k) := rfl
  have hChanges : (s.after world (k + 1)).machine.world ≠ (s.after world k).machine.world := by
    intro hSame
    rw [meter, meter, hSame] at hLower
    exact ne_sub_one _ hLower
  have hMove : s k = .work := by
    by_contra hOutside
    exact hChanges (hAfter ▸ world_move _ hOutside)
  rcases Relation.ReflTransGen.cases_head hWorks with
    rfl | ⟨_, ⟨job, rest, hAgenda, rfl, hSafe⟩, -⟩
  · rw [hMove, History.move_rest hStands.rest] at hAfter
    exact absurd (congrArg (fun h => h.machine.world) hAfter) hChanges
  · rw [hMove, History.move_work hAgenda] at hAfter
    rw [← hAfter] at hSafe
    exact hSafe.resolve_left hChanges hFits hLower

theorem Gauged.peak_alone {k n limit : Nat} {times : List Nat} {args : List Datum}
    (h : s.Gauged world gauge k (s.after world k).scene) (hFits : s.Fits world gauge k)
    (hr : ⟨n, .fanOutNested times gauge, args, limit⟩ ∈ s.shows world k)
    (hAlone : ∀ r ∈ s.shows world k, r.demo.gauge? = some gauge → r.number = n) :
    (s.meter world gauge k).peak.toNat = times.length := by
  refine Nat.le_antisymm ?_ ?_
  · obtain ⟨j, hj, hReached⟩ := h.reached hFits
    exact Nat.le_trans (Nat.le_of_eq hReached.symm) (asleep_alone hr hAlone hj)
  · refine Nat.le_trans (Nat.le_of_eq ?_) (h.wide hFits _ hr)
    simp [Show.width, gauge?, Show.sleeps, Demo.sleeps]

theorem Sleepy.counts (hSleepy : s.Sleepy world) (hNew : world.get gauge = .new) (k : Nat) :
    s.Counts world gauge k where
  active hRest := (hSleepy.gauged_of_rest hNew hRest).active
  exact hFits hRest := (hSleepy.gauged_of_rest hNew hRest).toNat_active hFits
  peak hFits hRest := by
    have hGauged := hSleepy.gauged_of_rest hNew hRest
    refine ⟨hGauged.reached hFits, ?_⟩
    rintro _ ⟨j, hj, rfl⟩
    exact hGauged.above hFits j hj
  safe hFits hLower := hSleepy.safe hNew hFits hLower
  alone n times args limit hr hAlone hTimes hRest := by
    have hGauged := hSleepy.gauged_of_rest hNew hRest
    have hFits : s.Fits world gauge k :=
      fun j hj => Nat.lt_of_le_of_lt (asleep_alone hr hAlone hj) hTimes
    refine ⟨hFits, ?_, hGauged.peak_alone hFits hr hAlone⟩
    rw [meter, hGauged.toNat_active hFits, asleep, pending_alone (s.distinct world k) hr rfl hAlone]
    exact Show.unfired_nested n times gauge args limit _

/-- Fan-outs deliver their values in the order of the items, and gauges count who is asleep, in
whatever order the sleeps end. What was begun, and each sleep that has ended, is followed up. -/
structure FansOut (s : Schedule behaviour) (world : Gauges) : Prop where
  rests : ∀ k, ∃ l, k ≤ l ∧ (s.after world l).AtRest
  counts : ∀ gauge, world.get gauge = .new → ∀ k, s.Counts world gauge k
  nested : ∀ k n times gauge args limit,
    ⟨n, .fanOutNested times gauge, args, limit⟩ ∈ s.shows world k →
    s.Delivers world k n ((List.range times.length).map fun i => [0, i, 0, n])
      (.list (times.map fun time => .number (Number.ofNat (time * 3))))
  sleeps : ∀ k n latencies immediate args limit,
    ⟨n, .fanOutSleeps latencies immediate, args, limit⟩ ∈ s.shows world k →
    s.Delivers world k n ((List.range latencies.length).map fun i => [i, 0, n])
      (.list (latencies.map (fun ms => .number (Number.ofNat ms)) ++ immediate))

theorem fan_outs (hSleepy : s.Sleepy world) : s.FansOut world where
  rests := hSleepy.exists_rest
  counts _ := hSleepy.counts
  nested k n times gauge args limit hr := by
    rw [← places_napping times ([0, ·, 0, n])]
    exact hSleepy.delivers hr
  sleeps k n latencies immediate args limit hr := by
    rw [← places_napping latencies ([·, 0, n])]
    exact hSleepy.delivers hr

/-- Two fan-outs on one gauge and one of plain sleeps. All sleeps end, in no run in the order of its
items, and the first run is over last. -/
def overlapping : Schedule behaviour
  | 0 => .begin 0 (.fanOutNested [3, 1, 2] "g") [] 1
  | 30 => .begin 1 (.fanOutNested [2, 4] "g") [] 1
  | 60 => .begin 2 (.fanOutSleeps [7, 6] [.null]) [] 1
  | 80 => .call [0, 1, 0, 1] (.ok (.number (Number.ofNat 4)))
  | 90 => .call [0, 2, 0, 0] (.ok (.number (Number.ofNat 2)))
  | 100 => .call [1, 0, 2] (.ok (.number (Number.ofNat 6)))
  | 110 => .call [0, 0, 0, 1] (.ok (.number (Number.ofNat 2)))
  | 120 => .call [0, 0, 2] (.ok (.number (Number.ofNat 7)))
  | 130 => .call [0, 0, 0, 0] (.ok (.number (Number.ofNat 3)))
  | 140 => .call [0, 1, 0, 0] (.ok (.number (Number.ofNat 1)))
  | _ => .work

set_option maxRecDepth 1500 in
theorem sleepy_overlapping : overlapping.Sleepy .empty where
  idle k hMove := by
    unfold overlapping at hMove
    split at hMove
    case h_11 => exact absurd rfl hMove
    all_goals decide +kernel
  shown k n demo args limit hMove := by
    unfold overlapping at hMove
    split at hMove <;> cases hMove
    all_goals exact ⟨trivial, Nat.le_refl 1⟩
  timed k p o hMove := by
    unfold overlapping at hMove
    split at hMove <;> cases hMove
    · exact ⟨4, List.mem_of_getElem? (i := 4) rfl⟩
    · exact ⟨2, List.mem_of_getElem? (i := 2) rfl⟩
    · exact ⟨6, List.mem_of_getElem? (i := 4) rfl⟩
    · exact ⟨2, List.mem_of_getElem? (i := 2) rfl⟩
    · exact ⟨7, List.mem_of_getElem? (i := 2) rfl⟩
    · exact ⟨3, List.mem_of_getElem? (i := 0) rfl⟩
    · exact ⟨1, List.mem_of_getElem? (i := 0) rfl⟩
  kept k p hMove := by
    unfold overlapping at hMove
    split at hMove <;> cases hMove

theorem fan_outs_overlapping : overlapping.Sleepy .empty ∧ overlapping.FansOut .empty ∧
    (overlapping.after .empty 150).calls [0] =
      [.ok (.list [.number (.ofNat 9), .number (.ofNat 3), .number (.ofNat 6)])] ∧
    (overlapping.meter .empty "g" 150).active = 0 ∧
    (overlapping.meter .empty "g" 150).peak = 5 := by
  have hFansOut := fan_outs sleepy_overlapping
  have hRest : (overlapping.after .empty 150).AtRest := by decide +kernel
  have hShown : ⟨0, .fanOutNested [3, 1, 2] "g", [], 1⟩ ∈ overlapping.shows .empty 150 :=
    mem_shows (by decide : 1 ≤ 150) (List.mem_singleton_self _)
  refine ⟨sleepy_overlapping, hFansOut, ?_, by decide +kernel, by decide +kernel⟩
  exact (hFansOut.nested _ _ _ _ _ _ hShown).called hRest (by decide +kernel)

end Schedule

end Interlace
