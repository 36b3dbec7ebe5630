import Interlace.Proofs.Lookups

/-!
# The fan-outs of the showcase

A fan-out starts its items one after the other. Each sleeps, or is done at once. When a sleep ends,
its item reports to the join, and the last report ends the run with the values in their order.
-/

namespace Interlace.Demo

/-- An item of a fan-out. -/
inductive Chore where
  | sleep (ms : Nat)
  | triple (time : Nat) (gauge : String)
  | given (d : Datum)

namespace Chore

def work (limit : Nat) : Chore → Work Demo Empty
  | sleep ms => .sleep ms
  | triple time gauge => .nested limit (.sleepThenTriple time gauge)
  | given d => .done (.ok d)

def value : Chore → Datum
  | sleep ms => .number (Number.ofNat ms)
  | triple time _ => .number (Number.ofNat (time * 3))
  | given d => d

def place (q : Place) : Chore → Place
  | triple _ _ => 0 :: q
  | sleep _ | given _ => q

def latency? : Chore → Option Nat
  | sleep ms => some ms
  | triple time _ => some time
  | given _ => none

def atOnce : Chore → Option Datum
  | given d => some d
  | sleep _ | triple _ _ => none

def naps (q : Place) (chore : Chore) : List Held :=
  (chore.latency?.map (napping (chore.place q))).toList

def enters (world : Gauges) : Chore → Gauges
  | triple _ gauge => world.enter gauge
  | sleep _ | given _ => world

def leaves (world : Gauges) : Chore → Gauges
  | triple _ gauge => world.leave gauge
  | sleep _ | given _ => world

def Rests (limit : Nat) (nodes : Place → Option (Node behaviour)) (q : Place) : Chore → Prop
  | triple time gauge =>
    nodes q = some (.run (asleep (single (sleepThenTriple time gauge) "" 1 limit) .throwing))
  | sleep _ | given _ => True

end Chore

def chores : Demo → List Chore
  | fanOutSleeps latencies immediate => latencies.map .sleep ++ immediate.map .given
  | fanOutNested times gauge => times.map (.triple · gauge)
  | _ => []

def IsFanOut : Demo → Prop
  | fanOutSleeps _ _ | fanOutNested _ _ => True
  | _ => False

section Turns

variable {demo : Demo} (hFan : demo.IsFanOut)
include hFan

theorem turn_fan (args : List Datum) (limit : Nat) (world : Gauges) :
    (fresh demo args limit).turn behaviour .start world =
      ⟨.await (.gather (demo.chores.map (Chore.work limit))) .throwing,
        single demo (keyArgument args) 1 limit, [], world⟩ := by
  let await (works : List (Work Demo Empty)) : Turned behaviour :=
    ⟨.await (.gather works) .throwing, single demo (keyArgument args) 1 limit, [], world⟩
  cases demo with
  | fanOutSleeps latencies immediate =>
    have hWorks : ((latencies.map Work.sleep ++ immediate.map fun d => Work.done (.ok d)).map
        (@Item.work Demo Empty)).map (Item.toWork limit) =
          (fanOutSleeps latencies immediate).chores.map (Chore.work limit) := by
      simp [chores, Function.comp_def, Chore.work, Item.toWork]
    exact congrArg await hWorks
  | fanOutNested times gauge =>
    have hWorks : (times.map fun t => Item.coroutine (sleepThenTriple t gauge)).map
        (Item.toWork limit) = (fanOutNested times gauge).chores.map (Chore.work limit) := by
      simp [chores, Function.comp_def, Chore.work, Item.toWork]
    exact congrArg await hWorks
  | _ => exact hFan.elim

theorem turn_joined (key : String) (limit : Nat) (values : List Datum) (world : Gauges) :
    (single demo key 1 limit).turn behaviour (.value (.list values)) world =
      ⟨.finished (.ok (.list values)), ⟨[], limit, 1⟩, [], world⟩ := by
  cases demo with
  | fanOutSleeps | fanOutNested => rfl
  | _ => exact hFan.elim

end Turns

section Items

open Scene

variable {safe : Gauges → Gauges → Prop} {n limit : Nat} {nodes : Place → Option (Node behaviour)}
  {world : Gauges} {held : List Held} {rest : List (Job behaviour)} {calls : Place → List Outcome}

/-! ## Single items -/

theorem turn_enter (time : Nat) (gauge : String) :
    (fresh (sleepThenTriple time gauge) [] limit).turn behaviour .start world =
      ⟨.await (.sleep time) .throwing, single (sleepThenTriple time gauge) "" 1 limit, [],
        world.enter gauge⟩ := rfl

theorem turn_leave (time : Nat) (gauge : String) (d : Datum) :
    (single (sleepThenTriple time gauge) "" 1 limit).turn behaviour (.value d) world =
      ⟨.finished (.ok (.number (Number.ofNat (time * 3)))), ⟨[], limit, 1⟩, [],
        world.leave gauge⟩ := rfl

theorem sleeper_begins (hLimit : 0 < limit) (hEnter : ∀ world gauge, safe world (world.enter gauge))
    {chore : Chore} {ms : Nat} (hLatency : chore.latency? = some ms) (i : Nat) :
    ∃ nodes', Leads safe n
        ⟨nodes, world, held, .invoke [i, 0, n] (chore.work limit) :: rest, calls⟩
        ⟨nodes', chore.enters world, held ++ chore.naps [i, 0, n], rest, calls⟩ ∧
      chore.Rests limit nodes' [i, 0, n] ∧ ∀ q ≠ [i, 0, n], nodes' q = nodes q := by
  cases chore with
  | given => cases hLatency
  | sleep =>
    cases hLatency
    exact ⟨nodes, leads_sleep rfl ms, trivial, fun _ _ => rfl⟩
  | triple time gauge =>
    cases hLatency
    refine ⟨_, (leads_nested _ _ _).trans <|
      (leads_start rfl hLimit (made ..) (Or.inl rfl)).trans <|
      (leads_await rfl (Function.update_self ..) (Or.inr (hEnter world gauge))
        (turn_enter ms gauge)).trans <|
      (leads_sleep rfl ms).trans (leads_park rfl (Function.update_self ..) rfl), ?_, ?_⟩
    · exact Function.update_self ..
    · intro q hq
      simp [Function.update_of_ne hq]

theorem sleeper_fires {chore : Chore} {ms : Nat} (hLatency : chore.latency? = some ms) {i : Nat}
    (hRests : chore.Rests limit nodes [i, 0, n])
    (hSafe : chore.leaves world = world ∨ safe world (chore.leaves world)) :
    ∃ nodes' calls', Leads safe n ⟨nodes, world, held,
          [.deliver (chore.place [i, 0, n]) (.ok (.number (Number.ofNat ms)))], calls⟩
        ⟨nodes', chore.leaves world, held, [.deliver [i, 0, n] (.ok chore.value)], calls'⟩ ∧
      (∀ q ≠ [i, 0, n], nodes' q = nodes q) ∧
      (∀ q, q ≠ chore.place [i, 0, n] → calls' q = calls q) ∧
      (chore.place [i, 0, n] ≠ [i, 0, n] → calls' (chore.place [i, 0, n]) ≠ []) := by
  cases chore with
  | given => cases hLatency
  | sleep =>
    cases hLatency
    exact ⟨nodes, calls, .refl n _, fun _ _ => rfl, fun _ _ => rfl, fun h => absurd rfl h⟩
  | triple time gauge =>
    cases hLatency
    refine ⟨_, _, (leads_resume rfl hRests rfl rfl).trans
      (leads_finish rfl (Function.update_self ..) hSafe (turn_leave ms gauge _) (not_escapes _ _)),
      ?_, ?_, ?_⟩
    · intro q hq
      simp [Function.update_of_ne hq]
    · intro q hq
      exact Function.update_of_ne hq _ _
    · intro _
      simp [Chore.place, asleep]

/-! ## The join -/

/-- A join that waits for the items whose values are missing, and for the loop that starts them
while this still runs. -/
def collecting (slots : List (Option Datum)) (loop : Nat) : Gather :=
  ⟨slots, slots.countP Option.isNone, false, slots.countP Option.isNone + loop⟩

theorem new_collecting (width : Nat) :
    Gather.new width = collecting (List.replicate width none) 1 := by
  simp [Gather.new, collecting, List.countP_replicate]

theorem countP_set {slots : List (Option Datum)} {i : Nat} (hSlot : slots[i]? = some none)
    (v : Datum) :
    (slots.set i (some v)).countP Option.isNone = slots.countP Option.isNone - 1 ∧
      0 < slots.countP Option.isNone := by
  obtain ⟨hi, hNone⟩ := List.getElem?_eq_some_iff.mp hSlot
  constructor
  · rw [List.countP_set hi]
    simp [hNone]
  · exact List.countP_pos_iff.mpr ⟨none, hNone ▸ List.getElem_mem hi, rfl⟩

theorem report_pending {slots : List (Option Datum)} {i loop : Nat} (hSlot : slots[i]? = some none)
    (hMore : 1 < slots.countP Option.isNone) (v : Datum) :
    (collecting slots loop).report i (.ok v) =
      (.pending, collecting (slots.set i (some v)) (loop + 1)) := by
  obtain ⟨hCount, hPos⟩ := countP_set hSlot v
  have hRemaining : 0 < slots.countP Option.isNone - 1 := by omega
  simp only [Gather.report, collecting, Gather.accept, hSlot, hCount, hRemaining, if_pos]
  simp
  omega

theorem report_last {slots : List (Option Datum)} {i loop : Nat} (hSlot : slots[i]? = some none)
    (hLast : slots.countP Option.isNone = 1) (v : Datum) :
    (collecting slots loop).report i (.ok v) =
      (.done (.ok (.list ((slots.set i (some v)).map (·.getD .null)))),
        ⟨[], 0, true, loop + 1⟩) := by
  simp [Gather.report, collecting, Gather.accept, hSlot, hLast, Nat.add_comm]

theorem remains_collecting {slots : List (Option Datum)} {loop : Nat}
    (hOpen : 0 < slots.countP Option.isNone + loop) (q : Place) :
    (collecting slots (loop + 1)).remains =
        some (Node.gather (b := behaviour) (collecting slots loop)) ∧
      (collecting slots (loop + 1)).dropped (b := behaviour) q = [] := by
  have hHolders : (collecting slots (loop + 1)).release.holders ≠ 0 := by
    simp only [Gather.release, collecting]
    omega
  constructor
  · rw [Gather.remains, if_neg hHolders]
    rfl
  · rw [Gather.dropped, if_neg fun h => hHolders h.1]

/-- The values that have been reported, and what the items still asleep have left. -/
structure Spread (n limit : Nat) (chores : List Chore) (slots : List (Option Datum))
    (nodes : Place → Option (Node behaviour)) (held : List Held) (calls : Place → List Outcome) :
    Prop where
  length : slots.length = chores.length
  reported : ∀ i (chore : Chore) v, chores[i]? = some chore → slots[i]? = some (some v) →
    v = chore.value ∧ calls (chore.place [i, 0, n]) ≠ []
  asleep : ∀ i (chore : Chore), chores[i]? = some chore → slots[i]? = some none →
    calls (chore.place [i, 0, n]) = [] ∧ chore.Rests limit nodes [i, 0, n] ∧
      ∃ ms, chore.latency? = some ms ∧ napping (chore.place [i, 0, n]) ms ∈ held
  only : ∀ e ∈ heldOf n held, ∃ i, ∃ chore : Chore, chores[i]? = some chore ∧
    slots[i]? = some none ∧ e ∈ chore.naps [i, 0, n]

theorem place_ne {i j n : Nat} (hij : i ≠ j) (chore chore' : Chore) :
    chore.place [i, 0, n] ≠ chore'.place [j, 0, n] := by
  cases chore <;> cases chore' <;> simp [Chore.place, hij]

theorem topOf_place (chore : Chore) (i n : Nat) : topOf (chore.place [i, 0, n]) = some n := by
  cases chore <;> rfl

theorem rests_congr {nodes' : Place → Option (Node behaviour)} {q : Place}
    (hNodes : nodes' q = nodes q) (chore : Chore) :
    chore.Rests limit nodes' q ↔ chore.Rests limit nodes q := by
  cases chore <;> simp [Chore.Rests, hNodes]

theorem getElem?_concat {α β : Type} {l : List α} {m : List β} {a c : α} {x y : β} {i : Nat}
    (hLength : m.length = l.length) (hGet : (l ++ [a])[i]? = some c)
    (hBeside : (m ++ [x])[i]? = some y) :
    i < l.length ∧ l[i]? = some c ∧ m[i]? = some y ∨ i = l.length ∧ a = c ∧ x = y := by
  rcases Nat.lt_trichotomy i l.length with hi | rfl | hi
  · rw [List.getElem?_append_left hi] at hGet
    rw [List.getElem?_append_left (hLength ▸ hi)] at hBeside
    exact Or.inl ⟨hi, hGet, hBeside⟩
  · rw [← hLength] at hBeside
    simp at hGet hBeside
    exact Or.inr ⟨rfl, hGet, hBeside⟩
  · have hi' := (List.getElem?_eq_some_iff.mp hGet).1
    rw [List.length_append, List.length_singleton] at hi'
    omega

theorem Chore.atOnce_eq_some {chore : Chore} {v : Datum} :
    chore.atOnce = some v ↔ chore.latency? = none ∧ v = chore.value := by
  cases chore <;> simp [atOnce, latency?, value, eq_comm]

theorem Chore.atOnce_eq_none {chore : Chore} : chore.atOnce = none ↔ chore.latency? ≠ none := by
  cases chore <;> simp [atOnce, latency?]

theorem mem_naps {chore : Chore} {q : Place} {e : Held} :
    e ∈ chore.naps q ↔ ∃ ms, chore.latency? = some ms ∧ e = napping (chore.place q) ms := by
  simp only [Chore.naps, Option.mem_toList, Option.map_eq_some_iff, @eq_comm _ e]

theorem Spread.concat {chores : List Chore} {slots : List (Option Datum)}
    (h : Spread n limit chores slots nodes held calls) {chore : Chore}
    {nodes' : Place → Option (Node behaviour)} {calls' : Place → List Outcome}
    (hNodes : ∀ i < chores.length, nodes' [i, 0, n] = nodes [i, 0, n])
    (hCalls : ∀ i < chores.length, ∀ chore' : Chore,
      calls' (chore'.place [i, 0, n]) = calls (chore'.place [i, 0, n]))
    (hDone : chore.latency? = none → calls' (chore.place [chores.length, 0, n]) ≠ [])
    (hAsleep : chore.latency? ≠ none → calls' (chore.place [chores.length, 0, n]) = [] ∧
      chore.Rests limit nodes' [chores.length, 0, n]) :
    Spread n limit (chores ++ [chore]) (slots ++ [chore.atOnce]) nodes'
      (held ++ chore.naps [chores.length, 0, n]) calls' where
  length := by simp [h.length]
  reported i chore' v hChore hSlot := by
    rcases getElem?_concat h.length hChore hSlot with ⟨hi, hChore, hSlot⟩ | ⟨rfl, rfl, hSlot⟩
    · rw [hCalls i hi]
      exact h.reported i chore' v hChore hSlot
    · obtain ⟨hNone, rfl⟩ := Chore.atOnce_eq_some.mp hSlot
      exact ⟨rfl, hDone hNone⟩
  asleep i chore' hChore hSlot := by
    rcases getElem?_concat h.length hChore hSlot with ⟨hi, hChore, hSlot⟩ | ⟨rfl, rfl, hSlot⟩
    · obtain ⟨hNew, hRests, ms, hLatency, hNap⟩ := h.asleep i chore' hChore hSlot
      rw [hCalls i hi]
      exact ⟨hNew, (rests_congr (hNodes i hi) chore').mpr hRests, ms, hLatency,
        List.mem_append_left _ hNap⟩
    · have hSome := Chore.atOnce_eq_none.mp hSlot
      obtain ⟨hNew, hRests⟩ := hAsleep hSome
      obtain ⟨ms, hLatency⟩ := Option.ne_none_iff_exists'.mp hSome
      exact ⟨hNew, hRests, ms, hLatency,
        List.mem_append_right _ (mem_naps.mpr ⟨ms, hLatency, rfl⟩)⟩
  only e he := by
    rw [heldOf, List.filter_append, List.mem_append] at he
    rcases he with he | he
    · obtain ⟨i, chore', hChore, hSlot, hNap⟩ := h.only e he
      have hi := (List.getElem?_eq_some_iff.mp hChore).1
      refine ⟨i, chore', ?_, ?_, hNap⟩
      · rw [List.getElem?_append_left hi, hChore]
      · rw [List.getElem?_append_left (h.length ▸ hi), hSlot]
    · have hNap := (List.mem_filter.mp he).1
      obtain ⟨ms, hLatency, -⟩ := mem_naps.mp hNap
      have hSlot : chore.atOnce = none := Chore.atOnce_eq_none.mpr (by simp [hLatency])
      exact ⟨chores.length, chore, by simp, by simp [← h.length, hSlot], hNap⟩

theorem Spread.same {chores : List Chore} {slots : List (Option Datum)}
    (h : Spread n limit chores slots nodes held calls)
    {nodes' : Place → Option (Node behaviour)} {calls' : Place → List Outcome}
    (hNodes : ∀ i < chores.length, nodes' [i, 0, n] = nodes [i, 0, n])
    (hCalls : ∀ i < chores.length, ∀ chore : Chore,
      calls' (chore.place [i, 0, n]) = calls (chore.place [i, 0, n])) :
    Spread n limit chores slots nodes' held calls' where
  length := h.length
  reported i chore v hChore hSlot := by
    rw [hCalls i (List.getElem?_eq_some_iff.mp hChore).1]
    exact h.reported i chore v hChore hSlot
  asleep i chore hChore hSlot := by
    have hi := (List.getElem?_eq_some_iff.mp hChore).1
    rw [hCalls i hi, rests_congr (hNodes i hi)]
    exact h.asleep i chore hChore hSlot
  only := h.only

/-! ## The loop that starts the items -/

theorem getElem?_middle {α : Type} (front back : List α) (a : α) :
    (front ++ a :: back)[front.length]? = some a := by
  simp

theorem set_middle {α : Type} (front back : List α) (a c : α) :
    (front ++ a :: back).set front.length c = front ++ c :: back := by
  simp

def Unheard (n k : Nat) (calls : Place → List Outcome) : Prop :=
  ∀ i, k ≤ i → ∀ chore : Chore, calls (chore.place [i, 0, n]) = []

theorem given_of_latency {chore : Chore} (hLatency : chore.latency? = none) :
    chore = .given chore.value := by
  cases chore with
  | given => rfl
  | sleep | triple => cases hLatency

theorem item_begins (hLimit : 0 < limit) (hEnter : ∀ world gauge, safe world (world.enter gauge))
    {slots : List (Option Datum)} {missing : Nat} (chore : Chore)
    (hJoin : nodes [0, n] =
      some (.gather (collecting (slots ++ none :: List.replicate missing none) 1)))
    (hMore : chore.latency? = none → 0 < slots.countP Option.isNone + missing) :
    ∃ nodes' calls', Leads safe n ⟨nodes, world, held,
        .invoke [slots.length, 0, n] (chore.work limit) :: rest, calls⟩
        ⟨nodes', chore.enters world, held ++ chore.naps [slots.length, 0, n], rest, calls'⟩ ∧
      nodes' [0, n] = some (.gather
        (collecting (slots ++ chore.atOnce :: List.replicate missing none) 1)) ∧
      (∀ q, q ≠ [0, n] → q ≠ [slots.length, 0, n] → nodes' q = nodes q) ∧
      (chore.latency? = none → calls' (chore.place [slots.length, 0, n]) ≠ []) ∧
      (chore.latency? ≠ none → chore.Rests limit nodes' [slots.length, 0, n] ∧ calls' = calls) ∧
      ∀ q, q ≠ chore.place [slots.length, 0, n] → calls' q = calls q := by
  cases hLatency : chore.latency? with
  | some ms =>
    obtain ⟨nodes', hLeads, hRests, hNodes⟩ := sleeper_begins hLimit hEnter hLatency slots.length
    refine ⟨nodes', calls, hLeads, ?_, fun q _ hq => hNodes q hq, (fun h => nomatch h),
      fun _ => ⟨hRests, rfl⟩, fun _ _ => rfl⟩
    have hSlot : chore.atOnce = none := Chore.atOnce_eq_none.mpr (by simp [hLatency])
    rw [hNodes _ (by simp), hJoin, hSlot]
  | none =>
    have hGiven := given_of_latency hLatency
    generalize chore.value = d at hGiven
    subst hGiven
    have hOpen := hMore rfl
    have hReport : (collecting (slots ++ none :: List.replicate missing none) 1).report
        slots.length (.ok d) =
          (.pending, collecting (slots ++ some d :: List.replicate missing none) 2) := by
      have hPending : (collecting (slots ++ none :: List.replicate missing none) 1).report
          slots.length (.ok d) = _ :=
        report_pending (getElem?_middle _ _ _) (by simp [List.countP_replicate]; omega) d
      rw [set_middle] at hPending
      exact hPending
    obtain ⟨hRemains, hDropped⟩ : (collecting (slots ++ some d :: List.replicate missing none)
        2).remains = some (Node.gather (b := behaviour) _) ∧ _ :=
      remains_collecting (Nat.succ_pos _) [0, n]
    have hLeads : Leads safe n ⟨nodes, world, held, .deliver [slots.length, 0, n] (.ok d) :: rest,
        calls⟩ _ := leads_report rfl hJoin hReport (by simp)
    rw [hRemains, hDropped] at hLeads
    have hNaps : held ++ (Chore.given d).naps [slots.length, 0, n] = held := List.append_nil held
    rw [hNaps]
    refine ⟨_, _, (leads_done _ _).trans hLeads, Function.update_self .., ?_, ?_, ?_, ?_⟩
    · exact fun q hq _ => Function.update_of_ne hq _ _
    · simp [Chore.place]
    · exact fun h => absurd rfl h
    · exact fun q hq => Function.update_of_ne hq _ _

/-- While items are started, one of the slots stays free: of an item that sleeps, or to come. -/
def StaysOpen (slots : List (Option Datum)) (todo : List Chore) (more : Nat) : Prop :=
  0 < slots.countP Option.isNone + more ∨ ∃ chore ∈ todo, chore.latency? ≠ none

section StaysOpen

variable {slots : List (Option Datum)} {chore : Chore} {todo : List Chore} {more : Nat}
  (h : StaysOpen slots (chore :: todo) more)
include h

theorem StaysOpen.not_last (hNone : chore.latency? = none) :
    0 < slots.countP Option.isNone + (todo.length + more) := by
  rcases h with hPos | ⟨chore', hChore', hAsleep⟩
  · omega
  · rcases List.mem_cons.mp hChore' with rfl | hChore'
    · exact absurd hNone hAsleep
    · have := List.length_pos_of_mem hChore'
      omega

theorem StaysOpen.next : StaysOpen (slots ++ [chore.atOnce]) todo more := by
  rw [StaysOpen, List.countP_append]
  rcases h with hPos | ⟨chore', hChore', hAsleep⟩
  · exact Or.inl (by omega)
  · rcases List.mem_cons.mp hChore' with rfl | hChore'
    · have hSlot := Chore.atOnce_eq_none.mpr hAsleep
      exact Or.inl (Nat.add_pos_left (Nat.add_pos_right _ (by simp [hSlot])) more)
    · exact Or.inr ⟨chore', hChore', hAsleep⟩

end StaysOpen

/-- Some items are started, and the join is left to wait for one of them or for those to come. -/
theorem items_begin (hLimit : 0 < limit) (hEnter : ∀ world gauge, safe world (world.enter gauge))
    {todo more : List Chore} : ∀ {chores : List Chore} {slots : List (Option Datum)}
      {nodes : Place → Option (Node behaviour)} {world : Gauges} {held : List Held}
      {calls : Place → List Outcome},
    Spread n limit chores slots nodes held calls →
    nodes [0, n] = some (.gather
      (collecting (slots ++ List.replicate (todo.length + more.length) none) 1)) →
    StaysOpen slots todo more.length → Unheard n chores.length calls →
    ∃ nodes' world' held' calls', Leads safe n
        ⟨nodes, world, held,
          .items [0, n] chores.length ((todo ++ more).map (Chore.work limit)) :: rest, calls⟩
        ⟨nodes', world', held', .items [0, n] (chores.length + todo.length)
          (more.map (Chore.work limit)) :: rest, calls'⟩ ∧
      world' = todo.foldl Chore.enters world ∧
      Spread n limit (chores ++ todo) (slots ++ todo.map Chore.atOnce) nodes' held' calls' ∧
      nodes' [0, n] = some (.gather (collecting
        (slots ++ todo.map Chore.atOnce ++ List.replicate more.length none) 1)) ∧
      nodes' [n] = nodes [n] ∧ calls' [n] = calls [n] := by
  induction todo with
  | nil =>
    intro chores slots nodes world held calls hSpread hJoin _ _
    rw [List.length_nil, Nat.zero_add] at hJoin
    refine ⟨nodes, world, held, calls, .refl n _, rfl, ?_, ?_, rfl, rfl⟩
    · rwa [List.map_nil, List.append_nil, List.append_nil]
    · rwa [List.map_nil, List.append_nil]
  | cons chore todo ih =>
    intro chores slots nodes world held calls hSpread hJoin hOpen hUnheard
    rw [List.length_cons, Nat.add_right_comm, List.replicate_succ] at hJoin
    have hLength := hSpread.length
    obtain ⟨nodes₁, calls₁, hLeads, hJoin₁, hNodes₁, hDone, hAsleep, hCalls₁⟩ :=
      @item_begins safe n limit nodes world held
        (.items [0, n] (chores.length + 1) ((todo ++ more).map (Chore.work limit)) :: rest) calls
        hLimit hEnter slots (todo.length + more.length) chore hJoin hOpen.not_last
    rw [hLength] at hLeads hNodes₁ hDone hAsleep hCalls₁
    have hSpread₁ : Spread n limit (chores ++ [chore]) (slots ++ [chore.atOnce]) nodes₁
        (held ++ chore.naps [chores.length, 0, n]) calls₁ := by
      refine hSpread.concat (fun i hi => ?_) (fun i hi chore' => ?_) hDone fun h => ?_
      · exact hNodes₁ _ (by simp) (by simp; omega)
      · exact hCalls₁ _ (place_ne (Nat.ne_of_lt hi) chore' chore)
      · obtain ⟨hRests, rfl⟩ := hAsleep h
        exact ⟨hUnheard _ (Nat.le_refl _) chore, hRests⟩
    have hUnheard₁ : Unheard n (chores ++ [chore]).length calls₁ := by
      intro i hi chore'
      rw [List.length_append, List.length_singleton] at hi
      rw [hCalls₁ _ (place_ne (by omega) chore' chore)]
      exact hUnheard i (by omega) chore'
    have hJoin₂ : nodes₁ [0, n] = some (.gather (collecting
        (slots ++ [chore.atOnce] ++ List.replicate (todo.length + more.length) none) 1)) := by
      rw [hJoin₁, List.append_assoc, List.singleton_append]
    obtain ⟨nodes', world', held', calls', hRest, hWorld', hSpread', hJoin', hRun, hOut⟩ :=
      @ih _ _ _ (chore.enters world) _ _ hSpread₁ hJoin₂ hOpen.next hUnheard₁
    rw [List.length_append, List.length_singleton, Nat.add_assoc, Nat.add_comm 1] at hRest
    refine ⟨nodes', world', held', calls', (leads_item _ _ _ _).trans (hLeads.trans hRest), hWorld',
      ?_, ?_, ?_, ?_⟩
    · simpa using hSpread'
    · simpa using hJoin'
    · rw [hRun, hNodes₁ _ (by simp) (by simp)]
    · rw [hOut, hCalls₁]
      cases chore <;> simp [Chore.place]

end Items

end Interlace.Demo
