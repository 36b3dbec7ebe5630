import Interlace.Proofs.FanOuts

/-!
# How fan-outs begin and end

A run that fans out is parked as soon as its items have been started, unless none of them sleeps.
Each sleep that ends leaves it waiting for the others, and the last one ends it.
-/

namespace Interlace.Demo

section Runs

open Scene

variable {safe : Gauges → Gauges → Prop} {n limit : Nat} {nodes : Place → Option (Node behaviour)}
  {world : Gauges} {held : List Held} {rest : List (Job behaviour)} {calls : Place → List Outcome}

/-- A fan-out is parked and its join waits for the items whose values are missing. -/
structure Gathers (demo : Demo) (n limit : Nat) (args : List Datum) (slots : List (Option Datum))
    (c : Scene behaviour) : Prop where
  run : c.nodes [n] = some (.run (asleep (single demo (keyArgument args) 1 limit) .throwing))
  join : c.nodes [0, n] = some (.gather (collecting slots 0))
  missing : 0 < slots.countP Option.isNone
  spread : Spread n limit demo.chores slots c.nodes c.held c.calls
  silent : c.calls [n] = []

structure Gathered (demo : Demo) (n : Nat) (c : Scene behaviour) : Prop where
  called : c.calls [n] = [.ok (.list (demo.chores.map Chore.value))]
  fired : ∀ i (chore : Chore), demo.chores[i]? = some chore → c.calls (chore.place [i, 0, n]) ≠ []
  unheld : heldOf n c.held = []

theorem values_eq {chores : List Chore} {slots : List (Option Datum)}
    (hLength : slots.length = chores.length)
    (hSlots : ∀ (i : Nat) (chore : Chore) (v : Option Datum), chores[i]? = some chore →
      slots[i]? = some v → v = some chore.value) :
    slots.map (·.getD .null) = chores.map Chore.value := by
  refine List.ext_getElem (by simp [hLength]) fun i hi hi' => ?_
  rw [List.length_map] at hi hi'
  have hSlot := hSlots i chores[i] slots[i] (List.getElem?_eq_getElem hi')
    (List.getElem?_eq_getElem hi)
  simp [hSlot]

theorem ok_not_escapes (p : Place) (wasParked : Bool) (d : Datum) :
    ¬ Escapes p wasParked (.ok d) := by
  rintro ⟨-, _, _, -, hError, -⟩
  cases hError

theorem gathered_later {demo : Demo} (hFan : demo.IsFanOut) {key : String} {values : List Datum}
    (hRun : nodes [n] = some (.run (asleep (single demo key 1 limit) .throwing)))
    (hRoot : nodes [] = none) :
    ∃ nodes' calls', Leads safe n
        ⟨nodes, world, held, [.deliver [0, n] (.ok (.list values))], calls⟩
        ⟨nodes', world, held, [], calls'⟩ ∧
      calls' [n] = calls [n] ++ [.ok (.list values)] ∧
      ∀ q, q ≠ [n] → q ≠ [0, n] → calls' q = calls q := by
  refine ⟨_, _, (leads_resume rfl hRun rfl rfl).trans <|
    (leads_finish rfl (Function.update_self ..) (Or.inl rfl) (turn_joined hFan _ _ _ _)
      (ok_not_escapes _ _ _)).trans <| leads_out ?_, ?_, ?_⟩
  · simp [hRoot]
  · simp [asleep]
  · intro q hTop hJoin
    simp [asleep, hTop, hJoin]

theorem reported_in_time {demo : Demo} (hFan : demo.IsFanOut) {key : String}
    {slots : List (Option Datum)} {values : List Datum} {d : Datum}
    (hRun : nodes [n] =
      some (.run ⟨single demo key 1 limit, 0, .invoking .throwing .empty, false⟩))
    (hJoin : nodes [0, n] = some (.gather (collecting (slots ++ [none]) 1)))
    (hRoot : nodes [] = none) (hFull : slots.countP Option.isNone = 0)
    (hValues : (slots ++ [some d]).map (·.getD .null) = values) :
    ∃ nodes' calls', Leads safe n
        ⟨nodes, world, held, [.deliver [slots.length, 0, n] (.ok d),
          .items [0, n] (slots.length + 1) [], .check [n]], calls⟩
        ⟨nodes', world, held, [], calls'⟩ ∧
      calls' [n] = calls [n] ++ [.ok (.list values)] ∧
      calls' [slots.length, 0, n] = calls [slots.length, 0, n] ++ [.ok d] ∧
      ∀ q, q ≠ [n] → q ≠ [0, n] → q ≠ [slots.length, 0, n] → calls' q = calls q := by
  have hReport : (collecting (slots ++ [none]) 1).report slots.length (.ok d) =
      (.done (.ok (.list values)), ⟨[], 0, true, 2⟩) := by
    have hLast : (collecting (slots ++ [none]) 1).report slots.length (.ok d) = _ :=
      report_last (getElem?_middle slots [] none) (by simp [hFull]) d
    rwa [set_middle, hValues] at hLast
  refine ⟨_, _, (leads_report rfl hJoin hReport (by simp)).trans <|
    (leads_mail rfl (r := ⟨single demo key 1 limit, 0, .invoking .throwing .empty, false⟩)
      (by simp [hRun]) rfl rfl).trans <|
    (leads_items_end rfl (g := ⟨[], 0, true, 1⟩)
      (by simp [Gather.remains, Gather.release])).trans <|
    (leads_go_on rfl (r := ⟨single demo key 1 limit, 0, .invoking .throwing
      (.outcome (.ok (.list values))), false⟩) (by simp) rfl).trans <|
    (leads_finish rfl (Function.update_self ..) (Or.inl rfl) (turn_joined hFan _ _ _ _)
      (ok_not_escapes _ _ _)).trans <| leads_out (by simp [hRoot]), ?_, ?_, ?_⟩
  · simp
  · simp
  · intro q hTop hJoin hItem
    simp [hTop, hJoin, hItem]

/-! ## Beginnings -/

section Beginnings

variable {demo : Demo} (hFan : demo.IsFanOut) {args : List Datum} (hLimit : 0 < limit)
  (hRoot : nodes [] = none)
include hFan hLimit hRoot

theorem begins_without (hChores : demo.chores = []) :
    ∃ nodes' calls', Leads safe n ⟨nodes, world, held, [.start [n] demo args limit], calls⟩
        ⟨nodes', world, held, [], calls'⟩ ∧
      calls' [n] = calls [n] ++ [.ok (.list [])] := by
  have hTurn : (fresh demo args limit).turn behaviour .start world =
      ⟨.await (.gather []) .throwing, single demo (keyArgument args) 1 limit, [], world⟩ := by
    rw [turn_fan hFan, hChores]
    rfl
  refine ⟨_, _, (leads_start rfl hLimit (made ..) (Or.inl rfl)).trans <|
    (leads_await rfl (Function.update_self ..) (Or.inl rfl) hTurn).trans <|
    (leads_no_items _).trans <|
    (leads_mail rfl (Function.update_self ..) rfl rfl).trans <|
    (leads_go_on rfl (Function.update_self ..) rfl).trans <|
    (leads_finish rfl (Function.update_self ..) (Or.inl rfl) (turn_joined hFan _ _ _ _)
      (ok_not_escapes _ _ _)).trans <| leads_out (by simp [hRoot]), ?_⟩
  simp

theorem begins_with (hChores : demo.chores ≠ []) :
    ∃ nodes', Leads safe n ⟨nodes, world, held, [.start [n] demo args limit], calls⟩
        ⟨nodes', world, held,
          [.items [0, n] 0 (demo.chores.map (Chore.work limit)), .check [n]], calls⟩ ∧
      nodes' [n] = some (.run ⟨single demo (keyArgument args) 1 limit, 0,
        .invoking .throwing .empty, false⟩) ∧
      nodes' [0, n] =
        some (.gather (collecting (List.replicate demo.chores.length none) 1)) ∧
      nodes' [] = none := by
  have hTurn := turn_fan hFan args limit world
  generalize hAll : demo.chores = all at hChores hTurn ⊢
  cases all with
  | nil => exact absurd rfl hChores
  | cons chore todo =>
    refine ⟨_, (leads_start rfl hLimit (made ..) (Or.inl rfl)).trans <|
      (leads_await rfl (Function.update_self ..) (Or.inl rfl) hTurn).trans <|
      leads_gather rfl _ _, ?_, ?_, ?_⟩
    · simp
    · rw [← new_collecting, List.length_cons, ← List.length_map (Chore.work limit)]
      exact Function.update_self ..
    · simp [hRoot]

end Beginnings

theorem Spread.nil (hHeld : heldOf n held = []) : Spread n limit [] [] nodes held calls where
  length := rfl
  reported i chore v hChore := by simp at hChore
  asleep i chore hChore := by simp at hChore
  only e he := by simp [hHeld] at he

theorem Spread.slot_of_missing {chores : List Chore} {slots : List (Option Datum)}
    (h : Spread n limit chores slots nodes held calls) {i : Nat} (hSlot : slots[i]? = some none) :
    ∃ chore ms, chores[i]? = some chore ∧ chore.latency? = some ms := by
  have hi : i < chores.length := h.length ▸ (List.getElem?_eq_some_iff.mp hSlot).1
  obtain ⟨-, -, ms, hLatency, -⟩ := h.asleep i _ (List.getElem?_eq_getElem hi) hSlot
  exact ⟨_, ms, List.getElem?_eq_getElem hi, hLatency⟩

section Whole

variable {demo : Demo} (hFan : demo.IsFanOut) {args : List Datum} (hLimit : 0 < limit)
  (hEnter : ∀ world gauge, safe world (world.enter gauge)) (hRoot : nodes [] = none)
  (hHeld : heldOf n held = []) (hCalls : ∀ q, topOf q = some n → calls q = [])
include hFan hLimit hEnter hRoot hHeld hCalls

theorem begins_asleep (hSleeps : ∃ chore ∈ demo.chores, chore.latency? ≠ none) :
    ∃ c', Leads safe n ⟨nodes, world, held, [.start [n] demo args limit], calls⟩ c' ∧
      c'.agenda = [] ∧ c'.world = demo.chores.foldl Chore.enters world ∧
      Gathers demo n limit args (demo.chores.map Chore.atOnce) c' := by
  have hChores : demo.chores ≠ [] := by
    obtain ⟨chore, hChore, -⟩ := hSleeps
    exact List.ne_nil_of_mem hChore
  obtain ⟨nodes₁, hOpens, hRun₁, hJoin₁, -⟩ :=
    @begins_with safe n limit nodes world held calls demo hFan args hLimit hRoot hChores
  obtain ⟨nodes₂, world₂, held₂, calls₂, hItems, hWorld, hSpread, hJoin₂, hRun₂, hOut₂⟩ :=
    @items_begin safe n limit [.check [n]] hLimit hEnter demo.chores [] [] [] nodes₁ world held
      calls (.nil hHeld) (by simpa using hJoin₁) (Or.inr hSleeps)
      fun i _ chore => hCalls _ (topOf_place chore i n)
  rw [List.append_nil] at hItems
  simp only [List.nil_append, List.length_nil, List.replicate_zero, List.append_nil]
    at hSpread hJoin₂
  have hMissing : 0 < (demo.chores.map Chore.atOnce).countP Option.isNone := by
    obtain ⟨chore, hChore, hSleeps⟩ := hSleeps
    refine List.countP_pos_iff.mpr ⟨chore.atOnce, List.mem_map_of_mem hChore, ?_⟩
    rw [Chore.atOnce_eq_none.mpr hSleeps]
    rfl
  obtain ⟨hRemains, hDropped⟩ := remains_collecting (Nat.add_pos_left hMissing 0) [0, n]
  have hEnd : Leads safe n ⟨nodes₂, world₂, held₂,
      [.items [0, n] (0 + demo.chores.length) [], .check [n]], calls₂⟩ _ :=
    leads_items_end rfl hJoin₂
  rw [hRemains, hDropped] at hEnd
  refine ⟨_, hOpens.trans <| hItems.trans <| hEnd.trans <|
    leads_park rfl (r := ⟨single demo (keyArgument args) 1 limit, 0, .invoking .throwing .empty,
      false⟩) ?_ rfl, rfl, hWorld, ?_⟩
  · rw [Function.update_of_ne (by simp), hRun₂, hRun₁]
  · constructor
    · exact Function.update_self ..
    · simp
    · exact hMissing
    · exact hSpread.same (fun i _ => by simp) fun _ _ _ => rfl
    · exact hOut₂.trans (hCalls [n] rfl)

omit hFan hLimit hEnter hRoot hHeld hCalls in
theorem foldl_enters_awake {all : List Chore} (hAwake : ∀ chore ∈ all, chore.latency? = none) :
    all.foldl Chore.enters world = world := by
  induction all with
  | nil => rfl
  | cons chore all ih =>
    obtain ⟨hFirst, hAll⟩ := List.forall_mem_cons.mp hAwake
    rw [List.foldl_cons, given_of_latency hFirst]
    exact ih hAll

omit hFan hLimit hEnter hRoot hHeld hCalls in
theorem map_atOnce_awake {all : List Chore} (hAwake : ∀ chore ∈ all, chore.latency? = none) :
    all.map Chore.atOnce = all.map fun chore => some chore.value := by
  refine List.map_congr_left fun chore hChore => ?_
  rw [given_of_latency (hAwake chore hChore)]
  rfl

theorem begins_awake (hChores : demo.chores ≠ [])
    (hAwake : ∀ chore ∈ demo.chores, chore.latency? = none) :
    ∃ c', Leads safe n ⟨nodes, world, held, [.start [n] demo args limit], calls⟩ c' ∧
      c'.agenda = [] ∧ c'.world = world ∧ Gathered demo n c' := by
  obtain ⟨nodes₁, hOpens, hRun₁, hJoin₁, hRoot₁⟩ :=
    @begins_with safe n limit nodes world held calls demo hFan args hLimit hRoot hChores
  rcases List.eq_nil_or_concat demo.chores with hNil | ⟨front, last, hAll⟩
  · exact absurd hNil hChores
  · rw [List.concat_eq_append] at hAll
    rw [hAll] at hOpens hJoin₁ hAwake
    have hFront : ∀ chore ∈ front, chore.latency? = none :=
      fun chore hChore => hAwake chore (List.mem_append_left _ hChore)
    obtain ⟨nodes₂, world₂, held₂, calls₂, hItems, hWorld, hSpread, hJoin₂, hRun₂, hOut₂⟩ :=
      @items_begin safe n limit [.check [n]] hLimit hEnter front [last] [] [] nodes₁ world held
        calls (.nil hHeld) (by simpa using hJoin₁) (Or.inl (by simp))
        fun i _ chore => hCalls _ (topOf_place chore i n)
    rw [foldl_enters_awake hFront] at hWorld
    subst hWorld
    rw [List.length_nil, Nat.zero_add] at hItems
    rw [List.nil_append, map_atOnce_awake hFront] at hSpread hJoin₂
    have hLength : (front.map fun chore => some chore.value).length = front.length := by simp
    have hGiven := given_of_latency (hAwake last (by simp))
    generalize hd : last.value = d at hGiven
    obtain ⟨nodes₃, calls₃, hEnd, hCalled, hItem, hRest⟩ :=
      @reported_in_time safe n limit nodes₂ world₂ held₂ calls₂ demo hFan (keyArgument args)
        (front.map fun chore => some chore.value) (demo.chores.map Chore.value) d
        (by rw [hRun₂, hRun₁]) hJoin₂ (by
          rw [← hRoot₁]
          exact hItems.beside.nodes [] nofun) (by simp [List.countP_map]) (by simp [hAll, ← hd])
    rw [hLength] at hEnd hItem hRest
    rw [hGiven] at hOpens hItems hAll
    refine ⟨_, hOpens.trans <| hItems.trans <| (leads_item _ _ _ _).trans <|
      (leads_done _ _).trans hEnd, rfl, rfl, ?_, ?_, ?_⟩
    · show calls₃ [n] = _
      rw [hCalled, hOut₂, hCalls [n] rfl, List.nil_append]
    · intro i chore hChore
      rw [hAll] at hChore
      rcases getElem?_concat rfl hChore hChore with ⟨hi, hChore, -⟩ | ⟨rfl, rfl, -⟩
      · have hPlace : chore.place [i, 0, n] = [i, 0, n] := by
          rw [given_of_latency (hFront chore (List.mem_of_getElem? hChore))]
          rfl
        have hReported : calls₂ (chore.place [i, 0, n]) ≠ [] :=
          (hSpread.reported i chore chore.value (by simpa using hChore) (by simp [hChore])).2
        rw [hPlace] at hReported ⊢
        show calls₃ [i, 0, n] ≠ []
        rwa [hRest _ (by simp) (by simp) (by simp; omega)]
      · show calls₃ [front.length, 0, n] ≠ []
        simp [hItem]
    · refine List.eq_nil_iff_forall_not_mem.mpr fun e he => ?_
      obtain ⟨i, chore, -, hSlot, -⟩ := hSpread.only e he
      simp at hSlot

/-- A fan-out is parked, or at its end, when its run has been started. -/
theorem fan_begins :
    ∃ c', Leads safe n ⟨nodes, world, held, [.start [n] demo args limit], calls⟩ c' ∧
      c'.agenda = [] ∧ c'.world = demo.chores.foldl Chore.enters world ∧
      (Gathers demo n limit args (demo.chores.map Chore.atOnce) c' ∨
        Gathered demo n c' ∧ ∀ chore ∈ demo.chores, chore.latency? = none) := by
  by_cases hAwake : ∀ chore ∈ demo.chores, chore.latency? = none
  · rw [foldl_enters_awake hAwake]
    by_cases hChores : demo.chores = []
    · obtain ⟨nodes', calls', hLeads, hCalled⟩ :=
        @begins_without safe n limit nodes world held calls demo hFan args hLimit hRoot hChores
      refine ⟨_, hLeads, rfl, rfl, Or.inr ⟨⟨?_, ?_, hHeld⟩, hAwake⟩⟩
      · rw [hCalls [n] rfl, List.nil_append] at hCalled
        rw [hChores]
        exact hCalled
      · intro i chore hChore
        simp [hChores] at hChore
    · obtain ⟨c', hLeads, hRest, hWorld, hGathered⟩ :=
        begins_awake hFan hLimit hEnter hRoot hHeld hCalls hChores hAwake
      exact ⟨c', hLeads, hRest, hWorld, Or.inr ⟨hGathered, hAwake⟩⟩
  · have hSleeps : ∃ chore ∈ demo.chores, chore.latency? ≠ none := by
      simpa using hAwake
    obtain ⟨c', hLeads, hRest, hWorld, hGathers⟩ :=
      begins_asleep hFan hLimit hEnter hRoot hHeld hCalls hSleeps
    exact ⟨c', hLeads, hRest, hWorld, Or.inl hGathers⟩

end Whole

/-! ## Sleeps that end -/

section Fires

variable {demo : Demo} {args : List Datum} {slots : List (Option Datum)} {c : Scene behaviour}

def without (p : Place) (held : List Held) : List Held := held.filter (·.place != p)

theorem mem_heldOf_without {p : Place} {e : Held} :
    e ∈ heldOf n (without p held) ↔ e ∈ heldOf n held ∧ e.place ≠ p := by
  simp only [mem_heldOf, without, List.mem_filter, bne_iff_ne]
  exact ⟨fun ⟨⟨he, hp⟩, hn⟩ => ⟨⟨he, hn⟩, hp⟩, fun ⟨⟨he, hn⟩, hp⟩ => ⟨⟨he, hp⟩, hn⟩⟩

theorem Spread.fired {chores : List Chore} (h : Spread n limit chores slots nodes held calls)
    {i : Nat} {chore : Chore} (hChore : chores[i]? = some chore) (hSlot : slots[i]? = some none)
    {nodes' : Place → Option (Node behaviour)} {calls' : Place → List Outcome}
    (hNodes : ∀ j ≠ i, nodes' [j, 0, n] = nodes [j, 0, n])
    (hCalls : ∀ j ≠ i, ∀ chore' : Chore,
      calls' (chore'.place [j, 0, n]) = calls (chore'.place [j, 0, n]))
    (hFired : calls' (chore.place [i, 0, n]) ≠ []) :
    Spread n limit chores (slots.set i (some chore.value)) nodes'
      (without (chore.place [i, 0, n]) held) calls' where
  length := by rw [List.length_set, h.length]
  reported j chore' v hChore' hSlot' := by
    by_cases hji : j = i
    · subst hji
      rw [hChore] at hChore'
      cases hChore'
      rw [List.getElem?_set_self (List.getElem?_eq_some_iff.mp hSlot).1] at hSlot'
      cases hSlot'
      exact ⟨rfl, hFired⟩
    · rw [List.getElem?_set_ne (Ne.symm hji)] at hSlot'
      rw [hCalls j hji]
      exact h.reported j chore' v hChore' hSlot'
  asleep j chore' hChore' hSlot' := by
    by_cases hji : j = i
    · subst hji
      rw [List.getElem?_set_self (List.getElem?_eq_some_iff.mp hSlot).1] at hSlot'
      cases hSlot'
    · rw [List.getElem?_set_ne (Ne.symm hji)] at hSlot'
      obtain ⟨hNew, hRests, ms, hLatency, hNap⟩ := h.asleep j chore' hChore' hSlot'
      rw [hCalls j hji, rests_congr (hNodes j hji)]
      refine ⟨hNew, hRests, ms, hLatency, List.mem_filter.mpr ⟨hNap, ?_⟩⟩
      rw [bne_iff_ne]
      exact place_ne hji chore' chore
  only e he := by
    obtain ⟨he, hPlace⟩ := mem_heldOf_without.mp he
    obtain ⟨j, chore', hChore', hSlot', hNap⟩ := h.only e he
    have hji : j ≠ i := by
      rintro rfl
      rw [hChore] at hChore'
      cases hChore'
      obtain ⟨ms, -, rfl⟩ := mem_naps.mp hNap
      exact hPlace rfl
    exact ⟨j, chore', hChore', by rw [List.getElem?_set_ne (Ne.symm hji), hSlot'], hNap⟩

theorem Spread.full {chores : List Chore} (h : Spread n limit chores slots nodes held calls)
    (hFull : slots.countP Option.isNone = 0) :
    slots.map (·.getD .null) = chores.map Chore.value ∧
      (∀ i (chore : Chore), chores[i]? = some chore → calls (chore.place [i, 0, n]) ≠ []) ∧
      heldOf n held = [] := by
  have hSlots : ∀ (i : Nat) (chore : Chore) (v : Option Datum), chores[i]? = some chore →
      slots[i]? = some v → v = some chore.value ∧ calls (chore.place [i, 0, n]) ≠ [] := by
    intro i chore v hChore hSlot
    cases v with
    | none =>
      exact absurd rfl (List.countP_eq_zero.mp hFull none (List.mem_of_getElem? hSlot))
    | some v =>
      obtain ⟨rfl, hFired⟩ := h.reported i chore v hChore hSlot
      exact ⟨rfl, hFired⟩
  refine ⟨values_eq h.length fun i chore v hChore hSlot => (hSlots i chore v hChore hSlot).1,
    ?_, ?_⟩
  · intro i chore hChore
    have hi : i < slots.length := h.length ▸ (List.getElem?_eq_some_iff.mp hChore).1
    exact (hSlots i chore slots[i] hChore (List.getElem?_eq_getElem hi)).2
  · refine List.eq_nil_iff_forall_not_mem.mpr fun e he => ?_
    obtain ⟨i, chore, hChore, hSlot, -⟩ := h.only e he
    cases (hSlots i chore none hChore hSlot).1

theorem sleeper_reports {i : Nat} {chore : Chore} {ms : Nat} (hLatency : chore.latency? = some ms)
    (hRests : chore.Rests limit nodes [i, 0, n])
    (hSafe : chore.leaves world = world ∨ safe world (chore.leaves world)) {g g' : Gather}
    {settlement : Settlement} (hJoin : nodes [0, n] = some (.gather g))
    (hReport : g.report i (.ok chore.value) = (settlement, g'))
    (hFault : ∀ f, settlement ≠ .fault f) :
    ∃ nodes' calls', Leads safe n ⟨nodes, world, held,
          [.deliver (chore.place [i, 0, n]) (.ok (.number (Number.ofNat ms)))], calls⟩
        ⟨nodes', chore.leaves world, held,
          settlement.answer [0, n] ++ g'.dropped [0, n] ++ [], calls'⟩ ∧
      nodes' [0, n] = g'.remains ∧
      (∀ q, q ≠ [0, n] → q ≠ [i, 0, n] → nodes' q = nodes q) ∧
      calls' (chore.place [i, 0, n]) ≠ [] ∧
      ∀ q, q ≠ [i, 0, n] → q ≠ chore.place [i, 0, n] → calls' q = calls q := by
  obtain ⟨nodes₁, calls₁, hWakes, hNodes₁, hCalls₁, hNap⟩ :=
    @sleeper_fires safe n limit nodes world held calls chore ms hLatency i hRests hSafe
  refine ⟨_, _, hWakes.trans (leads_report rfl ?_ hReport hFault), Function.update_self ..,
    ?_, ?_, ?_⟩
  · rw [hNodes₁ _ (by simp), hJoin]
  · intro q hJoin' hItem
    rw [Function.update_of_ne hJoin', hNodes₁ q hItem]
  · by_cases hPlace : chore.place [i, 0, n] = [i, 0, n]
    · simp [hPlace]
    · rw [Function.update_of_ne hPlace]
      exact hNap hPlace
  · intro q hItem hPlace
    rw [Function.update_of_ne hItem, hCalls₁ q hPlace]

structure ItemFired (n i : Nat) (chore : Chore) (c c' : Scene behaviour) : Prop where
  rest : c'.agenda = []
  world : c'.world = chore.leaves c.world
  fired : c'.calls (chore.place [i, 0, n]) ≠ []
  others : ∀ j ≠ i, ∀ chore' : Chore,
    c'.calls (chore'.place [j, 0, n]) = c.calls (chore'.place [j, 0, n])

section Gathers

variable (h : Gathers demo n limit args slots c) (hRoot : c.nodes [] = none) {i : Nat}
  {chore : Chore} {ms : Nat} (hChore : demo.chores[i]? = some chore) (hSlot : slots[i]? = some none)
  (hLatency : chore.latency? = some ms)
  (hSafe : chore.leaves c.world = c.world ∨ safe c.world (chore.leaves c.world))
include h hRoot hChore hSlot hLatency hSafe

theorem gathers_reports {g' : Gather} {settlement : Settlement}
    (hReport : (collecting slots 0).report i (.ok chore.value) = (settlement, g'))
    (hFault : ∀ f, settlement ≠ .fault f) :
    ∃ nodes' calls', Leads safe n ⟨c.nodes, c.world, without (chore.place [i, 0, n]) c.held,
          [.deliver (chore.place [i, 0, n]) (.ok (.number (Number.ofNat ms)))], c.calls⟩
        ⟨nodes', chore.leaves c.world, without (chore.place [i, 0, n]) c.held,
          settlement.answer [0, n] ++ g'.dropped [0, n] ++ [], calls'⟩ ∧
      nodes' [0, n] = g'.remains ∧ nodes' [] = none ∧
      nodes' [n] = some (.run (asleep (single demo (keyArgument args) 1 limit) .throwing)) ∧
      calls' [n] = [] ∧
      Spread n limit demo.chores (slots.set i (some chore.value)) nodes'
        (without (chore.place [i, 0, n]) c.held) calls' ∧
      calls' (chore.place [i, 0, n]) ≠ [] ∧
      ∀ j ≠ i, ∀ chore' : Chore,
        calls' (chore'.place [j, 0, n]) = c.calls (chore'.place [j, 0, n]) := by
  obtain ⟨-, hRests, -⟩ := h.spread.asleep i chore hChore hSlot
  obtain ⟨nodes', calls', hLeads, hJoin', hNodes', hFired, hCalls'⟩ :=
    @sleeper_reports safe n limit c.nodes c.world (without (chore.place [i, 0, n]) c.held) c.calls
      i chore ms hLatency hRests hSafe _ _ _ h.join hReport hFault
  have hOthers : ∀ j ≠ i, ∀ chore' : Chore,
      calls' (chore'.place [j, 0, n]) = c.calls (chore'.place [j, 0, n]) :=
    fun j hj chore' => hCalls' _ (place_ne hj chore' (.given .null)) (place_ne hj chore' chore)
  have hTop : [n] ≠ chore.place [i, 0, n] := by
    cases chore <;> simp [Chore.place]
  refine ⟨nodes', calls', hLeads, hJoin', (hNodes' [] (by simp) (by simp)).trans hRoot,
    (hNodes' [n] (by simp) (by simp)).trans h.run, (hCalls' [n] (by simp) hTop).trans h.silent,
    ?_, hFired, hOthers⟩
  exact h.spread.fired hChore hSlot (fun j hj => hNodes' _ (by simp) (by simpa using hj)) hOthers
    hFired

theorem gathers_goes_on (hMore : 1 < slots.countP Option.isNone) :
    ∃ c', Leads safe n ⟨c.nodes, c.world, without (chore.place [i, 0, n]) c.held,
          [.deliver (chore.place [i, 0, n]) (.ok (.number (Number.ofNat ms)))], c.calls⟩ c' ∧
      ItemFired n i chore c c' ∧
      Gathers demo n limit args (slots.set i (some chore.value)) c' := by
  obtain ⟨nodes', calls', hLeads, hJoin, -, hRun, hSilent, hSpread, hFired, hOthers⟩ :=
    gathers_reports h hRoot hChore hSlot hLatency hSafe (report_pending hSlot hMore _) (by simp)
  obtain ⟨hCount, -⟩ := countP_set hSlot chore.value
  have hMissing : 0 < (slots.set i (some chore.value)).countP Option.isNone := by omega
  obtain ⟨hRemains, hDropped⟩ := remains_collecting (Nat.add_pos_left hMissing 0) [0, n]
  rw [hDropped] at hLeads
  exact ⟨_, hLeads, ⟨rfl, rfl, hFired, hOthers⟩,
    ⟨hRun, hJoin.trans hRemains, hMissing, hSpread, hSilent⟩⟩

theorem gathers_ends (hFan : demo.IsFanOut) (hLast : slots.countP Option.isNone = 1) :
    ∃ c', Leads safe n ⟨c.nodes, c.world, without (chore.place [i, 0, n]) c.held,
          [.deliver (chore.place [i, 0, n]) (.ok (.number (Number.ofNat ms)))], c.calls⟩ c' ∧
      ItemFired n i chore c c' ∧ Gathered demo n c' := by
  obtain ⟨nodes₁, calls₁, hLeads, -, hRoot₁, hRun, hSilent, hSpread, hFired, hOthers⟩ :=
    gathers_reports h hRoot hChore hSlot hLatency hSafe (report_last hSlot hLast _) (by simp)
  obtain ⟨hCount, -⟩ := countP_set hSlot chore.value
  obtain ⟨hValues, hAll, hUnheld⟩ := hSpread.full (by omega)
  rw [hValues] at hLeads
  obtain ⟨nodes', calls', hEnd, hCalled, hCalls'⟩ :=
    @gathered_later safe n limit nodes₁ (chore.leaves c.world)
      (without (chore.place [i, 0, n]) c.held) calls₁ demo hFan (keyArgument args)
      (demo.chores.map Chore.value) hRun hRoot₁
  have hKept : ∀ j, ∀ chore' : Chore,
      calls' (chore'.place [j, 0, n]) = calls₁ (chore'.place [j, 0, n]) := by
    intro j chore'
    refine hCalls' _ ?_ ?_ <;> cases chore' <;> simp [Chore.place]
  refine ⟨_, hLeads.trans hEnd, ⟨rfl, rfl, ?_, ?_⟩, ?_, ?_, hUnheld⟩
  · show calls' _ ≠ []
    rwa [hKept]
  · exact fun j hj chore' => (hKept j chore').trans (hOthers j hj chore')
  · show calls' [n] = _
    rw [hCalled, hSilent, List.nil_append]
  · intro j chore' hChore'
    show calls' _ ≠ []
    rw [hKept]
    exact hAll j chore' hChore'

theorem gathers_fires (hFan : demo.IsFanOut) :
    ∃ c', Leads safe n ⟨c.nodes, c.world, without (chore.place [i, 0, n]) c.held,
          [.deliver (chore.place [i, 0, n]) (.ok (.number (Number.ofNat ms)))], c.calls⟩ c' ∧
      ItemFired n i chore c c' ∧
      ((∃ slots', Gathers demo n limit args slots' c') ∨ Gathered demo n c') := by
  by_cases hMore : 1 < slots.countP Option.isNone
  · obtain ⟨c', hLeads, hFired, hGathers⟩ :=
      gathers_goes_on h hRoot hChore hSlot hLatency hSafe hMore
    exact ⟨c', hLeads, hFired, Or.inl ⟨_, hGathers⟩⟩
  · have hLast : slots.countP Option.isNone = 1 := by
      have := h.missing
      omega
    obtain ⟨c', hLeads, hFired, hGathered⟩ :=
      gathers_ends h hRoot hChore hSlot hLatency hSafe hFan hLast
    exact ⟨c', hLeads, hFired, Or.inr hGathered⟩

end Gathers

end Fires

end Runs

end Interlace.Demo
