import Interlace.Proofs.Scenes

/-!
# The two lookups

Both lookups sleep once and then end with what is found, or with `null`. The one captures the
failure of a run of its own, the other catches what is raised on its own stack.
-/

namespace Interlace.Demo

/-- What a lookup comes to. -/
def found (args : List Datum) : Datum :=
  match args.head? with
  | some (.text "foo") => .text "bar"
  | _ => .null

def fresh (demo : Demo) (args : List Datum) (limit : Nat) : Frames Body :=
  ⟨[⟨demo.make args, .ready, 0⟩], limit, 1⟩

def single (demo : Demo) (key : String) (steps limit : Nat) : Frames Body :=
  ⟨[⟨⟨demo, key, steps⟩, .suspended, 0⟩], limit, 1⟩

/-- A run that is left to a sleep. -/
def asleep (frames : Frames Body) (u : Uptake) : Run behaviour := ⟨frames, 0, .parked u, true⟩

/-- A continuation that is left to a timer. -/
def napping (p : Place) (ms : Nat) : Held := ⟨p, .timed ms (.ok (.number (Number.ofNat ms)))⟩

theorem made (demo : Demo) (args : List Datum) (world : Gauges) :
    behaviour.make demo args world = (demo.make args, [], world) := rfl

theorem not_escapes (p : Place) (o : Outcome) : ¬ Escapes p true o := fun h => nomatch h.1

section

variable {safe : Gauges → Gauges → Prop} {n limit : Nat} {args : List Datum}
  {nodes : Place → Option (Node behaviour)} {world : Gauges} {held : List Held}
  {calls : Place → List Outcome}

open Scene

theorem turn_captured : (fresh lookupCaptured args limit).turn behaviour .start world =
    ⟨.await (.nested limit (fetchCaptured (keyArgument args))) .capturing,
      single lookupCaptured (keyArgument args) 1 limit, [], world⟩ := rfl

theorem turn_fetch {key : String} :
    (fresh (fetchCaptured key) [] limit).turn behaviour .start world =
      ⟨.await pause .throwing, single (fetchCaptured key) "" 1 limit, [], world⟩ := rfl

theorem captured_begins (hLimit : 0 < limit) :
    ∃ nodes', Leads safe n ⟨nodes, world, held, [.start [n] lookupCaptured args limit], calls⟩
        ⟨nodes', world, held ++ [napping [0, 0, n] 5], [], calls⟩ ∧
      nodes' [n] =
        some (.run (asleep (single lookupCaptured (keyArgument args) 1 limit) .capturing)) ∧
      nodes' [0, n] =
        some (.run (asleep (single (fetchCaptured (keyArgument args)) "" 1 limit) .throwing)) := by
  refine ⟨_, (leads_start rfl hLimit (made ..) (Or.inl rfl)).trans <|
    (leads_await rfl (Function.update_self ..) (Or.inl rfl) turn_captured).trans <|
    (leads_nested _ _ _).trans <|
    (leads_start rfl hLimit (made ..) (Or.inl rfl)).trans <|
    (leads_await rfl (Function.update_self ..) (Or.inl rfl) turn_fetch).trans <|
    (leads_sleep rfl 5).trans <|
    (leads_park rfl (Function.update_self ..) rfl).trans <|
    (leads_park (r := ⟨single lookupCaptured (keyArgument args) 1 limit, 0,
      .invoking .capturing .empty, false⟩) rfl ?_ rfl),
    ?_, ?_⟩
  · simp [Function.update]
  · simp [asleep]
  · simp [Function.update, asleep]

def reading (key : String) : Outcome :=
  if key = "foo" then .ok (.text "bar")
  else .error (.ofOperation ("could not find " ++ keyPath key))

def fetched (key : String) : Outcome :=
  if key = "foo" then .ok (.text "bar") else .error (.ofReturned Failure.notFound)

theorem keyPath_eq {key : String} : keyPath key = "/keys/foo" ↔ key = "foo" := by
  constructor
  · intro h
    exact (String.append_right_inj "/keys/").mp (h.trans (by decide))
  · rintro rfl
    decide

theorem contents_eq (key : String) : (contents (keyPath key) : Except Failure (Work Demo Empty)) =
    if key = "foo" then .ok (.done (.ok (.text "bar")))
    else .error (.ofOperation ("could not find " ++ keyPath key)) := by
  simp only [contents, keyPath_eq]

theorem turn_read {key : String} {d : Datum} :
    (single (fetchCaptured key) "" 1 limit).turn behaviour (.value d) world =
      ⟨.await (.done (reading key)) .capturing, single (fetchCaptured key) "" 2 limit, [],
        world⟩ := by
  have hStep : behaviour.step ⟨fetchCaptured key, "", 1⟩ (.value d) world =
      (.wait (.caught (.work (.done (reading key)))), ⟨fetchCaptured key, "", 2⟩, [], world) := by
    simp only [behaviour, step, contents_eq, reading]
    by_cases hKey : key = "foo" <;> simp [hKey]
  exact Frames.turn_eq (b := behaviour) (s := single (fetchCaptured key) "" 1 limit)
    (f := ⟨⟨fetchCaptured key, "", 1⟩, .suspended, 0⟩) rfl rfl hStep

theorem turn_fetched {key : String} :
    (single (fetchCaptured key) "" 2 limit).turn behaviour (.value (.ofOutcome (reading key)))
      world = ⟨.finished (fetched key), ⟨[], limit, 1⟩, [], world⟩ := by
  rw [reading, fetched]
  by_cases hKey : key = "foo"
  · rw [if_pos hKey, if_pos hKey]
    rfl
  · rw [if_neg hKey, if_neg hKey]
    rfl

theorem turn_looked_up {key : String} :
    (single lookupCaptured key 1 limit).turn behaviour (.value (.ofOutcome (fetched key))) world =
      ⟨.finished (.ok (if key = "foo" then .text "bar" else .null)), ⟨[], limit, 1⟩, [],
        world⟩ := by
  rw [fetched]
  by_cases hKey : key = "foo"
  · rw [if_pos hKey, if_pos hKey]
    rfl
  · rw [if_neg hKey, if_neg hKey]
    rfl

theorem found_eq (args : List Datum) :
    found args = if keyArgument args = "foo" then .text "bar" else .null := by
  unfold found keyArgument
  cases hHead : args.head? with
  | none => rfl
  | some d =>
    cases d with
    | text s =>
      by_cases hs : s = "foo"
      · subst hs
        rfl
      · simp [Datum.toText?, hs]
    | _ => rfl

theorem captured_fires (hRoot : nodes [] = none)
    (hRun : nodes [n] =
      some (.run (asleep (single lookupCaptured (keyArgument args) 1 limit) .capturing)))
    (hFetch : nodes [0, n] =
      some (.run (asleep (single (fetchCaptured (keyArgument args)) "" 1 limit) .throwing)))
    (d : Datum) :
    ∃ nodes' calls', Leads safe n ⟨nodes, world, held, [.deliver [0, 0, n] (.ok d)], calls⟩
        ⟨nodes', world, held, [], calls'⟩ ∧
      calls' [n] = calls [n] ++ [.ok (found args)] ∧
      calls' [0, 0, n] = calls [0, 0, n] ++ [.ok d] := by
  refine ⟨_, _, (leads_resume rfl hFetch rfl rfl).trans <|
    (leads_await rfl (Function.update_self ..) (Or.inl rfl) turn_read).trans <|
    (leads_done _ _).trans <|
    (leads_mail rfl (Function.update_self ..) rfl rfl).trans <|
    (leads_go_on rfl (Function.update_self ..) rfl).trans <|
    (leads_finish rfl (Function.update_self ..) (Or.inl rfl) turn_fetched
      (not_escapes _ _)).trans <|
    (leads_resume rfl (r := asleep (single lookupCaptured (keyArgument args) 1 limit) .capturing)
      ?_ rfl rfl).trans <|
    (leads_finish rfl (Function.update_self ..) (Or.inl rfl) turn_looked_up
      (not_escapes _ _)).trans <|
    leads_out ?_, ?_, ?_⟩
  · simp [hRun]
  · simp [hRoot]
  · simp [found_eq]
  · simp [asleep]

/-! ## Delegating -/

def double (key : String) (steps limit : Nat) : Frames Body :=
  ⟨[⟨⟨fetchRaising key, "", steps⟩, .suspended, 1⟩, ⟨⟨lookupDelegated, key, 1⟩, .suspended, 0⟩],
    limit, 2⟩

theorem turn_delegated (hLimit : 2 ≤ limit) :
    (fresh lookupDelegated args limit).turn behaviour .start world = ⟨.next .start,
      ⟨[⟨(fetchRaising (keyArgument args)).make [], .ready, 1⟩,
        ⟨⟨lookupDelegated, keyArgument args, 1⟩, .suspended, 0⟩], limit, 2⟩, [], world⟩ := by
  exact Frames.delegate_room (b := behaviour)
    (s := single lookupDelegated (keyArgument args) 1 limit) hLimit
    (fetchRaising (keyArgument args)) [] world

theorem turn_pause {key : String} :
    (⟨[⟨(fetchRaising key).make [], .ready, 1⟩, ⟨⟨lookupDelegated, key, 1⟩, .suspended, 0⟩],
      limit, 2⟩ : Frames Body).turn behaviour .start world =
      ⟨.await pause .throwing, double key 1 limit, [], world⟩ := rfl

theorem delegated_begins (hLimit : 2 ≤ limit) :
    ∃ nodes', Leads safe n ⟨nodes, world, held, [.start [n] lookupDelegated args limit], calls⟩
        ⟨nodes', world, held ++ [napping [0, n] 5], [], calls⟩ ∧
      nodes' [n] = some (.run (asleep (double (keyArgument args) 1 limit) .throwing)) := by
  have hRoom : 0 < limit := Nat.lt_of_lt_of_le Nat.two_pos hLimit
  refine ⟨_, (leads_start rfl hRoom (made ..) (Or.inl rfl)).trans <|
    (leads_next rfl (Function.update_self ..) (Or.inl rfl) (turn_delegated hLimit)).trans <|
    (leads_await rfl (Function.update_self ..) (Or.inl rfl) turn_pause).trans <|
    (leads_sleep rfl 5).trans <|
    (leads_park rfl (Function.update_self ..) rfl), ?_⟩
  simp [asleep]

theorem turn_raise {key : String} (hKey : key ≠ "foo") (d : Datum) :
    (double key 1 limit).turn behaviour (.value d) world =
      ⟨.next (.failure ⟨.uncaught, Failure.notFound⟩),
        { single lookupDelegated key 1 limit with pushed := 2 }, [], world⟩ := by
  have hStep : behaviour.step ⟨fetchRaising key, "", 1⟩ (.value d) world =
      (raiseNotFound, ⟨fetchRaising key, "", 2⟩, [], world) := by
    simp [behaviour, step, contents_eq, hKey, Input.outcome]
  exact Frames.turn_eq (b := behaviour) (s := double key 1 limit)
    (f := ⟨⟨fetchRaising key, "", 1⟩, .suspended, 1⟩) rfl rfl hStep

theorem turn_caught {key : String} :
    ({ single lookupDelegated key 1 limit with pushed := 2 } : Frames Body).turn behaviour
      (.failure ⟨.uncaught, Failure.notFound⟩) world =
      ⟨.finished (.ok .null), ⟨[], limit, 2⟩, [], world⟩ := rfl

theorem turn_found {d : Datum} :
    (double "foo" 1 limit).turn behaviour (.value d) world =
      ⟨.await (.done (.ok (.text "bar"))) .throwing, double "foo" 2 limit, [], world⟩ := rfl

theorem turn_hand_down :
    (double "foo" 2 limit).turn behaviour (.value (.text "bar")) world =
      ⟨.next (.value (.text "bar")), { single lookupDelegated "foo" 1 limit with pushed := 2 }, [],
        world⟩ := rfl

theorem turn_give :
    ({ single lookupDelegated "foo" 1 limit with pushed := 2 } : Frames Body).turn behaviour
      (.value (.text "bar")) world =
      ⟨.finished (.ok (.text "bar")), ⟨[], limit, 2⟩, [], world⟩ := rfl

theorem delegated_fires (hRoot : nodes [] = none)
    (hRun : nodes [n] = some (.run (asleep (double (keyArgument args) 1 limit) .throwing)))
    (d : Datum) :
    ∃ nodes' calls', Leads safe n ⟨nodes, world, held, [.deliver [0, n] (.ok d)], calls⟩
        ⟨nodes', world, held, [], calls'⟩ ∧
      calls' [n] = calls [n] ++ [.ok (found args)] ∧ calls' [0, n] = calls [0, n] ++ [.ok d] := by
  rw [found_eq]
  by_cases hKey : keyArgument args = "foo"
  · rw [hKey] at hRun
    rw [if_pos hKey]
    refine ⟨_, _, (leads_resume rfl hRun rfl rfl).trans <|
      (leads_await rfl (Function.update_self ..) (Or.inl rfl) turn_found).trans <|
      (leads_done _ _).trans <|
      (leads_mail rfl (Function.update_self ..) rfl rfl).trans <|
      (leads_go_on rfl (Function.update_self ..) rfl).trans <|
      (leads_next rfl (Function.update_self ..) (Or.inl rfl) turn_hand_down).trans <|
      (leads_finish rfl (Function.update_self ..) (Or.inl rfl) turn_give (not_escapes _ _)).trans <|
      leads_out ?_, ?_, ?_⟩
    · simp [hRoot]
    · simp
    · simp [asleep]
  · rw [if_neg hKey]
    refine ⟨_, _, (leads_resume rfl hRun rfl rfl).trans <|
      (leads_next rfl (Function.update_self ..) (Or.inl rfl) (turn_raise hKey d)).trans <|
      (leads_finish rfl (Function.update_self ..) (Or.inl rfl) turn_caught
        (not_escapes _ _)).trans <|
      leads_out ?_, ?_, ?_⟩
    · simp [hRoot]
    · simp
    · simp [asleep]

end

end Interlace.Demo
