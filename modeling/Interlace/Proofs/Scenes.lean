import Interlace.Proofs.Isolation
import Mathlib.Logic.Relation

/-!
# Scenes

A scene is what there is to see of a history: what stands where, what is held, what is still to be
done, and with which outcomes continuations were called. What a top-level run does until all jobs
are done leads from one scene to another, which differs in nothing that belongs to other runs.
-/

namespace Interlace

variable {b : Behaviour}

structure Scene (b : Behaviour) where
  nodes : Place → Option (Node b)
  world : b.World
  held : List Held
  agenda : List (Job b)
  calls : Place → List Outcome

def History.scene (h : History b) : Scene b :=
  ⟨h.machine.nodes.find?, h.machine.world, h.machine.held, h.machine.agenda, h.calls⟩

def History.Works (safe : b.World → b.World → Prop) : History b → History b → Prop :=
  Relation.ReflTransGen fun h h' => ∃ job rest, h.machine.agenda = job :: rest ∧
    h' = h.afterJob job rest ∧
    (h'.machine.world = h.machine.world ∨ safe h.machine.world h'.machine.world)

theorem History.Works.mono {safe safe' : b.World → b.World → Prop} {h h' : History b}
    (hWorks : h.Works safe h') (hSafe : ∀ w w', safe w w' → safe' w w') : h.Works safe' h' := by
  refine Relation.ReflTransGen.mono (fun _ _ hStep => ?_) h h' hWorks
  obtain ⟨job, rest, hAgenda, hAfter, hWorld⟩ := hStep
  exact ⟨job, rest, hAgenda, hAfter, hWorld.imp_right (hSafe _ _)⟩

namespace Scene

/-- Two scenes agree on all that does not belong to the top-level run `n`. -/
structure Beside (n : Nat) (c c' : Scene b) : Prop where
  nodes : ∀ q, topOf q ≠ some n → c'.nodes q = c.nodes q
  held : ∀ m ≠ n, heldOf m c'.held = heldOf m c.held
  calls : ∀ q, topOf q ≠ some n → c'.calls q = c.calls q

/-- From the one scene the jobs of the top-level run `n` lead to the other. -/
structure Leads (safe : b.World → b.World → Prop) (n : Nat) (c c' : Scene b) : Prop where
  beside : c.Beside n c'
  works : ∀ h : History b, h.scene = c → ∃ h', h.Works safe h' ∧ h'.scene = c'

namespace Beside

variable {n : Nat} {c c' c'' : Scene b}

theorem refl (n : Nat) (c : Scene b) : c.Beside n c :=
  ⟨fun _ _ => rfl, fun _ _ => rfl, fun _ _ => rfl⟩

theorem trans (h : c.Beside n c') (h' : c'.Beside n c'') : c.Beside n c'' where
  nodes q hq := (h'.nodes q hq).trans (h.nodes q hq)
  held m hm := (h'.held m hm).trans (h.held m hm)
  calls q hq := (h'.calls q hq).trans (h.calls q hq)

end Beside

theorem Leads.refl {safe : b.World → b.World → Prop} (n : Nat) (c : Scene b) : Leads safe n c c :=
  ⟨.refl n c, fun h hScene => ⟨h, .refl, hScene⟩⟩

theorem Leads.trans {safe : b.World → b.World → Prop} {n : Nat} {c c' c'' : Scene b}
    (h : Leads safe n c c') (h' : Leads safe n c' c'') : Leads safe n c c'' where
  beside := h.beside.trans h'.beside
  works start hScene := by
    obtain ⟨middle, hFirst, hMiddle⟩ := h.works start hScene
    obtain ⟨last, hSecond, hLast⟩ := h'.works middle hMiddle
    exact ⟨last, Relation.ReflTransGen.trans hFirst hSecond, hLast⟩

/-! ## What the jobs lead to -/

theorem find?_update_eq {α : Type} (t : Table α) (p : Place) (x : Option α) :
    (t.update p x).find? = Function.update t.find? p x := by
  funext q
  by_cases hq : q = p
  · subst hq
    simp
  · rw [t.find?_update_of_ne x hq, Function.update_of_ne hq]

theorem topOf_ne {p q : Place} {n : Nat} (hp : topOf p = some n) (hq : topOf q ≠ some n) :
    q ≠ p := by
  rintro rfl
  exact hq hp

section Steps

variable {safe : b.World → b.World → Prop} {n : Nat} {nodes : Place → Option (Node b)}
  {world : b.World} {held : List Held} {rest : List (Job b)} {calls : Place → List Outcome}

theorem leads_of_perform {job : Job b} {c : Scene b}
    (hBeside : Beside n ⟨nodes, world, held, job :: rest, calls⟩ c)
    (hSafe : c.world = world ∨ safe world c.world)
    (hPerform : ∀ m : Machine b, m.nodes.find? = nodes → m.world = world → m.held = held →
      m.agenda = rest → ∃ events m', m.perform job = (events, m') ∧ m'.nodes.find? = c.nodes ∧
        m'.world = c.world ∧ m'.held = c.held ∧ m'.agenda = c.agenda ∧
        ∀ q, calls q ++ events.filterMap (Event.calls? q) = c.calls q) :
    Leads safe n ⟨nodes, world, held, job :: rest, calls⟩ c where
  beside := hBeside
  works h hScene := by
    simp only [History.scene, Scene.mk.injEq] at hScene
    obtain ⟨hNodes, rfl, hHeld, hAgenda, hCalls⟩ := hScene
    obtain ⟨events, m', hEffect, hNodes', hWorld', hHeld', hAgenda', hCalls'⟩ :=
      hPerform { h.machine with agenda := rest } hNodes rfl hHeld rfl
    have hAfter : h.afterJob job rest = { h with
        machine := m'
        log := h.log ++ events
        done := h.done ++ [⟨job, h.machine.world⟩] } := by
      rw [History.afterJob, hEffect]
    refine ⟨h.afterJob job rest, .single ⟨job, rest, hAgenda, rfl, ?_⟩, ?_⟩
    · rw [hAfter]
      exact hWorld' ▸ hSafe
    · rw [hAfter, History.scene]
      dsimp only
      obtain ⟨nodes', world', held', agenda', calls'⟩ := c
      congr 1
      funext q
      refine Eq.trans ?_ (hCalls' q)
      rw [← hCalls]
      exact List.filterMap_append

theorem leads_of_change {job : Job b} {p : Place} (hp : topOf p = some n) {x : Option (Node b)}
    {world' : b.World} (hSafe : world' = world ∨ safe world world') (put : List (Job b))
    (hPerform : ∀ m : Machine b, m.nodes.find? = nodes → m.world = world → ∃ events,
      m.perform job = (events,
        { m with world := world', nodes := m.nodes.update p x, agenda := put ++ m.agenda }) ∧
      ∀ q, events.filterMap (Event.calls? q) = []) :
    Leads safe n ⟨nodes, world, held, job :: rest, calls⟩
      ⟨Function.update nodes p x, world', held, put ++ rest, calls⟩ := by
  refine leads_of_perform ⟨fun q hq => Function.update_of_ne (topOf_ne hp hq) _ _, fun _ _ => rfl,
    fun _ _ => rfl⟩ hSafe ?_
  rintro m rfl rfl rfl rfl
  obtain ⟨events, hEffect, hEvents⟩ := hPerform m rfl rfl
  exact ⟨_, _, hEffect, find?_update_eq _ _ _, rfl, rfl, rfl, fun q => by simp [hEvents]⟩

theorem leads_of_put {job : Job b} (put : List (Job b)) {events : List (Event b)}
    (hPerform : ∀ m : Machine b, m.perform job = (events, { m with agenda := put ++ m.agenda }))
    (hEvents : ∀ q, events.filterMap (Event.calls? q) = []) :
    Leads safe n ⟨nodes, world, held, job :: rest, calls⟩
      ⟨nodes, world, held, put ++ rest, calls⟩ := by
  refine leads_of_perform ⟨fun _ _ => rfl, fun _ _ => rfl, fun _ _ => rfl⟩ (Or.inl rfl) ?_
  rintro m rfl rfl rfl rfl
  exact ⟨_, _, hPerform m, rfl, rfl, rfl, rfl, fun q => by simp [hEvents]⟩

theorem calls?_notes (q : Place) (notes : List b.Note) :
    (notes.map Event.note).filterMap (Event.calls? q) = [] := by
  rw [List.filterMap_map]
  exact List.filterMap_eq_nil_iff.mpr fun _ _ => rfl

theorem calls?_stepEvents (q p : Place) (r : Run b) (x : Input) (w : b.World) :
    (Machine.stepEvents p r x w).filterMap (Event.calls? q) = [] := by
  rw [Machine.stepEvents, List.filterMap_cons_none rfl, calls?_notes]

section Run

variable {p : Place} (hp : topOf p = some n)
include hp

theorem leads_start {recipe : b.Recipe} {args : List Datum} {limit : Nat} {body : b.Body}
    {notes : List b.Note} {world' : b.World} (hLimit : 0 < limit)
    (hMake : b.make recipe args world = (body, notes, world'))
    (hSafe : world' = world ∨ safe world world') :
    Leads safe n ⟨nodes, world, held, .start p recipe args limit :: rest, calls⟩
      ⟨Function.update nodes p
        (some (.run ⟨⟨[⟨body, .ready, 0⟩], limit, 1⟩, 0, .driving, false⟩)), world', held,
        .drive p .start :: rest, calls⟩ := by
  refine leads_of_change hp hSafe [.drive p .start] fun m _ hWorld => ?_
  subst hWorld
  refine ⟨_, Machine.perform_start hLimit hMake, fun q => ?_⟩
  rw [List.filterMap_append, calls?_notes]
  rfl

section Drive

variable {r : Run b} (hFind : nodes p = some (.run r)) {x : Input} {frames : Frames b.Body}
  {notes : List b.Note} {world' : b.World} (hSafe : world' = world ∨ safe world world')
include hFind hSafe

theorem leads_next {y : Input}
    (hTurn : r.frames.turn b x world = ⟨.next y, frames, notes, world'⟩) :
    Leads safe n ⟨nodes, world, held, .drive p x :: rest, calls⟩
      ⟨Function.update nodes p (some (.run { r with frames })), world', held,
        .drive p y :: rest, calls⟩ := by
  refine leads_of_change hp hSafe [.drive p y] fun m hNodes hWorld => ?_
  subst hNodes hWorld
  have hPerform := Machine.perform_drive_next hFind (congrArg Turned.turn hTurn)
  rw [hTurn] at hPerform
  exact ⟨_, hPerform, fun q => calls?_stepEvents q p r x m.world⟩

theorem leads_await {work : Work b.Recipe b.Note} {u : Uptake}
    (hTurn : r.frames.turn b x world = ⟨.await work u, frames, notes, world'⟩) :
    Leads safe n ⟨nodes, world, held, .drive p x :: rest, calls⟩
      ⟨Function.update nodes p (some (.run { r with frames, phase := .invoking u .empty })), world',
        held, .invoke (r.wait :: p) work :: .check p :: rest, calls⟩ := by
  refine leads_of_change hp hSafe [.invoke (r.wait :: p) work, .check p] fun m hNodes hWorld => ?_
  subst hNodes hWorld
  have hPerform := Machine.perform_drive_await hFind (congrArg Turned.turn hTurn)
  rw [hTurn] at hPerform
  exact ⟨_, hPerform, fun q => calls?_stepEvents q p r x m.world⟩

theorem leads_finish {o : Outcome}
    (hTurn : r.frames.turn b x world = ⟨.finished o, frames, notes, world'⟩)
    (hEscapes : ¬ Escapes p r.wasParked o) :
    Leads safe n ⟨nodes, world, held, .drive p x :: rest, calls⟩
      ⟨Function.update nodes p none, world', held, .deliver p o :: rest, calls⟩ := by
  refine leads_of_change hp hSafe [.deliver p o] fun m hNodes hWorld => ?_
  subst hNodes hWorld
  have hPerform := Machine.perform_drive_finished hFind (congrArg Turned.turn hTurn) hEscapes
  rw [hTurn] at hPerform
  exact ⟨_, hPerform, fun q => calls?_stepEvents q p r x m.world⟩

end Drive

section Check

variable {r : Run b} {u : Uptake} (hFind : nodes p = some (.run r))
include hFind

theorem leads_park (hPhase : r.phase = .invoking u .empty) :
    Leads safe n ⟨nodes, world, held, .check p :: rest, calls⟩
      ⟨Function.update nodes p (some (.run { r with phase := .parked u, wasParked := true })),
        world, held, rest, calls⟩ := by
  refine leads_of_change hp (Or.inl rfl) [] fun m hNodes hWorld => ?_
  subst hNodes hWorld
  exact ⟨_, Machine.perform_check_empty hFind hPhase, fun _ => rfl⟩

theorem leads_go_on {o : Outcome} (hPhase : r.phase = .invoking u (.outcome o)) :
    Leads safe n ⟨nodes, world, held, .check p :: rest, calls⟩
      ⟨Function.update nodes p (some (.run { r with wait := r.wait + 1, phase := .driving })),
        world, held, .drive p (u.apply o) :: rest, calls⟩ := by
  refine leads_of_change hp (Or.inl rfl) [.drive p (u.apply o)] fun m hNodes hWorld => ?_
  subst hNodes hWorld
  exact ⟨_, Machine.perform_check_outcome hFind hPhase, fun _ => rfl⟩

end Check

end Run

/-! ## Work -/

theorem leads_done (p : Place) (o : Outcome) :
    Leads safe n ⟨nodes, world, held, .invoke p (.done o) :: rest, calls⟩
      ⟨nodes, world, held, .deliver p o :: rest, calls⟩ :=
  leads_of_put [.deliver p o] (fun _ => rfl) fun _ => rfl

theorem leads_nested (p : Place) (limit : Nat) (recipe : b.Recipe) :
    Leads safe n ⟨nodes, world, held, .invoke p (.nested limit recipe) :: rest, calls⟩
      ⟨nodes, world, held, .start p recipe [] limit :: rest, calls⟩ :=
  leads_of_put [.start p recipe [] limit] (fun _ => rfl) fun _ => rfl

theorem leads_no_items (p : Place) :
    Leads safe n ⟨nodes, world, held, .invoke p (.gather []) :: rest, calls⟩
      ⟨nodes, world, held, .deliver p (.ok (.list [])) :: rest, calls⟩ :=
  leads_of_put [.deliver p (.ok (.list []))] (fun _ => rfl) fun _ => rfl

theorem leads_item (p : Place) (index : Nat) (work : Work b.Recipe b.Note)
    (works : List (Work b.Recipe b.Note)) :
    Leads safe n ⟨nodes, world, held, .items p index (work :: works) :: rest, calls⟩
      ⟨nodes, world, held, .invoke (index :: p) work :: .items p (index + 1) works :: rest,
        calls⟩ :=
  leads_of_put [.invoke (index :: p) work, .items p (index + 1) works] (fun _ => rfl) fun _ => rfl

section Hold

variable {p : Place} (hp : topOf p = some n)
include hp

theorem leads_sleep (ms : Nat) :
    Leads safe n ⟨nodes, world, held, .invoke p (.sleep ms) :: rest, calls⟩
      ⟨nodes, world, held ++ [⟨p, .timed ms (.ok (.number (Number.ofNat ms)))⟩], rest, calls⟩ := by
  refine (leads_of_put [.hold p (.timed ms (.ok (.number (Number.ofNat ms))))] (fun _ => rfl)
    fun _ => rfl).trans (leads_of_perform ⟨fun _ _ => rfl, fun m hm => ?_, fun _ _ => rfl⟩
    (Or.inl rfl) ?_)
  · rw [heldOf, List.filter_append, heldOf]
    simp [hp, Ne.symm hm]
  · rintro m rfl rfl rfl rfl
    exact ⟨_, _, rfl, rfl, rfl, rfl, rfl, fun q => List.append_nil _⟩

theorem leads_gather (work : Work b.Recipe b.Note) (works : List (Work b.Recipe b.Note)) :
    Leads safe n ⟨nodes, world, held, .invoke p (.gather (work :: works)) :: rest, calls⟩
      ⟨Function.update nodes p (some (.gather (.new (works.length + 1)))), world, held,
        .items p 0 (work :: works) :: rest, calls⟩ := by
  refine leads_of_change hp (Or.inl rfl) [.items p 0 (work :: works)] fun m _ hWorld => ?_
  subst hWorld
  exact ⟨_, Machine.perform_invoke_gather p work works, fun _ => rfl⟩

theorem leads_items_end {g : Gather} (hFind : nodes p = some (.gather g)) {index : Nat} :
    Leads safe n ⟨nodes, world, held, .items p index [] :: rest, calls⟩
      ⟨Function.update nodes p g.remains, world, held, g.dropped p ++ rest, calls⟩ := by
  refine leads_of_change hp (Or.inl rfl) (g.dropped p) fun m hNodes hWorld => ?_
  subst hNodes hWorld
  exact ⟨_, Machine.perform_items_nil hFind index, fun _ => rfl⟩

end Hold

/-! ## Outcomes -/

section Deliver

variable {q : Place} {i : Nat} {o : Outcome}

theorem leads_of_call (hp : topOf (i :: q) = some n) {x : Option (Node b)} (put : List (Job b))
    (hq : topOf q = some n ∨ nodes q = x)
    (hPerform : ∀ m : Machine b, m.nodes.find? = nodes →
      ∃ m', m.perform (.deliver (i :: q) o) = ([.called (i :: q) o], m') ∧
        m'.nodes.find? = Function.update nodes q x ∧ m'.world = m.world ∧ m'.held = m.held ∧
        m'.agenda = put ++ m.agenda) :
    Leads safe n ⟨nodes, world, held, .deliver (i :: q) o :: rest, calls⟩
      ⟨Function.update nodes q x, world, held, put ++ rest,
        Function.update calls (i :: q) (calls (i :: q) ++ [o])⟩ := by
  refine leads_of_perform ⟨fun p hOther => ?_, fun _ _ => rfl,
    fun p hOther => Function.update_of_ne (topOf_ne hp hOther) _ _⟩ (Or.inl rfl) ?_
  · rcases hq with hq | rfl
    · exact Function.update_of_ne (topOf_ne hq hOther) _ _
    · exact congrFun (Function.update_eq_self q nodes) p
  · rintro m rfl rfl rfl rfl
    obtain ⟨m', hEffect, hNodes, hWorld, hHeld, hAgenda⟩ := hPerform m rfl
    refine ⟨_, m', hEffect, hNodes, hWorld, hHeld, hAgenda, fun p => ?_⟩
    by_cases hip : p = i :: q
    · subst hip
      simp [Event.calls?]
    · simp [Event.calls?, Function.update_of_ne hip, Ne.symm hip]

section Returned

variable (hq : topOf q = some n)
include hq

theorem leads_mail {r : Run b} {u : Uptake} (hFind : nodes q = some (.run r)) (hWait : r.wait = i)
    (hPhase : r.phase = .invoking u .empty) :
    Leads safe n ⟨nodes, world, held, .deliver (i :: q) o :: rest, calls⟩
      ⟨Function.update nodes q (some (.run { r with phase := .invoking u (.outcome o) })), world,
        held, rest, Function.update calls (i :: q) (calls (i :: q) ++ [o])⟩ := by
  refine leads_of_call (topOf_cons hq i) [] (Or.inl hq) fun m hNodes => ?_
  subst hNodes
  exact ⟨_, Machine.perform_deliver_invoking hFind hWait hPhase, find?_update_eq _ _ _, rfl, rfl,
    rfl⟩

theorem leads_resume {r : Run b} {u : Uptake} (hFind : nodes q = some (.run r)) (hWait : r.wait = i)
    (hPhase : r.phase = .parked u) :
    Leads safe n ⟨nodes, world, held, .deliver (i :: q) o :: rest, calls⟩
      ⟨Function.update nodes q (some (.run { r with wait := r.wait + 1, phase := .driving })),
        world, held, .drive q (u.apply o) :: rest,
        Function.update calls (i :: q) (calls (i :: q) ++ [o])⟩ := by
  refine leads_of_call (topOf_cons hq i) [.drive q (u.apply o)] (Or.inl hq) fun m hNodes => ?_
  subst hNodes
  exact ⟨_, Machine.perform_deliver_parked hFind hWait hPhase, find?_update_eq _ _ _, rfl, rfl,
    rfl⟩

theorem leads_report {g g' : Gather} {settlement : Settlement}
    (hFind : nodes q = some (.gather g)) (hReport : g.report i o = (settlement, g'))
    (hFault : ∀ f, settlement ≠ .fault f) :
    Leads safe n ⟨nodes, world, held, .deliver (i :: q) o :: rest, calls⟩
      ⟨Function.update nodes q g'.remains, world, held,
        settlement.answer q ++ g'.dropped q ++ rest,
        Function.update calls (i :: q) (calls (i :: q) ++ [o])⟩ := by
  refine leads_of_call (topOf_cons hq i) (settlement.answer q ++ g'.dropped q) (Or.inl hq)
    fun m hNodes => ?_
  subst hNodes
  exact ⟨_, Machine.perform_deliver_item hFind hReport hFault, find?_update_eq _ _ _, rfl, rfl,
    rfl⟩

end Returned

theorem leads_out (hRoot : nodes [] = none) :
    Leads safe n ⟨nodes, world, held, .deliver [n] o :: rest, calls⟩
      ⟨nodes, world, held, rest, Function.update calls [n] (calls [n] ++ [o])⟩ := by
  have hSame : Function.update nodes [] none = nodes := hRoot ▸ Function.update_eq_self [] nodes
  have hLeads : Leads safe n ⟨nodes, world, held, .deliver [n] o :: rest, calls⟩
      ⟨Function.update nodes [] none, world, held, rest,
        Function.update calls [n] (calls [n] ++ [o])⟩ := by
    refine leads_of_call rfl [] (Or.inr hRoot) fun m hNodes => ?_
    subst hNodes
    exact ⟨m, Machine.perform_deliver_top hRoot o, hSame.symm, rfl, rfl, rfl⟩
  rw [hSame] at hLeads
  exact hLeads

end Deliver

end Steps

end Scene

end Interlace
