import Interlace.Proofs.Apart

/-!
# From the parent to its child and back

Between a run and its child on a stack of its own there are jobs that a child on the same stack does
without: they start the child, bring its outcome to the parent, and see to the parent when the call
is over that invoked the child. They touch nothing but the parent, the child and the join between.
-/

namespace Interlace

variable {b : Behaviour}

def Machine.afterJob (m : Machine b) (job : Job b) (rest : List (Job b)) : Machine b :=
  ({ m with agenda := rest }.perform job).2

theorem History.machine_afterJob (h : History b) (job : Job b) (rest : List (Job b)) :
    (h.afterJob job rest).machine = h.machine.afterJob job rest := rfl

namespace Detour

variable (e : Detour b)

/-- The jobs that start the child, and lead from the child back to the parent. -/
def Passing : Job b → Prop
  | .start x _ _ _ => x = e.child
  | .invoke x _ | .deliver x _ => x = e.child ∨ x = e.wait :: e.place
  | .items x _ _ => x = e.wait :: e.place
  | .check x => x = e.place
  | _ => False

inductive Passes : Machine b → Machine b → Prop where
  | refl (m : Machine b) : Passes m m
  | step {m m' : Machine b} {job : Job b} {rest : List (Job b)} (hAgenda : m.agenda = job :: rest)
      (hPassing : e.Passing job) (hPasses : Passes (m.afterJob job rest) m') : Passes m m'

def Clear (m : Machine b) : Prop := ∀ job rest, m.agenda = job :: rest → ¬ e.Passing job

def loop : List (Job b) :=
  match e.way with
  | .single _ | .captured => []
  | .joined => [.items (e.wait :: e.place) 1 []]

/-- What is still to be done in the call that invoked the child, unless it is over. -/
def late : Bool → List (Job b)
  | false => e.loop ++ [.check e.place]
  | true => []

def parent (parked : Bool) : Run b :=
  { frames := ⟨e.beside, e.limit, e.pushed⟩
    wait := e.wait
    phase := if parked then .parked e.way.uptake else .invoking e.way.uptake .empty
    wasParked := e.wasParked || parked }

def resumed (parked : Bool) : Run b :=
  { e.parent parked with wait := e.wait + 1, phase := .driving }

def Aside (x : Place) : Prop := e.way = .joined → x ≠ e.wait :: e.place

variable {e}

/-! ## Places -/

theorem child_ne_place : e.child ≠ e.place := by
  have hSite : e.relocation.site e.place = e.child := Relocation.site_origin
  rw [← hSite]
  exact Relocation.site_ne_origin e.place

theorem wait_ne_place : e.wait :: e.place ≠ e.place := fun h => by
  have := congrArg List.length h
  simp at this

theorem aside_place : e.Aside e.place := fun _ => wait_ne_place.symm

theorem aside_child : e.Aside e.child := by
  intro hWay h
  rw [child, hWay] at h
  have := congrArg List.length h
  simp [Way.place] at this

/-! ## Passing on -/

theorem Passes.trans {m m' m'' : Machine b} (h : e.Passes m m') (h' : e.Passes m' m'') :
    e.Passes m m'' := by
  induction h with
  | refl => exact h'
  | step hAgenda hPassing _ ih => exact .step hAgenda hPassing (ih h')

theorem Passes.one {m m' : Machine b} {job : Job b} {rest : List (Job b)} {events : List (Event b)}
    (hAgenda : m.agenda = job :: rest) (hPassing : e.Passing job)
    (hPerform : { m with agenda := rest }.perform job = (events, m')) : e.Passes m m' := by
  refine .step hAgenda hPassing ?_
  rw [Machine.afterJob, hPerform]
  exact .refl m'

theorem Passes.unique {m m' m'' : Machine b} (h : e.Passes m m') (hClear : e.Clear m')
    (h' : e.Passes m m'') (hClear' : e.Clear m'') : m' = m'' := by
  induction h with
  | refl =>
    cases h' with
    | refl => rfl
    | step hAgenda hPassing => exact absurd hPassing (hClear _ _ hAgenda)
  | step hAgenda hPassing _ ih =>
    cases h' with
    | refl => exact absurd hPassing (hClear' _ _ hAgenda)
    | step hAgenda' _ hPasses' =>
      rw [hAgenda] at hAgenda'
      cases hAgenda'
      exact ih hClear hPasses'

theorem site_of_passing {job : Job b} (h : e.Passing job) :
    ∃ y, job.site = some y ∧ (y = e.place ∨ y = e.wait :: e.place ∨ y = e.child) := by
  have hReturned : ∀ {x : Place}, x = e.child ∨ x = e.wait :: e.place →
      ∃ n y, x = n :: y ∧ (y = e.place ∨ y = e.wait :: e.place) := by
    rintro x (rfl | rfl)
    · rw [child]
      cases e.way with
      | single | captured => exact ⟨e.wait, e.place, rfl, Or.inl rfl⟩
      | joined => exact ⟨0, _, rfl, Or.inr rfl⟩
    · exact ⟨e.wait, e.place, rfl, Or.inl rfl⟩
  cases job with
  | start x => exact ⟨x, rfl, Or.inr (Or.inr h)⟩
  | invoke x => exact ⟨x, rfl, Or.inr h.symm⟩
  | items x => exact ⟨x, rfl, Or.inr (Or.inl h)⟩
  | check x => exact ⟨x, rfl, Or.inl h⟩
  | deliver x =>
    obtain ⟨n, y, rfl, hy⟩ := hReturned h
    exact ⟨y, rfl, hy.imp_right Or.inl⟩
  | drive | hold | poke | tell | drop => exact h.elim

theorem Passes.nodes {m m' : Machine b} (h : e.Passes m m') {y : Place}
    (hy : ¬ (y = e.place ∨ y = e.wait :: e.place ∨ y = e.child)) :
    m'.nodes.find? y = m.nodes.find? y := by
  induction h with
  | refl => rfl
  | @step m m' job rest hAgenda hPassing _ ih =>
    obtain ⟨x, hSite, hx⟩ := site_of_passing hPassing
    rw [ih]
    refine (Machine.local_perform (m := { m with agenda := rest }) job).nodes y fun hSame => ?_
    rw [hSite] at hSame
    exact hy (Option.some.inj hSame ▸ hx)

/-! ## The join between -/

theorem report_ofOne (holders : Nat) (o : Outcome) :
    ∃ g, (Gather.ofOne holders).report 0 o = (.done ((Way.joined : Way b.Note).result o), g) ∧
      g.settled = true ∧ g.holders = holders := by
  cases o with
  | ok d => exact ⟨⟨[], 0, true, holders⟩, rfl, rfl, rfl⟩
  | error problem => exact ⟨⟨[none], 1, true, holders⟩, rfl, rfl, rfl⟩

variable {m : Machine b} {rest : List (Job b)}

theorem passes_notes {recipe : b.Recipe} {notes : List b.Note}
    (hAgenda : m.agenda =
      .invoke (e.wait :: e.place) (notes.foldr .noted (.nested e.limit recipe)) :: rest) :
    e.Passes m { m with agenda := .start (e.wait :: e.place) recipe [] e.limit :: rest } := by
  induction notes generalizing m with
  | nil => exact .step hAgenda (Or.inr rfl) (.refl _)
  | cons note notes ih => exact .step hAgenda (Or.inr rfl) (ih rfl)

theorem passes_work {recipe : b.Recipe}
    (hAgenda : m.agenda = .invoke (e.wait :: e.place) (e.way.work e.limit recipe) :: rest) :
    ∃ nodes, e.Passes m { m with
        nodes := nodes, agenda := .start e.child recipe [] e.limit :: (e.loop ++ rest) } ∧
      (∀ y, e.Aside y → nodes.find? y = m.nodes.find? y) ∧
      (e.way = .joined → nodes.find? (e.wait :: e.place) = some (.gather (.ofOne 2))) := by
  have hPassing : ∀ work, e.Passing (.invoke (e.wait :: e.place) work) := fun _ => Or.inr rfl
  cases hWay : e.way with
  | single notes =>
    have hChild : e.child = e.wait :: e.place := by rw [child, hWay]; rfl
    rw [hWay] at hAgenda
    refine ⟨m.nodes, ?_, fun _ _ => rfl, by simp⟩
    rw [hChild, loop, hWay]
    exact passes_notes hAgenda
  | captured =>
    have hChild : e.child = e.wait :: e.place := by rw [child, hWay]; rfl
    rw [hWay] at hAgenda
    refine ⟨m.nodes, ?_, fun _ _ => rfl, by simp⟩
    rw [hChild, loop, hWay]
    exact .step hAgenda (hPassing _) (.refl _)
  | joined =>
    have hChild : e.child = 0 :: e.wait :: e.place := by rw [child, hWay]; rfl
    rw [hWay] at hAgenda
    refine ⟨m.nodes.update (e.wait :: e.place) (some (.gather (.ofOne 2))), ?_, ?_, ?_⟩
    · rw [hChild, loop, hWay]
      refine .step hAgenda (hPassing _) (.step rfl rfl (.step rfl (Or.inl hChild.symm) ?_))
      exact .refl _
    · intro y hy
      exact Table.find?_update_of_ne _ _ (hy hWay)
    · intro _
      exact Table.find?_update_self _ _ _

theorem passes_loop (hAgenda : m.agenda = e.loop ++ rest) {g : Gather}
    (hJoin : e.way = .joined → m.nodes.find? (e.wait :: e.place) = some (.gather g))
    (hSettled : g.release.holders = 0 → g.settled = true) :
    ∃ nodes, e.Passes m { m with nodes := nodes, agenda := rest } ∧
      (∀ y, e.Aside y → nodes.find? y = m.nodes.find? y) ∧
      (e.way = .joined → nodes.find? (e.wait :: e.place) = g.remains) := by
  obtain ⟨world, nodes, held, agenda⟩ := m
  dsimp only at hAgenda hJoin
  subst hAgenda
  rw [loop]
  cases hWay : e.way with
  | single | captured => exact ⟨nodes, .refl _, fun _ _ => rfl, by simp⟩
  | joined =>
    have hDropped : (g.dropped (e.wait :: e.place) : List (Job b)) = [] := by
      rw [Gather.dropped, if_neg]
      rintro ⟨hHolders, hOpen⟩
      rw [hSettled hHolders] at hOpen
      cases hOpen
    refine ⟨nodes.update (e.wait :: e.place) g.remains, ?_, ?_, ?_⟩
    · have hPerform := Machine.perform_items_nil (m := ⟨world, nodes, held, rest⟩) (hJoin hWay) 1
      rw [hDropped] at hPerform
      exact .one rfl rfl hPerform
    · intro y hy
      exact Table.find?_update_of_ne _ _ (hy hWay)
    · intro _
      exact Table.find?_update_self _ _ _

theorem passes_outcome {o : Outcome} {holders : Nat}
    (hAgenda : m.agenda = .deliver e.child o :: rest)
    (hJoin : e.way = .joined →
      m.nodes.find? (e.wait :: e.place) = some (.gather (.ofOne (holders + 1)))) :
    ∃ nodes, e.Passes m { m with
        nodes := nodes, agenda := .deliver (e.wait :: e.place) (e.way.result o) :: rest } ∧
      (∀ y, e.Aside y → nodes.find? y = m.nodes.find? y) ∧
      (e.way = .joined → 0 < holders → ∃ g,
        nodes.find? (e.wait :: e.place) = some (.gather g) ∧ g.settled = true ∧
          g.holders = holders) := by
  obtain ⟨world, nodes, held, agenda⟩ := m
  dsimp only at hAgenda hJoin
  subst hAgenda
  cases hWay : e.way with
  | single | captured =>
    have hChild : e.child = e.wait :: e.place := by rw [child, hWay]; rfl
    rw [hChild]
    exact ⟨nodes, .refl _, fun _ _ => rfl, by simp⟩
  | joined =>
    have hChild : e.child = 0 :: e.wait :: e.place := by rw [child, hWay]; rfl
    obtain ⟨g, hReport, hSettled, hHolders⟩ := report_ofOne (holders + 1) o
    have hDropped : (g.dropped (e.wait :: e.place) : List (Job b)) = [] := by
      rw [Gather.dropped, if_neg]
      simp [hSettled]
    refine ⟨nodes.update (e.wait :: e.place) g.remains, ?_, ?_, ?_⟩
    · have hPerform := Machine.perform_deliver_item (m := ⟨world, nodes, held, rest⟩) (hJoin hWay)
        hReport (by simp)
      rw [hDropped] at hPerform
      rw [hChild]
      exact .one rfl (Or.inl hChild.symm) hPerform
    · intro y hy
      exact Table.find?_update_of_ne _ _ (hy hWay)
    · intro _ hPositive
      refine ⟨g.release, ?_, hSettled, ?_⟩
      · rw [Table.find?_update_self, Gather.remains, if_neg]
        simp only [Gather.release, hHolders]
        omega
      · simp [Gather.release, hHolders]

/-! ## The parent -/

theorem passes_wake {o : Outcome} (hAgenda : m.agenda = .deliver (e.wait :: e.place) o :: rest)
    (hParent : m.nodes.find? e.place = some (.run (e.parent true))) :
    e.Passes m { m with
      nodes := m.nodes.update e.place (some (.run (e.resumed true)))
      agenda := .drive e.place (e.way.uptake.apply o) :: rest } :=
  .one hAgenda (Or.inr rfl)
    (Machine.perform_deliver_parked (m := { m with agenda := rest }) hParent rfl rfl)

theorem passes_mail {o : Outcome} {g : Gather}
    (hAgenda : m.agenda = .deliver (e.wait :: e.place) o :: (e.late false ++ rest))
    (hParent : m.nodes.find? e.place = some (.run (e.parent false)))
    (hJoin : e.way = .joined → m.nodes.find? (e.wait :: e.place) = some (.gather g))
    (hSettled : g.settled = true) :
    ∃ nodes, e.Passes m { m with
        nodes := nodes, agenda := .drive e.place (e.way.uptake.apply o) :: rest } ∧
      nodes.find? e.place = some (.run (e.resumed false)) := by
  rw [late, List.append_assoc] at hAgenda
  have hMail := Machine.perform_deliver_invoking
    (m := { m with agenda := e.loop ++ ([.check e.place] ++ rest) }) (o := o) hParent rfl rfl
  have hKept : ∀ r : Run b, (m.nodes.update e.place (some (.run r))).find? (e.wait :: e.place) =
      m.nodes.find? (e.wait :: e.place) := fun r => Table.find?_update_of_ne _ _ wait_ne_place
  obtain ⟨nodes, hLoop, hNodes, -⟩ := passes_loop (e := e) (g := g)
    (m := { m with
      nodes := m.nodes.update e.place (some (.run
        { e.parent false with phase := .invoking e.way.uptake (.outcome o) }))
      agenda := e.loop ++ ([.check e.place] ++ rest) })
    rfl (fun hWay => (hKept _).trans (hJoin hWay)) fun _ => hSettled
  have hFind : nodes.find? e.place = some (.run
      { e.parent false with phase := .invoking e.way.uptake (.outcome o) }) := by
    rw [hNodes _ aside_place]
    exact Table.find?_update_self _ _ _
  refine ⟨nodes.update e.place (some (.run (e.resumed false))), ?_, Table.find?_update_self _ _ _⟩
  exact ((Passes.one hAgenda (Or.inr rfl) hMail).trans hLoop).trans (.one rfl rfl
    (Machine.perform_check_outcome (m := { m with nodes, agenda := rest }) hFind rfl))

/-- A parent whose child is parked is parked when the call is over that invoked the child. -/
theorem passes_park {parked : Bool} (hAgenda : m.agenda = e.late parked ++ rest)
    (hParent : m.nodes.find? e.place = some (.run (e.parent parked)))
    (hJoin : e.way = .joined → m.nodes.find? (e.wait :: e.place) =
      some (.gather (.ofOne (if parked then 1 else 2)))) :
    ∃ nodes, e.Passes m { m with nodes := nodes, agenda := rest } ∧
      nodes.find? e.place = some (.run (e.parent true)) ∧
      (e.way = .joined → nodes.find? (e.wait :: e.place) = some (.gather (.ofOne 1))) ∧
      ∀ y, e.Aside y → y ≠ e.place → nodes.find? y = m.nodes.find? y := by
  obtain ⟨world, nodes, held, agenda⟩ := m
  dsimp only at hAgenda hParent hJoin
  subst hAgenda
  cases parked with
  | true => exact ⟨nodes, .refl _, hParent, hJoin, fun _ _ _ => rfl⟩
  | false =>
    obtain ⟨nodes', hLoop, hNodes, hRemains⟩ := passes_loop (e := e) (g := .ofOne 2)
      (m := ⟨world, nodes, held, e.late false ++ rest⟩) (List.append_assoc _ _ _) hJoin
      (fun h => absurd h (by decide))
    have hFind : nodes'.find? e.place = some (.run (e.parent false)) := by
      rw [hNodes _ aside_place]
      exact hParent
    have hPark := Machine.perform_check_empty (m := ⟨world, nodes', held, rest⟩) hFind
      (u := e.way.uptake) rfl
    have hParked :
        ({ e.parent false with phase := .parked e.way.uptake, wasParked := true } : Run b) =
        e.parent true := by
      simp [parent]
    rw [hParked] at hPark
    refine ⟨_, hLoop.trans (.one rfl rfl hPark), Table.find?_update_self _ _ _, ?_, ?_⟩
    · intro hWay
      rw [Table.find?_update_of_ne _ _ wait_ne_place]
      exact hRemains hWay
    · intro y hy hOther
      rw [Table.find?_update_of_ne _ _ hOther]
      exact hNodes y hy

theorem passes_end {parked : Bool} {o : Outcome}
    (hAgenda : m.agenda = .deliver e.child o :: (e.late parked ++ rest))
    (hParent : m.nodes.find? e.place = some (.run (e.parent parked)))
    (hJoin : e.way = .joined → m.nodes.find? (e.wait :: e.place) =
      some (.gather (.ofOne (if parked then 1 else 2)))) :
    ∃ nodes, e.Passes m { m with
        nodes := nodes, agenda := .drive e.place (e.way.input o) :: rest } ∧
      nodes.find? e.place = some (.run (e.resumed parked)) := by
  rw [← Way.apply_result]
  cases parked with
  | true =>
    obtain ⟨nodes, hOutcome, hNodes, -⟩ := passes_outcome hAgenda hJoin
    refine ⟨_, hOutcome.trans (passes_wake rfl ?_), Table.find?_update_self _ _ _⟩
    exact (hNodes _ aside_place).trans hParent
  | false =>
    obtain ⟨nodes, hOutcome, hNodes, hReported⟩ := passes_outcome hAgenda hJoin
    obtain ⟨g, hGather, hSettled⟩ : ∃ g : Gather, (e.way = .joined →
        nodes.find? (e.wait :: e.place) = some (.gather g)) ∧ g.settled = true := by
      by_cases hWay : e.way = .joined
      · obtain ⟨g, hGather, hSettled, -⟩ := hReported hWay Nat.one_pos
        exact ⟨g, fun _ => hGather, hSettled⟩
      · exact ⟨⟨[], 0, true, 0⟩, fun h => absurd h hWay, rfl⟩
    obtain ⟨nodes', hMail, hResumed⟩ := passes_mail
      (m := { m with
        nodes, agenda := .deliver (e.wait :: e.place) (e.way.result o) :: (e.late false ++ rest) })
      rfl ((hNodes _ aside_place).trans hParent) hGather hSettled
    exact ⟨nodes', hOutcome.trans hMail, hResumed⟩

theorem not_escapes (wasParked : Bool) (o : Outcome) : ¬ Escapes e.child wasParked o := by
  rintro ⟨-, n, -, hChild, -⟩
  rw [child] at hChild
  cases hWay : e.way with
  | single | captured =>
    rw [hWay] at hChild
    exact e.rooted (List.cons.inj hChild).2
  | joined =>
    rw [hWay] at hChild
    exact List.cons_ne_nil _ _ (List.cons.inj hChild).2

end Detour

end Interlace
