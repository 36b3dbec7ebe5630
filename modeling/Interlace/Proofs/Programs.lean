import Interlace.Proofs.Completion

/-!
# Programs whose bodies share nothing

When bodies do not look at the world and operations complete nothing but themselves, a program and
the results of its operations say all there is to say. A schedule then only decides when an
operation completes: inside of its own invocation or at any later moment.
-/

namespace Interlace

variable {b : Behaviour}

/-- Work whose operations complete themselves and nothing else. -/
inductive Work.Plain {Recipe Note : Type} : Work Recipe Note → Prop where
  | primitive {w : Primitive} (hBefore : w.before = []) (hAfter : w.after = [])
      (hFate : w.fate ≠ .drop) : Plain (.primitive w)
  | noted {note : Note} {work : Work Recipe Note} (h : Plain work) : Plain (.noted note work)
  | gather {items : List (Work Recipe Note)} (h : ∀ w ∈ items, Plain w) : Plain (.gather items)
  | nested {limit : Nat} {recipe : Recipe} : Plain (.nested limit recipe)

structure Behaviour.Unshared (b : Behaviour) : Prop where
  make : ∀ recipe args w w', (b.make recipe args w).1 = (b.make recipe args w').1
  step : ∀ body x w w', (b.step body x w).1 = (b.step body x w').1 ∧
    (b.step body x w).2.1 = (b.step body x w').2.1

/-- What becomes of a body depends on its inputs only, and it asks for plain work only. -/
structure Behaviour.Separate (b : Behaviour) : Prop where
  make : ∀ recipe args w w', (b.make recipe args w).1 = (b.make recipe args w').1
  step : ∀ body x w w', (b.step body x w).1 = (b.step body x w').1 ∧
    (b.step body x w).2.1 = (b.step body x w').2.1
  plain : ∀ body x w request, (b.step body x w).1 = .wait request →
    ∀ limit work u, request.resolve limit = .await work u → work.Plain

theorem Behaviour.Separate.unshared (hb : b.Separate) : b.Unshared := ⟨hb.make, hb.step⟩

namespace Demo

variable {Recipe Note : Type}

theorem plain_sleep (ms : Nat) : (Work.sleep ms : Work Recipe Note).Plain :=
  .primitive rfl rfl (by simp)

theorem plain_done (o : Outcome) : (Work.done o : Work Recipe Note).Plain :=
  .primitive rfl rfl (by simp)

theorem plain_contents {path : String} {work : Work Recipe Note} (h : contents path = .ok work) :
    work.Plain := by
  rw [contents] at h
  split at h
  · cases h
    exact plain_done _
  · cases h

theorem plain_all {items : List (Item Recipe Note)} {limit : Nat} {work : Work Recipe Note}
    {u : Uptake} (hItems : ∀ w, .work w ∈ items → w.Plain)
    (hResolve : (Request.all items).resolve limit = .await work u) : work.Plain := by
  cases hResolve
  refine .gather fun w hw => ?_
  obtain ⟨item, hItem, rfl⟩ := List.mem_map.mp hw
  cases item with
  | work w => exact hItems w hItem
  | coroutine recipe => exact .nested

theorem plain_step {body : Body} {x : Input} {gauges : Gauges} {request : Request Demo Empty}
    (h : (step id body x gauges).1 = .wait request) {limit : Nat} {work : Work Demo Empty}
    {u : Uptake} (hResolve : request.resolve limit = .await work u) : work.Plain := by
  obtain ⟨demo, key, steps⟩ := body
  cases demo with
  | fanOutSleeps latencies immediate =>
    rcases steps with _ | steps
    · cases h
      refine plain_all (fun w hw => ?_) hResolve
      simp only [List.mem_map, List.mem_append, Item.work.injEq, exists_eq_right] at hw
      rcases hw with ⟨ms, -, rfl⟩ | ⟨d, -, rfl⟩
      · exact plain_sleep ms
      · exact plain_done _
    · cases x <;> cases h
  | fanOutNested times gauge =>
    rcases steps with _ | steps
    · cases h
      refine plain_all (fun w hw => ?_) hResolve
      simp at hw
    · cases x <;> cases h
  | sleepThenTriple time gauge =>
    rcases steps with _ | steps
    · cases h
      cases hResolve
      exact plain_sleep time
    · cases x <;> cases h
  | lookupCaptured =>
    rcases steps with _ | steps
    · cases h
      cases hResolve
      exact .nested
    · simp only [step] at h
      split at h <;> cases h
  | lookupDelegated =>
    rcases steps with _ | steps
    · cases h
      cases hResolve
    · cases x <;> cases h
  | fetchCaptured name =>
    rcases steps with _ | _ | steps
    · cases h
      cases hResolve
      exact plain_sleep 5
    · cases h
      cases hResolve
      dsimp only [Item.toWork]
      split
      · exact plain_contents ‹_›
      · exact plain_done _
    · simp only [step] at h
      split at h <;> cases h
  | fetchRaising name =>
    rcases steps with _ | _ | steps
    · cases h
      cases hResolve
      exact plain_sleep 5
    · simp only [step] at h
      split at h
      · cases h
        cases hResolve
        exact plain_contents ‹_›
      · cases h
    · cases x <;> cases h

theorem separate : behaviour.Separate where
  make _ _ _ _ := rfl
  step body x w w' := by
    obtain ⟨demo, key, steps⟩ := body
    cases demo <;> rcases steps with _ | _ | steps <;> simp only [behaviour, step, and_self]
  plain body x w request h limit work u hResolve := plain_step h hResolve

end Demo

namespace Frames

theorem conclude_congr (s : Frames b.Body) (o : Outcome) (notes notes' : List b.Note)
    (w w' : b.World) : (s.conclude b o notes w).turn = (s.conclude b o notes' w').turn ∧
      (s.conclude b o notes w).frames = (s.conclude b o notes' w').frames := by
  simp only [conclude]
  cases s.popFault? with
  | some fault => exact ⟨rfl, rfl⟩
  | none =>
    dsimp only
    split <;> exact ⟨rfl, rfl⟩

theorem delegate_congr (hb : b.Unshared) (s : Frames b.Body) (recipe : b.Recipe)
    (notes notes' : List b.Note) (w w' : b.World) :
    (s.delegate b recipe notes w).turn = (s.delegate b recipe notes' w').turn ∧
      (s.delegate b recipe notes w).frames = (s.delegate b recipe notes' w').frames := by
  simp only [delegate, hb.make recipe [] w w']
  cases s.push (b.make recipe [] w').1 <;> exact ⟨rfl, rfl⟩

theorem turn_congr (hb : b.Unshared) {s : Frames b.Body} {x : Input} (h : s.Poised x)
    (w w' : b.World) : (s.turn b x w).turn = (s.turn b x w').turn ∧
      (s.turn b x w).frames = (s.turn b x w').frames := by
  obtain ⟨f, rest, hs, hStage, -⟩ := h.top
  obtain ⟨hAnswer, hBody⟩ := hb.step f.body x w w'
  rcases hStep : b.step f.body x w with ⟨answer, body, notes, w₁⟩
  rcases hStep' : b.step f.body x w' with ⟨answer', body', notes', w₁'⟩
  rw [hStep, hStep'] at hAnswer hBody
  dsimp only at hAnswer hBody
  subst hAnswer hBody
  rw [turn_eq hs hStage hStep, turn_eq hs hStage hStep']
  dsimp only
  cases answer.suspension with
  | completed d => exact conclude_congr _ _ notes notes' w₁ w₁'
  | failed e => exact conclude_congr _ _ notes notes' w₁ w₁'
  | yielded request =>
    cases hResolve : request.resolve s.limit with
    | push recipe =>
      simp only [hResolve]
      exact delegate_congr hb _ recipe notes notes' w₁ w₁'
    | await work u => simp only [hResolve, and_self]

end Frames

namespace Schedule

variable {s : Schedule b} {world : b.World}

/-! ## Plain work -/

theorem plain_of_invoke (hb : b.Separate) {c : Nat} {x : Place} {work : Work b.Recipe b.Note}
    (hInvoke : s.job? world c = some (.invoke x work)) : work.Plain := by
  induction c using Nat.strongRecOn generalizing x work with
  | ind c ih =>
    obtain ⟨j, hj, -, ⟨parent, hParent, hBrings⟩ | hAdmits⟩ := stems_of_job hInvoke
    · generalize hChild : Job.invoke x work = child at hBrings
      cases hBrings with
      | work hFind hTurn =>
        cases hChild
        obtain ⟨f, hStep⟩ := Turns.steps ⟨hParent, hFind⟩
        obtain ⟨below, -, hCase⟩ := hStep.case
        rw [turned] at hCase
        generalize Frames.turn b _ _ _ = turned at hTurn hCase
        cases hCase with
        | finished | returned | pushed | refused => cases hTurn
        | awaited hAnswer hResolve =>
          cases hTurn
          exact hb.plain _ _ _ _ hAnswer _ _ _ hResolve
      | item =>
        cases hChild
        obtain ⟨i, hi, all, -, hGather, -, hRest⟩ := handed_of_items hParent
        cases ih i (Nat.lt_trans hi hj) hGather with
        | gather hAll =>
          apply hAll
          apply List.drop_subset
          rw [← hRest]
          exact List.mem_cons_self
      | noted =>
        cases hChild
        cases ih j hj hParent with
        | noted hPlain => exact hPlain
      | @fate _ w => cases hFate : w.fate <;> rw [hFate] at hChild <;> cases hChild
      | _ => cases hChild
    · cases hAdmits

theorem not_poke (hb : b.Separate) {j : Nat} {k : Poke} : s.job? world j ≠ some (.poke k) := by
  intro hPoke
  obtain ⟨i, -, -, ⟨parent, hParent, hBrings⟩ | hAdmits⟩ := stems_of_job hPoke
  · generalize hChild : Job.poke k = child at hBrings
    cases hBrings with
    | poke hMem =>
      cases hChild
      cases plain_of_invoke hb hParent with
      | primitive hBefore hAfter => simp [hBefore, hAfter] at hMem
    | @fate _ w => cases hFate : w.fate <;> rw [hFate] at hChild <;> cases hChild
    | _ => cases hChild
  · cases hAdmits

end Schedule

/-! ## Plans -/

/-- What is fixed for a program whatever the schedule: the runs that are to be begun, and the result
of the operation that is given a continuation to keep. -/
structure Plan (b : Behaviour) where
  runs : Nat → Option (b.Recipe × List Datum × Nat)
  result : Place → Outcome

namespace Schedule

/-- A schedule begins no other runs than those of the plan, completes operations with no other
results, and drops no continuation. -/
structure Keeps (s : Schedule b) (plan : Plan b) : Prop where
  begins : ∀ k n recipe args limit, s k = .begin n recipe args limit →
    plan.runs n = some (recipe, args, limit)
  calls : ∀ k x o, s k = .call x o → o = plan.result x
  drops : ∀ k x, s k ≠ .drop x

/-- After `k` moves all runs of the plan were begun, all jobs are done, and every operation that was
invoked has completed. -/
structure Exhausts (s : Schedule b) (world : b.World) (plan : Plan b) (k : Nat) : Prop where
  begun : ∀ n, plan.runs n ≠ none → n ∈ (s.after world k).begun
  rest : (s.after world k).AtRest
  held : (s.after world k).machine.held = []

variable {s : Schedule b} {world : b.World} {plan : Plan b}

theorem Exhausts.complete (hb : b.Separate) (hKeeps : s.Keeps plan) {k : Nat}
    (h : s.Exhausts world plan k) : s.Complete world k where
  rest := h.rest
  held := h.held
  careful x := by
    rintro ⟨j, -, ⟨hMove, -⟩ | ⟨w, hInvoke, hFate⟩⟩
    · exact hKeeps.drops j x hMove
    · cases plain_of_invoke hb hInvoke with
      | primitive _ _ hNot => exact hNot hFate

theorem Takes.result (hb : b.Separate) (hKeeps : s.Keeps plan) {j : Nat} {x : Place} {o : Outcome}
    (h : s.Takes world j x o) : o = plan.result x := by
  rcases h with ⟨hMove, -⟩ | ⟨k, others, hPoke, -⟩
  · exact hKeeps.calls j x o hMove
  · exact absurd hPoke (not_poke hb)

theorem begin_of_begun {k n : Nat} (hBegun : n ∈ (s.after world k).begun) :
    ∃ j < k, ∃ recipe args limit, s j = .begin n recipe args limit ∧
      .start [n] recipe args limit ∈ (s.after world (j + 1)).machine.agenda := by
  induction k with
  | zero => cases hBegun
  | succ k ih =>
    have hOld : n ∈ (s.after world k).begun → ∃ j < k + 1, ∃ recipe args limit,
        s j = .begin n recipe args limit ∧
          .start [n] recipe args limit ∈ (s.after world (j + 1)).machine.agenda := by
      intro hMem
      obtain ⟨j, hj, hBegin⟩ := ih hMem
      exact ⟨j, Nat.lt_succ_of_lt hj, hBegin⟩
    have hAfter : s.after world (k + 1) = (s.after world k).move (s k) := rfl
    rw [hAfter] at hBegun
    cases hMove : s k with
    | work =>
      rw [hMove, History.move] at hBegun
      split at hBegun <;> exact hOld hBegun
    | call x o | drop x =>
      rw [hMove] at hBegun
      exact hOld hBegun
    | begin m recipe args limit =>
      rw [hMove, History.move] at hBegun
      split at hBegun
      · exact hOld hBegun
      · rename_i hNew
        rcases List.mem_cons.mp hBegun with rfl | hMem
        · refine ⟨k, Nat.lt_succ_self k, recipe, args, limit, hMove, ?_⟩
          rw [hAfter, hMove, History.move, if_neg hNew]
          exact List.mem_cons_self
        · exact hOld hMem

theorem Exhausts.start {k n : Nat} (h : s.Exhausts world plan k) (hKeeps : s.Keeps plan)
    {recipe : b.Recipe} {args : List Datum} {limit : Nat}
    (hPlan : plan.runs n = some (recipe, args, limit)) :
    ∃ i < k, s.job? world i = some (.start [n] recipe args limit) := by
  obtain ⟨j, hj, recipe', args', limit', hMove, hMem⟩ :=
    begin_of_begun (h.begun n (by simp [hPlan]))
  have hSame := hKeeps.begins j n recipe' args' limit' hMove
  rw [hPlan] at hSame
  cases hSame
  obtain ⟨i, -, hik, hStart⟩ := done_by_rest h.rest hMem hj
  exact ⟨i, hik, hStart⟩

/-! ## The steps of a run -/

variable (s world)

structure Stepping (b : Behaviour) where
  serial : Nat
  input : Input
  answer : Answer b.Recipe b.Note

def step? (p : Place) (j : Nat) : Option (Stepping b) :=
  match s.job? world j, (s.after world j).machine.run? p with
  | some (.drive q x), some r =>
    if q = p then r.frames.top?.map fun f => ⟨f.serial, x, (s.stepped world j f x).1⟩ else none
  | _, _ => none

def steps (p : Place) : Nat → List (Stepping b)
  | 0 => []
  | k + 1 => steps p k ++ (s.step? world p k).toList

variable {s world}

theorem steps_mono {j k : Nat} (hjk : j ≤ k) (p : Place) :
    s.steps world p j <+: s.steps world p k := by
  induction hjk with
  | refl => exact List.prefix_rfl
  | step _ ih => exact ih.trans (List.prefix_append _ _)

theorem step?_of_steps {j : Nat} {p : Place} {x : Input} {r : Run b} {f : Frame b.Body}
    (h : s.Steps world j p x r f) :
    s.step? world p j = some ⟨f.serial, x, (s.stepped world j f x).1⟩ := by
  simp [step?, h.turns.job, Machine.run?, h.turns.find, h.top]

theorem step?_of_none {j : Nat} {p : Place} (h : ∀ y, s.job? world j ≠ some (.drive p y)) :
    s.step? world p j = none := by
  rw [step?]
  split
  · rename_i hJob _
    split
    · subst p
      exact absurd hJob (h _)
    · rfl
  · rfl

theorem steps_of_none {k : Nat} {p : Place}
    (h : ∀ m < k, ∀ y, s.job? world m ≠ some (.drive p y)) : s.steps world p k = [] := by
  induction k with
  | zero => rfl
  | succ k ih =>
    rw [steps, ih fun m hm => h m (Nat.lt_succ_of_lt hm), step?_of_none (h k (Nat.lt_succ_self k))]
    rfl

theorem LastTurn.steps {l k : Nat} {p : Place} {x : Input} {r : Run b} {f : Frame b.Body}
    (h : s.LastTurn world l k p x r) (hStep : s.Steps world l p x r f) : s.steps world p k =
      s.steps world p l ++ [⟨f.serial, x, (s.stepped world l f x).1⟩] := by
  have hlk := h.before
  have hLast := h.last
  clear h
  induction hlk with
  | refl =>
    rw [Schedule.steps, step?_of_steps hStep]
    rfl
  | @step k hlk ih =>
    rw [Schedule.steps, ih fun m hlm hmk => hLast m hlm (Nat.lt_succ_of_lt hmk),
      step?_of_none (hLast k hlk (Nat.lt_succ_self k))]
    exact List.append_nil _

end Schedule

end Interlace
