import Interlace.Proofs.Programs

/-!
# Two schedules of one program

Whatever a schedule does for a program, another one does too that goes to the end. By induction on
the moves of the first one: what a job brings is brought in the second one by the same job.
-/

namespace Interlace

variable {b : Behaviour}

/-- Among some reports at most one item fails. -/
def Gather.OneFails (reports : List (Nat × Outcome)) : Prop :=
  ∀ n n' e e', (n, .error e) ∈ reports → (n', .error e') ∈ reports → n = n'

theorem Gather.calls_same {width : Nat} (hWidth : 0 < width)
    {reports reports' : List (Nat × Outcome)}
    (h : Admissible width reports) (h' : Admissible width reports') (hSubset : reports ⊆ reports')
    (hOne : OneFails reports') {o o' : Outcome} (ho : o ∈ (new width).calls reports)
    (ho' : o' ∈ (new width).calls reports') : o = o' := by
  have hCourse := course hWidth h
  have hCourse' := course hWidth h'
  cases o with
  | error e =>
    obtain ⟨before, n, cause, after, hSplit, -, rfl⟩ := (hCourse.fails e).mp ho
    have hFailed : (n, .error cause) ∈ reports' := hSubset (by simp [hSplit])
    cases o' with
    | error e' =>
      obtain ⟨before', n', cause', after', hSplit', -, rfl⟩ := (hCourse'.fails e').mp ho'
      have hFailed' : (n', .error cause') ∈ reports' := by simp [hSplit']
      obtain rfl := hOne n n' cause cause' hFailed hFailed'
      cases h'.unique hFailed hFailed'
      rfl
    | ok d' =>
      obtain ⟨values, -, hAll⟩ := (hCourse'.succeeds d').mp ho'
      obtain ⟨v, -, hMem⟩ := hAll.reported n (h'.inside _ hFailed)
      cases h'.unique hMem hFailed
  | ok d =>
    obtain ⟨values, rfl, hAll⟩ := (hCourse.succeeds d).mp ho
    have hAll' : AllReported width reports' values :=
      ⟨hAll.length, fun i hi => (hAll.reported i hi).imp fun _ hv => ⟨hv.1, hSubset hv.2⟩⟩
    cases o' with
    | error e' =>
      obtain ⟨before', n', cause', after', hSplit', -, -⟩ := (hCourse'.fails e').mp ho'
      have hFailed' : (n', .error cause') ∈ reports' := by simp [hSplit']
      obtain ⟨v, -, hMem⟩ := hAll'.reported n' (h'.inside _ hFailed')
      cases h'.unique hMem hFailed'
    | ok d' =>
      obtain ⟨values', rfl, hAll''⟩ := (hCourse'.succeeds d').mp ho'
      rw [hAll'.unique h' hAll'']

namespace Schedule

/-- Move `j` of `s` and move `j'` of `s'` make the same step of the run at `p`, after the same
steps. -/
structure Same (s s' : Schedule b) (world : b.World) (j j' : Nat) (p : Place) (x : Input)
    (r r' : Run b) : Prop where
  turns : s'.Turns world j' p x r'
  frames : r'.frames = r.frames
  wait : r'.wait = r.wait
  steps : s'.steps world p j' = s.steps world p j

/-- What move `j` of `s` does is among the first `k` moves of `s'`. -/
structure Echoes (s s' : Schedule b) (world : b.World) (k j : Nat) : Prop where
  starts : ∀ p recipe args limit, s.job? world j = some (.start p recipe args limit) →
    ∃ j' < k, s'.job? world j' = some (.start p recipe args limit)
  invokes : ∀ x work, s.job? world j = some (.invoke x work) →
    ∃ j' < k, s'.job? world j' = some (.invoke x work)
  turns : ∀ p x r, s.Turns world j p x r → ∃ j' < k, ∃ r', s.Same s' world j j' p x r r'
  calls : ∀ x o, 2 ≤ x.length → s.job? world j = some (.deliver x o) →
    ∃ j' < k, s'.job? world j' = some (.deliver x o)

/-- In every join at most one item fails before move `k`. -/
def OneFails (s : Schedule b) (world : b.World) (k : Nat) : Prop :=
  ∀ q width, s.Joined world k q width → Gather.OneFails ((s.after world k).reports q)

section

variable {s s' : Schedule b} {world : b.World} {plan : Plan b} {k : Nat}

theorem Same.turned (hb : b.Separate) {j j' : Nat} {p : Place} {x : Input} {r r' : Run b}
    (hTurns : s.Turns world j p x r) (h : s.Same s' world j j' p x r r') :
    (s'.turned world j' x r').turn = (s.turned world j x r).turn ∧
      (s'.turned world j' x r').frames = (s.turned world j x r).frames := by
  rw [Schedule.turned, Schedule.turned, h.frames]
  exact Frames.turn_congr hb.unshared hTurns.driven.2 _ _

theorem Same.stepped (hb : b.Separate) {j j' : Nat} {p : Place} {x : Input} {r r' : Run b}
    {f : Frame b.Body} (hStep : s.Steps world j p x r f) (h : s.Same s' world j j' p x r r') :
    s'.Steps world j' p x r' f ∧
      (s'.stepped world j' f x).1 = (s.stepped world j f x).1 := by
  refine ⟨⟨h.turns, ?_⟩, (hb.step f.body x _ _).1⟩
  rw [h.frames]
  exact hStep.top

variable (hb : b.Separate) (hKeeps : s.Keeps plan) (hKeeps' : s'.Keeps plan)
  (hEnd : s'.Exhausts world plan k) {j : Nat}

section

variable (ih : ∀ i < j, s.Echoes s' world k i)

include hKeeps hKeeps' hEnd ih in
theorem start_echo {p : Place} {recipe : b.Recipe} {args : List Datum} {limit : Nat}
    (hStart : s.job? world j = some (.start p recipe args limit)) :
    ∃ j' < k, s'.job? world j' = some (.start p recipe args limit) := by
  obtain ⟨i, hij, -, ⟨parent, hParent, hBrings⟩ | hAdmits⟩ := stems_of_job hStart
  · generalize hChild : Job.start p recipe args limit = child at hBrings
    cases hBrings with
    | nested =>
      cases hChild
      obtain ⟨i', hi', hInvoke⟩ := (ih i hij).invokes _ _ hParent
      obtain ⟨j', -, hj', hStart'⟩ := start_of_nested hEnd.rest hInvoke hi'
      exact ⟨j', hj', hStart'⟩
    | @fate _ w => cases hFate : w.fate <;> rw [hFate] at hChild <;> cases hChild
    | _ => cases hChild
  · cases hAdmits with
    | begin hMove => exact hEnd.start hKeeps' (hKeeps.begins _ _ _ _ _ hMove)

include hb hEnd ih in
theorem invoke_echo {x : Place} {work : Work b.Recipe b.Note}
    (hInvoke : s.job? world j = some (.invoke x work)) :
    ∃ j' < k, s'.job? world j' = some (.invoke x work) := by
  obtain ⟨i, hij, -, ⟨parent, hParent, hBrings⟩ | hAdmits⟩ := stems_of_job hInvoke
  · generalize hChild : Job.invoke x work = child at hBrings
    cases hBrings with
    | work hFind hTurn =>
      cases hChild
      have hTurns : s.Turns world i _ _ _ := ⟨hParent, hFind⟩
      obtain ⟨i', hi', r', hSame⟩ := (ih i hij).turns _ _ _ hTurns
      have hTurn' := (hSame.turned hb hTurns).1.trans hTurn
      obtain ⟨j', -, hj', hInvoke'⟩ := hSame.turns.invoke_by_rest hEnd.rest hTurn' hi'
      rw [hSame.wait] at hInvoke'
      exact ⟨j', hj', hInvoke'⟩
    | @item _ n _ _ =>
      cases hChild
      obtain ⟨l, hli, all, -, hGather, -, hRest⟩ := handed_of_items hParent
      obtain ⟨l', hl', hGather'⟩ := (ih l (Nat.lt_trans hli hij)).invokes _ _ hGather
      have hItem : all[n]? = some work := by
        have hFirst := congrArg (fun works => works[0]?) hRest
        simpa using hFirst.symm
      obtain ⟨j', -, hj', hInvoke'⟩ := invoke_of_gather hEnd.rest hGather' hl' hItem
      exact ⟨j', hj', hInvoke'⟩
    | noted =>
      cases hChild
      obtain ⟨i', hi', hParent'⟩ := (ih i hij).invokes _ _ hParent
      obtain ⟨j', -, hj', hInvoke'⟩ := invoke_of_noted hEnd.rest hParent' hi'
      exact ⟨j', hj', hInvoke'⟩
    | @fate _ w => cases hFate : w.fate <;> rw [hFate] at hChild <;> cases hChild
    | _ => cases hChild
  · cases hAdmits

include hb hEnd ih in
theorem turns_echo {p : Place} {x : Input} {r : Run b} (hTurns : s.Turns world j p x r) :
    ∃ j' < k, ∃ r', s.Same s' world j j' p x r r' := by
  obtain ⟨i, hij, hLimit, recipe, args, hStart⟩ := hTurns.start
  -- The step before this one was echoed, and so is what it led to.
  have hNext : ∀ {l l' j' x₀ r₀ r₀' r'}, s.LastTurn world l j p x₀ r₀ →
      s.Same s' world l l' p x₀ r₀ r₀' → s'.LastTurn world l' j' p x₀ r₀' →
      s'.Turns world j' p x r' → s.Same s' world j j' p x r r' := by
    intro l l' j' x₀ r₀ r₀' r' hLast hSame hLast' hTurns'
    obtain ⟨hTurn, hFrames⟩ := hSame.turned hb hLast.turns
    obtain ⟨f, hStep⟩ := hLast.turns.steps
    obtain ⟨hStep', hAnswer⟩ := hSame.stepped hb hStep
    refine ⟨hTurns', ?_, ?_, ?_⟩
    · rw [hLast'.frames hTurns', hLast.frames hTurns, hFrames]
    · rw [hLast'.wait hTurns', hLast.wait hTurns, hTurn, hSame.wait]
    · rw [hLast'.steps hStep', hLast.steps hStep, hSame.steps, hAnswer]
  have hFollows := hTurns.follows hLimit hStart
  generalize hStack : r.frames.limit = limit at hFollows hLimit hStart
  cases hFollows with
  | first hNone =>
    obtain ⟨i', hi', hStart'⟩ := (ih i hij).starts _ _ _ _ hStart
    obtain ⟨j', hj', hTurns', hNone'⟩ := first_by_rest hEnd.rest hLimit hStart' hi'
    refine ⟨j', hj', _, hTurns', ?_, rfl, ?_⟩
    · simp only [fresh, hb.make recipe args _ (s.after world i).machine.world]
    · rw [steps_of_none hNone, steps_of_none hNone']
  | @next l x₀ _ r₀ hLast hTurn =>
    obtain ⟨l', hl', r₀', hSame⟩ := (ih l hLast.before).turns _ _ _ hLast.turns
    have hTurn' := (hSame.turned hb hLast.turns).1.trans hTurn
    obtain ⟨j', hj', hLast', r', hTurns'⟩ := hSame.turns.next_by_rest hEnd.rest hTurn' hl'
    exact ⟨j', hj', r', hNext hLast hSame hLast' hTurns'⟩
  | @told l d x₀ r₀ _ work u o hLast hTurn _ _ hCalled =>
    obtain ⟨l', hl', r₀', hSame⟩ := (ih l hLast.before).turns _ _ _ hLast.turns
    have hTurn' := (hSame.turned hb hLast.turns).1.trans hTurn
    obtain ⟨c', hlc', -, hInvoke'⟩ := hSame.turns.invoke_by_rest hEnd.rest hTurn' hl'
    obtain ⟨hld, hdj, hDeliver⟩ := hCalled
    have hLength : 2 ≤ (r₀.wait :: p).length := by
      rw [← hSame.wait]
      exact nested_of_invoke hInvoke'
    obtain ⟨d', hd', hDeliver'⟩ := (ih d hdj).calls _ _ hLength hDeliver
    rw [← hSame.wait] at hDeliver'
    have hld' := Nat.lt_trans hlc' (lt_of_invoke_deliver hInvoke' hDeliver')
    obtain ⟨j', hj', hLast', r', f, request, hStep', -⟩ :=
      hSame.turns.told_by_rest hEnd.rest hTurn' hDeliver' hld' hd'
    exact ⟨j', hj', r', hNext hLast hSame hLast' hStep'.turns⟩

include ih in
theorem reports_echo (q : Place) (hq : 1 ≤ q.length) :
    (s.after world j).reports q ⊆ (s'.after world k).reports q := by
  rintro ⟨n, o⟩ hMem
  rw [History.mem_reports] at hMem ⊢
  obtain ⟨i, hij, hDeliver⟩ := (s.called_log world).mp hMem
  obtain ⟨i', hi', hDeliver'⟩ := (ih i hij).calls _ _ (by simpa using hq) hDeliver
  exact (s'.called_log world).mpr ⟨i', hi', hDeliver'⟩

include ih in
theorem join_echo (hOne : s'.OneFails world k) {i d : Nat} {q : Place} {w : Work b.Recipe b.Note}
    {ws : List (Work b.Recipe b.Note)} {o o' : Outcome} (hij : i < j)
    (hInvoke : s.job? world i = some (.invoke q (.gather (w :: ws))))
    (hDeliver : s.job? world j = some (.deliver q o))
    (hDeliver' : s'.job? world d = some (.deliver q o')) (hdk : d < k) : o = o' := by
  obtain ⟨i', hi', hInvoke'⟩ := (ih i hij).invokes _ _ hInvoke
  have hLength := nested_of_invoke hInvoke
  have hCalls := calls_of_told hInvoke (Or.inl (mem_agenda_of_job hDeliver))
  have hCalls' := calls_of_told hInvoke' (Or.inl (mem_agenda_of_job hDeliver'))
  exact Gather.calls_same (Nat.succ_pos _) (admissible hInvoke j) (admissible hInvoke' k)
    (reports_echo ih q (by omega)) (hOne q _ ⟨i', hi', w, ws, hInvoke', rfl⟩) hCalls
    (Gather.mem_calls_mono (reports_mono (Nat.le_of_lt hdk) q) hCalls')

include hb hKeeps hKeeps' ih in
theorem result_echo (hOne : s'.OneFails world k) {d : Nat} {x : Place} {work : Work b.Recipe b.Note}
    {o o' : Outcome} (hDeliver : s.job? world j = some (.deliver x o))
    (hResult : s.Result world j x work o) (hDeliver' : s'.job? world d = some (.deliver x o'))
    (hResult' : s'.Result world d x work o') (hdk : d < k) : o = o' := by
  cases hResult with
  | completed hFate =>
    cases hResult' with
    | completed hFate' =>
      rw [hFate] at hFate'
      exact Fate.complete.inj hFate'
    | taken _ _ _ hFate' =>
      rw [hFate] at hFate'
      cases hFate'
  | taken _ _ _ hFate hTakes =>
    cases hResult' with
    | completed hFate' =>
      rw [hFate'] at hFate
      cases hFate
    | taken _ _ _ _ hTakes' => rw [hTakes.result hb hKeeps, hTakes'.result hb hKeeps']
  | nothing =>
    cases hResult' with
    | nothing => rfl
  | joined _ _ hFind =>
    obtain ⟨i, hi, w, ws, hInvoke⟩ := origin hFind
    exact join_echo ih hOne (by omega) hInvoke hDeliver hDeliver' hdk
  | refused =>
    cases hResult' with
    | refused => rfl
    | ended hLimit => exact absurd hLimit (Nat.lt_irrefl 0)
  | @ended limit recipe _ l hLimit hlj hEnds =>
    cases hResult' with
    | refused => exact absurd hLimit (Nat.lt_irrefl 0)
    | ended _ _ hEnds' =>
      obtain ⟨y, r, hJob, hFind, hTurn⟩ := hEnds
      have hTurns : s.Turns world l x y r := ⟨hJob, hFind⟩
      obtain ⟨l', -, r', hSame⟩ := (ih l hlj).turns _ _ _ hTurns
      have hTurn' := (hSame.turned hb hTurns).1.trans hTurn
      have hEnds : s'.Ends world l' x o := ⟨y, r', hSame.turns.job, hSame.turns.find, hTurn'⟩
      exact (ends_unique hEnds hEnds').2

include hb hKeeps hKeeps' hEnd ih in
theorem call_echo (hOne : s'.OneFails world k) {x : Place} {o : Outcome} (hNested : 2 ≤ x.length)
    (hDeliver : s.job? world j = some (.deliver x o)) :
    ∃ j' < k, s'.job? world j' = some (.deliver x o) := by
  obtain ⟨c, hcj, work, hInvoke, hResult⟩ :=
    handed_of_deliver (mem_agenda_of_job hDeliver) hNested
  obtain ⟨c', hc', hInvoke'⟩ := (ih c hcj).invokes _ _ hInvoke
  obtain ⟨d, hdk, o', hDeliver'⟩ := (hEnd.complete hb hKeeps').result hInvoke' hc'
  obtain ⟨e, -, work', hOther, hResult'⟩ :=
    handed_of_deliver (mem_agenda_of_job hDeliver') hNested
  have hSame : work' = work := by
    have hCore := core_unique hOther hInvoke'
    have hPlain : work.core = work := by cases hResult <;> rfl
    have hPlain' : work'.core = work' := by cases hResult' <;> rfl
    rwa [hPlain, hPlain'] at hCore
  subst hSame
  obtain rfl := result_echo hb hKeeps hKeeps' ih hOne hDeliver hResult hDeliver' hResult' hdk
  exact ⟨d, hdk, hDeliver'⟩

end

include hb hKeeps hKeeps' hEnd in
theorem echoes (hOne : s'.OneFails world k) (j : Nat) : s.Echoes s' world k j := by
  induction j using Nat.strongRecOn with
  | ind j ih =>
    refine ⟨fun p recipe args limit hStart => ?_, fun x work hInvoke => ?_,
      fun p x r hTurns => ?_, fun x o hNested hDeliver => ?_⟩
    · exact start_echo hKeeps hKeeps' hEnd ih hStart
    · exact invoke_echo hb hEnd ih hInvoke
    · exact turns_echo hb hEnd ih hTurns
    · exact call_echo hb hKeeps hKeeps' hEnd ih hOne hNested hDeliver

theorem steps_echo (hb : b.Separate) (h : ∀ i < j, s.Echoes s' world k i) (p : Place) :
    s.steps world p j <+: s'.steps world p k := by
  by_cases hTurns : ∃ l < j, ∃ x, s.job? world l = some (.drive p x)
  case neg =>
    rw [steps_of_none fun m hm y hDrive => hTurns ⟨m, hm, y, hDrive⟩]
    exact List.nil_prefix
  obtain ⟨l, hlj, x, hDrive⟩ := hTurns
  obtain ⟨r, hTurns⟩ := exists_turns hDrive
  obtain ⟨l, x, r, hLast⟩ := hTurns.exists_last hlj
  obtain ⟨f, hStep⟩ := hLast.turns.steps
  obtain ⟨l', hl', r', hSame⟩ := (h l hLast.before).turns _ _ _ hLast.turns
  obtain ⟨hStep', hAnswer⟩ := hSame.stepped hb hStep
  have hNow : s'.steps world p (l' + 1) = s.steps world p j := by
    rw [hLast.steps hStep, Schedule.steps, step?_of_steps hStep', hAnswer, hSame.steps]
    rfl
  rw [← hNow]
  exact steps_mono hl' p

end

/-! ## Outcomes -/

section

variable (s : Schedule b) (world : b.World)

/-- The top-level run number `n` has ended with an outcome, which its caller was given: as an error
of the call that began it if it never parked and nothing caught the error, and otherwise by its
continuation, once. -/
def Concludes (k n : Nat) (o : Outcome) : Prop :=
  ∃ l < k, s.Ends world l [n] o ∧
    ((s.Withheld world l [n] o ∧ (∃ e, o = .error e ∧ .escaped n e ∈ (s.after world k).log) ∧
        (s.after world k).calls [n] = []) ∨
      ¬ s.Withheld world l [n] o ∧ (s.after world k).calls [n] = [o] ∧
        ∀ e, .escaped n e ∉ (s.after world k).log)

variable {s world}

theorem concludes_of_ends {k l n : Nat} {o : Outcome} (hRest : (s.after world k).AtRest)
    (hEnds : s.Ends world l [n] o) (hlk : l < k) : s.Concludes world k n o := by
  have hStart : ∃ i, s.Starts world i [n] := by
    obtain ⟨x, r, -, hFind, -⟩ := hEnds
    obtain ⟨i, -, hLimit, recipe, args, hStart⟩ := origin hFind
    exact ⟨i, recipe, args, _, hLimit, hStart⟩
  obtain ⟨i, hStart⟩ := hStart
  refine ⟨l, hlk, hEnds, ?_⟩
  rcases standing_of_ends hStart hEnds hlk with
    ⟨hOpen, c, -, hPending | ⟨d, -, hdk, -, hDeliver⟩⟩ |
      ⟨m, e, hp, rfl, hUncaught, hParks, -, hEscaped⟩
  · exact absurd hPending.mem (not_mem_of_rest hRest _)
  · have hCalled := (s.called_log world).mpr ⟨d, hdk, hDeliver⟩
    refine Or.inr ⟨hOpen, calls_eq_singleton hCalled, fun e hEscaped => ?_⟩
    cases closed_unique hCalled hEscaped rfl rfl
  · cases hp
    refine Or.inl ⟨⟨n, e, rfl, rfl, hUncaught, hParks⟩, ⟨e, rfl, hEscaped⟩, ?_⟩
    refine List.eq_nil_iff_forall_not_mem.mpr fun o' hCalls => ?_
    cases closed_unique (History.mem_calls.mp hCalls) hEscaped rfl rfl

theorem Complete.ends {k i : Nat} {p : Place} (h : s.Complete world k) (hStart : s.Starts world i p)
    (hik : i < k) : ∃ l < k, ∃ o, s.Ends world l p o := by
  obtain ⟨recipe, args, limit, hLimit, hJob⟩ := hStart
  cases progress hLimit hJob hik with
  | fresh _ _ hDrive | next _ _ _ hDrive | told _ _ _ _ _ hDrive =>
    exact absurd hDrive (not_mem_of_rest h.rest _)
  | invoking _ _ _ _ _ hCheck => exact absurd hCheck (not_mem_of_rest h.rest _)
  | parked _ _ hFind =>
    have hOpened := (s.sound world k).opened_of_run hFind
    refine absurd ?_ (h.not_live p)
    exact List.mem_append_right _ (List.mem_append_right _ hOpened)
  | @ended l x r o hLast hTurn =>
    exact ⟨l, hLast.before, o, x, r, hLast.turns.job, hLast.turns.find, hTurn⟩
  | gone _ _ _ _ hDropped =>
    obtain ⟨leaf, hDiscarded⟩ := exists_discarded h.rest hDropped
    exact absurd hDiscarded (h.careful leaf)

end

/-! ## Timing does not change meaning -/

variable (s s' : Schedule b) (world : b.World)

/-- Two schedules that have gone to the end of a program agree on what it means. Every frame of
every run gets the same inputs and gives the same answers, and the frames of a run take turns in the
same way. Every top-level run ends, and with the same outcome. -/
structure Agree (plan : Plan b) (k k' : Nat) : Prop where
  steps : ∀ p, s.steps world p k = s'.steps world p k'
  concludes : ∀ n recipe args limit, plan.runs n = some (recipe, args, limit) → 0 < limit →
    ∃ o, s.Concludes world k n o ∧ s'.Concludes world k' n o

variable {s s' world}

theorem OneFails.of_echoes {k k' : Nat} (h : ∀ i < k, s.Echoes s' world k' i)
    (hOne : s'.OneFails world k') : s.OneFails world k := by
  rintro q width ⟨i, hik, w, ws, hInvoke, rfl⟩
  obtain ⟨i', hi', hInvoke'⟩ := (h i hik).invokes _ _ hInvoke
  have hLength := nested_of_invoke hInvoke
  have hSubset := reports_echo h q (by omega)
  intro n n' e e' hFailed hFailed'
  exact hOne q _ ⟨i', hi', w, ws, hInvoke', rfl⟩ n n' e e' (hSubset hFailed) (hSubset hFailed')

/-- When operations complete does not matter, as long as at most one item of each join fails. -/
theorem agree (hb : b.Separate) {plan : Plan b} (hKeeps : s.Keeps plan) (hKeeps' : s'.Keeps plan)
    {k k' : Nat} (hEnd : s.Exhausts world plan k) (hEnd' : s'.Exhausts world plan k')
    (hOne : s'.OneFails world k') : s.Agree s' world plan k k' := by
  have hEchoes := echoes hb hKeeps hKeeps' hEnd' hOne
  have hOne' : s.OneFails world k := hOne.of_echoes fun i _ => hEchoes i
  have hEchoes' := echoes hb hKeeps' hKeeps hEnd hOne'
  constructor
  · intro p
    have hPrefix := steps_echo hb (fun i (_ : i < k) => hEchoes i) p
    have hPrefix' := steps_echo hb (fun i (_ : i < k') => hEchoes' i) p
    exact hPrefix.eq_of_length_le hPrefix'.length_le
  · intro n recipe args limit hPlan hLimit
    obtain ⟨i, hik, hStart⟩ := hEnd.start hKeeps hPlan
    obtain ⟨l, hlk, o, hEnds⟩ :=
      (hEnd.complete hb hKeeps).ends ⟨recipe, args, limit, hLimit, hStart⟩ hik
    refine ⟨o, concludes_of_ends hEnd.rest hEnds hlk, ?_⟩
    obtain ⟨x, r, hJob, hFind, hTurn⟩ := hEnds
    have hTurns : s.Turns world l [n] x r := ⟨hJob, hFind⟩
    obtain ⟨l', hl', r', hSame⟩ := (hEchoes l).turns _ _ _ hTurns
    have hTurn' := (hSame.turned hb hTurns).1.trans hTurn
    exact concludes_of_ends hEnd'.rest ⟨x, r', hSame.turns.job, hSame.turns.find, hTurn'⟩ hl'

/-- Two sleeps of a fan-out, of which the first ends at move `i` and the second at move `j`. -/
def sleeps (i j : Nat) : Schedule Demo.behaviour := fun k =>
  if k = 0 then .begin 0 (.fanOutSleeps [3, 5] []) [] 1
  else if k = i then .call [0, 0, 0] (.ok .null)
  else if k = j then .call [1, 0, 0] (.ok .null)
  else .work

def sleepsPlan : Plan Demo.behaviour where
  runs n := if n = 0 then some (.fanOutSleeps [3, 5] [], [], 1) else none
  result _ := .ok .null

theorem sleeps_keeps (i j : Nat) : (sleeps i j).Keeps sleepsPlan where
  begins k n recipe args limit h := by
    simp only [sleeps] at h
    split_ifs at h
    cases h
    rfl
  calls k x o h := by
    simp only [sleeps] at h
    split_ifs at h <;> cases h <;> rfl
  drops k x h := by
    simp only [sleeps] at h
    split_ifs at h

theorem sleepsPlan_begun {h : History Demo.behaviour} (hBegun : h.begun = [0]) (n : Nat)
    (hPlan : sleepsPlan.runs n ≠ none) : n ∈ h.begun := by
  rw [hBegun, List.mem_singleton]
  by_contra hn
  exact hPlan (if_neg hn)

theorem agree_sleeps : Demo.behaviour.Separate ∧ (sleeps 7 14).Keeps sleepsPlan ∧
    (sleeps 14 12).Keeps sleepsPlan ∧ (sleeps 7 14).Exhausts .empty sleepsPlan 19 ∧
    (sleeps 14 12).Exhausts .empty sleepsPlan 19 ∧ (sleeps 14 12).OneFails .empty 19 ∧
    (sleeps 7 14).Agree (sleeps 14 12) .empty sleepsPlan 19 19 := by
  have hEnd : (sleeps 7 14).Exhausts .empty sleepsPlan 19 := ⟨sleepsPlan_begun rfl, rfl, rfl⟩
  have hEnd' : (sleeps 14 12).Exhausts .empty sleepsPlan 19 := ⟨sleepsPlan_begun rfl, rfl, rfl⟩
  have hOne : (sleeps 14 12).OneFails .empty 19 := by
    rintro q width - n n' e e' hFailed -
    have hLog : (((sleeps 14 12).after .empty 19).log.filterMap Event.returned?) =
      [([1, 0, 0], some (.ok .null)), ([0, 0, 0], some (.ok .null)),
        ([0, 0], some (.ok (.list [.null, .null]))),
        ([0], some (.ok (.list [.null, .null])))] := rfl
    rw [History.reports, hLog] at hFailed
    simp [reportTo] at hFailed
  exact ⟨Demo.separate, sleeps_keeps 7 14, sleeps_keeps 14 12, hEnd, hEnd', hOne,
    agree Demo.separate (sleeps_keeps 7 14) (sleeps_keeps 14 12) hEnd hEnd' hOne⟩

end Schedule

end Interlace
