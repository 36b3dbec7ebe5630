import Interlace.Proofs.Inlining
import Interlace.Proofs.Starting
import Interlace.Script.Coroutine

/-!
# Work and its stand-in are interchangeable

Work may be handed over as it is, or in the form of a coroutine that stands in for it. In either
form the work is invoked once, where the item is, and what it comes to is handed over once. There
are two differences. An error value is a success of the work and a failure of the stand-in, which a
join takes for the failure of an item. And the stand-in hands over what the work brings inside of
its own invocation when that invocation is over, not before.
-/

namespace Interlace

variable {b : Behaviour}

/-- The forms in which work is handed over. -/
inductive Form where
  | bare
  | wrapped

namespace Form

variable (v : Wrapper b)

def item : Form → Item b.Recipe b.Note
  | bare => .work v.work
  | wrapped => .coroutine v.recipe

def request : Form → Request b.Recipe b.Note
  | bare => .single v.work
  | wrapped => .inner v.recipe

/-- The continuation of the work, for an item with the continuation `x`. -/
def place (x : Place) : Form → Place
  | bare => x
  | wrapped => 0 :: x

/-- What is handed over for what the work has come to. -/
def report : Form → Outcome → Outcome
  | bare => id
  | wrapped => Outcome.passed

/-- What is left to do for the item when the invocation of the work is over. -/
def leftover (x : Place) : Form → List (Job b)
  | bare => []
  | wrapped => [.check x]

end Form

namespace Schedule

variable (s : Schedule b) (world : b.World) (v : Wrapper b) (form : Form)

/-- What a schedule keeps to when move `c` invokes the item with the continuation `x`. Only jobs for
the item come before the invocation of the work, and nothing else is invoked with that continuation,
or twice. What the work brings is handed over with only jobs for the item before: on top of what
stands below at that moment, or when the invocation is over in which it has come. Nothing else is
handed over, nothing twice, and what is done for a stand-in comes to nothing else. -/
structure Carries (c : Nat) (x : Place) : Prop where
  invoked : ∀ limit rest,
    (s.after world c).machine.agenda = .invoke x ((form.item v).toWork limit) :: rest →
      s.Leads world (Job.Tends x) c rest fun m =>
        s.job? world m = some (.invoke (form.place x) v.work) ∧
          (s.after world m).machine.agenda =
            .invoke (form.place x) v.work :: (form.leftover x ++ rest)
  once : ∀ m m' work work', s.Invokes world m (form.place x) work →
    s.Invokes world m' (form.place x) work' → m = m' ∧ work = v.work.core
  reports : ∀ limit rest d res R,
    (s.after world c).machine.agenda = .invoke x ((form.item v).toWork limit) :: rest →
      s.job? world d = some (.closing (form.place x) res) →
      (s.after world d).machine.agenda = .closing (form.place x) res :: R →
      ∃ R', (R' = R ∨ form = .wrapped ∧ R' = rest ∧
          ∃ front, (s.after world d).machine.agenda = front ++ .check x :: rest) ∧
        s.Leads world (Job.Tends x) d R' fun m =>
          s.job? world m = some (.closing x (res.map form.report)) ∧
            (s.after world m).machine.agenda = .closing x (res.map form.report) :: R'
  only : ∀ k res', s.job? world k = some (.closing x res') →
    (∃ d ≤ k, ∃ res, s.job? world d = some (.closing (form.place x) res) ∧
      res' = res.map form.report) ∧
    ∀ k' res'', s.job? world k' = some (.closing x res'') → k' = k
  silent : form = .wrapped → ∀ k job, c ≤ k → s.job? world k = some job → job.site = some x →
    s.Silent world k

/-- What a schedule keeps to when move `l` steps the frame `f`, which asks for the work alone or
delegates to the stand-in. Only jobs for the run come before the invocation of the work, which is
invoked once. The run is parked if the work has not come to anything when its invocation is over.
The frame goes on with what the work brings, and with nothing else: at once, or when the invocation
is over in which it has come. What the run does before comes to nothing else. -/
structure Delegating (l : Nat) (p : Place) (x : Input) (r : Run b) (f : Frame b.Body) : Prop where
  invoked : ∀ rest, (s.after world l).machine.agenda = .drive p x :: rest →
    s.Leads world (Job.Tends p) (l + 1) rest fun m =>
      s.job? world m = some (.invoke (r.wait :: p) v.work) ∧
        (s.after world m).machine.agenda = .invoke (r.wait :: p) v.work :: .check p :: rest
  once : ∀ m m' work work', s.Invokes world m (r.wait :: p) work →
    s.Invokes world m' (r.wait :: p) work' → m = m' ∧ work = v.work.core
  parks : ∀ k, l < k → s.Dozes world l k p f.serial → s.job? world k = some (.check p) →
    (s.Parks world k p ↔ ¬ s.Closed world k (r.wait :: p))
  resumed : ∀ rest d res R, (s.after world l).machine.agenda = .drive p x :: rest →
    s.job? world d = some (.closing (r.wait :: p) res) →
    (s.after world d).machine.agenda = .closing (r.wait :: p) res :: R →
    ∃ R', (R' = R ∨ R' = rest ∧
        ∃ front, (s.after world d).machine.agenda = front ++ .check p :: rest) ∧
      s.Leads world (Job.Tends p) d R' fun m =>
        s.Resumes world m p (s.lulled world l f x) R' (res.map form.report)
  only : ∀ j y r' f', l < j → s.Dozes world l j p f.serial → s.Steps world j p y r' f' →
    f'.serial = f.serial → ∃ d o, l < d ∧ d < j ∧
      s.job? world d = some (.deliver (r.wait :: p) o) ∧ y = .ofOutcome (form.report o)
  silent : ∀ k job, l < k → s.Dozes world l (k + 1) p f.serial → s.job? world k = some job →
    job.steers p = true → s.Silent world k

/-- What a schedule keeps to where the work is handed over in this form: as an item of a join, as
the item of a capture or wherever else it is invoked, and on top of a frame with room for one more.
Only an error value is handed over as something else, by the stand-in. When nothing is left to do,
the work was invoked, and what it has brought was handed over. A run that has its outcome captured
is parked if the work has not come to anything yet. A run that has it joined with other items is
parked if no other item has failed, the work has not come to a failure or to what counts as one, and
something is still to come. -/
structure Interchange : Prop where
  rule : ∀ o, form.report o ≠ o ↔ form = .wrapped ∧
    ∃ problem, o = .ok (.error problem) ∧ form.report o = .error (.ofReturned problem)
  carried : ∀ c x limit, 0 < limit →
    s.job? world c = some (.invoke x ((form.item v).toWork limit)) → s.Carries world v form c x
  done : ∀ c x limit k, 0 < limit →
    s.job? world c = some (.invoke x ((form.item v).toWork limit)) → c < k →
      (s.after world k).AtRest →
        (∃ m, c ≤ m ∧ m < k ∧ s.job? world m = some (.invoke (form.place x) v.work)) ∧
        ∀ d < k, ∀ res, s.job? world d = some (.closing (form.place x) res) →
          ∃ m, d ≤ m ∧ m < k ∧ s.job? world m = some (.closing x (res.map form.report))
  operand_parks : ∀ l p x r f k, s.Steps world l p x r f →
    (s.stepped world l f x).1 = .wait (.caught (form.item v)) → s.LastTurn world l k p x r →
      s.job? world k = some (.check p) →
        (s.Parks world k p ↔ ¬ s.Closed world k (form.place (r.wait :: p)))
  fan_parks : ∀ l p x r f items n k, s.Steps world l p x r f →
    (s.stepped world l f x).1 = .wait (.all items) → items[n]? = some (form.item v) →
      s.LastTurn world l k p x r → s.job? world k = some (.check p) →
        (s.Parks world k p ↔
          (∀ m, m ≠ n → ∀ e, ¬ s.Used world k (m :: r.wait :: p) (some (.error e))) ∧
          (∀ o, s.Used world k (form.place (n :: r.wait :: p)) (some o) →
            ∀ e, form.report o ≠ .error e) ∧
          ((∃ m < items.length, m ≠ n ∧ ¬ s.Closed world k (m :: r.wait :: p)) ∨
            ¬ s.Closed world k (form.place (n :: r.wait :: p))))
  delegated : ∀ l p x r f, s.Steps world l p x r f →
    (s.stepped world l f x).1 = .wait (form.request v) → r.frames.depth < r.frames.limit →
      s.Delegating world v form l p x r f
  resumed : ∀ l p x r f k, s.Steps world l p x r f →
    (s.stepped world l f x).1 = .wait (form.request v) → r.frames.depth < r.frames.limit →
      l < k → (s.after world k).AtRest →
        (∃ m, l < m ∧ m < k ∧ s.job? world m = some (.invoke (r.wait :: p) v.work)) ∧
        ∀ d < k, ∀ res, s.job? world d = some (.closing (r.wait :: p) res) →
          ∃ m R, d ≤ m ∧ m < k ∧
            s.Resumes world m p (s.lulled world l f x) R (res.map form.report)

variable {s world v form}

/-! ## Items -/

theorem carries_bare {c limit : Nat} {x : Place}
    (hInvoke : s.job? world c = some (.invoke x ((Form.bare.item v).toWork limit))) :
    s.Carries world v .bare c x where
  invoked limit rest hAgenda :=
    Leads.of_job hAgenda (Or.inl rfl) fun m _ hJob hNow => Or.inl ⟨hJob, hNow⟩
  once m m' work work' hInvokes hInvokes' :=
    ⟨hInvokes.unique hInvokes', hInvokes.core.symm.trans (core_unique hInvokes.job hInvoke)⟩
  reports limit rest d res R _ hClosing hNow := by
    refine ⟨R, Or.inl rfl, ?_⟩
    rw [Form.report, Option.map_id_fun, id]
    exact Leads.of_job hNow (Or.inr ⟨res, rfl⟩) fun m _ hJob hThen => Or.inl ⟨hJob, hThen⟩
  only k res' hClosing := by
    refine ⟨⟨k, Nat.le_refl k, res', hClosing, ?_⟩, fun k' res'' hClosing' => ?_⟩
    · rw [Form.report, Option.map_id_fun, id]
    · exact (closing_unique hClosing' hClosing).1
  silent hForm := by cases hForm

theorem carries_wrapped {c limit : Nat} {x : Place} (hLimit : 0 < limit)
    (hInvoke : s.job? world c = some (.invoke x ((Form.wrapped.item v).toWork limit))) :
    s.Carries world v .wrapped c x where
  invoked limit' rest hAgenda := by
    obtain ⟨rest', hAgenda', -⟩ := s.after_succ_of_job world hInvoke
    rw [hAgenda'] at hAgenda
    cases hAgenda
    exact leads_to_work hLimit hInvoke hAgenda'
  once m m' work work' hInvokes hInvokes' := by
    obtain ⟨rest, hAgenda, -⟩ := s.after_succ_of_job world hInvoke
    have hLedger := History.mem_ledger_of_dormant
      (dormant_of_job hInvokes.job (List.mem_singleton_self _))
    obtain ⟨l, r, -, -, hTurns, hFrames, hWait, -⟩ := asked_of_part hLimit hInvoke hAgenda hLedger
    have hTurned : s.turned world l .start r = _ := v.turn_start (by rw [hFrames]) _
    have hCore := core_of_invoke hTurns (congrArg Turned.turn hTurned) (by
      rw [hWait]
      exact hInvokes.job)
    exact ⟨hInvokes.unique hInvokes', hInvokes.core.symm.trans hCore⟩
  reports limit' rest d res R hAgenda hClosing hNow := by
    obtain ⟨rest', hAgenda', -⟩ := s.after_succ_of_job world hInvoke
    rw [hAgenda'] at hAgenda
    cases hAgenda
    obtain ⟨R', hWhere, hLeads⟩ := leads_to_report hLimit hInvoke hAgenda' hClosing hNow
    exact ⟨R', hWhere.imp_right fun hLater => ⟨rfl, hLater⟩, hLeads⟩
  only k res' hClosing := by
    obtain ⟨d, hdk, res, hReport⟩ := closing_of_report hInvoke hLimit hClosing
    exact ⟨⟨d, Nat.le_of_lt hdk, res, hReport⟩,
      fun k' res'' hClosing' => (closing_unique hClosing' hClosing).1⟩
  silent _ k job hck hJob hSite := silent_of_site hInvoke hLimit hck hJob hSite

theorem carries {c limit : Nat} {x : Place} (hLimit : 0 < limit)
    (hInvoke : s.job? world c = some (.invoke x ((form.item v).toWork limit))) :
    s.Carries world v form c x := by
  cases form with
  | bare => exact carries_bare hInvoke
  | wrapped => exact carries_wrapped hLimit hInvoke

theorem Carries.done {c limit k : Nat} {x : Place} (h : s.Carries world v form c x)
    (hInvoke : s.job? world c = some (.invoke x ((form.item v).toWork limit))) (hck : c < k)
    (hRest : (s.after world k).AtRest) :
    (∃ m, c ≤ m ∧ m < k ∧ s.job? world m = some (.invoke (form.place x) v.work)) ∧
      ∀ d < k, ∀ res, s.job? world d = some (.closing (form.place x) res) →
        ∃ m, d ≤ m ∧ m < k ∧ s.job? world m = some (.closing x (res.map form.report)) := by
  obtain ⟨rest, hAgenda, -⟩ := s.after_succ_of_job world hInvoke
  constructor
  · obtain ⟨m, hcm, hmk, hJob, -⟩ :=
      (h.invoked limit rest hAgenda).by_rest (Nat.le_of_lt hck) hRest
    exact ⟨m, hcm, hmk, hJob⟩
  · intro d hdk res hClosing
    obtain ⟨R, hNow, -⟩ := s.after_succ_of_job world hClosing
    obtain ⟨R', -, hLeads⟩ := h.reports limit rest d res R hAgenda hClosing hNow
    obtain ⟨m, hdm, hmk, hJob, -⟩ := hLeads.by_rest (Nat.le_of_lt hdk) hRest
    exact ⟨m, hdm, hmk, hJob⟩

theorem used_iff {c limit k : Nat} {x : Place} (hLimit : 0 < limit)
    (hInvoke : form = .wrapped → s.job? world c = some (.invoke x (.nested limit v.recipe)))
    (hQuiet : (s.after world k).Quiet x) {res' : Option Outcome} : s.Used world k x res' ↔
      ∃ res, s.Used world k (form.place x) res ∧ res' = res.map form.report := by
  cases form with
  | bare => simp [Form.place, Form.report]
  | wrapped =>
    have hInvoke := hInvoke rfl
    constructor
    · rintro ⟨k', hk', hClosing⟩
      obtain ⟨d, hdk, res, hReport, hSame⟩ := closing_of_report hInvoke hLimit hClosing
      exact ⟨res, ⟨d, Nat.lt_trans hdk hk', hReport⟩, hSame⟩
    · rintro ⟨res, ⟨d, hdk, hClosing⟩, rfl⟩
      obtain ⟨rest, hAgenda, -⟩ := s.after_succ_of_job world hInvoke
      obtain ⟨R, hNow, -⟩ := s.after_succ_of_job world hClosing
      obtain ⟨R', -, hLeads⟩ := leads_to_report hLimit hInvoke hAgenda hClosing hNow
      rcases hLeads k (Nat.le_of_lt hdk) with
        ⟨m, -, hmk, hReport, -⟩ | ⟨front, job, hTends, hPending⟩
      · exact ⟨m, hmk, hReport⟩
      · -- Nothing on the agenda has to do with the item, so the result is not on its way.
        have hMem : job ∈ (s.after world k).machine.agenda := by simp [hPending]
        rcases hTends with hSite | ⟨res', rfl⟩
        · obtain ⟨y, hPlace, hSuffix⟩ := Job.place_of_site hSite
          exact absurd hMem (hQuiet.not_mem hPlace hSuffix)
        · refine absurd hMem (hQuiet.not_mem (y := x) ?_ (List.suffix_refl x))
          cases res' <;> rfl

theorem closed_iff {c limit k : Nat} {x : Place} (hLimit : 0 < limit)
    (hInvoke : form = .wrapped → s.job? world c = some (.invoke x (.nested limit v.recipe)))
    (hQuiet : (s.after world k).Quiet x) :
    s.Closed world k x ↔ s.Closed world k (form.place x) := by
  constructor
  · rintro ⟨res', hUsed⟩
    obtain ⟨res, hUsed, -⟩ := (used_iff hLimit hInvoke hQuiet).mp hUsed
    exact ⟨res, hUsed⟩
  · rintro ⟨res, hUsed⟩
    exact ⟨_, (used_iff hLimit hInvoke hQuiet).mpr ⟨res, hUsed, rfl⟩⟩

/-! ## On top of the frame that asks -/

section

variable {l : Nat} {p : Place} {x : Input} {r : Run b} {f : Frame b.Body}
  (hStep : s.Steps world l p x r f)
include hStep

theorem delegating_bare (hAnswer : (s.stepped world l f x).1 = .wait (Form.bare.request v)) :
    s.Delegating world v .bare l p x r f := by
  have hTurn : (s.turned world l x r).turn = .await v.work .throwing := hStep.awaits hAnswer rfl
  exact
    { invoked := fun rest hAgenda => Leads.of_await hStep.turns hTurn hAgenda (Or.inl rfl)
      once := fun m m' work work' hInvokes hInvokes' =>
        ⟨hInvokes.unique hInvokes',
          hInvokes.core.symm.trans (core_of_invoke hStep.turns hTurn hInvokes.job)⟩
      parks := fun k hlk hDozes hCheck =>
        (hStep.last_of_dozes hTurn hlk hDozes).parks_iff hTurn hCheck
      resumed := fun rest d res R hAgenda hClosing hNow => by
        rw [Form.report, Option.map_id_fun, id]
        exact hStep.leads_back hTurn hAgenda hClosing hNow
      only := fun j y r' f' hlj hDozes hNext _ => hStep.told_of_dozes hTurn hlj hDozes hNext
      silent := fun k job hlk hDozes hJob hSteers => by
        refine .of_job hJob (Job.site_of_steers hSteers) fun rest => ?_
        cases job with
        | drive q y =>
          obtain rfl := eq_of_beq hSteers
          obtain ⟨r', hTurns⟩ := exists_turns hJob
          obtain ⟨below, hFrames⟩ := hStep.frames_of_await hTurn
          have hLast := hStep.last_of_dozes hTurn hlk (hDozes.mono (Nat.le_succ k))
          rw [← hLast.frames hTurns] at hFrames
          exact (hDozes.not_top hlk (Nat.lt_succ_self k) hTurns hFrames rfl).elim
        | check => exact Machine.silent_of_other nofun nofun nofun
        | _ => cases hSteers }

theorem delegating_wrapped (hAnswer : (s.stepped world l f x).1 = .wait (Form.wrapped.request v))
    (hRoom : r.frames.depth < r.frames.limit) : s.Delegating world v .wrapped l p x r f where
  invoked rest hAgenda := inlined_leads_to_work hStep hAnswer hRoom hAgenda
  once m m' work work' hInvokes hInvokes' := by
    obtain ⟨rest, hAgenda, -⟩ := s.after_succ_of_job world hStep.turns.job
    have hLedger := History.mem_ledger_of_dormant
      (dormant_of_job hInvokes.job (List.mem_singleton_self _))
    obtain ⟨n, -, r', below, hTurns, hWait, hFrames, -⟩ :=
      inlined_asked hStep hAnswer hRoom hAgenda hLedger
    have hTurned : s.turned world n .start r' = _ := v.turn_start hFrames _
    have hCore := core_of_invoke hTurns (congrArg Turned.turn hTurned) (by
      rw [hWait]
      exact hInvokes.job)
    exact ⟨hInvokes.unique hInvokes', hInvokes.core.symm.trans hCore⟩
  parks k hlk hDozes hCheck := inlined_parks_iff hStep hAnswer hRoom hlk hDozes hCheck
  resumed rest d res R hAgenda hClosing hNow :=
    inlined_leads_back hStep hAnswer hRoom hAgenda hClosing hNow
  only j y r' f' hlj hDozes hNext hSame := inlined_told hStep hAnswer hRoom hlj hDozes hNext hSame
  silent k job hlk hDozes hJob hSteers :=
    inlined_silent hStep hAnswer hRoom hlk hDozes hJob hSteers

theorem delegating (hAnswer : (s.stepped world l f x).1 = .wait (form.request v))
    (hRoom : r.frames.depth < r.frames.limit) : s.Delegating world v form l p x r f := by
  cases form with
  | bare => exact delegating_bare hStep hAnswer
  | wrapped => exact delegating_wrapped hStep hAnswer hRoom

theorem Delegating.done {k : Nat} (h : s.Delegating world v form l p x r f) (hlk : l < k)
    (hRest : (s.after world k).AtRest) :
    (∃ m, l < m ∧ m < k ∧ s.job? world m = some (.invoke (r.wait :: p) v.work)) ∧
      ∀ d < k, ∀ res, s.job? world d = some (.closing (r.wait :: p) res) →
        ∃ m R, d ≤ m ∧ m < k ∧
          s.Resumes world m p (s.lulled world l f x) R (res.map form.report) := by
  obtain ⟨rest, hAgenda, -⟩ := s.after_succ_of_job world hStep.turns.job
  constructor
  · obtain ⟨m, hlm, hmk, hJob, -⟩ := (h.invoked rest hAgenda).by_rest hlk hRest
    exact ⟨m, hlm, hmk, hJob⟩
  · intro d hdk res hClosing
    obtain ⟨R, hNow, -⟩ := s.after_succ_of_job world hClosing
    obtain ⟨R', -, hLeads⟩ := h.resumed rest d res R hAgenda hClosing hNow
    obtain ⟨m, hdm, hmk, hResumes⟩ := hLeads.by_rest (Nat.le_of_lt hdk) hRest
    exact ⟨m, R', hdm, hmk, hResumes⟩

end

/-! ## Parking -/

section

variable {l k : Nat} {p : Place} {x : Input} {r : Run b} {f : Frame b.Body}
  (hStep : s.Steps world l p x r f) (hLast : s.LastTurn world l k p x r)
  (hCheck : s.job? world k = some (.check p))
include hStep hLast hCheck

theorem operand_parks_iff
    (hAnswer : (s.stepped world l f x).1 = .wait (.caught (form.item v))) :
    s.Parks world k p ↔ ¬ s.Closed world k (form.place (r.wait :: p)) := by
  have hTurn := hStep.awaits hAnswer rfl
  obtain ⟨i, -, hLimit, -⟩ := hStep.turns.start
  obtain ⟨c, n, -, -, hInvoke, -⟩ := returns_of_check hLast.turns hTurn hLast.before hCheck
  rw [hLast.parks_iff hTurn hCheck]
  refine not_congr (closed_iff (v := v) (c := c) hLimit ?_ (hLast.quiet hTurn hCheck))
  rintro rfl
  exact hInvoke

theorem fan_parks_iff {items : List (Item b.Recipe b.Note)} {n : Nat}
    (hAnswer : (s.stepped world l f x).1 = .wait (.all items))
    (hItem : items[n]? = some (form.item v)) : s.Parks world k p ↔
      (∀ m, m ≠ n → ∀ e, ¬ s.Used world k (m :: r.wait :: p) (some (.error e))) ∧
      (∀ o, s.Used world k (form.place (n :: r.wait :: p)) (some o) →
        ∀ e, form.report o ≠ .error e) ∧
      ((∃ m < items.length, m ≠ n ∧ ¬ s.Closed world k (m :: r.wait :: p)) ∨
        ¬ s.Closed world k (form.place (n :: r.wait :: p))) := by
  have hTurn := gather_turn hStep hAnswer
  obtain ⟨i, -, hLimit, -⟩ := hStep.turns.start
  obtain ⟨c, k', hlc, hk'k, hInvoke, hReturns⟩ :=
    returns_of_check hLast.turns hTurn hLast.before hCheck
  have hQuiet := hLast.quiet hTurn hCheck
  obtain ⟨c', -, -, -, hInvokes, -⟩ := begun_of_request hlc hInvoke hReturns hItem
  have hForm : form = .wrapped →
      s.job? world c' = some (.invoke (n :: r.wait :: p) (.nested r.frames.limit v.recipe)) := by
    rintro rfl
    exact hInvokes.job
  have hItemQuiet := hQuiet.part (List.suffix_cons n _)
  have hUsed : ∀ res', s.Used world k (n :: r.wait :: p) res' ↔
      ∃ res, s.Used world k (form.place (n :: r.wait :: p)) res ∧ res' = res.map form.report :=
    fun _ => used_iff hLimit hForm hItemQuiet
  have hClosed := closed_iff hLimit hForm hItemQuiet
  have hn : n < items.length := (List.getElem?_eq_some_iff.mp hItem).1
  have hWorks : (items.map (Item.toWork r.frames.limit) : List (Work b.Recipe b.Note)) ≠ [] := by
    intro hNil
    rw [List.map_eq_nil_iff] at hNil
    simp [hNil] at hn
  rw [hLast.parks_iff hTurn hCheck,
    join_open_iff hWorks hInvoke (Nat.lt_of_lt_of_le hReturns.1 hk'k) hQuiet, List.length_map]
  constructor
  · rintro ⟨hUnfailed, m, hm, hOpen⟩
    refine ⟨fun m _ => hUnfailed m, fun o hReport e hFailed => hUnfailed n e ?_, ?_⟩
    · exact (hUsed _).mpr ⟨some o, hReport, by rw [Option.map_some, hFailed]⟩
    · by_cases hmn : m = n
      · subst hmn
        exact Or.inr (mt hClosed.mpr hOpen)
      · exact Or.inl ⟨m, hm, hmn, hOpen⟩
  · rintro ⟨hOthers, hItself, hOpen⟩
    refine ⟨fun m e hFailed => ?_, ?_⟩
    · by_cases hmn : m = n
      · subst hmn
        obtain ⟨res, hReport, hSame⟩ := (hUsed _).mp hFailed
        cases res with
        | none => cases hSame
        | some o => exact hItself o hReport e (Option.some.inj hSame).symm
      · exact hOthers m hmn e hFailed
    · rcases hOpen with ⟨m, hm, -, hOpen⟩ | hOpen
      · exact ⟨m, hm, hOpen⟩
      · exact ⟨n, hn, mt hClosed.mp hOpen⟩

end

/-! ## Interchanging -/

theorem report_ne_iff (o : Outcome) : form.report o ≠ o ↔ form = .wrapped ∧
    ∃ problem, o = .ok (.error problem) ∧ form.report o = .error (.ofReturned problem) := by
  constructor
  · intro hChanged
    cases form with
    | bare => exact absurd rfl hChanged
    | wrapped =>
      refine ⟨rfl, ?_⟩
      rcases o with e | d
      · exact absurd rfl hChanged
      · cases d with
        | error problem => exact ⟨problem, rfl, rfl⟩
        | _ => exact absurd rfl hChanged
  · rintro ⟨-, problem, rfl, hReport⟩
    rw [hReport]
    exact nofun

/-- Work and a coroutine that stands in for it do the same wherever they are handed over, but for
the outcome that is an error value. -/
theorem interchange (s : Schedule b) (world : b.World) (v : Wrapper b) (form : Form) :
    s.Interchange world v form where
  rule := report_ne_iff
  carried _ _ _ hLimit hInvoke := carries hLimit hInvoke
  done _ _ _ _ hLimit hInvoke hck hRest := (carries hLimit hInvoke).done hInvoke hck hRest
  operand_parks _ _ _ _ _ _ hStep hAnswer hLast hCheck :=
    operand_parks_iff hStep hLast hCheck hAnswer
  fan_parks _ _ _ _ _ _ _ _ hStep hAnswer hItem hLast hCheck :=
    fan_parks_iff hStep hLast hCheck hAnswer hItem
  delegated _ _ _ _ _ hStep hAnswer hRoom := delegating hStep hAnswer hRoom
  resumed _ _ _ _ _ _ hStep hAnswer hRoom hlk hRest :=
    (delegating hStep hAnswer hRoom).done hStep hlk hRest

end Schedule

/-! ## Where the forms differ -/

theorem Schedule.deliver_of_poke {s : Schedule b} {world : b.World} {k : Nat} {poke : Poke}
    {x : Place} {others : List Held} (hJob : s.job? world k = some (.poke poke))
    (hHeld : (s.after world k).machine.held = ⟨x, .keyed poke.key⟩ :: others)
    (hWork : s (k + 1) = .work) : s.job? world (k + 1) = some (.deliver x poke.outcome) := by
  have hTake : takeKeyed poke.key (s.after world k).machine.held = some (x, others) := by
    rw [hHeld]
    simp [takeKeyed]
  obtain ⟨rest, -, hAfter⟩ := s.after_succ_of_job world hJob
  have hPerform := Machine.perform_poke
    (m := { (s.after world k).machine with agenda := rest }) (k := poke) hTake
  rw [job?, hWork, hAfter, History.afterJob, hPerform]
  rfl

namespace Script

def standIn (library : Library) (limit : Nat) (d : Deed) (work : Work Recipe Note)
    (hBuild : ∀ w, (d.build limit [("args", .list []), ("cap", .list [])]).run w = (.ok work, w)) :
    Wrapper (behaviour library limit) where
  recipe := .ofDeed d
  work := work
  ready := .once (some work)
  spent := .once none
  make w := by
    have hBuilt := hBuild w
    simp only [behaviour, make]
    rw [hBuilt]
  asks _ := rfl
  ends _ _ _ := ⟨_, rfl⟩

def faulty : Deed := .value (.error (.text "lost") (.text "key"))

def deferred : Deed := .defer (.text "later")

/-- Fails, and has what is deferred fail before its own invocation is over. -/
def overtaking : Deed :=
  .fire (.text "later") (.failed (.operation (.text "second"))) false
    (.failed (.operation (.text "first")))

end Script

namespace Form

open Script

def part (d : Deed) : Form → Part
  | bare => .deed d
  | wrapped => .coroutine (.ofDeed d)

def library (form : Form) : Library :=
  [("faulty", #[.yield (.fan [form.part faulty, .deed deferred]) "x" none]),
    ("overtaking", #[.yield (.fan [.deed deferred, form.part overtaking]) "x" none])]

def schedule (form : Form) (name : String) : Schedule (behaviour form.library 3) :=
  .alone (.program name []) [] 3

def faultyStandIn (form : Form) : Wrapper (behaviour form.library 3) :=
  standIn _ _ faulty (announced "from" (.done (.ok (.error ⟨"lost", "key"⟩)))) fun _ => rfl

def overtakingStandIn (form : Form) : Wrapper (behaviour form.library 3) :=
  standIn _ _ overtaking (.noted (.invoked "fire" none (some "later")) (.primitive
    ⟨[], .complete (.error (.ofOperation "first")), [⟨"later", .error (.ofOperation "second")⟩]⟩))
    fun _ => rfl

theorem not_parks_faulty (k : Nat) : ¬ (wrapped.schedule "faulty").Parks .new k [0] := by
  have hRest : ((wrapped.schedule "faulty").after .new 23).AtRest := by decide +kernel
  have hAwake : ∀ k < 23, ¬ (wrapped.schedule "faulty").parks? .new k [0] = true := by
    decide +kernel
  rcases Nat.lt_or_ge k 23 with hk | hk
  · exact mt Schedule.parks?_iff.mpr (hAwake k hk)
  · have hWork : ∀ j, 23 ≤ j → wrapped.schedule "faulty" j = .work := by
      intro j hj
      obtain ⟨j, rfl⟩ := Nat.exists_eq_add_of_le' (Nat.lt_of_lt_of_le (Nat.zero_lt_succ 22) hj)
      rfl
    rintro ⟨hCheck, -⟩
    obtain ⟨rest, hAgenda, -⟩ := Schedule.after_succ_of_job _ _ hCheck
    rw [(wrapped.schedule "faulty").after_of_rest .new hRest hWork hk, hRest] at hAgenda
    cases hAgenda

/-- A parent that joins work that comes to an error value is parked, and not if it joins the
stand-in. When work has the deferred item fail after it has failed itself, its own failure was
handed over before, but not by the stand-in. -/
theorem not_alike :
    (∀ form : Form, ∃ x r f other, (form.schedule "faulty").Steps .new 2 [0] x r f ∧
      ((form.schedule "faulty").stepped .new 2 f x).1 =
        .wait (.all [form.item form.faultyStandIn, other])) ∧
    ((∃ k, (bare.schedule "faulty").Parks .new k [0]) ∧
      ∀ k, ¬ (wrapped.schedule "faulty").Parks .new k [0]) ∧
    (∀ form : Form, ∃ x r f other, (form.schedule "overtaking").Steps .new 2 [0] x r f ∧
      ((form.schedule "overtaking").stepped .new 2 f x).1 =
        .wait (.all [other, form.item form.overtakingStandIn])) ∧
    (∃ k, (bare.schedule "overtaking").job? .new k =
        some (.deliver [0, 0, 0] (.error (.ofOperation "second"))) ∧
      (bare.schedule "overtaking").Used .new k [1, 0, 0]
        (some (.error (.ofOperation "first")))) ∧
    (∃ k, (wrapped.schedule "overtaking").job? .new k =
        some (.deliver [0, 0, 0] (.error (.ofOperation "second"))) ∧
      (wrapped.schedule "overtaking").Used .new k [0, 1, 0, 0]
        (some (.error (.ofOperation "first"))) ∧
      ¬ (wrapped.schedule "overtaking").Closed .new k [1, 0, 0]) := by
  refine ⟨fun form => ?_, ⟨⟨13, rfl, _, _, rfl, rfl⟩, not_parks_faulty⟩, fun form => ?_, ?_, ?_⟩
  · cases form <;> exact ⟨_, _, _, _, ⟨⟨rfl, rfl⟩, rfl⟩, rfl⟩
  · cases form <;> exact ⟨_, _, _, _, ⟨⟨rfl, rfl⟩, rfl⟩, rfl⟩
  · have hPoke : (bare.schedule "overtaking").job? .new 13 =
        some (.poke ⟨"later", .error (.ofOperation "second")⟩) := rfl
    have hHeld : ((bare.schedule "overtaking").after .new 13).machine.held =
        [⟨[0, 0, 0], .keyed "later"⟩] := rfl
    exact ⟨14, Schedule.deliver_of_poke hPoke hHeld rfl, 11, by decide, rfl⟩
  · have hPoke : (wrapped.schedule "overtaking").job? .new 15 =
        some (.poke ⟨"later", .error (.ofOperation "second")⟩) := rfl
    have hHeld : ((wrapped.schedule "overtaking").after .new 15).machine.held =
        [⟨[0, 0, 0], .keyed "later"⟩] := rfl
    refine ⟨16, Schedule.deliver_of_poke hPoke hHeld rfl, ⟨14, by decide, rfl⟩, ?_⟩
    have hOpen : ∀ d < 16, ((wrapped.schedule "overtaking").job? .new d).all
        (fun job => job.returning != [[1, 0, 0]]) = true := by decide +kernel
    rintro ⟨res, d, hd, hClosing⟩
    have hNot := hOpen d hd
    rw [hClosing, Option.all_some, Job.returning_closing] at hNot
    cases hNot

end Form

end Interlace
