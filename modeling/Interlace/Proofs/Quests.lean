import Interlace.Proofs.Invocations

/-!
# A run and the work that it waits for

From the step that asks for work until the run goes on there is always one job that sees to it: the
invocation of the work, the look for its result, and then the step that takes it up. In between the
run may be parked. What stood on the agenda below that step still stands there when the run has
looked for the result.
-/

namespace Interlace

variable {b : Behaviour}

def Job.closing (x : Place) : Option Outcome → Job b
  | some o => .deliver x o
  | none => .drop x

@[simp] theorem Job.site_closing (n : Nat) (p : Place) (res : Option Outcome) :
    (Job.closing (n :: p) res : Job b).site = some p := by
  cases res <;> rfl

@[simp] theorem Job.returning_closing (x : Place) (res : Option Outcome) :
    (Job.closing x res : Job b).returning = [x] := by
  cases res <;> rfl

theorem Job.site_of_steers {job : Job b} {p : Place} (h : job.steers p = true) :
    job.site = some p := by
  cases job with
  | drive q | check q => exact congrArg some (eq_of_beq h)
  | _ => cases h

def Job.Tends (x : Place) (job : Job b) : Prop := job.site = some x ∨ ∃ res, job = .closing x res

def Mail.of : Option Outcome → Mail
  | some o => .outcome o
  | none => .lost

/-- A run asks for work: where it is, the number of its wait, its frames after the step, and what
stands on the agenda below that step. -/
structure Quest (b : Behaviour) where
  place : Place
  wait : Nat
  work : Work b.Recipe b.Note
  uptake : Uptake
  frames : Frames b.Body
  rest : List (Job b)

namespace Quest

variable (e : Quest b)

/-- The continuation that the work is invoked with. -/
def spot : Place := e.wait :: e.place

structure Out (r : Run b) (phase : Phase) : Prop where
  frames : r.frames = e.frames
  wait : r.wait = e.wait
  phase : r.phase = phase

structure Back (r : Run b) : Prop where
  frames : r.frames = e.frames
  wait : r.wait = e.wait + 1

variable {e}

theorem dormant_of_asks {h : History b} {front : List (Job b)} (hAgenda : h.machine.agenda =
    (front ++ [.invoke e.spot e.work]) ++ .check e.place :: e.rest) :
    e.spot ∈ h.machine.dormant := by
  have hMem : .invoke e.spot e.work ∈ h.machine.agenda := by simp [hAgenda]
  exact List.mem_append_left _ (List.mem_flatMap.mpr ⟨_, hMem, List.mem_singleton_self _⟩)

end Quest

namespace Schedule

variable (s : Schedule b) (world : b.World)

def Used (k : Nat) (x : Place) (res : Option Outcome) : Prop :=
  ∃ d < k, s.job? world d = some (.closing x res)

def Closed (k : Nat) (x : Place) : Prop := ∃ res, s.Used world k x res

inductive Heard (e : Quest b) (k : Nat) : Mail → Prop where
  | nothing (hOpen : ¬ s.Closed world k e.spot) : Heard e k .empty
  | result {d : Nat} {res : Option Outcome} (hdk : d < k)
      (hClosing : s.job? world d = some (.closing e.spot res)) : Heard e k (.of res)

/-- Move `m` acts on what move `d` has brought, on top of `R`: at once if the run was parked, and
else when it looks for the result. -/
inductive Timely (e : Quest b) (d m : Nat) (R : List (Job b)) : Prop where
  | early (hdm : d < m) (hRest : R = e.rest) (hCheck : s.job? world m = some (.check e.place))
      (hAgenda : (s.after world m).machine.agenda = .check e.place :: e.rest)
  | late {r : Run b} {job : Job b} (hdm : d = m)
      (hFind : (s.after world d).machine.nodes.find? e.place = some (.run r))
      (hPhase : r.phase = .parked e.uptake) (hAgenda : (s.after world d).machine.agenda = job :: R)

/-- From move `l` on a moment to come is reached, and until then what comes next on top of `rest`
helps it on. -/
def Leads (helps : Job b → Prop) (l : Nat) (rest : List (Job b)) (moment : Nat → Prop) : Prop :=
  ∀ k, l ≤ k → (∃ m, l ≤ m ∧ m < k ∧ moment m) ∨
    ∃ front job, helps job ∧ (s.after world k).machine.agenda = front ++ job :: rest

inductive Acts (e : Quest b) (m : Nat) (R : List (Job b)) : Option Outcome → Nat → Prop where
  | resumes {k : Nat} {o : Outcome} {front : List (Job b)} {r : Run b} (hmk : m < k)
      (hAgenda : (s.after world k).machine.agenda = front ++ .drive e.place (e.uptake.apply o) :: R)
      (hFind : (s.after world k).machine.nodes.find? e.place = some (.run r)) (hBack : e.Back r) :
      Acts e m R (some o) k
  | resumed {k n : Nat} {o : Outcome} {r : Run b} (hmn : m < n) (hnk : n < k)
      (hTurns : s.Turns world n e.place (e.uptake.apply o) r) (hBack : e.Back r)
      (hAgenda : (s.after world n).machine.agenda = .drive e.place (e.uptake.apply o) :: R) :
      Acts e m R (some o) k
  | lost {k : Nat} (hmk : m < k)
      (hAgenda : (s.after world (m + 1)).machine.agenda = .drop e.place :: R)
      (hFind : (s.after world (m + 1)).machine.nodes.find? e.place = none) : Acts e m R none k

/-- How far a quest has got. -/
inductive Pursues (e : Quest b) (k : Nat) : Prop where
  | asks {front : List (Job b)} {r : Run b}
      (hAgenda : (s.after world k).machine.agenda =
        (front ++ [.invoke e.spot e.work]) ++ .check e.place :: e.rest)
      (hFind : (s.after world k).machine.nodes.find? e.place = some (.run r))
      (hOut : e.Out r (.invoking e.uptake .empty))
  | invokes {front : List (Job b)} {r : Run b} {mail : Mail}
      (hAgenda : (s.after world k).machine.agenda = front ++ .check e.place :: e.rest)
      (hFind : (s.after world k).machine.nodes.find? e.place = some (.run r))
      (hOut : e.Out r (.invoking e.uptake mail)) (hHeard : s.Heard world e k mail)
  | parked {r : Run b} (hFind : (s.after world k).machine.nodes.find? e.place = some (.run r))
      (hOut : e.Out r (.parked e.uptake)) (hOpen : ¬ s.Closed world k e.spot)
  | acted {d m : Nat} {res : Option Outcome} {R : List (Job b)}
      (hClosing : s.job? world d = some (.closing e.spot res)) (hTimely : s.Timely world e d m R)
      (hActs : s.Acts world e m R res k) : Pursues e k

variable {s world}

theorem not_closed_succ {k : Nat} {x : Place} (h : ¬ s.Closed world k x)
    (hJob : ∀ res, s.job? world k ≠ some (.closing x res)) : ¬ s.Closed world (k + 1) x := by
  rintro ⟨res, d, hd, hClosing⟩
  rcases Nat.lt_succ_iff_lt_or_eq.mp hd with hd | rfl
  · exact h ⟨res, d, hd, hClosing⟩
  · exact hJob res hClosing

theorem Closed.closed {k : Nat} {x : Place} (h : s.Closed world k x) :
    x ∈ (s.after world k).closed := by
  obtain ⟨res, d, hd, hClosing⟩ := h
  cases res with
  | some o => exact mem_closed ((s.called_log world).mpr ⟨d, hd, hClosing⟩) rfl
  | none => exact mem_closed ((s.dropped_log world).mpr ⟨d, hd, hClosing⟩) rfl

theorem returning_of_closing {k : Nat} {x : Place} {res : Option Outcome}
    (hClosing : .closing x res ∈ (s.after world k).machine.agenda) :
    x ∈ (s.after world k).machine.returning :=
  mem_returning hClosing (by simp)

theorem mem_ledger_of_closing {d : Nat} {y : Place} {res : Option Outcome}
    (hClosing : s.job? world d = some (.closing y res)) : y ∈ (s.after world d).ledger :=
  History.mem_ledger_of_returned (List.mem_append_left _
    (returning_of_closing (mem_agenda_of_job hClosing)))

theorem closing_unique {d d' : Nat} {x : Place} {res res' : Option Outcome}
    (hClosing : s.job? world d = some (.closing x res))
    (hClosing' : s.job? world d' = some (.closing x res')) : d = d' ∧ res = res' := by
  have hOrder : ∀ {d d' : Nat} {res res' : Option Outcome}, s.job? world d = some (.closing x res) →
      s.job? world d' = some (.closing x res') → ¬ d < d' := by
    intro d d' res res' hJob hJob' hdd'
    have hClosed : s.Closed world d' x := ⟨res, d, hdd', hJob⟩
    exact not_returning_of_closed hClosed.closed (returning_of_closing (mem_agenda_of_job hJob'))
  obtain rfl : d = d' := by
    have := hOrder hClosing hClosing'
    have := hOrder hClosing' hClosing
    omega
  rw [hClosing] at hClosing'
  refine ⟨rfl, ?_⟩
  cases res <;> cases res' <;> cases hClosing' <;> rfl

/-! ## One move -/

theorem waits_or_now {k : Nat} {front below : List (Job b)} {token : Job b}
    (hAgenda : (s.after world k).machine.agenda = front ++ token :: below) :
    (∃ front', (s.after world (k + 1)).machine.agenda = front' ++ token :: below ∧
        ∀ first rest, s.job? world k = some first →
          (s.after world k).machine.agenda = first :: rest → token ∈ rest) ∨
      s.job? world k = some token ∧ (s.after world k).machine.agenda = token :: below := by
  cases front with
  | nil =>
    rcases s.after_succ world k with ⟨job, rest, hJob, hFirst, -⟩ | ⟨hNone, put, hAdded⟩
    · rw [hFirst] at hAgenda
      obtain ⟨rfl, rfl⟩ := List.cons.inj hAgenda
      exact Or.inr ⟨hJob, hFirst⟩
    · refine Or.inl ⟨put, by rw [hAdded.agenda, hAgenda]; rfl, fun first rest hJob => ?_⟩
      rw [hNone] at hJob
      cases hJob
  | cons first front =>
    obtain ⟨front', hAbove⟩ := agenda_above (List.cons_ne_nil first front) hAgenda
    refine Or.inl ⟨front', hAbove, fun first' rest _ hFirst => ?_⟩
    rw [hAgenda] at hFirst
    obtain ⟨-, rfl⟩ := List.cons.inj hFirst
    simp

theorem behind_cases {k : Nat} {p : Place} {r : Run b} {token : Job b}
    (hFind : (s.after world k).machine.nodes.find? p = some (.run r))
    (hToken : token.steers p = true) (hMem : token ∈ (s.after world k).machine.agenda)
    (hBehind : ∀ first rest, s.job? world k = some first →
      (s.after world k).machine.agenda = first :: rest → token ∈ rest) :
    ((s.after world (k + 1)).machine.nodes.find? p = some (.run r) ∧
        ∀ n res, s.job? world k ≠ some (.closing (n :: p) res)) ∨
      ∃ u res, r.phase = .invoking u .empty ∧
        s.job? world k = some (.closing (r.wait :: p) res) ∧
        (s.after world (k + 1)).machine.nodes.find? p =
          some (.run { r with phase := .invoking u (.of res) }) := by
  rcases s.after_succ world k with ⟨job, rest, hJob, hAgenda, hAfter⟩ | ⟨hNone, put, hAdded⟩
  case inr => exact Or.inl ⟨by rw [hAdded.nodes, hFind], by simp [hNone]⟩
  have hOther : job.steers p = false := by
    refine Bool.eq_false_iff.mpr fun hSteers => ?_
    have hRest := hBehind job rest hJob hAgenda
    have hSame := (s.sound world k).steers_once hAgenda hSteers token hRest
    rw [hToken] at hSame
    cases hSame
  cases (s.sound world k).run_step hAgenda hFind with
  | elsewhere hSite =>
    refine Or.inl ⟨by rw [hAfter, History.find?_afterJob hSite, hFind], fun n res hClosing => ?_⟩
    rw [hJob] at hClosing
    obtain rfl := Option.some.inj hClosing
    exact hSite (Job.site_closing n p res)
  | next | await | finish | escape | park | resume | giveUp => simp [Job.steers] at hOther
  | @mail u o hPhase hDoes =>
    exact Or.inr ⟨u, some o, hPhase, hJob, (does_succ hAfter hDoes).2.2⟩
  | @lose u hPhase hDoes =>
    exact Or.inr ⟨u, none, hPhase, hJob, (does_succ hAfter hDoes).2.2⟩
  | wake hPhase | abandon hPhase =>
    obtain ⟨r', hFind', ⟨_, -, hPhase'⟩ | ⟨_, _, -, hPhase'⟩⟩ :=
      (s.sound world k).steered hMem hToken
    all_goals
      rw [hFind] at hFind'
      cases hFind'
      rw [hPhase] at hPhase'
      cases hPhase'

theorem wait_lt_of_drive {k n : Nat} {p : Place} {y : Input} {r : Run b}
    (hDrive : .drive p y ∈ (s.after world k).machine.agenda)
    (hFind : (s.after world k).machine.nodes.find? p = some (.run r))
    (hLedger : n :: p ∈ (s.after world k).ledger) : n < r.wait := by
  have hWaits := (s.sound world k).waits p r hFind n hLedger
  rwa [Run.waits, phase_of_drive hDrive hFind] at hWaits

theorem drive_now {k : Nat} {p : Place} {y : Input} {r : Run b} {front below : List (Job b)}
    (hAgenda : (s.after world k).machine.agenda = front ++ .drive p y :: below)
    (hFind : (s.after world k).machine.nodes.find? p = some (.run r)) :
    (∃ front', (s.after world (k + 1)).machine.agenda = front' ++ .drive p y :: below ∧
        (s.after world (k + 1)).machine.nodes.find? p = some (.run r)) ∨
      s.Turns world k p y r ∧ (s.after world k).machine.agenda = .drive p y :: below := by
  have hMem : .drive p y ∈ (s.after world k).machine.agenda := by simp [hAgenda]
  rcases waits_or_now hAgenda with ⟨front', hAbove, hBehind⟩ | ⟨hDrive, hNow⟩
  · rcases behind_cases hFind (by simp [Job.steers]) hMem hBehind with
      ⟨hSame, -⟩ | ⟨u, res, hPhase, -⟩
    · exact Or.inl ⟨front', hAbove, hSame⟩
    · rw [phase_of_drive hMem hFind] at hPhase
      cases hPhase
  · exact Or.inr ⟨⟨hDrive, hFind⟩, hNow⟩

theorem drive_waits {l k : Nat} {p : Place} {y : Input} {r : Run b} {below : List (Job b)}
    (hlk : l ≤ k) (hAgenda : (s.after world l).machine.agenda = .drive p y :: below)
    (hFind : (s.after world l).machine.nodes.find? p = some (.run r)) :
    (∃ front, (s.after world k).machine.agenda = front ++ .drive p y :: below ∧
        (s.after world k).machine.nodes.find? p = some (.run r)) ∨
      ∃ m, l ≤ m ∧ m < k ∧ s.Turns world m p y r ∧
        (s.after world m).machine.agenda = .drive p y :: below := by
  induction hlk with
  | refl => exact Or.inl ⟨[], hAgenda, hFind⟩
  | @step k hlk ih =>
    rcases ih with ⟨front, hFront, hSame⟩ | ⟨m, hlm, hmk, hTurns⟩
    · rcases drive_now hFront hSame with hNext | hTurns
      · exact Or.inl hNext
      · exact Or.inr ⟨k, hlk, Nat.lt_succ_self k, hTurns⟩
    · exact Or.inr ⟨m, hlm, Nat.lt_succ_of_lt hmk, hTurns⟩

theorem agenda_of_next {l : Nat} {p : Place} {x y : Input} {r : Run b} {rest : List (Job b)}
    (hTurns : s.Turns world l p x r) (hTurn : (s.turned world l x r).turn = .next y)
    (hAgenda : (s.after world l).machine.agenda = .drive p x :: rest) :
    (s.after world (l + 1)).machine.agenda = .drive p y :: rest ∧
      (s.after world (l + 1)).machine.nodes.find? p =
        some (.run { r with frames := (s.turned world l x r).frames }) := by
  have hAfter := s.after_succ_at world hTurns.job hAgenda
  rw [turned] at hTurn
  cases (s.sound world l).run_step hAgenda hTurns.find with
  | elsewhere hSite => exact absurd rfl hSite
  | await _ hTurn' | finish _ hTurn' | escape _ _ hTurn' =>
    rw [hTurn] at hTurn'
    cases hTurn'
  | next _ hTurn' hDoes =>
    rw [hTurn] at hTurn'
    cases hTurn'
    exact (does_succ hAfter hDoes).2

theorem check_empty {k : Nat} {p : Place} {r : Run b} {u : Uptake} {rest : List (Job b)}
    (hCheck : s.job? world k = some (.check p))
    (hAgenda : (s.after world k).machine.agenda = .check p :: rest)
    (hFind : (s.after world k).machine.nodes.find? p = some (.run r))
    (hPhase : r.phase = .invoking u .empty) :
    (s.after world (k + 1)).machine.agenda = rest ∧
      (s.after world (k + 1)).machine.nodes.find? p =
        some (.run { r with phase := .parked u, wasParked := true }) := by
  have hAfter := s.after_succ_at world hCheck hAgenda
  cases (s.sound world k).run_step hAgenda hFind with
  | elsewhere hSite => exact absurd rfl hSite
  | @park u' hPhase' hDoes =>
    rw [hPhase] at hPhase'
    cases hPhase'
    exact (does_succ hAfter hDoes).2
  | resume hPhase' | giveUp hPhase' =>
    rw [hPhase] at hPhase'
    cases hPhase'

theorem Acts.succ {e : Quest b} {m k : Nat} {R : List (Job b)} {res : Option Outcome}
    (h : s.Acts world e m R res k) : s.Acts world e m R res (k + 1) := by
  cases h with
  | @resumes _ o front r hmk hAgenda hFind hBack =>
    rcases drive_now hAgenda hFind with ⟨front', hAbove, hSame⟩ | ⟨hTurns, hNow⟩
    · exact .resumes (Nat.lt_succ_of_lt hmk) hAbove hSame hBack
    · exact .resumed hmk (Nat.lt_succ_self k) hTurns hBack hNow
  | resumed hmn hnk hTurns hBack hAgenda =>
    exact .resumed hmn (Nat.lt_succ_of_lt hnk) hTurns hBack hAgenda
  | lost hmk hAgenda hFind => exact .lost (Nat.lt_succ_of_lt hmk) hAgenda hFind

theorem Acts.mono {e : Quest b} {m k l : Nat} {R : List (Job b)} {res : Option Outcome}
    (h : s.Acts world e m R res k) (hkl : k ≤ l) : s.Acts world e m R res l := by
  induction hkl with
  | refl => exact h
  | step _ ih => exact ih.succ

theorem Acts.of_parked {e : Quest b} {k : Nat} {R : List (Job b)} {res : Option Outcome}
    {r : Run b} (hClosing : s.job? world k = some (.closing e.spot res))
    (hNow : (s.after world k).machine.agenda = .closing e.spot res :: R)
    (hFind : (s.after world k).machine.nodes.find? e.place = some (.run r))
    (hOut : e.Out r (.parked e.uptake)) : s.Acts world e k R res (k + 1) := by
  have hAfter := s.after_succ_at world hClosing hNow
  have hSite : (Job.closing e.spot res : Job b).site = some e.place := Job.site_closing _ _ _
  generalize hJob : (Job.closing e.spot res : Job b) = job at hNow hAfter hSite
  cases (s.sound world k).run_step hNow hFind with
  | elsewhere hOther => exact absurd hSite hOther
  | next | await | finish | escape | park | resume | giveUp => cases res <;> cases hJob
  | mail hPhase | lose hPhase =>
    rw [hOut.phase] at hPhase
    cases hPhase
  | wake hPhase hDoes =>
    rw [hOut.phase] at hPhase
    cases hPhase
    obtain ⟨-, hPut, hNode⟩ := does_succ hAfter hDoes
    cases res with
    | none => cases hJob
    | some o =>
      obtain ⟨-, rfl⟩ := Job.deliver.inj hJob
      have hDrive : (s.after world (k + 1)).machine.agenda =
          [] ++ .drive e.place (e.uptake.apply o) :: R := hPut
      exact .resumes (Nat.lt_succ_self k) hDrive hNode
        ⟨hOut.frames, congrArg (· + 1) hOut.wait⟩
  | abandon hPhase hDoes =>
    obtain ⟨-, hPut, hNode⟩ := does_succ hAfter hDoes
    cases res with
    | none => exact .lost (Nat.lt_succ_self k) hPut hNode
    | some o => cases hJob

theorem Acts.lt {e : Quest b} {m k : Nat} {R : List (Job b)} {res : Option Outcome}
    (h : s.Acts world e m R res k) : m < k := by
  cases h with
  | resumes hmk | lost hmk => exact hmk
  | resumed hmn hnk => exact Nat.lt_trans hmn hnk

namespace Pursues

variable {e : Quest b} {k : Nat}

theorem of_check {d : Nat} {res : Option Outcome} {r : Run b} (hdk : d < k)
    (hCheck : s.job? world k = some (.check e.place))
    (hAgenda : (s.after world k).machine.agenda = .check e.place :: e.rest)
    (hFind : (s.after world k).machine.nodes.find? e.place = some (.run r))
    (hOut : e.Out r (.invoking e.uptake (.of res)))
    (hClosing : s.job? world d = some (.closing e.spot res)) : s.Pursues world e (k + 1) := by
  have hAfter := s.after_succ_at world hCheck hAgenda
  have hTimely : s.Timely world e d k e.rest := .early hdk rfl hCheck hAgenda
  cases (s.sound world k).run_step hAgenda hFind with
  | elsewhere hSite => exact absurd rfl hSite
  | park hPhase =>
    rw [hOut.phase] at hPhase
    cases res <;> cases hPhase
  | @resume _ o hPhase hDoes =>
    rw [hOut.phase] at hPhase
    cases res with
    | none => cases hPhase
    | some =>
      cases hPhase
      obtain ⟨-, hPut, hNode⟩ := does_succ hAfter hDoes
      have hDrive : (s.after world (k + 1)).machine.agenda =
          [] ++ .drive e.place (e.uptake.apply o) :: e.rest := hPut
      exact .acted hClosing hTimely (.resumes (Nat.lt_succ_self k) hDrive hNode
        ⟨hOut.frames, congrArg (· + 1) hOut.wait⟩)
  | giveUp hPhase hDoes =>
    rw [hOut.phase] at hPhase
    cases res with
    | some o => cases hPhase
    | none =>
      obtain ⟨-, hPut, hNode⟩ := does_succ hAfter hDoes
      exact .acted hClosing hTimely (.lost (Nat.lt_succ_self k) hPut hNode)

theorem succ_asks {front : List (Job b)} {r : Run b}
    (hAgenda : (s.after world k).machine.agenda =
      (front ++ [.invoke e.spot e.work]) ++ .check e.place :: e.rest)
    (hFind : (s.after world k).machine.nodes.find? e.place = some (.run r))
    (hOut : e.Out r (.invoking e.uptake .empty)) : s.Pursues world e (k + 1) := by
  have hReturned := (s.sound world k).not_returned_of_dormant (Quest.dormant_of_asks hAgenda)
  have hBehind : ∀ first rest, s.job? world k = some first →
      (s.after world k).machine.agenda = first :: rest → .check e.place ∈ rest := by
    intro first rest _ hFirst
    rw [hFirst, List.append_assoc] at hAgenda
    cases front with
    | nil =>
      obtain ⟨-, rfl⟩ := List.cons.inj hAgenda
      exact List.mem_cons_self
    | cons =>
      obtain ⟨-, rfl⟩ := List.cons.inj hAgenda
      simp
  rcases behind_cases hFind (by simp [Job.steers]) (by simp [hAgenda]) hBehind with
    ⟨hSame, hElsewhere⟩ | ⟨u, res, -, hClosing, -⟩
  · rw [List.append_assoc] at hAgenda
    rcases waits_or_now hAgenda with ⟨front', hAbove, -⟩ | ⟨hInvoke, hNow⟩
    · rw [← List.singleton_append, ← List.append_assoc] at hAbove
      exact .asks hAbove hSame hOut
    · have hNext : (s.after world k).machine.agenda =
          [.invoke e.spot e.work] ++ .check e.place :: e.rest := hNow
      obtain ⟨front', hAbove⟩ := agenda_above (by simp) hNext
      refine .invokes hAbove hSame hOut (.nothing ?_)
      exact not_closed_succ (fun hClosed => hReturned (List.mem_append_right _ hClosed.closed))
        fun res => hElsewhere _ res
  · rw [hOut.wait] at hClosing
    exact absurd (List.mem_append_left _ (returning_of_closing (mem_agenda_of_job hClosing)))
      hReturned

theorem succ_invokes {front : List (Job b)} {r : Run b} {mail : Mail}
    (hAgenda : (s.after world k).machine.agenda = front ++ .check e.place :: e.rest)
    (hFind : (s.after world k).machine.nodes.find? e.place = some (.run r))
    (hOut : e.Out r (.invoking e.uptake mail)) (hHeard : s.Heard world e k mail) :
    s.Pursues world e (k + 1) := by
  rcases waits_or_now hAgenda with ⟨front', hAbove, hBehind⟩ | ⟨hCheck, hNow⟩
  · rcases behind_cases hFind (by simp [Job.steers]) (by simp [hAgenda]) hBehind with
      ⟨hSame, hElsewhere⟩ | ⟨u, res, hPhase, hClosing, hNode⟩
    · refine .invokes hAbove hSame hOut ?_
      cases hHeard with
      | nothing hOpen => exact .nothing (not_closed_succ hOpen fun res => hElsewhere _ res)
      | result hdk hClosing => exact .result (Nat.lt_succ_of_lt hdk) hClosing
    · rw [hOut.phase] at hPhase
      cases hPhase
      rw [hOut.wait] at hClosing
      exact .invokes hAbove hNode ⟨hOut.frames, hOut.wait, rfl⟩
        (.result (Nat.lt_succ_self k) hClosing)
  · cases hHeard with
    | nothing hOpen =>
      obtain ⟨-, hNode⟩ := check_empty hCheck hNow hFind hOut.phase
      refine .parked hNode ⟨hOut.frames, hOut.wait, rfl⟩
        (not_closed_succ hOpen fun res hClosing => ?_)
      rw [hCheck] at hClosing
      cases res <;> cases hClosing
    | result hdk hClosing => exact of_check hdk hCheck hNow hFind hOut hClosing

theorem succ_parked {r : Run b}
    (hFind : (s.after world k).machine.nodes.find? e.place = some (.run r))
    (hOut : e.Out r (.parked e.uptake)) (hOpen : ¬ s.Closed world k e.spot) :
    s.Pursues world e (k + 1) := by
  by_cases hClosing : ∃ res, s.job? world k = some (.closing e.spot res)
  case pos =>
    obtain ⟨res, hClosing⟩ := hClosing
    obtain ⟨rest, hNow, -⟩ := s.after_succ_of_job world hClosing
    exact .acted hClosing (.late rfl hFind hOut.phase hNow) (.of_parked hClosing hNow hFind hOut)
  have hStill := not_closed_succ hOpen fun res hJob => hClosing ⟨res, hJob⟩
  rcases s.after_succ world k with ⟨job, rest, hJob, hAgenda, hAfter⟩ | ⟨-, put, hAdded⟩
  case inr => exact .parked (by rw [hAdded.nodes, hFind]) hOut hStill
  cases (s.sound world k).run_step hAgenda hFind with
  | elsewhere hSite =>
    exact .parked (by rw [hAfter, History.find?_afterJob hSite, hFind]) hOut hStill
  | next hDriven | await hDriven | finish hDriven | escape _ hDriven =>
    have hPhase := hDriven.phase
    rw [hOut.phase] at hPhase
    cases hPhase
  | park hPhase | resume hPhase | giveUp hPhase | mail hPhase | lose hPhase =>
    rw [hOut.phase] at hPhase
    cases hPhase
  | @wake u o =>
    rw [hOut.wait] at hJob
    exact absurd ⟨some o, hJob⟩ hClosing
  | abandon =>
    rw [hOut.wait] at hJob
    exact absurd ⟨none, hJob⟩ hClosing

theorem succ (h : s.Pursues world e k) : s.Pursues world e (k + 1) := by
  cases h with
  | asks hAgenda hFind hOut => exact succ_asks hAgenda hFind hOut
  | invokes hAgenda hFind hOut hHeard => exact succ_invokes hAgenda hFind hOut hHeard
  | parked hFind hOut hOpen => exact succ_parked hFind hOut hOpen
  | acted hClosing hTimely hActs => exact .acted hClosing hTimely hActs.succ

end Pursues

/-! ## Whether the run is parked -/

theorem front_of_steering {k : Nat} {p : Place} {job : Job b} {front rest : List (Job b)}
    (hJob : s.job? world k = some job) (hSteers : job.steers p = true)
    (hAgenda : (s.after world k).machine.agenda = front ++ job :: rest) : front = [] := by
  obtain ⟨rest', hNow, -⟩ := s.after_succ_of_job world hJob
  cases front with
  | nil => rfl
  | cons first front =>
    have hTwice : job ∈ rest' := by
      rw [hNow] at hAgenda
      obtain ⟨-, rfl⟩ := List.cons.inj hAgenda
      simp
    have hOther := (s.sound world k).steers_once hNow hSteers _ hTwice
    rw [hSteers] at hOther
    cases hOther

section

variable {e : Quest b} {k : Nat} (h : s.Pursues world e k)
  (hCheck : s.job? world k = some (.check e.place))
  (hStill : ∀ n < k, ∀ y r, s.Turns world n e.place y r → ¬ e.Back r)
include h hCheck hStill

theorem Pursues.looks : ∃ r mail, (s.after world k).machine.nodes.find? e.place = some (.run r) ∧
    e.Out r (.invoking e.uptake mail) ∧ s.Heard world e k mail ∧
      (s.after world k).machine.agenda = .check e.place :: e.rest := by
  have hMem := mem_agenda_of_job hCheck
  have hSteers : (.check e.place : Job b).steers e.place = true := by simp [Job.steers]
  cases h with
  | @asks front r hAgenda hFind hOut =>
    have hNone := front_of_steering hCheck hSteers hAgenda
    simp at hNone
  | @invokes front r mail hAgenda hFind hOut hHeard =>
    obtain rfl := front_of_steering hCheck hSteers hAgenda
    exact ⟨r, mail, hFind, hOut, hHeard, hAgenda⟩
  | parked hFind hOut =>
    obtain ⟨r', hFind', ⟨_, -, hPhase⟩ | ⟨_, _, -, hPhase⟩⟩ :=
      (s.sound world k).steered hMem hSteers
    all_goals
      rw [hFind] at hFind'
      cases hFind'
      rw [hOut.phase] at hPhase
      cases hPhase
  | @acted d m res R _ _ hActs =>
    cases hActs with
    | @resumes _ o _ _ _ hAgenda =>
      have hDrive : .drive e.place (e.uptake.apply o) ∈ (s.after world k).machine.agenda := by
        rw [hAgenda]
        exact List.mem_append_right _ List.mem_cons_self
      cases steering_unique hCheck hDrive hSteers (by simp [Job.steers])
    | resumed _ hnk hTurns hBack => exact absurd hBack (hStill _ hnk _ _ hTurns)
    | lost hmk hAgenda hFind =>
      have hGone : s.Gone world (m + 1) e.place :=
        Or.inl (by rw [hAgenda]; exact List.mem_cons_self)
      obtain ⟨hNone, -⟩ := find?_of_gone hmk hGone.returned hFind
      obtain ⟨r', hFind', -⟩ := (s.sound world k).steered hMem hSteers
      rw [hNone] at hFind'
      cases hFind'

theorem Pursues.parks_iff : s.Parks world k e.place ↔ ¬ s.Closed world k e.spot := by
  obtain ⟨r, mail, hFind, hOut, hHeard, -⟩ := h.looks hCheck hStill
  cases hHeard with
  | nothing hOpen => exact iff_of_true ⟨hCheck, r, e.uptake, hFind, hOut.phase⟩ hOpen
  | @result d res hdk hClosing =>
    refine iff_of_false ?_ fun hOpen => hOpen ⟨res, d, hdk, hClosing⟩
    rintro ⟨-, r', u, hFind', hPhase⟩
    rw [hFind] at hFind'
    cases hFind'
    rw [hOut.phase] at hPhase
    cases res <;> cases hPhase

end

/-! ## When the result is acted on -/

namespace Leads

variable {helps : Job b → Prop} {l : Nat} {rest : List (Job b)} {moment : Nat → Prop}

theorem reach {m k : Nat} (hlm : l ≤ m) (hmk : m < k)
    (h : moment m ∨ s.Leads world helps (m + 1) rest moment) :
    (∃ n, l ≤ n ∧ n < k ∧ moment n) ∨
      ∃ front job, helps job ∧ (s.after world k).machine.agenda = front ++ job :: rest := by
  rcases h with hMoment | hLeads
  · exact Or.inl ⟨m, hlm, hmk, hMoment⟩
  · rcases hLeads k hmk with ⟨n, hmn, hDone⟩ | hPending
    · exact Or.inl ⟨n, by omega, hDone⟩
    · exact Or.inr hPending

theorem of_job {job : Job b} (hAgenda : (s.after world l).machine.agenda = job :: rest)
    (hHelps : helps job) (hDone : ∀ m, l ≤ m → s.job? world m = some job →
      (s.after world m).machine.agenda = job :: rest →
        moment m ∨ s.Leads world helps (m + 1) rest moment) :
    s.Leads world helps l rest moment := by
  intro k hlk
  rcases waits_or_done hlk hAgenda with ⟨front, hFront⟩ | ⟨m, hlm, hmk, hJob, hNow⟩
  · exact Or.inr ⟨front, job, hHelps, hFront⟩
  · exact reach hlm hmk (hDone m hlm hJob hNow)

theorem of_drive {p : Place} {y : Input} {r : Run b}
    (hAgenda : (s.after world l).machine.agenda = .drive p y :: rest)
    (hFind : (s.after world l).machine.nodes.find? p = some (.run r)) (hHelps : helps (.drive p y))
    (hDone : ∀ m, l ≤ m → s.Turns world m p y r →
      (s.after world m).machine.agenda = .drive p y :: rest →
        moment m ∨ s.Leads world helps (m + 1) rest moment) :
    s.Leads world helps l rest moment := by
  intro k hlk
  rcases drive_waits hlk hAgenda hFind with ⟨front, hFront, -⟩ | ⟨m, hlm, hmk, hTurns, hNow⟩
  · exact Or.inr ⟨front, .drive p y, hHelps, hFront⟩
  · exact reach hlm hmk (hDone m hlm hTurns hNow)

theorem of_await {p : Place} {x : Input} {r : Run b} {work : Work b.Recipe b.Note} {u : Uptake}
    (hTurns : s.Turns world l p x r) (hTurn : (s.turned world l x r).turn = .await work u)
    (hAgenda : (s.after world l).machine.agenda = .drive p x :: rest) (hHelps : helps (.check p)) :
    s.Leads world helps (l + 1) rest fun m =>
      s.job? world m = some (.invoke (r.wait :: p) work) ∧
        (s.after world m).machine.agenda = .invoke (r.wait :: p) work :: .check p :: rest := by
  intro k hlk
  rcases waits_or_done hlk (agenda_of_await_at hTurns hTurn hAgenda) with
    ⟨front, hFront⟩ | ⟨m, hlm, hmk, hDone⟩
  · refine Or.inr ⟨front ++ [.invoke (r.wait :: p) work], .check p, hHelps, ?_⟩
    rw [hFront, List.append_assoc]
    rfl
  · exact Or.inl ⟨m, hlm, hmk, hDone⟩

theorem by_rest (h : s.Leads world helps l rest moment) {k : Nat} (hlk : l ≤ k)
    (hRest : (s.after world k).AtRest) : ∃ m, l ≤ m ∧ m < k ∧ moment m := by
  rcases h k hlk with hDone | ⟨front, job, -, hAgenda⟩
  · exact hDone
  · rw [show (s.after world k).machine.agenda = [] from hRest] at hAgenda
    simp at hAgenda

end Leads

section

variable {e : Quest b} (moment : List (Job b) → Nat → Prop) {d : Nat} {res : Option Outcome}
  (hTold : ∀ n o r R, res = some o → d < n → s.Turns world n e.place (e.uptake.apply o) r →
    e.Back r → (s.after world n).machine.agenda = .drive e.place (e.uptake.apply o) :: R →
      moment R n ∨ s.Leads world (Job.Tends e.place) (n + 1) R (moment R))
  (hLost : ∀ n R, res = none → s.job? world n = some (.drop e.place) →
    (s.after world n).machine.agenda = .drop e.place :: R → moment R n)
include hTold hLost

theorem Acts.leads {m k : Nat} {R : List (Job b)} (h : s.Acts world e m R res k) (hdm : d ≤ m) :
    (∃ n, d ≤ n ∧ n < k ∧ moment R n) ∨
      ∃ front job, job.Tends e.place ∧ (s.after world k).machine.agenda = front ++ job :: R := by
  cases h with
  | @resumes _ o _ _ _ hAgenda =>
    exact Or.inr ⟨_, .drive e.place (e.uptake.apply o), Or.inl rfl, hAgenda⟩
  | @resumed _ n o r hmn hnk hTurns hBack hAgenda =>
    have hdn : d < n := Nat.lt_of_le_of_lt hdm hmn
    exact Leads.reach (Nat.le_of_lt hdn) hnk (hTold n o r R rfl hdn hTurns hBack hAgenda)
  | lost hmk hAgenda =>
    have hLeads : s.Leads world (Job.Tends e.place) (m + 1) R (moment R) :=
      Leads.of_job hAgenda (Or.inr ⟨none, rfl⟩) fun n _ hJob hNow =>
        Or.inl (hLost n R rfl hJob hNow)
    rcases hLeads k hmk with ⟨n, hmn, hDone⟩ | hPending
    · exact Or.inl ⟨n, by omega, hDone⟩
    · exact Or.inr hPending

variable {l : Nat} (h : ∀ k, l < k → s.Pursues world e k) (hld : l < d)
  (hClosing : s.job? world d = some (.closing e.spot res))
include h hld hClosing

theorem Pursues.leads_inside {front : List (Job b)} {r : Run b} {mail : Mail}
    (hAgenda : (s.after world d).machine.agenda = front ++ .check e.place :: e.rest)
    (hFind : (s.after world d).machine.nodes.find? e.place = some (.run r))
    (hOut : e.Out r (.invoking e.uptake mail)) :
    s.Leads world (Job.Tends e.place) d e.rest (moment e.rest) := by
  intro k hdk
  rcases Nat.lt_or_eq_of_le hdk with hdk | rfl
  case inr => exact Or.inr ⟨front, .check e.place, Or.inl rfl, hAgenda⟩
  have hClosed : s.Closed world k e.spot := ⟨res, d, hdk, hClosing⟩
  cases h k (Nat.lt_trans hld hdk) with
  | asks hAsks =>
    exact absurd (List.mem_append_right _ hClosed.closed)
      ((s.sound world k).not_returned_of_dormant (Quest.dormant_of_asks hAsks))
  | invokes hAgenda' => exact Or.inr ⟨_, .check e.place, Or.inl rfl, hAgenda'⟩
  | parked _ _ hOpen => exact absurd hClosed hOpen
  | acted hClosing' hTimely hActs =>
    obtain ⟨rfl, rfl⟩ := closing_unique hClosing hClosing'
    cases hTimely with
    | early hdm hRest =>
      rw [← hRest]
      exact hActs.leads moment hTold hLost (Nat.le_of_lt hdm)
    | late _ hFind' hPhase =>
      rw [hFind] at hFind'
      cases hFind'
      rw [hOut.phase] at hPhase
      cases hPhase

/-- What a move brings is acted on with nothing else before it on top of what stands below: below
that move if the run was parked, and else below the step that asked. -/
theorem Pursues.leads {R : List (Job b)}
    (hNow : (s.after world d).machine.agenda = .closing e.spot res :: R) :
    ∃ R', (R' = R ∨ R' = e.rest ∧
        ∃ front, (s.after world d).machine.agenda = front ++ .check e.place :: e.rest) ∧
      s.Leads world (Job.Tends e.place) d R' (moment R') := by
  cases h d hld with
  | asks hAsks =>
    exact absurd (List.mem_append_left _ (returning_of_closing (mem_agenda_of_job hClosing)))
      ((s.sound world d).not_returned_of_dormant (Quest.dormant_of_asks hAsks))
  | acted hClosing' hTimely hActs =>
    obtain ⟨rfl, rfl⟩ := closing_unique hClosing hClosing'
    have := hActs.lt
    cases hTimely with
    | early hdm => omega
    | late hdm => omega
  | @invokes front r mail hAgenda hFind hOut _ =>
    -- What comes is left in the mail until the run looks for it.
    exact ⟨e.rest, Or.inr ⟨rfl, front, hAgenda⟩,
      Pursues.leads_inside moment hTold hLost h hld hClosing hAgenda hFind hOut⟩
  | parked hFind hOut hOpen =>
    refine ⟨R, Or.inl rfl, fun k hdk => ?_⟩
    rcases Nat.lt_or_eq_of_le hdk with hdk | rfl
    case inr =>
      exact Or.inr ⟨[], .closing e.spot res, Or.inl (Job.site_closing _ _ _), hNow⟩
    have hActs : s.Acts world e d R res k := (Acts.of_parked hClosing hNow hFind hOut).mono hdk
    exact hActs.leads moment hTold hLost (Nat.le_refl d)

end

def quest (s : Schedule b) (world : b.World) (l : Nat) (p : Place) (x : Input) (r : Run b)
    (work : Work b.Recipe b.Note) (u : Uptake) (rest : List (Job b)) : Quest b :=
  ⟨p, r.wait, work, u, (s.turned world l x r).frames, rest⟩

theorem pursues {l k : Nat} {p : Place} {x : Input} {r : Run b} {work : Work b.Recipe b.Note}
    {u : Uptake} {rest : List (Job b)} (hTurns : s.Turns world l p x r)
    (hTurn : (s.turned world l x r).turn = .await work u)
    (hAgenda : (s.after world l).machine.agenda = .drive p x :: rest) (hlk : l < k) :
    s.Pursues world (s.quest world l p x r work u rest) k := by
  -- By induction on the moves since the step.
  induction hlk with
  | refl =>
    have hAfter := s.after_succ_at world hTurns.job hAgenda
    have hNext := hTurn
    rw [turned] at hNext
    cases (s.sound world l).run_step hAgenda hTurns.find with
    | elsewhere hSite => exact absurd rfl hSite
    | next _ hTurn' | finish _ hTurn' | escape _ _ hTurn' =>
      rw [hNext] at hTurn'
      cases hTurn'
    | await _ hTurn' hDoes =>
      rw [hNext] at hTurn'
      cases hTurn'
      obtain ⟨-, hPut, hNode⟩ := does_succ hAfter hDoes
      have hAsked : (s.after world (l + 1)).machine.agenda =
          ([] ++ [.invoke (r.wait :: p) work]) ++ .check p :: rest := hPut
      exact .asks hAsked hNode ⟨rfl, rfl, rfl⟩
  | step _ ih => exact ih.succ

end Schedule

end Interlace
