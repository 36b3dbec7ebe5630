import Mathlib
import Interlace.Proofs.Isolation
import Interlace.Proofs.Replay
import Interlace.Proofs.Starting

/-!
# A run among others fares as it does alone

The run makes the same steps at the same moments, the call that began it returns at the same moment
with the same result, and its outcome is handed over the same number of times.
-/

namespace Interlace

variable {b : Behaviour}

namespace Schedule

variable {s : Schedule b} {world : b.World}

theorem poke_of_only {h : History b} {n : Nat} {x : Place} {o : Outcome}
    (hMove : Move.only n h .work = .call x o) : ∃ c rest others,
      h.machine.agenda = .poke c :: rest ∧ takeKeyed c.key h.machine.held = some (x, others) ∧
        c.outcome = o := by
  rw [Move.only] at hMove
  cases hAgenda : h.machine.agenda with
  | nil =>
    rw [hAgenda] at hMove
    cases hMove
  | cons job rest =>
    rw [hAgenda] at hMove
    dsimp only at hMove
    split at hMove
    · cases hMove
    · cases job with
      | poke c =>
        dsimp only at hMove
        cases hTake : takeKeyed c.key h.machine.held with
        | none =>
          rw [hTake] at hMove
          cases hMove
        | some found =>
          rw [hTake] at hMove
          dsimp only at hMove
          split at hMove
          · cases hMove
            exact ⟨c, rest, found.2, rfl, hTake, rfl⟩
          · cases hMove
      | _ => cases hMove

theorem begin_only {n k m : Nat} {recipe : b.Recipe} {args : List Datum} {limit : Nat} :
    s.only world n k = .begin m recipe args limit ↔ m = n ∧ s k = .begin m recipe args limit := by
  have hOnly : s.only world n k = (s k).only n (s.after world k) := rfl
  rw [hOnly]
  constructor
  · intro hMove
    cases hMove' : s k with
    | work =>
      rw [hMove'] at hMove
      exact absurd hMove (History.only_work n _ m recipe args limit)
    | begin m' recipe' args' limit' =>
      rw [hMove', Move.only] at hMove
      split at hMove
      · cases hMove
        exact ⟨‹_›, rfl⟩
      · cases hMove
    | call | drop =>
      rw [hMove', Move.only] at hMove
      split at hMove <;> cases hMove
  · rintro ⟨rfl, hMove⟩
    rw [hMove, Move.only, if_pos rfl]

theorem drop_of_only {h : History b} {n : Nat} {x : Place}
    (hMove : Move.only n h .work = .drop x) : x = [] := by
  rw [Move.only] at hMove
  repeat' split at hMove
  all_goals cases hMove
  all_goals rfl

section

variable (hb : b.Unshared) {n : Nat} (hOwn : s.OwnFirst world n)
include hb hOwn

theorem job?_only {k : Nat} {job : Job b} (hTold : ∀ key found, job ≠ .tell key found) :
    (s.only world n).job? world k = some job ↔ s.job? world k = some job ∧
      ∃ rest, (s.after world k).machine.agenda = job :: rest ∧ owner? (job :: rest) = some n := by
  have hBeside := (beside hb hOwn k).1
  have hOnly : s.only world n k = (s k).only n (s.after world k) := rfl
  rw [job?_eq_some, job?_eq_some, hOnly]
  constructor
  · rintro ⟨hMove, rest', hAgenda'⟩
    have hWork : s k = .work := by
      cases hMove' : s k with
      | work => rfl
      | begin | call | drop =>
        rw [hMove', Move.only] at hMove
        split at hMove <;> cases hMove
    rw [hWork, Move.only] at hMove
    cases hAgenda : (s.after world k).machine.agenda with
    | nil =>
      have hSame := hBeside.agenda
      rw [hAgenda, hAgenda'] at hSame
      cases hSame
    | cons first rest =>
      rw [hAgenda] at hMove
      dsimp only at hMove
      by_cases hOwner : owner? (first :: rest) = some n
      · obtain ⟨job', rest'', hNow, hJob, -⟩ := hBeside.first hAgenda hOwner
        rw [hAgenda'] at hNow
        obtain ⟨rfl, rfl⟩ := List.cons.inj hNow
        rcases hJob with rfl | ⟨key, found, found', -, rfl⟩
        · exact ⟨⟨hWork, rest, rfl⟩, rest, rfl, hOwner⟩
        · exact absurd rfl (hTold key found')
      · rw [if_neg hOwner] at hMove
        repeat' split at hMove
        all_goals cases hMove
  · rintro ⟨⟨hWork, -⟩, rest, hAgenda, hOwner⟩
    obtain ⟨job', rest', hAgenda', hJob, -⟩ := hBeside.first hAgenda hOwner
    rcases hJob with rfl | ⟨key, found, -, rfl, -⟩
    · refine ⟨?_, rest', hAgenda'⟩
      rw [hWork, Move.only, hAgenda]
      exact if_pos hOwner
    · exact absurd rfl (hTold key found)

theorem job?_only_of_top {k : Nat} (job : Job b) (hTop : job.top? = some n) :
    (s.only world n).job? world k = some job ↔ s.job? world k = some job := by
  have hTold : ∀ key found, job ≠ .tell key found := by
    rintro key found rfl
    cases hTop
  rw [job?_only hb hOwn hTold]
  refine ⟨And.left, fun hJob => ⟨hJob, ?_⟩⟩
  obtain ⟨rest, hAgenda, -⟩ := s.after_succ_of_job world hJob
  exact ⟨rest, hAgenda, owner?_of_top job hTop rest⟩

theorem turns_only {k : Nat} {p : Place} (hp : topOf p = some n) (x : Input) (r : Run b) :
    (s.only world n).Turns world k p x r ↔ s.Turns world k p x r := by
  have hFind := (beside hb hOwn k).1.nodes p hp
  have hJob := job?_only_of_top hb hOwn (k := k) (.drive p x) hp
  constructor
  · rintro ⟨hDrive, hRun⟩
    exact ⟨hJob.mp hDrive, hFind ▸ hRun⟩
  · rintro ⟨hDrive, hRun⟩
    exact ⟨hJob.mpr hDrive, hFind.trans hRun⟩

theorem step?_only {k : Nat} {p : Place} (hp : topOf p = some n) :
    (s.only world n).step? world p k = s.step? world p k := by
  by_cases hDrive : ∃ x, s.job? world k = some (.drive p x)
  · obtain ⟨x, hDrive⟩ := hDrive
    obtain ⟨r, hTurns⟩ := exists_turns hDrive
    obtain ⟨f, hStep⟩ := hTurns.steps
    have hStep' : (s.only world n).Steps world k p x r f :=
      ⟨(turns_only hb hOwn hp x r).mpr hTurns, hStep.top⟩
    rw [step?_of_steps hStep, step?_of_steps hStep', stepped, stepped, (hb.step f.body x _ _).1]
  · have hNone : ∀ x, s.job? world k ≠ some (.drive p x) := fun x hJob => hDrive ⟨x, hJob⟩
    rw [step?_of_none hNone, step?_of_none]
    intro x hJob
    exact hNone x ((job?_only_of_top hb hOwn (.drive p x) hp).mp hJob)

theorem steps_only {p : Place} (hp : topOf p = some n) (k : Nat) :
    (s.only world n).steps world p k = s.steps world p k := by
  induction k with
  | zero => rfl
  | succ k ih => rw [steps, steps, ih, step?_only hb hOwn hp]

theorem ends_only {l : Nat} {p : Place} (hp : topOf p = some n) (o : Outcome) :
    (s.only world n).Ends world l p o ↔ s.Ends world l p o := by
  have hTurn : ∀ {x r}, s.Turns world l p x r →
      ((s.only world n).turned world l x r).turn = (s.turned world l x r).turn :=
    fun hTurns => (Frames.turn_congr hb hTurns.driven.2 _ _).1
  constructor
  · rintro ⟨x, r, hJob, hFind, hEnd⟩
    have hTurns := (turns_only hb hOwn hp x r).mp ⟨hJob, hFind⟩
    exact ⟨x, r, hTurns.job, hTurns.find, (hTurn hTurns).symm.trans hEnd⟩
  · rintro ⟨x, r, hJob, hFind, hEnd⟩
    have hTurns' := (turns_only hb hOwn hp x r).mpr ⟨hJob, hFind⟩
    exact ⟨x, r, hTurns'.job, hTurns'.find, (hTurn ⟨hJob, hFind⟩).trans hEnd⟩

theorem parks_only {l : Nat} {p : Place} (hp : topOf p = some n) :
    (s.only world n).Parks world l p ↔ s.Parks world l p := by
  rw [Parks, Parks, job?_only_of_top hb hOwn (.check p) hp,
    (beside hb hOwn l).1.nodes p hp]

theorem called_only {k : Nat} {x : Place} (hx : topOf x = some n) (o : Outcome) :
    .called x o ∈ ((s.only world n).after world k).log ↔ .called x o ∈ (s.after world k).log := by
  rw [called_log, called_log]
  exact exists_congr fun j => and_congr Iff.rfl (job?_only_of_top hb hOwn (.deliver x o) hx)

theorem calls_only {k : Nat} {x : Place} (hx : topOf x = some n) :
    ((s.only world n).after world k).calls x = (s.after world k).calls x := by
  by_cases hCalled : ∃ o, .called x o ∈ (s.after world k).log
  · obtain ⟨o, hCalled⟩ := hCalled
    rw [calls_eq_singleton hCalled, calls_eq_singleton ((called_only hb hOwn hx o).mpr hCalled)]
  · have hNone : ∀ o, o ∉ (s.after world k).calls x :=
      fun o ho => hCalled ⟨o, History.mem_calls.mp ho⟩
    rw [List.eq_nil_iff_forall_not_mem.mpr hNone]
    refine List.eq_nil_iff_forall_not_mem.mpr fun o ho => hCalled ⟨o, ?_⟩
    exact (called_only hb hOwn hx o).mp (History.mem_calls.mp ho)

theorem escaped_only {i k : Nat} (hStart : s.Starts world i [n]) (e : Failure) :
    .escaped n e ∈ ((s.only world n).after world k).log ↔ .escaped n e ∈ (s.after world k).log := by
  obtain ⟨recipe, args, limit, hLimit, hJob⟩ := hStart
  have hJob' := (job?_only_of_top hb hOwn (n := n) (.start [n] recipe args limit) rfl).mpr
    hJob
  rw [escapes_iff ⟨recipe, args, limit, hLimit, hJob'⟩ rfl,
    escapes_iff ⟨recipe, args, limit, hLimit, hJob⟩ rfl]
  have hTop : topOf [n] = some n := rfl
  simp only [ends_only hb hOwn hTop, parks_only hb hOwn hTop]

theorem held_only {k : Nat} {x : Place} :
    x ∈ ((s.only world n).after world k).machine.held.map Held.place ↔
      x ∈ (s.after world k).machine.held.map Held.place ∧ topOf x = some n := by
  rw [(beside hb hOwn k).1.held, List.mem_map, List.mem_map]
  constructor
  · rintro ⟨e, he, rfl⟩
    obtain ⟨hMem, hTop⟩ := mem_heldOf.mp he
    exact ⟨⟨e, hMem, rfl⟩, hTop⟩
  · rintro ⟨⟨e, hMem, rfl⟩, hTop⟩
    exact ⟨e, mem_heldOf.mpr ⟨hMem, hTop⟩, rfl⟩

theorem takes_only {k : Nat} {x : Place} {o : Outcome} :
    (s.only world n).Takes world k x o ↔ s.Takes world k x o ∧ topOf x = some n := by
  have hOnly : s.only world n k = (s k).only n (s.after world k) := rfl
  constructor
  · rintro (⟨hMove, hMem⟩ | ⟨c, others, hJob, rfl, hTake⟩)
    · obtain ⟨hMem, hTop⟩ := (held_only hb hOwn).mp hMem
      refine ⟨?_, hTop⟩
      rw [hOnly] at hMove
      cases hMove' : s k with
      | work =>
        rw [hMove'] at hMove
        obtain ⟨c, rest, others, hAgenda, hTake, rfl⟩ := poke_of_only hMove
        exact Or.inr ⟨c, others, (s.job?_eq_some world).mpr ⟨hMove', rest, hAgenda⟩, rfl, hTake⟩
      | call y o' =>
        rw [hMove', Move.only] at hMove
        split at hMove
        · cases hMove
          exact Or.inl ⟨hMove', hMem⟩
        · cases hMove
      | begin | drop =>
        rw [hMove', Move.only] at hMove
        split at hMove <;> cases hMove
    · obtain ⟨hJob, rest, hAgenda, hOwner⟩ := (job?_only hb hOwn (by simp)).mp hJob
      rw [(beside hb hOwn k).1.held] at hTake
      have hMem := mem_held_of_takeKeyed hTake
      have hMove := ((s.job?_eq_some world).mp hJob).1
      obtain ⟨others', hTake'⟩ := takeKeyed_of_heldOf (hOwn k hMove c rest hAgenda hOwner) hTake
      exact ⟨Or.inr ⟨c, others', hJob, rfl, hTake'⟩, (mem_heldOf.mp hMem).2⟩
  · rintro ⟨⟨hMove, hMem⟩ | ⟨c, others, hJob, rfl, hTake⟩, hTop⟩
    · refine Or.inl ⟨?_, (held_only hb hOwn).mpr ⟨hMem, hTop⟩⟩
      rw [hOnly, hMove, Move.only, if_pos hTop]
    · obtain ⟨hMove, rest, hAgenda⟩ := (s.job?_eq_some world).mp hJob
      by_cases hOwner : owner? (.poke c :: rest) = some n
      · refine Or.inr ⟨c, heldOf n others, ?_, rfl, ?_⟩
        · exact (job?_only hb hOwn (by simp)).mpr ⟨hJob, rest, hAgenda, hOwner⟩
        · rw [(beside hb hOwn k).1.held]
          exact takeKeyed_heldOf hTake hTop
      · refine Or.inl ⟨?_, (held_only hb hOwn).mpr ⟨?_, hTop⟩⟩
        · rw [hOnly, hMove, Move.only, hAgenda]
          dsimp only
          rw [if_neg hOwner, hTake]
          exact if_pos hTop
        · exact List.mem_map.mpr ⟨_, mem_held_of_takeKeyed hTake, rfl⟩

theorem drops_only {k : Nat} {x : Place} :
    (s.only world n k = .drop x ∧
      x ∈ ((s.only world n).after world k).machine.held.map Held.place) ↔
      (s k = .drop x ∧ x ∈ (s.after world k).machine.held.map Held.place) ∧ topOf x = some n := by
  have hOnly : s.only world n k = (s k).only n (s.after world k) := rfl
  rw [held_only hb hOwn, hOnly]
  constructor
  · rintro ⟨hMove, hMem, hTop⟩
    refine ⟨⟨?_, hMem⟩, hTop⟩
    cases hMove' : s k with
    | work =>
      rw [hMove'] at hMove
      rw [drop_of_only hMove] at hTop
      cases hTop
    | drop y =>
      rw [hMove', Move.only] at hMove
      split at hMove
      · exact hMove
      · cases hMove
        cases hTop
    | begin | call =>
      rw [hMove', Move.only] at hMove
      split at hMove
      · cases hMove
      · cases hMove
        cases hTop
  · rintro ⟨⟨hMove, hMem⟩, hTop⟩
    refine ⟨?_, hMem, hTop⟩
    rw [hMove, Move.only, if_pos hTop]

end

end Schedule

/-! ## The call that begins the run -/

/-- A job that goes on with the top-level run `n` itself. -/
inductive Job.AtTop (n : Nat) : Job b → Prop where
  | start {recipe : b.Recipe} {args : List Datum} {limit : Nat} :
      AtTop n (.start [n] recipe args limit)
  | drive {x : Input} : AtTop n (.drive [n] x)
  | check : AtTop n (.check [n])
  | deliver {o : Outcome} : AtTop n (.deliver [n] o)
  | drop : AtTop n (.drop [n])

theorem Job.AtTop.owner {n : Nat} {job : Job b} (h : job.AtTop n) (rest : List (Job b)) :
    owner? (job :: rest) = some n := by
  cases h <;> rfl

theorem History.Sound.atTop_done {h : History b} (hs : h.Sound) {n : Nat} {job : Job b}
    {rest : List (Job b)} (hAgenda : h.machine.agenda = job :: rest) (hTop : job.AtTop n) :
    (h.afterJob job rest).machine.agenda = rest ∨ ∃ front job', job'.AtTop n ∧
      (h.afterJob job rest).machine.agenda = front ++ job' :: rest := by
  cases hTop with
  | @start recipe args limit =>
    right
    rcases Nat.eq_zero_or_pos limit with rfl | hLimit
    · refine ⟨[], .deliver [n] (.error (.tooDeep 0)), .deliver, ?_⟩
      exact congrArg (·.2.agenda)
        (Machine.perform_start_zero (m := { h.machine with agenda := rest }) rfl)
    · exact ⟨[], _, .drive, (History.does_start hLimit rest).agenda⟩
  | @drive x =>
    obtain ⟨r, hDriven⟩ := hs.driven hAgenda
    cases hs.run_step hAgenda hDriven.find with
    | elsewhere hSite => exact absurd rfl hSite
    | next _ _ hDoes => exact Or.inr ⟨[], _, .drive, hDoes.agenda⟩
    | await _ _ hDoes => exact Or.inr ⟨[_], _, .check, hDoes.agenda⟩
    | finish _ _ _ hDoes => exact Or.inr ⟨[], _, .deliver, hDoes.agenda⟩
    | escape _ _ _ _ _ hDoes => exact Or.inl hDoes.agenda
  | check =>
    obtain ⟨r, u, mail, hChecked⟩ := hs.checked hAgenda
    cases hs.run_step hAgenda hChecked.find with
    | elsewhere hSite => exact absurd rfl hSite
    | park _ hDoes => exact Or.inl hDoes.agenda
    | resume _ hDoes => exact Or.inr ⟨[], _, .drive, hDoes.agenda⟩
    | giveUp _ hDoes => exact Or.inr ⟨[], _, .drop, hDoes.agenda⟩
  | deliver =>
    exact Or.inl (congrArg (·.2.agenda)
      (Machine.perform_deliver_top (m := { h.machine with agenda := rest }) hs.find?_nil _))
  | drop =>
    exact Or.inl (congrArg (·.2.agenda)
      (Machine.perform_drop_top (m := { h.machine with agenda := rest }) hs.find?_nil))

namespace Schedule

variable {s : Schedule b} {world : b.World}

theorem atTop_or_returns {i k n : Nat} {recipe : b.Recipe} {args : List Datum} {limit : Nat}
    {rest : List (Job b)} (hStart : s.job? world i = some (.start [n] recipe args limit))
    (hAgenda : (s.after world i).machine.agenda = .start [n] recipe args limit :: rest)
    (hik : i < k) : (∃ m ≤ k, s.Returns world i m) ∨ ∃ front job, job.AtTop n ∧
      (s.after world k).machine.agenda = front ++ job :: rest := by
  have hOver : ∀ {k}, i < k → (s.after world k).machine.agenda = rest →
      ∃ m ≤ k, s.Returns world i m := by
    intro k hik hRest
    rcases above_or_returns hik hAgenda with ⟨front, hFront, hAbove⟩ | ⟨m, hm, hReturns, -⟩
    · rw [hRest] at hAbove
      exact absurd (List.self_eq_append_left.mp hAbove) hFront
    · exact ⟨m, hm, hReturns⟩
  induction hik with
  | refl =>
    rw [s.after_succ_at world hStart hAgenda]
    rcases (s.sound world i).atTop_done hAgenda .start with hRest | hNext
    · exact Or.inl (hOver (Nat.lt_succ_self i) (by rwa [s.after_succ_at world hStart hAgenda]))
    · exact Or.inr hNext
  | @step k hik ih =>
    rcases ih with ⟨m, hm, hReturns⟩ | ⟨front, job, hTop, hNow⟩
    · exact Or.inl ⟨m, Nat.le_succ_of_le hm, hReturns⟩
    · rcases s.after_succ world k with ⟨first, below, hFirst, hNow', hAfter⟩ | ⟨-, put, hAdded⟩
      · rw [hNow] at hNow'
        cases front with
        | nil =>
          obtain ⟨rfl, rfl⟩ := List.cons.inj hNow'
          rcases (s.sound world k).atTop_done hNow hTop with hRest | hNext
          · exact Or.inl (hOver (Nat.lt_succ_of_lt hik) (by rwa [hAfter]))
          · rw [hAfter]
            exact Or.inr hNext
        | cons first' front =>
          obtain ⟨rfl, rfl⟩ := List.cons.inj hNow'
          obtain ⟨put, hPut⟩ := agenda_above (List.cons_ne_nil first' front) hNow
          exact Or.inr ⟨put, job, hTop, hPut⟩
      · refine Or.inr ⟨put ++ front, job, hTop, ?_⟩
        rw [hAdded.agenda, hNow, List.append_assoc]

theorem Returns.unique {c k k' : Nat} (h : s.Returns world c k) (h' : s.Returns world c k') :
    k = k' := by
  have hOrder : ∀ {k k'}, s.Returns world c k → s.Returns world c k' → ¬ k < k' := by
    rintro k k' ⟨hck, rest, ⟨⟨job, hAgenda⟩, -⟩, hEnd⟩
      ⟨-, rest', ⟨⟨job', hAgenda'⟩, hLasts⟩, -⟩ hkk'
    rw [hAgenda] at hAgenda'
    obtain ⟨-, rfl⟩ := List.cons.inj hAgenda'
    obtain ⟨front, hFront, hAbove⟩ := hLasts k hck hkk'
    rw [hEnd] at hAbove
    exact hFront (List.self_eq_append_left.mp hAbove)
  exact Nat.le_antisymm (Nat.le_of_not_lt (hOrder h' h)) (Nat.le_of_not_lt (hOrder h h'))

theorem length_jobsOf_le (n : Nat) (front rest : List (Job b)) :
    (jobsOf n rest).length ≤ (jobsOf n (front ++ rest)).length := by
  induction front with
  | nil => exact Nat.le_refl _
  | cons job front ih =>
    rw [List.cons_append, jobsOf]
    split
    · exact Nat.le_succ_of_le ih
    · exact ih

theorem length_jobsOf_lt {n : Nat} {job : Job b} (hTop : job.AtTop n) (front rest : List (Job b)) :
    (jobsOf n rest).length < (jobsOf n (front ++ job :: rest)).length := by
  refine Nat.lt_of_lt_of_le ?_ (length_jobsOf_le n front _)
  rw [jobsOf_of_owner (hTop.owner rest)]
  exact Nat.lt_succ_self _

section

variable (hb : b.Unshared) {i n : Nat} (hOwn : s.OwnFirst world n) {recipe : b.Recipe}
  {args : List Datum} {limit : Nat}
  (hStart : s.job? world i = some (.start [n] recipe args limit))
include hb hOwn hStart

theorem returns_only (k : Nat) : (s.only world n).Returns world i k ↔ s.Returns world i k := by
  have hStart' := (job?_only_of_top hb hOwn (n := n) (.start [n] recipe args limit) rfl).mpr
    hStart
  obtain ⟨rest, hAgenda, -⟩ := s.after_succ_of_job world hStart
  obtain ⟨rest', hAgenda', -⟩ := (s.only world n).after_succ_of_job world hStart'
  have hLength : ∀ k, ((s.only world n).after world k).machine.agenda.length =
      (jobsOf n (s.after world k).machine.agenda).length := by
    intro k
    simpa using congrArg List.length (beside hb hOwn k).1.agenda
  have hRest : rest'.length = (jobsOf n rest).length := by
    have hNow := hLength i
    rw [hAgenda, hAgenda', jobsOf_of_owner (Job.AtTop.start.owner rest)] at hNow
    exact Nat.succ.inj hNow
  have hGoes : ∀ {k}, s.Returns world i k → (s.only world n).Returns world i k := by
    intro k hReturns
    have hEnd := agenda_of_returns hReturns hAgenda
    rcases above_or_returns hReturns.1 hAgenda' with
      ⟨front, hFront, hAbove⟩ | ⟨m, hmk, hOver, hEnd'⟩
    · have hNow := hLength k
      rw [hAbove, hEnd, List.length_append, hRest] at hNow
      exact absurd (List.length_eq_zero_iff.mp (by omega)) hFront
    · rcases atTop_or_returns hStart hAgenda hOver.1 with
        ⟨m', hm', hReturns'⟩ | ⟨front, job, hTop, hNow⟩
      · obtain rfl := hReturns'.unique hReturns
        obtain rfl := Nat.le_antisymm hm' hmk
        exact hOver
      · have hLess := length_jobsOf_lt hTop front rest
        rw [← hNow, ← hLength m, hEnd', hRest] at hLess
        exact absurd hLess (Nat.lt_irrefl _)
  refine ⟨fun hOver => ?_, hGoes⟩
  rcases atTop_or_returns hStart hAgenda hOver.1 with ⟨m, hmk, hReturns⟩ | ⟨front, job, hTop, hNow⟩
  · obtain rfl := (hGoes hReturns).unique hOver
    exact hReturns
  · have hLess := length_jobsOf_lt hTop front rest
    rw [← hNow, ← hLength k, agenda_of_returns hOver hAgenda', hRest] at hLess
    exact absurd hLess (Nat.lt_irrefl _)

end

/-! ## Independence -/

variable (s world)

/-- The top-level run `n` fares in `s` as it does in `s'`, where no other run is begun and nothing
of one is ever there. It is begun at the same moment and in the same way. Its operations are
completed with the same outcomes at the same moments, and its continuations dropped at the same
moments. At each moment it has got equally far, and so has all that it has started: their frames are
stepped in the same order with the same inputs, and answer the same. The call that begins it returns
at the same moment, with the same error, or with none in both cases. The outcomes of all that it has
started are handed over as often, and are the same. An error that it ends with after it was parked
is handed over in the call that woke it, and nothing escapes. -/
structure Undisturbed (s' : Schedule b) (n : Nat) : Prop where
  begins : ∀ k m recipe args limit,
    s' k = .begin m recipe args limit ↔ m = n ∧ s k = .begin m recipe args limit
  alone : ∀ k p, topOf p ≠ some n → (s'.after world k).machine.nodes.find? p = none
  completes : ∀ k x o, s'.Takes world k x o ↔ s.Takes world k x o ∧ topOf x = some n
  drops : ∀ k x, (s' k = .drop x ∧ x ∈ (s'.after world k).machine.held.map Held.place) ↔
    (s k = .drop x ∧ x ∈ (s.after world k).machine.held.map Held.place) ∧ topOf x = some n
  stands : ∀ k p, topOf p = some n →
    (s'.after world k).machine.nodes.find? p = (s.after world k).machine.nodes.find? p
  steps : ∀ k p, topOf p = some n → s'.steps world p k = s.steps world p k
  returns : ∀ i recipe args limit, s.job? world i = some (.start [n] recipe args limit) →
    ∀ k, s'.Returns world i k ↔ s.Returns world i k
  escapes : ∀ i, s.Starts world i [n] → ∀ k e,
    .escaped n e ∈ (s'.after world k).log ↔ .escaped n e ∈ (s.after world k).log
  delivers : ∀ k x, topOf x = some n → (s'.after world k).calls x = (s.after world k).calls x
  uncaught : ∀ i l e, s.Starts world i [n] → s.Ends world l [n] (.error e) →
    (∃ j < l, s.Parks world j [n]) → (∀ k e', .escaped n e' ∉ (s.after world k).log) ∧
      ∃ c, s.Wakes world c [n] ∧ s.LastCall world i [n] c l ∧ ∀ k, l < k →
        (s.Inside world c k ∧ .deliver [n] (.error e) ∈ (s.after world k).machine.agenda) ∨
          ∃ d, d < k ∧ s.Inside world c d ∧ s.job? world d = some (.deliver [n] (.error e)) ∧
            (s.after world k).calls [n] = [.error e]

variable {s world}

theorem uncaught_of_parked {i l n : Nat} {e : Failure} (hStart : s.Starts world i [n])
    (hEnds : s.Ends world l [n] (.error e)) (hParked : ∃ j < l, s.Parks world j [n]) :
    (∀ k e', .escaped n e' ∉ (s.after world k).log) ∧
      ∃ c, s.Wakes world c [n] ∧ s.LastCall world i [n] c l ∧ ∀ k, l < k →
        (s.Inside world c k ∧ .deliver [n] (.error e) ∈ (s.after world k).machine.agenda) ∨
          ∃ d, d < k ∧ s.Inside world c d ∧ s.job? world d = some (.deliver [n] (.error e)) ∧
            (s.after world k).calls [n] = [.error e] := by
  obtain ⟨j, hj, hParks⟩ := hParked
  refine ⟨fun k e' hEscaped => ?_, ?_⟩
  · obtain ⟨l', -, hEnds', -, hNever⟩ := (escapes_iff hStart rfl).mp hEscaped
    obtain ⟨rfl, -⟩ := ends_unique hEnds hEnds'
    exact hNever j hj hParks
  · rcases standing_of_ends hStart hEnds (Nat.lt_succ_self l) with ⟨-, c, hCall, -⟩ | hEscaped
    · have hWakes : s.Wakes world c [n] := by
        rcases hCall.kind with ⟨-, hNever⟩ | ⟨hWakes, -⟩
        · exact absurd hParks (hNever j hj)
        · exact hWakes
      refine ⟨c, hWakes, hCall, fun k hlk => ?_⟩
      rcases standing_of_ends hStart hEnds hlk with ⟨-, c', hCall', hHow⟩ | hEscaped
      · obtain rfl := hCall.unique hCall'
        rcases hHow with hPending | ⟨d, -, hdk, hInside, hJob⟩
        · exact Or.inl ⟨hPending.inside, hPending.mem⟩
        · refine Or.inr ⟨d, hdk, hInside, hJob, ?_⟩
          exact calls_eq_singleton ((s.called_log world).mpr ⟨d, hdk, hJob⟩)
      · obtain ⟨-, -, -, -, -, hNever, -⟩ := hEscaped
        exact absurd hParks (hNever j hj)
    · obtain ⟨-, -, -, -, -, hNever, -⟩ := hEscaped
      exact absurd hParks (hNever j hj)

/-- Runs that share nothing do not disturb each other, however their starts and the completions of
their operations are interleaved. -/
theorem undisturbed (hb : b.Unshared) (n : Nat) (hOwn : s.OwnFirst world n) :
    s.Undisturbed world (s.only world n) n where
  begins _ _ _ _ _ := begin_only
  alone k p hp := (beside hb hOwn k).1.others p hp
  completes _ _ _ := takes_only hb hOwn
  drops _ _ := drops_only hb hOwn
  stands k p hp := (beside hb hOwn k).1.nodes p hp
  steps k _ hp := steps_only hb hOwn hp k
  returns _ _ _ _ hStart k := returns_only hb hOwn hStart k
  escapes _ hStart _ e := escaped_only hb hOwn hStart e
  delivers _ _ hx := calls_only hb hOwn hx
  uncaught _ _ _ hStart hEnds hParked := uncaught_of_parked hStart hEnds hParked

end Schedule

/-! ## An example -/

inductive Signal where
  | awaits
  | gives

namespace Signal

def behaviour : Behaviour where
  Recipe := Signal
  Body := Signal × Bool
  World := Unit
  Note := Empty
  make signal _ _ := ((signal, false), [], ())
  step body _ _ :=
    match body with
    | (awaits, false) =>
      (.wait (.single (.primitive ⟨[], .keep "signal", []⟩)), (awaits, true), [], ())
    | (awaits, true) => (.raise (.raised "signal"), (awaits, true), [], ())
    | (gives, false) =>
      (.wait (.single (.primitive ⟨[⟨"signal", .ok .null⟩], .complete (.ok .null), []⟩)),
        (gives, true), [], ())
    | (gives, true) => (.give .null, (gives, true), [], ())

theorem unshared : behaviour.Unshared := ⟨fun _ _ _ _ => rfl, fun _ _ _ _ => ⟨rfl, rfl⟩⟩

/-- The signal is awaited by the run number 0, and given by the run number 1. -/
def schedule : Schedule behaviour := fun k =>
  if k = 0 then .begin 0 awaits [] 1 else if k = 6 then .begin 1 gives [] 1 else .work

theorem schedule_work {k : Nat} (hk : 7 ≤ k) : schedule k = .work := by
  rw [schedule, if_neg (by omega), if_neg (by omega)]

theorem schedule_rest : (schedule.after () 20).AtRest := by
  rw [History.AtRest]
  cbv

theorem held_schedule (k : Nat) : (schedule.after () k).machine.held.length ≤ 1 := by
  have hBegin : (List.range 21).all
      (fun k => (schedule.after () k).machine.held.length ≤ 1) = true := by cbv
  have hFew : ∀ k < 21, (schedule.after () k).machine.held.length ≤ 1 := by
    simpa [List.all_eq_true] using hBegin
  rcases Nat.lt_or_ge k 21 with hk | hk
  · exact hFew k hk
  · rw [schedule.after_of_rest () schedule_rest (fun j hj => schedule_work (by omega))
      (by omega : 20 ≤ k)]
    exact hFew 20 (by decide)

theorem ownFirst (n : Nat) : schedule.OwnFirst () n := by
  intro k _ _ _ _ _ x others hTake e he _
  obtain ⟨hMem, hTop⟩ := mem_heldOf.mp he
  obtain ⟨i, hi, hPoked⟩ := List.getElem_of_mem (mem_held_of_takeKeyed hTake)
  obtain ⟨i', hi', hOwn⟩ := List.getElem_of_mem hMem
  have hFew := held_schedule k
  obtain rfl : i = i' := by omega
  obtain rfl := hPoked.symm.trans hOwn
  exact hTop

/-- The run that awaits the signal is woken inside the run that gives it, and fails there. The other
run comes to its end all the same. -/
theorem undisturbed_signal : schedule.Undisturbed () (schedule.only () 1) 1 ∧
    schedule.Undisturbed () (schedule.only () 0) 0 ∧
    (schedule.after () 20).calls [0] = [.error (.raised "signal")] ∧
    (schedule.after () 20).calls [1] = [.ok .null] :=
  ⟨Schedule.undisturbed unshared 1 (ownFirst 1), Schedule.undisturbed unshared 0 (ownFirst 0),
    by cbv, by cbv⟩

end Signal

end Interlace
