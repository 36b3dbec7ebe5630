import Interlace.Proofs.Calls

/-!
# Where jobs come from

A job on the agenda was put there by a job before it, or by an act from outside. So whatever is
called was handed, as a continuation, to some work before.
-/

namespace Interlace

variable {b : Behaviour}

namespace Machine

/-- One job may put another one on the agenda. -/
inductive Brings (m : Machine b) : Job b → Job b → Prop where
  | first {p : Place} {recipe : b.Recipe} {args : List Datum} {limit : Nat} :
      Brings m (.start p recipe args limit) (.drive p .start)
  | refused {p : Place} {recipe : b.Recipe} {args : List Datum} :
      Brings m (.start p recipe args 0) (.deliver p (.error (.tooDeep 0)))
  | next {p : Place} {x y : Input} {r : Run b} (hFind : m.nodes.find? p = some (.run r))
      (hTurn : (r.frames.turn b x m.world).turn = .next y) : Brings m (.drive p x) (.drive p y)
  | work {p : Place} {x : Input} {r : Run b} {work : Work b.Recipe b.Note} {u : Uptake}
      (hFind : m.nodes.find? p = some (.run r))
      (hTurn : (r.frames.turn b x m.world).turn = .await work u) :
      Brings m (.drive p x) (.invoke (r.wait :: p) work)
  | check {p : Place} {x : Input} {r : Run b} {work : Work b.Recipe b.Note} {u : Uptake}
      (hFind : m.nodes.find? p = some (.run r))
      (hTurn : (r.frames.turn b x m.world).turn = .await work u) : Brings m (.drive p x) (.check p)
  | finish {p : Place} {x : Input} {r : Run b} {o : Outcome}
      (hFind : m.nodes.find? p = some (.run r))
      (hTurn : (r.frames.turn b x m.world).turn = .finished o) :
      Brings m (.drive p x) (.deliver p o)
  | resume {p : Place} {r : Run b} {u : Uptake} {o : Outcome}
      (hFind : m.nodes.find? p = some (.run r)) (hPhase : r.phase = .invoking u (.outcome o)) :
      Brings m (.check p) (.drive p (u.apply o))
  | giveUp {p : Place} : Brings m (.check p) (.drop p)
  | fate {p : Place} {w : Primitive} : Brings m (.invoke p (.primitive w)) (fateJob p w.fate)
  | poke {p : Place} {w : Primitive} {k : Poke} (hPoke : k ∈ w.before ++ w.after) :
      Brings m (.invoke p (.primitive w)) (.poke k)
  | noted {p : Place} {note : b.Note} {work : Work b.Recipe b.Note} :
      Brings m (.invoke p (.noted note work)) (.invoke p work)
  | nothing {p : Place} : Brings m (.invoke p (.gather [])) (.deliver p (.ok (.list [])))
  | items {p : Place} {w : Work b.Recipe b.Note} {ws : List (Work b.Recipe b.Note)} :
      Brings m (.invoke p (.gather (w :: ws))) (.items p 0 (w :: ws))
  | nested {p : Place} {limit : Nat} {recipe : b.Recipe} :
      Brings m (.invoke p (.nested limit recipe)) (.start p recipe [] limit)
  | item {p : Place} {index : Nat} {w : Work b.Recipe b.Note} {ws : List (Work b.Recipe b.Note)} :
      Brings m (.items p index (w :: ws)) (.invoke (index :: p) w)
  | more {p : Place} {index : Nat} {w : Work b.Recipe b.Note} {ws : List (Work b.Recipe b.Note)} :
      Brings m (.items p index (w :: ws)) (.items p (index + 1) ws)
  | found {k : Poke} {p : Place} {others : List Held}
      (hTake : takeKeyed k.key m.held = some (p, others)) :
      Brings m (.poke k) (.deliver p k.outcome)
  | tell {k : Poke} {found : Bool} : Brings m (.poke k) (.tell k.key found)
  | wake {p : Place} {r : Run b} {u : Uptake} {o : Outcome}
      (hFind : m.nodes.find? p = some (.run r)) (hPhase : r.phase = .parked u) :
      Brings m (.deliver (r.wait :: p) o) (.drive p (u.apply o))
  | answer {q : Place} {n : Nat} {g g' : Gather} {o o' : Outcome}
      (hFind : m.nodes.find? q = some (.gather g)) (hReport : g.report n o = (.done o', g')) :
      Brings m (.deliver (n :: q) o) (.deliver q o')
  | drop {job : Job b} {p : Place} (hSite : job.site = some p) : Brings m job (.drop p)

variable {m : Machine b} {rest : List (Job b)} {job' : Job b}

theorem brings_of_finish {p : Place} {wasParked : Bool} {o : Outcome}
    (h : job' ∈ (m.finish p wasParked o).2.agenda) :
    job' = .deliver p o ∨ job' ∈ m.agenda := by
  revert h
  fun_cases finish m p wasParked o with
  | case1 => exact Or.inr
  | case2 | case3 => exact List.mem_cons.mp

theorem brings_of_drive {p : Place} {x : Input}
    (h : job' ∈ ({ m with agenda := rest }.drive p x).2.agenda) :
    job' ∈ rest ∨ m.Brings (.drive p x) job' := by
  rw [drive] at h
  cases hFind : m.nodes.find? p with
  | none =>
    rw [run?, hFind] at h
    exact Or.inl h
  | some node =>
    cases node with
    | gather g =>
      rw [run?, hFind] at h
      exact Or.inl h
    | run r =>
      simp only [run?, hFind] at h
      cases hTurn : (r.frames.turn b x m.world).turn with
      | next y =>
        rw [hTurn] at h
        rcases List.mem_cons.mp h with rfl | h
        · exact Or.inr (.next hFind hTurn)
        · exact Or.inl h
      | await work u =>
        rw [hTurn] at h
        rcases List.mem_cons.mp h with rfl | h
        · exact Or.inr (.work hFind hTurn)
        · rcases List.mem_cons.mp h with rfl | h
          · exact Or.inr (.check hFind hTurn)
          · exact Or.inl h
      | finished o =>
        rw [hTurn] at h
        rcases brings_of_finish h with rfl | h
        · exact Or.inr (.finish hFind hTurn)
        · exact Or.inl h
      | fault f =>
        rw [hTurn] at h
        exact Or.inl h

theorem brings_of_invoke {p : Place} {work : Work b.Recipe b.Note}
    (h : job' ∈ ({ m with agenda := rest }.invoke p work).2.agenda) :
    job' ∈ rest ∨ m.Brings (.invoke p work) job' := by
  cases work with
  | primitive w =>
    have hPut : job' ∈ w.before.map Job.poke ++
        fateJob p w.fate :: w.after.map (Job.poke (b := b)) ++ rest := h
    simp only [List.mem_append, List.mem_cons, List.mem_map] at hPut
    rcases hPut with (⟨k, hk, rfl⟩ | rfl | ⟨k, hk, rfl⟩) | hRest
    · exact Or.inr (.poke (List.mem_append_left _ hk))
    · exact Or.inr .fate
    · exact Or.inr (.poke (List.mem_append_right _ hk))
    · exact Or.inl hRest
  | noted note work =>
    rcases List.mem_cons.mp h with rfl | h
    · exact Or.inr .noted
    · exact Or.inl h
  | gather items =>
    cases items with
    | nil =>
      rcases List.mem_cons.mp h with rfl | h
      · exact Or.inr .nothing
      · exact Or.inl h
    | cons w ws =>
      rcases List.mem_cons.mp h with rfl | h
      · exact Or.inr .items
      · exact Or.inl h
  | nested limit recipe =>
    rcases List.mem_cons.mp h with rfl | h
    · exact Or.inr .nested
    · exact Or.inl h

theorem mem_agenda_release {q : Place} {g : Gather} (h : job' ∈ (m.release q g).agenda) :
    job' = .drop q ∨ job' ∈ m.agenda := by
  rw [release_eq] at h
  rcases List.mem_append.mp h with h | h
  · rw [Gather.dropped] at h
    split at h
    · exact Or.inl (List.mem_singleton.mp h)
    · cases h
  · exact Or.inr h

theorem brings_of_deliver {x : Place} {o : Outcome}
    (h : job' ∈ ({ m with agenda := rest }.deliver x o).2.agenda) :
    job' ∈ rest ∨ m.Brings (.deliver x o) job' := by
  cases x with
  | nil => exact Or.inl h
  | cons n q =>
    rw [deliver] at h
    dsimp only at h
    cases hFind : m.nodes.find? q with
    | none =>
      rw [hFind] at h
      exact Or.inl h
    | some node =>
      rw [hFind] at h
      cases node with
      | run r =>
        simp only [deliverRun] at h
        by_cases hWait : n = r.wait
        case neg =>
          rw [if_neg hWait] at h
          exact Or.inl h
        rw [if_pos hWait] at h
        cases hPhase : r.phase with
        | driving =>
          rw [hPhase] at h
          exact Or.inl h
        | invoking u mail =>
          rw [hPhase] at h
          cases mail <;> exact Or.inl h
        | parked u =>
          rw [hPhase] at h
          rcases List.mem_cons.mp h with rfl | h
          · exact Or.inr (hWait ▸ .wake hFind hPhase)
          · exact Or.inl h
      | gather g =>
        simp only [deliverGather] at h
        rcases hReport : g.report n o with ⟨settlement, g'⟩
        rw [hReport] at h
        have hRelease : job' ∈ ({ m with agenda := rest }.release q g').agenda →
            job' ∈ rest ∨ m.Brings (.deliver (n :: q) o) job' := by
          intro hMem
          rcases mem_agenda_release hMem with rfl | hMem
          · exact Or.inr (.drop rfl)
          · exact Or.inl hMem
        cases settlement with
        | pending | discarded | fault => exact hRelease h
        | done o' =>
          rcases List.mem_cons.mp h with rfl | h
          · exact Or.inr (.answer hFind hReport)
          · exact hRelease h

theorem brings_of_drop {x : Place}
    (h : job' ∈ ({ m with agenda := rest }.drop x).2.agenda) :
    job' ∈ rest ∨ m.Brings (.drop x) job' := by
  cases x with
  | nil => exact Or.inl h
  | cons n q =>
    rw [drop] at h
    dsimp only at h
    cases hFind : m.nodes.find? q with
    | none =>
      rw [hFind] at h
      exact Or.inl h
    | some node =>
      rw [hFind] at h
      cases node with
      | run r =>
        revert h
        dsimp only
        fun_cases dropRun { m with agenda := rest } q n r with
        | case1 | case3 | case4 => exact Or.inl
        | case2 =>
          intro h
          rcases List.mem_cons.mp h with rfl | h
          · exact Or.inr (.drop rfl)
          · exact Or.inl h
      | gather g =>
        rcases mem_agenda_release h with rfl | h
        · exact Or.inr (.drop rfl)
        · exact Or.inl h

theorem brings_of_mem {job : Job b} (h : job' ∈ ({ m with agenda := rest }.perform job).2.agenda) :
    job' ∈ rest ∨ m.Brings job job' := by
  cases job with
  | start p recipe args limit =>
    rcases hMake : b.make recipe args m.world with ⟨body, notes, world⟩
    cases limit with
    | zero =>
      rw [perform_start_zero (m := { m with agenda := rest }) hMake] at h
      rcases List.mem_cons.mp h with rfl | h
      · exact Or.inr .refused
      · exact Or.inl h
    | succ limit =>
      rw [perform_start (m := { m with agenda := rest }) (Nat.succ_pos limit) hMake] at h
      rcases List.mem_cons.mp h with rfl | h
      · exact Or.inr .first
      · exact Or.inl h
  | drive p x => exact brings_of_drive h
  | invoke p work => exact brings_of_invoke h
  | check p =>
    have hCheck : job' ∈ ({ m with agenda := rest }.check p).2.agenda := h
    rw [check] at hCheck
    cases hFind : m.nodes.find? p with
    | none =>
      rw [run?, hFind] at hCheck
      exact Or.inl hCheck
    | some node =>
      cases node with
      | gather g =>
        rw [run?, hFind] at hCheck
        exact Or.inl hCheck
      | run r =>
        simp only [run?, hFind] at hCheck
        cases hPhase : r.phase with
        | driving | parked =>
          rw [hPhase] at hCheck
          exact Or.inl hCheck
        | invoking u mail =>
          rw [hPhase] at hCheck
          cases mail with
          | empty => exact Or.inl hCheck
          | outcome o =>
            rcases List.mem_cons.mp hCheck with rfl | hCheck
            · exact Or.inr (.resume hFind hPhase)
            · exact Or.inl hCheck
          | lost =>
            rcases List.mem_cons.mp hCheck with rfl | hCheck
            · exact Or.inr .giveUp
            · exact Or.inl hCheck
  | items p index ws =>
    cases ws with
    | cons w ws =>
      rcases List.mem_cons.mp h with rfl | h
      · exact Or.inr .item
      · rcases List.mem_cons.mp h with rfl | h
        · exact Or.inr .more
        · exact Or.inl h
    | nil =>
      have hItems : job' ∈ ({ m with agenda := rest }.items p index []).2.agenda := h
      rw [items] at hItems
      split at hItems
      · rcases mem_agenda_release hItems with rfl | hItems
        · exact Or.inr (.drop rfl)
        · exact Or.inl hItems
      · exact Or.inl hItems
  | hold p hold => exact Or.inl h
  | poke k =>
    cases hTake : takeKeyed k.key m.held with
    | none =>
      rw [perform_poke_none (m := { m with agenda := rest }) hTake] at h
      rcases List.mem_cons.mp h with rfl | h
      · exact Or.inr .tell
      · exact Or.inl h
    | some found =>
      obtain ⟨p, others⟩ := found
      rw [perform_poke (m := { m with agenda := rest }) hTake] at h
      rcases List.mem_cons.mp h with rfl | h
      · exact Or.inr (.found hTake)
      · rcases List.mem_cons.mp h with rfl | h
        · exact Or.inr .tell
        · exact Or.inl h
  | tell key found => exact Or.inl h
  | deliver x o => exact brings_of_deliver h
  | drop x => exact brings_of_drop h

/-! ## Continuations that are held -/

theorem held_release (q : Place) (g : Gather) : (m.release q g).held = m.held := by
  rw [release_eq]

theorem held_deliver (x : Place) (o : Outcome) : (m.deliver x o).2.held = m.held := by
  cases x with
  | nil => rfl
  | cons n q =>
    rw [deliver]
    dsimp only
    cases m.nodes.find? q with
    | none => rfl
    | some node =>
      cases node with
      | run r =>
        dsimp only
        fun_cases deliverRun m q n r o <;> rfl
      | gather g =>
        dsimp only [deliverGather]
        rcases g.report n o with ⟨settlement, g'⟩
        cases settlement <;> exact held_release q g'

theorem held_drop (x : Place) : (m.drop x).2.held = m.held := by
  cases x with
  | nil => rfl
  | cons n q =>
    rw [drop]
    dsimp only
    cases m.nodes.find? q with
    | none => rfl
    | some node =>
      cases node with
      | run r =>
        dsimp only
        fun_cases dropRun m q n r <;> rfl
      | gather g => exact held_release q g

theorem held_finish (p : Place) (wasParked : Bool) (o : Outcome) :
    (m.finish p wasParked o).2.held = m.held := by
  fun_cases finish m p wasParked o <;> rfl

theorem held_drive (p : Place) (x : Input) : (m.drive p x).2.held = m.held := by
  rw [drive]
  cases m.run? p with
  | none => rfl
  | some r =>
    dsimp only
    cases (r.frames.turn b x m.world).turn with
    | next | await | fault => rfl
    | finished o => exact held_finish p r.wasParked o

theorem held_perform {job : Job b} (hHold : ∀ p hold, job ≠ .hold p hold)
    (hPoke : ∀ k, job ≠ .poke k) : (m.perform job).2.held = m.held := by
  cases job with
  | start p recipe args limit =>
    rcases hMake : b.make recipe args m.world with ⟨body, notes, world⟩
    simp only [perform, start, hMake]
    cases (Frames.empty limit).push body <;> rfl
  | drive p x => exact held_drive p x
  | invoke p work =>
    change (m.invoke p work).2.held = _
    fun_cases invoke m p work <;> rfl
  | check p =>
    change (m.check p).2.held = _
    fun_cases check m p <;> rfl
  | items p index rest =>
    change (m.items p index rest).2.held = _
    fun_cases items m p index rest with
    | case1 | case3 => rfl
    | case2 g => exact held_release p g
  | hold p hold => exact absurd rfl (hHold p hold)
  | poke k => exact absurd rfl (hPoke k)
  | tell key found => rfl
  | deliver p o => exact held_deliver p o
  | drop p => exact held_drop p

end Machine

theorem takeKeyed_mem {key : String} {held others : List Held} {p : Place}
    (h : takeKeyed key held = some (p, others)) : others ⊆ held := by
  induction held generalizing p others with
  | nil =>
    rw [takeKeyed] at h
    cases h
  | cons e held ih =>
    have hNext : ∀ {p others}, takeKeyed.next key e held = some (p, others) →
        others ⊆ e :: held := by
      intro p others hNext
      rw [takeKeyed.next] at hNext
      obtain ⟨⟨p', others'⟩, hTake, hEq⟩ := Option.map_eq_some_iff.mp hNext
      obtain ⟨-, rfl⟩ := Prod.mk.inj hEq
      exact List.cons_subset_cons e (ih hTake)
    rw [takeKeyed] at h
    split at h
    · split at h
      · obtain ⟨-, rfl⟩ := Prod.mk.inj (Option.some.inj h)
        exact List.subset_cons_self e held
      · exact hNext h
    · exact hNext h

theorem takePlace_mem {p : Place} {held others : List Held} (h : takePlace p held = some others) :
    others ⊆ held := by
  rw [takePlace] at h
  split at h
  · cases h
    exact List.filter_subset_self _
  · cases h

theorem History.mem_held_move {h : History b} {mv : Move b} {e : Held}
    (hMem : e ∈ (h.move mv).machine.held) :
    e ∈ h.machine.held ∨ mv = .work ∧ h.machine.agenda.head? = some (.hold e.place e.hold) := by
  cases mv with
  | work =>
    cases hAgenda : h.machine.agenda with
    | nil =>
      simp only [move, hAgenda] at hMem
      exact Or.inl hMem
    | cons job rest =>
      simp only [move, hAgenda, afterJob] at hMem
      by_cases hHold : ∃ p hold, job = .hold p hold
      · obtain ⟨p, hold, rfl⟩ := hHold
        rcases List.mem_append.mp hMem with hMem | hMem
        · exact Or.inl hMem
        · rw [List.mem_singleton.mp hMem]
          exact Or.inr ⟨rfl, rfl⟩
      · by_cases hPoke : ∃ k, job = .poke k
        · obtain ⟨k, rfl⟩ := hPoke
          refine Or.inl ?_
          cases hTake : takeKeyed k.key h.machine.held with
          | none =>
            rw [Machine.perform_poke_none (m := { h.machine with agenda := rest }) hTake] at hMem
            exact hMem
          | some found =>
            rw [Machine.perform_poke (m := { h.machine with agenda := rest }) hTake] at hMem
            exact takeKeyed_mem hTake hMem
        · rw [Machine.held_perform (fun p hold hJob => hHold ⟨p, hold, hJob⟩)
            fun k hJob => hPoke ⟨k, hJob⟩] at hMem
          exact Or.inl hMem
  | begin n recipe args limit =>
    refine Or.inl ?_
    rw [move] at hMem
    split at hMem <;> exact hMem
  | call p o | drop p =>
    refine Or.inl ?_
    rw [move, afterAct, Machine.act] at hMem
    split at hMem
    · exact takePlace_mem ‹_› hMem
    · exact hMem

namespace Schedule

variable {s : Schedule b} {world : b.World}

inductive Admits (s : Schedule b) (world : b.World) (j : Nat) : Job b → Prop where
  | begin {n : Nat} {recipe : b.Recipe} {args : List Datum} {limit : Nat}
      (hMove : s j = .begin n recipe args limit) : Admits s world j (.start [n] recipe args limit)
  | call {x : Place} {o : Outcome} (hMove : s j = .call x o)
      (hHeld : x ∈ (s.after world j).machine.held.map Held.place) : Admits s world j (.deliver x o)
  | drop {x : Place} (hMove : s j = .drop x)
      (hHeld : x ∈ (s.after world j).machine.held.map Held.place) : Admits s world j (.drop x)

/-- Before move `k` a job was brought by another one or came from outside. -/
def Stems (s : Schedule b) (world : b.World) (k : Nat) (job : Job b) : Prop :=
  ∃ j < k, job ∈ (s.after world (j + 1)).machine.agenda ∧
    ((∃ parent, s.job? world j = some parent ∧ (s.after world j).machine.Brings parent job) ∨
      s.Admits world j job)

theorem Stems.succ {k : Nat} {job : Job b} (h : s.Stems world k job) :
    s.Stems world (k + 1) job := by
  obtain ⟨j, hj, h⟩ := h
  exact ⟨j, Nat.lt_succ_of_lt hj, h⟩

theorem stems {k : Nat} {job : Job b} (h : job ∈ (s.after world k).machine.agenda) :
    s.Stems world k job := by
  induction k with
  | zero => cases h
  | succ k ih =>
    have hNow := h
    rcases s.after_succ world k with ⟨parent, rest, hJob, hAgenda, hAfter⟩ | ⟨-, put, hAdded⟩
    · rw [hAfter] at h
      rcases Machine.brings_of_mem h with hRest | hBrings
      · apply Stems.succ
        apply ih
        rw [hAgenda]
        exact List.mem_cons_of_mem parent hRest
      · exact ⟨k, Nat.lt_succ_self k, hNow, Or.inl ⟨parent, hJob, hBrings⟩⟩
    · rw [hAdded.agenda] at h
      rcases List.mem_append.mp h with hPut | hMem
      · refine ⟨k, Nat.lt_succ_self k, hNow, Or.inr ?_⟩
        rcases hAdded.put with rfl | ⟨n, recipe, args, limit, hMove, -, rfl⟩ |
          ⟨x, o, hMove, hHeld, rfl⟩ | ⟨x, hMove, hHeld, rfl⟩
        · cases hPut
        · rw [List.mem_singleton.mp hPut]
          exact .begin hMove
        · rw [List.mem_singleton.mp hPut]
          exact .call hMove hHeld
        · rw [List.mem_singleton.mp hPut]
          exact .drop hMove hHeld
      · exact (ih hMem).succ

theorem mem_agenda_of_job {k : Nat} {job : Job b} (hJob : s.job? world k = some job) :
    job ∈ (s.after world k).machine.agenda := by
  obtain ⟨rest, hAgenda, -⟩ := s.after_succ_of_job world hJob
  rw [hAgenda]
  exact List.mem_cons_self

theorem descent_held {k : Nat} {e : Held} (h : e ∈ (s.after world k).machine.held) :
    ∃ j < k, s.job? world j = some (.hold e.place e.hold) := by
  induction k with
  | zero => cases h
  | succ k ih =>
    rcases History.mem_held_move h with hOld | ⟨hWork, hHead⟩
    · obtain ⟨j, hj, hJob⟩ := ih hOld
      exact ⟨j, Nat.lt_succ_of_lt hj, hJob⟩
    · refine ⟨k, Nat.lt_succ_self k, ?_⟩
      rw [job?, hWork]
      exact hHead

/-! ## From a job back to the work it is done for -/

theorem stems_of_job {k : Nat} {job : Job b} (hJob : s.job? world k = some job) :
    s.Stems world k job :=
  stems (mem_agenda_of_job hJob)

theorem handed_of_start {k : Nat} {x : Place} {recipe : b.Recipe} {args : List Datum} {limit : Nat}
    (hStart : s.job? world k = some (.start x recipe args limit)) (hNested : 2 ≤ x.length) :
    args = [] ∧ ∃ c < k, s.job? world c = some (.invoke x (.nested limit recipe)) := by
  obtain ⟨j, hj, -, ⟨parent, hParent, hBrings⟩ | hAdmits⟩ := stems_of_job hStart
  · generalize hChild : Job.start x recipe args limit = child at hBrings
    cases hBrings with
    | nested =>
      cases hChild
      exact ⟨rfl, j, hj, hParent⟩
    | @fate _ w => cases hFate : w.fate <;> rw [hFate] at hChild <;> cases hChild
    | _ => cases hChild
  · cases hAdmits
    simp at hNested

theorem handed_of_hold {k : Nat} {x : Place} {hold : Hold}
    (hHold : s.job? world k = some (.hold x hold)) :
    ∃ c < k, ∃ w, s.job? world c = some (.invoke x (.primitive w)) ∧
      (Machine.fateJob x w.fate : Job b) = .hold x hold := by
  obtain ⟨j, hj, -, ⟨parent, hParent, hBrings⟩ | hAdmits⟩ := stems_of_job hHold
  · generalize hChild : Job.hold x hold = child at hBrings
    cases hBrings with
    | @fate y w =>
      cases hFate : w.fate <;> rw [hFate] at hChild <;> cases hChild <;>
        exact ⟨j, hj, w, hParent, by rw [hFate]⟩
    | _ => cases hChild
  · cases hAdmits

theorem handed_of_items {k : Nat} {q : Place} {index : Nat} {rest : List (Work b.Recipe b.Note)}
    (hItems : s.job? world k = some (.items q index rest)) :
    ∃ i < k, ∃ ws, ws ≠ [] ∧ s.job? world i = some (.invoke q (.gather ws)) ∧
      index ≤ ws.length ∧ rest = ws.drop index := by
  induction k using Nat.strongRecOn generalizing index rest with
  | ind k ih =>
    obtain ⟨j, hj, -, ⟨parent, hParent, hBrings⟩ | hAdmits⟩ := stems_of_job hItems
    · generalize hChild : Job.items q index rest = child at hBrings
      cases hBrings with
      | @items _ w ws =>
        cases hChild
        exact ⟨j, hj, w :: ws, by simp, hParent, Nat.zero_le _, rfl⟩
      | @more _ index' w ws =>
        cases hChild
        obtain ⟨i, hi, all, hAll, hInvoke, hIndex, hRest⟩ := ih j hj hParent
        have hDrop : all.drop (index' + 1) = rest := by
          rw [← List.drop_drop, ← hRest]
          rfl
        have hLength := congrArg List.length hRest
        rw [List.length_cons, List.length_drop] at hLength
        exact ⟨i, Nat.lt_trans hi hj, all, hAll, hInvoke, by omega, hDrop.symm⟩
      | @fate _ w => cases hFate : w.fate <;> rw [hFate] at hChild <;> cases hChild
      | _ => cases hChild
    · cases hAdmits

variable (s world)

/-- The continuation `x` is held and move `j` takes it up and calls it. -/
def Takes (j : Nat) (x : Place) (o : Outcome) : Prop :=
  (s j = .call x o ∧ x ∈ (s.after world j).machine.held.map Held.place) ∨
    ∃ k others, s.job? world j = some (.poke k) ∧ k.outcome = o ∧
      takeKeyed k.key (s.after world j).machine.held = some (x, others)

/-- What the work that was invoked with the continuation `x` has come to before move `d`. -/
inductive Result (d : Nat) (x : Place) : Work b.Recipe b.Note → Outcome → Prop where
  | completed {w : Primitive} {o : Outcome} (hFate : w.fate = .complete o) :
      Result d x (.primitive w) o
  | taken {w : Primitive} {o : Outcome} {h j : Nat} {hold : Hold} (hh : h < j) (hj : j < d)
      (hHold : s.job? world h = some (.hold x hold))
      (hFate : (Machine.fateJob x w.fate : Job b) = .hold x hold) (hTakes : s.Takes world j x o) :
      Result d x (.primitive w) o
  | nothing : Result d x (.gather []) (.ok (.list []))
  | joined {w : Work b.Recipe b.Note} {ws : List (Work b.Recipe b.Note)} {j n : Nat} {g g' : Gather}
      {o o' : Outcome} (hj : j < d) (hReport : s.job? world j = some (.deliver (n :: x) o'))
      (hFind : (s.after world j).machine.nodes.find? x = some (.gather g))
      (hDone : g.report n o' = (.done o, g')) : Result d x (.gather (w :: ws)) o
  | refused {recipe : b.Recipe} : Result d x (.nested 0 recipe) (.error (.tooDeep 0))
  | ended {limit : Nat} {recipe : b.Recipe} {o : Outcome} {l : Nat} (hLimit : 0 < limit)
      (hl : l < d)
      (hEnds : s.Ends world l x o) : Result d x (.nested limit recipe) o

variable {s world}

theorem handed_of_takes {d j : Nat} {x : Place} {o : Outcome} (hj : j < d)
    (hTakes : s.Takes world j x o) :
    ∃ c < d, ∃ work, s.job? world c = some (.invoke x work) ∧ s.Result world d x work o := by
  have hHeld : x ∈ (s.after world j).machine.held.map Held.place := by
    rcases hTakes with ⟨-, hHeld⟩ | ⟨k, others, -, -, hTake⟩
    · exact hHeld
    · exact (takeKeyed_perm hTake).mem_iff.mp List.mem_cons_self
  obtain ⟨e, he, rfl⟩ := List.mem_map.mp hHeld
  obtain ⟨h, hh, hHold⟩ := descent_held he
  obtain ⟨c, hc, w, hInvoke, hFate⟩ := handed_of_hold hHold
  exact ⟨c, by omega, .primitive w, hInvoke, .taken hh hj hHold hFate hTakes⟩

/-- Whatever reaches a wait or an item is the result of the work that was invoked for it. -/
theorem handed_of_deliver {d : Nat} {x : Place} {o : Outcome}
    (hDeliver : .deliver x o ∈ (s.after world d).machine.agenda) (hNested : 2 ≤ x.length) :
    ∃ c < d, ∃ work, s.job? world c = some (.invoke x work) ∧ s.Result world d x work o := by
  obtain ⟨j, hj, -, ⟨parent, hParent, hBrings⟩ | hAdmits⟩ := stems hDeliver
  · generalize hChild : Job.deliver x o = child at hBrings
    cases hBrings with
    | refused =>
      cases hChild
      obtain ⟨-, c, hc, hInvoke⟩ := handed_of_start hParent hNested
      exact ⟨c, Nat.lt_trans hc hj, _, hInvoke, .refused⟩
    | @finish _ y r _ hFind hTurn =>
      cases hChild
      obtain ⟨i, hi, hLimit, recipe, args, hStart⟩ := origin hFind
      obtain ⟨-, c, hc, hInvoke⟩ := handed_of_start hStart hNested
      exact ⟨c, by omega, _, hInvoke, .ended hLimit hj ⟨y, r, hParent, hFind, hTurn⟩⟩
    | @fate _ w =>
      cases hFate : w.fate with
      | complete o' =>
        rw [hFate] at hChild
        cases hChild
        exact ⟨j, hj, _, hParent, .completed hFate⟩
      | keep | delay | drop =>
        rw [hFate] at hChild
        cases hChild
    | nothing =>
      cases hChild
      exact ⟨j, hj, _, hParent, .nothing⟩
    | found hTake =>
      cases hChild
      exact handed_of_takes hj (Or.inr ⟨_, _, hParent, rfl, hTake⟩)
    | answer hFind hReport =>
      cases hChild
      obtain ⟨i, hi, w, ws, hInvoke⟩ := origin hFind
      exact ⟨i, Nat.lt_trans hi hj, _, hInvoke, .joined hj hParent hFind hReport⟩
    | _ => cases hChild
  · cases hAdmits with
    | call hMove hHeld => exact handed_of_takes hj (Or.inl ⟨hMove, hHeld⟩)

end Schedule

/-- What is left of work when the notes that it leaves first are gone. -/
def Work.core {Recipe Note : Type} : Work Recipe Note → Work Recipe Note
  | .noted _ work => work.core
  | work => work

namespace Schedule

variable {s : Schedule b} {world : b.World}

/-- Whose work is invoked with a continuation: that of a run that waits, or that of a join. -/
inductive Behalf (s : Schedule b) (world : b.World) (c : Nat) :
    Place → Work b.Recipe b.Note → Prop where
  | run {l : Nat} {p : Place} {x : Input} {r : Run b} {work : Work b.Recipe b.Note} {u : Uptake}
      (hl : l < c) (hDrive : s.job? world l = some (.drive p x))
      (hFind : (s.after world l).machine.nodes.find? p = some (.run r))
      (hTurn : (r.frames.turn b x (s.after world l).machine.world).turn = .await work u) :
      Behalf s world c (r.wait :: p) work
  | item {l n : Nat} {q : Place} {work : Work b.Recipe b.Note} {ws : List (Work b.Recipe b.Note)}
      (hl : l < c) (hItems : s.job? world l = some (.items q n (work :: ws))) :
      Behalf s world c (n :: q) work

theorem Behalf.mono {c c' : Nat} {x : Place} {work : Work b.Recipe b.Note} (hcc' : c ≤ c')
    (h : s.Behalf world c x work) : s.Behalf world c' x work := by
  cases h with
  | run hl hDrive hFind hTurn => exact .run (Nat.lt_of_lt_of_le hl hcc') hDrive hFind hTurn
  | item hl hItems => exact .item (Nat.lt_of_lt_of_le hl hcc') hItems

theorem behalf {c : Nat} {x : Place} {work : Work b.Recipe b.Note}
    (hInvoke : s.job? world c = some (.invoke x work)) :
    ∃ whole, whole.core = work.core ∧ s.Behalf world c x whole := by
  induction c using Nat.strongRecOn generalizing work with
  | ind c ih =>
    obtain ⟨j, hj, -, ⟨parent, hParent, hBrings⟩ | hAdmits⟩ := stems_of_job hInvoke
    · generalize hChild : Job.invoke x work = child at hBrings
      cases hBrings with
      | work hFind hTurn =>
        cases hChild
        exact ⟨work, rfl, .run hj hParent hFind hTurn⟩
      | item =>
        cases hChild
        exact ⟨work, rfl, .item hj hParent⟩
      | noted =>
        cases hChild
        obtain ⟨whole, hCore, hBehalf⟩ := ih j hj hParent
        exact ⟨whole, hCore, hBehalf.mono (Nat.le_of_lt hj)⟩
      | @fate _ w => cases hFate : w.fate <;> rw [hFate] at hChild <;> cases hChild
      | _ => cases hChild
    · cases hAdmits

end Schedule

end Interlace
