import Interlace.Proofs.Accounts
import Interlace.Proofs.Twins

/-!
# Runs beside each other

A schedule with many top-level runs has in it, for each of them, a schedule of this run alone: the
run is begun at the same moment, its operations are completed at the same moments and with the same
outcomes, and nothing is done in between that is done for other runs. The run fares the same in
both.
-/

namespace Interlace

variable {b : Behaviour}

/-! ## Continuations that are held -/

theorem takeKeyed_cons_same (key : String) (x : Place) (held : List Held) :
    takeKeyed key (⟨x, .keyed key⟩ :: held) = some (x, held) := by
  simp [takeKeyed]

theorem takeKeyed_cons_other {key : String} {e : Held} (he : e.hold ≠ .keyed key)
    (held : List Held) : takeKeyed key (e :: held) =
      (takeKeyed key held).map fun found => (found.1, e :: found.2) := by
  rw [takeKeyed]
  split
  · rename_i k hHold
    rw [if_neg (fun hk : k = key => he (hk ▸ hHold)), takeKeyed.next]
  · rw [takeKeyed.next]

theorem takeKeyed_eq_none {key : String} {held : List Held} :
    takeKeyed key held = none ↔ ∀ e ∈ held, e.hold ≠ .keyed key := by
  induction held with
  | nil => simp [takeKeyed]
  | cons e held ih =>
    obtain ⟨x, hold⟩ := e
    by_cases he : hold = .keyed key
    · subst he
      simp [takeKeyed_cons_same]
    · rw [takeKeyed_cons_other he, Option.map_eq_none_iff, ih]
      simp [he]

theorem takeKeyed_eq_some {key : String} {held others : List Held} {x : Place} :
    takeKeyed key held = some (x, others) ↔ ∃ front back, held = front ++ ⟨x, .keyed key⟩ :: back ∧
      others = front ++ back ∧ ∀ e ∈ front, e.hold ≠ .keyed key := by
  constructor
  · intro hTake
    induction held generalizing others with
    | nil => simp [takeKeyed] at hTake
    | cons e held ih =>
      obtain ⟨y, hold⟩ := e
      by_cases he : hold = .keyed key
      · subst he
        rw [takeKeyed_cons_same] at hTake
        cases hTake
        exact ⟨[], held, rfl, rfl, by simp⟩
      · rw [takeKeyed_cons_other he] at hTake
        obtain ⟨⟨y', others'⟩, hTake', hEq⟩ := Option.map_eq_some_iff.mp hTake
        cases hEq
        obtain ⟨front, back, rfl, rfl, hFront⟩ := ih hTake'
        refine ⟨⟨y, hold⟩ :: front, back, rfl, rfl, ?_⟩
        exact List.forall_mem_cons.mpr ⟨he, hFront⟩
  · rintro ⟨front, back, rfl, rfl, hFront⟩
    induction front with
    | nil => exact takeKeyed_cons_same key x back
    | cons e front ih =>
      obtain ⟨he, hFront⟩ := List.forall_mem_cons.mp hFront
      rw [List.cons_append, takeKeyed_cons_other he, ih hFront]
      rfl

theorem mem_held_of_takeKeyed {key : String} {held others : List Held} {x : Place}
    (hTake : takeKeyed key held = some (x, others)) : ⟨x, .keyed key⟩ ∈ held := by
  obtain ⟨front, back, rfl, -⟩ := takeKeyed_eq_some.mp hTake
  exact List.mem_append_right _ List.mem_cons_self

/-- The continuations held that belong to the top-level run `n`. -/
def heldOf (n : Nat) (held : List Held) : List Held :=
  held.filter fun e => topOf e.place = some n

theorem mem_heldOf {n : Nat} {held : List Held} {e : Held} :
    e ∈ heldOf n held ↔ e ∈ held ∧ topOf e.place = some n := by
  simp [heldOf]

theorem takeKeyed_heldOf {key : String} {held others : List Held} {x : Place} {n : Nat}
    (hTake : takeKeyed key held = some (x, others)) (hx : topOf x = some n) :
    takeKeyed key (heldOf n held) = some (x, heldOf n others) := by
  obtain ⟨front, back, rfl, rfl, hFront⟩ := takeKeyed_eq_some.mp hTake
  refine takeKeyed_eq_some.mpr ⟨heldOf n front, heldOf n back, ?_, ?_, ?_⟩
  · simp [heldOf, hx]
  · simp [heldOf]
  · exact fun e he => hFront e (List.mem_of_mem_filter he)

theorem takeKeyed_of_heldOf {key : String} {held others : List Held} {x : Place} {n : Nat}
    (hOwn : ∀ y others', takeKeyed key held = some (y, others') →
      ∀ e ∈ heldOf n held, e.hold = .keyed key → topOf y = some n)
    (hTake : takeKeyed key (heldOf n held) = some (x, others)) :
    ∃ others', takeKeyed key held = some (x, others') := by
  have hMem := mem_held_of_takeKeyed hTake
  cases hWhole : takeKeyed key held with
  | none => exact (takeKeyed_eq_none.mp hWhole _ (mem_heldOf.mp hMem).1 rfl).elim
  | some found =>
    obtain ⟨y, others'⟩ := found
    have hFound := takeKeyed_heldOf hWhole (hOwn y others' hWhole _ hMem rfl)
    rw [hTake] at hFound
    cases hFound
    exact ⟨others', rfl⟩

theorem takePlace_heldOf {held : List Held} {x : Place} {n : Nat} (hx : topOf x = some n) :
    takePlace x (heldOf n held) = (takePlace x held).map (heldOf n) := by
  have hAny : (heldOf n held).any (·.place == x) = held.any (·.place == x) := by
    rw [heldOf, List.any_filter]
    refine List.any_congr rfl fun e => ?_
    by_cases he : e.place = x <;> simp [he, hx]
  rw [takePlace, takePlace, hAny]
  split
  · simp [heldOf, List.filter_filter, Bool.and_comm]
  · rfl

theorem heldOf_takeKeyed {key : String} {held others : List Held} {x : Place} {n : Nat}
    (hTake : takeKeyed key held = some (x, others)) (hx : topOf x ≠ some n) :
    heldOf n others = heldOf n held := by
  obtain ⟨front, back, rfl, rfl, -⟩ := takeKeyed_eq_some.mp hTake
  simp [heldOf, hx]

theorem heldOf_takePlace {held others : List Held} {x : Place} {n : Nat}
    (hTake : takePlace x held = some others) (hx : topOf x ≠ some n) :
    heldOf n others = heldOf n held := by
  rw [takePlace] at hTake
  split at hTake
  · cases hTake
    rw [heldOf, heldOf, List.filter_filter]
    refine List.filter_congr fun e _ => ?_
    by_cases he : e.place = x <;> simp [he, hx]
  · cases hTake

theorem takePlace_of_takeKeyed {key : String} {held others : List Held} {x : Place}
    (hNodup : (held.map Held.place).Nodup) (hTake : takeKeyed key held = some (x, others)) :
    takePlace x held = some others := by
  obtain ⟨front, back, rfl, rfl, -⟩ := takeKeyed_eq_some.mp hTake
  rw [List.map_append, List.map_cons, List.nodup_append] at hNodup
  obtain ⟨-, hBack, hApart⟩ := hNodup
  have hBack' := (List.nodup_cons.mp hBack).1
  rw [takePlace, if_pos (by simp)]
  have hKeep : ∀ e ∈ front ++ back, (e.place != x) = true := by
    intro e he
    rw [bne_iff_ne]
    intro hSame
    rcases List.mem_append.mp he with he | he
    · exact hApart _ (List.mem_map_of_mem he) _ List.mem_cons_self hSame
    · exact hBack' (List.mem_map.mpr ⟨e, he, hSame⟩)
  rw [List.filter_append, List.filter_cons_of_neg (by simp), ← List.filter_append,
    List.filter_eq_self.mpr hKeep]

/-! ## The schedule of one run -/

def Move.idle : Move b := .drop []

/-- What a move means for the top-level run `n`. Where an operation of another run completes one of
its operations, this comes from outside. -/
def Move.only (n : Nat) (h : History b) : Move b → Move b
  | .work =>
    match h.machine.agenda with
    | [] => .work
    | job :: rest =>
      if owner? (job :: rest) = some n then .work
      else
        match job with
        | .poke k =>
          match takeKeyed k.key h.machine.held with
          | some (x, _) => if topOf x = some n then .call x k.outcome else .idle
          | none => .idle
        | _ => .idle
  | .begin m recipe args limit => if m = n then .begin m recipe args limit else .idle
  | .call x o => if topOf x = some n then .call x o else .idle
  | .drop x => if topOf x = some n then .drop x else .idle

/-- The schedule of the top-level run `n` alone that goes along with `s`. -/
def Schedule.only (s : Schedule b) (world : b.World) (n : Nat) : Schedule b :=
  fun k => (s k).only n (s.after world k)

def History.OwnFirst (n : Nat) (h : History b) : Prop :=
  ∀ k rest, h.machine.agenda = .poke k :: rest → owner? rest = some n →
    ∀ x others, takeKeyed k.key h.machine.held = some (x, others) →
      ∀ e ∈ heldOf n h.machine.held, e.hold = .keyed k.key → topOf x = some n

/-- The operations of the top-level run `n` never complete one of another run in place of one of its
own. Else the run alone would not have the same completions. -/
def Schedule.OwnFirst (s : Schedule b) (world : b.World) (n : Nat) : Prop :=
  ∀ k, s k = .work → (s.after world k).OwnFirst n

/-- A job, no matter what it tells of a poke. -/
def Job.blind : Job b → Job b
  | .tell key _ => .tell key false
  | job => job

theorem Job.blind_eq {job job' : Job b} (h : job'.blind = job.blind) :
    job' = job ∨ ∃ key found found', job = .tell key found ∧ job' = .tell key found' := by
  cases job <;> cases job' <;> simp [blind] at h ⊢ <;> simp [h]

/-- The machine `m'` has what the machine `m` has of the top-level run `n`, and nothing else. -/
structure Machine.Beside (n : Nat) (m m' : Machine b) : Prop where
  nodes : ∀ p, topOf p = some n → m'.nodes.find? p = m.nodes.find? p
  others : ∀ p, topOf p ≠ some n → m'.nodes.find? p = none
  held : m'.held = heldOf n m.held
  agenda : m'.agenda.map Job.blind = (jobsOf n m.agenda).map Job.blind
  tended : Tended m.agenda

namespace History

variable {n : Nat} {h h' : History b}

/-! ## Moves -/

theorem top_of_site {job : Job b} {p : Place} (hSite : job.site = some p)
    (hTop : job.top? = some n) :
    topOf p = some n ∨ p = [] ∧ ∃ m, (∃ o, job = .deliver [m] o) ∨ job = .drop [m] := by
  cases job with
  | start | drive | invoke | check | items =>
    cases hSite
    exact Or.inl hTop
  | deliver q o | drop q =>
    rcases q with _ | ⟨m, _ | ⟨k, q⟩⟩
    · cases hTop
    · cases hSite
      simp
    · cases hSite
      exact Or.inl hTop
  | hold | poke | tell => cases hSite

theorem site_of_top {job : Job b} (hTop : job.top? = some n)
    (hHold : ∀ p hold, job ≠ .hold p hold) : ∃ p, job.site = some p := by
  cases job with
  | start p | drive p | invoke p | check p | items p => exact ⟨p, rfl⟩
  | deliver q o | drop q =>
    cases q with
    | nil => cases hTop
    | cons m q => exact ⟨q, rfl⟩
  | hold p hold => exact absurd rfl (hHold p hold)
  | poke | tell => cases hTop

theorem twin_afterJob (hb : b.Unshared) (hs : h.Sound) (hs' : h'.Sound) {job : Job b}
    {rest : List (Job b)} (hAgenda : h.machine.agenda = job :: rest) (hTop : job.top? = some n)
    (hHold : ∀ p hold, job ≠ .hold p hold) (hTended : Tended h.machine.agenda)
    (hSame : ∀ p, topOf p = some n → h'.machine.nodes.find? p = h.machine.nodes.find? p)
    (rest' : List (Job b)) :
    ∃ put, Led n (owner? rest = some n) put ∧ (h.afterJob job rest).machine.agenda = put ++ rest ∧
      (h'.afterJob job rest').machine.agenda = put ++ rest' ∧ ∀ p, topOf p = some n →
        (h'.afterJob job rest').machine.nodes.find? p =
          (h.afterJob job rest).machine.nodes.find? p := by
  obtain ⟨p, hSite⟩ := site_of_top hTop hHold
  rcases top_of_site hSite hTop with hp | ⟨rfl, m, hEnd⟩
  · have hOwned : ∀ work, job = .invoke p work → owner? rest = some n := by
      rintro work rfl
      rw [hAgenda] at hTended
      exact hTended.1.trans hp
    have hPoised : ∀ x r, job = .drive p x → h.machine.nodes.find? p = some (.run r) →
        r.frames.Poised x := by
      rintro x r rfl hFind
      obtain ⟨r', hDriven⟩ := hs.driven hAgenda
      have hRun := hDriven.find
      rw [hFind] at hRun
      cases hRun
      exact hDriven.poised
    have hTwin : Machine.Twin p n (owner? rest = some n) rest rest'
        { h.machine with agenda := rest } { h'.machine with agenda := rest' } :=
      ⟨hSame p hp, [], rfl, rfl, .nil⟩
    have hDone := hTwin.perform hp hb hSite hOwned hPoised
    obtain ⟨put, hPut, hPut', hLed⟩ := hDone.agenda
    refine ⟨put, hLed, hPut, hPut', fun q hq => ?_⟩
    by_cases hqp : q = p
    · rw [hqp]
      exact hDone.node
    · have hOther : job.site ≠ some q := by
        rw [hSite]
        exact fun hEq => hqp (Option.some.inj hEq).symm
      rw [find?_afterJob hOther, find?_afterJob hOther]
      exact hSame q hq
  · -- The outcome of a top-level run leads out of the machine.
    have hEffect : ∀ {h : History b} (rest : List (Job b)), h.Sound →
        (h.afterJob job rest).machine = { h.machine with agenda := rest } := by
      intro h rest hs
      have hNil : ({ h.machine with agenda := rest } : Machine b).nodes.find? [] = none :=
        hs.find?_nil
      rcases hEnd with ⟨o, rfl⟩ | rfl
      · rw [afterJob, Machine.perform_deliver_top hNil]
      · rw [afterJob, Machine.perform_drop_top hNil]
    rw [hEffect rest hs, hEffect rest' hs']
    exact ⟨[], .nil, rfl, rfl, hSame⟩

theorem exists_top_of_held (hs : h.Sound) {x : Place}
    (hHeld : x ∈ h.machine.held.map Held.place) : ∃ m, topOf x = some m :=
  exists_topOf (hs.rooted x (mem_ledger_of_dormant (List.mem_append_right _ hHeld))).1

theorem jobsOf_deliver {x : Place} (hx : topOf x = some n) (o : Outcome) (rest : List (Job b)) :
    jobsOf n (.deliver x o :: rest) = .deliver x o :: jobsOf n rest :=
  jobsOf_of_owner (owner?_of_top (.deliver x o) hx rest)

theorem jobsOf_found (hs : h.Sound) {key : String} {others : List Held} {x : Place}
    (hTake : takeKeyed key h.machine.held = some (x, others)) (hx : topOf x ≠ some n) (o : Outcome)
    (rest : List (Job b)) : jobsOf n (.deliver x o :: rest) = jobsOf n rest := by
  obtain ⟨m, hm⟩ := exists_top_of_held hs (List.mem_map.mpr ⟨_, mem_held_of_takeKeyed hTake, rfl⟩)
  refine jobsOf_of_other ?_
  rw [owner?_of_top (.deliver x o) hm, ← hm]
  exact hx

theorem machine_poke {k : Poke} {x : Place} {others : List Held}
    (hTake : takeKeyed k.key h.machine.held = some (x, others)) (rest : List (Job b)) :
    (h.afterJob (.poke k) rest).machine = { h.machine with
      held := others
      agenda := .deliver x k.outcome :: .tell k.key true :: rest } :=
  congrArg Prod.snd (Machine.perform_poke (m := { h.machine with agenda := rest }) hTake)

theorem machine_poke_none {k : Poke} (hTake : takeKeyed k.key h.machine.held = none)
    (rest : List (Job b)) : (h.afterJob (.poke k) rest).machine = { h.machine with
      agenda := .tell k.key false :: rest } :=
  congrArg Prod.snd (Machine.perform_poke_none (m := { h.machine with agenda := rest }) hTake)

end History

namespace Machine.Beside

open History

variable {n : Nat} {h h' : History b} (hBeside : Beside n h.machine h'.machine) {job : Job b}
  {rest : List (Job b)} (hAgenda : h.machine.agenda = job :: rest)

include hBeside hAgenda

theorem tended_rest : Tended rest := by
  have hTended := hBeside.tended
  rw [hAgenda] at hTended
  exact tended_tail hTended

theorem first (hOwner : owner? (job :: rest) = some n) : ∃ job' rest',
    h'.machine.agenda = job' :: rest' ∧
      (job' = job ∨ ∃ key found found', job = .tell key found ∧ job' = .tell key found') ∧
      rest'.map Job.blind = (jobsOf n rest).map Job.blind := by
  have hSame := hBeside.agenda
  rw [hAgenda, jobsOf_of_owner hOwner, List.map_cons] at hSame
  obtain ⟨job', rest', hAgenda', hJob, hRest⟩ := List.map_eq_cons_iff.mp hSame
  exact ⟨job', rest', hAgenda', Job.blind_eq hJob, hRest⟩

theorem agenda_rest (hOwner : owner? (job :: rest) ≠ some n) :
    h'.machine.agenda.map Job.blind = (jobsOf n rest).map Job.blind := by
  rw [hBeside.agenda, hAgenda, jobsOf_of_other hOwner]

/-! ### Jobs of the run -/

section

variable {rest' : List (Job b)} (hRest : rest'.map Job.blind = (jobsOf n rest).map Job.blind)
include hRest

theorem placed (hb : b.Unshared) (hs : h.Sound) (hs' : h'.Sound) (hTop : job.top? = some n)
    (hHold : ∀ p hold, job ≠ .hold p hold) (hSound : (h'.afterJob job rest').Sound) :
    Beside n (h.afterJob job rest).machine (h'.afterJob job rest').machine := by
  obtain ⟨put, hLed, hPut, hPut', hNodes⟩ :=
    twin_afterJob hb hs hs' hAgenda hTop hHold hBeside.tended hBeside.nodes rest'
  have hPoke : ∀ k, job ≠ .poke k := by
    rintro k rfl
    cases hTop
  refine ⟨hNodes, fun p hp => ?_, ?_, ?_, ?_⟩
  · by_cases hSite : job.site = some p
    · rcases top_of_site hSite hTop with hSame | ⟨rfl, -⟩
      · exact absurd hSame hp
      · exact hSound.find?_nil
    · rw [find?_afterJob hSite]
      exact hBeside.others p hp
  · rw [History.afterJob, History.afterJob, held_perform hHold hPoke, held_perform hHold hPoke]
    exact hBeside.held
  · rw [hPut, hPut', hLed.jobsOf_same id, List.map_append, List.map_append, hRest]
  · rw [hPut]
    exact hLed.tended id (hBeside.tended_rest hAgenda)

theorem hold {x : Place} {hold : Hold} (hJob : job = .hold x hold) (hx : topOf x = some n) :
    Beside n (h.afterJob job rest).machine (h'.afterJob job rest').machine := by
  have hTended := hBeside.tended_rest hAgenda
  have hHeld :
      heldOf n (h.machine.held ++ [⟨x, hold⟩]) = heldOf n h.machine.held ++ [⟨x, hold⟩] := by
    simp [heldOf, hx]
  subst hJob
  refine ⟨hBeside.nodes, hBeside.others, ?_, hRest, hTended⟩
  exact (congrArg (· ++ [⟨x, hold⟩]) hBeside.held).trans hHeld.symm

theorem tell {key : String} {found : Bool} (hJob : job = .tell key found) (found' : Bool) :
    Beside n (h.afterJob job rest).machine (h'.afterJob (.tell key found') rest').machine := by
  have hTended := hBeside.tended_rest hAgenda
  subst hJob
  exact ⟨hBeside.nodes, hBeside.others, hBeside.held, hRest, hTended⟩

theorem poke (hs : h.Sound) {k : Poke} (hJob : job = .poke k) (hOwner : owner? rest = some n)
    (hOwn : h.OwnFirst n) :
    Beside n (h.afterJob job rest).machine (h'.afterJob job rest').machine := by
  have hTended := hBeside.tended_rest hAgenda
  have hTell : ∀ found, jobsOf n (.tell k.key found :: rest) = .tell k.key found :: jobsOf n rest :=
    fun found => jobsOf_of_owner hOwner
  subst hJob
  cases hTake : takeKeyed k.key h.machine.held with
  | none =>
    have hTake' : takeKeyed k.key h'.machine.held = none := by
      rw [hBeside.held]
      exact takeKeyed_eq_none.mpr fun e he => takeKeyed_eq_none.mp hTake e (mem_heldOf.mp he).1
    rw [machine_poke_none hTake, machine_poke_none hTake']
    refine ⟨hBeside.nodes, hBeside.others, hBeside.held, ?_, hTended⟩
    dsimp only
    rw [hTell, List.map_cons, List.map_cons, hRest]
  | some found =>
    obtain ⟨x, others⟩ := found
    rw [machine_poke hTake]
    by_cases hx : topOf x = some n
    · have hTake' : takeKeyed k.key h'.machine.held = some (x, heldOf n others) := by
        rw [hBeside.held]
        exact takeKeyed_heldOf hTake hx
      rw [machine_poke hTake']
      refine ⟨hBeside.nodes, hBeside.others, rfl, ?_, hTended⟩
      dsimp only
      rw [jobsOf_deliver hx, hTell, List.map_cons, List.map_cons, List.map_cons, List.map_cons,
        hRest]
    · have hTake' : takeKeyed k.key h'.machine.held = none := by
        rw [hBeside.held]
        refine takeKeyed_eq_none.mpr fun e he hKeyed => hx ?_
        exact hOwn k rest hAgenda hOwner x others hTake e he hKeyed
      rw [machine_poke_none hTake']
      refine ⟨hBeside.nodes, hBeside.others, ?_, ?_, hTended⟩
      · exact hBeside.held.trans (heldOf_takeKeyed hTake hx).symm
      · dsimp only
        rw [jobsOf_found hs hTake hx, hTell, List.map_cons, List.map_cons, hRest]
        rfl

end

/-! ### Jobs of other runs -/

theorem placed_elsewhere (hb : b.Unshared) (hs : h.Sound) {m : Nat} (hTop : job.top? = some m)
    (hm : m ≠ n) (hHold : ∀ p hold, job ≠ .hold p hold) :
    Beside n (h.afterJob job rest).machine h'.machine := by
  obtain ⟨put, hLed, hPut, -⟩ :=
    twin_afterJob hb hs hs hAgenda hTop hHold hBeside.tended (fun _ _ => rfl) rest
  have hPoke : ∀ k, job ≠ .poke k := by
    rintro k rfl
    cases hTop
  have hOwner : owner? (job :: rest) ≠ some n := by
    rw [owner?_of_top _ hTop]
    exact fun hSame => hm (Option.some.inj hSame)
  refine ⟨fun p hp => ?_, hBeside.others, ?_, ?_, ?_⟩
  · have hSite : job.site ≠ some p := by
      intro hSite
      rcases top_of_site hSite hTop with hSame | ⟨rfl, -⟩
      · exact hm (Option.some.inj (hSame.symm.trans hp))
      · cases hp
    rw [find?_afterJob hSite]
    exact hBeside.nodes p hp
  · rw [History.afterJob, held_perform hHold hPoke]
    exact hBeside.held
  · rw [hPut, hLed.jobsOf_other id hm]
    exact hBeside.agenda_rest hAgenda hOwner
  · rw [hPut]
    exact hLed.tended id (hBeside.tended_rest hAgenda)

section

variable (hOwner : owner? (job :: rest) ≠ some n)
include hOwner

theorem hold_elsewhere {x : Place} {hold : Hold} (hJob : job = .hold x hold)
    (hx : topOf x ≠ some n) : Beside n (h.afterJob job rest).machine h'.machine := by
  have hTended := hBeside.tended_rest hAgenda
  have hRest := hBeside.agenda_rest hAgenda hOwner
  have hHeld : heldOf n (h.machine.held ++ [⟨x, hold⟩]) = heldOf n h.machine.held := by
    simp [heldOf, hx]
  subst hJob
  exact ⟨hBeside.nodes, hBeside.others, hBeside.held.trans hHeld.symm, hRest, hTended⟩

theorem tell_elsewhere {key : String} {found : Bool} (hJob : job = .tell key found) :
    Beside n (h.afterJob job rest).machine h'.machine := by
  have hTended := hBeside.tended_rest hAgenda
  have hRest := hBeside.agenda_rest hAgenda hOwner
  subst hJob
  exact ⟨hBeside.nodes, hBeside.others, hBeside.held, hRest, hTended⟩

theorem poke_elsewhere (hs : h.Sound) {k : Poke} (hJob : job = .poke k)
    (hNone : ∀ x others, takeKeyed k.key h.machine.held = some (x, others) → topOf x ≠ some n) :
    Beside n (h.afterJob job rest).machine h'.machine := by
  have hTended := hBeside.tended_rest hAgenda
  have hRest := hBeside.agenda_rest hAgenda hOwner
  subst hJob
  have hTell : ∀ found, jobsOf n (.tell k.key found :: rest) = jobsOf n rest :=
    fun found => jobsOf_of_other hOwner
  cases hTake : takeKeyed k.key h.machine.held with
  | none =>
    rw [machine_poke_none hTake]
    refine ⟨hBeside.nodes, hBeside.others, hBeside.held, ?_, hTended⟩
    dsimp only
    rw [hTell, hRest]
  | some found =>
    obtain ⟨x, others⟩ := found
    rw [machine_poke hTake]
    have hx := hNone x others hTake
    refine ⟨hBeside.nodes, hBeside.others, ?_, ?_, hTended⟩
    · exact hBeside.held.trans (heldOf_takeKeyed hTake hx).symm
    · dsimp only
      rw [jobsOf_found hs hTake hx, hTell, hRest]

theorem found (hs : h.Sound) {k : Poke} (hJob : job = .poke k) {x : Place} {others : List Held}
    (hTake : takeKeyed k.key h.machine.held = some (x, others)) (hx : topOf x = some n) :
    Beside n (h.afterJob job rest).machine (h'.machine.act (.call x k.outcome)) := by
  have hTended := hBeside.tended_rest hAgenda
  have hRest := hBeside.agenda_rest hAgenda hOwner
  subst hJob
  have hTell : jobsOf n (.tell k.key true :: rest) = jobsOf n rest := jobsOf_of_other hOwner
  have hNodup : (h.machine.held.map Held.place).Nodup := by
    have hDormant := (List.nodup_append.mp hs.nodup_states).1
    exact (List.nodup_append.mp hDormant).2.1
  have hTake' : takePlace x h'.machine.held = some (heldOf n others) := by
    rw [hBeside.held, takePlace_heldOf hx, takePlace_of_takeKeyed hNodup hTake]
    rfl
  rw [machine_poke hTake, act, hTake']
  refine ⟨hBeside.nodes, hBeside.others, rfl, ?_, hTended⟩
  dsimp only [push]
  rw [jobsOf_deliver hx, hTell, List.singleton_append, List.map_cons, List.map_cons, hRest]

end

end Machine.Beside

/-! ### Acts from outside -/

namespace Machine.Beside

variable {n : Nat} {m m' : Machine b} (hBeside : Beside n m m')
include hBeside

theorem put (job : Job b) (hTop : job.top? = some n) (hWork : ∀ p work, job ≠ .invoke p work)
    (held : List Held) :
    Beside n ({ m with held }.push [job]) ({ m' with held := heldOf n held }.push [job]) := by
  have hLed : Led n False [job] := .placed hTop hWork .nil
  refine ⟨hBeside.nodes, hBeside.others, rfl, ?_, hLed.tended False.elim hBeside.tended⟩
  dsimp only [push]
  rw [hLed.jobsOf_same False.elim, List.map_append, List.map_append, hBeside.agenda]

theorem put_elsewhere (job : Job b) {i : Nat} (hTop : job.top? = some i) (hi : i ≠ n)
    (hWork : ∀ p work, job ≠ .invoke p work) {held : List Held}
    (hHeld : heldOf n held = heldOf n m.held) : Beside n ({ m with held }.push [job]) m' := by
  have hLed : Led i False [job] := .placed hTop hWork .nil
  refine ⟨hBeside.nodes, hBeside.others, hBeside.held.trans hHeld.symm, ?_,
    hLed.tended False.elim hBeside.tended⟩
  dsimp only [push]
  rw [hLed.jobsOf_other False.elim hi, hBeside.agenda]

theorem begin (recipe : b.Recipe) (args : List Datum) (limit : Nat) :
    Beside n (m.act (.begin n recipe args limit)) (m'.act (.begin n recipe args limit)) := by
  have hPut := hBeside.put (.start [n] recipe args limit) rfl (by simp) m.held
  rwa [← hBeside.held] at hPut

theorem begin_elsewhere {i : Nat} (hi : i ≠ n) (recipe : b.Recipe) (args : List Datum)
    (limit : Nat) : Beside n (m.act (.begin i recipe args limit)) m' :=
  hBeside.put_elsewhere (.start [i] recipe args limit) rfl hi (by simp) rfl

theorem returned {x : Place} (hx : topOf x = some n) (o : Outcome) :
    Beside n (m.act (.call x o)) (m'.act (.call x o)) ∧
      Beside n (m.act (.drop x)) (m'.act (.drop x)) := by
  rw [act, act, act, act, hBeside.held, takePlace_heldOf hx]
  cases takePlace x m.held with
  | none => exact ⟨hBeside, hBeside⟩
  | some held =>
    exact ⟨hBeside.put (.deliver x o) hx (by simp) held,
      hBeside.put (.drop x) hx (by simp) held⟩

theorem returned_elsewhere {x : Place} (hx : topOf x ≠ some n)
    (hTop : x ∈ m.held.map Held.place → ∃ i, topOf x = some i) (o : Outcome) :
    Beside n (m.act (.call x o)) m' ∧ Beside n (m.act (.drop x)) m' := by
  rw [act, act]
  cases hTake : takePlace x m.held with
  | none => exact ⟨hBeside, hBeside⟩
  | some held =>
    obtain ⟨i, hi⟩ := hTop (History.mem_held_of_takePlace hTake)
    have hin : i ≠ n := fun hSame => hx (hSame ▸ hi)
    have hHeld := heldOf_takePlace hTake hx
    exact ⟨hBeside.put_elsewhere (.deliver x o) hi hin (by simp) hHeld,
      hBeside.put_elsewhere (.drop x) hi hin (by simp) hHeld⟩

end Machine.Beside

namespace History

variable {n : Nat} {h h' : History b}

theorem move_idle (hs : h.Sound) : h.move .idle = h := by
  have hNone : takePlace [] h.machine.held = none := by
    cases hTake : takePlace [] h.machine.held with
    | none => rfl
    | some held =>
      obtain ⟨m, hm⟩ := exists_top_of_held hs (mem_held_of_takePlace hTake)
      cases hm
  rw [Move.idle, move, afterAct, Machine.act, hNone]

theorem move_rest (hAgenda : h.machine.agenda = []) : h.move .work = h := by
  simp [move, hAgenda]

theorem move_work {job : Job b} {rest : List (Job b)} (hAgenda : h.machine.agenda = job :: rest) :
    h.move .work = h.afterJob job rest := by
  simp [move, hAgenda]

theorem exists_top (hs : h.Sound) {job : Job b} (hJob : job ∈ h.machine.agenda) :
    (∃ i, job.top? = some i) ∨ (∃ k, job = .poke k) ∨ ∃ key found, job = .tell key found := by
  have hDormant : ∀ {x}, x ∈ job.dormant → ∃ i, topOf x = some i := by
    intro x hx
    refine exists_topOf (hs.rooted x (mem_ledger_of_dormant ?_)).1
    exact List.mem_append_left _ (List.mem_flatMap.mpr ⟨job, hJob, hx⟩)
  cases job with
  | start x | invoke x | hold x => exact Or.inl (hDormant (List.mem_singleton_self x))
  | drive p | check p =>
    exact Or.inl (exists_topOf (hs.ne_nil_of_steers _ hJob (by simp [Job.steers])))
  | items q index works =>
    refine Or.inl (exists_topOf ?_)
    rintro rfl
    have hNone := hs.idle.2
    rw [Machine.starting, List.countP_eq_zero] at hNone
    exact hNone _ hJob (by simp [Job.starts])
  | deliver x | drop x =>
    exact Or.inl (exists_topOf (hs.ne_nil_of_returning _ hJob (List.mem_singleton_self x)))
  | poke k => exact Or.inr (Or.inl ⟨k, rfl⟩)
  | tell key found => exact Or.inr (Or.inr ⟨key, found, rfl⟩)

theorem work_own (hb : b.Unshared) (hs : h.Sound) (hs' : h'.Sound)
    (hBeside : Machine.Beside n h.machine h'.machine)
    (hOwn : h.OwnFirst n)
    {job : Job b} {rest : List (Job b)} (hAgenda : h.machine.agenda = job :: rest)
    (hOwner : owner? (job :: rest) = some n) :
    Machine.Beside n (h.afterJob job rest).machine (h'.move .work).machine := by
  obtain ⟨job', rest', hAgenda', hJob, hRest⟩ := hBeside.first hAgenda hOwner
  have hSound := (hs'.afterJob hAgenda').sound
  rw [move_work hAgenda']
  rcases hJob with rfl | ⟨key, found, found', hTell, rfl⟩
  · rcases exists_top hs (hAgenda ▸ List.mem_cons_self) with
      ⟨i, hTop⟩ | ⟨k, hPoke⟩ | ⟨key, found, hTell⟩
    · obtain rfl : i = n := Option.some.inj ((owner?_of_top _ hTop rest).symm.trans hOwner)
      by_cases hHold : ∃ x hold, job' = .hold x hold
      · obtain ⟨x, hold, rfl⟩ := hHold
        exact hBeside.hold hAgenda hRest rfl hTop
      · exact hBeside.placed hAgenda hRest hb hs hs' hTop
          (fun x hold hEq => hHold ⟨x, hold, hEq⟩) hSound
    · subst hPoke
      have hOwner' : owner? rest = some n := hOwner
      exact hBeside.poke hAgenda hRest hs rfl hOwner' hOwn
    · subst hTell
      exact hBeside.tell hAgenda hRest rfl found
  · exact hBeside.tell hAgenda hRest hTell found'

theorem work_elsewhere (hb : b.Unshared) (hs : h.Sound) (hs' : h'.Sound)
    (hBeside : Machine.Beside n h.machine h'.machine)
    {job : Job b} {rest : List (Job b)} (hAgenda : h.machine.agenda = job :: rest)
    (hOwner : owner? (job :: rest) ≠ some n) :
    Machine.Beside n (h.afterJob job rest).machine (h'.move (Move.only n h .work)).machine := by
  have hOnly : (∀ k, job ≠ .poke k) → Move.only n h .work = .idle := by
    intro hPoke
    rw [Move.only, hAgenda]
    dsimp only
    rw [if_neg hOwner]
    cases job with
    | poke k => exact absurd rfl (hPoke k)
    | _ => rfl
  rcases exists_top hs (hAgenda ▸ List.mem_cons_self) with ⟨i, hTop⟩ | ⟨k, rfl⟩ | ⟨key, found, rfl⟩
  · have hin : i ≠ n := by
      rintro rfl
      exact hOwner (owner?_of_top _ hTop rest)
    rw [hOnly (by rintro k rfl; cases hTop), move_idle hs']
    by_cases hHold : ∃ x hold, job = .hold x hold
    · obtain ⟨x, hold, rfl⟩ := hHold
      refine hBeside.hold_elsewhere hAgenda hOwner rfl fun hSame => hin ?_
      exact Option.some.inj (hTop.symm.trans hSame)
    · exact hBeside.placed_elsewhere hAgenda hb hs hTop hin fun x hold hEq => hHold ⟨x, hold, hEq⟩
  · by_cases hFound : ∃ x others,
        takeKeyed k.key h.machine.held = some (x, others) ∧ topOf x = some n
    · obtain ⟨x, others, hTake, hx⟩ := hFound
      have hCall : Move.only n h .work = .call x k.outcome := by
        rw [Move.only, hAgenda]
        dsimp only
        rw [if_neg hOwner, hTake]
        exact if_pos hx
      rw [hCall]
      exact hBeside.found hAgenda hOwner hs rfl hTake hx
    · have hNone : ∀ x others, takeKeyed k.key h.machine.held = some (x, others) →
          topOf x ≠ some n := fun x others hTake hx => hFound ⟨x, others, hTake, hx⟩
      have hIdle : Move.only n h .work = .idle := by
        rw [Move.only, hAgenda]
        dsimp only
        rw [if_neg hOwner]
        cases hTake : takeKeyed k.key h.machine.held with
        | none => rfl
        | some found => exact if_neg (hNone found.1 found.2 hTake)
      rw [hIdle, move_idle hs']
      exact hBeside.poke_elsewhere hAgenda hOwner hs rfl hNone
  · rw [hOnly (by simp), move_idle hs']
    exact hBeside.tell_elsewhere hAgenda hOwner rfl

theorem begun_move {mv : Move b} (hBegin : ∀ i recipe args limit, mv ≠ .begin i recipe args limit) :
    (h.move mv).begun = h.begun := by
  cases mv with
  | work =>
    rw [move]
    split <;> rfl
  | begin i recipe args limit => exact absurd rfl (hBegin i recipe args limit)
  | call | drop => rfl

theorem only_work (n : Nat) (h : History b) (i : Nat) (recipe : b.Recipe) (args : List Datum)
    (limit : Nat) : Move.only n h .work ≠ .begin i recipe args limit := by
  rw [Move.only]
  repeat' split
  all_goals simp [Move.idle]

theorem beside_move (hb : b.Unshared) (hs : h.Sound) (hs' : h'.Sound)
    (hBeside : Machine.Beside n h.machine h'.machine)
    (hBegun : n ∈ h'.begun ↔ n ∈ h.begun) (mv : Move b) (hOwn : mv = .work → h.OwnFirst n) :
    Machine.Beside n (h.move mv).machine (h'.move (mv.only n h)).machine ∧
      (n ∈ (h'.move (mv.only n h)).begun ↔ n ∈ (h.move mv).begun) := by
  have hTop : ∀ {x}, x ∈ h.machine.held.map Held.place → ∃ i, topOf x = some i :=
    exists_top_of_held hs
  cases mv with
  | work =>
    refine ⟨?_, by rwa [begun_move (only_work n h), begun_move (by simp)]⟩
    cases hAgenda : h.machine.agenda with
    | nil =>
      have hSame := hBeside.agenda
      rw [hAgenda] at hSame
      rw [Move.only, hAgenda, move_rest hAgenda, move_rest (List.map_eq_nil_iff.mp hSame)]
      exact hBeside
    | cons job rest =>
      rw [move_work hAgenda]
      by_cases hOwner : owner? (job :: rest) = some n
      · have hOnly : Move.only n h .work = .work := by
          rw [Move.only, hAgenda]
          exact if_pos hOwner
        rw [hOnly]
        exact work_own hb hs hs' hBeside (hOwn rfl) hAgenda hOwner
      · exact work_elsewhere hb hs hs' hBeside hAgenda hOwner
  | begin m recipe args limit =>
    by_cases hm : m = n
    · subst hm
      rw [Move.only, if_pos rfl, move, move]
      by_cases hOld : m ∈ h.begun
      · rw [if_pos hOld, if_pos (hBegun.mpr hOld)]
        exact ⟨hBeside, hBegun⟩
      · rw [if_neg hOld, if_neg (fun hMem => hOld (hBegun.mp hMem))]
        exact ⟨hBeside.begin recipe args limit, by simp⟩
    · rw [Move.only, if_neg hm, move_idle hs', move]
      split
      · exact ⟨hBeside, hBegun⟩
      · exact ⟨hBeside.begin_elsewhere hm recipe args limit, by simp [hBegun, Ne.symm hm]⟩
  | call x o =>
    rw [Move.only]
    split
    · rename_i hx
      exact ⟨(hBeside.returned hx o).1, hBegun⟩
    · rename_i hx
      rw [move_idle hs']
      exact ⟨(hBeside.returned_elsewhere hx hTop o).1, hBegun⟩
  | drop x =>
    rw [Move.only]
    split
    · rename_i hx
      exact ⟨(hBeside.returned hx (.ok .null)).2, hBegun⟩
    · rename_i hx
      rw [move_idle hs']
      exact ⟨(hBeside.returned_elsewhere hx hTop (.ok .null)).2, hBegun⟩

end History

/-! ## What becomes of the run -/

namespace Schedule

variable {s : Schedule b} {world : b.World}

theorem beside (hb : b.Unshared) {n : Nat} (hOwn : s.OwnFirst world n) (k : Nat) :
    Machine.Beside n (s.after world k).machine ((s.only world n).after world k).machine ∧
      (n ∈ ((s.only world n).after world k).begun ↔ n ∈ (s.after world k).begun) := by
  induction k with
  | zero => exact ⟨⟨fun _ _ => rfl, fun _ _ => rfl, rfl, rfl, trivial⟩, Iff.rfl⟩
  | succ k ih =>
    exact History.beside_move hb (s.sound world k) ((s.only world n).sound world k) ih.1 ih.2
      (s k) (hOwn k)

end Schedule

end Interlace
