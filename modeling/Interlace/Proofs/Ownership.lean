import Interlace.Proofs.Frames
import Interlace.Proofs.History
import Mathlib.Data.List.Perm.Basic
import Mathlib.Data.List.Nodup

/-!
# Who answers for a continuation

A continuation goes through four states. It is dormant while it is only handed along or held, open
while a run or an unsettled join stands at its place, returning while it is about to be called or
dropped, and closed after that. The ledger lists all continuations there ever were, by these
states.
-/

namespace Interlace

variable {b : Behaviour}

def partOf (q : Place) : Place → Option Nat
  | [] => none
  | n :: p => if p = q then some n else none

theorem partOf_eq_some {q x : Place} {n : Nat} : partOf q x = some n ↔ x = n :: q := by
  cases x with
  | nil => simp [partOf]
  | cons m p => by_cases h : p = q <;> simp [partOf, h]

def itemPlaces (p : Place) (index count : Nat) : List Place :=
  (List.range' index count).map (· :: p)

@[simp] theorem itemPlaces_zero (p : Place) (index : Nat) : itemPlaces p index 0 = [] := rfl

@[simp] theorem itemPlaces_succ (p : Place) (index count : Nat) :
    itemPlaces p index (count + 1) = (index :: p) :: itemPlaces p (index + 1) count := rfl

theorem mem_itemPlaces {p x : Place} {index count : Nat} :
    x ∈ itemPlaces p index count ↔ ∃ n, index ≤ n ∧ n < index + count ∧ x = n :: p := by
  simp only [itemPlaces, List.mem_map, List.mem_range'_1]
  exact ⟨fun ⟨n, h, hx⟩ => ⟨n, h.1, h.2, hx.symm⟩, fun ⟨n, h, h', hx⟩ => ⟨n, ⟨h, h'⟩, hx.symm⟩⟩

theorem nodup_itemPlaces (p : Place) (index count : Nat) : (itemPlaces p index count).Nodup :=
  (List.nodup_range').map fun _ _ h => (List.cons.inj h).1

theorem filterMap_partOf_itemPlaces (p : Place) (index count : Nat) :
    (itemPlaces p index count).filterMap (partOf p) = List.range' index count := by
  simp [itemPlaces, List.filterMap_map, Function.comp_def, partOf]

/-! ## What jobs, nodes and events do to continuations -/

/-- The continuations that a job hands along. -/
def Job.dormant : Job b → List Place
  | .start p _ _ _ | .invoke p _ | .hold p _ => [p]
  | .items p index rest => itemPlaces p index rest.length
  | _ => []

/-- The continuation that a job calls or drops. -/
def Job.returning : Job b → List Place
  | .deliver p _ | .drop p => [p]
  | _ => []

def Job.carried (job : Job b) : List Place := job.dormant ++ job.returning

/-- Whether a job goes on with the run at `q`. -/
def Job.steers (q : Place) : Job b → Bool
  | .drive p _ | .check p => p == q
  | _ => false

def Job.starts (q : Place) : Job b → Bool
  | .items p _ _ => p == q
  | _ => false

@[simp] theorem Job.carried_poke (k : Poke) : (poke k : Job b).carried = [] := rfl

@[simp] theorem Job.steers_poke (q : Place) (k : Poke) : (poke k : Job b).steers q = false := rfl

@[simp] theorem Job.starts_poke (q : Place) (k : Poke) : (poke k : Job b).starts q = false := rfl

namespace Machine

@[simp] theorem carried_fateJob (p : Place) (f : Fate) : (fateJob p f : Job b).carried = [p] := by
  cases f <;> rfl

@[simp] theorem steers_fateJob (p q : Place) (f : Fate) :
    (fateJob p f : Job b).steers q = false := by
  cases f <;> rfl

@[simp] theorem starts_fateJob (p q : Place) (f : Fate) :
    (fateJob p f : Job b).starts q = false := by
  cases f <;> rfl

end Machine

/-- A top-level run that never parked keeps an uncaught error from its continuation. -/
def Escapes (p : Place) (wasParked : Bool) (o : Outcome) : Prop :=
  wasParked = false ∧ ∃ n e, p = [n] ∧ o = .error e ∧ e.isUncaught = true

theorem Machine.finish_of_not_escapes {p : Place} {wasParked : Bool} {o : Outcome}
    (h : ¬ Escapes p wasParked o) (m : Machine b) :
    m.finish p wasParked o = ([], m.push [.deliver p o]) := by
  fun_cases Machine.finish m p wasParked o with
  | case1 n e hEscapes =>
    simp only [Bool.and_eq_true, Bool.not_eq_true'] at hEscapes
    exact absurd ⟨hEscapes.1, n, e, rfl, rfl, hEscapes.2⟩ h
  | case2 => rfl
  | case3 => rfl

def Node.opened (p : Place) : Node b → List Place
  | .run _ => [p]
  | .gather g => if g.settled then [] else [p]

def Event.closed? : Event b → Option Place
  | .called p _ | .dropped p => some p
  | .escaped n _ => some [n]
  | _ => none

namespace Table

/-- At most one entry stands at a place. -/
def Keyed {α : Type} (t : Table α) : Prop := (t.entries.map Prod.fst).Nodup

theorem keyed_empty {α : Type} : (empty : Table α).Keyed := List.nodup_nil

theorem Keyed.erase {α : Type} {t : Table α} (h : t.Keyed) (p : Place) : (t.erase p).Keyed :=
  (List.filter_sublist.map Prod.fst).nodup h

theorem Keyed.insert {α : Type} {t : Table α} (h : t.Keyed) (p : Place) (a : α) :
    (t.insert p a).Keyed := by
  refine List.nodup_cons.mpr ⟨?_, h.erase p⟩
  simp [Table.erase]

def opened (t : Table (Node b)) : List Place := t.entries.flatMap fun e => e.2.opened e.1

def openedAt (t : Table (Node b)) (p : Place) : List Place :=
  match t.find? p with
  | some node => node.opened p
  | none => []

theorem erase_of_find?_eq_none {α : Type} {t : Table α} {p : Place} (h : t.find? p = none) :
    t.erase p = t := by
  have hAll : ∀ e ∈ t.entries, (e.1 != p) = true := by
    intro e he
    have := List.find?_eq_none.mp (Option.map_eq_none_iff.mp h) e he
    simpa using this
  rw [erase, List.filter_eq_self.mpr hAll]

theorem opened_erase {t : Table (Node b)} (h : t.Keyed) (p : Place) :
    (t.openedAt p ++ (t.erase p).opened).Perm t.opened := by
  obtain ⟨entries⟩ := t
  induction entries with
  | nil => exact .nil
  | cons e entries ih =>
    obtain ⟨q, node⟩ := e
    have hKeys := List.nodup_cons.mp h
    by_cases hq : q = p
    · subst hq
      have hNone : find? ⟨entries⟩ q = none := by
        simp only [find?, Option.map_eq_none_iff, List.find?_eq_none, beq_iff_eq]
        intro e he hEq
        exact hKeys.1 (List.mem_map.mpr ⟨e, he, hEq⟩)
      have hErase : erase ⟨(q, node) :: entries⟩ q = ⟨entries⟩ := by
        rw [← erase_of_find?_eq_none hNone]
        simp [erase]
      rw [hErase]
      simp [openedAt, find?, opened]
    · have hErase :
          erase ⟨(q, node) :: entries⟩ p = ⟨(q, node) :: (erase ⟨entries⟩ p).entries⟩ := by
        simp [erase, hq]
      have hAt : openedAt ⟨(q, node) :: entries⟩ p = openedAt ⟨entries⟩ p := by
        simp [openedAt, find?, hq]
      rw [hErase, hAt]
      have hTail := ih hKeys.2
      rw [List.perm_iff_count] at hTail ⊢
      intro x
      have := hTail x
      simp only [opened, List.flatMap_cons, List.count_append] at this ⊢
      omega

theorem opened_insert {t : Table (Node b)} (h : t.Keyed) (p : Place) (node : Node b) :
    (t.openedAt p ++ (t.insert p node).opened).Perm (node.opened p ++ t.opened) := by
  have hErase := opened_erase h p
  rw [List.perm_iff_count] at hErase ⊢
  intro x
  have := hErase x
  have hInsert : (t.insert p node).opened = node.opened p ++ (t.erase p).opened := rfl
  rw [hInsert]
  simp only [List.count_append] at this ⊢
  omega

theorem find?_of_mem_opened {t : Table (Node b)} (h : t.Keyed) {p : Place} (hp : p ∈ t.opened) :
    ∃ node, t.find? p = some node ∧ p ∈ node.opened p := by
  obtain ⟨⟨q, node⟩, he, hp⟩ := List.mem_flatMap.mp hp
  have hq : p = q := by
    cases node with
    | run r => exact List.mem_singleton.mp hp
    | gather g =>
      dsimp only [Node.opened] at hp
      split at hp
      · cases hp
      · exact List.mem_singleton.mp hp
  subst hq
  refine ⟨node, ?_, hp⟩
  rw [find?, Option.map_eq_some_iff]
  refine ⟨(p, node), ?_, rfl⟩
  rw [List.find?_eq_some_iff_append]
  obtain ⟨before, after, hEntries⟩ := List.append_of_mem he
  refine ⟨by simp, before, after, hEntries, fun e he' => ?_⟩
  rw [Keyed, hEntries, List.map_append, List.map_cons] at h
  have hNe : e.1 ≠ p := fun hEq => (List.nodup_append'.mp h).2.2
    (List.mem_map.mpr ⟨e, he', hEq⟩) List.mem_cons_self
  simp [hNe]

def update {α : Type} (t : Table α) (p : Place) : Option α → Table α
  | some a => t.insert p a
  | none => t.erase p

@[simp] theorem find?_update_self {α : Type} (t : Table α) (p : Place) (a : Option α) :
    (t.update p a).find? p = a := by
  cases a <;> simp [update]

theorem find?_update_of_ne {α : Type} (t : Table α) {p q : Place} (a : Option α) (h : q ≠ p) :
    (t.update p a).find? q = t.find? q := by
  cases a with
  | none => exact t.find?_erase_of_ne h
  | some a => exact t.find?_insert_of_ne a h

theorem Keyed.update {α : Type} {t : Table α} (h : t.Keyed) (p : Place) (a : Option α) :
    (t.update p a).Keyed := by
  cases a with
  | none => exact h.erase p
  | some a => exact h.insert p a

theorem opened_update {t : Table (Node b)} (h : t.Keyed) (p : Place) (node : Option (Node b)) :
    (t.openedAt p ++ (t.update p node).opened).Perm
      ((node.map (Node.opened p)).getD [] ++ t.opened) := by
  cases node with
  | none => exact opened_erase h p
  | some node => exact opened_insert h p node

theorem mem_opened_of_find? {t : Table (Node b)} (h : t.Keyed) {p x : Place} {node : Node b}
    (hFind : t.find? p = some node) (hx : x ∈ node.opened p) : x ∈ t.opened := by
  refine (opened_erase h p).mem_iff.mp (List.mem_append_left _ ?_)
  simpa [openedAt, hFind] using hx

end Table

theorem takeKeyed_perm {key : String} {held others : List Held} {p : Place}
    (h : takeKeyed key held = some (p, others)) :
    (p :: others.map Held.place).Perm (held.map Held.place) := by
  induction held generalizing p others with
  | nil =>
    rw [takeKeyed] at h
    cases h
  | cons e held ih =>
    have hNext : ∀ {p others}, takeKeyed.next key e held = some (p, others) →
        (p :: others.map Held.place).Perm ((e :: held).map Held.place) := by
      intro p others h
      rw [takeKeyed.next] at h
      obtain ⟨⟨p', others'⟩, hTake, hEq⟩ := Option.map_eq_some_iff.mp h
      obtain ⟨rfl, rfl⟩ := Prod.mk.inj hEq
      exact (List.Perm.swap _ _ _).trans ((ih hTake).cons e.place)
    rw [takeKeyed] at h
    split at h
    · split at h
      · obtain ⟨rfl, rfl⟩ := Prod.mk.inj (Option.some.inj h)
        exact .refl _
      · exact hNext h
    · exact hNext h

theorem takePlace_perm {p : Place} {held others : List Held} (hNodup : (held.map Held.place).Nodup)
    (h : takePlace p held = some others) :
    (p :: others.map Held.place).Perm (held.map Held.place) := by
  rw [takePlace] at h
  split at h
  · rename_i hAny
    cases h
    have hMem : p ∈ held.map Held.place := by
      obtain ⟨e, he, hEq⟩ := List.any_eq_true.mp hAny
      exact List.mem_map.mpr ⟨e, he, eq_of_beq hEq⟩
    have hErase : (held.filter (·.place != p)).map Held.place = (held.map Held.place).erase p := by
      rw [hNodup.erase_eq_filter, List.filter_map]
      rfl
    rw [hErase]
    exact (List.perm_cons_erase hMem).symm
  · cases h

/-! ## The ledger -/

namespace Machine

/-- The continuations that may still be called or dropped. -/
def live (m : Machine b) : List Place :=
  m.agenda.flatMap Job.carried ++ (m.held.map Held.place ++ m.nodes.opened)

def dormant (m : Machine b) : List Place := m.agenda.flatMap Job.dormant ++ m.held.map Held.place

def returning (m : Machine b) : List Place := m.agenda.flatMap Job.returning

def parts (m : Machine b) (q : Place) : List Nat := m.live.filterMap (partOf q)

def steering (m : Machine b) (q : Place) : List (Job b) := m.agenda.filter (Job.steers q)

def starting (m : Machine b) (q : Place) : Nat := m.agenda.countP (Job.starts q)

theorem live_perm (m : Machine b) : m.live.Perm (m.dormant ++ (m.nodes.opened ++ m.returning)) := by
  have hCarried : ∀ jobs : List (Job b), (jobs.flatMap Job.carried).Perm
      (jobs.flatMap Job.dormant ++ jobs.flatMap Job.returning) := by
    intro jobs
    induction jobs with
    | nil => exact .nil
    | cons job jobs ih =>
      rw [List.perm_iff_count] at ih ⊢
      intro x
      have := ih x
      simp only [List.flatMap_cons, Job.carried, List.count_append] at this ⊢
      omega
  have h := hCarried m.agenda
  rw [List.perm_iff_count] at h ⊢
  intro x
  have := h x
  simp only [live, dormant, returning, List.count_append] at this ⊢
  omega

theorem mem_parts {m : Machine b} {q : Place} {n : Nat} : n ∈ m.parts q ↔ n :: q ∈ m.live := by
  simp only [parts, List.mem_filterMap, partOf_eq_some]
  exact ⟨fun ⟨_, h, hx⟩ => hx ▸ h, fun h => ⟨_, h, rfl⟩⟩

end Machine

namespace History

def closed (h : History b) : List Place := h.log.filterMap Event.closed?

/-- The continuations that were called or dropped or are about to be. -/
def returned (h : History b) : List Place := h.machine.returning ++ h.closed

/-- All continuations there ever were. -/
def ledger (h : History b) : List Place := h.machine.live ++ h.closed

theorem ledger_perm (h : History b) :
    h.ledger.Perm (h.machine.dormant ++ (h.machine.nodes.opened ++ h.returned)) := by
  have hLive := h.machine.live_perm
  rw [List.perm_iff_count] at hLive ⊢
  intro x
  have := hLive x
  simp only [ledger, returned, List.count_append] at this ⊢
  omega

end History

end Interlace
