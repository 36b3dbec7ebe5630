import Interlace.Proofs.Drafts
import Mathlib.Data.List.Perm.Basic

/-!
# The tagged form read back

The text of a datum is read back as the datum, in whatever order the members of its objects stand,
as long as its numbers are finite and the text nests no deeper than allowed. Otherwise reading
fails; it never comes to another datum.
-/

namespace Interlace

open Json (Draft Cause)

namespace Json

mutual

def nesting : Json → Nat
  | array items => nestingItems items + 1
  | object members => nestingMembers members + 1
  | _ => 0

def nestingItems : List Json → Nat
  | [] => 0
  | j :: js => max j.nesting (nestingItems js)

def nestingMembers : List (String × Json) → Nat
  | [] => 0
  | (_, j) :: ms => max j.nesting (nestingMembers ms)

end

mutual

/-- What a document comes back as: without the numbers that are not finite. -/
def loaded : Json → Json
  | real x => if x.isFinite then real x else null
  | array items => array (loadedItems items)
  | object members => object (loadedMembers members)
  | j => j

def loadedItems : List Json → List Json
  | [] => []
  | j :: js => j.loaded :: loadedItems js

def loadedMembers : List (String × Json) → List (String × Json)
  | [] => []
  | (k, j) :: ms => (k, j.loaded) :: loadedMembers ms

end

def toReal? : Json → Option Number
  | real x => some x
  | _ => none

theorem nestingMembers_le {members : List (String × Json)} {n : Nat} :
    nestingMembers members ≤ n ↔ ∀ m ∈ members, m.2.nesting ≤ n := by
  induction members with
  | nil => simp [nestingMembers]
  | cons m members ih => rw [nestingMembers, Nat.max_le, ih, List.forall_mem_cons]

namespace Draft

theorem loadItems_draft {depth : Nat} {items : List Json}
    (hItems : ∀ j ∈ items, ∀ j', j.draft.load depth = .ok j' ↔ j.nesting ≤ depth ∧ j' = j.loaded) :
    ∀ js, loadItems depth (draftItems items) none = .ok js ↔
      nestingItems items ≤ depth ∧ js = loadedItems items := by
  induction items with
  | nil => simp [draftItems, loadItems, nestingItems, loadedItems, eq_comm]
  | cons j items ih =>
    have hFirst := hItems j List.mem_cons_self
    have hRest := ih fun j hj => hItems j (List.mem_cons_of_mem _ hj)
    intro js
    simp only [draftItems, loadItems, bind_eq_ok, hFirst, hRest, nestingItems, loadedItems,
      Nat.max_le]
    constructor
    · rintro ⟨_, ⟨hNesting, rfl⟩, _, ⟨hNestings, rfl⟩, hReturn⟩
      cases hReturn
      exact ⟨⟨hNesting, hNestings⟩, rfl⟩
    · rintro ⟨⟨hNesting, hNestings⟩, rfl⟩
      exact ⟨_, ⟨hNesting, rfl⟩, _, ⟨hNestings, rfl⟩, rfl⟩

theorem loadMembers_draft {depth : Nat} {members : List (String × Json)}
    (hMembers : ∀ m ∈ members, ∀ j', m.2.draft.load depth = .ok j' ↔
      m.2.nesting ≤ depth ∧ j' = m.2.loaded) :
    ∀ ms, loadMembers depth (draftMembers members) none = .ok ms ↔
      nestingMembers members ≤ depth ∧ ms = loadedMembers members := by
  induction members with
  | nil => simp [draftMembers, loadMembers, nestingMembers, loadedMembers, eq_comm]
  | cons m members ih =>
    obtain ⟨k, j⟩ := m
    have hFirst := hMembers (k, j) List.mem_cons_self
    have hRest := ih fun m hm => hMembers m (List.mem_cons_of_mem _ hm)
    intro ms
    simp only [draftMembers, loadMembers, bind_eq_ok, hFirst, hRest, nestingMembers, loadedMembers,
      Nat.max_le]
    constructor
    · rintro ⟨_, hKey, _, ⟨hNesting, rfl⟩, _, ⟨hNestings, rfl⟩, hReturn⟩
      cases hKey
      cases hReturn
      exact ⟨⟨hNesting, hNestings⟩, rfl⟩
    · rintro ⟨⟨hNesting, hNestings⟩, rfl⟩
      exact ⟨_, rfl, _, ⟨hNesting, rfl⟩, _, ⟨hNestings, rfl⟩, rfl⟩

theorem load_draft (j : Json) (depth : Nat) (j' : Json) :
    j.draft.load depth = .ok j' ↔ j.nesting ≤ depth ∧ j' = j.loaded := by
  induction j using Json.induct generalizing depth j' with
  | null | bool | integer | string =>
    simp [Json.draft, load, nesting, loaded, eq_comm, bind, Except.bind, pure, Except.pure]
  | real x =>
    simp only [Json.draft, nesting, loaded]
    split <;> simp [load, eq_comm]
  | array items ih =>
    simp only [Json.draft, load, nesting, loaded]
    cases depth with
    | zero => simp
    | succ depth =>
      simp only [bind_eq_ok, loadItems_draft fun j hj => ih j hj depth]
      constructor
      · rintro ⟨_, ⟨hNesting, rfl⟩, hReturn⟩
        cases hReturn
        exact ⟨by omega, rfl⟩
      · rintro ⟨hNesting, rfl⟩
        exact ⟨_, ⟨by omega, rfl⟩, rfl⟩
  | object members ih =>
    simp only [Json.draft, load, nesting, loaded]
    cases depth with
    | zero => simp
    | succ depth =>
      simp only [bind_eq_ok, loadMembers_draft fun m hm => ih m hm depth]
      constructor
      · rintro ⟨_, ⟨hNesting, rfl⟩, hReturn⟩
        cases hReturn
        exact ⟨by omega, rfl⟩
      · rintro ⟨hNesting, rfl⟩
        exact ⟨_, ⟨by omega, rfl⟩, rfl⟩

end Draft

end Json

/-! ## Members in order -/

namespace Datum

section Sorting

variable {α : Type} {key : String} {members sorted : List (String × α)}

theorem insertMember_perm (value : α) (hKey : key ∉ members.map Prod.fst) :
    (insertMember key value members).Perm ((key, value) :: members) := by
  induction members with
  | nil => exact List.Perm.refl _
  | cons m members ih =>
    obtain ⟨k, v⟩ := m
    simp only [List.map_cons, List.mem_cons, not_or] at hKey
    rw [insertMember]
    split
    case isTrue => exact List.Perm.refl _
    case isFalse =>
      rw [if_neg hKey.1]
      exact ((ih hKey.2).cons _).trans (List.Perm.swap _ _ _)

theorem ascending_insertMember (value : α) (hAscending : Ascending members)
    (hKey : key ∉ members.map Prod.fst) :
    Ascending (insertMember key value members) := by
  induction members with
  | nil => exact List.pairwise_singleton _ _
  | cons m members ih =>
    obtain ⟨k, v⟩ := m
    obtain ⟨hLeast, hRest⟩ := List.pairwise_cons.mp hAscending
    simp only [List.map_cons, List.mem_cons, not_or] at hKey
    rw [insertMember]
    split
    case isTrue hLess =>
      refine List.pairwise_cons.mpr ⟨fun k' hk' => ?_, hAscending⟩
      rcases List.mem_cons.mp hk' with rfl | hk'
      · exact hLess
      · exact String.lt_trans hLess (hLeast k' hk')
    case isFalse hLess =>
      rw [if_neg hKey.1]
      refine List.pairwise_cons.mpr ⟨fun k' hk' => ?_, ih hRest hKey.2⟩
      have hPerm := (insertMember_perm value hKey.2).map Prod.fst
      rcases List.mem_cons.mp (hPerm.mem_iff.mp hk') with rfl | hk'
      · exact Decidable.byContradiction fun h =>
          hKey.1 (String.le_antisymm (String.not_lt.mp h) (String.not_lt.mp hLess))
      · exact hLeast k' hk'

theorem sortMembers_eq (hPerm : members.Perm sorted) (hAscending : Ascending sorted) :
    sortMembers members = sorted := by
  have hInsert : ∀ (rest acc : List (String × α)), Ascending acc →
      ((acc ++ rest).map Prod.fst).Nodup →
        (rest.foldl (fun sorted m => insertMember m.1 m.2 sorted) acc).Perm (acc ++ rest) ∧
          Ascending (rest.foldl (fun sorted m => insertMember m.1 m.2 sorted) acc) := by
    intro rest
    induction rest with
    | nil =>
      intro acc hAcc _
      exact ⟨by simp, hAcc⟩
    | cons m rest ih =>
      intro acc hAcc hDistinct
      have hMiddle : (acc ++ m :: rest).Perm (m :: acc ++ rest) := List.perm_middle
      have hKey : m.1 ∉ acc.map Prod.fst := by
        have hNodup := (hMiddle.map Prod.fst).nodup_iff.mp hDistinct
        simp only [List.cons_append, List.map_cons, List.map_append, List.nodup_cons,
          List.mem_append, not_or] at hNodup
        exact hNodup.1.1
      have hNew := (insertMember_perm m.2 hKey).append_right rest
      obtain ⟨hAll, hSorted⟩ := ih (insertMember m.1 m.2 acc) (ascending_insertMember m.2 hAcc hKey)
        (((hNew.trans hMiddle.symm).map Prod.fst).nodup_iff.mpr hDistinct)
      exact ⟨hAll.trans (hNew.trans hMiddle.symm), hSorted⟩
  have hDistinct : ((members.map Prod.fst)).Nodup := by
    refine (hPerm.map Prod.fst).nodup_iff.mpr (hAscending.imp fun hLess hEq => ?_)
    exact String.lt_irrefl _ (hEq ▸ hLess)
  obtain ⟨hAll, hSorted⟩ := hInsert members [] List.Pairwise.nil hDistinct
  refine List.Perm.eq_of_pairwise (fun m m' _ _ hLess hLess' => ?_) (List.pairwise_map.mp hSorted)
    (List.pairwise_map.mp hAscending) (hAll.trans hPerm)
  exact absurd hLess' (String.lt_asymm hLess)

end Sorting

/-! ## Texts of a datum -/

mutual

def EachNumber (P : Number → Prop) : Datum → Prop
  | number x => P x
  | list items => EachNumberItems P items
  | record members => EachNumberMembers P members
  | _ => True

def EachNumberItems (P : Number → Prop) : List Datum → Prop
  | [] => True
  | d :: ds => d.EachNumber P ∧ EachNumberItems P ds

def EachNumberMembers (P : Number → Prop) : List (String × Datum) → Prop
  | [] => True
  | (_, d) :: ms => d.EachNumber P ∧ EachNumberMembers P ms

end

def Finite (v : Datum) : Prop := v.EachNumber fun x => x.isFinite = true

end Datum

/-- The object of a tag and its content, with either of the two first. -/
def Tag.Wraps (t : Tag) (content j : Json) : Prop :=
  j = t.wrap content ∨ j = .object [("v", content), ("t", .string t.name)]

namespace Datum

mutual

/-- The documents that a datum may be written as. The members of a tagged object come in either
order, and those of a record in any. -/
def Forms : Datum → Json → Prop
  | null, j => j = tagged null
  | bool b, j => Tag.bool.Wraps (.bool b) j
  | number x, j => Tag.number.Wraps (.real x) j
  | text s, j => Tag.text.Wraps (.string s) j
  | list items, j => ∃ forms, FormsItems items forms ∧ Tag.list.Wraps (.array forms) j
  | record members, j =>
    ∃ forms forms', FormsMembers members forms ∧ forms'.Perm forms ∧
      Tag.record.Wraps (.object forms') j
  | error p, j => Tag.error.Wraps p.toJson j

def FormsItems : List Datum → List Json → Prop
  | [], js => js = []
  | d :: ds, js => ∃ j js', d.Forms j ∧ FormsItems ds js' ∧ js = j :: js'

def FormsMembers : List (String × Datum) → List (String × Json) → Prop
  | [], ms => ms = []
  | (k, d) :: ds, ms => ∃ j ms', d.Forms j ∧ FormsMembers ds ms' ∧ ms = (k, j) :: ms'

end

theorem eachNumberItems_iff {P : Number → Prop} {items : List Datum} :
    EachNumberItems P items ↔ ∀ d ∈ items, d.EachNumber P := by
  induction items with
  | nil => simp [EachNumberItems]
  | cons d items ih => rw [EachNumberItems, ih, List.forall_mem_cons]

theorem eachNumberMembers_iff {P : Number → Prop} {members : List (String × Datum)} :
    EachNumberMembers P members ↔ ∀ m ∈ members, m.2.EachNumber P := by
  induction members with
  | nil => simp [EachNumberMembers]
  | cons m members ih => rw [EachNumberMembers, ih, List.forall_mem_cons]

theorem normalItems_iff {items : List Datum} : NormalItems items ↔ ∀ d ∈ items, d.Normal := by
  induction items with
  | nil => simp [NormalItems]
  | cons d items ih => rw [NormalItems, ih, List.forall_mem_cons]

theorem normalMembers_iff {members : List (String × Datum)} :
    NormalMembers members ↔ ∀ m ∈ members, m.2.Normal := by
  induction members with
  | nil => simp [NormalMembers]
  | cons m members ih => rw [NormalMembers, ih, List.forall_mem_cons]

theorem formsItems_iff {items : List Datum} {js : List Json} :
    FormsItems items js ↔ List.Forall₂ Forms items js := by
  induction items generalizing js with
  | nil => rw [FormsItems, List.forall₂_nil_left_iff]
  | cons d items ih =>
    rw [FormsItems, List.forall₂_cons_left_iff]
    simp only [ih]

theorem formsMembers_iff {members : List (String × Datum)} {ms : List (String × Json)} :
    FormsMembers members ms ↔ List.Forall₂ (fun m f => m.1 = f.1 ∧ m.2.Forms f.2) members ms := by
  induction members generalizing ms with
  | nil => rw [FormsMembers, List.forall₂_nil_left_iff]
  | cons m members ih =>
    obtain ⟨k, d⟩ := m
    rw [FormsMembers, List.forall₂_cons_left_iff]
    constructor
    · rintro ⟨j, ms', hForm, hForms, rfl⟩
      exact ⟨(k, j), ms', ⟨rfl, hForm⟩, ih.mp hForms, rfl⟩
    · rintro ⟨⟨k', j⟩, ms', ⟨rfl, hForm⟩, hForms, rfl⟩
      exact ⟨j, ms', hForm, ih.mpr hForms, rfl⟩

theorem forms_tagged (v : Datum) : v.Forms v.tagged := by
  induction v using Datum.induct with
  | null => exact rfl
  | bool | number | text | error => exact Or.inl rfl
  | list items ih =>
    refine ⟨taggedItems items, formsItems_iff.mpr ?_, Or.inl rfl⟩
    rw [taggedItems_eq_map]
    exact List.forall₂_map_right_iff.mpr (List.forall₂_same.mpr ih)
  | record members ih =>
    refine ⟨taggedMembers members, _, formsMembers_iff.mpr ?_, List.Perm.refl _, Or.inl rfl⟩
    rw [taggedMembers_eq_map]
    exact List.forall₂_map_right_iff.mpr (List.forall₂_same.mpr fun m hm => ⟨rfl, ih m hm⟩)

/-! ## Reading a text of a datum -/

/-- A document is read as a datum just if the numbers are finite and the depth allows it, both from
its text and once it has been loaded. -/
structure Recovers (v : Datum) (j : Json) : Prop where
  reads : ∀ depth w, j.draft.readDatum depth = .ok w ↔ v.Finite ∧ j.nesting ≤ depth ∧ w = v
  judged : ∀ w, j.loaded.toDatum? = some w ↔ v.Finite ∧ w = v

structure Holds (v : Datum) (content : Json) : Prop where
  reads : ∀ depth w, content.draft.readContent depth v.tag = .ok w ↔
    v.Finite ∧ content.nesting ≤ depth ∧ w = v
  judged : ∀ w, content.loaded.content? v.tag = some w ↔ v.Finite ∧ w = v

theorem readTagged_name (t : Tag) (depth : Nat) (rest : List (Except Cause String × Draft)) :
    Draft.readTagged depth .nothing ((.ok "t", .string (.ok t.name)) :: rest) none =
      Draft.readTagged depth (.tag t) rest none := by
  cases t <;> rfl

theorem readTagged_content (t : Tag) (d : Draft) (depth : Nat) :
    Draft.readTagged depth (.tag t) [(.ok "v", d)] none = d.readContent depth t := by
  change (d.readContent depth t >>= fun x => .ok x) = _
  cases d.readContent depth t <;> rfl

theorem readTagged_load (d : Draft) (depth : Nat) (rest : List (Except Cause String × Draft)) :
    Draft.readTagged depth .nothing ((.ok "v", d) :: rest) none =
      d.load depth >>= fun j => Draft.readTagged depth (.content j) rest none := rfl

theorem readName_string {α : Type} {ofName? : String → Option α} {name : String} {x : α}
    (hName : ofName? name = some x) (depth : Nat) :
    Draft.readName ofName? depth (.string (.ok name)) = .ok x := by
  simp only [Draft.readName, bind, Except.bind, hName, pure, Except.pure]

theorem readTagged_judge (t : Tag) (j : Json) (depth : Nat) (w : Datum) :
    Draft.readTagged depth (.content j) [(.ok "t", .string (.ok t.name))] none = .ok w ↔
      j.content? t = some w := by
  have hName := readName_string (Tag.ofName?_name t) depth
  have hKey : Field.ofKey "t" "v" "t" = .first := rfl
  cases hContent : j.content? t <;>
    simp [Draft.readTagged, hKey, hName, hContent, bind, Except.bind]

theorem nesting_wraps {t : Tag} {content j : Json} (hWraps : t.Wraps content j) :
    j.nesting = content.nesting + 1 := by
  rcases hWraps with rfl | rfl <;> simp [Tag.wrap, Json.nesting, Json.nestingMembers]

theorem toDatum?_wraps {t : Tag} {content j : Json} (hWraps : t.Wraps content j) :
    j.loaded.toDatum? = content.loaded.content? t := by
  rcases hWraps with rfl | rfl <;> cases t <;> rfl

theorem Holds.recovers {v : Datum} {content j : Json} (hHolds : v.Holds content)
    (hWraps : v.tag.Wraps content j) : v.Recovers j where
  reads depth w := by
    have hNesting := nesting_wraps hWraps
    cases depth with
    | zero =>
      rw [hNesting]
      rcases hWraps with rfl | rfl <;> simp [Tag.wrap, Json.draft, Draft.readDatum]
    | succ depth =>
      rw [hNesting, Nat.succ_le_succ_iff]
      rcases hWraps with rfl | rfl
      · change Draft.readTagged depth .nothing [(.ok "t", .string (.ok v.tag.name)),
          (.ok "v", content.draft)] none = .ok w ↔ _
        rw [readTagged_name, readTagged_content, hHolds.reads]
      · change Draft.readTagged depth .nothing [(.ok "v", content.draft),
          (.ok "t", .string (.ok v.tag.name))] none = .ok w ↔ _
        rw [readTagged_load, Json.bind_eq_ok]
        simp only [Draft.load_draft, readTagged_judge]
        constructor
        · rintro ⟨_, ⟨hDepth, rfl⟩, hJudged⟩
          obtain ⟨hFinite, rfl⟩ := (hHolds.judged w).mp hJudged
          exact ⟨hFinite, hDepth, rfl⟩
        · rintro ⟨hFinite, hDepth, rfl⟩
          exact ⟨_, ⟨hDepth, rfl⟩, (hHolds.judged _).mpr ⟨hFinite, rfl⟩⟩
  judged w := by rw [toDatum?_wraps hWraps, hHolds.judged]

theorem recovers_null : null.Recovers (tagged null) where
  reads depth w := by
    cases depth with
    | zero => simp [tagged, Json.draft, Draft.readDatum, Json.nesting]
    | succ depth =>
      change Except.ok null = Except.ok w ↔ _
      simp [Finite, EachNumber, tagged, Json.nesting, Json.nestingMembers, eq_comm]
  judged w := by
    change some null = some w ↔ _
    simp [Finite, EachNumber, eq_comm]

theorem holds_bool (b : Bool) : (bool b).Holds (.bool b) where
  reads depth w := by
    change Except.ok (bool b) = Except.ok w ↔ _
    simp [Finite, EachNumber, Json.nesting, eq_comm]
  judged w := by
    change some (bool b) = some w ↔ _
    simp [Finite, EachNumber, eq_comm]

theorem holds_text (s : String) : (text s).Holds (.string s) where
  reads depth w := by
    change Except.ok (text s) = Except.ok w ↔ _
    simp [Finite, EachNumber, Json.nesting, eq_comm]
  judged w := by
    change some (text s) = some w ↔ _
    simp [Finite, EachNumber, eq_comm]

theorem holds_number (x : Number) : (number x).Holds (.real x) where
  reads depth w := by
    cases hFinite : x.isFinite with
    | true =>
      have hDraft : (Json.real x).draft = .real x := by rw [Json.draft, if_pos hFinite]
      rw [hDraft]
      change Except.ok (number x) = Except.ok w ↔ _
      simp [Finite, EachNumber, hFinite, Json.nesting, eq_comm]
    | false =>
      have hDraft : (Json.real x).draft = .null := by rw [Json.draft, hFinite]; rfl
      rw [hDraft]
      change Except.error _ = Except.ok w ↔ _
      simp [Finite, EachNumber, hFinite]
  judged w := by
    cases hFinite : x.isFinite with
    | true =>
      have hLoaded : (Json.real x).loaded = .real x := by rw [Json.loaded, if_pos hFinite]
      rw [hLoaded]
      change some (number x) = some w ↔ _
      simp [Finite, EachNumber, hFinite, eq_comm]
    | false =>
      have hLoaded : (Json.real x).loaded = .null := by rw [Json.loaded, hFinite]; rfl
      rw [hLoaded]
      change none = some w ↔ _
      simp [Finite, EachNumber, hFinite]

theorem holds_error (p : Problem) : (error p).Holds p.toJson where
  reads depth w := by
    cases depth with
    | zero =>
      change Except.error _ = Except.ok w ↔ _
      simp [Problem.toJson, Json.nesting]
    | succ depth =>
      change Except.ok (error p) = Except.ok w ↔ _
      simp [Finite, EachNumber, Problem.toJson, Json.nesting, Json.nestingMembers, eq_comm]
  judged w := by
    change some (error p) = some w ↔ _
    simp [Finite, EachNumber, eq_comm]

theorem readData_recovers {items : List Datum} {js : List Json}
    (hItems : List.Forall₂ Recovers items js) (depth : Nat) :
    ∀ ws, Draft.readData depth (Json.draftItems js) none = .ok ws ↔
      (∀ d ∈ items, d.Finite) ∧ Json.nestingItems js ≤ depth ∧ ws = items := by
  induction hItems with
  | nil => simp [Json.draftItems, Draft.readData, Json.nestingItems, eq_comm]
  | cons hFirst _ ih =>
    intro ws
    simp only [Json.draftItems, Draft.readData, Json.bind_eq_ok, hFirst.reads, ih,
      List.forall_mem_cons, Json.nestingItems, Nat.max_le]
    constructor
    · rintro ⟨_, ⟨hFinite, hDepth, rfl⟩, _, ⟨hFinites, hDepths, rfl⟩, hReturn⟩
      cases hReturn
      exact ⟨⟨hFinite, hFinites⟩, ⟨hDepth, hDepths⟩, rfl⟩
    · rintro ⟨⟨hFinite, hFinites⟩, ⟨hDepth, hDepths⟩, rfl⟩
      exact ⟨_, ⟨hFinite, hDepth, rfl⟩, _, ⟨hFinites, hDepths, rfl⟩, rfl⟩

theorem toData?_recovers {items : List Datum} {js : List Json}
    (hItems : List.Forall₂ Recovers items js) :
    ∀ ws, Json.toData? (Json.loadedItems js) = some ws ↔ (∀ d ∈ items, d.Finite) ∧ ws = items := by
  induction hItems with
  | nil => simp [Json.loadedItems, Json.toData?, eq_comm]
  | cons hFirst _ ih =>
    intro ws
    simp only [Json.loadedItems, Json.toData?, Option.bind_eq_bind, Option.bind_eq_some_iff,
      hFirst.judged, ih, List.forall_mem_cons]
    constructor
    · rintro ⟨_, ⟨hFinite, rfl⟩, _, ⟨hFinites, rfl⟩, hReturn⟩
      cases hReturn
      exact ⟨⟨hFinite, hFinites⟩, rfl⟩
    · rintro ⟨⟨hFinite, hFinites⟩, rfl⟩
      exact ⟨_, ⟨hFinite, rfl⟩, _, ⟨hFinites, rfl⟩, rfl⟩

theorem finite_list {items : List Datum} : (list items).Finite ↔ ∀ d ∈ items, d.Finite :=
  eachNumberItems_iff

theorem finite_record {members : List (String × Datum)} :
    (record members).Finite ↔ ∀ m ∈ members, m.2.Finite :=
  eachNumberMembers_iff

theorem holds_list {items : List Datum} {js : List Json} (hItems : List.Forall₂ Recovers items js) :
    (list items).Holds (.array js) where
  reads depth w := by
    rw [finite_list, Json.nesting]
    cases depth with
    | zero =>
      change Except.error _ = Except.ok w ↔ _
      simp
    | succ depth =>
      change (list <$> Draft.readData depth (Json.draftItems js) none) = _ ↔ _
      rw [Json.map_eq_ok, Nat.succ_le_succ_iff]
      simp only [readData_recovers hItems]
      constructor
      · rintro ⟨_, ⟨hFinite, hDepth, rfl⟩, rfl⟩
        exact ⟨hFinite, hDepth, rfl⟩
      · rintro ⟨hFinite, hDepth, rfl⟩
        exact ⟨_, ⟨hFinite, hDepth, rfl⟩, rfl⟩
  judged w := by
    change (Json.toData? (Json.loadedItems js)).map list = some w ↔ _
    rw [finite_list, Option.map_eq_some_iff]
    simp only [toData?_recovers hItems]
    constructor
    · rintro ⟨_, ⟨hFinite, rfl⟩, rfl⟩
      exact ⟨hFinite, rfl⟩
    · rintro ⟨hFinite, rfl⟩
      exact ⟨_, ⟨hFinite, rfl⟩, rfl⟩

def RecoversMember (m : String × Datum) (f : String × Json) : Prop := m.1 = f.1 ∧ m.2.Recovers f.2

theorem readRecord_recovers {members : List (String × Datum)} {ms : List (String × Json)}
    (hMembers : List.Forall₂ RecoversMember members ms) (depth : Nat) :
    ∀ ws, Draft.readRecord depth (Json.draftMembers ms) none = .ok ws ↔
      (∀ m ∈ members, m.2.Finite) ∧ Json.nestingMembers ms ≤ depth ∧ ws = members := by
  induction hMembers with
  | nil => simp [Json.draftMembers, Draft.readRecord, Json.nestingMembers, eq_comm]
  | @cons m f members ms hFirst _ ih =>
    obtain ⟨k, d⟩ := m
    obtain ⟨k', j⟩ := f
    obtain ⟨rfl, hFirst⟩ := hFirst
    intro ws
    simp only [Json.draftMembers, Draft.readRecord, Json.bind_eq_ok, hFirst.reads, ih,
      List.forall_mem_cons, Json.nestingMembers, Nat.max_le]
    constructor
    · rintro ⟨_, hKey, _, ⟨hFinite, hDepth, rfl⟩, _, ⟨hFinites, hDepths, rfl⟩, hReturn⟩
      cases hKey
      cases hReturn
      exact ⟨⟨hFinite, hFinites⟩, ⟨hDepth, hDepths⟩, rfl⟩
    · rintro ⟨⟨hFinite, hFinites⟩, ⟨hDepth, hDepths⟩, rfl⟩
      exact ⟨_, rfl, _, ⟨hFinite, hDepth, rfl⟩, _, ⟨hFinites, hDepths, rfl⟩, rfl⟩

theorem toMembers?_recovers {members : List (String × Datum)} {ms : List (String × Json)}
    (hMembers : List.Forall₂ RecoversMember members ms) :
    ∀ ws, Json.toMembers? (Json.loadedMembers ms) = some ws ↔
      (∀ m ∈ members, m.2.Finite) ∧ ws = members := by
  induction hMembers with
  | nil => simp [Json.loadedMembers, Json.toMembers?, eq_comm]
  | @cons m f members ms hFirst _ ih =>
    obtain ⟨k, d⟩ := m
    obtain ⟨k', j⟩ := f
    obtain ⟨rfl, hFirst⟩ := hFirst
    intro ws
    simp only [Json.loadedMembers, Json.toMembers?, Option.bind_eq_bind, Option.bind_eq_some_iff,
      hFirst.judged, ih, List.forall_mem_cons]
    constructor
    · rintro ⟨_, ⟨hFinite, rfl⟩, _, ⟨hFinites, rfl⟩, hReturn⟩
      cases hReturn
      exact ⟨⟨hFinite, hFinites⟩, rfl⟩
    · rintro ⟨⟨hFinite, hFinites⟩, rfl⟩
      exact ⟨_, ⟨hFinite, rfl⟩, _, ⟨hFinites, rfl⟩, rfl⟩

theorem holds_record {members members' : List (String × Datum)} {ms : List (String × Json)}
    (hPerm : members'.Perm members) (hAscending : Ascending members)
    (hMembers : List.Forall₂ RecoversMember members' ms) : (record members).Holds (.object ms) := by
  have hSorted : ofMembers members' = record members :=
    congrArg record (sortMembers_eq hPerm hAscending)
  have hFinites : (record members).Finite ↔ ∀ m ∈ members', m.2.Finite := by
    simp only [finite_record, hPerm.mem_iff]
  constructor
  case reads =>
    intro depth w
    rw [hFinites, Json.nesting]
    cases depth with
    | zero =>
      change Except.error _ = Except.ok w ↔ _
      simp
    | succ depth =>
      change (ofMembers <$> Draft.readRecord depth (Json.draftMembers ms) none) = _ ↔ _
      rw [Json.map_eq_ok, Nat.succ_le_succ_iff]
      simp only [readRecord_recovers hMembers]
      constructor
      · rintro ⟨_, ⟨hFinite, hDepth, rfl⟩, rfl⟩
        exact ⟨hFinite, hDepth, hSorted⟩
      · rintro ⟨hFinite, hDepth, rfl⟩
        exact ⟨_, ⟨hFinite, hDepth, rfl⟩, hSorted⟩
  case judged =>
    intro w
    change (Json.toMembers? (Json.loadedMembers ms)).map ofMembers = some w ↔ _
    rw [hFinites, Option.map_eq_some_iff]
    simp only [toMembers?_recovers hMembers]
    constructor
    · rintro ⟨_, ⟨hFinite, rfl⟩, rfl⟩
      exact ⟨hFinite, hSorted⟩
    · rintro ⟨hFinite, rfl⟩
      exact ⟨_, ⟨hFinite, rfl⟩, hSorted⟩

/-- Every text of a datum is read as the datum, or not at all. -/
theorem Forms.recovers {v : Datum} (hNormal : v.Normal) {j : Json} (hForms : v.Forms j) :
    v.Recovers j := by
  induction v using Datum.induct generalizing j with
  | null =>
    cases hForms
    exact recovers_null
  | bool b => exact (holds_bool b).recovers hForms
  | number x => exact (holds_number x).recovers hForms
  | text s => exact (holds_text s).recovers hForms
  | error p => exact (holds_error p).recovers hForms
  | list items ih =>
    obtain ⟨forms, hItems, hWraps⟩ := hForms
    have hParts : ∀ d ∈ items, ∀ j, d.Forms j → d.Recovers j := fun d hd j hForm =>
      ih d hd (normalItems_iff.mp hNormal d hd) hForm
    refine (holds_list ?_).recovers hWraps
    exact ((List.forall₂_and_left _ _).mpr ⟨hParts, formsItems_iff.mp hItems⟩).imp
      fun d j h => h.1 j h.2
  | record members ih =>
    obtain ⟨forms, forms', hMembers, hPerm, hWraps⟩ := hForms
    obtain ⟨members', hFlip, hPerm'⟩ :=
      List.perm_comp_forall₂ hPerm (formsMembers_iff.mp hMembers).flip
    have hParts : ∀ m ∈ members', ∀ j, m.2.Forms j → m.2.Recovers j := fun m hm j hForm =>
      have hMember := hPerm'.mem_iff.mp hm
      ih m hMember (normalMembers_iff.mp hNormal.2 m hMember) hForm
    refine (holds_record hPerm' hNormal.1 ?_).recovers hWraps
    exact ((List.forall₂_and_left _ _).mpr ⟨hParts, hFlip.flip⟩).imp
      fun m f h => ⟨h.2.1, h.1 f.2 h.2.2⟩

theorem forall_mem_of_forall₂ {α β : Type} {R : α → β → Prop} {P : β → Prop} {as : List α}
    {bs : List β} (hPairs : List.Forall₂ R as bs) (hEach : ∀ a ∈ as, ∀ b, R a b → P b) :
    ∀ b ∈ bs, P b := by
  induction hPairs with
  | nil => simp
  | cons hFirst _ ih =>
    rw [List.forall_mem_cons] at hEach ⊢
    exact ⟨hEach.1 _ hFirst, ih hEach.2⟩

theorem Forms.legible {v : Datum} {j : Json} (hForms : v.Forms j)
    (hDoubles : v.EachNumber fun x => x.isFinite = true → (Json.real x).ReadsBack) : j.Legible := by
  have hWrapped : ∀ {t : Tag} {content j : Json}, t.Wraps content j → content.Legible →
      j.Legible := by
    intro t content j hWraps hContent
    rcases hWraps with rfl | rfl
    · exact ⟨trivial, hContent, trivial⟩
    · exact ⟨hContent, trivial, trivial⟩
  induction v using Datum.induct generalizing j with
  | null =>
    cases hForms
    exact ⟨trivial, trivial⟩
  | bool | text => exact hWrapped hForms trivial
  | error p => exact hWrapped hForms ⟨trivial, trivial, trivial⟩
  | number x => exact hWrapped hForms hDoubles
  | list items ih =>
    obtain ⟨forms, hItems, hWraps⟩ := hForms
    refine hWrapped hWraps (Json.legibleItems_iff.mpr ?_)
    exact forall_mem_of_forall₂ (formsItems_iff.mp hItems) fun d hd j hForm =>
      ih d hd hForm (eachNumberItems_iff.mp hDoubles d hd)
  | record members ih =>
    obtain ⟨forms, forms', hMembers, hPerm, hWraps⟩ := hForms
    refine hWrapped hWraps (Json.legibleMembers_iff.mpr fun f hf => ?_)
    exact forall_mem_of_forall₂ (formsMembers_iff.mp hMembers) (fun m hm f hForm =>
      ih m hm hForm.2 (eachNumberMembers_iff.mp hDoubles m hm)) f (hPerm.mem_iff.mp hf)

theorem nestingMembers_perm {ms ms' : List (String × Json)} (hPerm : ms.Perm ms') :
    Json.nestingMembers ms = Json.nestingMembers ms' := by
  have hSubset : ∀ {ms ms' : List (String × Json)}, ms ⊆ ms' →
      Json.nestingMembers ms ≤ Json.nestingMembers ms' := fun hSubset =>
    Json.nestingMembers_le.mpr fun m hm => Json.nestingMembers_le.mp (Nat.le_refl _) m (hSubset hm)
  exact Nat.le_antisymm (hSubset hPerm.subset) (hSubset hPerm.symm.subset)

theorem nestingItems_eq {items : List Datum} {js : List Json}
    (hItems : List.Forall₂ (fun d j => j.nesting = d.tagged.nesting) items js) :
    Json.nestingItems js = Json.nestingItems (taggedItems items) := by
  induction hItems with
  | nil => rfl
  | cons hFirst _ ih => rw [taggedItems, Json.nestingItems, Json.nestingItems, hFirst, ih]

theorem nestingMembers_eq {members : List (String × Datum)} {ms : List (String × Json)}
    (hMembers : List.Forall₂ (fun m f => f.2.nesting = m.2.tagged.nesting) members ms) :
    Json.nestingMembers ms = Json.nestingMembers (taggedMembers members) := by
  induction hMembers with
  | nil => rfl
  | cons hFirst _ ih => rw [taggedMembers, Json.nestingMembers, Json.nestingMembers, hFirst, ih]

theorem Forms.nesting_eq {v : Datum} {j : Json} (hForms : v.Forms j) :
    j.nesting = v.tagged.nesting := by
  induction v using Datum.induct generalizing j with
  | null => rw [hForms]
  | bool | number | text | error =>
    rw [nesting_wraps hForms]
    rfl
  | list items ih =>
    obtain ⟨forms, hItems, hWraps⟩ := hForms
    have hParts : ∀ d ∈ items, ∀ j, d.Forms j → j.nesting = d.tagged.nesting :=
      fun d hd j hForm => ih d hd hForm
    have hNestings := nestingItems_eq (((List.forall₂_and_left _ _).mpr
      ⟨hParts, formsItems_iff.mp hItems⟩).imp fun d j h => h.1 j h.2)
    rw [nesting_wraps hWraps, tagged, nesting_wraps (Or.inl rfl), Json.nesting, Json.nesting,
      hNestings]
  | record members ih =>
    obtain ⟨forms, forms', hMembers, hPerm, hWraps⟩ := hForms
    have hParts : ∀ m ∈ members, ∀ j, m.2.Forms j → j.nesting = m.2.tagged.nesting :=
      fun m hm j hForm => ih m hm hForm
    have hNestings := nestingMembers_eq (((List.forall₂_and_left _ _).mpr
      ⟨hParts, formsMembers_iff.mp hMembers⟩).imp fun m f h => h.1 f.2 h.2.2)
    rw [nesting_wraps hWraps, tagged, nesting_wraps (Or.inl rfl), Json.nesting, Json.nesting,
      nestingMembers_perm hPerm, hNestings]

/-- What the tagged form of a datum keeps to, whatever order a text of it has. The form that is
written is among the forms that may be. A text of finite numbers that nests no deeper than allowed
is read back, and any other text is refused. No text is read as another datum, and the order of the
members makes no difference to what is read. -/
structure RoundTrip (v : Datum) : Prop where
  written : v.Forms v.tagged
  reads : ∀ j, v.Forms j → v.Finite → j.nesting ≤ depthLimit → Datum.parse j.compactText = .ok v
  refuses : ∀ j, v.Forms j → ¬ (v.Finite ∧ j.nesting ≤ depthLimit) →
    ∃ cause, Datum.parse j.compactText = .error cause
  honest : ∀ j, v.Forms j → ∀ w, Datum.parse j.compactText = .ok w → w = v
  order : ∀ j, v.Forms j →
    (Datum.parse j.compactText).toOption = (Datum.parse v.tagged.compactText).toOption

theorem round_trip {v : Datum} (hNormal : v.Normal)
    (hDoubles : v.EachNumber fun x => x.isFinite = true → (Json.real x).ReadsBack) :
    v.RoundTrip := by
  have hParse : ∀ {j}, v.Forms j → ∀ w, Datum.parse j.compactText = .ok w ↔
      v.Finite ∧ j.nesting ≤ depthLimit ∧ w = v := by
    intro j hForms w
    rw [← (hForms.recovers hNormal).reads, Datum.parse, Draft.parse,
      (hForms.legible hDoubles).ofText]
    simp [Json.bind_eq_ok, pure, Except.pure]
  constructor
  case written => exact forms_tagged v
  case reads =>
    intro j hForms hFinite hDepth
    exact (hParse hForms v).mpr ⟨hFinite, hDepth, rfl⟩
  case refuses =>
    intro j hForms hNot
    cases hResult : Datum.parse j.compactText with
    | error cause => exact ⟨cause, rfl⟩
    | ok w =>
      obtain ⟨hFinite, hDepth, -⟩ := (hParse hForms w).mp hResult
      exact absurd ⟨hFinite, hDepth⟩ hNot
  case honest =>
    intro j hForms w hResult
    exact ((hParse hForms w).mp hResult).2.2
  case order =>
    intro j hForms
    have hSame : ∀ w, Datum.parse j.compactText = .ok w ↔
        Datum.parse v.tagged.compactText = .ok w := fun w => by
      rw [hParse hForms, hParse (forms_tagged v), hForms.nesting_eq]
    cases hResult : Datum.parse j.compactText with
    | ok w => rw [(hSame w).mp hResult]
    | error cause =>
      cases hWritten : Datum.parse v.tagged.compactText with
      | error => rfl
      | ok w =>
        rw [(hSame w).mpr hWritten] at hResult
        cases hResult

theorem readsBack_of_toReal? {x : Number}
    (hRead : (Json.parse 0 (Json.real x).compactText).toOption.bind Json.toReal? = some x) :
    (Json.real x).ReadsBack := by
  unfold Json.ReadsBack
  cases hParse : Json.parse 0 (Json.real x).compactText with
  | error =>
    rw [hParse] at hRead
    cases hRead
  | ok j =>
    rw [hParse] at hRead
    cases j with
    | real =>
      cases hRead
      rfl
    | null | bool | integer | string | array | object => cases hRead

def assorted (x : Number) : Datum :=
  record [("a", list [number ((Number.ofInt 5).div (Number.ofInt 2)), null]),
    ("b", error ⟨"\u00e9", "\n"⟩), ("c", number x)]

theorem normal_assorted (x : Number) : (assorted x).Normal := by
  have hAscending : ["a", "b", "c"].Pairwise (· < ·) := by decide
  exact ⟨hAscending, ⟨trivial, trivial, trivial⟩, trivial, trivial, trivial⟩

theorem round_trip_assorted :
    (assorted (Number.zero true)).RoundTrip ∧ (assorted .nan).RoundTrip := by
  have hHalf : (Json.real ((Number.ofInt 5).div (Number.ofInt 2))).ReadsBack :=
    readsBack_of_toReal? (by decide +kernel)
  have hZero : (Json.real (Number.zero true)).ReadsBack := readsBack_of_toReal? (by decide +kernel)
  constructor
  · exact round_trip (normal_assorted _)
      ⟨⟨fun _ => hHalf, trivial, trivial⟩, trivial, fun _ => hZero, trivial⟩
  · exact round_trip (normal_assorted _)
      ⟨⟨fun _ => hHalf, trivial, trivial⟩, trivial, (fun hFinite => nomatch hFinite), trivial⟩

end Datum

end Interlace
