import Interlace.Datum.Plain

/-!
# Induction over data and over documents

What holds of a datum when it holds of all its parts holds of every datum, and so for documents.
The functions that go down a datum or a document part by part are maps over its parts.
-/

namespace Interlace

theorem Datum.induct {P : Datum → Prop} (null : P .null) (bool : ∀ b, P (.bool b))
    (number : ∀ x, P (.number x)) (text : ∀ s, P (.text s))
    (list : ∀ items, (∀ d ∈ items, P d) → P (.list items))
    (record : ∀ members, (∀ m ∈ members, P m.2) → P (.record members))
    (error : ∀ p, P (.error p)) (d : Datum) : P d := by
  refine @Datum.rec P (fun items => ∀ d ∈ items, P d) (fun members => ∀ m ∈ members, P m.2)
    (fun m => P m.2) null bool number text list record error ?_ ?_ ?_ ?_ (fun _ _ h => h) d
  · intro d hd
    cases hd
  · intro d items hFirst hRest e he
    rcases List.mem_cons.mp he with rfl | he
    · exact hFirst
    · exact hRest e he
  · intro m hm
    cases hm
  · intro m members hFirst hRest m' hm
    rcases List.mem_cons.mp hm with rfl | hm
    · exact hFirst
    · exact hRest m' hm

theorem Json.induct {P : Json → Prop} (null : P .null) (bool : ∀ b, P (.bool b))
    (integer : ∀ n, P (.integer n)) (real : ∀ x, P (.real x)) (string : ∀ s, P (.string s))
    (array : ∀ items, (∀ j ∈ items, P j) → P (.array items))
    (object : ∀ members, (∀ m ∈ members, P m.2) → P (.object members)) (j : Json) : P j := by
  refine @Json.rec P (fun items => ∀ j ∈ items, P j) (fun members => ∀ m ∈ members, P m.2)
    (fun m => P m.2) null bool integer real string array object ?_ ?_ ?_ ?_ (fun _ _ h => h) j
  · intro j hj
    cases hj
  · intro j items hFirst hRest e he
    rcases List.mem_cons.mp he with rfl | he
    · exact hFirst
    · exact hRest e he
  · intro m hm
    cases hm
  · intro m members hFirst hRest m' hm
    rcases List.mem_cons.mp hm with rfl | hm
    · exact hFirst
    · exact hRest m' hm

namespace Datum

theorem plainItems_eq_map (items : List Datum) : plainItems items = items.map plain := by
  induction items with
  | nil => rfl
  | cons d items ih => rw [plainItems, ih, List.map_cons]

theorem plainMembers_eq_map (members : List (String × Datum)) :
    plainMembers members = members.map fun m => (m.1, m.2.plain) := by
  induction members with
  | nil => rfl
  | cons m members ih => rw [plainMembers, ih, List.map_cons]

theorem taggedItems_eq_map (items : List Datum) : taggedItems items = items.map tagged := by
  induction items with
  | nil => rfl
  | cons d items ih => rw [taggedItems, ih, List.map_cons]

theorem taggedMembers_eq_map (members : List (String × Datum)) :
    taggedMembers members = members.map fun m => (m.1, m.2.tagged) := by
  induction members with
  | nil => rfl
  | cons m members ih => rw [taggedMembers, ih, List.map_cons]

end Datum

end Interlace
