/-!
# Tables of what is at a place

Places are sequences of numbers, the innermost first. A table holds at most one entry at a place.
-/

namespace Interlace

/-- An address in the tree of runs, their waits and the items of their joins. What stands at
`n :: p` is the part number `n` of what stands at `p`. -/
abbrev Place := List Nat

structure Table (α : Type) where
  entries : List (Place × α)

namespace Table

variable {α : Type}

def empty : Table α := ⟨[]⟩

def find? (t : Table α) (p : Place) : Option α :=
  (t.entries.find? fun e => e.1 == p).map Prod.snd

def erase (t : Table α) (p : Place) : Table α := ⟨t.entries.filter fun e => e.1 != p⟩

def insert (t : Table α) (p : Place) (a : α) : Table α := ⟨(p, a) :: (t.erase p).entries⟩

@[simp] theorem find?_empty (p : Place) : (empty : Table α).find? p = none := rfl

@[simp] theorem find?_erase_self (t : Table α) (p : Place) : (t.erase p).find? p = none := by
  simp [find?, erase]

theorem find?_erase_of_ne (t : Table α) {p q : Place} (h : q ≠ p) :
    (t.erase p).find? q = t.find? q := by
  simp only [find?, erase, List.find?_filter]
  congr 1
  apply congrFun
  congr 1
  funext e
  by_cases hq : e.1 = q
  · subst hq
    simp [h]
  · simp [hq]

@[simp] theorem find?_insert_self (t : Table α) (p : Place) (a : α) :
    (t.insert p a).find? p = some a := by
  simp [find?, insert]

theorem find?_insert_of_ne (t : Table α) {p q : Place} (a : α) (h : q ≠ p) :
    (t.insert p a).find? q = t.find? q := by
  rw [← find?_erase_of_ne t h]
  simp [find?, insert, Ne.symm h]

end Table

end Interlace
