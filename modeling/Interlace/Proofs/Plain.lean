import Interlace.Proofs.Data

/-!
# What the plain form forgets

Two data have the same plain form just if they are the same but for what the form forgets: a
problem looks like a record of two texts, what is not finite like `null`, and the zeros alike.
Otherwise a plain form tells what it is the form of, so it can be read back.
-/

namespace Interlace

namespace Number

def value? : Number → Option Int
  | finite s t _ => some (signed s t)
  | _ => none

def toInt64 : Number → Int
  | nan => 0
  | infinite s => if s then -2 ^ 63 else 2 ^ 63 - 1
  | finite s t _ => max (-2 ^ 63) (min (signed s (t / one)) (2 ^ 63 - 1))

/-- A number as the plain form has it: of the zeros only one, and `null` for what is not finite. -/
def blurred : Number → Datum
  | finite s t h => if t = 0 then .number (.finite false t h) else .number (.finite s t h)
  | _ => .null

theorem one_pos : 0 < one := by
  simp only [one, Nat.two_pow_pos]

theorem natAbs_signed (s : Bool) (n : Nat) : (signed s n).natAbs = n := by
  cases s <;> simp [signed]

theorem signed_mul (s : Bool) (n m : Nat) : signed s (n * m) = signed s n * m := by
  cases s with
  | false => exact Int.natCast_mul n m
  | true => simp only [signed, if_true, Int.natCast_mul, Int.neg_mul]

theorem decide_signed {s : Bool} {n : Nat} (hn : n ≠ 0) : decide (signed s n < 0) = s := by
  cases s with
  | false => simp [signed]
  | true =>
    simp only [signed, if_true, decide_eq_true_eq]
    omega

theorem one_ne_zero : one ≠ 0 := by
  have := one_pos
  omega

theorem parts_of_value {s : Bool} {t : Nat} {n : Int} (hValue : signed s t = n * one) :
    t = n.natAbs * one ∧ signed s n.natAbs = n := by
  have hTicks : t = n.natAbs * one := by
    rw [← natAbs_signed s t, hValue, Int.natAbs_mul, Int.natAbs_natCast]
  have hOne : (one : Int) ≠ 0 := by
    have := one_pos
    omega
  rw [hTicks, signed_mul] at hValue
  exact ⟨hTicks, Int.eq_of_mul_eq_mul_right hOne hValue⟩

theorem toInt?_eq_some {x : Number} {n : Int} : x.toInt? = some n ↔ x.value? = some (n * one) := by
  cases x with
  | nan | infinite => simp only [toInt?, value?, reduceCtorEq]
  | finite s t h =>
    simp only [toInt?, value?, Option.some.injEq]
    constructor
    · intro hWhole
      split at hWhole
      case isTrue hRest =>
        cases hWhole
        rw [← signed_mul, Nat.div_mul_cancel (Nat.dvd_of_mod_eq_zero hRest)]
      case isFalse => cases hWhole
    · intro hValue
      obtain ⟨hTicks, hSigned⟩ := parts_of_value hValue
      rw [hTicks, if_pos (Nat.mul_mod_left _ _), Nat.mul_div_cancel _ one_pos, hSigned]

theorem toInt64_of_value {x : Number} {n : Int} (hValue : x.value? = some (n * one))
    (hSmall : n.natAbs < wholeLimit) : x.toInt64 = n := by
  have hWhole := toInt?_eq_some.mpr hValue
  cases x with
  | nan | infinite => cases hWhole
  | finite s t h =>
    simp only [toInt?] at hWhole
    split at hWhole
    · cases hWhole
      simp only [wholeLimit] at hSmall
      simp only [toInt64]
      omega
    · cases hWhole

theorem plain_of_small {x : Number} {n : Int} (hValue : x.value? = some (n * one))
    (hSmall : n.natAbs < wholeLimit) : x.plain = .integer n := by
  simp only [plain, toInt?_eq_some.mpr hValue, if_pos hSmall]

theorem plain_of_real {x : Number} (hFinite : x.isFinite = true)
    (hReal : ∀ n : Int, x.value? = some (n * one) → wholeLimit ≤ n.natAbs) : x.plain = .real x := by
  unfold plain
  split
  case h_1 n hWhole => exact if_neg (Nat.not_lt.mpr (hReal n (toInt?_eq_some.mp hWhole)))
  case h_2 => exact if_pos hFinite

theorem plain_cases {x : Number} (hFinite : x.isFinite = true) :
    (∃ n : Int, x.value? = some (n * one) ∧ x.plain = .integer n) ∨ x.plain = .real x := by
  by_cases hWhole : ∃ n : Int, x.value? = some (n * one) ∧ n.natAbs < wholeLimit
  · obtain ⟨n, hValue, hSmall⟩ := hWhole
    exact Or.inl ⟨n, hValue, plain_of_small hValue hSmall⟩
  · refine Or.inr (plain_of_real hFinite fun n hValue => ?_)
    exact Nat.not_lt.mp fun hSmall => hWhole ⟨n, hValue, hSmall⟩

end Number

namespace Json

def value? : Json → Option Int
  | integer n => some (n * Number.one)
  | real x => x.value?
  | _ => none

def wholeDatum (n : Int) : Datum :=
  if h : Number.Representable (n.natAbs * Number.one) then
    .number (.finite (decide (n < 0)) (n.natAbs * Number.one) h)
  else .null

mutual

/-- The datum that a plain form stands for. -/
def unplain : Json → Datum
  | null => .null
  | bool b => .bool b
  | integer n => wholeDatum n
  | real x => .number x
  | string s => .text s
  | array items => .list (unplainItems items)
  | object members => .record (unplainMembers members)

def unplainItems : List Json → List Datum
  | [] => []
  | j :: js => j.unplain :: unplainItems js

def unplainMembers : List (String × Json) → List (String × Datum)
  | [] => []
  | (k, j) :: ms => (k, j.unplain) :: unplainMembers ms

end

theorem unplainItems_eq_map (items : List Json) : unplainItems items = items.map unplain := by
  induction items with
  | nil => rfl
  | cons j items ih => rw [unplainItems, ih, List.map_cons]

theorem unplainMembers_eq_map (members : List (String × Json)) :
    unplainMembers members = members.map fun m => (m.1, m.2.unplain) := by
  induction members with
  | nil => rfl
  | cons m members ih => rw [unplainMembers, ih, List.map_cons]

end Json

namespace Datum

mutual

/-- A datum without the distinctions that the plain form forgets. -/
def blurred : Datum → Datum
  | null => null
  | bool b => bool b
  | number x => x.blurred
  | text s => text s
  | list items => list (blurredItems items)
  | record members => record (blurredMembers members)
  | error p => record [("code", text p.code), ("message", text p.message)]

def blurredItems : List Datum → List Datum
  | [] => []
  | d :: ds => d.blurred :: blurredItems ds

def blurredMembers : List (String × Datum) → List (String × Datum)
  | [] => []
  | (k, d) :: ms => (k, d.blurred) :: blurredMembers ms

end

theorem blurredItems_eq_map (items : List Datum) : blurredItems items = items.map blurred := by
  induction items with
  | nil => rfl
  | cons d items ih => rw [blurredItems, ih, List.map_cons]

theorem blurredMembers_eq_map (members : List (String × Datum)) :
    blurredMembers members = members.map fun m => (m.1, m.2.blurred) := by
  induction members with
  | nil => rfl
  | cons m members ih => rw [blurredMembers, ih, List.map_cons]

end Datum

namespace Number

theorem value_plain {x : Number} (hFinite : x.isFinite = true) : x.plain.value? = x.value? := by
  rcases plain_cases hFinite with ⟨n, hValue, hPlain⟩ | hPlain
  · rw [hPlain, hValue, Json.value?]
  · rw [hPlain, Json.value?]

theorem value_zero (s : Bool) (h : Representable 0) :
    (finite s 0 h).value? = some ((0 : Int) * one) := by
  rw [Int.zero_mul]
  cases s <;> rfl

theorem plain_zero (s : Bool) (h : Representable 0) : (finite s 0 h).plain = .integer 0 :=
  plain_of_small (value_zero s h) (Nat.two_pow_pos _)

theorem plain_blurred (x : Number) : x.blurred.plain = x.plain := by
  cases x with
  | nan | infinite => rfl
  | finite s t h =>
    by_cases hZero : t = 0
    · subst hZero
      rw [blurred, if_pos rfl, Datum.plain, plain_zero, plain_zero]
    · rw [blurred, if_neg hZero, Datum.plain]

theorem wholeDatum_of_value {s : Bool} {t : Nat} {h : Representable t} {n : Int}
    (hValue : (finite s t h).value? = some (n * one)) :
    Json.wholeDatum n = (finite s t h).blurred := by
  obtain ⟨hTicks, hSigned⟩ := parts_of_value (Option.some.inj hValue)
  rw [Json.wholeDatum, dif_pos (hTicks ▸ h), blurred]
  simp only [← hTicks]
  by_cases hZero : n = 0
  · have ht : t = 0 := by simp [hTicks, hZero]
    have hNegative : decide (n < 0) = false := by simp [hZero]
    rw [if_pos ht, hNegative]
  · have hNonzero : n.natAbs ≠ 0 := Int.natAbs_ne_zero.mpr hZero
    have ht : t ≠ 0 := by
      rw [hTicks]
      exact Nat.mul_ne_zero hNonzero one_ne_zero
    have hNegative : decide (n < 0) = s := by
      rw [← hSigned]
      exact decide_signed hNonzero
    rw [if_neg ht, hNegative]

theorem unplain_plain (x : Number) : x.plain.unplain = x.blurred := by
  cases x with
  | nan | infinite => rfl
  | finite s t h =>
    rcases plain_cases (x := .finite s t h) rfl with ⟨n, hValue, hPlain⟩ | hPlain
    · rw [hPlain, Json.unplain, wholeDatum_of_value hValue]
    · rw [hPlain, Json.unplain, blurred]
      rcases Nat.eq_zero_or_pos t with rfl | hPos
      · rw [plain_zero] at hPlain
        cases hPlain
      · rw [if_neg (by omega)]

end Number

namespace Datum

theorem plain_blurred (d : Datum) : d.blurred.plain = d.plain := by
  induction d using Datum.induct with
  | null | bool | text | error => rfl
  | number x => exact x.plain_blurred
  | list items ih =>
    rw [blurred, plain, plain, plainItems_eq_map, plainItems_eq_map, blurredItems_eq_map,
      List.map_map]
    exact congrArg Json.array (List.map_congr_left ih)
  | record members ih =>
    rw [blurred, plain, plain, plainMembers_eq_map, plainMembers_eq_map, blurredMembers_eq_map,
      List.map_map]
    exact congrArg Json.object (List.map_congr_left fun m hm => congrArg (Prod.mk m.1) (ih m hm))

theorem unplain_plain (d : Datum) : d.plain.unplain = d.blurred := by
  induction d using Datum.induct with
  | null | bool | text | error => rfl
  | number x => exact x.unplain_plain
  | list items ih =>
    rw [blurred, plain, Json.unplain, plainItems_eq_map, Json.unplainItems_eq_map,
      blurredItems_eq_map, List.map_map]
    exact congrArg Datum.list (List.map_congr_left ih)
  | record members ih =>
    rw [blurred, plain, Json.unplain, plainMembers_eq_map, Json.unplainMembers_eq_map,
      blurredMembers_eq_map, List.map_map]
    exact congrArg Datum.record (List.map_congr_left fun m hm => congrArg (Prod.mk m.1) (ih m hm))

/-- What the plain form of data keeps to. It forgets what it is said to forget, and nothing else. A
whole number below `2 ^ 63` becomes the integer of the same value, which is what the cast to 64 bits
makes of it, and any other finite number stays the double that it is. What becomes of a finite
number has the value of the number, so numbers of different values do not become the same. -/
structure PlainForm : Prop where
  forgets : ∀ v w : Datum, v.plain = w.plain ↔ v.blurred = w.blurred
  whole : ∀ (x : Number) (n : Int), x.value? = some (n * Number.one) → n.natAbs < 2 ^ 63 →
    (number x).plain = .integer n ∧ x.toInt64 = n
  double : ∀ x : Number, x.isFinite = true →
    (∀ n : Int, x.value? = some (n * Number.one) → 2 ^ 63 ≤ n.natAbs) → (number x).plain = .real x
  value : ∀ x : Number, x.isFinite = true → (number x).plain.value? = x.value?
  distinct : ∀ x y : Number, x.isFinite = true → y.isFinite = true →
    (number x).plain = (number y).plain → x.value? = y.value?

theorem plain_form : PlainForm where
  forgets v w := by
    constructor
    · intro hPlain
      rw [← unplain_plain, ← unplain_plain, hPlain]
    · intro hBlurred
      rw [← plain_blurred, hBlurred, plain_blurred]
  whole x n hValue hSmall :=
    ⟨Number.plain_of_small hValue hSmall, Number.toInt64_of_value hValue hSmall⟩
  double x hFinite hReal := Number.plain_of_real hFinite hReal
  value x hFinite := Number.value_plain hFinite
  distinct x y hFinite hFinite' hPlain := by
    have hPlain' : x.plain = y.plain := hPlain
    rw [← Number.value_plain hFinite, hPlain', Number.value_plain hFinite']

/-- The cast would lose one of `2 ^ 63`, the least number that stays a double. -/
example : (Number.ofInt (2 ^ 63)).value? = some ((2 : Int) ^ 63 * Number.one) ∧
    (Number.ofInt (2 ^ 63)).toInt64 = 2 ^ 63 - 1 := by
  decide +kernel

end Datum

end Interlace
