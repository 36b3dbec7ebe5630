/-!
# Double precision numbers as exact quantities

Every finite double is a whole number of *ticks*, where a tick is the least positive double,
`2 ^ -1074`. A `Number` therefore carries a sign and a natural number of ticks, and each operation
is the exact result on ticks, rounded once. There is one NaN and there are two zeros; equality of
the type tells the zeros apart, the comparison `Number.equal` does not.
-/

-- Powers are those of the core library, whatever other instances a module sees.
attribute [instance (high), default_instance high] instPowNat

namespace Interlace

namespace Number

def one : Nat := 2 ^ 1074

/-- The first power of two beyond every finite double, in ticks. -/
def ceiling : Nat := 2 ^ 2098

/-- The quotient to the nearest natural number, where a half goes to the even neighbour. -/
def roundDiv (num den : Nat) : Nat :=
  let q := num / den
  let twice := 2 * (num % den)
  if twice < den ∨ (twice = den ∧ q % 2 = 0) then q else q + 1

/-- The double nearest to `num / den` ticks, were there no largest one: 53 significant bits. -/
def nearest (num den : Nat) : Nat :=
  let shift := (num / den).log2 - 52
  roundDiv num (den * 2 ^ shift) * 2 ^ shift

/-- A tick count is a double when it lies below the ceiling and has at most 53 significant bits. -/
def Representable (ticks : Nat) : Prop :=
  ticks < ceiling ∧ 2 ^ (ticks.log2 - 52) ∣ ticks

instance (ticks : Nat) : Decidable (Representable ticks) :=
  inferInstanceAs (Decidable (_ ∧ _))

theorem roundDiv_le (num den bound : Nat) (h : num / den < bound) : roundDiv num den ≤ bound := by
  unfold roundDiv
  simp only
  split <;> omega

theorem dvd_of_le_grid (m s : Nat) (h : m ≤ 2 ^ 53) :
    2 ^ ((m * 2 ^ s).log2 - 52) ∣ m * 2 ^ s := by
  rcases Nat.eq_zero_or_pos m with rfl | hpos
  · simp
  have hne : m * 2 ^ s ≠ 0 := Nat.mul_ne_zero (by omega) (by simp)
  rcases Nat.lt_or_ge m (2 ^ 53) with hlt | hge
  · have hlog : (m * 2 ^ s).log2 < 53 + s := by
      rw [Nat.log2_lt hne, Nat.pow_add]
      exact Nat.mul_lt_mul_of_pos_right hlt (Nat.two_pow_pos s)
    exact Nat.dvd_trans (Nat.pow_dvd_pow 2 (by omega)) (Nat.dvd_mul_left _ _)
  · have hm : m = 2 ^ 53 := by omega
    subst hm
    rw [← Nat.pow_add, Nat.log2_two_pow]
    exact Nat.pow_dvd_pow 2 (by omega)

theorem nearest_dvd (num den : Nat) : 2 ^ ((nearest num den).log2 - 52) ∣ nearest num den := by
  unfold nearest
  simp only
  apply dvd_of_le_grid
  apply roundDiv_le
  rcases Nat.eq_zero_or_pos den with rfl | hden
  · simp
  rw [← Nat.div_div_eq_div_mul]
  apply (Nat.div_lt_iff_lt_mul (Nat.two_pow_pos _)).mpr
  rw [← Nat.pow_add]
  rcases Nat.eq_zero_or_pos (num / den) with hz | hq
  · rw [hz]
    exact Nat.two_pow_pos _
  · have h := Nat.lt_log2_self (n := num / den)
    exact Nat.lt_of_lt_of_le h (Nat.pow_le_pow_right (by decide) (by omega))

end Number

inductive Number where
  | nan
  | infinite (negative : Bool)
  | finite (negative : Bool) (ticks : Nat) (representable : Number.Representable ticks)
deriving DecidableEq

namespace Number

/-- The double nearest to `num / den` ticks; what rounds to the ceiling or above is infinite. -/
def ofTicks (negative : Bool) (num den : Nat) : Number :=
  if h : nearest num den < ceiling then
    .finite negative (nearest num den) ⟨h, nearest_dvd num den⟩
  else
    .infinite negative

def ofRatio (negative : Bool) (num den : Nat) : Number :=
  ofTicks negative (num * one) den

def ofInt (n : Int) : Number := ofRatio (decide (n < 0)) n.natAbs 1

def ofNat (n : Nat) : Number := ofRatio false n 1

def zero (negative : Bool) : Number := ofTicks negative 0 1

instance : Inhabited Number := ⟨zero false⟩

def signed (negative : Bool) (n : Nat) : Int := if negative then -n else n

def neg : Number → Number
  | nan => nan
  | infinite s => infinite (!s)
  | finite s t h => finite (!s) t h

def add : Number → Number → Number
  | nan, _ => nan
  | _, nan => nan
  | infinite a, infinite b => if a = b then infinite a else nan
  | infinite a, finite .. => infinite a
  | finite .., infinite b => infinite b
  | finite a s _, finite b t _ =>
    let sum := signed a s + signed b t
    if sum = 0 then zero (a && b) else ofTicks (decide (sum < 0)) sum.natAbs 1

def sub (x y : Number) : Number := add x (neg y)

def mul : Number → Number → Number
  | nan, _ => nan
  | _, nan => nan
  | infinite a, infinite b => infinite (a ^^ b)
  | infinite a, finite b t _ => if t = 0 then nan else infinite (a ^^ b)
  | finite a s _, infinite b => if s = 0 then nan else infinite (a ^^ b)
  | finite a s _, finite b t _ => ofTicks (a ^^ b) (s * t) one

def div : Number → Number → Number
  | nan, _ => nan
  | _, nan => nan
  | infinite _, infinite _ => nan
  | infinite a, finite b _ _ => infinite (a ^^ b)
  | finite a _ _, infinite b => zero (a ^^ b)
  | finite a s _, finite b t _ =>
    if t = 0 then (if s = 0 then nan else infinite (a ^^ b)) else ofRatio (a ^^ b) s t

/-- The ordering of values; NaN is below nothing and above nothing, and the zeros are level. -/
def less : Number → Number → Bool
  | nan, _ => false
  | _, nan => false
  | infinite a, infinite b => a && !b
  | infinite a, finite .. => a
  | finite .., infinite b => !b
  | finite a s _, finite b t _ => decide (signed a s < signed b t)

/-- Equality of values; NaN equals nothing, and the zeros are equal. -/
def equal : Number → Number → Bool
  | infinite a, infinite b => a == b
  | finite a s _, finite b t _ => decide (signed a s = signed b t)
  | _, _ => false

def isFinite : Number → Bool
  | finite .. => true
  | _ => false

def toInt? : Number → Option Int
  | finite s t _ => if t % one = 0 then some (signed s (t / one)) else none
  | _ => none

/-- The whole part, held within `0` and `top`; NaN counts as `0`. -/
def toNatWithin (top : Nat) : Number → Nat
  | nan => 0
  | infinite s => if s then 0 else top
  | finite s t _ => if s then 0 else min (t / one) top

/-- The nearest whole number, of two the greater, held within `0` and `top`; NaN counts as `0`. -/
def roundedWithin (top : Nat) : Number → Nat
  | nan => 0
  | infinite s => if s then 0 else top
  | finite s t _ => if s then 0 else min ((2 * t + one) / (2 * one)) top

end Number

end Interlace
