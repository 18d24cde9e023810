import Mathlib

/-!
# StrikeDB: the order of the bit patterns of binary64

A pattern of 64 bits is a sign, eleven bits of exponent and 52 bits of fraction.  This
module gives each pattern the extended real that it stands for and compares values by
integers read off the bits.

**Results.**

* `strictMono_scale`: what lies below the sign grows with its value.
* `value_lt_value`, `value_inj`: two patterns that are numbers compare as the integers
  `signed` of their bits do.
* `isZero_iff`: the two patterns of zero.
-/

namespace StrikeDB
namespace Binary64

/-! ## The fields of a pattern -/

def sign (b : UInt64) : Bool := decide (2 ^ 63 ≤ b.toNat)

/-- Exponent and fraction together. -/
def low (b : UInt64) : Nat := b.toNat % 2 ^ 63

/-- The exponent field of the bits below the sign. -/
def exponent (n : Nat) : Nat := n / 2 ^ 52

def fraction (n : Nat) : Nat := n % 2 ^ 52

/-- A number has its leading bit, unless it is below the smallest normal one. -/
def significand (n : Nat) : Nat :=
  if exponent n = 0 then fraction n else 2 ^ 52 + fraction n

/-- The bits of the infinity. -/
def infinity : Nat := 2047 * 2 ^ 52

def isNaN (b : UInt64) : Bool := decide (infinity < low b)

def isZero (b : UInt64) : Bool := decide (low b = 0)

/-- The number that the bits below the sign stand for. -/
noncomputable def magnitude (n : Nat) : EReal :=
  if n = infinity then ⊤
  else (((significand n : ℝ) * (2 : ℕ) ^ ((max (exponent n) 1 : ℤ) - 1075) : ℝ) : EReal)

/-- The number that a pattern stands for, unless it is a NaN. -/
noncomputable def value (b : UInt64) : EReal :=
  if sign b then -magnitude (low b) else magnitude (low b)

/-- The bits below the sign, with the sign. -/
def signed (b : UInt64) : ℤ := if sign b then -(low b : ℤ) else low b

/-! ## Magnitudes -/

/-- The magnitude in units of the least positive number. -/
def scale (n : Nat) : Nat := significand n * 2 ^ (max (exponent n) 1 - 1)

theorem strictMono_scale : StrictMono scale := by
  refine strictMono_nat_of_lt_succ fun n => ?_
  unfold scale significand
  by_cases hcarry : fraction n + 1 < 2 ^ 52
  · -- the fraction has room
    have he : exponent (n + 1) = exponent n := by
      unfold exponent fraction at *
      omega
    have hf : fraction (n + 1) = fraction n + 1 := by
      unfold fraction at *
      omega
    rw [he, hf]
    refine Nat.mul_lt_mul_of_pos_right ?_ (Nat.two_pow_pos _)
    split <;> omega
  · -- the fraction starts again under the next exponent
    have he : exponent (n + 1) = exponent n + 1 := by
      unfold exponent fraction at *
      omega
    have hf : fraction (n + 1) = 0 := by
      unfold fraction at *
      omega
    have hn : fraction n < 2 ^ 52 := Nat.mod_lt _ (Nat.two_pow_pos _)
    rw [he, hf, if_neg (Nat.succ_ne_zero _)]
    by_cases hzero : exponent n = 0
    · rw [if_pos hzero, hzero]
      simpa using hn
    · rw [if_neg hzero]
      obtain ⟨e, he⟩ := Nat.exists_eq_succ_of_ne_zero hzero
      rw [he, max_eq_left (by omega), max_eq_left (by omega)]
      simp only [Nat.succ_eq_add_one, Nat.add_sub_cancel, Nat.add_zero]
      calc (2 ^ 52 + fraction n) * 2 ^ e
          < (2 * 2 ^ 52) * 2 ^ e := Nat.mul_lt_mul_of_pos_right (by omega) (Nat.two_pow_pos _)
        _ = 2 ^ 52 * 2 ^ (e + 1) := by ring

theorem magnitude_eq {n : Nat} (h : n ≠ infinity) :
    magnitude n = (((scale n : ℝ) / 2 ^ 1074 : ℝ) : EReal) := by
  have hexp : ((max (exponent n) 1 : ℤ) - 1075) =
      ((max (exponent n) 1 - 1 : Nat) : ℤ) - (1074 : Nat) := by
    have : 1 ≤ max (exponent n) 1 := le_max_right _ _
    push_cast [Nat.cast_sub this]
    ring
  unfold magnitude scale
  rw [if_neg h, hexp, zpow_sub₀ (by norm_num), zpow_natCast, zpow_natCast, ← mul_div_assoc]
  norm_cast

theorem strictMonoOn_magnitude : StrictMonoOn magnitude (Set.Iic infinity) := by
  intro m hm n hn hlt
  have hm : m ≠ infinity := (lt_of_lt_of_le hlt hn).ne
  rw [magnitude_eq hm]
  by_cases hinf : n = infinity
  · unfold magnitude
    rw [if_pos hinf]
    exact EReal.coe_lt_top _
  · rw [magnitude_eq hinf, EReal.coe_lt_coe_iff]
    have hscale : (scale m : ℝ) < scale n := Nat.cast_lt.mpr (strictMono_scale hlt)
    exact div_lt_div_of_pos_right hscale (by positivity)

theorem magnitude_zero : magnitude 0 = 0 := by
  have hscale : scale 0 = 0 := rfl
  rw [magnitude_eq (by decide), hscale]
  simp

theorem magnitude_nonneg {n : Nat} (h : n ≤ infinity) : 0 ≤ magnitude n := by
  rw [← magnitude_zero]
  exact strictMonoOn_magnitude.monotoneOn (Nat.zero_le infinity) h (Nat.zero_le n)

/-! ## Values -/

/-- The value of the bits below a sign. -/
noncomputable def valueOf (z : ℤ) : EReal :=
  if z < 0 then -magnitude z.natAbs else magnitude z.natAbs

theorem value_eq (b : UInt64) : value b = valueOf (signed b) := by
  unfold value valueOf signed
  cases sign b with
  | false => simp
  | true =>
      by_cases hzero : low b = 0
      · simp [hzero, magnitude_zero]
      · have hneg : -(low b : ℤ) < 0 := by omega
        rw [if_pos rfl, if_pos rfl, if_pos hneg, Int.natAbs_neg, Int.natAbs_natCast]

theorem strictMonoOn_valueOf :
    StrictMonoOn valueOf {z : ℤ | z.natAbs ≤ infinity} := by
  intro y hy z hz hlt
  change y.natAbs ≤ infinity at hy
  change z.natAbs ≤ infinity at hz
  unfold valueOf
  by_cases hyneg : y < 0
  · rw [if_pos hyneg]
    have hpos : 0 < magnitude y.natAbs := by
      rw [← magnitude_zero]
      exact strictMonoOn_magnitude (Nat.zero_le infinity) hy (by omega)
    by_cases hzneg : z < 0
    · rw [if_pos hzneg, EReal.neg_lt_neg_iff]
      exact strictMonoOn_magnitude hz hy (by omega)
    · rw [if_neg hzneg]
      have hneg : -magnitude y.natAbs < 0 := by
        rw [← neg_zero, EReal.neg_lt_neg_iff]
        exact hpos
      exact hneg.trans_le (magnitude_nonneg hz)
  · rw [if_neg hyneg, if_neg (by omega)]
    exact strictMonoOn_magnitude hy hz (by omega)

theorem signed_mem {b : UInt64} (h : isNaN b = false) : (signed b).natAbs ≤ infinity := by
  have hle : low b ≤ infinity := by simpa [isNaN] using h
  unfold signed
  split <;> simpa using hle

theorem value_lt_value {a b : UInt64} (ha : isNaN a = false) (hb : isNaN b = false) :
    value a < value b ↔ signed a < signed b := by
  rw [value_eq, value_eq]
  exact strictMonoOn_valueOf.lt_iff_lt (signed_mem ha) (signed_mem hb)

theorem value_inj {a b : UInt64} (ha : isNaN a = false) (hb : isNaN b = false) :
    value a = value b ↔ signed a = signed b := by
  rw [value_eq, value_eq]
  exact strictMonoOn_valueOf.eq_iff_eq (signed_mem ha) (signed_mem hb)

theorem isZero_iff {b : UInt64} (h : isNaN b = false) : isZero b = true ↔ value b = 0 := by
  have hzero : value 0 = 0 := by
    simp [value, sign, low, magnitude_zero]
  rw [← hzero, value_inj h (by decide)]
  unfold isZero signed
  have : low 0 = 0 := rfl
  cases sign b <;> simp [sign, this]

end Binary64
end StrikeDB
