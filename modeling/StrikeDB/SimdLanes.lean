import Mathlib.Algebra.BigOperators.Fin
import Mathlib.Algebra.BigOperators.Ring.Finset
import Mathlib.Data.BitVec
import Mathlib.Logic.Equiv.Fin.Basic
import Mathlib.Tactic.Linarith
import Mathlib.Tactic.Ring

/-!
# StrikeDB: vector registers as lanes

A register is `k` lanes of `w` bits.  The instructions below follow their documented
integer semantics, lane by lane; a register that is read at another lane width is a
register of other lanes.

**Results.**

* `sum_lanes`: a sum over all lanes, group by group.
* `total_madd_epi16`, `total_dpbusd_epi32`: what multiply-and-add does to the sum of the
  lanes, modulo `2 ^ 32`.
* `horizontal_sum`: the shuffles of a horizontal sum.
-/

namespace StrikeDB
namespace Simd

/-- `k` lanes of `w` bits. -/
abbrev Lanes (w k : Nat) := Fin k → BitVec w

/-- Lane `r` of group `j`, where a group has `b` lanes: lane `j * b + r`. -/
def lane {a b : Nat} (j : Fin a) (r : Fin b) : Fin (a * b) := finProdFinEquiv (j, r)

theorem lane_val {a b : Nat} (j : Fin a) (r : Fin b) : (lane j r : Nat) = r + b * j := rfl

/-- A sum over all lanes, group by group. -/
theorem sum_lanes
    {M : Type} [AddCommMonoid M] {a b : Nat} (f : Fin (a * b) → M) :
    ∑ i, f i = ∑ j : Fin a, ∑ r : Fin b, f (lane j r) := by
  rw [← Equiv.sum_comp finProdFinEquiv f, Fintype.sum_prod_type]
  rfl

/-! ## Instructions -/

section Instructions

variable {w k : Nat}

def setzero : Lanes w k := fun _ => 0

def set1 (x : BitVec w) : Lanes w k := fun _ => x

def xor_si (x y : Lanes w k) : Lanes w k := fun i => x i ^^^ y i

abbrev lowHalf : Fin 2 := 0

abbrev highHalf : Fin 2 := 1

/-- `extracti128`: one half of the lanes. -/
def extracti128 (k : Nat) (h : Fin 2) (x : Lanes w (2 * k)) : Lanes w k := fun i => x (lane h i)

def add_epi32 (x y : Lanes 32 k) : Lanes 32 k := fun i => x i + y i

def cvtepi8_epi16 (x : Lanes 8 k) : Lanes 16 k := fun i => (x i).signExtend 16

/-- Products of signed words, added in pairs. -/
def madd_epi16 (x y : Lanes 16 (k * 2)) : Lanes 32 k := fun i =>
  (x (lane i 0)).signExtend 32 * (y (lane i 0)).signExtend 32 +
    (x (lane i 1)).signExtend 32 * (y (lane i 1)).signExtend 32

/-- The word that an unsigned and a signed byte multiply to. -/
def mul_us (x y : BitVec 8) : BitVec 16 := x.setWidth 16 * y.signExtend 16

/-- Products of unsigned and signed bytes, added in fours to `src`. -/
def dpbusd_epi32 (src : Lanes 32 k) (u s : Lanes 8 (k * 4)) : Lanes 32 k := fun i =>
  src i + (mul_us (u (lane i 0)) (s (lane i 0))).signExtend 32 +
    (mul_us (u (lane i 1)) (s (lane i 1))).signExtend 32 +
    (mul_us (u (lane i 2)) (s (lane i 2))).signExtend 32 +
    (mul_us (u (lane i 3)) (s (lane i 3))).signExtend 32

/-- Lane `i` of the result is the lane that bits `2 i` and `2 i + 1` of `imm` name. -/
def shuffle_epi32 (imm : Nat) (x : Lanes 32 4) : Lanes 32 4 := fun i =>
  x (Fin.ofNat 4 (imm >>> (2 * i.val)))

def cvtsi128_si32 (x : Lanes 32 4) : BitVec 32 := x 0

def reduce_add_epi32 (x : Lanes 32 k) : BitVec 32 := ∑ i, x i

end Instructions

/-! ## Integers behind the lanes -/

/-- Sign extension keeps the integer. -/
theorem signExtend_eq {w v : Nat} (x : BitVec w) : x.signExtend v = ((x.toInt : ℤ) : BitVec v) :=
  rfl

theorem signExtend_signExtend (x : BitVec 8) : (x.signExtend 16).signExtend 32 = x.signExtend 32 := by
  rw [signExtend_eq (v := 32), BitVec.toInt_signExtend_of_le (by omega)]
  rfl

/-- The product of an unsigned and a signed byte fits its word. -/
theorem toInt_mul_us (x y : BitVec 8) : (mul_us x y).toInt = x.toNat * y.toInt := by
  have hx : (x.toNat : ℤ) < 256 := by exact_mod_cast x.isLt
  have hy : -128 ≤ y.toInt := BitVec.le_toInt y
  have hy' : y.toInt < 128 := BitVec.toInt_lt
  have hlow : -32768 ≤ (x.toNat : ℤ) * y.toInt := by nlinarith
  have hhigh : (x.toNat : ℤ) * y.toInt < 32768 := by nlinarith
  have hword : (x.setWidth 16).toInt = x.toNat := by
    rw [BitVec.toInt_setWidth]
    exact Int.bmod_eq_of_le (by omega) (by omega)
  unfold mul_us
  rw [BitVec.toInt_mul, hword, BitVec.toInt_signExtend_of_le (by omega)]
  exact Int.bmod_eq_of_le (by omega) (by omega)

/-- The exclusive or with `0x80` adds 128 to a signed byte and leaves it unsigned. -/
theorem toNat_xor_bias (x : BitVec 8) : ((x ^^^ 0x80#8).toNat : ℤ) = x.toInt + 128 := by
  have h : ∀ x : BitVec 8, ((x ^^^ 0x80#8).toNat : ℤ) = x.toInt + 128 := by decide +kernel
  exact h x

/-! ## The sum of the lanes -/

section Totals

variable {k : Nat}

theorem total_setzero : reduce_add_epi32 (setzero : Lanes 32 k) = 0 := Finset.sum_const_zero

theorem total_add_epi32 (x y : Lanes 32 k) :
    reduce_add_epi32 (add_epi32 x y) = reduce_add_epi32 x + reduce_add_epi32 y :=
  Finset.sum_add_distrib

theorem total_madd_epi16 (x y : Lanes 16 (k * 2)) :
    reduce_add_epi32 (madd_epi16 x y) =
      ∑ i, (x i).signExtend 32 * (y i).signExtend 32 := by
  rw [sum_lanes]
  refine Finset.sum_congr rfl fun j _ => ?_
  rw [Fin.sum_univ_two]
  rfl

theorem total_dpbusd_epi32 (src : Lanes 32 k) (u s : Lanes 8 (k * 4)) :
    reduce_add_epi32 (dpbusd_epi32 src u s) =
      reduce_add_epi32 src + ∑ i, (((u i).toNat * (s i).toInt : ℤ) : BitVec 32) := by
  unfold reduce_add_epi32
  rw [sum_lanes, ← Finset.sum_add_distrib]
  refine Finset.sum_congr rfl fun j _ => ?_
  rw [Fin.sum_univ_four]
  unfold dpbusd_epi32
  simp only [signExtend_eq, toInt_mul_us]
  ring

/-- The two halves of the lanes. -/
theorem sum_halves {M : Type} [AddCommMonoid M] (f : Fin (2 * k) → M) :
    ∑ i, f i = ∑ i, f (lane 0 i) + ∑ i, f (lane 1 i) := by
  rw [sum_lanes, Fin.sum_univ_two]

/-- The shuffles of a horizontal sum: lane 0 ends as the sum of all. -/
theorem horizontal_sum (x : Lanes 32 4) :
    let h64 := add_epi32 x (shuffle_epi32 0b01001110 x)
    cvtsi128_si32 (add_epi32 h64 (shuffle_epi32 0b10110001 h64)) = reduce_add_epi32 x := by
  show x 0 + x 2 + (x 1 + x 3) = ∑ i, x i
  rw [Fin.sum_univ_four]
  ring

end Totals

end Simd
end StrikeDB
