import Mathlib
import StrikeDB.SimdLanes

/-!
# StrikeDB: the int8 dot product

Three kernels compute the dot product of two int8 vectors: a scalar loop, one on AVX2 that
takes 32 dimensions at a time, in pairs, and one on AVX-512 VNNI that takes 64 and multiplies
unsigned bytes by signed ones.  A read beyond a slice is `none`.

**Results.**

* `avx2_chunk`, `vnni_chunk`: what one block adds to the sums of the accumulators.
* `dot_loop_eq`: the scalar loop over any range of dimensions.
* `kernels_agree`: on slices of one length all three return the sum of the products modulo
  `2 ^ 32`, which is the sum itself up to 131071 dimensions.
-/

namespace StrikeDB
namespace Vectors

open Simd

/-- An `i8` and an `i32` are their bits. -/
abbrev I8 := BitVec 8

abbrev I32 := BitVec 32

/-- The bytes from an offset. -/
def bytesAt (k : Nat) (a : List I8) (offset : Nat) : Lanes 8 k := fun i => a.getD (offset + i) 0

/-- `loadu`: `k` bytes from an offset. -/
def loadu (k : Nat) (a : List I8) (offset : Nat) : Option (Lanes 8 k) :=
  if offset + k ≤ a.length then some (bytesAt k a offset) else none

/-- `s += (a[j] as i32) * (b[j] as i32)` -/
def dotStep (a b : List I8) (s : I32) (j : Nat) : Option I32 := do
  let x ← a[j]?
  let y ← b[j]?
  return s + x.signExtend 32 * y.signExtend 32

/-- The scalar loop over the dimensions `js`. -/
def dotLoop (a b : List I8) (s : I32) (js : List Nat) : Option I32 := js.foldlM (dotStep a b) s

def dot_i8_scalar (a b : List I8) : Option I32 := dotLoop a b 0 (List.range a.length)

/-! ## AVX2 -/

/-- Block `i` of 32 dimensions: its halves go to two accumulators. -/
def avx2Chunk (a b : List I8) (acc : Lanes 32 8 × Lanes 32 8) (i : Nat) :
    Option (Lanes 32 8 × Lanes 32 8) := do
  let av ← loadu 32 a (i * 32)
  let bv ← loadu 32 b (i * 32)
  let a_lo := cvtepi8_epi16 (extracti128 16 lowHalf av)
  let a_hi := cvtepi8_epi16 (extracti128 16 highHalf av)
  let b_lo := cvtepi8_epi16 (extracti128 16 lowHalf bv)
  let b_hi := cvtepi8_epi16 (extracti128 16 highHalf bv)
  return (add_epi32 acc.1 (madd_epi16 a_lo b_lo), add_epi32 acc.2 (madd_epi16 a_hi b_hi))

/-- `while i + 2 <= chunks` -/
def avx2Pairs (a b : List I8) (chunks : Nat) (acc : Lanes 32 8 × Lanes 32 8) (i : Nat) :
    Option ((Lanes 32 8 × Lanes 32 8) × Nat) :=
  if i + 2 ≤ chunks then do
    let acc ← avx2Chunk a b acc i
    let acc ← avx2Chunk a b acc (i + 1)
    avx2Pairs a b chunks acc (i + 2)
  else some (acc, i)
termination_by chunks - i

/-- `while i < chunks` -/
def avx2Singles (a b : List I8) (chunks : Nat) (acc : Lanes 32 8 × Lanes 32 8) (i : Nat) :
    Option (Lanes 32 8 × Lanes 32 8) :=
  if i < chunks then do
    let acc ← avx2Chunk a b acc i
    avx2Singles a b chunks acc (i + 1)
  else some acc
termination_by chunks - i

def dot_i8_avx2 (a b : List I8) : Option I32 := do
  let n := min a.length b.length
  let chunks := n / 32
  let (accs, i) ← avx2Pairs a b chunks (setzero, setzero) 0
  let (acc0, acc1) ← avx2Singles a b chunks accs i
  let acc := add_epi32 acc0 acc1
  let lo := extracti128 4 lowHalf acc
  let hi := extracti128 4 highHalf acc
  let sum128 := add_epi32 lo hi
  let h64 := add_epi32 sum128 (shuffle_epi32 0b01001110 sum128)
  let h32 := add_epi32 h64 (shuffle_epi32 0b10110001 h64)
  dotLoop a b (cvtsi128_si32 h32) (List.range' (chunks * 32) (n - chunks * 32))

/-! ## AVX-512 VNNI -/

/-- Block `i` of 64 dimensions, with the first operand biased to unsigned bytes. -/
def vnniChunk (a b : List I8) (acc : Lanes 32 16 × Lanes 32 16) (i : Nat) :
    Option (Lanes 32 16 × Lanes 32 16) := do
  let av ← loadu 64 a (i * 64)
  let bv ← loadu 64 b (i * 64)
  let au := xor_si av (set1 (-128))
  return (dpbusd_epi32 acc.1 au bv, dpbusd_epi32 acc.2 (set1 1) bv)

def dot_i8_vnni (a b : List I8) : Option I32 := do
  let n := min a.length b.length
  let chunks := n / 64
  let (acc, bsum) ← (List.range chunks).foldlM (vnniChunk a b) (setzero, setzero)
  let s := reduce_add_epi32 acc - 128 * reduce_add_epi32 bsum
  dotLoop a b s (List.range' (chunks * 64) (n - chunks * 64))

/-! ## Sums of products -/

/-- The exact dot product. -/
def dot (a b : List I8) : ℤ := (List.zipWith (fun x y => x.toInt * y.toInt) a b).sum

/-- The products of the dimensions in a range. -/
def dotRange (a b : List I8) (start count : Nat) : ℤ :=
  ∑ j ∈ Finset.range count, (a.getD (start + j) 0).toInt * (b.getD (start + j) 0).toInt

theorem dotRange_add (a b : List I8) (start m n : Nat) :
    dotRange a b start (m + n) = dotRange a b start m + dotRange a b (start + m) n := by
  unfold dotRange
  rw [Finset.sum_range_add]
  simp only [Nat.add_assoc]

theorem dotRange_all (a b : List I8) (h : a.length = b.length) :
    dotRange a b 0 a.length = dot a b := by
  unfold dotRange dot
  induction a generalizing b with
  | nil => rfl
  | cons x a ih =>
      cases b with
      | nil => cases h
      | cons y b =>
          rw [List.length_cons, Finset.sum_range_succ', List.zipWith_cons_cons, List.sum_cons,
            ← ih b (Nat.succ.inj h), add_comm]
          simp

theorem dotStep_eq {a b : List I8} {j : Nat} (ha : j < a.length) (hb : j < b.length) (s : I32) :
    dotStep a b s j = some (s + (dotRange a b j 1 : I32)) := by
  have hx : a[j]? = some (a.getD j 0) := by
    rw [List.getD_eq_getElem?_getD, List.getElem?_eq_getElem ha]
    rfl
  have hy : b[j]? = some (b.getD j 0) := by
    rw [List.getD_eq_getElem?_getD, List.getElem?_eq_getElem hb]
    rfl
  unfold dotStep dotRange
  rw [hx, hy, Finset.sum_range_one, Int.cast_mul]
  rfl

/-- The scalar loop over a range of dimensions. -/
theorem dotLoop_eq
    {a b : List I8} {start count : Nat} (ha : start + count ≤ a.length)
    (hb : start + count ≤ b.length) (s : I32) :
    dotLoop a b s (List.range' start count) = some (s + (dotRange a b start count : I32)) := by
  unfold dotLoop
  induction count generalizing start s with
  | zero => simp [dotRange]
  | succ count ih =>
      rw [List.range'_succ, List.foldlM_cons, dotStep_eq (by omega) (by omega),
        Option.bind_eq_bind, Option.bind_some, ih (by omega) (by omega), Nat.add_comm count 1,
        dotRange_add, Int.cast_add, add_assoc]

/-- The bytes from an offset multiply to the products of their dimensions. -/
theorem sum_bytesAt (a b : List I8) (k offset : Nat) :
    ∑ i, (((bytesAt k a offset i).toInt * (bytesAt k b offset i).toInt : ℤ) : I32) =
      (dotRange a b offset k : I32) := by
  unfold dotRange
  rw [Int.cast_sum, Finset.sum_range]
  rfl

theorem loadu_eq {k offset : Nat} {l : List I8} (h : offset + k ≤ l.length) :
    loadu k l offset = some (bytesAt k l offset) := if_pos h

/-! ## The blocks -/

section Blocks

variable {a b : List I8}

/-- The two accumulators together hold the products of the first `i` blocks. -/
def Avx2Sum (a b : List I8) (acc : Lanes 32 8 × Lanes 32 8) (i : Nat) : Prop :=
  reduce_add_epi32 acc.1 + reduce_add_epi32 acc.2 = (dotRange a b 0 (i * 32) : I32)

/-- One block adds its products to the two accumulators together. -/
theorem avx2_chunk
    {acc : Lanes 32 8 × Lanes 32 8} {i : Nat} (h : Avx2Sum a b acc i)
    (ha : (i + 1) * 32 ≤ a.length) (hb : (i + 1) * 32 ≤ b.length) :
    ∃ acc', avx2Chunk a b acc i = some acc' ∧ Avx2Sum a b acc' (i + 1) := by
  have hword : ∀ x y : I8, ((x.signExtend 16).signExtend 32 * (y.signExtend 16).signExtend 32) =
      ((x.toInt * y.toInt : ℤ) : I32) := by
    intro x y
    rw [signExtend_signExtend, signExtend_signExtend, Int.cast_mul]
    rfl
  have hhalves := @sum_halves 16 I32 _ fun j =>
    (((bytesAt 32 a (i * 32) j).toInt * (bytesAt 32 b (i * 32) j).toInt : ℤ) : I32)
  unfold avx2Chunk
  rw [loadu_eq (by omega), loadu_eq (by omega)]
  refine ⟨_, rfl, ?_⟩
  unfold Avx2Sum at h ⊢
  dsimp only
  rw [total_add_epi32, total_add_epi32, total_madd_epi16, total_madd_epi16,
    show (i + 1) * 32 = i * 32 + 32 from Nat.succ_mul i 32,
    dotRange_add, Nat.zero_add, Int.cast_add, ← h, ← sum_bytesAt, add_add_add_comm]
  unfold cvtepi8_epi16 extracti128
  simp only [hword]
  exact congrArg _ hhalves.symm

/-- The bias taken off, the accumulators hold the products of the first `i` blocks. -/
def VnniSum (a b : List I8) (acc : Lanes 32 16 × Lanes 32 16) (i : Nat) : Prop :=
  reduce_add_epi32 acc.1 - 128 * reduce_add_epi32 acc.2 = (dotRange a b 0 (i * 64) : I32)

/-- One block adds its biased products and the bytes of the second operand. -/
theorem vnni_chunk
    {acc : Lanes 32 16 × Lanes 32 16} {i : Nat} (h : VnniSum a b acc i)
    (ha : (i + 1) * 64 ≤ a.length) (hb : (i + 1) * 64 ≤ b.length) :
    ∃ acc', vnniChunk a b acc i = some acc' ∧ VnniSum a b acc' (i + 1) := by
  unfold vnniChunk
  rw [loadu_eq (by omega), loadu_eq (by omega)]
  refine ⟨_, rfl, ?_⟩
  unfold VnniSum at h ⊢
  dsimp only
  rw [total_dpbusd_epi32, total_dpbusd_epi32,
    show (i + 1) * 64 = i * 64 + 64 from Nat.succ_mul i 64, dotRange_add, Nat.zero_add,
    Int.cast_add, ← h, ← sum_bytesAt]
  have hbias : ∀ j, (((xor_si (bytesAt 64 a (i * 64)) (set1 (-128)) j).toNat *
      (bytesAt 64 b (i * 64) j).toInt : ℤ) : I32) =
      (((bytesAt 64 a (i * 64) j).toInt * (bytesAt 64 b (i * 64) j).toInt : ℤ) : I32) +
        128 * (((bytesAt 64 b (i * 64) j).toInt : ℤ) : I32) := by
    intro j
    rw [show ((xor_si (bytesAt 64 a (i * 64)) (set1 (-128)) j).toNat : ℤ) =
      (bytesAt 64 a (i * 64) j).toInt + 128 from toNat_xor_bias _, add_mul]
    push_cast
    rfl
  have hone : ∀ j : Fin 64, (((set1 (1 : BitVec 8) j).toNat *
      (bytesAt 64 b (i * 64) j).toInt : ℤ) : I32) =
      (((bytesAt 64 b (i * 64) j).toInt : ℤ) : I32) := by
    intro j
    rw [show ((set1 (1 : BitVec 8) j).toNat : ℤ) = 1 from rfl, one_mul]
  rw [Finset.sum_congr rfl fun j _ => hbias j, Finset.sum_congr rfl fun j _ => hone j,
    Finset.sum_add_distrib, ← Finset.mul_sum]
  ring

end Blocks

/-! ## The loops over blocks -/

section Loops

variable {a b : List I8} {n : Nat}

theorem avx2_pairs
    {chunks : Nat} (ha : chunks * 32 ≤ a.length) (hb : chunks * 32 ≤ b.length)
    {acc : Lanes 32 8 × Lanes 32 8} {i : Nat} (hi : i ≤ chunks) (h : Avx2Sum a b acc i) :
    ∃ acc' i', avx2Pairs a b chunks acc i = some (acc', i') ∧ i' ≤ chunks ∧
      Avx2Sum a b acc' i' := by
  induction acc, i using avx2Pairs.induct chunks with
  | case1 acc i hroom ih =>
      obtain ⟨acc₁, h₁, hsum₁⟩ := avx2_chunk h (by omega) (by omega)
      obtain ⟨acc₂, h₂, hsum₂⟩ := avx2_chunk hsum₁ (by omega) (by omega)
      rw [avx2Pairs, if_pos hroom, h₁, Option.bind_eq_bind, Option.bind_some, h₂,
        Option.bind_some]
      exact ih acc₂ hroom hsum₂
  | case2 acc i hdone =>
      rw [avx2Pairs, if_neg hdone]
      exact ⟨acc, i, rfl, hi, h⟩

theorem avx2_singles
    {chunks : Nat} (ha : chunks * 32 ≤ a.length) (hb : chunks * 32 ≤ b.length)
    {acc : Lanes 32 8 × Lanes 32 8} {i : Nat} (hi : i ≤ chunks) (h : Avx2Sum a b acc i) :
    ∃ acc', avx2Singles a b chunks acc i = some acc' ∧ Avx2Sum a b acc' chunks := by
  induction acc, i using avx2Singles.induct chunks with
  | case1 acc i hroom ih =>
      obtain ⟨acc₁, h₁, hsum₁⟩ := avx2_chunk h (by omega) (by omega)
      rw [avx2Singles, if_pos hroom, h₁, Option.bind_eq_bind, Option.bind_some]
      exact ih acc₁ hroom hsum₁
  | case2 acc i hdone =>
      obtain rfl : i = chunks := by omega
      rw [avx2Singles, if_neg hdone]
      exact ⟨acc, rfl, h⟩

theorem vnni_blocks
    {chunks : Nat} (ha : chunks * 64 ≤ a.length) (hb : chunks * 64 ≤ b.length) :
    ∃ acc, (List.range chunks).foldlM (vnniChunk a b) (setzero, setzero) = some acc ∧
      VnniSum a b acc chunks := by
  induction chunks with
  | zero =>
      refine ⟨(setzero, setzero), rfl, ?_⟩
      unfold VnniSum
      rw [total_setzero]
      simp [dotRange]
  | succ chunks ih =>
      obtain ⟨acc, hacc, hsum⟩ := ih (by omega) (by omega)
      obtain ⟨acc', hacc', hsum'⟩ := vnni_chunk hsum ha hb
      refine ⟨acc', ?_, hsum'⟩
      rw [List.range_succ, List.foldlM_append, hacc, Option.bind_eq_bind, Option.bind_some,
        List.foldlM_cons, hacc', Option.bind_eq_bind, Option.bind_some]
      rfl

end Loops

/-! ## The kernels -/

section Kernels

variable {a b : List I8}

theorem scalar_eq (h : a.length = b.length) :
    dot_i8_scalar a b = some (dot a b : I32) := by
  unfold dot_i8_scalar
  rw [List.range_eq_range', dotLoop_eq (by omega) (by omega), dotRange_all a b h, zero_add]

/-- The tail behind the blocks completes the sum. -/
theorem tail_eq (h : a.length = b.length) (block : Nat) {s : I32}
    (hs : s = (dotRange a b 0 (a.length / block * block) : I32)) :
    dotLoop a b s (List.range' (a.length / block * block)
      (a.length - a.length / block * block)) = some (dot a b : I32) := by
  have hle : a.length / block * block ≤ a.length := Nat.div_mul_le_self _ _
  have hsplit := dotRange_add a b 0 (a.length / block * block)
    (a.length - a.length / block * block)
  rw [Nat.add_sub_cancel' hle, Nat.zero_add] at hsplit
  rw [dotLoop_eq (by omega) (by omega), hs, ← Int.cast_add, ← hsplit, dotRange_all a b h]

theorem avx2_eq (h : a.length = b.length) : dot_i8_avx2 a b = some (dot a b : I32) := by
  have hle : a.length / 32 * 32 ≤ a.length := Nat.div_mul_le_self _ _
  have hzero : Avx2Sum a b (setzero, setzero) 0 := by
    unfold Avx2Sum
    rw [total_setzero]
    simp [dotRange]
  obtain ⟨acc, i, hpairs, hi, hsum⟩ := avx2_pairs hle (h ▸ hle) (Nat.zero_le _) hzero
  obtain ⟨⟨acc0, acc1⟩, hsingles, hsum⟩ := avx2_singles hle (h ▸ hle) hi hsum
  have hfold := @sum_halves 4 I32 _ (add_epi32 acc0 acc1)
  unfold dot_i8_avx2
  rw [← h, min_self]
  simp only [hpairs, hsingles, Option.bind_eq_bind, Option.bind_some]
  refine tail_eq h 32 ?_
  rw [horizontal_sum, total_add_epi32, ← hsum]
  exact hfold.symm.trans (total_add_epi32 acc0 acc1)

theorem vnni_eq (h : a.length = b.length) : dot_i8_vnni a b = some (dot a b : I32) := by
  have hle : a.length / 64 * 64 ≤ a.length := Nat.div_mul_le_self _ _
  obtain ⟨acc, hblocks, hsum⟩ := vnni_blocks hle (hle.trans h.le)
  unfold dot_i8_vnni
  rw [← h, min_self]
  simp only [hblocks, Option.bind_eq_bind, Option.bind_some]
  exact tail_eq h 64 hsum

/-- Each dimension adds at most `2 ^ 14`. -/
theorem natAbs_dotRange_le (a b : List I8) (start count : Nat) :
    (dotRange a b start count).natAbs ≤ count * 16384 := by
  induction count with
  | zero => simp [dotRange]
  | succ count ih =>
      have hterm : ∀ x y : I8, (x.toInt * y.toInt).natAbs ≤ 16384 := by
        intro x y
        have hx : -128 ≤ x.toInt := BitVec.le_toInt x
        have hx' : x.toInt < 128 := BitVec.toInt_lt
        have hy : -128 ≤ y.toInt := BitVec.le_toInt y
        have hy' : y.toInt < 128 := BitVec.toInt_lt
        rw [Int.natAbs_mul]
        calc x.toInt.natAbs * y.toInt.natAbs
            ≤ 128 * 128 := Nat.mul_le_mul (by omega) (by omega)
          _ = 16384 := rfl
      have hone := hterm (a.getD (start + count) 0) (b.getD (start + count) 0)
      unfold dotRange at ih ⊢
      rw [Finset.sum_range_succ]
      omega

/-- For slices of one length all kernels return the sum of the products modulo `2 ^ 32`,
and that is the sum itself for up to 131071 dimensions. -/
theorem kernels_agree (a b : List I8) (h : a.length = b.length) :
    dot_i8_scalar a b = some (BitVec.ofInt 32 (dot a b)) ∧
    dot_i8_avx2 a b = some (BitVec.ofInt 32 (dot a b)) ∧
    dot_i8_vnni a b = some (BitVec.ofInt 32 (dot a b)) ∧
    (a.length ≤ 131071 → (BitVec.ofInt 32 (dot a b)).toInt = dot a b) := by
  refine ⟨scalar_eq h, avx2_eq h, vnni_eq h, ?_⟩
  intro hlen
  have hle := natAbs_dotRange_le a b 0 a.length
  rw [dotRange_all a b h] at hle
  rw [BitVec.toInt_ofInt]
  exact Int.bmod_eq_of_le (by omega) (by omega)

/-- All products as large as they get, with a tail behind each kind of block. -/
theorem kernels_agree_minimum :
    let a : List I8 := List.replicate 113 (-128)
    dot_i8_scalar a a = some (BitVec.ofInt 32 (dot a a)) ∧
    dot_i8_avx2 a a = some (BitVec.ofInt 32 (dot a a)) ∧
    dot_i8_vnni a a = some (BitVec.ofInt 32 (dot a a)) ∧
    (a.length ≤ 131071 → (BitVec.ofInt 32 (dot a a)).toInt = dot a a) :=
  kernels_agree _ _ rfl

end Kernels

end Vectors
end StrikeDB
