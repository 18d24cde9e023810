import StrikeDB.Binary64
import StrikeDB.ListWindow
import StrikeDB.VcKeys

/-!
# StrikeDB: encodings that keep an order

The store compares keys byte by byte.  A score of a sorted set, a position of a list and
a key in a history stand in other keys, each in an encoding whose bytes compare as the
encoded values do.

**Results.**

* `compare_score_bytes`: scores compare as their values, the two zeros as one.
* `score_from_score_bytes`: a score is read back bit for bit, a zero as the positive one.
* `seq_from_seq_bytes`, `exists_seq_bytes`: positions and strings of eight bytes
  correspond.
* `encodings_preserve_order`: all of it, with the keys of histories.
-/

namespace StrikeDB

/-! ## Scores -/

namespace ZSets

/-- Order-preserving encoding of the bits of an `f64` score. -/
def score_bytes (f : UInt64) : Bytes :=
  let b := if Binary64.isZero f then 0 else f
  let o := if b >>> 63 = 1 then ~~~b else b ^^^ TOP
  beBytes 8 o.toNat

/-- The bits of the score that stands in front; `none` stands for the panic of a slice
out of range. -/
def score_from (b : Bytes) : Option UInt64 :=
  if 8 ≤ b.length then
    let o := UInt64.ofNat (beNat (b.take 8))
    some (if o >>> 63 = 1 then o ^^^ TOP else ~~~o)
  else none

theorem shift_eq_one (b : UInt64) : b >>> 63 = 1 ↔ 2 ^ 63 ≤ b.toNat := by
  have hb := b.toNat_lt
  rw [← UInt64.toNat_inj, UInt64.toNat_shiftRight, Nat.shiftRight_eq_div_pow]
  show b.toNat / 2 ^ 63 = 1 ↔ _
  omega

/-- The place of a score in the order of the bytes. -/
def place (f : UInt64) : Nat :=
  (Binary64.signed f + if Binary64.signed f < 0 then 2 ^ 63 - 1 else 2 ^ 63).toNat

/-- Bits below the sign bit alone are below it; with it they count down. -/
theorem place_eq (f : UInt64) :
    place f = if Binary64.low f = 0 ∨ f.toNat < 2 ^ 63 then 2 ^ 63 + Binary64.low f
      else 2 ^ 64 - 1 - f.toNat := by
  have hf := f.toNat_lt
  unfold place Binary64.signed Binary64.sign Binary64.low
  simp only [decide_eq_true_eq]
  split <;> split <;> split <;> omega

theorem score_bytes_eq (f : UInt64) : score_bytes f = beBytes 8 (place f) := by
  have hf := f.toNat_lt
  rw [place_eq]
  unfold score_bytes Binary64.isZero
  simp only [shift_eq_one, decide_eq_true_eq]
  by_cases hzero : Binary64.low f = 0
  · rw [if_pos hzero, if_pos (Or.inl hzero), hzero, if_neg (by decide), xor_top]
    decide
  · unfold Binary64.low at *
    rw [if_neg hzero]
    by_cases hneg : 2 ^ 63 ≤ f.toNat
    · have hsize : UInt64.size = 2 ^ 64 := rfl
      rw [if_pos hneg, if_neg (by omega), UInt64.toNat_not, hsize]
    · have hnat : (f.toNat + 2 ^ 63) % 2 ^ 64 = 2 ^ 63 + f.toNat % 2 ^ 63 := by omega
      rw [if_neg hneg, if_pos (by omega), xor_top, hnat]

theorem place_bound (f : UInt64) : place f < 256 ^ 8 := by
  have hf := f.toNat_lt
  have hpow : 256 ^ 8 = 2 ^ 64 := by norm_num
  rw [place_eq, hpow]
  unfold Binary64.low
  split <;> omega

/-- Scores compare as their values. -/
theorem compare_score_bytes
    {a b : UInt64} (ha : Binary64.isNaN a = false) (hb : Binary64.isNaN b = false) :
    (compare (score_bytes a) (score_bytes b) = .lt ↔ Binary64.value a < Binary64.value b) ∧
    (score_bytes a = score_bytes b ↔ Binary64.value a = Binary64.value b) := by
  have hord : (place a < place b ↔ Binary64.signed a < Binary64.signed b) ∧
      (place a = place b ↔ Binary64.signed a = Binary64.signed b) := by
    have hbound : ∀ f : UInt64,
        -2 ^ 63 < Binary64.signed f ∧ Binary64.signed f < 2 ^ 63 := by
      intro f
      unfold Binary64.signed Binary64.low
      split <;> omega
    have hba := hbound a
    have hbb := hbound b
    unfold place
    constructor <;> split <;> split <;> omega
  have hcompare : compare (score_bytes a) (score_bytes b) = compare (place a) (place b) := by
    rw [score_bytes_eq, score_bytes_eq, compare_beBytes (place_bound a) (place_bound b)]
  rw [Binary64.value_lt_value ha hb, Binary64.value_inj ha hb, ← hord.1, ← hord.2, hcompare,
    Nat.compare_eq_lt, ← Std.compare_eq_iff_eq (a := score_bytes a),
    hcompare, Nat.compare_eq_eq]
  exact ⟨Iff.rfl, Iff.rfl⟩

/-- A score is read back bit for bit, and a zero as the positive one. -/
theorem score_from_score_bytes (f : UInt64) (rest : Bytes) :
    score_from (score_bytes f ++ rest) = some (if Binary64.isZero f then 0 else f) := by
  have hf := f.toNat_lt
  have hlen : (score_bytes f).length = 8 := by rw [score_bytes_eq, beBytes_length]
  have htake : (score_bytes f ++ rest).take 8 = score_bytes f := by
    rw [← hlen, List.take_left]
  have hword : (UInt64.ofNat (place f)).toNat = place f := by
    rw [UInt64.toNat_ofNat']
    exact Nat.mod_eq_of_lt (by have := place_bound f; norm_num at this ⊢; exact this)
  unfold score_from
  rw [if_pos (by rw [List.length_append]; omega), htake, score_bytes_eq,
    beNat_beBytes (place_bound f)]
  simp only [shift_eq_one, hword]
  have hsize : UInt64.size = 2 ^ 64 := rfl
  have hplace := place_eq f
  unfold Binary64.isZero
  unfold Binary64.low at *
  congr 1
  rw [← UInt64.toNat_inj]
  by_cases hzero : f.toNat % 2 ^ 63 = 0
  · rw [if_pos (Or.inl hzero)] at hplace
    rw [if_pos (by omega), xor_top, hword, decide_eq_true hzero, if_pos rfl, hplace, hzero]
    decide
  · rw [decide_eq_false hzero]
    simp only [Bool.false_eq_true, if_false]
    by_cases hneg : f.toNat < 2 ^ 63
    · rw [if_pos (Or.inr hneg)] at hplace
      rw [if_pos (by omega), xor_top, hword]
      omega
    · rw [if_neg (by omega)] at hplace
      rw [if_neg (by omega), UInt64.toNat_not, hword, hsize]
      omega

end ZSets

/-! ## Positions -/

namespace Lists

/-- The position that stands in front; `none` stands for the panic of a slice out of
range. -/
def seq_from (b : Bytes) : Option Int :=
  if 8 ≤ b.length then some (UInt64.ofNat (beNat (b.take 8)) ^^^ TOP).toInt64.toInt else none

theorem compare_seq_bytes_int {i j : Int} (hi : IsI64 i) (hj : IsI64 j) :
    compare (seq_bytes i) (seq_bytes j) = compare i j := by
  rw [compare_seq_bytes hi hj]
  obtain ⟨hi, -⟩ := hi
  obtain ⟨hj, -⟩ := hj
  rcases lt_trichotomy i j with h | h | h
  · rw [Nat.compare_eq_lt.mpr (by omega), compare_lt_iff_lt.mpr h]
  · rw [Nat.compare_eq_eq.mpr (by omega), compare_eq_iff_eq.mpr h]
  · rw [Nat.compare_eq_gt.mpr (by omega), compare_gt_iff_gt.mpr h]

theorem leBytes_leNat (bs : Bytes) : leBytes bs.length (leNat bs) = bs := by
  induction bs with
  | nil => rfl
  | cons b bs ih =>
      have hb := b.toNat_lt
      have hlow : UInt8.ofNat (b.toNat + 256 * leNat bs) = b := by
        rw [← UInt8.toNat_inj, UInt8.toNat_ofNat']
        omega
      have hhigh : (b.toNat + 256 * leNat bs) / 256 = leNat bs := by omega
      rw [List.length_cons, leNat, leBytes, hlow, hhigh, ih]

/-- Every string of eight bytes is that of a position. -/
theorem exists_seq_bytes {b : Bytes} (h : b.length = 8) : ∃ i, IsI64 i ∧ seq_bytes i = b := by
  have hlt : beNat b < 256 ^ 8 := by
    have := leNat_lt b.reverse
    rwa [List.length_reverse, h] at this
  have hbytes : beBytes 8 (beNat b) = b := by
    have hle := leBytes_leNat b.reverse
    rw [List.length_reverse, h] at hle
    rw [beBytes, beNat, hle, List.reverse_reverse]
  have hpow : (256 : Nat) ^ 8 = 2 ^ 64 := by norm_num
  rw [hpow] at hlt
  have hi : IsI64 ((beNat b : Int) - 2 ^ 63) := ⟨by omega, by omega⟩
  refine ⟨_, hi, ?_⟩
  have hnat : ((beNat b : Int) - 2 ^ 63 + 2 ^ 63).toNat = beNat b := by omega
  rw [seq_bytes_eq hi, hnat, hbytes]

/-- A position is read back. -/
theorem seq_from_seq_bytes {i : Int} (h : IsI64 i) (rest : Bytes) :
    seq_from (seq_bytes i ++ rest) = some i := by
  have hlen : (seq_bytes i).length = 8 := by rw [seq_bytes_eq h, beBytes_length]
  have htake : (seq_bytes i ++ rest).take 8 = seq_bytes i := by
    rw [← hlen, List.take_left]
  have hplace : (i + 2 ^ 63).toNat < 2 ^ 64 := by
    obtain ⟨hlow, hhigh⟩ := h
    omega
  have hword : (UInt64.ofNat (i + 2 ^ 63).toNat ^^^ TOP) =
      UInt64.ofNat (((i + 2 ^ 63).toNat + 2 ^ 63) % 2 ^ 64) := by
    rw [← UInt64.toNat_inj, xor_top, UInt64.toNat_ofNat', UInt64.toNat_ofNat',
      Nat.mod_eq_of_lt hplace, Nat.mod_mod]
  unfold seq_from
  rw [if_pos (by rw [List.length_append]; omega), htake, seq_bytes_eq h,
    beNat_beBytes (place_lt h), hword, toInt_ofNat (Nat.mod_lt _ (by norm_num))]
  obtain ⟨hlow, hhigh⟩ := h
  refine congrArg some ?_
  split <;> omega

end Lists

/-! ## All of them -/

/-- The encodings of scores, positions and keys keep the order of what they encode, and
are read back; the keys of two histories never interleave. -/
theorem encodings_preserve_order :
    (∀ a b, Binary64.isNaN a = false → Binary64.isNaN b = false →
      (compare (ZSets.score_bytes a) (ZSets.score_bytes b) = .lt ↔
        Binary64.value a < Binary64.value b) ∧
      (ZSets.score_bytes a = ZSets.score_bytes b ↔ Binary64.value a = Binary64.value b)) ∧
    (∀ f, Binary64.isNaN f = false → ZSets.score_from (ZSets.score_bytes f) =
      some (if Binary64.value f = 0 then 0 else f)) ∧
    (∀ i j, IsI64 i → IsI64 j →
      compare (Lists.seq_bytes i) (Lists.seq_bytes j) = compare i j) ∧
    (∀ b : Bytes, b.length = 8 ↔ ∃ i, IsI64 i ∧ Lists.seq_bytes i = b) ∧
    (∀ a b terminate, compare (Vcs.esc a terminate) (Vcs.esc b terminate) = compare a b) ∧
    (∀ a b terminate, Vcs.esc a terminate = Vcs.esc b terminate → a = b) ∧
    (∀ key rest, Vcs.unesc (Vcs.esc key true ++ rest) = some (key, rest)) ∧
    (∀ a b, Vcs.esc a true <+: Vcs.esc b true → a = b) ∧
    (∀ (a b : Key) (s t : UInt64), compare a b = .lt →
      compare (Vcs.hist_key a s) (Vcs.hist_key b t) = .lt) := by
  refine ⟨fun a b => ZSets.compare_score_bytes, ?_, fun i j => Lists.compare_seq_bytes_int, ?_,
    Vcs.compare_esc, ?_, Vcs.unesc_esc, fun a b => Vcs.esc_prefix_free, ?_⟩
  · intro f hf
    have hread := ZSets.score_from_score_bytes f []
    rw [List.append_nil] at hread
    rw [hread]
    simp only [← Binary64.isZero_iff hf]
  · intro b
    constructor
    · exact Lists.exists_seq_bytes
    · rintro ⟨i, hi, rfl⟩
      rw [Lists.seq_bytes_eq hi, beBytes_length]
  · intro a b terminate h
    rw [← Std.compare_eq_iff_eq, ← Vcs.compare_esc a b terminate, h,
      Std.compare_self]
  · intro a b s t h
    rw [Vcs.compare_hist_key, h]
    rfl

end StrikeDB
