import Mathlib.Data.List.Basic
import Mathlib.Tactic

/-!
# StrikeDB: byte strings and little-endian integers

Every file of the storage engine is a byte string, and every integer in it is
written with `to_le_bytes` and read back with `from_le_bytes`.  This file has
the two conversions for a field of `w` bytes and the fact that a value which
fits its field is read back unchanged.
-/

namespace StrikeDB

/-- The contents of a file or a buffer. -/
abbrev Bytes := List UInt8

instance lawful_bytes : LawfulBEq Bytes := inferInstance

/-- `to_le_bytes` of an unsigned integer of `w` bytes. -/
def leBytes : Nat → Nat → Bytes
  | 0, _ => []
  | w + 1, n => UInt8.ofNat n :: leBytes w (n / 256)

/-- `from_le_bytes`. -/
def leNat : Bytes → Nat
  | [] => 0
  | b :: bs => b.toNat + 256 * leNat bs

@[simp] theorem leBytes_length (w n : Nat) :
    (leBytes w n).length = w := by
  induction w generalizing n with
  | zero => rfl
  | succ w ih => simp [leBytes, ih]

/-- A value that fits its field is read back unchanged. -/
theorem leNat_leBytes (w n : Nat) (h : n < 256 ^ w) :
    leNat (leBytes w n) = n := by
  induction w generalizing n with
  | zero =>
      have : n = 0 := by simpa using h
      simp [leBytes, leNat, this]
  | succ w ih =>
      have hdiv : n / 256 < 256 ^ w := by
        rw [Nat.div_lt_iff_lt_mul (by omega)]
        rw [pow_succ] at h
        exact h
      have hlow : (UInt8.ofNat n).toNat = n % 256 := by
        simp [UInt8.toNat_ofNat']
      rw [leBytes, leNat, ih _ hdiv, hlow]
      omega

theorem leNat_lt (bs : Bytes) :
    leNat bs < 256 ^ bs.length := by
  induction bs with
  | nil => simp [leNat]
  | cons b bs ih =>
      have hb : b.toNat < 256 := b.toNat_lt
      rw [leNat, List.length_cons, pow_succ]
      omega

/-- `buf.get(pos..pos + n)` on the unread part of a buffer: the `n` bytes and
what is left, or `none` when they run past the end. -/
def getBytes (n : Nat) (buf : Bytes) : Option (Bytes × Bytes) :=
  if n ≤ buf.length then some (buf.take n, buf.drop n) else none

theorem getBytes_append (a rest : Bytes) :
    getBytes a.length (a ++ rest) = some (a, rest) := by
  simp [getBytes]

theorem getBytes_append_of_length
    {n : Nat} {a : Bytes} (h : a.length = n) (rest : Bytes) :
    getBytes n (a ++ rest) = some (a, rest) := by
  subst h
  exact getBytes_append a rest

/-- An unsigned little-endian field of `w` bytes. -/
def getUInt (w : Nat) (buf : Bytes) : Option (Nat × Bytes) :=
  (getBytes w buf).map fun r => (leNat r.1, r.2)

theorem getUInt_leBytes_append
    (w n : Nat) (h : n < 256 ^ w) (rest : Bytes) :
    getUInt w (leBytes w n ++ rest) = some (n, rest) := by
  rw [getUInt, getBytes_append_of_length (leBytes_length w n)]
  simp [leNat_leBytes w n h]

/-- A fact about all bytes is one about 256 numbers. -/
theorem forall_byte {P : UInt8 → Prop} (h : ∀ n : Fin 256, P (UInt8.ofNat n.val)) (b : UInt8) :
    P b := by
  have hb := h ⟨b.toNat, b.toNat_lt⟩
  rwa [UInt8.ofNat_toNat] at hb

/-- One lower-case hexadecimal digit. -/
def hexDigit (n : UInt8) : UInt8 := if n < 10 then 0x30 + n else 0x57 + n

end StrikeDB
