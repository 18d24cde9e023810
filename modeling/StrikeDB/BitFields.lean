import Mathlib.Data.List.Basic
import Mathlib.Data.Option.Basic

/-!
# StrikeDB: fields of bits in a string of bytes

Codes of a few bits each, packed into bytes.  A layout says where the code of an index
stands: in which byte, how far from its lowest bit, and under which mask.  What it carries
makes the fields independent of each other.

**Results.**

* `field_orField`: or-ing a code into an empty field sets it, and changes no other.
* `pack_spec`: packing a list of codes into zeroed bytes never leaves them, and each field
  then holds its code.
-/

namespace StrikeDB

/-- `out[byte] |= v`; `none` stands for an index out of range. -/
def orAt (out : List (BitVec 8)) (byte : Nat) (v : BitVec 8) : Option (List (BitVec 8)) :=
  (out[byte]?).map fun b : BitVec 8 => out.set byte (b ||| v)

/-- Where the codes stand. -/
structure BitLayout where
  byte : Nat → Nat
  shift : Nat → Nat
  mask : BitVec 8
  /-- A code that fits the mask is read back. -/
  read : ∀ i v, v &&& mask = v → ((v <<< shift i) >>> shift i) &&& mask = v
  /-- A code does not show in another field of its byte. -/
  apart : ∀ i j v, v &&& mask = v → i ≠ j → byte i = byte j →
    ((v <<< shift i) >>> shift j) &&& mask = 0#8

namespace BitLayout

variable (L : BitLayout)

/-- `(out[byte] >> shift) & mask` -/
def field (out : List (BitVec 8)) (i : Nat) : Option (BitVec 8) :=
  (out[L.byte i]?).map fun b : BitVec 8 => (b >>> L.shift i) &&& L.mask

/-- `out[byte] |= v << shift` -/
def orField (out : List (BitVec 8)) (i : Nat) (v : BitVec 8) : Option (List (BitVec 8)) :=
  orAt out (L.byte i) (v <<< L.shift i)

/-- The codes of a list, from index `k` on. -/
def pack (out : List (BitVec 8)) (k : Nat) : List (BitVec 8) → Option (List (BitVec 8))
  | [] => some out
  | v :: vs => do pack (← L.orField out k v) (k + 1) vs

variable {L}

theorem field_orField
    {out out' : List (BitVec 8)} {i : Nat} {v : BitVec 8} (hv : v &&& L.mask = v)
    (h : L.orField out i v = some out') (j : Nat) :
    L.field out' j = if i = j then (L.field out j).map (· ||| v) else L.field out j := by
  unfold orField orAt at h
  rw [Option.map_eq_some_iff] at h
  obtain ⟨b, hb, rfl⟩ := h
  unfold field
  rw [List.getElem?_set]
  by_cases hbyte : L.byte i = L.byte j
  · have hlt : L.byte i < out.length := (List.getElem?_eq_some_iff.mp hb).1
    rw [if_pos hbyte, if_pos (hbyte ▸ hlt), ← hbyte, hb, Option.map_some, Option.map_some,
      Option.map_some, BitVec.ushiftRight_or_distrib, BitVec.and_or_distrib_right]
    by_cases hij : i = j
    · rw [if_pos hij, ← hij, L.read i v hv]
    · rw [if_neg hij, L.apart i j v hv hij hbyte, BitVec.or_zero]
  · have hij : i ≠ j := fun h => hbyte (congrArg L.byte h)
    rw [if_neg hbyte, if_neg hij]

theorem length_orField
    {out out' : List (BitVec 8)} {i : Nat} {v : BitVec 8} (h : L.orField out i v = some out') :
    out'.length = out.length := by
  unfold orField orAt at h
  rw [Option.map_eq_some_iff] at h
  obtain ⟨b, -, rfl⟩ := h
  exact List.length_set

/-- Or-ing zero changes nothing. -/
theorem orField_zero
    {out : List (BitVec 8)} {i : Nat} (h : L.byte i < out.length) :
    L.orField out i 0#8 = some out := by
  unfold orField orAt
  rw [List.getElem?_eq_getElem h, Option.map_some, BitVec.zero_shiftLeft, BitVec.or_zero,
    List.set_getElem_self]

/-- Packing codes from index `k` on, into bytes whose fields from `k` on are zero. -/
theorem pack_spec
    {out vs : List (BitVec 8)} {k : Nat} (hvs : ∀ v ∈ vs, v &&& L.mask = v)
    (hroom : ∀ i, i < vs.length → L.byte (k + i) < out.length)
    (hzero : ∀ i, i < vs.length → L.field out (k + i) = some 0#8) :
    ∃ out', L.pack out k vs = some out' ∧ out'.length = out.length ∧
      (∀ i, i < k → L.field out' i = L.field out i) ∧
      ∀ i, i < vs.length → L.field out' (k + i) = vs[i]? := by
  induction vs generalizing out k with
  | nil => exact ⟨out, rfl, rfl, fun _ _ => rfl, fun i hi => absurd hi (Nat.not_lt_zero i)⟩
  | cons v vs ih =>
      obtain ⟨b, hb⟩ : ∃ b, out[L.byte k]? = some b :=
        ⟨_, List.getElem?_eq_getElem (hroom 0 (Nat.succ_pos _))⟩
      obtain ⟨out₁, h₁⟩ : ∃ out₁, L.orField out k v = some out₁ := by
        unfold orField orAt
        rw [hb]
        exact ⟨_, rfl⟩
      have hfield := field_orField (hvs v (by simp)) h₁
      have hlen := length_orField h₁
      obtain ⟨out', h', hlen', hbelow, hcodes⟩ := @ih out₁ (k + 1)
        (fun w hw => hvs w (List.mem_cons_of_mem _ hw))
        (fun i hi => by
          rw [hlen, Nat.add_right_comm, Nat.add_assoc]
          exact hroom (i + 1) (Nat.succ_lt_succ hi))
        (fun i hi => by
          rw [hfield, if_neg (by omega), Nat.add_right_comm, Nat.add_assoc]
          exact hzero (i + 1) (Nat.succ_lt_succ hi))
      refine ⟨out', ?_, hlen'.trans hlen, ?_, ?_⟩
      · rw [pack, h₁]
        exact h'
      · intro i hi
        rw [hbelow i (by omega), hfield, if_neg (by omega)]
      · intro i hi
        cases i with
        | zero =>
            have hk := hzero 0 (Nat.succ_pos _)
            rw [Nat.add_zero] at hk
            rw [Nat.add_zero, hbelow k (Nat.lt_succ_self k), hfield, if_pos rfl, hk,
              Option.map_some, BitVec.zero_or]
            rfl
        | succ i =>
            rw [← Nat.add_assoc, Nat.add_right_comm, hcodes i (Nat.lt_of_succ_lt_succ hi)]
            rfl

end BitLayout
end StrikeDB
