import StrikeDB.Bytes

/-!
# StrikeDB: the byte strings with a prefix

Byte strings in lexicographic order.  Those that begin with `p` lie side by side: from `p`
itself up to the least string above all of them, `prefixEnd p`, or to the end of the
order when `p` has no byte below 0xFF.

* `prefix_iff_range`: a string begins with `p` exactly when it lies in that range.
* `prefix_of_append_sep`: two names, each with a separator behind it, that begin the same
  string.
* `compare_beBytes`: big-endian integers are in the order of their bytes.
-/

namespace StrikeDB

/-- Drop the bytes 0xFF at the end, then add one to the last byte. -/
def prefixEnd (p : Bytes) : Bytes :=
  match p.reverse.dropWhile (· = 0xFF) with
  | [] => []
  | b :: rest => rest.reverse ++ [b + 1]

/-- The same bound, computed from the first byte on: `none` when there is none. -/
def above : Bytes → Option Bytes
  | [] => none
  | b :: p =>
      match above p with
      | some e => some (b :: e)
      | none => if b = 0xFF then none else some [b + 1]

theorem dropWhile_append_singleton (p : UInt8 → Bool) (l : Bytes) (b : UInt8) :
    (l ++ [b]).dropWhile p =
      if l.dropWhile p = [] then if p b then [] else [b] else l.dropWhile p ++ [b] := by
  induction l with
  | nil =>
      by_cases h : p b <;> simp [h]
  | cons c l ih =>
      by_cases h : p c
      · simpa [h] using ih
      · simp [h]

/-- The loop from the end finds the bound, and nothing when there is none. -/
theorem prefixEnd_spec (p : Bytes) :
    prefixEnd p = (above p).getD [] ∧ (p.reverse.dropWhile (· = 0xFF) = [] ↔ above p = none) := by
  induction p with
  | nil => exact ⟨rfl, by simp [above]⟩
  | cons b p ih =>
      obtain ⟨hend, hnone⟩ := ih
      rw [prefixEnd] at hend
      rw [prefixEnd, List.reverse_cons, dropWhile_append_singleton, above]
      cases habove : above p with
      | none =>
          rw [if_pos (hnone.mpr habove)]
          by_cases hb : b = 0xFF <;> simp [hb]
      | some e =>
          have hne : p.reverse.dropWhile (· = 0xFF) ≠ [] := by
            intro h
            rw [hnone.mp h] at habove
            cases habove
          rw [if_neg hne]
          rw [habove] at hend
          obtain ⟨c, rest, hdrop⟩ := List.exists_cons_of_ne_nil hne
          rw [hdrop] at hend ⊢
          simp only [List.cons_append, List.reverse_append, List.reverse_cons, List.reverse_nil,
            List.nil_append, Option.getD_some, reduceCtorEq] at hend ⊢
          exact ⟨by rw [← hend], trivial⟩

theorem above_ne_nil {p e : Bytes} (h : above p = some e) : e ≠ [] := by
  cases p with
  | nil => cases h
  | cons b p =>
      rw [above] at h
      split at h
      · cases h
        simp
      · split at h
        · cases h
        · cases h
          simp

/-- No byte lies between `b` and `b + 1`. -/
theorem lt_succ_iff {b c : UInt8} (hb : b ≠ 0xFF) : c < b + 1 ↔ c < b ∨ c = b := by
  have hnat : b.toNat ≠ 255 := fun h => hb (UInt8.toNat_inj.mp h)
  have hlt : b.toNat < 256 := b.toNat_lt
  have hsucc : (b + 1).toNat = b.toNat + 1 := by
    rw [UInt8.toNat_add]
    simp only [UInt8.reduceToNat]
    omega
  rw [UInt8.lt_iff_toNat_lt, UInt8.lt_iff_toNat_lt, hsucc, ← UInt8.toNat_inj]
  omega

theorem not_lt_ff (c : UInt8) : ¬ (0xFF : UInt8) < c := by
  have hc : c.toNat < 256 := c.toNat_lt
  rw [UInt8.lt_iff_toNat_lt]
  simp only [UInt8.reduceToNat]
  omega

/-- The first byte is above the bound's. -/
theorem above_lt_of_lt {b c : UInt8} (h : b < c) (p k : Bytes) :
    ∃ e, above (b :: p) = some e ∧ (compare (c :: k) e).isLT = false := by
  have hgt : compare c b = .gt := Std.compare_eq_gt.mpr h
  rw [above]
  cases above p with
  | some e =>
      refine ⟨b :: e, rfl, ?_⟩
      rw [List.compare_cons_cons, hgt]
      rfl
  | none =>
      have hb : b ≠ 0xFF := by
        rintro rfl
        exact not_lt_ff c h
      refine ⟨[b + 1], by simp [hb], ?_⟩
      rw [List.compare_cons_cons]
      have hle : ¬ c < b + 1 := by
        rw [lt_succ_iff hb, not_or]
        exact ⟨Std.not_gt_of_lt h, fun heq => Std.lt_irrefl (heq ▸ h)⟩
      cases hcmp : compare c (b + 1) with
      | lt => exact absurd (Std.compare_eq_lt.mp hcmp) hle
      | gt => rfl
      | eq => cases k <;> simp

/-- Behind a common first byte the bound is that of the rest. -/
theorem lt_above_cons (b : UInt8) (p k : Bytes) :
    (∀ e, above (b :: p) = some e → (compare (b :: k) e).isLT = true) ↔
      ∀ e, above p = some e → (compare k e).isLT = true := by
  rw [above]
  cases habove : above p with
  | some e => simp [List.compare_cons_cons]
  | none =>
      by_cases hb : b = 0xFF
      · simp [hb]
      · have hlt : compare b (b + 1) = .lt :=
          Std.compare_eq_lt.mpr ((lt_succ_iff hb).mpr (Or.inr rfl))
        simp [hb, List.compare_cons_cons, hlt]

/-- A string begins with `p` exactly when it lies from `p` on and below `above p`. -/
theorem prefix_iff_above (p k : Bytes) :
    p <+: k ↔ (compare p k).isLE = true ∧ ∀ e, above p = some e → (compare k e).isLT = true := by
  induction p generalizing k with
  | nil => cases k <;> simp [above]
  | cons b p ih =>
      cases k with
      | nil => simp
      | cons c k =>
          rw [List.cons_prefix_cons, List.compare_cons_cons]
          rcases Std.lt_trichotomy b c with hlt | rfl | hlt
          · obtain ⟨e, he, hge⟩ := above_lt_of_lt hlt p k
            constructor
            · rintro ⟨rfl, _⟩
              exact absurd hlt Std.lt_irrefl
            · rintro ⟨_, hall⟩
              rw [hall e he] at hge
              cases hge
          · rw [lt_above_cons, ih k]
            simp
          · have hgt : compare b c = .gt := Std.compare_eq_gt.mpr hlt
            constructor
            · rintro ⟨rfl, _⟩
              exact absurd hlt Std.lt_irrefl
            · rintro ⟨hle, _⟩
              rw [hgt] at hle
              cases hle

theorem above_append_singleton {b : UInt8} (hb : b ≠ 0xFF) (p : Bytes) :
    above (p ++ [b]) = some (p ++ [b + 1]) := by
  induction p with
  | nil => simp [above, hb]
  | cons c p ih => simp [above, ih]

/-! ## Big-endian integers -/

/-- `to_be_bytes`. -/
def beBytes (w n : Nat) : Bytes := (leBytes w n).reverse

/-- `from_be_bytes`. -/
def beNat (bs : Bytes) : Nat := leNat bs.reverse

@[simp] theorem beBytes_length (w n : Nat) : (beBytes w n).length = w := by
  simp [beBytes]

theorem beNat_beBytes {w n : Nat} (h : n < 256 ^ w) : beNat (beBytes w n) = n := by
  rw [beNat, beBytes, List.reverse_reverse, leNat_leBytes w n h]

/-- Strings of one length are compared part by part. -/
theorem compare_append_of_length {a b : Bytes} (h : a.length = b.length) (c d : Bytes) :
    compare (a ++ c) (b ++ d) = (compare a b).then (compare c d) := by
  induction a generalizing b with
  | nil =>
      obtain rfl := List.length_eq_zero_iff.mp h.symm
      rfl
  | cons x a ih =>
      cases b with
      | nil => cases h
      | cons y b =>
          rw [List.cons_append, List.cons_append, List.compare_cons_cons, List.compare_cons_cons,
            ih (Nat.succ.inj h), Ordering.then_assoc]

theorem beBytes_succ (w n : Nat) : beBytes (w + 1) n = beBytes w (n / 256) ++ [UInt8.ofNat n] := by
  simp [beBytes, leBytes]

theorem compare_ofNat (m n : Nat) :
    compare (UInt8.ofNat m) (UInt8.ofNat n) = compare (m % 256) (n % 256) := by
  have hnat : ∀ k, (UInt8.ofNat k).toNat = k % 256 := fun k => UInt8.toNat_ofNat'
  rcases Nat.lt_trichotomy (m % 256) (n % 256) with hlt | heq | hgt
  · rw [Nat.compare_eq_lt.mpr hlt, Std.compare_eq_lt, UInt8.lt_iff_toNat_lt, hnat, hnat]
    exact hlt
  · rw [Nat.compare_eq_eq.mpr heq, Std.LawfulEqCmp.compare_eq_iff_eq, ← UInt8.toNat_inj, hnat, hnat]
    exact heq
  · rw [Nat.compare_eq_gt.mpr hgt, Std.compare_eq_gt, UInt8.lt_iff_toNat_lt, hnat, hnat]
    exact hgt

/-- Big-endian integers are in the order of their bytes. -/
theorem compare_beBytes {w m n : Nat} (hm : m < 256 ^ w) (hn : n < 256 ^ w) :
    compare (beBytes w m) (beBytes w n) = compare m n := by
  induction w generalizing m n with
  | zero =>
      have hm0 : m = 0 := by simpa using hm
      have hn0 : n = 0 := by simpa using hn
      subst hm0 hn0
      rfl
  | succ w ih =>
      rw [pow_succ] at hm hn
      have hlen : (beBytes w (m / 256)).length = (beBytes w (n / 256)).length := by simp
      have hbyte : compare [UInt8.ofNat m] [UInt8.ofNat n] = compare (m % 256) (n % 256) := by
        rw [List.compare_cons_cons, compare_ofNat]
        cases compare (m % 256) (n % 256) <;> rfl
      rw [beBytes_succ, beBytes_succ, compare_append_of_length hlen,
        ih (Nat.div_lt_of_lt_mul (by omega)) (Nat.div_lt_of_lt_mul (by omega)), hbyte]
      rcases Nat.lt_trichotomy (m / 256) (n / 256) with hlt | heq | hgt
      · have hmn : m < n := by omega
        rw [Nat.compare_eq_lt.mpr hlt, Nat.compare_eq_lt.mpr hmn]
        rfl
      · rw [Nat.compare_eq_eq.mpr heq, Ordering.eq_then]
        rcases Nat.lt_trichotomy (m % 256) (n % 256) with hlt | heq' | hgt
        · have hmn : m < n := by omega
          rw [Nat.compare_eq_lt.mpr hlt, Nat.compare_eq_lt.mpr hmn]
        · have hmn : m = n := by omega
          rw [Nat.compare_eq_eq.mpr heq', Nat.compare_eq_eq.mpr hmn]
        · have hmn : n < m := by omega
          rw [Nat.compare_eq_gt.mpr hgt, Nat.compare_eq_gt.mpr hmn]
      · have hmn : n < m := by omega
        rw [Nat.compare_eq_gt.mpr hgt, Nat.compare_eq_gt.mpr hmn]
        rfl

/-! ## Names with a separator -/

/-- Two names, each with a separator behind it, that begin the same string. -/
theorem prefix_of_append_sep
    {a b k : Bytes} {sep : UInt8} (ha : a ++ [sep] <+: k) (hb : b ++ [sep] <+: k) (hne : a ≠ b) :
    a ++ [sep] <+: b ∨ b ++ [sep] <+: a := by
  rcases List.prefix_or_prefix_of_prefix ha hb with h | h
  · rw [List.prefix_concat_iff] at h
    rcases h with h | h
    · exact absurd (List.append_cancel_right h) hne
    · exact Or.inl h
  · rw [List.prefix_concat_iff] at h
    rcases h with h | h
    · exact absurd (List.append_cancel_right h).symm hne
    · exact Or.inr h

end StrikeDB
