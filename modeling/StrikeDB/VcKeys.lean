import StrikeDB.ElementKeys
import StrikeDB.Replies

/-!
# StrikeDB: the keys of the version control

What the version control stores lies under `vcs:{r}:`, so in one shard.  A key of the
engine stands in such a key escaped, as `esc` does it: 00 becomes 00 FF, and 00 00 ends
the key.

**Results.**

* `unesc_esc`: an escaped key is read back, with what stands behind it.
* `compare_esc_append`: escaped keys compare as the keys do, whatever stands behind them.
* `esc_prefix_free`: no escaped key is the front of another.
* `compare_hist_key`: histories are in the order of their keys, and of one key by commit.
-/

namespace StrikeDB
namespace Vcs

/-! ## Keys -/

def P : Bytes := utf8 "vcs:\x7br\x7d:"

def k (parts : List Bytes) : Key := P ++ parts.flatten

/-- The escaped key; `terminate` puts its end behind it. -/
def esc (key : Bytes) (terminate : Bool) : Bytes :=
  (key.flatMap fun b => if b = 0 then [0, 0xFF] else [b]) ++ if terminate then [0, 0] else []

/-- Split `<key*><rest>` into the key and the rest. -/
def unesc : Bytes → Option (Bytes × Bytes)
  | [] => none
  | b :: rest =>
      if b = 0 then
        match rest with
        | [] => none
        | c :: rest =>
            if c = 0xFF then (unesc rest).map fun r => (0 :: r.1, r.2)
            else if c = 0 then some ([], rest)
            else none
      else (unesc rest).map fun r => (b :: r.1, r.2)

@[simp] theorem esc_cons (b : UInt8) (key : Bytes) (terminate : Bool) :
    esc (b :: key) terminate = (if b = 0 then [0, 0xFF] else [b]) ++ esc key terminate := by
  simp [esc]

/-- An escaped key is read back, with what stands behind it. -/
theorem unesc_esc (key rest : Bytes) : unesc (esc key true ++ rest) = some (key, rest) := by
  induction key with
  | nil => rfl
  | cons b key ih =>
      rw [esc_cons]
      by_cases hb : b = 0
      · rw [if_pos hb, hb]
        simp [unesc, ih]
      · rw [if_neg hb]
        show unesc (b :: (esc key true ++ rest)) = _
        rw [unesc.eq_def]
        simp only [if_neg hb, ih]
        rfl

/-- The first bytes of two escaped keys decide where the keys' own do. -/
theorem compare_escaped_of_ne
    {a b : UInt8} (h : a ≠ b) (x y : Bytes) :
    compare ((if a = 0 then [0, 0xFF] else [a]) ++ x) ((if b = 0 then [0, 0xFF] else [b]) ++ y) =
      compare a b := by
  have hne : compare a b ≠ .eq := fun heq => h (Std.LawfulEqCmp.compare_eq_iff_eq.mp heq)
  have hhead : ∀ c : UInt8, ∃ z, (if c = 0 then [0, 0xFF] else [c] : Bytes) = c :: z := by
    intro c
    by_cases hc : c = 0
    · exact ⟨[0xFF], by rw [if_pos hc, hc]⟩
    · exact ⟨[], if_neg hc⟩
  obtain ⟨z, hz⟩ := hhead a
  obtain ⟨w, hw⟩ := hhead b
  rw [hz, hw, List.cons_append, List.cons_append, List.compare_cons_cons]
  cases hab : compare a b with
  | lt => rfl
  | eq => exact absurd hab hne
  | gt => rfl

/-- The end of a key is below every byte of an escaped one. -/
theorem compare_end_escaped (c : UInt8) (x y : Bytes) :
    compare ([0, 0] ++ x) ((if c = 0 then [0, 0xFF] else [c]) ++ y) = .lt := by
  by_cases hc : c = 0
  · rw [if_pos hc]
    rfl
  · have hlt : compare 0 c = .lt := by
      rw [Std.compare_eq_lt, UInt8.lt_iff_toNat_lt]
      have : c.toNat ≠ 0 := fun h => hc (UInt8.toNat_inj.mp h)
      simpa using Nat.pos_of_ne_zero this
    rw [if_neg hc]
    change compare (0 :: 0 :: x) (c :: y) = .lt
    rw [List.compare_cons_cons, hlt]
    rfl

/-- Escaped keys compare as the keys do, whatever stands behind them. -/
theorem compare_esc_append (a b x y : Bytes) :
    compare (esc a true ++ x) (esc b true ++ y) = (compare a b).then (compare x y) := by
  induction a generalizing b with
  | nil =>
      cases b with
      | nil => exact compare_append_of_length rfl x y
      | cons d b =>
          rw [esc_cons, List.append_assoc]
          exact compare_end_escaped d x _
  | cons c a ih =>
      cases b with
      | nil =>
          rw [esc_cons, List.append_assoc, Std.OrientedOrd.eq_swap,
            show esc [] true = [0, 0] from rfl, compare_end_escaped c y _]
          rfl
      | cons d b =>
          rw [List.compare_cons_cons, esc_cons, esc_cons, List.append_assoc, List.append_assoc]
          by_cases hcd : c = d
          · rw [hcd, compare_append_of_length rfl, ih, Std.compare_self,
              Std.compare_self]
            rfl
          · rw [compare_escaped_of_ne hcd]
            cases hlt : compare c d with
            | lt => rfl
            | eq => exact absurd (Std.LawfulEqCmp.compare_eq_iff_eq.mp hlt) hcd
            | gt => rfl

theorem compare_esc (a b : Bytes) (terminate : Bool) :
    compare (esc a terminate) (esc b terminate) = compare a b := by
  cases terminate with
  | true =>
      have h := compare_esc_append a b [] []
      rw [List.append_nil, List.append_nil] at h
      rw [h, Std.compare_self, Ordering.then_eq]
  | false =>
      induction a generalizing b with
      | nil =>
          cases b with
          | nil => rfl
          | cons d b =>
              rw [esc_cons]
              split <;> rfl
      | cons c a ih =>
          cases b with
          | nil =>
              rw [esc_cons]
              split <;> rfl
          | cons d b =>
              rw [List.compare_cons_cons, esc_cons, esc_cons]
              by_cases hcd : c = d
              · rw [hcd, compare_append_of_length rfl, ih, Std.compare_self,
                  Std.compare_self]
              · rw [compare_escaped_of_ne hcd]
                cases hlt : compare c d with
                | lt => rfl
                | eq => exact absurd (Std.LawfulEqCmp.compare_eq_iff_eq.mp hlt) hcd
                | gt => rfl

/-- No escaped key is the front of another. -/
theorem esc_prefix_free {a b : Bytes} (h : esc a true <+: esc b true) : a = b := by
  obtain ⟨rest, hrest⟩ := h
  have ha := unesc_esc a rest
  have hb := unesc_esc b []
  rw [hrest] at ha
  rw [List.append_nil, ha] at hb
  exact congrArg Prod.fst (Option.some.inj hb)

/-- `u64::to_be_bytes` -/
def seqBytes (seq : UInt64) : Bytes := beBytes 8 seq.toNat

def hist_key (key : Key) (seq : UInt64) : Key := k [utf8 "h:"] ++ esc key true ++ seqBytes seq

/-- Histories are in the order of their keys, and of one key by commit. -/
theorem compare_hist_key (a b : Key) (s t : UInt64) :
    compare (hist_key a s) (hist_key b t) = (compare a b).then (compare s.toNat t.toNat) := by
  have hs := s.toNat_lt
  have ht := t.toNat_lt
  unfold hist_key
  rw [List.append_assoc, List.append_assoc, compare_append_of_length rfl,
    Std.compare_self, compare_esc_append]
  unfold seqBytes
  rw [compare_beBytes (by norm_num; exact hs) (by norm_num; exact ht)]
  rfl

/-! ## Histories -/

/-! ## User keys -/

/-! ## Hashes -/

/-! ## Commit records -/

namespace Commit

end Commit

end Vcs
end StrikeDB
