import StrikeDB.Text

/-!
# StrikeDB: names that are read as they were sent

A command makes strings of its arguments with `from_utf8_lossy`, and that reads many byte
strings as one.  A text with no replacement character in it is read from no other bytes.

* `lossy_append_start`, `valid_append_start`: a text is read on both sides of the first byte of a
  character.
* `Sole.eq`, `exists_other`: which texts are read from one byte string only.
-/

namespace StrikeDB
namespace Text

theorem not_isCont_of_ascii {c : UInt8} (h : c < 0x80) : isCont c = false := by
  by_contra hne
  exact not_ascii_of_isCont h (by simpa using hne) rfl

theorem isCont_of_isSecond {b c : UInt8} (h : isSecond b c) : isCont c := by
  simp only [isSecond] at h
  simp only [isCont, Bool.and_eq_true, decide_eq_true_eq, UInt8.le_iff_toNat_le,
    UInt8.lt_iff_toNat_lt] at h ⊢
  split_ifs at h <;> simp at h ⊢ <;> omega

/-- A byte that goes on with no character ends the one before it. -/
theorem lossy_append_start {c : UInt8} (h : isCont c = false) (t u : Bytes) :
    from_utf8_lossy (t ++ c :: u) = from_utf8_lossy t ++ from_utf8_lossy (c :: u) := by
  have hc (b : UInt8) : isSecond b c = false := by
    cases hb : isSecond b c with
    | false => rfl
    | true => exact (isCont_of_isSecond hb).symm.trans h
  fun_induction from_utf8_lossy t with
  | case1 => rfl
  | case2 b rest hb ih => rw [List.cons_append, lossy_cons_ascii hb, ih, List.cons_append]
  | case3 b rest hb hb' ih =>
      rw [List.cons_append, from_utf8_lossy.eq_def]
      simp [hb', ih]
  | case4 b hb hb' =>
      rw [List.cons_append, from_utf8_lossy.eq_def]
      simp [hb, hb', hc]
  | case5 b hb hb' e rest he ih =>
      rw [List.cons_append, List.cons_append, from_utf8_lossy.eq_def]
      simp only [List.cons_append] at ih
      simp [hb, hb', he, ih]
  | case6 b hb hb' e rest he htwo ih =>
      rw [List.cons_append, List.cons_append, lossy_two htwo (by simpa using he), ih]
      rfl
  | case7 b hb hb' e he htwo =>
      rw [List.cons_append, List.cons_append, from_utf8_lossy.eq_def]
      simp [hb, hb', he, htwo, h]
  | case8 b hb hb' e he htwo f rest hf ih =>
      simp only [List.cons_append] at ih ⊢
      rw [from_utf8_lossy.eq_def]
      simp [hb, hb', he, htwo, hf, ih]
  | case9 b hb hb' e he htwo f rest hf hthree ih =>
      simp only [List.cons_append] at ih ⊢
      rw [lossy_three hthree (by simpa using he) (by simpa using hf), ih]
  | case10 b hb hb' e he htwo f hf hthree =>
      simp only [List.cons_append]
      rw [from_utf8_lossy.eq_def]
      simp [hb, hb', he, htwo, hf, hthree, h]
  | case11 b hb hb' e he htwo f hf hthree g rest hg ih =>
      simp only [List.cons_append] at ih ⊢
      rw [from_utf8_lossy.eq_def]
      simp [hb, hb', he, htwo, hf, hthree, hg, ih]
  | case12 b hb hb' e he htwo f hf hthree g rest hg ih =>
      have hfour : charWidth b = 4 := by
        have hle := charWidth_le b
        omega
      simp only [List.cons_append] at ih ⊢
      rw [lossy_four hfour (by simpa using he) (by simpa using hf) (by simpa using hg), ih]

/-- An ascii byte ends the character before it. -/
theorem lossy_append_ascii {c : UInt8} (h : c < 0x80) (t u : Bytes) :
    from_utf8_lossy (t ++ c :: u) = from_utf8_lossy t ++ c :: from_utf8_lossy u := by
  rw [lossy_append_start (not_isCont_of_ascii h), lossy_cons_ascii (charWidth_of_ascii h)]

theorem length_le_lossy (t : Bytes) : t.length ≤ (from_utf8_lossy t).length := by
  fun_induction from_utf8_lossy t <;> simp [replacement] at * <;> omega

/-! ## UTF-8 -/

/-- A text that is read as it is. -/
def Valid (t : Text) : Prop := from_utf8_lossy t = t

instance (t : Text) : Decidable (Valid t) := inferInstanceAs (Decidable (_ = _))

theorem valid_append_start {c : UInt8} (h : isCont c = false) (t u : Bytes) :
    Valid (t ++ c :: u) ↔ Valid t ∧ Valid (c :: u) := by
  unfold Valid
  rw [lossy_append_start h]
  constructor
  · intro heq
    have hlen := congrArg List.length heq
    have ht := length_le_lossy t
    have hu := length_le_lossy (c :: u)
    simp only [List.length_append] at hlen
    exact List.append_inj heq (by omega)
  · rintro ⟨ht, hu⟩
    rw [ht, hu]

theorem valid_cons_ascii {c : UInt8} (h : c < 0x80) (u : Bytes) : Valid (c :: u) ↔ Valid u := by
  unfold Valid
  rw [lossy_cons_ascii (charWidth_of_ascii h), List.cons_inj_right]

theorem valid_append_ascii {c : UInt8} (h : c < 0x80) (t u : Bytes) :
    Valid (t ++ c :: u) ↔ Valid t ∧ Valid u := by
  rw [valid_append_start (not_isCont_of_ascii h), valid_cons_ascii h]

/-! ## Texts that are read from one byte string -/

/-- UTF-8, without a replacement character. -/
def Sole (t : Text) : Prop := from_utf8_lossy t = t ∧ ¬ replacement <:+: t

instance (t : Text) : Decidable (Sole t) := inferInstanceAs (Decidable (_ ∧ _))

/-- What was not read as it was sent has a replacement character. -/
theorem replacement_of_ne {t : Bytes} (h : from_utf8_lossy t ≠ t) :
    replacement <:+: from_utf8_lossy t := by
  have hhere (u : Bytes) : replacement <:+: replacement ++ u := (List.prefix_append _ _).isInfix
  fun_induction from_utf8_lossy t with
  | case1 => exact absurd rfl h
  | case2 b rest hb ih => exact List.infix_cons (ih fun heq => h (by rw [heq]))
  | case3 b rest hb hb' ih => exact hhere _
  | case4 b hb hb' => exact List.infix_refl _
  | case5 b hb hb' c rest hc ih => exact hhere _
  | case6 b hb hb' c rest hc htwo ih =>
      exact List.infix_cons (List.infix_cons (ih fun heq => h (by rw [heq])))
  | case7 b hb hb' c hc htwo => exact List.infix_refl _
  | case8 b hb hb' c hc htwo d rest hd ih => exact hhere _
  | case9 b hb hb' c hc htwo d rest hd hthree ih =>
      exact List.infix_cons (List.infix_cons (List.infix_cons (ih fun heq => h (by rw [heq]))))
  | case10 b hb hb' c hc htwo d hd hthree => exact List.infix_refl _
  | case11 b hb hb' c hc htwo d hd hthree e rest he ih => exact hhere _
  | case12 b hb hb' c hc htwo d hd hthree e rest he ih =>
      exact List.infix_cons (List.infix_cons (List.infix_cons (List.infix_cons
        (ih fun heq => h (by rw [heq])))))

theorem Sole.eq {t u : Text} (h : Sole t) (hu : from_utf8_lossy u = t) : u = t := by
  by_contra hne
  refine h.2 ?_
  rw [← hu]
  exact replacement_of_ne fun heq => hne (heq.symm.trans hu)

/-- The first byte of a replacement character is inside no character. -/
theorem infix_of_not_lead {b : UInt8} {t : Bytes} (hb : b ≠ 0xEF) (h : replacement <:+: b :: t) :
    replacement <:+: t := by
  rcases List.infix_cons_iff.mp h with hpre | hin
  · rw [replacement, List.cons_prefix_cons] at hpre
    exact absurd hpre.1.symm hb
  · exact hin

theorem not_lead_of_isCont {b : UInt8} (h : isCont b) : b ≠ 0xEF := by
  rintro rfl
  revert h
  decide

theorem not_lead_of_isSecond {b c : UInt8} (h : isSecond b c) : c ≠ 0xEF := by
  rintro rfl
  revert h
  unfold isSecond
  split_ifs <;> decide

theorem lossy_ff (t : Bytes) : from_utf8_lossy (0xFF :: t) = replacement ++ from_utf8_lossy t := by
  rw [from_utf8_lossy.eq_def]
  rfl

/-- A replacement character is also read from a byte that begins no character. -/
theorem exists_of_replacement {t : Bytes} (h : from_utf8_lossy t = t) (hrep : replacement <:+: t) :
    ∃ u, u ≠ t ∧ from_utf8_lossy u = t := by
  fun_induction from_utf8_lossy t with
  | case1 => exact absurd (List.infix_nil.mp hrep) (by decide)
  | case2 b rest hb ih =>
      obtain ⟨u, hne, hu⟩ := ih (List.cons.inj h).2
        (infix_of_not_lead (by rintro rfl; exact absurd hb (by decide)) hrep)
      exact ⟨b :: u, by simpa using hne, by rw [lossy_cons_ascii hb, hu]⟩
  | case6 b hb hb' c rest hc htwo ih =>
      obtain ⟨u, hne, hu⟩ := ih (List.cons.inj (List.cons.inj h).2).2
        (infix_of_not_lead (not_lead_of_isSecond (b := b) (by simpa using hc))
          (infix_of_not_lead (by rintro rfl; exact absurd htwo (by decide)) hrep))
      exact ⟨b :: c :: u, by simpa using hne, by rw [lossy_two htwo (by simpa using hc), hu]⟩
  | case9 b hb hb' c hc htwo d rest hd hthree ih =>
      have hrest : from_utf8_lossy rest = rest :=
        (List.cons.inj (List.cons.inj (List.cons.inj h).2).2).2
      rcases List.infix_cons_iff.mp hrep with hhead | hin
      · -- the character is itself the replacement
        simp only [replacement, List.cons_prefix_cons] at hhead
        obtain ⟨rfl, rfl, rfl, -⟩ := hhead
        refine ⟨0xFF :: rest, by simp, ?_⟩
        rw [lossy_ff, hrest]
        rfl
      · obtain ⟨u, hne, hu⟩ := ih hrest
          (infix_of_not_lead (not_lead_of_isCont (by simpa using hd))
            (infix_of_not_lead (not_lead_of_isSecond (b := b) (by simpa using hc)) hin))
        exact ⟨b :: c :: d :: u, by simpa using hne,
          by rw [lossy_three hthree (by simpa using hc) (by simpa using hd), hu]⟩
  | case12 b hb hb' c hc htwo d hd hthree e rest he ih =>
      have hfour : charWidth b = 4 := by
        have hle := charWidth_le b
        omega
      obtain ⟨u, hne, hu⟩ := ih
        (List.cons.inj (List.cons.inj (List.cons.inj (List.cons.inj h).2).2).2).2
        (infix_of_not_lead (not_lead_of_isCont (by simpa using he))
          (infix_of_not_lead (not_lead_of_isCont (by simpa using hd))
            (infix_of_not_lead (not_lead_of_isSecond (b := b) (by simpa using hc))
              (infix_of_not_lead (by rintro rfl; exact absurd hthree (by decide)) hrep))))
      exact ⟨b :: c :: d :: e :: u, by simpa using hne,
        by rw [lossy_four hfour (by simpa using hc) (by simpa using hd) (by simpa using he), hu]⟩
  -- what is not a character is not read as it is
  | case3 b rest hb hb' ih =>
      obtain rfl := (List.cons.inj h).1
      exact absurd hb' (by decide)
  | case4 b hb hb' => exact absurd (congrArg List.length h) (by simp [replacement])
  | case5 b hb hb' c rest hc ih =>
      obtain rfl := (List.cons.inj h).1
      obtain rfl := (List.cons.inj (List.cons.inj h).2).1
      exact absurd hc (by decide)
  | case7 b hb hb' c hc htwo => exact absurd (congrArg List.length h) (by simp [replacement])
  | case8 b hb hb' c hc htwo d rest hd ih =>
      obtain rfl := (List.cons.inj (List.cons.inj (List.cons.inj h).2).2).1
      exact absurd hd (by decide)
  | case10 b hb hb' c hc htwo d hd hthree =>
      obtain rfl := (List.cons.inj h).1
      exact absurd rfl hthree
  | case11 b hb hb' c hc htwo d hd hthree e rest he ih =>
      obtain rfl := (List.cons.inj h).1
      exact absurd rfl hthree

theorem exists_other {t : Text} (h : ¬ Sole t) :
    ∃ u, u ≠ t ∧ from_utf8_lossy u = from_utf8_lossy t := by
  by_cases heq : from_utf8_lossy t = t
  · obtain ⟨u, hne, hu⟩ := exists_of_replacement heq (by
      by_contra hrep
      exact h ⟨heq, hrep⟩)
    exact ⟨u, hne, hu.trans heq.symm⟩
  · exact ⟨from_utf8_lossy t, heq, lossy_lossy t⟩

end Text
end StrikeDB
