import StrikeDB.RespParser

/-!
# StrikeDB: texts

A string of the source is its UTF-8 bytes here.  `from_utf8_lossy` puts a
replacement character in the place of every malformed part and leaves the rest
alone, so whether a text is one line (`OneLine`) depends on the bytes a client
sent and on nothing else (`oneLine_lossy`).

Integers are written in decimal; `number_intText` reads them back.
-/

namespace StrikeDB

/-- A string, as its UTF-8 bytes. -/
abbrev Text := Bytes

def utf8 (s : String) : Text := s.toUTF8.toList

namespace Text

open Resp (CR LF)

/-- The text has no line break. -/
def OneLine (t : Text) : Prop := CR ∉ t ∧ LF ∉ t

instance (t : Text) : Decidable (OneLine t) := inferInstanceAs (Decidable (_ ∧ _))

theorem oneLine_append (t u : Text) : OneLine (t ++ u) ↔ OneLine t ∧ OneLine u := by
  simp only [OneLine, List.mem_append, not_or]
  tauto

theorem oneLine_nil : OneLine [] := by decide

/-! ## from_utf8_lossy -/

/-- `utf8_char_width`: how many bytes a character with this first byte has; 0 when
no character starts so. -/
def charWidth (b : UInt8) : Nat :=
  if b < 0x80 then 1
  else if b < 0xC2 then 0
  else if b < 0xE0 then 2
  else if b < 0xF0 then 3
  else if b < 0xF5 then 4
  else 0

def isCont (b : UInt8) : Bool := 0x80 ≤ b && b < 0xC0

/-- May `c` follow the first byte `b`? -/
def isSecond (b c : UInt8) : Bool :=
  if b = 0xE0 then 0xA0 ≤ c && c < 0xC0
  else if b = 0xED then 0x80 ≤ c && c < 0xA0
  else if b = 0xF0 then 0x90 ≤ c && c < 0xC0
  else if b = 0xF4 then 0x80 ≤ c && c < 0x90
  else isCont c

/-- U+FFFD. -/
def replacement : Text := [0xEF, 0xBF, 0xBD]

/-- `String::from_utf8_lossy`.  The bytes of a character that breaks off are
replaced together. -/
def from_utf8_lossy : Bytes → Text
  | [] => []
  | b :: rest =>
      if charWidth b = 1 then b :: from_utf8_lossy rest
      else if charWidth b = 0 then replacement ++ from_utf8_lossy rest
      else
        match rest with
        | [] => replacement
        | c :: rest₁ =>
            if !isSecond b c then replacement ++ from_utf8_lossy (c :: rest₁)
            else if charWidth b = 2 then b :: c :: from_utf8_lossy rest₁
            else
              match rest₁ with
              | [] => replacement
              | d :: rest₂ =>
                  if !isCont d then replacement ++ from_utf8_lossy (d :: rest₂)
                  else if charWidth b = 3 then b :: c :: d :: from_utf8_lossy rest₂
                  else
                    match rest₂ with
                    | [] => replacement
                    | e :: rest₃ =>
                        if !isCont e then replacement ++ from_utf8_lossy (e :: rest₃)
                        else b :: c :: d :: e :: from_utf8_lossy rest₃
termination_by bs => bs.length

theorem charWidth_of_ascii {b : UInt8} (h : b < 0x80) : charWidth b = 1 := by
  rw [charWidth, if_pos h]

theorem not_ascii_of_charWidth {a b : UInt8} (ha : a < 0x80) (hb : charWidth b ≠ 1) : a ≠ b := by
  rintro rfl
  exact hb (charWidth_of_ascii ha)

theorem not_ascii_of_isCont {a c : UInt8} (ha : a < 0x80) (hc : isCont c) : a ≠ c := by
  rintro rfl
  simp only [isCont, Bool.and_eq_true, decide_eq_true_eq] at hc
  exact absurd hc.1 (by simpa using ha)

theorem not_ascii_of_isSecond {a b c : UInt8} (ha : a < 0x80) (hc : isSecond b c) : a ≠ c := by
  rintro rfl
  have hnat : a.toNat < 128 := ha
  simp only [isSecond, isCont] at hc
  split_ifs at hc <;>
    simp only [Bool.and_eq_true, decide_eq_true_eq, UInt8.le_iff_toNat_le] at hc <;>
    have := hc.1 <;> simp at this <;> omega

theorem not_mem_replacement {a : UInt8} (ha : a < 0x80) : a ∉ replacement := by
  have hnat : a.toNat < 128 := ha
  simp only [replacement, List.mem_cons, List.not_mem_nil, or_false, not_or]
  refine ⟨?_, ?_, ?_⟩ <;> (rintro rfl; revert hnat; decide)

/-- Ascii bytes come through, and no others are made. -/
theorem mem_lossy_iff {a : UInt8} (ha : a < 0x80) (bs : Bytes) :
    a ∈ from_utf8_lossy bs ↔ a ∈ bs := by
  have hrep := not_mem_replacement ha
  have hlead : ∀ b, charWidth b ≠ 1 → a ≠ b := fun b hb => not_ascii_of_charWidth ha hb
  have hsecond : ∀ b c, isSecond b c → a ≠ c := fun b c hc => not_ascii_of_isSecond ha hc
  have hcont : ∀ c, isCont c → a ≠ c := fun c hc => not_ascii_of_isCont ha hc
  fun_induction from_utf8_lossy bs with
  | case1 => simp
  | case2 b rest hone ih => simp [ih]
  | case3 b rest hone _ ih => simp [hrep, ih, hlead b hone]
  | case4 b hone _ => simp [hrep, hlead b hone]
  | case5 b hone _ c rest _ ih => simp [hrep, ih, hlead b hone]
  | case6 b hone _ c rest hc htwo ih =>
      have hne := hsecond b c (by simpa using hc)
      simp [ih, hlead b hone, hne]
  | case7 b hone _ c hc _ =>
      have hne := hsecond b c (by simpa using hc)
      simp [hrep, hlead b hone, hne]
  | case8 b hone _ c hc _ d rest _ ih =>
      have hne := hsecond b c (by simpa using hc)
      simp [hrep, ih, hlead b hone, hne]
  | case9 b hone _ c hc _ d rest hd hthree ih =>
      have hne := hsecond b c (by simpa using hc)
      have hne' := hcont d (by simpa using hd)
      simp [ih, hlead b hone, hne, hne']
  | case10 b hone _ c hc _ d hd _ =>
      have hne := hsecond b c (by simpa using hc)
      have hne' := hcont d (by simpa using hd)
      simp [hrep, hlead b hone, hne, hne']
  | case11 b hone _ c hc _ d hd _ e rest _ ih =>
      have hne := hsecond b c (by simpa using hc)
      have hne' := hcont d (by simpa using hd)
      simp [hrep, ih, hlead b hone, hne, hne']
  | case12 b hone _ c hc _ d hd _ e rest he ih =>
      have hne := hsecond b c (by simpa using hc)
      have hne' := hcont d (by simpa using hd)
      have hne'' := hcont e (by simpa using he)
      simp [ih, hlead b hone, hne, hne', hne'']

theorem oneLine_lossy (bs : Bytes) : OneLine (from_utf8_lossy bs) ↔ OneLine bs := by
  simp only [OneLine, mem_lossy_iff (show CR < 0x80 by decide) bs,
    mem_lossy_iff (show LF < 0x80 by decide) bs]

/-- Ascii is left alone. -/
theorem lossy_of_ascii {bs : Bytes} (h : ∀ b ∈ bs, b < 0x80) : from_utf8_lossy bs = bs := by
  induction bs with
  | nil => rw [from_utf8_lossy]
  | cons b bs ih =>
      rw [List.forall_mem_cons] at h
      rw [from_utf8_lossy.eq_def]
      simp only [charWidth_of_ascii h.1, if_true, ih h.2]

theorem lossy_cons_ascii {b : UInt8} (h : charWidth b = 1) (t : Bytes) :
    from_utf8_lossy (b :: t) = b :: from_utf8_lossy t := by
  rw [from_utf8_lossy.eq_def]
  simp only [h, if_true]

theorem lossy_two {b c : UInt8} (hb : charWidth b = 2) (hc : isSecond b c) (t : Bytes) :
    from_utf8_lossy (b :: c :: t) = b :: c :: from_utf8_lossy t := by
  rw [from_utf8_lossy.eq_def]
  simp [hb, hc]

theorem lossy_three
    {b c d : UInt8} (hb : charWidth b = 3) (hc : isSecond b c) (hd : isCont d) (t : Bytes) :
    from_utf8_lossy (b :: c :: d :: t) = b :: c :: d :: from_utf8_lossy t := by
  rw [from_utf8_lossy.eq_def]
  simp [hb, hc, hd]

theorem lossy_replacement (t : Bytes) :
    from_utf8_lossy (replacement ++ t) = replacement ++ from_utf8_lossy t :=
  lossy_three (by decide) (by decide) (by decide) t

/-- The four ways in which a character may be longer than three bytes. -/
theorem charWidth_le (b : UInt8) : charWidth b ≤ 4 := by
  unfold charWidth
  split_ifs <;> omega

theorem lossy_four
    {b c d e : UInt8} (hb : charWidth b = 4) (hc : isSecond b c) (hd : isCont d) (he : isCont e)
    (t : Bytes) :
    from_utf8_lossy (b :: c :: d :: e :: t) = b :: c :: d :: e :: from_utf8_lossy t := by
  rw [from_utf8_lossy.eq_def]
  simp [hb, hc, hd, he]

/-- What `from_utf8_lossy` returns, it leaves alone. -/
theorem lossy_lossy (bs : Bytes) : from_utf8_lossy (from_utf8_lossy bs) = from_utf8_lossy bs := by
  have hnil : from_utf8_lossy replacement = replacement := by
    have h := lossy_replacement []
    rwa [List.append_nil, from_utf8_lossy, List.append_nil] at h
  fun_induction from_utf8_lossy bs with
  | case1 => rw [from_utf8_lossy]
  | case2 b rest hone ih => rw [lossy_cons_ascii hone, ih]
  | case3 b rest _ _ ih => rw [lossy_replacement, ih]
  | case4 b _ _ => exact hnil
  | case5 b _ _ c rest _ ih => rw [lossy_replacement, ih]
  | case6 b _ _ c rest hc htwo ih => rw [lossy_two htwo (by simpa using hc), ih]
  | case7 b _ _ c _ _ => exact hnil
  | case8 b _ _ c _ _ d rest _ ih => rw [lossy_replacement, ih]
  | case9 b _ _ c hc _ d rest hd hthree ih =>
      rw [lossy_three hthree (by simpa using hc) (by simpa using hd), ih]
  | case10 b _ _ c _ _ d _ _ => exact hnil
  | case11 b _ _ c _ _ d _ _ e rest _ ih => rw [lossy_replacement, ih]
  | case12 b hone hzero c hc htwo d hd hthree e rest he ih =>
      have hfour : charWidth b = 4 := by
        have hle := charWidth_le b
        omega
      rw [lossy_four hfour (by simpa using hc) (by simpa using hd) (by simpa using he), ih]

/-- `to_ascii_uppercase`. -/
def to_ascii_uppercase (t : Text) : Text := t.map fun b => if 97 ≤ b ∧ b ≤ 122 then b - 32 else b

/-! ## Decimals -/

def digit (n : Nat) : UInt8 := UInt8.ofNat (48 + n)

/-- `u64::to_string`. -/
def natText (n : Nat) : Text :=
  if n = 0 then [digit 0] else ((Nat.digits 10 n).map digit).reverse

def MINUS : UInt8 := 45

/-- `i64::to_string`. -/
def intText (i : Int) : Text :=
  if i < 0 then MINUS :: natText i.natAbs else natText i.natAbs

def isDigit (b : UInt8) : Bool := 48 ≤ b && b ≤ 57

def numberNat (t : Text) : Option Nat :=
  if t = [] ∨ ¬ t.all isDigit then none
  else some (Nat.ofDigits 10 (t.reverse.map fun b => b.toNat - 48))

/-- A intText number. -/
def number : Text → Option Int
  | b :: t => if b = MINUS then (numberNat t).map fun n => -(n : Int)
      else (numberNat (b :: t)).map fun n => (n : Int)
  | [] => none

theorem isDigit_digit {n : Nat} (h : n < 10) : isDigit (digit n) := by
  interval_cases n <;> decide

theorem digit_toNat {n : Nat} (h : n < 10) : (digit n).toNat - 48 = n := by
  interval_cases n <;> decide

theorem isDigit_natText {n : Nat} {b : UInt8} (h : b ∈ natText n) : isDigit b := by
  unfold natText at h
  split at h
  · rw [List.mem_singleton] at h
    rw [h]
    decide
  · rw [List.mem_reverse, List.mem_map] at h
    obtain ⟨d, hd, rfl⟩ := h
    exact isDigit_digit (Nat.digits_lt_base (by decide) hd)

theorem natText_ne_nil (n : Nat) : natText n ≠ [] := by
  unfold natText
  split
  · simp
  · next hn => simp [Nat.digits_eq_nil_iff_eq_zero, hn]

theorem numberNat_natText (n : Nat) : numberNat (natText n) = some n := by
  have hall : (natText n).all isDigit := by
    rw [List.all_eq_true]
    exact fun b hb => isDigit_natText hb
  rw [numberNat, if_neg (by simp [natText_ne_nil, hall])]
  by_cases hn : n = 0
  · subst hn
    decide
  · have hback : ((Nat.digits 10 n).map digit).map (fun b => b.toNat - 48) = Nat.digits 10 n := by
      rw [List.map_map]
      conv_rhs => rw [← List.map_id (Nat.digits 10 n)]
      refine List.map_congr_left ?_
      intro d hd
      exact digit_toNat (Nat.digits_lt_base (by decide) hd)
    rw [natText, if_neg hn, List.reverse_reverse, hback, Nat.ofDigits_digits]

theorem foldl_natText (n : Nat) :
    (natText n).foldl (fun n b => 10 * n + (b.toNat - 48)) 0 = n := by
  have hread := numberNat_natText n
  have hall : (natText n).all isDigit = true := by
    rw [List.all_eq_true]
    exact fun b hb => isDigit_natText hb
  rw [numberNat, if_neg (by simp [natText_ne_nil, hall]), Option.some.injEq,
    Nat.ofDigits_eq_foldr, List.foldr_map, ← List.foldl_reverse, List.reverse_reverse] at hread
  refine Eq.trans ?_ hread
  congr 1
  funext m b
  exact Nat.add_comm _ _

theorem intText_natCast (n : Nat) : intText (n : Int) = natText n := by
  unfold intText
  rw [if_neg (by omega), Int.natAbs_natCast]

/-- Decimals are read back. -/
theorem number_intText (i : Int) : number (intText i) = some i := by
  by_cases hneg : i < 0
  · have habs : -(i.natAbs : Int) = i := by omega
    rw [intText, if_pos hneg, number, if_pos rfl, numberNat_natText]
    exact congrArg some habs
  · rw [intText, if_neg hneg]
    cases hdec : natText i.natAbs with
    | nil => exact absurd hdec (natText_ne_nil _)
    | cons b t =>
        have hb : isDigit b := isDigit_natText (n := i.natAbs) (by simp [hdec])
        have hne : b ≠ MINUS := by
          rintro rfl
          exact absurd hb (by decide)
        have habs : (i.natAbs : Int) = i := by omega
        rw [number, if_neg hne, ← hdec, numberNat_natText]
        exact congrArg some habs

theorem oneLine_intText (i : Int) : OneLine (intText i) := by
  have hdigits : ∀ n, OneLine (natText n) := by
    intro n
    constructor
    · exact fun h => absurd (isDigit_natText h) (by decide)
    · exact fun h => absurd (isDigit_natText h) (by decide)
  unfold intText
  split
  · obtain ⟨hcr, hlf⟩ := hdigits i.natAbs
    constructor
    · rw [List.mem_cons, not_or]
      exact ⟨by decide, hcr⟩
    · rw [List.mem_cons, not_or]
      exact ⟨by decide, hlf⟩
  · exact hdigits _

end Text
end StrikeDB
