import StrikeDB.JsonParser

/-!
# StrikeDB: the numbers of the payload parser

`number` takes a sign and then everything that is a digit, a point or an `e`, and leaves the
rest to `parse::<f64>`.  The scan stops at the sign of an exponent, which the grammar of JSON
allows, and the standard library takes numbers that the grammar does not allow.

**Results.**
* `Number.bytes_inj`, `Number.bytes_append_inj`: a number is written in one way only.
* `readsNumbers`: the numbers that `number` takes are those of `taken`.
* `Number.taken_iff`: how they differ from the numbers of the grammar.
-/

namespace StrikeDB
namespace Payload

open Text (isDigit digit)

/-! ## Written numbers -/

/-- The digits that a text starts with. -/
def scanDigits : Bytes → Digits × Bytes
  | [] => ([], [])
  | c :: cs =>
      if isDigit c then (digitOf c :: (scanDigits cs).1, (scanDigits cs).2)
      else ([], c :: cs)

def scanSign : Bytes → Option Sign × Bytes
  | [] => (none, [])
  | c :: cs =>
      if c = 0x2B then (some .plus, cs)
      else if c = 0x2D then (some .minus, cs)
      else (none, c :: cs)

def scanFrac : Bytes → Option Digits × Bytes
  | [] => (none, [])
  | c :: cs =>
      if c = 0x2E then (some (scanDigits cs).1, (scanDigits cs).2) else (none, c :: cs)

def scanExp : Bytes → Option Exponent × Bytes
  | [] => (none, [])
  | c :: cs =>
      if c = 0x65 ∨ c = 0x45 then
        let (sign, cs) := scanSign cs
        let (digits, cs) := scanDigits cs
        (some { upper := c = 0x45, sign := sign, digits := digits }, cs)
      else (none, c :: cs)

/-- The parts of a text that is a number and no more. -/
def scan (txt : Bytes) : Option Number :=
  let (sign, cs) := scanSign txt
  let (int, cs) := scanDigits cs
  let (frac, cs) := scanFrac cs
  let (exp, cs) := scanExp cs
  if cs = [] then some { sign := sign, int := int, frac := frac, exp := exp } else none

theorem isDigit_digit (d : Fin 10) : isDigit (digit d.val) = true := by
  revert d
  decide

theorem digit_ne_sign (d : Fin 10) : digit d.val ≠ 0x2B ∧ digit d.val ≠ 0x2D := by
  revert d
  decide

theorem digitOf_digit (d : Fin 10) : digitOf (digit d.val) = d := by
  revert d
  decide

theorem digit_digitOf {c : UInt8} (hc : isDigit c = true) : digit (digitOf c).val = c := by
  simp only [isDigit, Bool.and_eq_true, decide_eq_true_eq, UInt8.le_iff_toNat_le] at hc
  have hlo : 48 ≤ c.toNat := hc.1
  have hhi : c.toNat ≤ 57 := hc.2
  have hval : (digitOf c).val = c.toNat - 48 := Nat.mod_eq_of_lt (by omega)
  rw [hval, digit, show 48 + (c.toNat - 48) = c.toNat by omega, UInt8.ofNat_toNat]

theorem scanDigits_sound (txt : Bytes) :
    digitBytes (scanDigits txt).1 ++ (scanDigits txt).2 = txt := by
  induction txt with
  | nil => rfl
  | cons c cs ih =>
      rw [scanDigits]
      split_ifs with hc
      · rw [digitBytes, List.map_cons, digit_digitOf hc]
        exact congrArg (c :: ·) ih
      · rfl

theorem scanDigits_complete (ds : Digits) (rest : Bytes)
    (hrest : ∀ c ∈ rest.head?, isDigit c = false) :
    scanDigits (digitBytes ds ++ rest) = (ds, rest) := by
  induction ds with
  | nil =>
      cases rest with
      | nil => rfl
      | cons c cs =>
          have hc := hrest c rfl
          change scanDigits (c :: cs) = _
          rw [scanDigits, if_neg (by rw [hc]; exact Bool.false_ne_true)]
  | cons d ds ih =>
      change scanDigits (digit d.val :: (digitBytes ds ++ rest)) = _
      rw [scanDigits, if_pos (isDigit_digit d), ih, digitOf_digit]

theorem scanSign_sound (txt : Bytes) :
    signBytes (scanSign txt).1 ++ (scanSign txt).2 = txt := by
  cases txt with
  | nil => rfl
  | cons c cs =>
      rw [scanSign]
      split_ifs with hplus hminus
      · subst hplus
        rfl
      · subst hminus
        rfl
      · rfl

theorem scanSign_complete (s : Option Sign) {rest : Bytes}
    (hrest : ∀ c ∈ rest.head?, c ≠ 0x2B ∧ c ≠ 0x2D) :
    scanSign (signBytes s ++ rest) = (s, rest) := by
  cases s with
  | none =>
      cases rest with
      | nil => rfl
      | cons c cs =>
          obtain ⟨hplus, hminus⟩ := hrest c rfl
          change scanSign (c :: cs) = _
          rw [scanSign, if_neg hplus, if_neg hminus]
  | some s => cases s <;> rfl

theorem scanFrac_sound (txt : Bytes) :
    Number.fracBytes (scanFrac txt).1 ++ (scanFrac txt).2 = txt := by
  cases txt with
  | nil => rfl
  | cons c cs =>
      rw [scanFrac]
      split_ifs with hc
      · subst hc
        exact congrArg (0x2E :: ·) (scanDigits_sound cs)
      · rfl

theorem scanFrac_complete (frac : Option Digits) {rest : Bytes}
    (hrest : ∀ c ∈ rest.head?, isDigit c = false ∧ c ≠ 0x2E) :
    scanFrac (Number.fracBytes frac ++ rest) = (frac, rest) := by
  cases frac with
  | none =>
      cases rest with
      | nil => rfl
      | cons c cs =>
          change scanFrac (c :: cs) = _
          rw [scanFrac, if_neg (hrest c rfl).2]
  | some ds =>
      change scanFrac (0x2E :: (digitBytes ds ++ rest)) = _
      rw [scanFrac, if_pos rfl, scanDigits_complete ds _ fun c hc => (hrest c hc).1]

theorem scanExp_sound (txt : Bytes) :
    Number.expBytes (scanExp txt).1 ++ (scanExp txt).2 = txt := by
  cases txt with
  | nil => rfl
  | cons c cs =>
      rw [scanExp]
      split_ifs with hc
      · have hletter : (if c = 0x45 then (0x45 : UInt8) else 0x65) = c := by
          rcases hc with rfl | rfl <;> rfl
        simp only [Number.expBytes, Exponent.bytes, decide_eq_true_eq, hletter, List.cons_append,
          List.append_assoc, scanDigits_sound, scanSign_sound]
      · rfl

theorem scanExp_complete (exp : Option Exponent) :
    scanExp (Number.expBytes exp) = (exp, []) := by
  cases exp with
  | none => rfl
  | some e =>
      obtain ⟨upper, sign, digits⟩ := e
      have hdigits : scanDigits (digitBytes digits) = (digits, []) := by
        have h := scanDigits_complete digits [] nofun
        rwa [List.append_nil] at h
      have hsign : scanSign (signBytes sign ++ digitBytes digits) = (sign, digitBytes digits) := by
        refine scanSign_complete sign fun c hc => ?_
        obtain ⟨d, -, rfl⟩ := List.mem_map.mp (List.mem_of_mem_head? hc)
        exact digit_ne_sign d
      simp only [Number.expBytes, Exponent.bytes, scanExp]
      cases upper with
      | true => simp [hsign, hdigits]
      | false => simp [hsign, hdigits]

theorem scan_sound {txt : Bytes} {n : Number} (h : scan txt = some n) : n.bytes = txt := by
  unfold scan at h
  dsimp only at h
  split_ifs at h with hend
  cases h
  have hexp := scanExp_sound (scanFrac (scanDigits (scanSign txt).2).2).2
  rw [hend, List.append_nil] at hexp
  unfold Number.bytes
  rw [hexp, scanFrac_sound, scanDigits_sound, scanSign_sound]

namespace Number

/-- What stands behind the sign of a number. -/
def body (n : Number) : Bytes := digitBytes n.int ++ (fracBytes n.frac ++ expBytes n.exp)

theorem exp_head (exp : Option Exponent) : ∀ c ∈ (expBytes exp).head?, c = 0x65 ∨ c = 0x45 := by
  intro c hc
  cases exp with
  | none => cases hc
  | some e =>
      cases hc
      cases e.upper with
      | true => exact Or.inr rfl
      | false => exact Or.inl rfl

theorem frac_head (frac : Option Digits) (exp : Option Exponent) :
    ∀ c ∈ (fracBytes frac ++ expBytes exp).head?, c = 0x2E ∨ c = 0x65 ∨ c = 0x45 := by
  intro c hc
  cases frac with
  | none => exact Or.inr (exp_head exp c hc)
  | some ds =>
      cases hc
      exact Or.inl rfl

theorem body_head (n : Number) : ∀ c ∈ n.body.head?, c ≠ 0x2B ∧ c ≠ 0x2D := by
  intro c hc
  obtain ⟨sign, int, frac, exp⟩ := n
  cases int with
  | nil => rcases frac_head frac exp c hc with rfl | rfl | rfl <;> decide
  | cons d ds =>
      cases hc
      exact digit_ne_sign d

end Number

theorem scan_bytes (n : Number) : scan n.bytes = some n := by
  obtain ⟨sign, int, frac, exp⟩ := n
  have hsign := scanSign_complete sign (Number.body_head ⟨sign, int, frac, exp⟩)
  have hint : scanDigits (digitBytes int ++ (Number.fracBytes frac ++ Number.expBytes exp)) =
      (int, Number.fracBytes frac ++ Number.expBytes exp) := by
    refine scanDigits_complete int _ fun c hc => ?_
    rcases Number.frac_head frac exp c hc with rfl | rfl | rfl <;> rfl
  have hfrac : scanFrac (Number.fracBytes frac ++ Number.expBytes exp) =
      (frac, Number.expBytes exp) := by
    refine scanFrac_complete frac fun c hc => ?_
    rcases Number.exp_head exp c hc with rfl | rfl <;> decide
  unfold Number.body at hsign
  unfold scan Number.bytes
  dsimp only
  rw [hsign]
  dsimp only
  rw [hint]
  dsimp only
  rw [hfrac, scanExp_complete]
  rfl

namespace Number

/-- A number is written in one way only. -/
theorem bytes_inj {n m : Number} (h : n.bytes = m.bytes) : n = m := by
  have hn := scan_bytes n
  rw [h, scan_bytes] at hn
  exact (Option.some.inj hn).symm

theorem takeWhile_bytes (n : Number) {rest : Bytes} (hrest : Stops rest) :
    (n.bytes ++ rest).takeWhile isNumberByte = n.bytes := by
  rw [List.takeWhile_append_of_pos fun c hc => bytes_number hc]
  cases rest with
  | nil => exact List.append_nil _
  | cons c cs =>
      rw [List.takeWhile_cons_of_neg (by rw [hrest c rfl]; exact Bool.false_ne_true),
        List.append_nil]

theorem bytes_append_inj {n m : Number} {r r' : Bytes} (h : n.bytes ++ r = m.bytes ++ r')
    (hr : Stops r) (hr' : Stops r') : n = m ∧ r = r' := by
  have hbytes : n.bytes = m.bytes := by
    rw [← takeWhile_bytes n hr, h, takeWhile_bytes m hr']
  rw [hbytes] at h
  exact ⟨bytes_inj hbytes, List.append_cancel_left h⟩

end Number

/-! ## `number` -/

namespace Number

/-- Does `parse::<f64>` take the number?  A sign and zeros may stand in front, and digits are
asked for on one side of the point only. -/
def IsFloat (n : Number) : Prop :=
  (n.int ≠ [] ∨ n.frac.getD [] ≠ []) ∧ n.exp.all (·.digits ≠ []) = true

instance (n : Number) : Decidable n.IsFloat := inferInstanceAs (Decidable (_ ∧ _))

/-- The exponent has a sign. -/
def SignedExponent (n : Number) : Prop := n.exp.any (·.sign.isSome) = true

instance (n : Number) : Decidable n.SignedExponent := inferInstanceAs (Decidable (_ = _))

end Number

section Reader

variable {F α : Type} (round : Bool → ℚ → F) (num : F → α)

/-- `str::parse::<f64>` of a text of digits, signs, points and the letter of an exponent.
`round` makes a float of a sign and a decimal. -/
def parse_f64 (txt : Bytes) : Option F :=
  (scan txt).bind fun n => if n.IsFloat then some (round n.negative n.decimal) else none

/-- Behind the sign. -/
def isNumeral (c : UInt8) : Bool := isDigit c || c = 0x2E || c = 0x65 || c = 0x45

/-- The text that `number` stops behind. -/
def numberText : Bytes → Bytes
  | [] => []
  | c :: cs =>
      if c = 0x2D ∨ c = 0x2B then c :: cs.takeWhile isNumeral else (c :: cs).takeWhile isNumeral

/-- `number`, with `Json::Num` as `num`. -/
def number (p : P) : Except String (α × P) :=
  let txt := numberText p.rest
  let shown := String.ofList (txt.map fun c => Char.ofNat c.toNat)
  if Text.from_utf8_lossy txt ≠ txt then .error "bad num"
  else
    match parse_f64 round txt with
    | some x => .ok (num x, { i := p.i + txt.length, rest := p.rest.drop txt.length })
    | none => .error s!"bad number \"{shown}\""

/-- The numbers that `number` takes. -/
def Number.taken (n : Number) : Option F :=
  if n.IsFloat ∧ ¬ n.SignedExponent then some (round n.negative n.decimal) else none

end Reader

namespace Number

theorem isNumeral_of_digits {ds : Digits} {c : UInt8} (hc : c ∈ digitBytes ds) :
    isNumeral c = true := by
  obtain ⟨d, -, rfl⟩ := List.mem_map.mp hc
  exact (congrArg (· || _ || _ || _) (isDigit_digit d)).trans (by rfl)

/-- The sign of an exponent is the only byte behind the first that the scan stops at. -/
theorem body_numeral (n : Number) :
    (∀ c ∈ n.body, isNumeral c = true) ↔ ¬ n.SignedExponent := by
  obtain ⟨sign, int, frac, exp⟩ := n
  constructor
  · intro h hsigned
    cases exp with
    | none => cases hsigned
    | some e =>
        obtain ⟨upper, esign, digits⟩ := e
        cases esign with
        | none => cases hsigned
        | some s =>
            have hs := h s.byte (by simp [body, expBytes, Exponent.bytes, signBytes])
            cases s <;> cases hs
  · intro hsigned c hc
    simp only [body, List.mem_append] at hc
    rcases hc with hc | hc | hc
    · exact isNumeral_of_digits hc
    · cases frac with
      | none => cases hc
      | some ds =>
          rcases List.mem_cons.mp hc with rfl | hc
          · rfl
          · exact isNumeral_of_digits hc
    · cases exp with
      | none => cases hc
      | some e =>
          obtain ⟨upper, esign, digits⟩ := e
          cases esign with
          | some s => exact absurd rfl hsigned
          | none =>
              rcases List.mem_cons.mp hc with rfl | hc
              · cases upper <;> rfl
              · exact isNumeral_of_digits hc

end Number

theorem isNumberByte_of_numeral {c : UInt8} (hc : isNumeral c = true) : isNumberByte c = true := by
  simp only [isNumeral, isNumberByte, Bool.or_eq_true, decide_eq_true_eq] at hc ⊢
  tauto

theorem takeWhile_numeral {body rest : Bytes} (hbody : ∀ c ∈ body, isNumeral c = true)
    (hrest : Stops rest) : (body ++ rest).takeWhile isNumeral = body := by
  rw [List.takeWhile_append_of_pos hbody]
  cases rest with
  | nil => exact List.append_nil _
  | cons c cs =>
      have hc : isNumeral c ≠ true := fun h => by
        have := hrest c rfl
        rw [isNumberByte_of_numeral h] at this
        cases this
      rw [List.takeWhile_cons_of_neg hc, List.append_nil]

theorem numberText_bytes {n : Number} {rest : Bytes} (hne : n.bytes ≠ [])
    (hsigned : ¬ n.SignedExponent) (hrest : Stops rest) :
    numberText (n.bytes ++ rest) = n.bytes := by
  have hbody := n.body_numeral.mpr hsigned
  have htake := takeWhile_numeral hbody hrest
  have hbytes : n.bytes = signBytes n.sign ++ n.body := rfl
  rw [hbytes]
  cases hsign : n.sign with
  | some s =>
      change numberText (s.byte :: (n.body ++ rest)) = s.byte :: n.body
      rw [numberText, htake, if_pos (by cases s <;> decide)]
  | none =>
      rw [hbytes, hsign] at hne
      obtain ⟨c, cs, hc⟩ := List.exists_cons_of_ne_nil (show n.body ≠ [] from hne)
      change numberText (n.body ++ rest) = n.body
      rw [hc] at htake hbody ⊢
      change (numberText (c :: (cs ++ rest))) = _
      rw [numberText, if_neg, ← htake]
      · rfl
      · have hnum := hbody c List.mem_cons_self
        rintro (rfl | rfl) <;> cases hnum

theorem numberText_begins (rest : Bytes) : numberText rest <+: rest := by
  cases rest with
  | nil => exact List.prefix_refl _
  | cons c cs =>
      rw [numberText]
      split_ifs
      · exact List.cons_prefix_cons.mpr ⟨rfl, List.takeWhile_prefix _⟩
      · exact List.takeWhile_prefix _

/-- Behind a text that the scan has taken stands no sign. -/
theorem not_signed_of_text {n : Number} {rest : Bytes} (h : numberText rest = n.bytes) :
    ¬ n.SignedExponent := by
  rw [← n.body_numeral]
  intro c hc
  have hbytes : n.bytes = signBytes n.sign ++ n.body := rfl
  cases rest with
  | nil =>
      rw [hbytes] at h
      exact absurd (List.append_eq_nil_iff.mp h.symm).2 (List.ne_nil_of_mem hc)
  | cons b cs =>
      rw [numberText, hbytes] at h
      split_ifs at h with hb
      · cases hsign : n.sign with
        | none =>
            -- a number without a sign does not start with one
            rw [hsign] at h
            have hhead := n.body_head b (by
              have hbody : b :: cs.takeWhile isNumeral = n.body := h
              rw [← hbody]
              rfl)
            rcases hb with rfl | rfl
            · exact absurd rfl hhead.2
            · exact absurd rfl hhead.1
        | some s =>
            rw [hsign] at h
            have htail : cs.takeWhile isNumeral = n.body := (List.cons.inj h).2
            rw [← htail] at hc
            exact List.mem_takeWhile_imp hc
      · refine List.mem_takeWhile_imp (p := isNumeral) (l := b :: cs) ?_
        rw [h]
        exact List.mem_append_right _ hc

theorem ascii_of_number {c : UInt8} (hc : isNumberByte c = true) : c < 0x80 := by
  simp only [isNumberByte, isDigit, Bool.or_eq_true, Bool.and_eq_true, decide_eq_true_eq] at hc
  rcases hc with ((((⟨-, hc⟩ | rfl) | rfl) | rfl) | rfl) | rfl
  · exact UInt8.lt_of_le_of_lt hc (by decide)
  all_goals decide

section Reader

variable {F α : Type} (round : Bool → ℚ → F) (num : F → α)

theorem Number.taken_eq_some {n : Number} {x : F} :
    n.taken round = some x ↔
      (n.IsFloat ∧ ¬ n.SignedExponent) ∧ round n.negative n.decimal = x := by
  unfold Number.taken
  split_ifs with h
  · simp [h]
  · simp [h]

theorem number_sound {p p' : P} {a : α} (h : number round num p = .ok (a, p')) :
    ∃ n : Number, n.bytes ≠ [] ∧ p.rest = n.bytes ++ p'.rest ∧
      (n.taken round).map num = some a := by
  unfold number at h
  dsimp only at h
  split_ifs at h with hvalid
  cases hparse : parse_f64 round (numberText p.rest) with
  | none =>
      rw [hparse] at h
      cases h
  | some x =>
      rw [hparse] at h
      cases h
      unfold parse_f64 at hparse
      obtain ⟨n, hscan, hn⟩ := Option.bind_eq_some_iff.mp hparse
      split_ifs at hn with hfloat
      cases hn
      have htext := scan_sound hscan
      refine ⟨n, ?_, ?_, ?_⟩
      · intro hnil
        obtain rfl : n = ⟨none, [], none, none⟩ := Number.bytes_inj hnil
        exact absurd hfloat (by decide)
      · dsimp only
        rw [htext]
        exact (List.prefix_iff_eq_append.mp (numberText_begins p.rest)).symm
      · rw [(Number.taken_eq_some round).mpr ⟨⟨hfloat, not_signed_of_text htext.symm⟩, rfl⟩]
        rfl

theorem number_complete {n : Number} {a : α} {i : Nat} {rest : Bytes} (hne : n.bytes ≠ [])
    (ha : (n.taken round).map num = some a) (hrest : Stops rest) :
    number round num { i := i, rest := n.bytes ++ rest } =
      .ok (a, { i := i + n.bytes.length, rest := rest }) := by
  obtain ⟨x, hx, rfl⟩ := Option.map_eq_some_iff.mp ha
  obtain ⟨⟨hfloat, hsigned⟩, rfl⟩ := (Number.taken_eq_some round).mp hx
  have htext := numberText_bytes hne hsigned hrest
  have hascii : Text.from_utf8_lossy n.bytes = n.bytes :=
    Text.lossy_of_ascii fun c hc => ascii_of_number (Number.bytes_number hc)
  have hparse : parse_f64 round n.bytes = some (round n.negative n.decimal) := by
    unfold parse_f64
    rw [scan_bytes]
    exact if_pos hfloat
  unfold number
  dsimp only
  rw [htext, if_neg (not_not.mpr hascii), hparse]
  dsimp only
  rw [List.drop_left]

/-- The numbers that `number` takes. -/
theorem readsNumbers :
    ReadsNumbers (number round num) fun n => (n.taken round).map num where
  sound _ _ _ h := number_sound round num h
  complete _ _ _ _ hne ha hrest := ⟨_, number_complete round num hne ha hrest⟩

end Reader

/-! ## Against the grammar -/

namespace Number

theorem Rfc.isFloat {n : Number} (h : n.Rfc) : n.IsFloat := by
  obtain ⟨-, hint, -, hexp⟩ := h
  refine ⟨Or.inl ?_, hexp⟩
  rcases hint with hint | hint
  · rw [hint]
    exact List.cons_ne_nil _ _
  · rintro hnil
    rw [hnil] at hint
    cases hint

/-- A number that only `parse::<f64>` takes: a plus stands in front, or a zero in front of other
digits, or no digit stands before the point or behind it. -/
def Loose (n : Number) : Prop :=
  n.IsFloat ∧ ¬ n.SignedExponent ∧
    (n.sign = some .plus ∨ n.int = [] ∨ n.Padded ∨ n.frac = some [])

instance (n : Number) : Decidable n.Loose := inferInstanceAs (Decidable (_ ∧ _ ∧ _))

/-- A number of the grammar that the scan stops in. -/
def Strict (n : Number) : Prop := n.Rfc ∧ n.SignedExponent

instance (n : Number) : Decidable n.Strict := inferInstanceAs (Decidable (_ ∧ _))

theorem not_rfc_iff {n : Number} (h : n.IsFloat) :
    ¬ n.Rfc ↔ n.sign = some .plus ∨ n.int = [] ∨ n.Padded ∨ n.frac = some [] := by
  unfold Rfc Padded
  simp only [h.2, and_true]
  cases hint : n.int with
  | nil => simp
  | cons d ds =>
      by_cases hd : d = 0
      · subst hd
        simp
        tauto
      · simp [hd]
        tauto

/-- `number` takes the numbers of the grammar but those with a signed exponent, and a few more. -/
theorem taken_iff (n : Number) :
    n.IsFloat ∧ ¬ n.SignedExponent ↔ n.Rfc ∧ ¬ n.Strict ∨ n.Loose := by
  unfold Strict Loose
  constructor
  · rintro ⟨hfloat, hsigned⟩
    rw [← not_rfc_iff hfloat]
    tauto
  · rintro (⟨hrfc, hstrict⟩ | ⟨hfloat, hsigned, -⟩)
    · exact ⟨hrfc.isFloat, fun h => hstrict ⟨hrfc, h⟩⟩
    · exact ⟨hfloat, hsigned⟩

theorem Loose.not_rfc {n : Number} (h : n.Loose) : ¬ n.Rfc := (not_rfc_iff h.1).mpr h.2.2

end Number

end Payload
end StrikeDB
