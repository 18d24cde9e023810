import StrikeDB.JsonParser

/-!
# StrikeDB: the strings of the payload parser

`string` collects the bytes of a string: the byte itself, what one of three escapes stands for,
the character of a `\u`, and behind any other backslash the byte that follows it.  What it has
collected must be UTF-8.

**Results.**
* `SpellsString.append_inj`: a string is written in one way only.
* `readsStrings`: the strings that `string` takes are those of `taken`.
* `valid_iff`: a string of the grammar is UTF-8 where what is collected is.
* `taken_isSome`: how these strings differ from those of the grammar.
-/

namespace StrikeDB
namespace Payload

open Text (Valid)

/-! ## Written strings -/

namespace Item

/-- A string can be read from the left. -/
theorem append_inj {it it' : Item} {r r' : Bytes} (hit : it.Proper) (hit' : it'.Proper)
    (h : it.bytes ++ r = it'.bytes ++ r') : it = it' ∧ r = r' := by
  cases it with
  | raw c =>
      cases it' with
      | raw c' =>
          obtain ⟨rfl, hr⟩ := List.cons.inj (show c :: r = c' :: r' from h)
          exact ⟨rfl, hr⟩
      | esc e => exact absurd (List.cons.inj (show c :: r = BACKSLASH :: _ from h)).1 hit.2
      | uni a b c' d => exact absurd (List.cons.inj (show c :: r = BACKSLASH :: _ from h)).1 hit.2
  | esc e =>
      cases it' with
      | raw c' => exact absurd (List.cons.inj (show BACKSLASH :: _ = c' :: r' from h)).1.symm hit'.2
      | esc e' =>
          simp only [bytes, List.cons_append, List.nil_append, List.cons.injEq, true_and] at h
          obtain ⟨rfl, hr⟩ := h
          exact ⟨rfl, hr⟩
      | uni a b c' d =>
          simp only [bytes, List.cons_append, List.cons.injEq, true_and] at h
          exact absurd h.1 hit
  | uni a b c d =>
      cases it' with
      | raw c' => exact absurd (List.cons.inj (show BACKSLASH :: _ = c' :: r' from h)).1.symm hit'.2
      | esc e' =>
          simp only [bytes, List.cons_append, List.cons.injEq, true_and] at h
          exact absurd h.1.symm hit'
      | uni a' b' c' d' =>
          simp only [bytes, List.cons_append, List.nil_append, List.cons.injEq, true_and] at h
          obtain ⟨rfl, rfl, rfl, rfl, hr⟩ := h
          exact ⟨rfl, hr⟩

theorem bytes_ne_quote {it : Item} (hit : it.Proper) {r r' : Bytes} :
    it.bytes ++ r ≠ QUOTE :: r' := by
  intro h
  cases it with
  | raw c => exact hit.1 (List.cons.inj (show c :: r = QUOTE :: r' from h)).1
  | esc e => exact absurd (List.cons.inj (show BACKSLASH :: _ = QUOTE :: r' from h)).1 (by decide)
  | uni a b c d =>
      exact absurd (List.cons.inj (show BACKSLASH :: _ = QUOTE :: r' from h)).1 (by decide)

end Item

theorem itemBytes_cons (it : Item) (s : List Item) :
    itemBytes (it :: s) = it.bytes ++ itemBytes s := List.flatMap_cons

theorem itemBytes_append_inj {s s' : List Item} {r r' : Bytes} (hs : ∀ it ∈ s, it.Proper)
    (hs' : ∀ it ∈ s', it.Proper)
    (h : itemBytes s ++ QUOTE :: r = itemBytes s' ++ QUOTE :: r') : s = s' ∧ r = r' := by
  induction s generalizing s' with
  | nil =>
      cases s' with
      | nil => exact ⟨rfl, (List.cons.inj h).2⟩
      | cons it' s' =>
          rw [itemBytes_cons, List.append_assoc] at h
          exact absurd h.symm (Item.bytes_ne_quote (hs' it' List.mem_cons_self))
  | cons it s ih =>
      rw [itemBytes_cons, List.append_assoc] at h
      cases s' with
      | nil => exact absurd h (Item.bytes_ne_quote (hs it List.mem_cons_self))
      | cons it' s' =>
          rw [itemBytes_cons, List.append_assoc] at h
          obtain ⟨rfl, htail⟩ :=
            Item.append_inj (hs it List.mem_cons_self) (hs' it' List.mem_cons_self) h
          obtain ⟨rfl, hr⟩ := ih (fun x hx => hs x (List.mem_cons_of_mem _ hx))
            (fun x hx => hs' x (List.mem_cons_of_mem _ hx)) htail
          exact ⟨rfl, hr⟩

/-- A string is written in one way only. -/
theorem SpellsString.append_inj {s s' : List Item} {w w' r r' : Bytes} (h : SpellsString s w)
    (h' : SpellsString s' w') (heq : w ++ r = w' ++ r') : s = s' ∧ r = r' := by
  obtain ⟨hs, rfl⟩ := h
  obtain ⟨hs', rfl⟩ := h'
  have htail := (List.cons.inj heq).2
  simp only [List.append_eq, List.append_assoc, List.cons_append, List.nil_append] at htail
  exact itemBytes_append_inj hs hs' htail

/-! ## `string` -/

/-- `u32::from_str_radix(_, 16)` of four bytes: a plus may stand in front. -/
def from_str_radix : Bytes → Option Nat
  | [] => none
  | c :: cs => if c = 0x2B then (if cs = [] then none else hex cs) else hex (c :: cs)

/-- `char::from_u32`. -/
def from_u32 (cp : Nat) : Option Nat := if isSurrogate cp ∨ 0x110000 ≤ cp then none else some cp

/-- The character of a `\u`. -/
def unicode (digits : Bytes) : Except String Bytes :=
  if ¬ Valid digits then .error "bad \\u"
  else
    match from_str_radix digits with
    | none => .error "bad \\u"
    | some cp =>
        match (from_u32 cp).filter fun _ => ! isHigh cp with
        | some ch => .ok (encode_utf8 ch)
        | none => .error "bad \\u escape"

/-- The loop of `string`, behind the quote. -/
def stringLoop (out : Bytes) (i : Nat) : Bytes → Except String (Text × P)
  | [] => .error "unterminated string"
  | c :: rest =>
      if c = QUOTE then
        if Valid out then .ok (out, { i := i + 1, rest := rest })
        else .error "invalid utf-8 in string"
      else if c = BACKSLASH then
        match rest with
        | [] => .error "bad escape"
        | e :: rest =>
            if e = 0x6E then stringLoop (out ++ [0x0A]) (i + 2) rest
            else if e = 0x74 then stringLoop (out ++ [0x09]) (i + 2) rest
            else if e = 0x72 then stringLoop (out ++ [0x0D]) (i + 2) rest
            else if e = 0x75 then
              match rest with
              | h₁ :: h₂ :: h₃ :: h₄ :: rest =>
                  match unicode [h₁, h₂, h₃, h₄] with
                  | .error msg => .error msg
                  | .ok ch => stringLoop (out ++ ch) (i + 6) rest
              | _ => .error "bad \\u"
            else stringLoop (out ++ [e]) (i + 2) rest
      else stringLoop (out ++ [c]) (i + 1) rest

def string (p : P) : Except String (Text × P) := do
  let p ← p.lit "\""
  stringLoop [] p.i p.rest

/-- The byte that is pushed for an escape. -/
def unescaped (e : UInt8) : UInt8 :=
  if e = 0x6E then 0x0A else if e = 0x74 then 0x09 else if e = 0x72 then 0x0D else e

/-- What is pushed for a part of a string. -/
def Item.pushed : Item → Option Bytes
  | raw c => some [c]
  | esc e => some [unescaped e]
  | uni a b c d => (unicode [a, b, c, d]).toOption

def pushed : List Item → Option Bytes
  | [] => some []
  | it :: s => it.pushed.bind fun x => (pushed s).map (x ++ ·)

/-- The text of a string that `string` takes. -/
def taken (s : List Item) : Option Text :=
  (pushed s).bind fun t => if Valid t then some t else none

theorem taken_eq_some {s : List Item} {t : Text} :
    taken s = some t ↔ pushed s = some t ∧ Valid t := by
  unfold taken
  rw [Option.bind_eq_some_iff]
  constructor
  · rintro ⟨t', ht', h⟩
    split_ifs at h with hvalid
    cases h
    exact ⟨ht', hvalid⟩
  · rintro ⟨ht, hvalid⟩
    exact ⟨t, ht, if_pos hvalid⟩

theorem pushed_cons {it : Item} {s : List Item} {t : Bytes} :
    pushed (it :: s) = some t ↔
      ∃ x u, it.pushed = some x ∧ pushed s = some u ∧ t = x ++ u := by
  rw [pushed, Option.bind_eq_some_iff]
  constructor
  · rintro ⟨x, hx, h⟩
    obtain ⟨u, hu, rfl⟩ := Option.map_eq_some_iff.mp h
    exact ⟨x, u, hx, hu, rfl⟩
  · rintro ⟨x, u, hx, hu, rfl⟩
    exact ⟨x, hx, by rw [hu]; rfl⟩

/-- What `stringLoop` returns is made of parts that stand in front of a quote. -/
theorem stringLoop_sound {out rest : Bytes} {i : Nat} {x : Text} {p' : P}
    (h : stringLoop out i rest = .ok (x, p')) :
    ∃ s t, (∀ it ∈ s, Item.Proper it) ∧ rest = itemBytes s ++ QUOTE :: p'.rest ∧
      pushed s = some t ∧ x = out ++ t ∧ Valid x := by
  have hstep (it : Item) {y : Bytes} {out rest rest' : Bytes} {x : Text} (hit : it.Proper)
      (hy : it.pushed = some y)
      (hrest : rest = it.bytes ++ rest')
      (ih : ∃ s t, (∀ it ∈ s, Item.Proper it) ∧ rest' = itemBytes s ++ QUOTE :: p'.rest ∧
        pushed s = some t ∧ x = (out ++ y) ++ t ∧ Valid x) :
      ∃ s t, (∀ it ∈ s, Item.Proper it) ∧ rest = itemBytes s ++ QUOTE :: p'.rest ∧
        pushed s = some t ∧ x = out ++ t ∧ Valid x := by
    obtain ⟨s, t, hs, hbytes, ht, hx, hvalid⟩ := ih
    refine ⟨it :: s, y ++ t, List.forall_mem_cons.mpr ⟨hit, hs⟩, ?_, ?_, ?_, hvalid⟩
    · rw [hrest, hbytes, itemBytes_cons, List.append_assoc]
    · exact pushed_cons.mpr ⟨y, t, hy, ht, rfl⟩
    · rw [hx, List.append_assoc]
  fun_induction stringLoop out i rest with
  | case2 out i cs hvalid =>
      cases h
      exact ⟨[], [], nofun, rfl, rfl, (List.append_nil _).symm, hvalid⟩
  | case5 out i rest hb ih => exact hstep (.esc 0x6E) (by unfold Item.Proper; decide) rfl rfl (ih h)
  | case6 out i rest hb hn ih => exact hstep (.esc 0x74) (by unfold Item.Proper; decide) rfl rfl (ih h)
  | case7 out i rest hb hn ht ih =>
      exact hstep (.esc 0x72) (by unfold Item.Proper; decide) rfl rfl (ih h)
  | case9 out i a b c d rest ch hch hb hn ht hr ih =>
      exact hstep (.uni a b c d) trivial (by rw [Item.pushed, hch]; rfl) rfl (ih h)
  | case11 out i e rest hn ht hr hu hb ih =>
      exact hstep (.esc e) hu
        (by rw [Item.pushed, unescaped, if_neg hn, if_neg ht, if_neg hr]) rfl (ih h)
  | case12 out i c cs hq hb ih => exact hstep (.raw c) ⟨hq, hb⟩ rfl rfl (ih h)
  -- the other ends of the loop are errors
  | case1 => cases h
  | case3 => cases h
  | case4 => cases h
  | case8 => cases h
  | case10 => cases h

theorem stringLoop_item {it : Item} {y : Bytes} (out rest : Bytes) (i : Nat) (hit : it.Proper)
    (hy : it.pushed = some y) :
    ∃ i', stringLoop out i (it.bytes ++ rest) = stringLoop (out ++ y) i' rest := by
  cases it with
  | raw c =>
      cases hy
      refine ⟨i + 1, ?_⟩
      change stringLoop out i (c :: rest) = _
      rw [stringLoop.eq_def]
      dsimp only
      rw [if_neg hit.1, if_neg hit.2]
  | esc e =>
      cases hy
      refine ⟨i + 2, ?_⟩
      change stringLoop out i (BACKSLASH :: e :: rest) = _
      rw [stringLoop.eq_def]
      dsimp only
      rw [if_neg (by decide), if_pos rfl, unescaped]
      split_ifs with hn ht hr hu
      · rfl
      · rfl
      · rfl
      · exact absurd hu hit
      · rfl
  | uni a b c d =>
      refine ⟨i + 6, ?_⟩
      change stringLoop out i (BACKSLASH :: 0x75 :: a :: b :: c :: d :: rest) = _
      have hch : unicode [a, b, c, d] = .ok y := by
        rw [Item.pushed] at hy
        cases hcase : unicode [a, b, c, d] with
        | error msg =>
            rw [hcase] at hy
            cases hy
        | ok ch =>
            rw [hcase] at hy
            cases hy
            rfl
      rw [stringLoop.eq_def]
      dsimp only
      rw [if_neg (by decide), if_pos rfl, if_neg (by decide), if_neg (by decide),
        if_neg (by decide), if_pos rfl, hch]

theorem stringLoop_complete {s : List Item} {t : Bytes} (out rest : Bytes) (i : Nat)
    (hs : ∀ it ∈ s, Item.Proper it) (ht : pushed s = some t) (hvalid : Valid (out ++ t)) :
    ∃ i', stringLoop out i (itemBytes s ++ QUOTE :: rest) =
      .ok (out ++ t, { i := i', rest := rest }) := by
  induction s generalizing out t i with
  | nil =>
      cases ht
      rw [List.append_nil] at hvalid ⊢
      refine ⟨i + 1, ?_⟩
      change stringLoop out i (QUOTE :: rest) = _
      rw [stringLoop.eq_def]
      dsimp only
      rw [if_pos rfl, if_pos hvalid]
  | cons it s ih =>
      obtain ⟨y, u, hy, hu, rfl⟩ := pushed_cons.mp ht
      obtain ⟨i₁, hi₁⟩ := stringLoop_item out (itemBytes s ++ QUOTE :: rest) i
        (hs it List.mem_cons_self) hy
      rw [itemBytes_cons, List.append_assoc, hi₁, ← List.append_assoc]
      exact ih _ _ (fun x hx => hs x (List.mem_cons_of_mem _ hx)) hu (by rwa [List.append_assoc])

theorem utf8_quote : utf8 "\"" = [QUOTE] := by decide +kernel

/-- The strings that `string` takes. -/
theorem readsStrings : ReadsStrings string taken where
  sound p x p' h := by
    unfold string at h
    obtain ⟨p₁, hlit, h⟩ := bind_ok.mp h
    have hrest := P.lit_spec hlit
    rw [utf8_quote] at hrest
    obtain ⟨s, t, hs, hbytes, ht, rfl, hvalid⟩ := stringLoop_sound h
    refine ⟨s, QUOTE :: (itemBytes s ++ [QUOTE]), ⟨hs, rfl⟩, ?_, taken_eq_some.mpr ⟨ht, hvalid⟩⟩
    rw [hrest, hbytes]
    simp
  complete s w x i rest hw hx := by
    obtain ⟨hs, rfl⟩ := hw
    obtain ⟨ht, hvalid⟩ := taken_eq_some.mp hx
    have hlit : P.lit { i := i, rest := utf8 "\"" ++ (itemBytes s ++ QUOTE :: rest) } "\"" =
        .ok { i := i + (utf8 "\"").length, rest := itemBytes s ++ QUOTE :: rest } := lit_append
    rw [utf8_quote] at hlit
    obtain ⟨i', hi'⟩ := stringLoop_complete [] rest (i + 1) hs ht hvalid
    refine ⟨i', ?_⟩
    unfold string
    rw [show QUOTE :: (itemBytes s ++ [QUOTE]) ++ rest =
      [QUOTE] ++ (itemBytes s ++ QUOTE :: rest) by simp, hlit]
    exact hi'

/-! ## Characters -/

theorem ofNat_toNat {n : Nat} (h : n < 256) : (UInt8.ofNat n).toNat = n := by
  rw [UInt8.toNat_ofNat']
  exact Nat.mod_eq_of_lt h

theorem isCont_ofNat {n : Nat} (h : n < 64) : Text.isCont (UInt8.ofNat (0x80 + n)) = true := by
  simp only [Text.isCont, Bool.and_eq_true, decide_eq_true_eq, UInt8.le_iff_toNat_le,
    UInt8.lt_iff_toNat_lt]
  rw [ofNat_toNat (by omega)]
  constructor
  · change 128 ≤ _
    omega
  · change _ < 192
    omega

/-- The first byte of a longer character goes on with none. -/
theorem isCont_lead {n : Nat} (hlo : 0xC0 ≤ n) (hhi : n < 256) :
    Text.isCont (UInt8.ofNat n) = false := by
  simp only [Text.isCont, Bool.and_eq_false_iff, decide_eq_false_iff_not, UInt8.lt_iff_toNat_lt]
  rw [ofNat_toNat hhi]
  exact Or.inr (by change ¬ n < 192; omega)

theorem charWidth_two {n : Nat} (hlo : 0xC2 ≤ n) (hhi : n < 0xE0) :
    Text.charWidth (UInt8.ofNat n) = 2 := by
  simp only [Text.charWidth, UInt8.lt_iff_toNat_lt, ofNat_toNat (show n < 256 by omega)]
  rw [if_neg (by change ¬ n < 128; omega), if_neg (by change ¬ n < 194; omega),
    if_pos (by change n < 224; omega)]

theorem charWidth_three {n : Nat} (hlo : 0xE0 ≤ n) (hhi : n < 0xF0) :
    Text.charWidth (UInt8.ofNat n) = 3 := by
  simp only [Text.charWidth, UInt8.lt_iff_toNat_lt, ofNat_toNat (show n < 256 by omega)]
  rw [if_neg (by change ¬ n < 128; omega), if_neg (by change ¬ n < 194; omega),
    if_neg (by change ¬ n < 224; omega), if_pos (by change n < 240; omega)]

theorem ofNat_ne {n : Nat} {c : UInt8} (hn : n < 256) (h : n ≠ c.toNat) : UInt8.ofNat n ≠ c := by
  rintro rfl
  exact h (ofNat_toNat hn).symm

theorem isSecond_two {n m : Nat} (hn : n < 0xE0) (hm : m < 64) :
    Text.isSecond (UInt8.ofNat n) (UInt8.ofNat (0x80 + m)) = true := by
  unfold Text.isSecond
  rw [if_neg (ofNat_ne (c := 0xE0) (by omega) (by simp; omega)),
    if_neg (ofNat_ne (c := 0xED) (by omega) (by simp; omega)),
    if_neg (ofNat_ne (c := 0xF0) (by omega) (by simp; omega)),
    if_neg (ofNat_ne (c := 0xF4) (by omega) (by simp; omega))]
  exact isCont_ofNat hm

/-- No character of three bytes is spelled too long, and none is a surrogate. -/
theorem isSecond_three {n m : Nat} (hn : n < 16) (hm : m < 64) (hlong : n = 0 → 32 ≤ m)
    (hsur : n = 13 → m < 32) :
    Text.isSecond (UInt8.ofNat (0xE0 + n)) (UInt8.ofNat (0x80 + m)) = true := by
  have hbounds (k l : Nat) (hk : k ≤ 0x80 + m) (hl : 0x80 + m < l) (hl' : l < 256) :
      (decide (UInt8.ofNat k ≤ UInt8.ofNat (0x80 + m)) &&
        decide (UInt8.ofNat (0x80 + m) < UInt8.ofNat l)) = true := by
    simp only [Bool.and_eq_true, decide_eq_true_eq, UInt8.le_iff_toNat_le, UInt8.lt_iff_toNat_lt]
    rw [ofNat_toNat (by omega), ofNat_toNat (by omega), ofNat_toNat hl']
    exact ⟨hk, hl⟩
  unfold Text.isSecond
  by_cases hzero : n = 0
  · subst hzero
    rw [if_pos (by rfl)]
    exact hbounds 0xA0 0xC0 (by have := hlong rfl; omega) (by omega) (by omega)
  · rw [if_neg (ofNat_ne (c := 0xE0) (by omega) (by simp; omega))]
    by_cases hd : n = 13
    · subst hd
      rw [if_pos (by rfl)]
      exact hbounds 0x80 0xA0 (by omega) (by have := hsur rfl; omega) (by omega)
    · rw [if_neg (ofNat_ne (c := 0xED) (by omega) (by simp; omega)),
        if_neg (ofNat_ne (c := 0xF0) (by omega) (by simp; omega)),
        if_neg (ofNat_ne (c := 0xF4) (by omega) (by simp; omega))]
      exact isCont_ofNat hm

/-- A character of the basic plane is UTF-8, and begins where the one before it ends. -/
theorem encode_valid {cp : Nat} (h : cp < 0x10000) (hs : isSurrogate cp = false) (t u : Bytes) :
    Valid (t ++ (encode_utf8 cp ++ u)) ↔ Valid t ∧ Valid u := by
  unfold encode_utf8
  split_ifs with hone htwo
  · refine Text.valid_append_ascii ?_ t u
    rw [UInt8.lt_iff_toNat_lt, ofNat_toNat (by omega)]
    exact hone
  · change Valid (t ++ UInt8.ofNat (0xC0 + cp / 64) :: UInt8.ofNat (0x80 + cp % 64) :: u) ↔ _
    rw [Text.valid_append_start (isCont_lead (by omega) (by omega))]
    refine and_congr_right fun _ => ?_
    unfold Valid
    rw [Text.lossy_two (charWidth_two (by omega) (by omega))
      (isSecond_two (by omega) (by omega)), List.cons_inj_right, List.cons_inj_right]
  · change Valid (t ++ UInt8.ofNat (0xE0 + cp / 4096) :: UInt8.ofNat (0x80 + cp / 64 % 64) ::
      UInt8.ofNat (0x80 + cp % 64) :: u) ↔ _
    have hsur : ¬ (0xD800 ≤ cp ∧ cp < 0xE000) := by
      simpa [isSurrogate] using hs
    rw [Text.valid_append_start (isCont_lead (by omega) (by omega))]
    refine and_congr_right fun _ => ?_
    unfold Valid
    rw [Text.lossy_three (charWidth_three (by omega) (by omega))
      (isSecond_three (by omega) (by omega) (by omega) (by omega)) (isCont_ofNat (by omega)),
      List.cons_inj_right, List.cons_inj_right, List.cons_inj_right]

/-! ## Against the grammar -/

namespace Item

/-- A surrogate in a `\u`. -/
def Surrogate : Item → Prop
  | uni a b c d => (hex [a, b, c, d]).any isSurrogate = true
  | _ => False

instance : (it : Item) → Decidable it.Surrogate
  | raw _ => inferInstanceAs (Decidable False)
  | esc _ => inferInstanceAs (Decidable False)
  | uni _ _ _ _ => inferInstanceAs (Decidable (_ = true))

end Item

theorem hexDigit_lt {c : UInt8} {n : Nat} (h : hexDigit c = some n) : n < 16 ∧ c < 0x80 := by
  simp only [hexDigit, UInt8.le_iff_toNat_le] at h
  rw [UInt8.lt_iff_toNat_lt]
  change _ ∧ c.toNat < 128
  split_ifs at h with h₁ h₂ h₃
  all_goals
    cases h
    simp at *
    omega

theorem foldlM_hex {cs : Bytes} {n m : Nat}
    (h : cs.foldlM (fun n c => (hexDigit c).map (16 * n + ·)) n = some m) :
    m < (n + 1) * 16 ^ cs.length ∧ ∀ c ∈ cs, c < 0x80 := by
  induction cs generalizing n with
  | nil =>
      cases h
      exact ⟨by simp, nofun⟩
  | cons c cs ih =>
      rw [List.foldlM_cons, Option.bind_eq_bind, Option.bind_eq_some_iff] at h
      obtain ⟨k, hk, h⟩ := h
      obtain ⟨d, hd, rfl⟩ := Option.map_eq_some_iff.mp hk
      obtain ⟨hdigit, hascii⟩ := hexDigit_lt hd
      obtain ⟨hm, hcs⟩ := ih h
      refine ⟨lt_of_lt_of_le hm ?_, List.forall_mem_cons.mpr ⟨hascii, hcs⟩⟩
      rw [List.length_cons, pow_succ']
      calc (16 * n + d + 1) * 16 ^ cs.length ≤ (16 * (n + 1)) * 16 ^ cs.length :=
            Nat.mul_le_mul_right _ (by omega)
        _ = (n + 1) * (16 * 16 ^ cs.length) := by ring

theorem hex_lt {cs : Bytes} {cp : Nat} (h : hex cs = some cp) : cp < 16 ^ cs.length := by
  have := (foldlM_hex h).1
  rwa [Nat.zero_add, Nat.one_mul] at this

theorem hex_lt_four {a b c d : UInt8} {cp : Nat} (h : hex [a, b, c, d] = some cp) :
    cp < 0x10000 := by
  have hlt := hex_lt h
  norm_num at hlt
  exact hlt

theorem hex_lt_three {a b c : UInt8} {cp : Nat} (h : hex [a, b, c] = some cp) : cp < 0x1000 := by
  have hlt := hex_lt h
  norm_num at hlt
  exact hlt

theorem hex_valid {cs : Bytes} {cp : Nat} (h : hex cs = some cp) : Valid cs :=
  Text.lossy_of_ascii (foldlM_hex h).2

theorem hex_plus (cs : Bytes) : hex (0x2B :: cs) = none := by
  rw [hex, List.foldlM_cons]
  rfl

namespace Item

/-- A part that only `string` takes: a control character, the escape of any other byte, or a plus
in front of three digits. -/
def Lax : Item → Prop
  | raw c => ¬ 0x20 ≤ c
  | esc e => escaped e = none
  | uni a b c d => a = 0x2B ∧ (hex [b, c, d]).isSome = true

instance : (it : Item) → Decidable it.Lax
  | raw _ => inferInstanceAs (Decidable (¬ _))
  | esc _ => inferInstanceAs (Decidable (_ = _))
  | uni _ _ _ _ => inferInstanceAs (Decidable (_ ∧ _))

end Item

theorem unicode_of {cs : Bytes} {cp : Nat} (hvalid : Valid cs) (h : from_str_radix cs = some cp)
    (hcp : cp < 0x10000) :
    (unicode cs).toOption = if isSurrogate cp then none else some (encode_utf8 cp) := by
  unfold unicode
  rw [if_neg (not_not.mpr hvalid), h]
  dsimp only [from_u32]
  cases hs : isSurrogate cp with
  | true =>
      rw [if_pos (Or.inl rfl)]
      rfl
  | false =>
      have hhigh : isHigh cp = false := by
        simp only [isSurrogate, isHigh, Bool.and_eq_false_iff, decide_eq_false_iff_not] at hs ⊢
        omega
      rw [if_neg (by simp; omega), Option.filter_some, hhigh]
      rfl

theorem unicode_none {cs : Bytes} (h : from_str_radix cs = none) :
    (unicode cs).toOption = none := by
  unfold unicode
  split_ifs
  · rw [h]
    rfl
  · rfl

/-- What is pushed for a `\u` of the grammar. -/
theorem pushed_uni {a b c d : UInt8} {cp : Nat} (h : hex [a, b, c, d] = some cp) :
    (Item.uni a b c d).pushed = if isSurrogate cp then none else some (encode_utf8 cp) := by
  refine unicode_of (hex_valid h) ?_ (hex_lt_four h)
  rw [from_str_radix, if_neg, h]
  rintro rfl
  rw [hex_plus] at h
  cases h

/-- And behind a plus. -/
theorem pushed_plus (b c d : UInt8) :
    (Item.uni 0x2B b c d).pushed = (hex [b, c, d]).map encode_utf8 := by
  have hradix : from_str_radix [0x2B, b, c, d] = hex [b, c, d] := by
    rw [from_str_radix, if_pos rfl, if_neg (List.cons_ne_nil _ _)]
  cases h : hex [b, c, d] with
  | none => exact unicode_none (hradix.trans h)
  | some cp =>
      have hcp := hex_lt_three h
      have hvalid : Valid [0x2B, b, c, d] := (Text.valid_cons_ascii (by decide) _).mpr (hex_valid h)
      have hs : isSurrogate cp = false := by
        simp only [isSurrogate, Bool.and_eq_false_iff, decide_eq_false_iff_not]
        omega
      rw [Item.pushed, unicode_of hvalid (hradix.trans h) (by omega), hs]
      rfl

/-- The parts that `string` takes: those of the grammar but the surrogates, and a few more. -/
theorem Item.pushed_isSome (it : Item) :
    it.pushed.isSome = true ↔ it.Rfc ∧ ¬ it.Surrogate ∨ it.Lax := by
  cases it with
  | raw c =>
      simp only [pushed, Rfc, Surrogate, Lax, Option.isSome_some, not_false_eq_true, and_true,
        true_iff]
      exact em _
  | esc e =>
      simp only [pushed, Rfc, Surrogate, Lax, Option.isSome_some, not_false_eq_true, and_true,
        true_iff]
      cases escaped e with
      | none => exact Or.inr rfl
      | some c => exact Or.inl rfl
  | uni a b c d =>
      simp only [Rfc, Surrogate, Lax]
      cases h : hex [a, b, c, d] with
      | some cp =>
          have ha : a ≠ 0x2B := by
            rintro rfl
            rw [hex_plus] at h
            cases h
          rw [pushed_uni h]
          cases hs : isSurrogate cp with
          | true => simp [ha, hs]
          | false => simp [ha, hs]
      | none =>
          by_cases ha : a = 0x2B
          · subst ha
            rw [pushed_plus, Option.isSome_map]
            simp
          · have hradix : from_str_radix [a, b, c, d] = none := by
              rw [from_str_radix, if_neg ha, h]
            rw [pushed, unicode_none hradix]
            simp [ha]

theorem escaped_ascii {e c : UInt8} (h : escaped e = some c) : e < 0x80 ∧ unescaped e < 0x80 := by
  unfold escaped at h
  split_ifs at h with h₁ h₂ h₃ h₄ h₅ h₆
  · rcases h₁ with rfl | rfl | rfl <;> decide
  all_goals
    subst_vars
    decide

/-- A part of the grammar stands for whole characters. -/
theorem Item.valid_iff {it : Item} {x : Bytes} (hrfc : it.Rfc) (hraw : ∀ c, it ≠ raw c)
    (hx : it.pushed = some x) (t u : Bytes) :
    (Valid (t ++ (it.bytes ++ u)) ↔ Valid t ∧ Valid u) ∧
      (Valid (t ++ (x ++ u)) ↔ Valid t ∧ Valid u) := by
  have hslash : BACKSLASH < 0x80 := by decide
  cases it with
  | raw c => exact absurd rfl (hraw c)
  | esc e =>
      cases hx
      obtain ⟨c, hc⟩ := Option.isSome_iff_exists.mp hrfc
      obtain ⟨he, hun⟩ := escaped_ascii hc
      constructor
      · change Valid (t ++ BACKSLASH :: e :: u) ↔ _
        rw [Text.valid_append_ascii hslash, Text.valid_cons_ascii he]
      · exact Text.valid_append_ascii hun t u
  | uni a b c d =>
      obtain ⟨cp, hcp⟩ := Option.isSome_iff_exists.mp hrfc
      have hascii := (foldlM_hex hcp).2
      simp only [List.forall_mem_cons] at hascii
      obtain ⟨ha, hb, hc, hd, -⟩ := hascii
      rw [pushed_uni hcp] at hx
      split_ifs at hx with hs
      cases hx
      constructor
      · change Valid (t ++ BACKSLASH :: 0x75 :: a :: b :: c :: d :: u) ↔ _
        rw [Text.valid_append_ascii hslash, Text.valid_cons_ascii (by decide),
          Text.valid_cons_ascii ha, Text.valid_cons_ascii hb, Text.valid_cons_ascii hc,
          Text.valid_cons_ascii hd]
      · exact encode_valid (hex_lt_four hcp) (by simpa using hs) t u

/-- A string of the grammar is UTF-8 where what is pushed for it is. -/
theorem valid_iff {s : List Item} {v : Bytes} (hs : ∀ it ∈ s, Item.Rfc it) (hv : pushed s = some v)
    (t : Bytes) : Valid (t ++ itemBytes s) ↔ Valid (t ++ v) := by
  induction s generalizing v t with
  | nil =>
      cases hv
      exact Iff.rfl
  | cons it s ih =>
      obtain ⟨x, u, hx, hu, rfl⟩ := pushed_cons.mp hv
      rw [List.forall_mem_cons] at hs
      rw [itemBytes_cons]
      by_cases hraw : ∃ c, it = .raw c
      · obtain ⟨c, rfl⟩ := hraw
        cases hx
        have h := ih hs.2 hu (t ++ [c])
        rwa [List.append_assoc, List.append_assoc] at h
      · obtain ⟨hbytes, hpushed⟩ := Item.valid_iff hs.1 (fun c hc => hraw ⟨c, hc⟩) hx t (itemBytes s)
        rw [hbytes, (Item.valid_iff hs.1 (fun c hc => hraw ⟨c, hc⟩) hx t u).2]
        exact and_congr_right fun _ => ih hs.2 hu []

/-- A string of the grammar that the scan does not take. -/
def StrictString (s : List Item) : Prop := RfcString s ∧ ∃ it ∈ s, it.Surrogate

instance (s : List Item) : Decidable (StrictString s) := inferInstanceAs (Decidable (_ ∧ _))

/-- A string that only the scan takes. -/
def LooseString (s : List Item) : Prop :=
  (∃ it ∈ s, it.Lax) ∧ (∀ it ∈ s, it.Rfc ∧ ¬ it.Surrogate ∨ it.Lax) ∧
    (pushed s).all (Valid ·) = true

instance (s : List Item) : Decidable (LooseString s) := inferInstanceAs (Decidable (_ ∧ _ ∧ _))

theorem pushed_isSome (s : List Item) :
    (pushed s).isSome = true ↔ ∀ it ∈ s, it.Rfc ∧ ¬ it.Surrogate ∨ it.Lax := by
  induction s with
  | nil => exact iff_of_true rfl nofun
  | cons it s ih =>
      rw [List.forall_mem_cons, ← ih, ← Item.pushed_isSome, pushed]
      cases it.pushed with
      | none => simp
      | some x => simp

theorem Item.Lax.not_rfc {it : Item} (h : it.Lax) : ¬ it.Rfc := by
  cases it with
  | raw c => exact h
  | esc e =>
      change ¬ (escaped e).isSome = true
      rw [show escaped e = none from h]
      exact Bool.false_ne_true
  | uni a b c d =>
      obtain ⟨rfl, -⟩ := h
      change ¬ (hex [0x2B, b, c, d]).isSome = true
      rw [hex_plus]
      exact Bool.false_ne_true

/-- `string` takes the strings of the grammar but those with surrogates, and a few more. -/
theorem taken_isSome (s : List Item) :
    (taken s).isSome = true ↔ RfcString s ∧ ¬ StrictString s ∨ LooseString s := by
  have hsome : (taken s).isSome = true ↔
      (∀ it ∈ s, it.Rfc ∧ ¬ it.Surrogate ∨ it.Lax) ∧ (pushed s).all (Valid ·) = true := by
    rw [← pushed_isSome, taken]
    cases pushed s with
    | none => simp
    | some t =>
        by_cases ht : Valid t
        · simp [ht]
        · simp [ht]
  rw [hsome]
  constructor
  · rintro ⟨hitems, hall⟩
    by_cases hlax : ∃ it ∈ s, it.Lax
    · exact Or.inr ⟨hlax, hitems, hall⟩
    · have hrfc : ∀ it ∈ s, it.Rfc ∧ ¬ it.Surrogate := fun it hit =>
        (hitems it hit).resolve_right fun h => hlax ⟨it, hit, h⟩
      obtain ⟨v, hv⟩ := Option.isSome_iff_exists.mp ((pushed_isSome s).mpr hitems)
      rw [hv] at hall
      refine Or.inl ⟨⟨fun it hit => (hrfc it hit).1, ?_⟩, ?_⟩
      · exact (valid_iff (fun it hit => (hrfc it hit).1) hv []).mpr (by simpa using hall)
      · rintro ⟨-, it, hit, hsur⟩
        exact (hrfc it hit).2 hsur
  · rintro (⟨hrfc, hstrict⟩ | ⟨-, hitems, hall⟩)
    · have hitems : ∀ it ∈ s, it.Rfc ∧ ¬ it.Surrogate ∨ it.Lax := fun it hit =>
        Or.inl ⟨hrfc.1 it hit, fun h => hstrict ⟨hrfc, it, hit, h⟩⟩
      obtain ⟨v, hv⟩ := Option.isSome_iff_exists.mp ((pushed_isSome s).mpr hitems)
      have hvalid : Valid v := (valid_iff hrfc.1 hv []).mp hrfc.2
      refine ⟨hitems, ?_⟩
      rw [hv]
      simpa using hvalid
    · exact ⟨hitems, hall⟩

theorem LooseString.not_rfc {s : List Item} (h : LooseString s) : ¬ RfcString s := by
  obtain ⟨⟨it, hit, hlax⟩, -⟩ := h
  exact fun hrfc => hlax.not_rfc (hrfc.1 it hit)

end Payload
end StrikeDB
