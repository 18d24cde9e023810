import Mathlib.Data.List.TakeWhile
import StrikeDB.JsonSyntax

/-!
# StrikeDB: the recursive descent through a document

The parser of payloads, for any readers of strings and numbers and any values that are made of
them: the payload parser is one instance, and a reader of syntax trees another.  `fuel` bounds
the calls; more than there are bytes is enough.

**Results.**
* `document_sound`: what is parsed is a document, with the value of its syntax tree.
* `document_complete`: every document is parsed.
* `document_iff`: both, for any fuel above the length.
-/

namespace StrikeDB
namespace Payload

/-- The bytes that are left, and how many were read. -/
structure P where
  i : Nat
  rest : Bytes

namespace P

def ws (p : P) : P :=
  { i := p.i + (p.rest.takeWhile isWs).length, rest := p.rest.dropWhile isWs }

def peek (p : P) : Option UInt8 := p.rest.head?

def bump (p : P) : P := { i := p.i + 1, rest := p.rest.tail }

def lit (p : P) (s : String) : Except String P :=
  let i := p.i
  if (utf8 s).isPrefixOf p.rest then
    .ok { i := p.i + (utf8 s).length, rest := p.rest.drop (utf8 s).length }
  else .error s!"expected {s} at {i}"

end P

section Descent

variable {σ μ α : Type} (A : Algebra σ μ α) (string : P → Except String (σ × P))
  (number : P → Except String (α × P))

/-- `object`, with the loop that reads its members. -/
def object (loop : μ → P → Except String (α × P)) (p : P) : Except String (α × P) := do
  let p ← p.lit "\x7b"
  let p := p.ws
  if p.peek = some 0x7D then return (A.obj A.empty, p.bump)
  else loop A.empty p

/-- `array`, with the loop that reads its elements. -/
def array (loop : List α → P → Except String (α × P)) (p : P) : Except String (α × P) := do
  let p ← p.lit "["
  let p := p.ws
  if p.peek = some 0x5D then return (A.arr [], p.bump)
  else loop [] p

mutual

def value : Nat → P → Except String (α × P)
  | 0, _ => .error "out of fuel"
  | fuel + 1, p =>
      let p := p.ws
      match p.peek with
      | none => .error "unexpected end"
      | some 0x7B => object A (members fuel) p
      | some 0x5B => array A (elements fuel) p
      | some 0x22 => do
          let (s, p) ← string p
          return (A.str s, p)
      | some 0x74 => do
          let p ← p.lit "true"
          return (A.bool true, p)
      | some 0x66 => do
          let p ← p.lit "false"
          return (A.bool false, p)
      | some 0x6E => do
          let p ← p.lit "null"
          return (A.null, p)
      | _ => number p

/-- The loop of `object`. -/
def members : Nat → μ → P → Except String (α × P)
  | 0, _, _ => .error "out of fuel"
  | fuel + 1, m, p => do
      let (k, p) ← string p.ws
      let p ← p.ws.lit ":"
      let (v, p) ← value fuel p
      let m := A.insert m k v
      let p := p.ws
      let i := p.i
      match p.peek with
      | some 0x2C => members fuel m p.bump
      | some 0x7D => return (A.obj m, p.bump)
      | _ => .error s!"expected , or \x7d at {i}"

/-- The loop of `array`. -/
def elements : Nat → List α → P → Except String (α × P)
  | 0, _, _ => .error "out of fuel"
  | fuel + 1, out, p => do
      let (v, p) ← value fuel p
      let out := out ++ [v]
      let p := p.ws
      let i := p.i
      match p.peek with
      | some 0x2C => elements fuel out p.bump
      | some 0x5D => return (A.arr out, p.bump)
      | _ => .error s!"expected , or ] at {i}"

end

def document (fuel : Nat) (b : Bytes) : Except String α := do
  let p : P := { i := 0, rest := b }
  let (v, p) ← value A string number fuel p.ws
  let p := p.ws
  let i := p.i
  if p.rest ≠ [] then .error s!"trailing bytes at {i}" else return v

end Descent

/-! ## Readers -/

/-- A byte that may stand in a number. -/
def isNumberByte (c : UInt8) : Bool :=
  Text.isDigit c || c = 0x2E || c = 0x65 || c = 0x45 || c = 0x2B || c = 0x2D

/-- No number goes on with these bytes. -/
def Stops (rest : Bytes) : Prop := ∀ c ∈ rest.head?, isNumberByte c = false

/-- The reader takes the strings that have a value. -/
structure ReadsStrings {σ : Type} (string : P → Except String (σ × P))
    (val : List Item → Option σ) : Prop where
  sound : ∀ p x p', string p = .ok (x, p') →
    ∃ s w, SpellsString s w ∧ p.rest = w ++ p'.rest ∧ val s = some x
  complete : ∀ s w x i rest, SpellsString s w → val s = some x →
    ∃ i', string { i := i, rest := w ++ rest } = .ok (x, { i := i', rest := rest })

/-- The reader takes the numbers that have a value. -/
structure ReadsNumbers {α : Type} (number : P → Except String (α × P))
    (val : Number → Option α) : Prop where
  sound : ∀ p x p', number p = .ok (x, p') →
    ∃ n : Number, n.bytes ≠ [] ∧ p.rest = n.bytes ++ p'.rest ∧ val n = some x
  complete : ∀ (n : Number) x i rest, n.bytes ≠ [] → val n = some x → Stops rest →
    ∃ i', number { i := i, rest := n.bytes ++ rest } = .ok (x, { i := i', rest := rest })

/-! ## What is parsed is a document -/

theorem bind_ok {ε β γ : Type} {x : Except ε β} {f : β → Except ε γ} {r : γ} :
    (x >>= f) = .ok r ↔ ∃ a, x = .ok a ∧ f a = .ok r := by
  cases x with
  | error e => exact iff_of_false nofun fun ⟨_, h, _⟩ => nomatch h
  | ok a =>
      constructor
      · exact fun h => ⟨a, rfl, h⟩
      · rintro ⟨_, h, hf⟩
        cases h
        exact hf

namespace P

theorem ws_spec (p : P) : ∃ u, Ws u ∧ p.rest = u ++ p.ws.rest :=
  ⟨_, fun _ hc => List.mem_takeWhile_imp hc, List.takeWhile_append_dropWhile.symm⟩

theorem peek_spec {p : P} {c : UInt8} (h : p.peek = some c) : p.rest = c :: p.bump.rest :=
  (List.cons_head?_tail h).symm

theorem lit_spec {p p' : P} {s : String} (h : p.lit s = .ok p') : p.rest = utf8 s ++ p'.rest := by
  unfold lit at h
  dsimp only at h
  split at h
  · next hpre =>
      cases h
      obtain ⟨rest, hrest⟩ := List.isPrefixOf_iff_prefix.mp hpre
      rw [← hrest]
      simp
  · cases h

end P

section Sound

variable {σ μ α : Type} {A : Algebra σ μ α} {string : P → Except String (σ × P)}
  {number : P → Except String (α × P)} {sval : List Item → Option σ} {nval : Number → Option α}

/-- What a reader of values returns is the value of a document in front of what is left. -/
def SoundValue (A : Algebra σ μ α) (nval : Number → Option α) (sval : List Item → Option σ)
    (f : P → Except String (α × P)) : Prop :=
  ∀ p a p', f p = .ok (a, p') → ∃ (u w : Bytes) (t : Tree), Ws u ∧ t.Spells w ∧
    p.rest = u ++ (w ++ p'.rest) ∧ t.eval A nval sval = some a

def SoundMembers (A : Algebra σ μ α) (nval : Number → Option α) (sval : List Item → Option σ)
    (f : μ → P → Except String (α × P)) : Prop :=
  ∀ m p a p', f m p = .ok (a, p') → ∃ (w : Bytes) (ms : Members) (m' : μ), ms.Spells w ∧
    p.rest = w ++ 0x7D :: p'.rest ∧ ms.eval A nval sval m = some m' ∧ a = A.obj m'

def SoundElements (A : Algebra σ μ α) (nval : Number → Option α) (sval : List Item → Option σ)
    (f : List α → P → Except String (α × P)) : Prop :=
  ∀ out p a p', f out p = .ok (a, p') → ∃ (w : Bytes) (ts : Trees) (l : List α), ts.Spells w ∧
    p.rest = w ++ 0x5D :: p'.rest ∧ ts.eval A nval sval = some l ∧ a = A.arr (out ++ l)

theorem utf8_brace : utf8 "\x7b" = [0x7B] := by decide +kernel

theorem utf8_bracket : utf8 "[" = [0x5B] := by decide +kernel

theorem utf8_colon : utf8 ":" = [0x3A] := by decide +kernel

theorem Ws.append {u v : Bytes} (hu : Ws u) (hv : Ws v) : Ws (u ++ v) := by
  intro c hc
  rcases List.mem_append.mp hc with hc | hc
  · exact hu c hc
  · exact hv c hc

/-- White space may stand in front. -/
theorem Trees.Spells.ws {ts : Trees} {u w : Bytes} (h : ts.Spells w) (hu : Ws u) :
    ts.Spells (u ++ w) := by
  cases ts with
  | nil => exact h.elim
  | cons t ts =>
      obtain ⟨u₁, v, u', w', hu₁, hv, hu', hrest, rfl⟩ := h
      exact ⟨u ++ u₁, v, u', w', hu.append hu₁, hv, hu', hrest, (List.append_assoc _ _ _).symm⟩

theorem Members.Spells.ws {ms : Members} {u w : Bytes} (h : ms.Spells w) (hu : Ws u) :
    ms.Spells (u ++ w) := by
  cases ms with
  | nil => exact h.elim
  | cons k t ms =>
      obtain ⟨u₀, s, u₁, u₂, v, u', w', hu₀, hs, hu₁, hu₂, hv, hu', hrest, rfl⟩ := h
      exact ⟨u ++ u₀, s, u₁, u₂, v, u', w', hu.append hu₀, hs, hu₁, hu₂, hv, hu', hrest,
        (List.append_assoc _ _ _).symm⟩

theorem object_sound {loop : μ → P → Except String (α × P)} (h : SoundMembers A nval sval loop)
    {p p' : P} {a : α} (hp : object A loop p = .ok (a, p')) :
    ∃ (w : Bytes) (t : Tree), t.Spells w ∧ p.rest = w ++ p'.rest ∧ t.eval A nval sval = some a := by
  unfold object at hp
  obtain ⟨p₁, hlit, hp⟩ := bind_ok.mp hp
  have hrest := P.lit_spec hlit
  rw [utf8_brace] at hrest
  obtain ⟨u, hu, hws⟩ := P.ws_spec p₁
  dsimp only at hp
  split at hp
  · next hpeek =>
      cases hp
      refine ⟨0x7B :: (u ++ [0x7D]), .obj .nil, ⟨u, Or.inl ⟨rfl, hu⟩, rfl⟩, ?_, rfl⟩
      rw [hrest, hws, P.peek_spec hpeek]
      simp
  · obtain ⟨w, ms, m', hms, hrest', heval, rfl⟩ := h _ _ _ _ hp
    refine ⟨0x7B :: ((u ++ w) ++ [0x7D]), .obj ms, ⟨u ++ w, Or.inr (hms.ws hu), rfl⟩, ?_, ?_⟩
    · rw [hrest, hws, hrest']
      simp
    · rw [Tree.eval, heval]
      rfl

theorem array_sound {loop : List α → P → Except String (α × P)}
    (h : SoundElements A nval sval loop) {p p' : P} {a : α}
    (hp : array A loop p = .ok (a, p')) :
    ∃ (w : Bytes) (t : Tree), t.Spells w ∧ p.rest = w ++ p'.rest ∧ t.eval A nval sval = some a := by
  unfold array at hp
  obtain ⟨p₁, hlit, hp⟩ := bind_ok.mp hp
  have hrest := P.lit_spec hlit
  rw [utf8_bracket] at hrest
  obtain ⟨u, hu, hws⟩ := P.ws_spec p₁
  dsimp only at hp
  split at hp
  · next hpeek =>
      cases hp
      refine ⟨0x5B :: (u ++ [0x5D]), .arr .nil, ⟨u, Or.inl ⟨rfl, hu⟩, rfl⟩, ?_, rfl⟩
      rw [hrest, hws, P.peek_spec hpeek]
      simp
  · obtain ⟨w, ts, l, hts, hrest', heval, rfl⟩ := h _ _ _ _ hp
    refine ⟨0x5B :: ((u ++ w) ++ [0x5D]), .arr ts, ⟨u ++ w, Or.inr (hts.ws hu), rfl⟩, ?_, ?_⟩
    · rw [hrest, hws, hrest']
      simp
    · rw [Tree.eval, heval]
      rfl

theorem value_succ_sound {fuel : Nat} (hstring : ReadsStrings string sval)
    (hnumber : ReadsNumbers number nval)
    (hmembers : SoundMembers A nval sval (members A string number fuel))
    (helements : SoundElements A nval sval (elements A string number fuel)) :
    SoundValue A nval sval (value A string number (fuel + 1)) := by
  intro p a p' hp
  obtain ⟨u, hu, hws⟩ := P.ws_spec p
  suffices h : ∃ (w : Bytes) (t : Tree), t.Spells w ∧ p.ws.rest = w ++ p'.rest ∧
      t.eval A nval sval = some a by
    obtain ⟨w, t, ht, hrest, heval⟩ := h
    exact ⟨u, w, t, hu, ht, by rw [hws, hrest], heval⟩
  have hword {s : String} {b : α} {t : Tree} (ht : t.Spells (utf8 s))
      (heval : t.eval A nval sval = some b)
      (hp : (do let p ← p.ws.lit s; return (b, p)) = Except.ok (a, p')) :
      ∃ (w : Bytes) (t : Tree), t.Spells w ∧ p.ws.rest = w ++ p'.rest ∧
        t.eval A nval sval = some a := by
    obtain ⟨p₁, hlit, hp⟩ := bind_ok.mp hp
    cases hp
    exact ⟨utf8 s, t, ht, P.lit_spec hlit, heval⟩
  rw [value] at hp
  dsimp only at hp
  split at hp
  · cases hp
  · exact object_sound hmembers hp
  · exact array_sound helements hp
  · obtain ⟨⟨x, p₁⟩, hs, hp⟩ := bind_ok.mp hp
    cases hp
    obtain ⟨s, w, hw, hrest, hval⟩ := hstring.sound _ _ _ hs
    exact ⟨w, .str s, hw, hrest, by rw [Tree.eval, hval]; rfl⟩
  · exact hword (t := .bool true) rfl rfl hp
  · exact hword (t := .bool false) rfl rfl hp
  · exact hword (t := .null) rfl rfl hp
  · obtain ⟨n, hne, hrest, hval⟩ := hnumber.sound _ _ _ hp
    exact ⟨n.bytes, .num n, ⟨hne, rfl⟩, hrest, hval⟩

theorem members_succ_sound {fuel : Nat} (hstring : ReadsStrings string sval)
    (hvalue : SoundValue A nval sval (value A string number fuel))
    (hmembers : SoundMembers A nval sval (members A string number fuel)) :
    SoundMembers A nval sval (members A string number (fuel + 1)) := by
  intro m p a p' hp
  rw [members] at hp
  obtain ⟨⟨k, p₁⟩, hk, hp⟩ := bind_ok.mp hp
  obtain ⟨p₂, hcolon, hp⟩ := bind_ok.mp hp
  obtain ⟨⟨v, p₃⟩, hv, hp⟩ := bind_ok.mp hp
  obtain ⟨u, hu, hrest⟩ := P.ws_spec p
  obtain ⟨s, w, hs, hrest₁, hname⟩ := hstring.sound _ _ _ hk
  obtain ⟨u₁, hu₁, hrest₂⟩ := P.ws_spec p₁
  have hrest₃ := P.lit_spec hcolon
  rw [utf8_colon] at hrest₃
  obtain ⟨u₂, w₂, t, hu₂, ht, hrest₄, heval⟩ := hvalue _ _ _ hv
  obtain ⟨u', hu', hrest₅⟩ := P.ws_spec p₃
  dsimp only at hp
  split at hp
  · next hpeek =>
      obtain ⟨w', ms, m', hms, hrest', heval', rfl⟩ := hmembers _ _ _ _ hp
      refine ⟨u ++ (w ++ (u₁ ++ 0x3A :: (u₂ ++ (w₂ ++ (u' ++ 0x2C :: w'))))), .cons s t ms, m',
        ⟨u, w, u₁, u₂, w₂, u', _, hu, hs, hu₁, hu₂, ht, hu', Or.inr ⟨w', hms, rfl⟩, rfl⟩, ?_, ?_,
        rfl⟩
      · rw [hrest, hrest₁, hrest₂, hrest₃, hrest₄, hrest₅, P.peek_spec hpeek, hrest']
        simp
      · rw [Members.eval, hname, heval]
        exact heval'
  · next hpeek =>
      cases hp
      refine ⟨u ++ (w ++ (u₁ ++ 0x3A :: (u₂ ++ (w₂ ++ (u' ++ []))))), .cons s t .nil, _,
        ⟨u, w, u₁, u₂, w₂, u', [], hu, hs, hu₁, hu₂, ht, hu', Or.inl ⟨rfl, rfl⟩, rfl⟩, ?_, ?_, rfl⟩
      · rw [hrest, hrest₁, hrest₂, hrest₃, hrest₄, hrest₅, P.peek_spec hpeek]
        simp
      · rw [Members.eval, hname, heval]
        rfl
  · cases hp

theorem elements_succ_sound {fuel : Nat}
    (hvalue : SoundValue A nval sval (value A string number fuel))
    (helements : SoundElements A nval sval (elements A string number fuel)) :
    SoundElements A nval sval (elements A string number (fuel + 1)) := by
  intro out p a p' hp
  rw [elements] at hp
  obtain ⟨⟨v, p₁⟩, hv, hp⟩ := bind_ok.mp hp
  obtain ⟨u, w, t, hu, ht, hrest, heval⟩ := hvalue _ _ _ hv
  obtain ⟨u', hu', hrest₁⟩ := P.ws_spec p₁
  dsimp only at hp
  split at hp
  · next hpeek =>
      obtain ⟨w', ts, l, hts, hrest', heval', rfl⟩ := helements _ _ _ _ hp
      refine ⟨u ++ (w ++ (u' ++ 0x2C :: w')), .cons t ts, v :: l,
        ⟨u, w, u', _, hu, ht, hu', Or.inr ⟨w', hts, rfl⟩, rfl⟩, ?_, ?_, ?_⟩
      · rw [hrest, hrest₁, P.peek_spec hpeek, hrest']
        simp
      · rw [Trees.eval, heval, heval']
        rfl
      · rw [List.append_assoc]
        rfl
  · next hpeek =>
      cases hp
      refine ⟨u ++ (w ++ (u' ++ [])), .cons t .nil, [v],
        ⟨u, w, u', [], hu, ht, hu', Or.inl ⟨rfl, rfl⟩, rfl⟩, ?_, ?_, rfl⟩
      · rw [hrest, hrest₁, P.peek_spec hpeek]
        simp
      · rw [Trees.eval, heval]
        rfl
  · cases hp

/-- What one call returns is right where what the calls inside it return is. -/
theorem descent_sound (hstring : ReadsStrings string sval) (hnumber : ReadsNumbers number nval)
    (fuel : Nat) :
    SoundValue A nval sval (value A string number fuel) ∧
      SoundMembers A nval sval (members A string number fuel) ∧
      SoundElements A nval sval (elements A string number fuel) := by
  induction fuel with
  | zero => exact ⟨nofun, nofun, nofun⟩
  | succ fuel ih =>
      obtain ⟨hvalue, hmembers, helements⟩ := ih
      exact ⟨value_succ_sound hstring hnumber hmembers helements,
        members_succ_sound hstring hvalue hmembers, elements_succ_sound hvalue helements⟩

theorem document_sound (hstring : ReadsStrings string sval) (hnumber : ReadsNumbers number nval)
    {fuel : Nat} {b : Bytes} {a : α} (h : document A string number fuel b = .ok a) :
    ∃ t, Document b t ∧ t.eval A nval sval = some a := by
  unfold document at h
  obtain ⟨⟨v, p₁⟩, hv, h⟩ := bind_ok.mp h
  obtain ⟨u, hu, hrest⟩ := P.ws_spec { i := 0, rest := b }
  obtain ⟨u₁, w, t, hu₁, ht, hrest₁, heval⟩ := (descent_sound hstring hnumber fuel).1 _ _ _ hv
  obtain ⟨u', hu', hrest₂⟩ := P.ws_spec p₁
  dsimp only at h
  split at h
  · cases h
  · next hend =>
      cases h
      refine ⟨t, ⟨u ++ u₁, w, u', hu.append hu₁, ht, hu', ?_⟩, heval⟩
      dsimp only at hrest
      rw [hrest, hrest₁, hrest₂, not_not.mp hend]
      simp

end Sound

/-! ## Every document is parsed -/

theorem Ws.head_eq {u rest : Bytes} (hu : Ws u) (hrest : ∀ c ∈ rest.head?, isWs c = false)
    (i : Nat) : P.ws { i := i, rest := u ++ rest } = { i := i + u.length, rest := rest } := by
  have htake : rest.takeWhile isWs = [] := by
    rw [List.takeWhile_eq_nil_iff]
    intro hpos hc
    rw [hrest _ (List.head?_eq_getElem? .. ▸ List.getElem?_eq_getElem hpos)] at hc
    cases hc
  have hdrop : rest.dropWhile isWs = rest := by
    have := List.takeWhile_append_dropWhile (p := isWs) (l := rest)
    rwa [htake, List.nil_append] at this
  unfold P.ws
  dsimp only
  rw [List.takeWhile_append_of_pos hu, List.dropWhile_append_of_pos hu, htake, hdrop,
    List.append_nil]

theorem Ws.stops {u rest : Bytes} (hu : Ws u) (hrest : Stops rest) : Stops (u ++ rest) := by
  cases u with
  | nil => exact hrest
  | cons c u =>
      intro c' hc'
      cases hc'
      have hc := hu c List.mem_cons_self
      simp only [isWs, Bool.or_eq_true, decide_eq_true_eq] at hc
      rcases hc with ((rfl | rfl) | rfl) | rfl <;> rfl

theorem lit_append {s : String} {i : Nat} {rest : Bytes} :
    P.lit { i := i, rest := utf8 s ++ rest } s =
      .ok { i := i + (utf8 s).length, rest := rest } := by
  unfold P.lit
  dsimp only
  rw [if_pos (List.isPrefixOf_iff_prefix.mpr (List.prefix_append _ _)), List.drop_left]

namespace Number

theorem digitBytes_number {ds : Digits} {c : UInt8} (hc : c ∈ digitBytes ds) :
    isNumberByte c = true := by
  obtain ⟨d, -, rfl⟩ := List.mem_map.mp hc
  have hdigit : ∀ d : Fin 10, isNumberByte (Text.digit d.val) = true := by decide
  exact hdigit d

theorem signBytes_number {s : Option Sign} {c : UInt8} (hc : c ∈ signBytes s) :
    isNumberByte c = true := by
  cases s with
  | none => cases hc
  | some s =>
      rw [signBytes, List.mem_singleton] at hc
      subst hc
      cases s <;> rfl

/-- Numbers are written with the bytes of numbers. -/
theorem bytes_number {n : Number} {c : UInt8} (hc : c ∈ n.bytes) : isNumberByte c = true := by
  obtain ⟨sign, int, frac, exp⟩ := n
  simp only [bytes, List.mem_append] at hc
  rcases hc with hc | hc | hc | hc
  · exact signBytes_number hc
  · exact digitBytes_number hc
  · cases frac with
    | none => cases hc
    | some ds =>
        rcases List.mem_cons.mp hc with rfl | hc
        · rfl
        · exact digitBytes_number hc
  · cases exp with
    | none => cases hc
    | some e =>
        rcases List.mem_cons.mp hc with rfl | hc
        · cases e.upper <;> rfl
        · rcases List.mem_append.mp hc with hc | hc
          · exact signBytes_number hc
          · exact digitBytes_number hc

end Number

theorem utf8_null : utf8 "null" = [0x6E, 0x75, 0x6C, 0x6C] := by decide +kernel

theorem utf8_true : utf8 "true" = [0x74, 0x72, 0x75, 0x65] := by decide +kernel

theorem utf8_false : utf8 "false" = [0x66, 0x61, 0x6C, 0x73, 0x65] := by decide +kernel

/-- A value starts with a byte that is neither white space nor a bracket that closes. -/
theorem Tree.Spells.head {t : Tree} {w : Bytes} (h : t.Spells w) :
    ∃ c w', w = c :: w' ∧ isWs c = false ∧ c ≠ 0x5D := by
  cases t with
  | null => exact ⟨_, _, h.trans utf8_null, rfl, by decide⟩
  | bool b =>
      cases b with
      | true => exact ⟨_, _, h.trans utf8_true, rfl, by decide⟩
      | false => exact ⟨_, _, h.trans utf8_false, rfl, by decide⟩
  | num n =>
      obtain ⟨hne, rfl⟩ := h
      obtain ⟨c, w', hw⟩ := List.exists_cons_of_ne_nil hne
      have hc : isNumberByte c = true := Number.bytes_number (hw ▸ List.mem_cons_self)
      refine ⟨c, w', hw, ?_, ?_⟩
      · cases hws : isWs c with
        | false => rfl
        | true =>
            simp only [isWs, Bool.or_eq_true, decide_eq_true_eq] at hws
            rcases hws with ((rfl | rfl) | rfl) | rfl <;> cases hc
      · rintro rfl
        cases hc
  | str s => exact ⟨_, _, h.2, rfl, by decide⟩
  | arr ts =>
      obtain ⟨w', -, rfl⟩ := h
      exact ⟨_, _, rfl, rfl, by decide⟩
  | obj ms =>
      obtain ⟨w', -, rfl⟩ := h
      exact ⟨_, _, rfl, rfl, by decide⟩

theorem Tree.Spells.head_ws {t : Tree} {w : Bytes} (h : t.Spells w) (rest : Bytes) :
    ∀ c ∈ (w ++ rest).head?, isWs c = false := by
  obtain ⟨c, w', rfl, hc, -⟩ := h.head
  intro c' hc'
  cases hc'
  exact hc

theorem SpellsString.head_ws {s : List Item} {w : Bytes} (h : SpellsString s w) (rest : Bytes) :
    ∀ c ∈ (w ++ rest).head?, isWs c = false := by
  obtain ⟨-, rfl⟩ := h
  intro c' hc'
  cases hc'
  rfl

theorem Trees.Spells.head {ts : Trees} {w : Bytes} (h : ts.Spells w) :
    ∃ u v, Ws u ∧ ts.Spells v ∧ w = u ++ v ∧
      ∀ rest, ∀ c ∈ (v ++ rest).head?, isWs c = false ∧ c ≠ 0x5D := by
  cases ts with
  | nil => exact h.elim
  | cons t ts =>
      obtain ⟨u, v, u', w', hu, hv, hu', hrest, rfl⟩ := h
      refine ⟨u, v ++ (u' ++ w'), hu, ⟨[], v, u', w', nofun, hv, hu', hrest, rfl⟩, rfl, ?_⟩
      obtain ⟨c, v', rfl, hc⟩ := hv.head
      intro rest c' hc'
      cases hc'
      exact hc

theorem Members.Spells.head {ms : Members} {w : Bytes} (h : ms.Spells w) :
    ∃ u v, Ws u ∧ ms.Spells v ∧ w = u ++ v ∧
      ∀ rest, ∀ c ∈ (v ++ rest).head?, isWs c = false ∧ c ≠ 0x7D := by
  cases ms with
  | nil => exact h.elim
  | cons k t ms =>
      obtain ⟨u, s, u₁, u₂, v, u', w', hu, hs, hu₁, hu₂, hv, hu', hrest, rfl⟩ := h
      refine ⟨u, s ++ (u₁ ++ 0x3A :: (u₂ ++ (v ++ (u' ++ w')))), hu,
        ⟨[], s, u₁, u₂, v, u', w', nofun, hs, hu₁, hu₂, hv, hu', hrest, rfl⟩, rfl, ?_⟩
      obtain ⟨-, rfl⟩ := hs
      intro rest c' hc'
      cases hc'
      exact ⟨rfl, by decide⟩

section Complete

variable {σ μ α : Type} {A : Algebra σ μ α} {string : P → Except String (σ × P)}
  {number : P → Except String (α × P)} {sval : List Item → Option σ} {nval : Number → Option α}

/-- After its white space a value is read by its first byte. -/
theorem value_number {fuel : Nat} {p : P} {c : UInt8} (hc : isNumberByte c = true)
    (hpeek : p.ws.peek = some c) : value A string number (fuel + 1) p = number p.ws := by
  rw [value]
  dsimp only
  rw [hpeek]
  split
  · next h => cases h
  all_goals try (next h => cases h; cases hc)
  rfl

theorem array_head {loop : List α → P → Except String (α × P)} {i : Nat} {rest : Bytes} :
    array A loop { i := i, rest := 0x5B :: rest } =
      if (P.ws { i := i + 1, rest := rest }).peek = some 0x5D then
        .ok (A.arr [], (P.ws { i := i + 1, rest := rest }).bump)
      else loop [] (P.ws { i := i + 1, rest := rest }) := by
  have hlit : P.lit { i := i, rest := utf8 "[" ++ rest } "[" =
      .ok { i := i + (utf8 "[").length, rest := rest } := lit_append
  rw [utf8_bracket] at hlit
  unfold array
  rw [show (0x5B : UInt8) :: rest = [0x5B] ++ rest from rfl, hlit]
  rfl

theorem object_head {loop : μ → P → Except String (α × P)} {i : Nat} {rest : Bytes} :
    object A loop { i := i, rest := 0x7B :: rest } =
      if (P.ws { i := i + 1, rest := rest }).peek = some 0x7D then
        .ok (A.obj A.empty, (P.ws { i := i + 1, rest := rest }).bump)
      else loop A.empty (P.ws { i := i + 1, rest := rest }) := by
  have hlit : P.lit { i := i, rest := utf8 "\x7b" ++ rest } "\x7b" =
      .ok { i := i + (utf8 "\x7b").length, rest := rest } := lit_append
  rw [utf8_brace] at hlit
  unfold object
  rw [show (0x7B : UInt8) :: rest = [0x7B] ++ rest from rfl, hlit]
  rfl

mutual

theorem Tree.complete (hstring : ReadsStrings string sval) (hnumber : ReadsNumbers number nval)
    (t : Tree) {a : α} {w u rest : Bytes} {i fuel : Nat} (ht : t.Spells w)
    (ha : t.eval A nval sval = some a) (hu : Ws u) (hstop : Stops rest) (hf : w.length < fuel) :
    ∃ i', value A string number fuel { i := i, rest := u ++ (w ++ rest) } =
      .ok (a, { i := i', rest := rest }) := by
  obtain ⟨fuel, rfl⟩ : ∃ f, fuel = f + 1 := ⟨fuel - 1, by omega⟩
  have hws := hu.head_eq (ht.head_ws rest) i
  cases t with
  | null =>
      cases ha
      rw [value, hws, show w = utf8 "null" from ht]
      have hpeek : P.peek { i := i + u.length, rest := utf8 "null" ++ rest } = some 0x6E := by
        rw [utf8_null]
        rfl
      rw [hpeek]
      dsimp only
      rw [lit_append]
      exact ⟨_, rfl⟩
  | bool b =>
      cases ha
      rw [value, hws]
      cases b with
      | true =>
          have hpeek : P.peek { i := i + u.length, rest := utf8 "true" ++ rest } = some 0x74 := by
            rw [utf8_true]
            rfl
          rw [show w = utf8 "true" from ht, hpeek]
          dsimp only
          rw [lit_append]
          exact ⟨_, rfl⟩
      | false =>
          have hpeek : P.peek { i := i + u.length, rest := utf8 "false" ++ rest } = some 0x66 := by
            rw [utf8_false]
            rfl
          rw [show w = utf8 "false" from ht, hpeek]
          dsimp only
          rw [lit_append]
          exact ⟨_, rfl⟩
  | num n =>
      obtain ⟨hne, rfl⟩ := ht
      obtain ⟨c, w', hw⟩ := List.exists_cons_of_ne_nil hne
      rw [value_number (Number.bytes_number (n := n) (hw ▸ List.mem_cons_self))
        (by rw [hws, hw]; rfl), hws]
      exact hnumber.complete n a _ rest hne ha hstop
  | str s =>
      rw [Tree.eval, Option.map_eq_some_iff] at ha
      obtain ⟨x, hx, rfl⟩ := ha
      obtain ⟨i', hi'⟩ := hstring.complete s w x (i + u.length) rest ht hx
      refine ⟨i', ?_⟩
      rw [value, hws]
      obtain ⟨-, rfl⟩ := ht
      change ((string _) >>= _) = _
      rw [hi']
      rfl
  | arr ts =>
      rw [Tree.eval, Option.map_eq_some_iff] at ha
      obtain ⟨l, hl, rfl⟩ := ha
      obtain ⟨w', hw', rfl⟩ := ht
      rw [value, hws]
      change ∃ i', array A _ { i := i + u.length, rest := 0x5B :: (w' ++ [0x5D] ++ rest) } = _
      rw [array_head, List.append_assoc]
      rcases hw' with ⟨rfl, hw'⟩ | hw'
      · rw [hw'.head_eq (fun c hc => by cases hc; rfl), if_pos (by rfl)]
        cases hl
        exact ⟨_, rfl⟩
      · obtain ⟨u₁, v, hu₁, hv, rfl, hhead⟩ := hw'.head
        rw [List.append_assoc, hu₁.head_eq fun c hc => (hhead _ c hc).1,
          if_neg (by exact fun hc => (hhead _ _ hc).2 rfl)]
        refine Trees.complete hstring hnumber ts hv hl [] ?_
        simp only [List.length_cons, List.length_append, List.length_nil] at hf
        omega
  | obj ms =>
      rw [Tree.eval, Option.map_eq_some_iff] at ha
      obtain ⟨m, hm, rfl⟩ := ha
      obtain ⟨w', hw', rfl⟩ := ht
      rw [value, hws]
      change ∃ i', object A _ { i := i + u.length, rest := 0x7B :: (w' ++ [0x7D] ++ rest) } = _
      rw [object_head, List.append_assoc]
      rcases hw' with ⟨rfl, hw'⟩ | hw'
      · rw [hw'.head_eq (fun c hc => by cases hc; rfl), if_pos (by rfl)]
        cases hm
        exact ⟨_, rfl⟩
      · obtain ⟨u₁, v, hu₁, hv, rfl, hhead⟩ := hw'.head
        rw [List.append_assoc, hu₁.head_eq fun c hc => (hhead _ c hc).1,
          if_neg (by exact fun hc => (hhead _ _ hc).2 rfl)]
        refine Members.complete hstring hnumber ms hv hm ?_
        simp only [List.length_cons, List.length_append, List.length_nil] at hf
        omega

theorem Trees.complete (hstring : ReadsStrings string sval) (hnumber : ReadsNumbers number nval)
    (ts : Trees) {l : List α} {w rest : Bytes} {i fuel : Nat} (hts : ts.Spells w)
    (hl : ts.eval A nval sval = some l) (out : List α) (hf : w.length + 1 < fuel) :
    ∃ i', elements A string number fuel out { i := i, rest := w ++ 0x5D :: rest } =
      .ok (A.arr (out ++ l), { i := i', rest := rest }) := by
  obtain ⟨fuel, rfl⟩ : ∃ f, fuel = f + 1 := ⟨fuel - 1, by omega⟩
  cases ts with
  | nil => exact hts.elim
  | cons t ts =>
      obtain ⟨u, v, u', w', hu, hv, hu', hw', rfl⟩ := hts
      rw [Trees.eval, Option.bind_eq_some_iff] at hl
      obtain ⟨a, ha, hl⟩ := hl
      rw [Option.map_eq_some_iff] at hl
      obtain ⟨l, hl, rfl⟩ := hl
      simp only [List.length_append] at hf
      have hvalue (tail : Bytes) (hstop : Stops tail) (hws : ∀ c ∈ tail.head?, isWs c = false) :
          ∃ i', value A string number fuel { i := i, rest := u ++ (v ++ (u' ++ tail)) } =
            .ok (a, { i := i', rest := u' ++ tail }) ∧
            P.ws { i := i', rest := u' ++ tail } = { i := i' + u'.length, rest := tail } := by
        obtain ⟨i', hi'⟩ := Tree.complete hstring hnumber t hv ha hu (hu'.stops hstop)
          (i := i) (by omega : v.length < fuel)
        exact ⟨i', hi', hu'.head_eq hws i'⟩
      rw [elements]
      rcases hw' with ⟨rfl, rfl⟩ | ⟨w'', hw'', rfl⟩
      · cases hl
        obtain ⟨i', hi', hws⟩ := hvalue (0x5D :: rest) (fun c hc => by cases hc; rfl)
          (fun c hc => by cases hc; rfl)
        rw [show u ++ (v ++ (u' ++ [])) ++ 0x5D :: rest = u ++ (v ++ (u' ++ 0x5D :: rest)) by simp,
          hi']
        dsimp only [bind, Except.bind]
        rw [hws]
        exact ⟨_, rfl⟩
      · obtain ⟨i', hi', hws⟩ := hvalue (0x2C :: (w'' ++ 0x5D :: rest))
          (fun c hc => by cases hc; rfl) (fun c hc => by cases hc; rfl)
        rw [show u ++ (v ++ (u' ++ 0x2C :: w'')) ++ 0x5D :: rest =
          u ++ (v ++ (u' ++ 0x2C :: (w'' ++ 0x5D :: rest))) by simp, hi']
        dsimp only [bind, Except.bind]
        rw [hws, show out ++ a :: l = (out ++ [a]) ++ l by simp]
        simp only [List.length_cons] at hf
        exact Trees.complete hstring hnumber ts hw'' hl (out ++ [a]) (by omega)

theorem Members.complete (hstring : ReadsStrings string sval) (hnumber : ReadsNumbers number nval)
    (ms : Members) {m m' : μ} {w rest : Bytes} {i fuel : Nat} (hms : ms.Spells w)
    (hm : ms.eval A nval sval m = some m') (hf : w.length + 1 < fuel) :
    ∃ i', members A string number fuel m { i := i, rest := w ++ 0x7D :: rest } =
      .ok (A.obj m', { i := i', rest := rest }) := by
  obtain ⟨fuel, rfl⟩ : ∃ f, fuel = f + 1 := ⟨fuel - 1, by omega⟩
  cases ms with
  | nil => exact hms.elim
  | cons k t ms =>
      obtain ⟨u, s, u₁, u₂, v, u', w', hu, hs, hu₁, hu₂, hv, hu', hw', rfl⟩ := hms
      rw [Members.eval, Option.bind_eq_some_iff] at hm
      obtain ⟨name, hname, hm⟩ := hm
      rw [Option.bind_eq_some_iff] at hm
      obtain ⟨a, ha, hm⟩ := hm
      simp only [List.length_append, List.length_cons] at hf
      -- The name and the colon behind it.
      have hhead (tail : Bytes) : ∃ i₁, string (P.ws
          { i := i, rest := u ++ (s ++ (u₁ ++ 0x3A :: (u₂ ++ (v ++ (u' ++ tail))))) }) =
            .ok (name, { i := i₁, rest := u₁ ++ 0x3A :: (u₂ ++ (v ++ (u' ++ tail))) }) := by
        rw [hu.head_eq (hs.head_ws _)]
        exact hstring.complete k s name _ _ hs hname
      have hcolon (i₁ : Nat) (tail : Bytes) :
          (P.ws { i := i₁, rest := u₁ ++ 0x3A :: tail }).lit ":" =
            .ok { i := i₁ + u₁.length + 1, rest := tail } := by
        rw [hu₁.head_eq (fun c hc => by cases hc; rfl)]
        have hlit : P.lit { i := i₁ + u₁.length, rest := utf8 ":" ++ tail } ":" =
          .ok { i := i₁ + u₁.length + (utf8 ":").length, rest := tail } := lit_append
        rwa [utf8_colon] at hlit
      have hvalue (tail : Bytes) (i₁ : Nat) (hstop : Stops tail)
          (hws : ∀ c ∈ tail.head?, isWs c = false) :
          ∃ i', value A string number fuel { i := i₁, rest := u₂ ++ (v ++ (u' ++ tail)) } =
            .ok (a, { i := i', rest := u' ++ tail }) ∧
            P.ws { i := i', rest := u' ++ tail } = { i := i' + u'.length, rest := tail } := by
        obtain ⟨i', hi'⟩ := Tree.complete hstring hnumber t hv ha hu₂ (hu'.stops hstop)
          (i := i₁) (by omega : v.length < fuel)
        exact ⟨i', hi', hu'.head_eq hws i'⟩
      rw [members]
      rcases hw' with ⟨rfl, rfl⟩ | ⟨w'', hw'', rfl⟩
      · cases hm
        obtain ⟨i₁, hi₁⟩ := hhead (0x7D :: rest)
        obtain ⟨i', hi', hws⟩ := hvalue (0x7D :: rest) (i₁ + u₁.length + 1)
          (fun c hc => by cases hc; rfl) (fun c hc => by cases hc; rfl)
        rw [show u ++ (s ++ (u₁ ++ 0x3A :: (u₂ ++ (v ++ (u' ++ []))))) ++ 0x7D :: rest =
          u ++ (s ++ (u₁ ++ 0x3A :: (u₂ ++ (v ++ (u' ++ 0x7D :: rest))))) by simp, hi₁]
        dsimp only [bind, Except.bind]
        rw [hcolon]
        dsimp only
        rw [hi']
        dsimp only
        rw [hws]
        exact ⟨_, rfl⟩
      · obtain ⟨i₁, hi₁⟩ := hhead (0x2C :: (w'' ++ 0x7D :: rest))
        obtain ⟨i', hi', hws⟩ := hvalue (0x2C :: (w'' ++ 0x7D :: rest))
          (i₁ + u₁.length + 1) (fun c hc => by cases hc; rfl) (fun c hc => by cases hc; rfl)
        rw [show u ++ (s ++ (u₁ ++ 0x3A :: (u₂ ++ (v ++ (u' ++ 0x2C :: w''))))) ++ 0x7D :: rest =
          u ++ (s ++ (u₁ ++ 0x3A :: (u₂ ++ (v ++ (u' ++ 0x2C :: (w'' ++ 0x7D :: rest)))))) by simp,
          hi₁]
        dsimp only [bind, Except.bind]
        rw [hcolon]
        dsimp only
        rw [hi']
        dsimp only
        rw [hws]
        simp only [List.length_cons] at hf
        exact Members.complete hstring hnumber ms hw'' hm (by omega)

end

theorem document_complete (hstring : ReadsStrings string sval)
    (hnumber : ReadsNumbers number nval) {fuel : Nat} {b : Bytes} {a : α} {t : Tree}
    (ht : Document b t) (ha : t.eval A nval sval = some a) (hf : b.length < fuel) :
    document A string number fuel b = .ok a := by
  obtain ⟨u, w, u', hu, hw, hu', rfl⟩ := ht
  have hend : P.ws { i := 0, rest := [] } = { i := 0, rest := [] } := rfl
  have hend' (i : Nat) : P.ws { i := i, rest := u' } = { i := i + u'.length, rest := [] } := by
    have := hu'.head_eq (show ∀ c ∈ ([] : Bytes).head?, isWs c = false from nofun) i
    rwa [List.append_nil] at this
  have hstop : Stops u' := by
    have := hu'.stops (show Stops [] from nofun)
    rwa [List.append_nil] at this
  simp only [List.length_append] at hf
  obtain ⟨i', hi'⟩ := Tree.complete hstring hnumber t (u := []) (i := u.length) hw ha nofun hstop
    (by omega : w.length < fuel)
  unfold document
  dsimp only
  rw [hu.head_eq (hw.head_ws u'), Nat.zero_add]
  change (value A string number fuel { i := u.length, rest := [] ++ (w ++ u') } >>= _) = _
  rw [hi']
  dsimp only [bind, Except.bind]
  rw [hend', if_neg (fun h => h rfl)]
  rfl

/-- The parser takes exactly the documents whose numbers and strings its readers take. -/
theorem document_iff (hstring : ReadsStrings string sval) (hnumber : ReadsNumbers number nval)
    {fuel : Nat} {b : Bytes} (hf : b.length < fuel) (a : α) :
    document A string number fuel b = .ok a ↔
      ∃ t, Document b t ∧ t.eval A nval sval = some a := by
  constructor
  · exact document_sound hstring hnumber
  · rintro ⟨t, ht, ha⟩
    exact document_complete hstring hnumber ht ha hf

end Complete

end Payload
end StrikeDB
