import Mathlib
import StrikeDB.Names

/-!
# StrikeDB: JSON documents

Syntax trees of documents, the bytes that they are written with, and the numbers and strings
that RFC 8259 allows in them.  Trees may hold numbers and strings that are not allowed, so that
other readings of a document can be compared with that of the RFC.

**Results.**
* `Tree.eval_isSome`: a document has a value where all of its numbers and strings have one.
-/

namespace StrikeDB
namespace Payload

def QUOTE : UInt8 := 0x22
def BACKSLASH : UInt8 := 0x5C

/-! ## Numbers -/

inductive Sign where
  | plus
  | minus
deriving DecidableEq

def Sign.byte : Sign → UInt8
  | plus => 0x2B
  | minus => 0x2D

abbrev Digits := List (Fin 10)

def digitBytes (ds : Digits) : Bytes := ds.map fun d => Text.digit d.val

/-- The digit that a byte is. -/
def digitOf (c : UInt8) : Fin 10 := Fin.ofNat 10 (c.toNat - 48)

def digitsNat (ds : Digits) : Nat := ds.foldl (fun n d => 10 * n + d.val) 0

def signBytes : Option Sign → Bytes
  | none => []
  | some s => [s.byte]

structure Exponent where
  upper : Bool
  sign : Option Sign
  digits : Digits
deriving DecidableEq

namespace Exponent

def bytes (e : Exponent) : Bytes :=
  (if e.upper then 0x45 else 0x65) :: (signBytes e.sign ++ digitBytes e.digits)

def value (e : Exponent) : Int :=
  if e.sign = some .minus then -digitsNat e.digits else digitsNat e.digits

end Exponent

/-- The parts of a written number. -/
structure Number where
  sign : Option Sign
  int : Digits
  /-- What stands behind the point, if there is one. -/
  frac : Option Digits
  exp : Option Exponent
deriving DecidableEq

namespace Number

def fracBytes : Option Digits → Bytes
  | none => []
  | some ds => 0x2E :: digitBytes ds

def expBytes : Option Exponent → Bytes
  | none => []
  | some e => e.bytes

def bytes (n : Number) : Bytes :=
  signBytes n.sign ++ (digitBytes n.int ++ (fracBytes n.frac ++ expBytes n.exp))

def negative (n : Number) : Bool := n.sign = some .minus

/-- The written decimal, without its sign. -/
def decimal (n : Number) : ℚ :=
  let fraction := n.frac.getD []
  let shift : Int := (n.exp.map Exponent.value).getD 0 - fraction.length
  digitsNat (n.int ++ fraction) * (10 : ℚ) ^ shift

/-- `number = [ minus ] int [ frac ] [ exp ]`, with no zero in front of other digits. -/
def Rfc (n : Number) : Prop :=
  n.sign ≠ some .plus ∧ (n.int = [0] ∨ n.int.head?.any (· ≠ 0) = true) ∧ n.frac ≠ some [] ∧
    n.exp.all (·.digits ≠ []) = true

instance (n : Number) : Decidable n.Rfc := inferInstanceAs (Decidable (_ ∧ _))

/-- A zero stands in front of other digits. -/
def Padded (n : Number) : Prop := n.int.head? = some 0 ∧ n.int ≠ [0]

instance (n : Number) : Decidable n.Padded := inferInstanceAs (Decidable (_ ∧ _))

end Number

/-! ## Strings -/

/-- A part of a string: a byte, an escaped byte, or the four bytes behind `\u`. -/
inductive Item where
  | raw (c : UInt8)
  | esc (e : UInt8)
  | uni (a b c d : UInt8)
deriving DecidableEq

namespace Item

def bytes : Item → Bytes
  | raw c => [c]
  | esc e => [BACKSLASH, e]
  | uni a b c d => [BACKSLASH, 0x75, a, b, c, d]

/-- Is the part written as what it is? -/
def Proper : Item → Prop
  | raw c => c ≠ QUOTE ∧ c ≠ BACKSLASH
  | esc e => e ≠ 0x75
  | uni _ _ _ _ => True

end Item

def itemBytes (s : List Item) : Bytes := s.flatMap Item.bytes

/-- A hexadecimal digit. -/
def hexDigit (c : UInt8) : Option Nat :=
  if 48 ≤ c ∧ c ≤ 57 then some (c.toNat - 48)
  else if 97 ≤ c ∧ c ≤ 102 then some (c.toNat - 87)
  else if 65 ≤ c ∧ c ≤ 70 then some (c.toNat - 55)
  else none

def hex (cs : List UInt8) : Option Nat :=
  cs.foldlM (fun n c => (hexDigit c).map (16 * n + ·)) 0

/-- `char::encode_utf8`. -/
def encode_utf8 (cp : Nat) : Bytes :=
  if cp < 0x80 then [UInt8.ofNat cp]
  else if cp < 0x800 then [UInt8.ofNat (0xC0 + cp / 64), UInt8.ofNat (0x80 + cp % 64)]
  else if cp < 0x10000 then
    [UInt8.ofNat (0xE0 + cp / 4096), UInt8.ofNat (0x80 + cp / 64 % 64),
      UInt8.ofNat (0x80 + cp % 64)]
  else
    [UInt8.ofNat (0xF0 + cp / 262144), UInt8.ofNat (0x80 + cp / 4096 % 64),
      UInt8.ofNat (0x80 + cp / 64 % 64), UInt8.ofNat (0x80 + cp % 64)]

def isHigh (cp : Nat) : Bool := 0xD800 ≤ cp && cp < 0xDC00

def isLow (cp : Nat) : Bool := 0xDC00 ≤ cp && cp < 0xE000

def isSurrogate (cp : Nat) : Bool := 0xD800 ≤ cp && cp < 0xE000

/-- The character that an escaped byte stands for. -/
def escaped (e : UInt8) : Option UInt8 :=
  if e = QUOTE ∨ e = BACKSLASH ∨ e = 0x2F then some e
  else if e = 0x62 then some 0x08
  else if e = 0x66 then some 0x0C
  else if e = 0x6E then some 0x0A
  else if e = 0x72 then some 0x0D
  else if e = 0x74 then some 0x09
  else none

namespace Item

/-- No control characters, and only the escapes of the RFC. -/
def Rfc : Item → Prop
  | raw c => 0x20 ≤ c
  | esc e => (escaped e).isSome = true
  | uni a b c d => (hex [a, b, c, d]).isSome = true

instance (it : Item) : Decidable it.Rfc := by
  cases it <;> unfold Rfc <;> infer_instance

end Item

/-- A string of the RFC, in UTF-8. -/
def RfcString (s : List Item) : Prop :=
  (∀ it ∈ s, it.Rfc) ∧ Text.from_utf8_lossy (itemBytes s) = itemBytes s

instance (s : List Item) : Decidable (RfcString s) := inferInstanceAs (Decidable (_ ∧ _))

/-- The text of a string, with surrogate pairs put together.  A surrogate on its own stands for
no character. -/
def rfcText : List Item → Option Text
  | [] => some []
  | .raw c :: s => (rfcText s).map (c :: ·)
  | .esc e :: s => (escaped e).bind fun c => (rfcText s).map (c :: ·)
  | .uni a b c d :: s =>
      (hex [a, b, c, d]).bind fun cp =>
        if isHigh cp then
          match s with
          | .uni a' b' c' d' :: s' =>
              (hex [a', b', c', d']).bind fun low =>
                if isLow low then
                  (rfcText s').map
                    (encode_utf8 (0x10000 + (cp - 0xD800) * 1024 + (low - 0xDC00)) ++ ·)
                else none
          | _ => none
        else if isLow cp then none
        else (rfcText s).map (encode_utf8 cp ++ ·)

/-! ## Documents -/

mutual

/-- A document, with the numbers and strings as they are written. -/
inductive Tree where
  | null
  | bool (b : Bool)
  | num (n : Number)
  | str (s : List Item)
  | arr (ts : Trees)
  | obj (ms : Members)

inductive Trees where
  | nil
  | cons (t : Tree) (ts : Trees)

inductive Members where
  | nil
  | cons (k : List Item) (t : Tree) (ms : Members)

end

def isWs (c : UInt8) : Bool := c = 0x20 || c = 0x09 || c = 0x0D || c = 0x0A

def Ws (w : Bytes) : Prop := ∀ c ∈ w, isWs c = true

/-- The string is written so. -/
def SpellsString (s : List Item) (w : Bytes) : Prop :=
  (∀ it ∈ s, it.Proper) ∧ w = QUOTE :: (itemBytes s ++ [QUOTE])

mutual

/-- The bytes are a way to write the document. -/
def Tree.Spells : Tree → Bytes → Prop
  | .null, w => w = utf8 "null"
  | .bool b, w => w = if b then utf8 "true" else utf8 "false"
  | .num n, w => n.bytes ≠ [] ∧ w = n.bytes
  | .str s, w => SpellsString s w
  | .arr ts, w => ∃ w', (ts = .nil ∧ Ws w' ∨ ts.Spells w') ∧ w = 0x5B :: (w' ++ [0x5D])
  | .obj ms, w => ∃ w', (ms = .nil ∧ Ws w' ∨ ms.Spells w') ∧ w = 0x7B :: (w' ++ [0x7D])

/-- Values between commas, with white space around them. -/
def Trees.Spells : Trees → Bytes → Prop
  | .nil, _ => False
  | .cons t ts, w => ∃ u v u' w', Ws u ∧ t.Spells v ∧ Ws u' ∧
      (ts = .nil ∧ w' = [] ∨ ∃ w'', ts.Spells w'' ∧ w' = 0x2C :: w'') ∧ w = u ++ (v ++ (u' ++ w'))

/-- Names and values between commas. -/
def Members.Spells : Members → Bytes → Prop
  | .nil, _ => False
  | .cons k t ms, w => ∃ u s u₁ u₂ v u' w', Ws u ∧ SpellsString k s ∧ Ws u₁ ∧ Ws u₂ ∧
      t.Spells v ∧ Ws u' ∧
      (ms = .nil ∧ w' = [] ∨ ∃ w'', ms.Spells w'' ∧ w' = 0x2C :: w'') ∧
      w = u ++ (s ++ (u₁ ++ 0x3A :: (u₂ ++ (v ++ (u' ++ w')))))

end

/-- `JSON-text = ws value ws`. -/
def Document (b : Bytes) (t : Tree) : Prop :=
  ∃ u w u', Ws u ∧ t.Spells w ∧ Ws u' ∧ b = u ++ (w ++ u')

/-! ## Values -/

/-- What documents are read into: values `α`, with names `σ` and objects `μ` that are filled one
name after the other. -/
structure Algebra (σ μ α : Type) where
  null : α
  bool : Bool → α
  str : σ → α
  arr : List α → α
  empty : μ
  insert : μ → σ → α → μ
  obj : μ → α

section Eval

variable {σ μ α : Type} (A : Algebra σ μ α) (number : Number → Option α)
  (string : List Item → Option σ)

mutual

/-- The value of a document, where its numbers and strings have one. -/
def Tree.eval : Tree → Option α
  | .null => some A.null
  | .bool b => some (A.bool b)
  | .num n => number n
  | .str s => (string s).map A.str
  | .arr ts => ts.eval.map A.arr
  | .obj ms => (ms.eval A.empty).map A.obj

def Trees.eval : Trees → Option (List α)
  | .nil => some []
  | .cons t ts => t.eval.bind fun a => ts.eval.map (a :: ·)

def Members.eval : Members → μ → Option μ
  | .nil, m => some m
  | .cons k t ms, m => (string k).bind fun name => t.eval.bind fun a => ms.eval (A.insert m name a)

end

end Eval

mutual

/-- All numbers and all strings of a document. -/
def Tree.All (pn : Number → Prop) (ps : List Item → Prop) : Tree → Prop
  | .num n => pn n
  | .str s => ps s
  | .arr ts => ts.All pn ps
  | .obj ms => ms.All pn ps
  | _ => True

def Trees.All (pn : Number → Prop) (ps : List Item → Prop) : Trees → Prop
  | .nil => True
  | .cons t ts => t.All pn ps ∧ ts.All pn ps

def Members.All (pn : Number → Prop) (ps : List Item → Prop) : Members → Prop
  | .nil => True
  | .cons k t ms => ps k ∧ t.All pn ps ∧ ms.All pn ps

end

section Eval

variable {σ μ α : Type} {A : Algebra σ μ α} {number : Number → Option α}
  {string : List Item → Option σ}

mutual

/-- A document has a value where all of its numbers and strings have one. -/
theorem Tree.eval_isSome (t : Tree) :
    (t.eval A number string).isSome = true ↔
      t.All (fun n => (number n).isSome = true) (fun s => (string s).isSome = true) := by
  cases t with
  | null => exact iff_of_true rfl trivial
  | bool b => exact iff_of_true rfl trivial
  | num n => exact Iff.rfl
  | str s =>
      rw [Tree.eval, Option.isSome_map]
      exact Iff.rfl
  | arr ts =>
      rw [Tree.eval, Option.isSome_map]
      exact Trees.eval_isSome ts
  | obj ms =>
      rw [Tree.eval, Option.isSome_map]
      exact Members.eval_isSome ms A.empty

theorem Trees.eval_isSome (ts : Trees) :
    (ts.eval A number string).isSome = true ↔
      ts.All (fun n => (number n).isSome = true) (fun s => (string s).isSome = true) := by
  cases ts with
  | nil => exact iff_of_true rfl trivial
  | cons t ts =>
      rw [Trees.eval, Trees.All, ← Tree.eval_isSome t, ← Trees.eval_isSome ts]
      cases t.eval A number string with
      | none => simp
      | some a => simp

theorem Members.eval_isSome (ms : Members) (m : μ) :
    (ms.eval A number string m).isSome = true ↔
      ms.All (fun n => (number n).isSome = true) (fun s => (string s).isSome = true) := by
  cases ms with
  | nil => exact iff_of_true rfl trivial
  | cons k t ms =>
      rw [Members.eval, Members.All, ← Tree.eval_isSome t]
      cases string k with
      | none => simp
      | some name =>
          cases t.eval A number string with
          | none => simp
          | some a =>
              rw [← Members.eval_isSome ms (A.insert m name a)]
              simp

end

end Eval

end Payload
end StrikeDB
