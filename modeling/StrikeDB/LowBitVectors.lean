import StrikeDB.BitFields
import StrikeDB.DotKernels

/-!
# StrikeDB: low-bit vectors

A vector may be stored with one or two bits a dimension.  The query stays int8, and is
scored against the levels that the stored bits stand for: a sign, a sign with a tier of
magnitude, or, in the mode of one and a half bits, a sign or near zero.

**Results.**

* `binary_scored`, `binary2_scored`: packing and scoring are inverse views of one quantiser.
* `binary15_scored`: packing in three states loses every sign, and each query scores minus
  the dimension.
* `scores_exact_iff`: exactly when the score is the sum over the coordinates.
* `queries_distinguish_iff`: in which modes a query tells different levels apart.
-/

namespace StrikeDB
namespace Vectors

inductive QuantMode where
  | Int8
  | Binary
  | Binary2
  | Binary15
  | Turbo4
  | Turbo2
  | Turbo15
  | Turbo1
  | Product
deriving DecidableEq

/-- Bits per dimension stored on the node side. -/
def QuantMode.bits : QuantMode → Nat
  | .Int8 => 8
  | .Binary => 1
  | .Binary2 => 2
  | .Binary15 => 2
  | .Turbo4 => 4
  | .Turbo2 => 2
  | .Turbo15 => 2
  | .Turbo1 => 1
  | .Product => 8

/-! ## Packing -/

/-- One round of mode `Binary`: the sign bit. -/
def setSign (out : List (BitVec 8)) (i : Nat) (x : I8) : Option (List (BitVec 8)) :=
  if 0 ≤ x.toInt then orAt out (i / 8) (1#8 <<< (7 - i % 8)) else some out

/-- The loop of mode `Binary`. -/
def packBinary (out : List (BitVec 8)) (i : Nat) : List I8 → Option (List (BitVec 8))
  | [] => some out
  | x :: q => do packBinary (← setSign out i x) (i + 1) q

/-- Sign and tier of a coordinate. -/
def binary2_lvl (x : I8) : BitVec 8 :=
  if 0 ≤ x.toInt then
    if 64 ≤ x.toInt then 0b11 else 0b10
  else if x.toInt ≤ -64 then 0b00
  else 0b01

/-- The loop of mode `Binary2`. -/
def packBinary2 (out : List (BitVec 8)) (i : Nat) : List I8 → Option (List (BitVec 8))
  | [] => some out
  | x :: q => do
      let out ← orAt out (i * 2 / 8) (binary2_lvl x <<< (6 - i * 2 % 8))
      packBinary2 out (i + 1) q

/-- 0 is strongly signed, 1 the bucket near zero; `abs` wraps at -128. -/
def binary15_level (x : I8) : BitVec 8 := if x.abs.toInt < 32 then 1 else 0

def binary15_recon (lvl : BitVec 8) (sign : I32) : I32 := if lvl = 1 then 0 else sign

/-- The byte of a pair of levels. -/
def pairByte (la lb : BitVec 8) : BitVec 8 := la <<< 6 ||| la <<< 4 ||| lb <<< 2 ||| lb

/-- `out[i] = v` -/
def setAt (out : List (BitVec 8)) (i : Nat) (v : BitVec 8) : Option (List (BitVec 8)) :=
  if i < out.length then some (out.set i v) else none

/-- The second coordinate of pair `p`, or 0 behind an odd dimension. -/
def secondOf (q : List I8) (p : Nat) : Option I8 :=
  if p * 2 + 1 < q.length then q[p * 2 + 1]? else some 0

/-- One round of `pack_binary15`. -/
def packPair (q : List I8) (out : List (BitVec 8)) (p : Nat) : Option (List (BitVec 8)) := do
  let a ← q[p * 2]?
  let b ← secondOf q p
  let out ← setAt out (p * 2) (pairByte (binary15_level a) (binary15_level b))
  setAt out (p * 2 + 1) 0

def pack_binary15 (q : List I8) : Option (List (BitVec 8)) :=
  let pairs := (q.length + 1) / 2
  (List.range pairs).foldlM (packPair q) (List.replicate (pairs * 2) 0)

/-- Pack a unit-normalised int8 vector; the modes not packed here leave zeroes. -/
def pack_lowbit (mode : QuantMode) (q : List I8) : Option (List (BitVec 8)) :=
  let bytes := if mode = .Int8 then 0 else (q.length * mode.bits + 7) / 8
  let out := List.replicate bytes 0
  match mode with
  | .Binary15 => pack_binary15 q
  | .Binary => packBinary out 0 q
  | .Binary2 => packBinary2 out 0 q
  | _ => some out

/-! ## Scoring -/

/-- One round of the scorer of mode `Binary`. -/
def binaryStep (q : List I8) (packed : List (BitVec 8)) (score : I32) (i : Nat) : Option I32 := do
  let b ← packed[i / 8]?
  let x ← q[i]?
  let stored_pos := (b >>> (7 - i % 8)) &&& 1#8 == 1#8
  let q_pos := decide (0 ≤ x.toInt)
  return score + if stored_pos == q_pos then 1 else -1

/-- One round of the scorer of mode `Binary2`: strong levels count twice. -/
def binary2Step (q : List I8) (packed : List (BitVec 8)) (score : I32) (i : Nat) :
    Option I32 := do
  let b ← packed[i * 2 / 8]?
  let x ← q[i]?
  let lvl := (b >>> (6 - i * 2 % 8)) &&& 0b11#8
  let stored_pos := lvl &&& 0b10#8 != 0#8
  let q_pos := decide (0 ≤ x.toInt)
  let sign : I32 := if stored_pos == q_pos then 1 else -1
  let mag : I32 := if lvl = 0b11#8 ∨ lvl = 0b00#8 then 2 else 1
  return score + sign * mag

def dot_lowbit (mode : QuantMode) (q : List I8) (packed : List (BitVec 8)) : Option I32 :=
  match mode with
  | .Int8 => dot_i8_scalar q q
  | .Binary => (List.range q.length).foldlM (binaryStep q packed) 0
  | .Binary2 => (List.range q.length).foldlM (binary2Step q packed) 0
  | _ => some 0

/-- One dimension of `dot_binary15`: the level `l` of its bits against the query. -/
def binary15Term (q : List I8) (l : BitVec 8) (score : I32) (i : Nat) : Option I32 :=
  if i < q.length then do
    let x ← q[i]?
    let s : I32 := if 0 ≤ x.toInt then 1 else -1
    let r := binary15_recon (if l &&& 0b10#8 != 0#8 then 0 else 1) s
    return score + if r = s then 1 else -1
  else some score

def binary15Step (q : List I8) (packed : List (BitVec 8)) (score : I32) (p : Nat) :
    Option I32 := do
  let byte0 ← packed[p * 2]?
  let score ← binary15Term q ((byte0 >>> 6) &&& 0b11#8) score (p * 2)
  binary15Term q ((byte0 >>> 2) &&& 0b11#8) score (p * 2 + 1)

def dot_binary15 (q : List I8) (packed : List (BitVec 8)) : Option I32 :=
  (List.range ((q.length + 1) / 2)).foldlM (binary15Step q packed) 0

/-- The scorer that `node_dist` takes for a mode. -/
def score (mode : QuantMode) (q : List I8) (packed : List (BitVec 8)) : Option I32 :=
  match mode with
  | .Binary15 => dot_binary15 q packed
  | _ => dot_lowbit mode q packed

/-- A query against a packed vector. -/
def scored (mode : QuantMode) (x q : List I8) : Option I32 := do score mode q (← pack_lowbit mode x)

/-! ## The quantiser -/

def sign (x : I8) : ℤ := if 0 ≤ x.toInt then 1 else -1

/-- The level that a mode assigns to a value. -/
def level (mode : QuantMode) (x : I8) : ℤ :=
  match mode with
  | .Binary => sign x
  | .Binary2 => if x.toInt ≤ -64 ∨ 64 ≤ x.toInt then 2 * sign x else sign x
  | .Binary15 => if binary15_level x = 1 then 0 else sign x
  | _ => 0

/-- The query's signs against the vector's levels. -/
def levelSum (mode : QuantMode) (x q : List I8) : ℤ :=
  ∑ i ∈ Finset.range x.length, sign (q.getD i 0) * level mode (x.getD i 0)

/-- The modes of one to two bits that keep a level of each coordinate. -/
def QuantMode.lowBit : QuantMode → Bool
  | .Binary => true
  | .Binary2 => true
  | .Binary15 => true
  | _ => false

/-! ## Where the codes stand -/

/-- One bit, from the highest of a byte down. -/
def binaryLayout : BitLayout where
  byte i := i / 8
  shift i := 7 - i % 8
  mask := 1#8
  read i v hv := by
    have h : ∀ (r : Fin 8) (v : BitVec 8), v &&& 1#8 = v →
        ((v <<< (7 - r.val)) >>> (7 - r.val)) &&& 1#8 = v := by decide +kernel
    exact h ⟨i % 8, Nat.mod_lt _ (by decide)⟩ v hv
  apart i j v hv hij hbyte := by
    have h : ∀ (r t : Fin 8) (v : BitVec 8), v &&& 1#8 = v → r ≠ t →
        ((v <<< (7 - r.val)) >>> (7 - t.val)) &&& 1#8 = 0#8 := by decide +kernel
    refine h ⟨i % 8, Nat.mod_lt _ (by decide)⟩ ⟨j % 8, Nat.mod_lt _ (by decide)⟩ v hv ?_
    intro heq
    have := congrArg Fin.val heq
    simp only at this
    omega

/-- Two bits, from the highest of a byte down. -/
def binary2Layout : BitLayout where
  byte i := i * 2 / 8
  shift i := 6 - i * 2 % 8
  mask := 0b11#8
  read i v hv := by
    have h : ∀ (r : Fin 4) (v : BitVec 8), v &&& 0b11#8 = v →
        ((v <<< (6 - r.val * 2)) >>> (6 - r.val * 2)) &&& 0b11#8 = v := by decide +kernel
    have hr : i * 2 % 8 = i % 4 * 2 := by omega
    rw [hr]
    exact h ⟨i % 4, Nat.mod_lt _ (by decide)⟩ v hv
  apart i j v hv hij hbyte := by
    have h : ∀ (r t : Fin 4) (v : BitVec 8), v &&& 0b11#8 = v → r ≠ t →
        ((v <<< (6 - r.val * 2)) >>> (6 - t.val * 2)) &&& 0b11#8 = 0#8 := by decide +kernel
    have hr : i * 2 % 8 = i % 4 * 2 := by omega
    have ht : j * 2 % 8 = j % 4 * 2 := by omega
    rw [hr, ht]
    refine h ⟨i % 4, Nat.mod_lt _ (by decide)⟩ ⟨j % 4, Nat.mod_lt _ (by decide)⟩ v hv ?_
    intro heq
    have := congrArg Fin.val heq
    simp only at this
    omega

def binary_code (x : I8) : BitVec 8 := if 0 ≤ x.toInt then 1#8 else 0#8

theorem packBinary_eq
    {out : List (BitVec 8)} {k : Nat} {q : List I8}
    (hroom : ∀ i, i < q.length → (k + i) / 8 < out.length) :
    packBinary out k q = binaryLayout.pack out k (q.map binary_code) := by
  induction q generalizing out k with
  | nil => rfl
  | cons x q ih =>
      have hk : k / 8 < out.length := hroom 0 (Nat.succ_pos _)
      have hstep : setSign out k x = binaryLayout.orField out k (binary_code x) := by
        unfold setSign binary_code
        split
        · rfl
        · exact (BitLayout.orField_zero hk).symm
      rw [packBinary, List.map_cons, BitLayout.pack, hstep]
      cases hor : binaryLayout.orField out k (binary_code x) with
      | none => rfl
      | some out' =>
          refine ih fun i hi => ?_
          rw [BitLayout.length_orField hor, Nat.add_right_comm, Nat.add_assoc]
          exact hroom (i + 1) (Nat.succ_lt_succ hi)

theorem packBinary2_eq (out : List (BitVec 8)) (k : Nat) (q : List I8) :
    packBinary2 out k q = binary2Layout.pack out k (q.map binary2_lvl) := by
  induction q generalizing out k with
  | nil => rfl
  | cons x q ih =>
      rw [packBinary2, List.map_cons, BitLayout.pack]
      simp only [ih]
      rfl

/-- Zeroed bytes, with a code for each coordinate. -/
theorem pack_zeroes
    (L : BitLayout) (bytes : Nat) (codes : List (BitVec 8))
    (hcodes : ∀ v ∈ codes, v &&& L.mask = v)
    (hroom : ∀ i, i < codes.length → L.byte i < bytes) :
    ∃ out, L.pack (List.replicate bytes 0) 0 codes = some out ∧
      ∀ i, i < codes.length → L.field out i = codes[i]? := by
  obtain ⟨out, hout, -, -, hfields⟩ := @BitLayout.pack_spec L (List.replicate bytes 0) codes 0
    hcodes (fun i hi => by simpa using hroom i hi) (fun i hi => by
      unfold BitLayout.field
      rw [List.getElem?_replicate, Nat.zero_add, if_pos (hroom i hi), Option.map_some]
      simp)
  refine ⟨out, hout, fun i hi => ?_⟩
  have := hfields i hi
  rwa [Nat.zero_add] at this

theorem pack_binary (q : List I8) :
    ∃ out, pack_lowbit .Binary q = some out ∧
      ∀ i, i < q.length → binaryLayout.field out i = (q[i]?).map binary_code := by
  have hroom : ∀ i, i < q.length → i / 8 < (q.length * 1 + 7) / 8 := by
    intro i hi
    omega
  obtain ⟨out, hout, hfields⟩ := pack_zeroes binaryLayout ((q.length * 1 + 7) / 8)
    (q.map binary_code)
    (fun v hv => by
      obtain ⟨x, -, rfl⟩ := List.mem_map.mp hv
      unfold binary_code
      split <;> rfl)
    (fun i hi => hroom i (by simpa using hi))
  refine ⟨out, ?_, fun i hi => ?_⟩
  · rw [← hout]
    exact packBinary_eq fun i hi => by
      rw [Nat.zero_add, List.length_replicate]
      exact hroom i hi
  · rw [hfields i (by simpa using hi), List.getElem?_map]

theorem pack_binary2 (q : List I8) :
    ∃ out, pack_lowbit .Binary2 q = some out ∧
      ∀ i, i < q.length → binary2Layout.field out i = (q[i]?).map binary2_lvl := by
  obtain ⟨out, hout, hfields⟩ := pack_zeroes binary2Layout ((q.length * 2 + 7) / 8)
    (q.map binary2_lvl)
    (fun v hv => by
      obtain ⟨x, -, rfl⟩ := List.mem_map.mp hv
      unfold binary2_lvl
      split
      · split <;> rfl
      · split <;> rfl)
    (fun i hi => by
      rw [List.length_map] at hi
      show i * 2 / 8 < _
      omega)
  refine ⟨out, ?_, fun i hi => ?_⟩
  · rw [← hout]
    exact packBinary2_eq _ _ _
  · rw [hfields i (by simpa using hi), List.getElem?_map]

/-! ## What the scorers add up -/

/-- A loop that adds an integer each round. -/
theorem foldlM_score
    {step : I32 → Nat → Option I32} {t : Nat → ℤ} {n : Nat}
    (h : ∀ s i, i < n → step s i = some (s + (t i : I32))) (s : I32) :
    (List.range n).foldlM step s = some (s + ((∑ i ∈ Finset.range n, t i : ℤ) : I32)) := by
  induction n with
  | zero => simp
  | succ n ih =>
      rw [List.range_succ, List.foldlM_append, ih fun s i hi => h s i (by omega),
        Option.bind_eq_bind, Option.bind_some, List.foldlM_cons, h _ n (Nat.lt_succ_self n),
        Finset.sum_range_succ, Int.cast_add, ← add_assoc]
      rfl

theorem getElem?_eq_getD {q : List I8} {i : Nat} (h : i < q.length) :
    q[i]? = some (q.getD i 0) := by
  rw [List.getD_eq_getElem?_getD, List.getElem?_eq_getElem h]
  rfl

/-- A code read back against the query's sign. -/
theorem binary_term (x y : I8) :
    ((if (binary_code x == 1#8) == decide (0 ≤ y.toInt) then 1 else -1 : I32)) =
      ((sign y * level .Binary x : ℤ) : I32) := by
  unfold binary_code level sign
  by_cases hx : 0 ≤ x.toInt <;> by_cases hy : 0 ≤ y.toInt <;> simp [hx, hy]

theorem binary_scored (x q : List I8) (h : q.length = x.length) :
    scored .Binary x q = some (levelSum .Binary x q : I32) := by
  obtain ⟨out, hout, hfields⟩ := pack_binary x
  unfold scored
  rw [hout, Option.bind_eq_bind, Option.bind_some]
  show (List.range q.length).foldlM (binaryStep q out) 0 = _
  rw [foldlM_score (t := fun i => sign (q.getD i 0) * level .Binary (x.getD i 0)), zero_add, h]
  · rfl
  · intro s i hi
    have hfield := hfields i (h ▸ hi)
    rw [getElem?_eq_getD (h ▸ hi)] at hfield
    unfold BitLayout.field at hfield
    obtain ⟨b, hb, hcode⟩ := Option.map_eq_some_iff.mp hfield
    have hb : out[i / 8]? = some b := hb
    have hcode : (b >>> (7 - i % 8)) &&& 1#8 = binary_code (x.getD i 0) := hcode
    unfold binaryStep
    rw [hb, getElem?_eq_getD hi]
    simp only [Option.bind_eq_bind, Option.bind_some, hcode]
    rw [← binary_term]
    rfl

theorem binary2_term (x y : I8) :
    ((if (binary2_lvl x &&& 0b10#8 != 0#8) == decide (0 ≤ y.toInt) then 1 else -1 : I32)) *
        (if binary2_lvl x = 0b11#8 ∨ binary2_lvl x = 0b00#8 then 2 else 1) =
      ((sign y * level .Binary2 x : ℤ) : I32) := by
  unfold binary2_lvl level sign
  by_cases hy : 0 ≤ y.toInt <;> by_cases hx : 0 ≤ x.toInt
  · by_cases hstrong : 64 ≤ x.toInt
    · simp [hx, hy, hstrong]
    · have : ¬ x.toInt ≤ -64 := by omega
      simp [hx, hy, hstrong, this]
  · by_cases hstrong : x.toInt ≤ -64
    · simp [hx, hy, hstrong]
    · have : ¬ 64 ≤ x.toInt := by omega
      simp [hx, hy, hstrong, this]
  · by_cases hstrong : 64 ≤ x.toInt
    · simp [hx, hy, hstrong]
    · have : ¬ x.toInt ≤ -64 := by omega
      simp [hx, hy, hstrong, this]
  · by_cases hstrong : x.toInt ≤ -64
    · simp [hx, hy, hstrong]
    · have : ¬ 64 ≤ x.toInt := by omega
      simp [hx, hy, hstrong, this]

theorem binary2_scored (x q : List I8) (h : q.length = x.length) :
    scored .Binary2 x q = some (levelSum .Binary2 x q : I32) := by
  obtain ⟨out, hout, hfields⟩ := pack_binary2 x
  unfold scored
  rw [hout, Option.bind_eq_bind, Option.bind_some]
  show (List.range q.length).foldlM (binary2Step q out) 0 = _
  rw [foldlM_score (t := fun i => sign (q.getD i 0) * level .Binary2 (x.getD i 0)), zero_add, h]
  · rfl
  · intro s i hi
    have hfield := hfields i (h ▸ hi)
    rw [getElem?_eq_getD (h ▸ hi)] at hfield
    unfold BitLayout.field at hfield
    obtain ⟨b, hb, hcode⟩ := Option.map_eq_some_iff.mp hfield
    have hb : out[i * 2 / 8]? = some b := hb
    have hcode : (b >>> (6 - i * 2 % 8)) &&& 0b11#8 = binary2_lvl (x.getD i 0) := hcode
    unfold binary2Step
    rw [hb, getElem?_eq_getD hi]
    simp only [Option.bind_eq_bind, Option.bind_some, hcode]
    rw [← binary2_term]
    rfl

/-! ## The mode of one and a half bits -/

/-- Neither level of a pair has the bit that the scorer asks for. -/
def Signless (b : BitVec 8) : Prop :=
  (b >>> 6) &&& 0b11#8 &&& 0b10#8 = 0#8 ∧ (b >>> 2) &&& 0b11#8 &&& 0b10#8 = 0#8

theorem signless_pairByte (x y : I8) :
    Signless (pairByte (binary15_level x) (binary15_level y)) := by
  unfold Signless pairByte binary15_level
  split <;> split <;> decide

theorem signless_zero : Signless 0 := ⟨rfl, rfl⟩

theorem packPair_signless
    {q : List I8} {out : List (BitVec 8)} {p : Nat} (hp : p * 2 < q.length)
    (hroom : p * 2 + 1 < out.length) (hout : ∀ b ∈ out, Signless b) :
    ∃ out', packPair q out p = some out' ∧ out'.length = out.length ∧
      ∀ b ∈ out', Signless b := by
  have hset : ∀ (l : List (BitVec 8)) (i : Nat) (v : BitVec 8), (∀ b ∈ l, Signless b) →
      Signless v → ∀ b ∈ l.set i v, Signless b := by
    intro l i v hl hv b hb
    rcases List.mem_or_eq_of_mem_set hb with hb | rfl
    · exact hl b hb
    · exact hv
  obtain ⟨y, hy⟩ : ∃ y, secondOf q p = some y := by
    unfold secondOf
    by_cases hlt : p * 2 + 1 < q.length
    · exact ⟨_, by rw [if_pos hlt, List.getElem?_eq_getElem hlt]⟩
    · exact ⟨0, if_neg hlt⟩
  refine ⟨(out.set (p * 2) (pairByte (binary15_level (q.getD (p * 2) 0)) (binary15_level y))).set
    (p * 2 + 1) 0, ?_, by simp, ?_⟩
  · unfold packPair setAt
    rw [getElem?_eq_getD hp, hy]
    simp only [Option.bind_eq_bind, Option.bind_some]
    rw [if_pos (by omega), Option.bind_some, if_pos (by simpa using hroom)]
  · exact hset _ _ _ (hset _ _ _ hout (signless_pairByte _ _)) signless_zero

theorem pack_binary15_signless (q : List I8) :
    ∃ out, pack_lowbit .Binary15 q = some out ∧ out.length = (q.length + 1) / 2 * 2 ∧
      ∀ b ∈ out, Signless b := by
  have hloop : ∀ n, n ≤ (q.length + 1) / 2 → ∃ out,
      (List.range n).foldlM (packPair q) (List.replicate ((q.length + 1) / 2 * 2) 0) = some out ∧
      out.length = (q.length + 1) / 2 * 2 ∧ ∀ b ∈ out, Signless b := by
    intro n
    induction n with
    | zero =>
        intro _
        refine ⟨_, rfl, by simp, fun b hb => ?_⟩
        rw [List.eq_of_mem_replicate hb]
        exact signless_zero
    | succ n ih =>
        intro hn
        obtain ⟨out, hout, hlen, hsign⟩ := ih (by omega)
        obtain ⟨out', hout', hlen', hsign'⟩ :=
          @packPair_signless q out n (by omega) (by omega) hsign
        refine ⟨out', ?_, hlen'.trans hlen, hsign'⟩
        rw [List.range_succ, List.foldlM_append, hout, Option.bind_eq_bind, Option.bind_some,
          List.foldlM_cons, hout']
        rfl
  exact hloop _ (Nat.le_refl _)

/-- A level without that bit never agrees with the query. -/
theorem binary15Term_signless
    {q : List I8} {l : BitVec 8} (hl : l &&& 0b10#8 = 0#8) (s : I32) (i : Nat) :
    binary15Term q l s i = some (s + ((if i < q.length then -1 else 0 : ℤ) : I32)) := by
  unfold binary15Term
  by_cases hi : i < q.length
  · rw [if_pos hi, if_pos hi, getElem?_eq_getD hi, Option.bind_eq_bind, Option.bind_some, hl]
    generalize q.getD i 0 = x
    by_cases hx : 0 ≤ x.toInt <;> simp [hx, binary15_recon]
  · rw [if_neg hi, if_neg hi]
    simp

theorem binary15_scored (x q : List I8) (h : q.length = x.length) :
    scored .Binary15 x q = some ((-(x.length : ℤ) : ℤ) : I32) := by
  obtain ⟨out, hout, hlen, hsign⟩ := pack_binary15_signless x
  have hstep : ∀ (s : I32) (p : Nat), p < (q.length + 1) / 2 →
      binary15Step q out s p =
        some (s + ((-1 + (if p * 2 + 1 < q.length then -1 else 0) : ℤ) : I32)) := by
    intro s p hp
    have hb : p * 2 < out.length := by omega
    obtain ⟨hfirst, hsecond⟩ := hsign _ (List.getElem_mem hb)
    unfold binary15Step
    rw [List.getElem?_eq_getElem hb, Option.bind_eq_bind, Option.bind_some,
      binary15Term_signless hfirst, Option.bind_eq_bind, Option.bind_some,
      binary15Term_signless hsecond, if_pos (by omega), Int.cast_add, add_assoc]
  unfold scored
  rw [hout, Option.bind_eq_bind, Option.bind_some]
  show (List.range ((q.length + 1) / 2)).foldlM (binary15Step q out) 0 = _
  rw [foldlM_score hstep, zero_add]
  have hsum : ∀ n, n * 2 ≤ q.length + 1 →
      ∑ p ∈ Finset.range n, (-1 + (if p * 2 + 1 < q.length then -1 else 0) : ℤ) =
        -(min (n * 2) q.length : ℤ) := by
    intro n
    induction n with
    | zero =>
        intro _
        simp
    | succ n ih =>
        intro hn
        rw [Finset.sum_range_succ, ih (by omega)]
        split <;> push_cast <;> omega
  rw [hsum _ (by omega), h]
  congr 2
  omega

/-! ## Exact scores -/

/-- The largest dimension that the server accepts. -/
def MAX_DIM : Nat := 65536

/-- The score is the sum of the levels under the query's signs. -/
def Exact (mode : QuantMode) (x q : List I8) : Prop :=
  ∃ s, scored mode x q = some s ∧ s.toInt = levelSum mode x q

/-- The sum fits an `i32`, and in three states no coordinate but by a multiple of `2 ^ 32`
differs from the opposite of the query's sign. -/
def Kept (mode : QuantMode) (x q : List I8) : Prop :=
  (-2 ^ 31 ≤ levelSum mode x q ∧ levelSum mode x q < 2 ^ 31) ∧
    (mode = .Binary15 → (2 ^ 32 : ℤ) ∣ levelSum mode x q + x.length)

theorem toInt_cast_eq_iff (z l : ℤ) :
    ((z : I32)).toInt = l ↔ (-2 ^ 31 ≤ l ∧ l < 2 ^ 31) ∧ (2 ^ 32 : ℤ) ∣ l - z := by
  have hbmod : ((z : I32)).toInt = z.bmod (2 ^ 32) := BitVec.toInt_ofInt z
  rw [hbmod, Int.bmod_def]
  push_cast
  split <;> omega

theorem scored_cases {mode : QuantMode} (hmode : mode.lowBit = true) {x q : List I8}
    (h : q.length = x.length) :
    mode ≠ .Binary15 ∧ scored mode x q = some (levelSum mode x q : I32) ∨
      mode = .Binary15 ∧ scored mode x q = some ((-(x.length : ℤ) : ℤ) : I32) := by
  cases mode with
  | Binary => exact Or.inl ⟨by decide, binary_scored x q h⟩
  | Binary2 => exact Or.inl ⟨by decide, binary2_scored x q h⟩
  | Binary15 => exact Or.inr ⟨rfl, binary15_scored x q h⟩
  | _ => cases hmode

theorem exact_iff_kept {mode : QuantMode} (hmode : mode.lowBit = true) {x q : List I8}
    (h : q.length = x.length) : Exact mode x q ↔ Kept mode x q := by
  have hexact : ∀ z : ℤ, scored mode x q = some (z : I32) →
      (Exact mode x q ↔ (-2 ^ 31 ≤ levelSum mode x q ∧ levelSum mode x q < 2 ^ 31) ∧
        (2 ^ 32 : ℤ) ∣ levelSum mode x q - z) := by
    intro z hz
    rw [← toInt_cast_eq_iff]
    constructor
    · rintro ⟨s, hs, heq⟩
      rw [hz, Option.some.injEq] at hs
      rw [hs]
      exact heq
    · exact fun heq => ⟨_, hz, heq⟩
  rcases scored_cases hmode h with ⟨hne, hscored⟩ | ⟨rfl, hscored⟩
  · rw [hexact _ hscored, sub_self]
    exact ⟨fun h => ⟨h.1, fun heq => absurd heq hne⟩, fun h => ⟨h.1, dvd_zero _⟩⟩
  · rw [hexact _ hscored, sub_neg_eq_add]
    exact ⟨fun h => ⟨h.1, fun _ => h.2⟩, fun h => ⟨h.1, h.2 rfl⟩⟩

/-! ## Bounds -/

theorem sign_cases (x : I8) : sign x = 1 ∨ sign x = -1 := by
  unfold sign
  split
  · exact Or.inl rfl
  · exact Or.inr rfl

theorem level_bounds (mode : QuantMode) (x : I8) : -2 ≤ level mode x ∧ level mode x ≤ 2 := by
  unfold level
  rcases sign_cases x with h | h <;> rw [h] <;> cases mode <;> simp <;> split <;> simp

theorem level_binary15_bounds (x : I8) : -1 ≤ level .Binary15 x ∧ level .Binary15 x ≤ 1 := by
  unfold level
  rcases sign_cases x with h | h <;> rw [h] <;> simp <;> split <;> simp

theorem levelSum_bounds (mode : QuantMode) (x q : List I8) :
    -(2 * x.length : ℤ) ≤ levelSum mode x q ∧ levelSum mode x q ≤ 2 * x.length := by
  have hterm : ∀ i, -2 ≤ sign (q.getD i 0) * level mode (x.getD i 0) ∧
      sign (q.getD i 0) * level mode (x.getD i 0) ≤ 2 := by
    intro i
    have := level_bounds mode (x.getD i 0)
    rcases sign_cases (q.getD i 0) with h | h <;> rw [h] <;> omega
  unfold levelSum
  constructor
  · have := Finset.card_nsmul_le_sum (Finset.range x.length)
      (fun i => sign (q.getD i 0) * level mode (x.getD i 0)) (-2) fun i _ => (hterm i).1
    rw [Finset.card_range, nsmul_eq_mul] at this
    omega
  · have := Finset.sum_le_card_nsmul (Finset.range x.length)
      (fun i => sign (q.getD i 0) * level mode (x.getD i 0)) 2 fun i _ => (hterm i).2
    rw [Finset.card_range, nsmul_eq_mul] at this
    omega

/-- In three states, what the sum has above minus the dimension. -/
theorem levelSum_binary15_add (x q : List I8) :
    levelSum .Binary15 x q + x.length =
      ∑ i ∈ Finset.range x.length, (sign (q.getD i 0) * level .Binary15 (x.getD i 0) + 1) := by
  rw [Finset.sum_add_distrib, Finset.sum_const, Finset.card_range]
  simp [levelSum]

theorem levelSum_binary15_eq_iff (x q : List I8) :
    levelSum .Binary15 x q + x.length = 0 ↔
      ∀ i, i < x.length → level .Binary15 (x.getD i 0) = -sign (q.getD i 0) := by
  have hnonneg : ∀ i ∈ Finset.range x.length,
      0 ≤ sign (q.getD i 0) * level .Binary15 (x.getD i 0) + 1 := by
    intro i _
    have := level_binary15_bounds (x.getD i 0)
    rcases sign_cases (q.getD i 0) with h | h <;> rw [h] <;> omega
  rw [levelSum_binary15_add, Finset.sum_eq_zero_iff_of_nonneg hnonneg]
  refine forall_congr' fun i => ?_
  rw [Finset.mem_range]
  refine imp_congr_right fun _ => ?_
  rcases sign_cases (q.getD i 0) with h | h <;> rw [h] <;> omega

/-- Up to the dimension that the server accepts: three states are scored right only against
a query that disagrees with every coordinate. -/
theorem exact_iff_of_dim {mode : QuantMode} (hmode : mode.lowBit = true) {x q : List I8}
    (h : q.length = x.length) (hdim : x.length ≤ MAX_DIM) :
    Exact mode x q ↔ mode ≠ .Binary15 ∨
      ∀ i, i < x.length → level mode (x.getD i 0) = -sign (q.getD i 0) := by
  have hbounds := levelSum_bounds mode x q
  unfold MAX_DIM at hdim
  rw [exact_iff_kept hmode h]
  unfold Kept
  by_cases hne : mode = .Binary15
  · subst hne
    rw [← levelSum_binary15_eq_iff]
    constructor
    · rintro ⟨-, hdvd⟩
      have := hdvd rfl
      exact Or.inr (by omega)
    · rintro (hne | hzero)
      · exact absurd rfl hne
      · exact ⟨by omega, fun _ => by rw [hzero]; exact dvd_zero _⟩
  · exact ⟨fun _ => Or.inl hne, fun _ => ⟨by omega, fun heq => absurd heq hne⟩⟩

/-! ## Telling levels apart -/

/-- In the modes with a sign bit, another sign is another level. -/
theorem level_ne_of_sign_ne {mode : QuantMode} (hmode : mode.lowBit = true)
    (hne : mode ≠ .Binary15) {x y : I8} (h : sign x ≠ sign y) : level mode x ≠ level mode y := by
  cases mode with
  | Binary => exact h
  | Binary2 =>
      unfold level
      rcases sign_cases x with hx | hx <;> rcases sign_cases y with hy | hy <;>
        rw [hx, hy] at h ⊢ <;> simp at h ⊢ <;> split <;> split <;> omega
  | Binary15 => exact absurd rfl hne
  | _ => cases hmode

/-- Turning the query's sign at one coordinate takes its level off twice. -/
theorem levelSum_flip (mode : QuantMode) (x : List I8) {i : Nat} (hi : i < x.length) :
    levelSum mode x (List.replicate x.length 0) -
        levelSum mode x ((List.replicate x.length 0).set i (-1)) =
      2 * level mode (x.getD i 0) := by
  have hzero : sign 0 = 1 := by decide
  have hminus : sign (-1) = -1 := by decide
  unfold levelSum
  rw [← Finset.sum_sub_distrib, Finset.sum_eq_single_of_mem i (Finset.mem_range.mpr hi)]
  · have hat : ((List.replicate x.length (0 : I8)).set i (-1)).getD i 0 = -1 := by
      simp [List.getD_eq_getElem?_getD, hi]
    have hon : (List.replicate x.length (0 : I8)).getD i 0 = 0 := by
      simp [List.getD_eq_getElem?_getD, hi]
    rw [hat, hminus, hon, hzero]
    ring
  · intro j hj hne
    have hoff : ((List.replicate x.length (0 : I8)).set i (-1)).getD j 0 =
        (List.replicate x.length (0 : I8)).getD j 0 := by
      simp [List.getD_eq_getElem?_getD, List.getElem?_set_ne (Ne.symm hne)]
    rw [hoff, sub_self]

theorem queries_distinguish_iff {mode : QuantMode} (hmode : mode.lowBit = true)
    {x y : List I8} {i : Nat} (h : y.length = x.length) (hi : i < x.length)
    (hdiff : level mode (x.getD i 0) ≠ level mode (y.getD i 0) ∨
      sign (x.getD i 0) ≠ sign (y.getD i 0)) :
    (∃ q, q.length = x.length ∧ scored mode x q ≠ scored mode y q) ↔ mode ≠ .Binary15 := by
  constructor
  · rintro ⟨q, hq, hne⟩ rfl
    rw [binary15_scored x q hq, binary15_scored y q (hq.trans h.symm), h] at hne
    exact hne rfl
  · intro hne
    by_contra hsame
    have hsame : ∀ q, q.length = x.length → scored mode x q = scored mode y q := by
      intro q hq
      by_contra hq'
      exact hsame ⟨q, hq, hq'⟩
    have hlevel : level mode (x.getD i 0) ≠ level mode (y.getD i 0) := by
      rcases hdiff with hdiff | hdiff
      · exact hdiff
      · exact level_ne_of_sign_ne hmode hne hdiff
    have hcast : ∀ q, q.length = x.length →
        (levelSum mode x q : I32) = (levelSum mode y q : I32) := by
      intro q hq
      have := hsame q hq
      rcases scored_cases hmode hq with ⟨-, hx⟩ | ⟨heq, -⟩
      · rcases scored_cases hmode (hq.trans h.symm) with ⟨-, hy⟩ | ⟨heq, -⟩
        · rw [hx, hy] at this
          exact Option.some.inj this
        · exact absurd heq hne
      · exact absurd heq hne
    -- the two queries differ at the coordinate alone
    have hplus := hcast (List.replicate x.length 0) (by simp)
    have hminus := hcast ((List.replicate x.length 0).set i (-1)) (by simp)
    have hflipx := congrArg (fun z : ℤ => (z : I32)) (levelSum_flip mode x hi)
    have hflipy := congrArg (fun z : ℤ => (z : I32)) (levelSum_flip mode y (h ▸ hi))
    simp only [Int.cast_sub] at hflipx hflipy
    rw [h] at hflipy
    rw [hplus, hminus, hflipy] at hflipx
    have hint := congrArg BitVec.toInt hflipx
    rw [(toInt_cast_eq_iff _ (2 * level mode (y.getD i 0))).mpr
        ⟨by have := level_bounds mode (y.getD i 0); omega, by simp⟩,
      (toInt_cast_eq_iff _ (2 * level mode (x.getD i 0))).mpr
        ⟨by have := level_bounds mode (x.getD i 0); omega, by simp⟩] at hint
    omega

/-- Packing and scoring are inverse views of one quantiser exactly in the modes of one and of
two bits: there every score is the sum over the coordinates, as far as an `i32` holds it, and
vectors of different levels are told apart.  In three states a score is right only where
every coordinate disagrees with the query, and no query tells vectors apart. -/
theorem quantiser_iff (mode : QuantMode) (hmode : mode.lowBit = true) :
    (∀ x q : List I8, q.length = x.length → (Exact mode x q ↔ Kept mode x q)) ∧
    (∀ x q : List I8, q.length = x.length → x.length ≤ MAX_DIM →
      (Exact mode x q ↔ mode ≠ .Binary15 ∨
        ∀ i, i < x.length → level mode (x.getD i 0) = -sign (q.getD i 0))) ∧
    (∀ (x y : List I8) (i : Nat), y.length = x.length → i < x.length →
      (level mode (x.getD i 0) ≠ level mode (y.getD i 0) ∨
        sign (x.getD i 0) ≠ sign (y.getD i 0)) →
      ((∃ q, q.length = x.length ∧ scored mode x q ≠ scored mode y q) ↔ mode ≠ .Binary15)) :=
  ⟨fun _ _ => exact_iff_kept hmode, fun _ _ => exact_iff_of_dim hmode,
    fun _ _ _ => queries_distinguish_iff hmode⟩

theorem quantiser_iff_binary15 :
    (∀ x q : List I8, q.length = x.length → (Exact .Binary15 x q ↔ Kept .Binary15 x q)) ∧
    (∀ x q : List I8, q.length = x.length → x.length ≤ MAX_DIM →
      (Exact .Binary15 x q ↔ QuantMode.Binary15 ≠ .Binary15 ∨
        ∀ i, i < x.length → level .Binary15 (x.getD i 0) = -sign (q.getD i 0))) ∧
    (∀ (x y : List I8) (i : Nat), y.length = x.length → i < x.length →
      (level .Binary15 (x.getD i 0) ≠ level .Binary15 (y.getD i 0) ∨
        sign (x.getD i 0) ≠ sign (y.getD i 0)) →
      ((∃ q, q.length = x.length ∧ scored .Binary15 x q ≠ scored .Binary15 y q) ↔
        QuantMode.Binary15 ≠ .Binary15)) :=
  quantiser_iff .Binary15 rfl

/-- In three states a strong coordinate loses its sign: it scores against itself as against
its opposite, and no query of one dimension tells the two apart. -/
theorem strong_sign_lost :
    ¬ Exact .Binary15 [127#8] [127#8] ∧
      level .Binary15 127#8 ≠ level .Binary15 (-127#8) ∧
      ∀ q, q.length = 1 → scored .Binary15 [127#8] q = scored .Binary15 [-127#8] q := by
  refine ⟨?_, by decide, ?_⟩
  · rintro ⟨s, hs, heq⟩
    rw [binary15_scored [127#8] [127#8] rfl, Option.some.injEq] at hs
    rw [← hs] at heq
    revert heq
    decide
  · intro q hq
    rw [binary15_scored [127#8] q hq, binary15_scored [-127#8] q hq]
    rfl

end Vectors
end StrikeDB
