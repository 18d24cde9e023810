import Mathlib.Data.List.Lex
import Mathlib.Data.Prod.Lex
import Mathlib.Order.WithBot
import StrikeDB.Bytes
import StrikeDB.SortedPairs
import StrikeDB.Text

/-!
# StrikeDB: conflict-free replicated data types

The grow-only counter, the counter that goes both ways and the last-writer-wins
register, each with its `merge` and the encoding in which it is stored and sent.

**Results.**
* `GCounter.merge_comm`, `GCounter.merge_assoc`, `GCounter.merge_self`, and the
  same for `PnCounter`: merging takes, for every node, the larger count.
* `LwwRegister.merge_assoc`, `LwwRegister.merge_self`, `LwwRegister.merge_comm`:
  merging keeps the larger stamp; which register is kept under equal stamps
  depends on the order.
* `GCounter.from_bytes_to_bytes`, `PnCounter.from_bytes_to_bytes`,
  `LwwRegister.from_bytes_to_bytes`: what fits the length fields is read back.
-/

namespace StrikeDB
namespace Crdt

/-- A `u64`. -/
abbrev U64 := Fin (2 ^ 64)

instance neZero_u64 : NeZero (2 ^ 64) := ⟨by decide⟩

def U64_MAX : U64 := ⟨2 ^ 64 - 1, by decide⟩

def saturating_add (a b : U64) : U64 :=
  if h : a.val + b.val < 2 ^ 64 then ⟨a.val + b.val, h⟩ else U64_MAX

theorem saturating_add_val (a b : U64) :
    (saturating_add a b).val = min (2 ^ 64 - 1) (a.val + b.val) := by
  unfold saturating_add
  split
  · show a.val + b.val = _
    omega
  · show 2 ^ 64 - 1 = _
    omega

/-- A `String`: bytes that are UTF-8. -/
@[ext] structure Name where
  bytes : Text
  utf8 : Text.from_utf8_lossy bytes = bytes
deriving DecidableEq

namespace Name

/-- Strings are ordered by their bytes. -/
def key (n : Name) : List Nat := n.bytes.map UInt8.toNat

theorem key_injective : Function.Injective key := by
  intro m n h
  have hbytes : m.bytes = n.bytes :=
    List.map_injective_iff.mpr (fun _ _ h => UInt8.toNat_inj.mp h) h
  exact Name.ext hbytes

instance : LinearOrder Name := LinearOrder.lift' key key_injective

instance trans_name : Std.TransCmp (@compare Name _) := inferInstance

instance : Std.LawfulEqOrd Name where
  eq_of_compare h := compare_eq_iff_eq.mp h

/-- `String::from_utf8`: the strict reading accepts what the lossy one leaves
alone. -/
def from_utf8 (b : Bytes) : Option Name :=
  if h : Text.from_utf8_lossy b = b then some ⟨b, h⟩ else none

theorem from_utf8_bytes (n : Name) : from_utf8 n.bytes = some n := by
  simp [from_utf8, n.utf8]

end Name

namespace Reader

def u32 (b : Bytes) : Option (Nat × Bytes) := getUInt 4 b

def u64 (b : Bytes) : Option (U64 × Bytes) :=
  (getUInt 8 b).map fun r => (Fin.ofNat (2 ^ 64) r.1, r.2)

def bytes (b : Bytes) : Option (Bytes × Bytes) :=
  (u32 b).bind fun r => getBytes r.1 r.2

def name (b : Bytes) : Option (Name × Bytes) :=
  (bytes b).bind fun r => (Name.from_utf8 r.1).map fun n => (n, r.2)

theorem u64_leBytes (c : U64) (rest : Bytes) :
    u64 (leBytes 8 c.val ++ rest) = some (c, rest) := by
  have hc : c.val < 256 ^ 8 := c.isLt
  rw [u64, getUInt_leBytes_append 8 c.val hc]
  simp

/-- A length field of four bytes, as `to_bytes` writes it: `len() as u32`. -/
def lengthPrefixed (n : Name) : Bytes := leBytes 4 n.bytes.length ++ n.bytes

theorem name_lengthPrefixed (n : Name) (h : n.bytes.length < 2 ^ 32) (rest : Bytes) :
    name (lengthPrefixed n ++ rest) = some (n, rest) := by
  have hlen : n.bytes.length < 256 ^ 4 := h
  have hbytes : bytes (lengthPrefixed n ++ rest) = some (n.bytes, rest) := by
    rw [bytes, u32, lengthPrefixed, List.append_assoc, getUInt_leBytes_append 4 _ hlen]
    exact getBytes_append n.bytes rest
  rw [name, hbytes]
  simp [Name.from_utf8_bytes]

end Reader

/-- Grow-only counter: per-node increments, value = sum across nodes. -/
@[ext] structure GCounter where
  counts : Std.ExtTreeMap Name U64
deriving DecidableEq

namespace GCounter

def new : GCounter := ⟨∅⟩

def incr (g : GCounter) (node : Name) (amount : U64) : GCounter :=
  ⟨g.counts.insert node (saturating_add (g.counts.getD node 0) amount)⟩

/-- The counts are added in the order of the map's iterator; `foldl_perm` says
that any order gives the same. -/
def value (g : GCounter) : U64 :=
  (g.counts.toList.map Prod.snd).foldl saturating_add 0

def entryBytes (e : Name × U64) : Bytes := Reader.lengthPrefixed e.1 ++ leBytes 8 e.2.val

/-- `[n:u32]` then per node `[len:u32][name][count:u64]`, the nodes sorted. -/
def to_bytes (g : GCounter) : Bytes :=
  leBytes 4 g.counts.toList.length ++ g.counts.toList.flatMap entryBytes

def readNodes : Nat → Std.ExtTreeMap Name U64 → Bytes → Option (Std.ExtTreeMap Name U64 × Bytes)
  | 0, counts, b => some (counts, b)
  | n + 1, counts, b =>
      match Reader.name b with
      | none => none
      | some (name, b) =>
        match Reader.u64 b with
        | none => none
        | some (count, b) => readNodes n (counts.insert name count) b

def read (b : Bytes) : Option (GCounter × Bytes) :=
  match Reader.u32 b with
  | none => none
  | some (n, b) => (readNodes n ∅ b).map fun r => (⟨r.1⟩, r.2)

def from_bytes (b : Bytes) : Option GCounter :=
  match read b with
  | none => none
  | some (g, rest) => if rest.isEmpty then some g else none

/-- Per-node max. -/
def merge (g other : GCounter) : GCounter :=
  ⟨other.counts.toList.foldl (fun m e => m.insert e.1 (max (m.getD e.1 0) e.2)) g.counts⟩

/-- The count of one node, below every count when the node has none. -/
def view (g : GCounter) (node : Name) : WithBot U64 := g.counts[node]?

theorem ext_view {g h : GCounter} (heq : ∀ node, g.view node = h.view node) : g = h := by
  apply GCounter.ext
  apply Std.ExtTreeMap.ext_getElem?
  exact heq

@[simp] theorem view_new (node : Name) : new.view node = ⊥ := by
  show (∅ : Std.ExtTreeMap Name U64)[node]? = none
  simp

theorem view_incr (g : GCounter) (node other : Name) (amount : U64) :
    (g.incr node amount).view other =
      if node = other then
        ((saturating_add (g.counts.getD node 0) amount : U64) : WithBot U64)
      else g.view other := by
  show (g.counts.insert node _)[other]? = _
  simp only [Std.ExtTreeMap.getElem?_insert, Std.LawfulEqCmp.compare_eq_iff_eq]
  split <;> rfl

/-! ## Merging -/

section Merge

/-- One round of the loop of `merge`. -/
theorem view_insert_max (m : Std.ExtTreeMap Name U64) (e : Name × U64) (node : Name) :
    view ⟨m.insert e.1 (max (m.getD e.1 0) e.2)⟩ node =
      if e.1 = node then max (view ⟨m⟩ node) (e.2 : WithBot U64) else view ⟨m⟩ node := by
  by_cases heq : e.1 = node
  · subst heq
    rw [if_pos rfl]
    simp only [view, Std.ExtTreeMap.getElem?_insert_self, Std.ExtTreeMap.getD_eq_getD_getElem?]
    cases m[e.1]? with
    | none =>
        show ((max 0 e.2 : U64) : WithBot U64) = max ⊥ (e.2 : WithBot U64)
        rw [max_eq_right (Fin.zero_le e.2), max_eq_right bot_le]
    | some v =>
        show ((max v e.2 : U64) : WithBot U64) = max (v : WithBot U64) (e.2 : WithBot U64)
        exact WithBot.coe_max v e.2
  · rw [if_neg heq]
    simp only [view, Std.ExtTreeMap.getElem?_insert, Std.LawfulEqCmp.compare_eq_iff_eq, heq,
      if_false]
    rfl

theorem view_fold_le
    (l : List (Name × U64)) (m : Std.ExtTreeMap Name U64) (node : Name) (bound : WithBot U64) :
    view ⟨l.foldl (fun m e => m.insert e.1 (max (m.getD e.1 0) e.2)) m⟩ node ≤ bound ↔
      view ⟨m⟩ node ≤ bound ∧ ∀ e ∈ l, e.1 = node → (e.2 : WithBot U64) ≤ bound := by
  induction l generalizing m with
  | nil => simp
  | cons e l ih =>
      rw [List.foldl_cons, ih, view_insert_max]
      by_cases heq : e.1 = node
      · simp only [heq, if_true, max_le_iff, List.mem_cons, forall_eq_or_imp, true_implies]
        exact and_assoc
      · simp only [heq, if_false, List.mem_cons, forall_eq_or_imp, false_implies, true_and]

theorem mem_toList_iff_view {g : GCounter} {node : Name} {count : U64} :
    (node, count) ∈ g.counts.toList ↔ g.view node = count :=
  Std.ExtTreeMap.mem_toList_iff_getElem?_eq_some

@[simp] theorem view_merge (g h : GCounter) (node : Name) :
    (g.merge h).view node = max (g.view node) (h.view node) := by
  refine eq_of_forall_ge_iff fun bound => ?_
  rw [max_le_iff]
  refine (view_fold_le h.counts.toList g.counts node bound).trans (and_congr_right fun _ => ?_)
  constructor
  · intro hall
    cases hv : h.view node with
    | bot => exact bot_le
    | coe v => exact hall (node, v) (mem_toList_iff_view.mpr hv) rfl
  · intro hle e he hnode
    subst hnode
    exact (mem_toList_iff_view.mp he) ▸ hle

theorem merge_comm (g h : GCounter) : g.merge h = h.merge g := by
  apply ext_view
  intro node
  rw [view_merge, view_merge, max_comm]

theorem merge_assoc (g h k : GCounter) : (g.merge h).merge k = g.merge (h.merge k) := by
  apply ext_view
  intro node
  simp only [view_merge, max_assoc]

theorem merge_self (g : GCounter) : g.merge g = g := by
  apply ext_view
  intro node
  rw [view_merge, max_self]

end Merge

/-! ## The encoding -/

section Encoding

/-- The lengths that `to_bytes` writes fit their four bytes. -/
structure Fits (g : GCounter) : Prop where
  nodes : g.counts.toList.length < 2 ^ 32
  names : ∀ e ∈ g.counts.toList, e.1.bytes.length < 2 ^ 32

theorem readNodes_entries
    (l : List (Name × U64)) (m : Std.ExtTreeMap Name U64) (rest : Bytes)
    (hnames : ∀ e ∈ l, e.1.bytes.length < 2 ^ 32) :
    readNodes l.length m (l.flatMap entryBytes ++ rest) =
      some (l.foldl (fun m e => m.insert e.1 e.2) m, rest) := by
  induction l generalizing m with
  | nil => rfl
  | cons e l ih =>
      have hname := Reader.name_lengthPrefixed e.1 (hnames e List.mem_cons_self)
      rw [List.flatMap_cons, List.length_cons, readNodes, entryBytes, List.append_assoc,
        List.append_assoc, hname]
      simp only [Reader.u64_leBytes]
      exact ih _ fun e he => hnames e (List.mem_cons_of_mem _ he)

theorem foldl_insert_toList (m : Std.ExtTreeMap Name U64) :
    m.toList.foldl (fun m e => m.insert e.1 e.2) ∅ = m := by
  rw [← Std.ExtTreeMap.ofList_eq_foldl]
  apply Std.ExtTreeMap.ext_getElem?
  intro k
  have hdistinct := Std.ExtTreeMap.distinct_keys_toList (t := m)
  cases hv : m[k]? with
  | none =>
      refine Std.ExtTreeMap.getElem?_ofList_of_contains_eq_false ?_
      rw [Bool.eq_false_iff]
      intro hmem
      obtain ⟨e, he, heq⟩ := List.mem_map.mp (List.contains_iff_mem.mp hmem)
      have hsome := Std.ExtTreeMap.mem_toList_iff_getElem?_eq_some.mp he
      rw [heq, hv] at hsome
      cases hsome
  | some v =>
      exact Std.ExtTreeMap.getElem?_ofList_of_mem (Std.LawfulEqCmp.compare_eq_iff_eq.mpr rfl)
        hdistinct (Std.ExtTreeMap.mem_toList_iff_getElem?_eq_some.mpr hv)

theorem read_to_bytes (g : GCounter) (h : g.Fits) (rest : Bytes) :
    read (g.to_bytes ++ rest) = some (g, rest) := by
  have hcount : Reader.u32 (g.to_bytes ++ rest) =
      some (g.counts.toList.length, g.counts.toList.flatMap entryBytes ++ rest) := by
    rw [to_bytes, List.append_assoc]
    exact getUInt_leBytes_append 4 _ h.nodes _
  rw [read, hcount]
  simp only [readNodes_entries _ _ _ h.names, foldl_insert_toList, Option.map_some]

/-- What fits the length fields is read back. -/
theorem from_bytes_to_bytes (g : GCounter) (h : g.Fits) : from_bytes g.to_bytes = some g := by
  have hread := read_to_bytes g h []
  rw [List.append_nil] at hread
  rw [from_bytes, hread]
  rfl

end Encoding

/-! ## The value -/

theorem foldl_saturating_add_val (l : List U64) (a : U64) :
    (l.foldl saturating_add a).val = min (2 ^ 64 - 1) (a.val + (l.map Fin.val).sum) := by
  induction l generalizing a with
  | nil =>
      have ha := a.isLt
      simp only [List.foldl_nil, List.map_nil, List.sum_nil]
      omega
  | cons b l ih =>
      rw [List.foldl_cons, ih, saturating_add_val, List.map_cons, List.sum_cons]
      omega

theorem value_val (g : GCounter) :
    g.value.val = min (2 ^ 64 - 1) ((g.counts.toList.map fun e => e.2.val).sum) := by
  rw [value, foldl_saturating_add_val, List.map_map]
  simp only [Fin.val_zero, Nat.zero_add]
  rfl

end GCounter

/-- Positive-negative counter: two GCounters, value = P - N. -/
@[ext] structure PnCounter where
  p : GCounter
  n : GCounter
deriving DecidableEq

namespace PnCounter

def new : PnCounter := ⟨.new, .new⟩

def incr (c : PnCounter) (node : Name) (amount : U64) : PnCounter :=
  { c with p := c.p.incr node amount }

def decr (c : PnCounter) (node : Name) (amount : U64) : PnCounter :=
  { c with n := c.n.incr node amount }

/-- The difference, clamped to an `i64`. -/
def clamp (i : Int) : Int := max (-(2 ^ 63)) (min i (2 ^ 63 - 1))

def value (c : PnCounter) : Int := clamp ((c.p.value.val : Int) - (c.n.value.val : Int))

def to_bytes (c : PnCounter) : Bytes := c.p.to_bytes ++ c.n.to_bytes

def from_bytes (b : Bytes) : Option PnCounter :=
  match GCounter.read b with
  | none => none
  | some (p, b) =>
    match GCounter.read b with
    | none => none
    | some (n, rest) => if rest.isEmpty then some ⟨p, n⟩ else none

def merge (c other : PnCounter) : PnCounter := ⟨c.p.merge other.p, c.n.merge other.n⟩

theorem merge_comm (c d : PnCounter) : c.merge d = d.merge c :=
  PnCounter.ext (GCounter.merge_comm c.p d.p) (GCounter.merge_comm c.n d.n)

theorem merge_assoc (c d e : PnCounter) : (c.merge d).merge e = c.merge (d.merge e) :=
  PnCounter.ext (GCounter.merge_assoc c.p d.p e.p) (GCounter.merge_assoc c.n d.n e.n)

theorem merge_self (c : PnCounter) : c.merge c = c :=
  PnCounter.ext (GCounter.merge_self c.p) (GCounter.merge_self c.n)

theorem from_bytes_to_bytes (c : PnCounter) (hp : c.p.Fits) (hn : c.n.Fits) :
    from_bytes c.to_bytes = some c := by
  have hread := GCounter.read_to_bytes c.n hn []
  rw [List.append_nil] at hread
  rw [from_bytes, to_bytes, GCounter.read_to_bytes c.p hp]
  simp only [hread]
  rfl

end PnCounter

/-- Last-writer-wins register, ordered by (timestamp, node) for deterministic
ties. -/
@[ext] structure LwwRegister where
  value : Bytes
  ts : U64
  node : Name
deriving DecidableEq

namespace LwwRegister

def new (value : Bytes) (ts : U64) (node : Name) : LwwRegister := ⟨value, ts, node⟩

/-- What two registers are compared by. -/
def stamp (r : LwwRegister) : U64 ×ₗ Name := toLex (r.ts, r.node)

def set (r : LwwRegister) (value : Bytes) (ts : U64) (node : Name) : LwwRegister :=
  if toLex (ts, node) > r.stamp then ⟨value, ts, node⟩ else r

/-- `[ts:u64][len:u32][node][value...]` -/
def to_bytes (r : LwwRegister) : Bytes :=
  leBytes 8 r.ts.val ++ Reader.lengthPrefixed r.node ++ r.value

def from_bytes (b : Bytes) : Option LwwRegister :=
  match Reader.u64 b with
  | none => none
  | some (ts, b) => (Reader.name b).map fun r => ⟨r.2, ts, r.1⟩

def merge (r other : LwwRegister) : LwwRegister :=
  if other.stamp > r.stamp then other else r

theorem merge_choice (r s : LwwRegister) : r.merge s = r ∨ r.merge s = s := by
  unfold merge
  split
  · exact Or.inr rfl
  · exact Or.inl rfl

theorem stamp_merge (r s : LwwRegister) : (r.merge s).stamp = max r.stamp s.stamp := by
  unfold merge
  split
  · rename_i hlt
    exact (max_eq_right (le_of_lt hlt)).symm
  · rename_i hlt
    exact (max_eq_left (not_lt.mp hlt)).symm

theorem merge_self (r : LwwRegister) : r.merge r = r := by
  simp [merge]

theorem merge_assoc (r s t : LwwRegister) : (r.merge s).merge t = r.merge (s.merge t) := by
  unfold merge
  grind

/-- Two registers with the same stamp must hold the same value for the order not
to matter. -/
theorem merge_comm (r s : LwwRegister) (h : r.stamp = s.stamp → r = s) :
    r.merge s = s.merge r := by
  unfold merge
  rcases lt_trichotomy r.stamp s.stamp with hlt | heq | hgt
  · rw [if_pos hlt, if_neg (not_lt.mpr (le_of_lt hlt))]
  · rw [h heq]
  · rw [if_neg (not_lt.mpr (le_of_lt hgt)), if_pos hgt]

theorem from_bytes_to_bytes (r : LwwRegister) (h : r.node.bytes.length < 2 ^ 32) :
    from_bytes r.to_bytes = some r := by
  rw [from_bytes, to_bytes, List.append_assoc, Reader.u64_leBytes]
  simp only [Reader.name_lengthPrefixed r.node h, Option.map_some]

end LwwRegister

end Crdt
end StrikeDB
