import Mathlib
import StrikeDB.ByteOrder
import StrikeDB.Mutation
import StrikeDB.Text

/-!
# StrikeDB: the records of the long-term memory

What `ltm_store_temporal`, `ltm_forget`, `ltm_invalidate` and `touch_salience` keep: the
text and the meta data of every record, a keyword posting for every token of its text,
and the index in memory with the scope, the salience and the validity window of every
record and one arena of normalised vectors for every owner.

Embeddings and scores are numbers of an ordered field, with a square root and a logarithm
that nothing is assumed of.  The Unicode tables of the standard library come as a
parameter; all that matters of them is that a colon is not alphanumeric.

`Book` is the list of the stored records, without any index.

**Results.**
* `Arena.Holds.push`, `Arena.Holds.remove`: an arena holds the vectors of its owner.
-/

namespace StrikeDB
namespace Recall

/-! ## Texts -/

/-- The parts of the standard library's Unicode tables that `tokenize` uses. -/
structure Unicode where
  to_lowercase : List Char → List Char
  is_alphanumeric : Char → Bool
  colon : is_alphanumeric ':' = false

def stopWords : List (List Char) :=
  ["the", "a", "an", "and", "or", "but", "of", "to", "in", "on", "for", "is", "are", "was",
    "were", "it", "this", "that", "with", "as", "at", "by", "be", "from", "we", "you",
    "they"].map String.toList

def bytesOf (s : List Char) : Bytes := Value.strBytes (String.ofList s)

/-- Lowercase, split on non-alphanumeric characters, drop short parts and stop words. -/
def tokenize (u : Unicode) (text : List Char) : List (List Char) :=
  ((u.to_lowercase text).splitOnP fun c => !u.is_alphanumeric c).filter fun s =>
    3 ≤ (bytesOf s).length ∧ s ∉ stopWords

def COLON : UInt8 := 0x3a

/-- `mem:kw:<token>:`. -/
def kwPrefix (token : List Char) : Bytes := utf8 "mem:kw:" ++ (bytesOf token ++ [COLON])

def kw_key (token : List Char) (id : Nat) : Key := kwPrefix token ++ beBytes 8 id

/-! ## Records -/

/-- Provenance, importance and bi-temporal validity of one record. -/
structure Meta (F : Type) where
  source : String
  created_ts : Nat
  salience : F
  lineage : String
  /-- World-time the fact became true. -/
  valid_from : Nat
  /-- World-time it stopped (0 = still valid). -/
  valid_to : Nat
  owner : String

/-- Per-record facts recall needs while scoring. -/
structure RecInfo (F : Type) where
  sal : F
  owner : Nat
  valid_from : Nat
  valid_to : Nat

def validAt (valid_from valid_to at_ : Nat) : Bool :=
  (valid_from = 0 || valid_from ≤ at_) && (valid_to = 0 || at_ < valid_to)

def RecInfo.valid_at {F : Type} (r : RecInfo F) (at_ : Nat) : Bool :=
  validAt r.valid_from r.valid_to at_

/-- Normalised vectors of one owner: `ids` and `vecs` of the source, row by row. -/
structure Arena (F : Type) where
  rows : List (Nat × List F)
  pos : Nat → Option Nat
  dim : Nat

def Arena.empty (F : Type) : Arena F := { rows := [], pos := fun _ => none, dim := 0 }

structure RecIndex (F : Type) where
  owners : List String
  owner_ids : String → Option Nat
  recs : Std.ExtTreeMap Nat (RecInfo F)
  arenas : Nat → Option (Arena F)

def RecIndex.empty (F : Type) : RecIndex F :=
  { owners := [], owner_ids := fun _ => none, recs := ∅, arenas := fun _ => none }

/-- The long-term memory: the keys `mem:ltm:`, `mem:meta:` and `mem:kw:` of the store and
what is kept of them in memory. -/
structure LongTerm (F : Type) where
  ltm : Std.ExtTreeMap Nat (List Char)
  metas : Std.ExtTreeMap Nat (Meta F)
  kw : List Key
  next_id : Nat
  ltm_count : Nat
  idx : RecIndex F

def LongTerm.empty (F : Type) : LongTerm F :=
  { ltm := ∅, metas := ∅, kw := [], next_id := 1, ltm_count := 0, idx := RecIndex.empty F }

section Index

variable {F : Type} [Field F] [LinearOrder F] (sqrt : F → F)

/-! ## Vectors -/

def normalize (v : List F) : List F :=
  let n := sqrt (v.map fun x => x * x).sum
  if 0 < n then v.map fun x => x * (1 / n) else v

/-- The dot product; in exact arithmetic its eight lanes make no difference. -/
def dot8 (a b : List F) : F := (List.zipWith (fun x y => x * y) a b).sum

/-! ## Arenas -/

namespace Arena

def push (a : Arena F) (id : Nat) (v : List F) : Arena F :=
  if v = [] ∨ (a.dim ≠ 0 ∧ v.length ≠ a.dim) ∨ (a.pos id).isSome then a
  else
    { rows := a.rows ++ [(id, normalize sqrt v)]
      pos := Function.update a.pos id (some a.rows.length)
      dim := v.length }

omit [Field F] [LinearOrder F] in
/-- The last row takes the place of the one that goes. -/
def remove (a : Arena F) (id : Nat) : Arena F :=
  match a.pos id with
  | none => a
  | some i =>
      match a.rows[a.rows.length - 1]? with
      | none => a
      | some moved =>
          let pos := Function.update a.pos id none
          { a with
            rows := (a.rows.set i moved).dropLast
            pos := if i = a.rows.length - 1 then pos
              else Function.update pos moved.1 (some i) }

end Arena

/-! ## The index in memory -/

namespace RecIndex

omit [Field F] [LinearOrder F] in
def intern (idx : RecIndex F) (owner : String) : RecIndex F × Nat :=
  match idx.owner_ids owner with
  | some i => (idx, i)
  | none =>
      let i := idx.owners.length
      ({ idx with
        owners := idx.owners ++ [owner]
        owner_ids := Function.update idx.owner_ids owner (some i) }, i)

def insert (idx : RecIndex F) (id : Nat) (meta_ : Meta F) (vector : List F) : RecIndex F :=
  let r := idx.intern meta_.owner
  { r.1 with
    recs := r.1.recs.insert id
      { sal := meta_.salience, owner := r.2, valid_from := meta_.valid_from
        valid_to := meta_.valid_to }
    arenas := Function.update r.1.arenas r.2
      (some (((r.1.arenas r.2).getD (Arena.empty F)).push sqrt id vector)) }

omit [Field F] [LinearOrder F] in
def remove (idx : RecIndex F) (id : Nat) : RecIndex F :=
  match idx.recs[id]? with
  | none => idx
  | some info =>
      { idx with
        recs := idx.recs.erase id
        arenas := match idx.arenas info.owner with
          | none => idx.arenas
          | some a => Function.update idx.arenas info.owner (some (a.remove id)) }

omit [Field F] [LinearOrder F] in
/-- `recs.get_mut(&id)`, changed by `f`. -/
def update (idx : RecIndex F) (id : Nat) (f : RecInfo F → RecInfo F) : RecIndex F :=
  match idx.recs[id]? with
  | none => idx
  | some info => { idx with recs := idx.recs.insert id (f info) }

end RecIndex

/-! ## Operations -/

/-- What changes the records.  `ts` is the engine's clock. -/
inductive Op (F : Type) where
  | ltm_store_temporal (text : List Char) (vector : List F) (source : String) (salience : F)
      (lineage : String) (valid_from valid_to : Nat) (owner : String) (ts : Nat)
  | ltm_forget (id : Nat)
  | ltm_invalidate (id invalid_at : Nat)
  | touch_salience (id : Nat) (delta : F)

namespace LongTerm

/-- The id is a `u64` that never runs out. -/
def store (u : Unicode) (m : LongTerm F) (text : List Char) (vector : List F) (meta_ : Meta F) :
    LongTerm F :=
  let id := m.next_id
  if 2 ^ 64 ≤ id + 1 then m
  else
    { ltm := m.ltm.insert id text
      metas := m.metas.insert id meta_
      kw := (tokenize u text).foldl (fun kw tok => kw.insert (kw_key tok id)) m.kw
      next_id := id + 1
      ltm_count := m.ltm_count + 1
      idx := m.idx.insert sqrt id meta_ vector }

omit [Field F] [LinearOrder F] in
/-- `ltm_get_light`: text and meta data, if both are there. -/
def get (m : LongTerm F) (id : Nat) : Option (List Char × Meta F) :=
  m.ltm[id]?.bind fun text => m.metas[id]?.map fun meta_ => (text, meta_)

omit [Field F] [LinearOrder F] in
def ltm_forget (u : Unicode) (m : LongTerm F) (id : Nat) : LongTerm F :=
  match m.get id with
  | none => { m with ltm := m.ltm.erase id, metas := m.metas.erase id }
  | some (text, _) =>
      { m with
        ltm := m.ltm.erase id
        metas := m.metas.erase id
        kw := (tokenize u text).foldl (fun kw tok => kw.erase (kw_key tok id)) m.kw
        ltm_count := m.ltm_count - 1
        idx := m.idx.remove id }

omit [Field F] [LinearOrder F] in
/-- Rewrite the meta data of a record, and its entry in the index. -/
def amend (m : LongTerm F) (id : Nat) (f : Meta F → Meta F) (g : RecInfo F → RecInfo F) :
    LongTerm F :=
  match m.get id with
  | none => m
  | some (_, meta_) =>
      { m with metas := m.metas.insert id (f meta_), idx := m.idx.update id g }

def apply (u : Unicode) (m : LongTerm F) : Op F → LongTerm F
  | .ltm_store_temporal text vector source salience lineage valid_from valid_to owner ts =>
      m.store sqrt u text vector
        { source := source, created_ts := ts, salience := salience, lineage := lineage
          valid_from := if valid_from = 0 then ts else valid_from
          valid_to := valid_to, owner := owner }
  | .ltm_forget id => m.ltm_forget u id
  | .ltm_invalidate id invalid_at =>
      m.amend id (fun meta_ => { meta_ with valid_to := invalid_at })
        fun info => { info with valid_to := invalid_at }
  | .touch_salience id delta =>
      match m.get id with
      | none => m
      | some (_, meta_) =>
          let new_sal := max 0 (min 1 (meta_.salience + delta))
          m.amend id (fun meta_ => { meta_ with salience := new_sal })
            fun info => { info with sal := new_sal }

/-- The memory after a sequence of operations. -/
def run (u : Unicode) (ops : List (Op F)) : LongTerm F :=
  ops.foldl (fun m op => m.apply sqrt u op) (LongTerm.empty F)

end LongTerm

/-! ## The stored records -/

/-- A stored record. -/
structure Entry (F : Type) where
  id : Nat
  text : List Char
  vec : List F
  meta_ : Meta F

/-- What the operations have stored and not forgotten. -/
structure Book (F : Type) where
  next_id : Nat
  entries : List (Entry F)

omit [Field F] [LinearOrder F] in
/-- Change the meta data of one record. -/
def Entry.amend (id : Nat) (f : Meta F → Meta F) (x : Entry F) : Entry F :=
  if x.id = id then { x with meta_ := f x.meta_ } else x

namespace Book

omit [Field F] [LinearOrder F] in
def amend (b : Book F) (id : Nat) (f : Meta F → Meta F) : Book F :=
  { b with entries := b.entries.map (Entry.amend id f) }

def apply (b : Book F) : Op F → Book F
  | .ltm_store_temporal text vector source salience lineage valid_from valid_to owner ts =>
      if 2 ^ 64 ≤ b.next_id + 1 then b
      else
        { next_id := b.next_id + 1
          entries := b.entries ++ [{
            id := b.next_id, text := text, vec := vector
            meta_ :=
              { source := source, created_ts := ts, salience := salience, lineage := lineage
                valid_from := if valid_from = 0 then ts else valid_from
                valid_to := valid_to, owner := owner } }] }
  | .ltm_forget id => { b with entries := b.entries.filter fun x => x.id ≠ id }
  | .ltm_invalidate id invalid_at =>
      b.amend id fun meta_ => { meta_ with valid_to := invalid_at }
  | .touch_salience id delta =>
      b.amend id fun meta_ => { meta_ with salience := max 0 (min 1 (meta_.salience + delta)) }

/-- What is stored after a sequence of operations. -/
def run (ops : List (Op F)) : Book F :=
  ops.foldl Book.apply { next_id := 1, entries := [] }

end Book

/-! ## Arenas hold the vectors of their owner -/

omit [Field F] [LinearOrder F] in
/-- Moving the last entry over one that goes removes it. -/
theorem dropLast_set_perm {α : Type} {l : List α} {i : Nat} (hi : i < l.length) {z : α}
    (hz : l[l.length - 1]? = some z) :
    (l.set i z).dropLast.Perm (l.eraseIdx i) := by
  obtain ⟨l', z', rfl⟩ := (List.eq_nil_or_concat l).resolve_left
    (List.ne_nil_of_length_pos (by omega))
  rw [List.concat_eq_append] at hi hz ⊢
  have hlast : z' = z := by simpa using hz
  subst hlast
  rcases Nat.lt_or_ge i l'.length with hlt | hge
  · rw [List.set_append_left i z' hlt, List.dropLast_concat,
      List.eraseIdx_append_of_lt_length hlt]
    exact (List.set_perm_cons_eraseIdx hlt z').trans (List.perm_append_singleton z' _).symm
  · have heq : i = l'.length := by
      simp only [List.length_append, List.length_singleton] at hi
      omega
    subst heq
    rw [List.eraseIdx_append_of_length_le (Nat.le_refl _)]
    simp

omit [Field F] [LinearOrder F] in
/-- Without the row of a key that is there once, exactly the other rows are left. -/
theorem eraseIdx_perm_filter {β : Type} {l : List (Nat × β)} (hnodup : (l.map Prod.fst).Nodup)
    {i : Nat} {r : Nat × β} (hr : l[i]? = some r) :
    (l.eraseIdx i).Perm (l.filter fun x => x.1 ≠ r.1) := by
  obtain ⟨hi, hget⟩ := List.getElem?_eq_some_iff.mp hr
  have hperm : (r :: l.eraseIdx i).Perm l := by
    rw [← hget]
    exact List.getElem_cons_eraseIdx_perm hi
  have hkeys : ((r :: l.eraseIdx i).map Prod.fst).Nodup :=
    (hperm.map Prod.fst).nodup_iff.mpr hnodup
  rw [List.map_cons, List.nodup_cons] at hkeys
  have hkeep : (l.eraseIdx i).filter (fun x => x.1 ≠ r.1) = l.eraseIdx i := by
    rw [List.filter_eq_self]
    intro x hx
    simp only [decide_eq_true_eq]
    exact fun heq => hkeys.1 (heq ▸ List.mem_map_of_mem hx)
  have hfilter := hperm.filter fun x => x.1 ≠ r.1
  rw [List.filter_cons_of_neg (by simp), hkeep] at hfilter
  exact hfilter

omit [Field F] [LinearOrder F] in
/-- The positions after the last row has moved over the one at `i`. -/
theorem pos_swap {β : Type} {rows : List (Nat × β)} {pos : Nat → Option Nat}
    (hpos : ∀ k j, pos k = some j ↔ rows[j]?.map Prod.fst = some k) {id i : Nat}
    {moved : Nat × β} (hi : pos id = some i) (hmoved : rows[rows.length - 1]? = some moved)
    (k j : Nat) :
    (if i = rows.length - 1 then Function.update pos id none
      else Function.update (Function.update pos id none) moved.1 (some i)) k = some j ↔
        ((rows.set i moved).dropLast)[j]?.map Prod.fst = some k := by
  have hlt : ∀ {k j}, pos k = some j → j < rows.length := by
    intro k j h
    obtain ⟨r, hr, _⟩ := Option.map_eq_some_iff.mp ((hpos k j).mp h)
    exact (List.getElem?_eq_some_iff.mp hr).1
  have hinj : ∀ {k k' j}, pos k = some j → pos k' = some j → k = k' := by
    intro k k' j h h'
    exact Option.some.inj (((hpos k j).mp h).symm.trans ((hpos k' j).mp h'))
  have hlast : pos moved.1 = some (rows.length - 1) :=
    (hpos _ _).mpr (by rw [hmoved, Option.map_some])
  have hi' := hlt hi
  have herase : Function.update pos id none k = some j ↔ pos k = some j ∧ k ≠ id := by
    by_cases hk : k = id
    · simp [hk]
    · simp [hk]
  have hright : ((rows.set i moved).dropLast)[j]?.map Prod.fst = some k ↔
      j < rows.length - 1 ∧ (if i = j then moved.1 = k else pos k = some j) := by
    rw [List.getElem?_dropLast, List.length_set, List.getElem?_set]
    by_cases hj : j < rows.length - 1
    · by_cases hij : i = j
      · simp [hj, hij, show j < rows.length by omega]
      · simp only [hj, hij, if_true, if_false, true_and]
        exact (hpos k j).symm
    · simp [hj]
  rw [hright]
  by_cases hend : i = rows.length - 1
  · rw [if_pos hend, herase]
    constructor
    · rintro ⟨hk, hne⟩
      have hij : i ≠ j := fun heq => hne (hinj hk (heq ▸ hi))
      have := hlt hk
      exact ⟨by omega, by rw [if_neg hij]; exact hk⟩
    · rintro ⟨hj, hk⟩
      rw [if_neg (by omega)] at hk
      refine ⟨hk, fun heq => ?_⟩
      rw [heq, hi, Option.some.injEq] at hk
      omega
  · rw [if_neg hend]
    by_cases hm : k = moved.1
    · subst hm
      rw [Function.update_self, Option.some.injEq]
      constructor
      · rintro rfl
        exact ⟨by omega, by rw [if_pos rfl]⟩
      · rintro ⟨hj, hk⟩
        by_contra hij
        rw [if_neg hij, hlast, Option.some.injEq] at hk
        omega
    · rw [Function.update_of_ne hm, herase]
      constructor
      · rintro ⟨hk, hne⟩
        have hij : i ≠ j := fun heq => hne (hinj hk (heq ▸ hi))
        have hjl : j ≠ rows.length - 1 := fun heq => hm (hinj hk (heq ▸ hlast))
        have := hlt hk
        exact ⟨by omega, by rw [if_neg hij]; exact hk⟩
      · rintro ⟨_, hk⟩
        by_cases hij : i = j
        · rw [if_pos hij] at hk
          exact absurd hk.symm hm
        · rw [if_neg hij] at hk
          refine ⟨hk, fun heq => hij ?_⟩
          rw [heq, hi] at hk
          exact Option.some.inj hk

namespace Arena

/-- The arena holds the vectors of these records. -/
structure Holds (d : Nat) (a : Arena F) (xs : List (Entry F)) : Prop where
  rows : a.rows.Perm
    ((xs.filter fun x => x.vec ≠ []).map fun x => (x.id, normalize sqrt x.vec))
  pos : ∀ id i, a.pos id = some i ↔ a.rows[i]?.map Prod.fst = some id
  dim : a.dim = 0 ∨ a.dim = d
  dim_rows : a.rows ≠ [] → a.dim = d

variable {sqrt} {d : Nat} {a : Arena F} {xs : List (Entry F)}

theorem holds_empty : (Arena.empty F).Holds sqrt d [] where
  rows := List.Perm.refl _
  pos := by simp [Arena.empty]
  dim := Or.inl rfl
  dim_rows := fun h => absurd rfl h

theorem Holds.mem (h : a.Holds sqrt d xs) {r : Nat × List F} (hr : r ∈ a.rows) :
    ∃ x ∈ xs, x.vec ≠ [] ∧ x.id = r.1 ∧ r.2 = normalize sqrt x.vec := by
  obtain ⟨x, hx, rfl⟩ := List.mem_map.mp (h.rows.mem_iff.mp hr)
  obtain ⟨hx, hvec⟩ := List.mem_filter.mp hx
  exact ⟨x, hx, by simpa using hvec, rfl, rfl⟩

theorem Holds.nodup (h : a.Holds sqrt d xs) (hnodup : (xs.map Entry.id).Nodup) :
    (a.rows.map Prod.fst).Nodup := by
  refine ((h.rows.map Prod.fst).nodup_iff).mpr ?_
  rw [List.map_map]
  exact hnodup.sublist (List.filter_sublist.map _)

theorem Holds.push (h : a.Holds sqrt d xs) {x : Entry F} (hdim : x.vec.length = d)
    (hnew : ∀ y ∈ xs, y.id ≠ x.id) :
    (a.push sqrt x.id x.vec).Holds sqrt d (xs ++ [x]) := by
  by_cases hvec : x.vec = []
  · rw [Arena.push, if_pos (Or.inl hvec)]
    refine ⟨?_, h.pos, h.dim, h.dim_rows⟩
    rw [List.filter_append]
    simpa [hvec] using h.rows
  · have hnone : a.pos x.id = none := by
      by_contra hsome
      obtain ⟨i, hi⟩ := Option.ne_none_iff_exists'.mp hsome
      obtain ⟨r, hr, hrid⟩ := Option.map_eq_some_iff.mp ((h.pos _ _).mp hi)
      obtain ⟨y, hy, _, hyid, _⟩ := h.mem (List.mem_of_getElem? hr)
      exact hnew y hy (hyid.trans hrid)
    have hdims : ¬ (a.dim ≠ 0 ∧ x.vec.length ≠ a.dim) := by
      rcases h.dim with hz | hd
      · simp [hz]
      · simp [hd, hdim]
    rw [Arena.push, if_neg (by simp [hvec, hnone, hdims])]
    refine ⟨?_, ?_, Or.inr hdim, fun _ => hdim⟩
    · have hrow : ([x].filter fun x => x.vec ≠ []) = [x] := by simp [hvec]
      rw [List.filter_append, List.map_append, hrow]
      exact h.rows.append_right _
    · intro id i
      by_cases hid : id = x.id
      · subst hid
        simp only [Function.update_self, Option.some.injEq]
        rcases Nat.lt_trichotomy i a.rows.length with hlt | rfl | hgt
        · rw [List.getElem?_append_left hlt]
          constructor
          · intro heq
            omega
          · intro heq
            rw [(h.pos x.id i).mpr heq] at hnone
            cases hnone
        · simp
        · rw [List.getElem?_eq_none (by simp; omega)]
          simp
          omega
      · show Function.update a.pos x.id (some a.rows.length) id = some i ↔ _
        rw [Function.update_of_ne hid, h.pos id i]
        rcases Nat.lt_trichotomy i a.rows.length with hlt | rfl | hgt
        · rw [List.getElem?_append_left hlt]
        · simp [Ne.symm hid]
        · rw [List.getElem?_eq_none (Nat.le_of_lt hgt),
            List.getElem?_eq_none (by simp; omega)]

/-- Without the record of an id the arena holds the others. -/
theorem Holds.without (h : a.Holds sqrt d xs) {rows : List (Nat × List F)} {id : Nat}
    (hrows : rows.Perm (a.rows.filter fun r => r.1 ≠ id)) :
    rows.Perm (((xs.filter fun x => x.id ≠ id).filter fun x => x.vec ≠ []).map
      fun x => (x.id, normalize sqrt x.vec)) := by
  refine (hrows.trans (h.rows.filter _)).trans ?_
  rw [List.filter_map, List.filter_filter, List.filter_filter]
  refine List.Perm.of_eq (congrArg _ (List.filter_congr fun x _ => ?_))
  simp only [Function.comp_apply]
  exact Bool.and_comm _ _

theorem Holds.remove (h : a.Holds sqrt d xs) (hnodup : (xs.map Entry.id).Nodup) (id : Nat) :
    (a.remove id).Holds sqrt d (xs.filter fun x => x.id ≠ id) := by
  rw [Arena.remove]
  cases hpos : a.pos id with
  | none =>
      refine ⟨h.without ?_, h.pos, h.dim, h.dim_rows⟩
      rw [List.filter_eq_self.mpr]
      intro r hr
      obtain ⟨i, hi⟩ := List.mem_iff_getElem?.mp hr
      simp only [ne_eq, decide_eq_true_eq]
      intro heq
      have := (h.pos id i).mpr (by rw [hi, Option.map_some, heq])
      rw [hpos] at this
      cases this
  | some i =>
      obtain ⟨r, hr, hrid⟩ := Option.map_eq_some_iff.mp ((h.pos id i).mp hpos)
      obtain ⟨hi, _⟩ := List.getElem?_eq_some_iff.mp hr
      obtain ⟨moved, hmoved⟩ : ∃ z, a.rows[a.rows.length - 1]? = some z :=
        ⟨_, List.getElem?_eq_getElem (by omega)⟩
      simp only [hmoved]
      have hrows := (dropLast_set_perm hi hmoved).trans
        (eraseIdx_perm_filter (h.nodup hnodup) hr)
      rw [hrid] at hrows
      have hdims : (a.rows.set i moved).dropLast ≠ [] → a.dim = d := by
        intro hne
        refine h.dim_rows fun hnil => hne ?_
        simp [hnil]
      refine ⟨h.without hrows, ?_, h.dim, hdims⟩
      exact fun id' j => pos_swap h.pos hpos hmoved id' j

end Arena
end Index
end Recall
end StrikeDB
