import Mathlib

/-!
# StrikeDB: the sparse index and hybrid search

The inverted index of `vector.rs` with its running average and its BM25 ranking, and
the fusion of two rankings by reciprocal ranks.  Scores are over an ordered field, with
the logarithm as a parameter.

**Results.**
* `Tracks.add`, `Tracks.forget`: what one operation does to the index and to the
  attached documents.
* `search_spec`: what a search finds in an index that tracks its documents.
* `rrf_fuse_spec`: a fused score is a reciprocal-rank sum.
* `sparse_exact_iff`: the index is right all the time exactly when every document comes
  in at its own number.
-/

namespace StrikeDB
namespace Sparse

section Code

variable {F : Type} [Field F] [LinearOrder F]

/-- A bag of words: terms with weights. -/
abbrev Terms (F : Type) := List (UInt32 × F)

structure SparseIndex (F : Type) where
  /-- The documents that contain a term, by insertion order. -/
  postings : UInt32 → List Nat
  doc_terms : List (Terms F)
  doc_len : List Nat
  n : Nat
  /-- Average document length. -/
  avgdl : F
  id_to_order : Nat → Option Nat

def SparseIndex.new : SparseIndex F :=
  { postings := fun _ => [], doc_terms := [], doc_len := [], n := 0, avgdl := 0
    id_to_order := fun _ => none }

namespace SparseIndex

/-- Add a document's sparse vector under `id`. -/
def add (st : SparseIndex F) (id : Nat) (terms : Terms F) : SparseIndex F :=
  let dl := terms.length
  let order := st.doc_terms.length
  { postings := terms.foldl (fun p t => Function.update p t.1 (p t.1 ++ [order])) st.postings
    doc_terms := st.doc_terms ++ [terms]
    doc_len := st.doc_len ++ [dl]
    n := st.n + 1
    avgdl := st.avgdl + (dl - st.avgdl) / (st.n + 1 : Nat)
    id_to_order := Function.update st.id_to_order id (some order) }

/-- Drop the document added under `id` from the postings; its slot stays. -/
def remove (st : SparseIndex F) (id : Nat) : SparseIndex F :=
  match st.id_to_order id with
  | none => st
  | some order =>
      let old_len := st.doc_len.getD order 0
      let terms := st.doc_terms.getD order []
      { postings := terms.foldl
          (fun p t => Function.update p t.1 ((p t.1).filter fun d => d ≠ order)) st.postings
        doc_terms := st.doc_terms.set order []
        doc_len := st.doc_len.set order 0
        n := if st.n > 1 then st.n - 1 else 0
        avgdl := if st.n > 1 then (st.avgdl * st.n - old_len) / (st.n - 1) else 0
        id_to_order := Function.update st.id_to_order id none }

/-- What one query term adds to the score of the document at `order`. -/
def termScore (ln : F → F) (st : SparseIndex F) (order : Nat) (k1 b : F) (q : UInt32 × F) : F :=
  let dl : F := (max (st.doc_len.getD order 0) 1 : Nat)
  let hits := ((st.postings q.1).filter fun d => d = order).length
  if hits = 0 then 0
  else
    let df : F := (st.postings q.1).length
    let idf := ln ((st.n - df + 1 / 2) / (df + 1 / 2) + 1)
    let tf : F := hits
    let denom := tf + k1 * (1 - b + b * dl / max st.avgdl (1 / 10 ^ 6))
    q.2 * idf * (tf * (k1 + 1)) / denom

/-- BM25 score of a query against the document at `order`. -/
def bm25 (ln : F → F) (st : SparseIndex F) (order : Nat) (query : Terms F) (k1 b : F) : F :=
  query.foldl (fun score q => score + st.termScore ln order k1 b q) 0

/-- The union of the postings of the query's terms. -/
def candidates (st : SparseIndex F) (query : Terms F) : List Nat :=
  query.foldl (fun cand q =>
    (st.postings q.1).foldl (fun cand d => if d ∈ cand then cand else cand ++ [d]) cand) []

/-- Best score first. -/
def byScore (a b : Nat × F) : Bool := b.2 ≤ a.2

/-- Top `k` documents for a query. -/
def search (ln : F → F) (st : SparseIndex F) (query : Terms F) (k : Nat) : List (Nat × F) :=
  if st.n = 0 then []
  else
    ((((st.candidates query).map fun order => (order, st.bm25 ln order query (3 / 2) (3 / 4))).filter
      fun s => s.2 > 0).mergeSort byScore).take k

end SparseIndex

/-! ## Fusion -/

/-- How a hash map yields its entries. -/
structure MapOrder (F : Type) where
  yield : List (Nat × F) → List (Nat × F)
  perm : ∀ l, (yield l).Perm l

/-- `*acc.entry(id).or_insert(0.0) += x`. -/
def bump (acc : List (Nat × F)) (e : Nat × F) : List (Nat × F) :=
  if acc.any fun a => a.1 = e.1 then acc.map fun a => if a.1 = e.1 then (a.1, a.2 + e.2) else a
  else acc ++ [e]

/-- What the places of one ranking contribute. -/
def contributions (k : Nat) (list : List Nat) : List (Nat × F) :=
  list.zipIdx.map fun e => (e.1, 1 / ((e.2 : F) + k + 1))

/-- Reciprocal rank fusion. -/
def rrf_fuse (order : MapOrder F) (lists : List (List Nat)) (k : Nat) : List (Nat × F) :=
  (order.yield ((lists.flatMap (contributions k)).foldl bump [])).mergeSort SparseIndex.byScore

/-- Fuses the dense ranking, of at least `k` places, with the sparse one. -/
def search_hybrid (ln : F → F) (order : MapOrder F) (st : SparseIndex F) (dense : Nat → List Nat)
    (query : Terms F) (k rerank : Nat) : List (Nat × F) :=
  let places := max rerank k
  (rrf_fuse order [dense places, (st.search ln query places).map Prod.fst] 60).take k

/-! ## Documents -/

/-- The attached documents, by their ids. -/
abbrev Docs (F : Type) := List (Nat × Terms F)

inductive SparseOp (F : Type) where
  | add (id : Nat) (terms : Terms F)
  | forget (id : Nat)

def SparseIndex.step (st : SparseIndex F) : SparseOp F → SparseIndex F
  | .add id terms => st.add id terms
  | .forget id => st.remove id

/-- What is attached after an operation. -/
def Docs.step (docs : Docs F) : SparseOp F → Docs F
  | .add id terms => docs.filter (fun d => d.1 ≠ id) ++ [(id, terms)]
  | .forget id => docs.filter fun d => d.1 ≠ id

/-- A document contains a term. -/
def hasTerm (t : UInt32) (d : Nat × Terms F) : Bool := d.2.any fun e => e.1 = t

/-- A document contains a term of the query. -/
def hit (query : Terms F) (d : Nat × Terms F) : Bool := query.any fun q => hasTerm q.1 d

/-- The average length of the documents, 0 of none. -/
def Docs.average (docs : Docs F) : F := (docs.map fun d => (d.2.length : F)).sum / docs.length

/-- What one query term contributes to the score of a document. -/
def Docs.termScore (ln : F → F) (docs : Docs F) (d : Nat × Terms F) (q : UInt32 × F) : F :=
  let tf : F := (d.2.countP fun e => e.1 = q.1 : Nat)
  let df : F := (docs.countP (hasTerm q.1) : Nat)
  let idf := ln ((docs.length - df + 1 / 2) / (df + 1 / 2) + 1)
  let dl : F := (max d.2.length 1 : Nat)
  q.2 * idf * (tf * (3 / 2 + 1)) /
    (tf + 3 / 2 * (1 - 3 / 4 + 3 / 4 * dl / max docs.average (1 / 10 ^ 6)))

/-- BM25 over the attached documents. -/
def Docs.score (ln : F → F) (docs : Docs F) (d : Nat × Terms F) (query : Terms F) : F :=
  (query.map (docs.termScore ln d)).sum

/-- The reciprocal-rank sum of a document's places in a ranking. -/
def rankSum (id : Nat) (list : List Nat) : F :=
  ((list.zipIdx.filter fun e => e.1 = id).map fun e => 1 / ((e.2 : F) + (60 : Nat) + 1)).sum

end Code


/-! ## What the loops do -/

section Loops

variable {F : Type}

theorem postings_add (terms : Terms F) (p : UInt32 → List Nat) (order : Nat) (t : UInt32) :
    (terms.foldl (fun p t => Function.update p t.1 (p t.1 ++ [order])) p) t =
      p t ++ List.replicate (terms.countP fun e => e.1 = t) order := by
  induction terms generalizing p with
  | nil => simp
  | cons e terms ih =>
      rw [List.foldl_cons, ih, List.countP_cons]
      by_cases he : e.1 = t
      · subst he
        simp [List.replicate_succ]
      · simp [Function.update_of_ne (Ne.symm he), he]

theorem postings_remove (terms : Terms F) (p : UInt32 → List Nat) (order : Nat) (t : UInt32) :
    (terms.foldl (fun p t => Function.update p t.1 ((p t.1).filter fun d => d ≠ order)) p) t =
      if terms.any fun e => e.1 = t then (p t).filter fun d => d ≠ order else p t := by
  induction terms generalizing p with
  | nil => simp
  | cons e terms ih =>
      rw [List.foldl_cons, ih, List.any_cons]
      by_cases he : e.1 = t
      · subst he
        simp [List.filter_filter]
      · have hother : decide (e.1 = t) = false := decide_eq_false he
        rw [Function.update_of_ne (Ne.symm he), hother, Bool.false_or]

/-- One list of postings joins the candidates. -/
theorem collect_spec (l cand : List Nat) (h : cand.Nodup) :
    (l.foldl (fun cand d => if d ∈ cand then cand else cand ++ [d]) cand).Nodup ∧
      ∀ d, d ∈ l.foldl (fun cand d => if d ∈ cand then cand else cand ++ [d]) cand ↔
        d ∈ cand ∨ d ∈ l := by
  induction l generalizing cand with
  | nil => simpa using h
  | cons a l ih =>
      rw [List.foldl_cons]
      by_cases ha : a ∈ cand
      · rw [if_pos ha]
        obtain ⟨hnodup, hmem⟩ := ih cand h
        refine ⟨hnodup, fun d => ?_⟩
        rw [hmem, List.mem_cons]
        constructor
        · rintro (hd | hd)
          · exact .inl hd
          · exact .inr (.inr hd)
        · rintro (hd | rfl | hd)
          · exact .inl hd
          · exact .inl ha
          · exact .inr hd
      · rw [if_neg ha]
        have hnew : (cand ++ [a]).Nodup := by
          rw [List.nodup_append]
          refine ⟨h, List.nodup_singleton a, ?_⟩
          rintro b hb c hc rfl
          exact ha (List.mem_singleton.mp hc ▸ hb)
        obtain ⟨hnodup, hmem⟩ := ih _ hnew
        refine ⟨hnodup, fun d => ?_⟩
        rw [hmem, List.mem_append, List.mem_singleton, List.mem_cons, or_assoc]

theorem candidates_spec (st : SparseIndex F) (query : Terms F) :
    (st.candidates query).Nodup ∧
      ∀ d, d ∈ st.candidates query ↔ ∃ q ∈ query, d ∈ st.postings q.1 := by
  have hfold : ∀ (query : Terms F) (cand : List Nat), cand.Nodup →
      (query.foldl (fun cand q => (st.postings q.1).foldl
        (fun cand d => if d ∈ cand then cand else cand ++ [d]) cand) cand).Nodup ∧
      ∀ d, d ∈ query.foldl (fun cand q => (st.postings q.1).foldl
        (fun cand d => if d ∈ cand then cand else cand ++ [d]) cand) cand ↔
        d ∈ cand ∨ ∃ q ∈ query, d ∈ st.postings q.1 := by
    intro query
    induction query with
    | nil => exact fun cand h => ⟨h, fun d => by simp⟩
    | cons q query ih =>
        intro cand h
        obtain ⟨hnodup, hmem⟩ := collect_spec (st.postings q.1) cand h
        obtain ⟨hnodup', hmem'⟩ := ih _ hnodup
        refine ⟨hnodup', fun d => ?_⟩
        rw [List.foldl_cons, hmem', hmem, or_assoc]
        simp
  obtain ⟨hnodup, hmem⟩ := hfold query [] List.nodup_nil
  exact ⟨hnodup, fun d => by rw [SparseIndex.candidates, hmem]; simp⟩

end Loops

/-! ## Reciprocal ranks -/

section Ranks

variable {F : Type} [Field F]

/-- What the entries of one id add up to. -/
def total (id : Nat) (l : List (Nat × F)) : F := ((l.filter fun e => e.1 = id).map Prod.snd).sum

theorem total_append (id : Nat) (l l' : List (Nat × F)) :
    total id (l ++ l') = total id l + total id l' := by
  simp [total]

theorem total_contributions (id : Nat) (list : List Nat) :
    total id (contributions 60 list) = (rankSum id list : F) := by
  rw [total, contributions, List.filter_map, List.map_map, rankSum]
  rfl

/-- The accumulator has each id once, with what its entries add up to. -/
structure Sums (l acc : List (Nat × F)) : Prop where
  nodup : (acc.map Prod.fst).Nodup
  total : ∀ e ∈ acc, e.2 = total e.1 l
  all : ∀ e ∈ l, ∃ a ∈ acc, a.1 = e.1

theorem Sums.bump {l acc : List (Nat × F)} (h : Sums l acc) (e : Nat × F) :
    Sums (l ++ [e]) (bump acc e) := by
  rw [Sparse.bump]
  split
  · next hany =>
      obtain ⟨a, ha, hid⟩ := List.any_eq_true.mp hany
      have hfst : (acc.map fun a => if a.1 = e.1 then (a.1, a.2 + e.2) else a).map Prod.fst =
          acc.map Prod.fst := by
        rw [List.map_map]
        refine List.map_congr_left fun b _ => ?_
        by_cases hb : b.1 = e.1 <;> simp [hb]
      refine ⟨hfst ▸ h.nodup, ?_, ?_⟩
      · intro b hb
        obtain ⟨c, hc, rfl⟩ := List.mem_map.mp hb
        by_cases hce : c.1 = e.1
        · simp only [hce, if_true, total_append]
          rw [h.total c hc, hce]
          simp [Sparse.total]
        · simp only [hce, if_false, total_append]
          rw [h.total c hc]
          simp [Sparse.total, Ne.symm hce]
      · intro b hb
        have hkeys : ∀ id, id ∈ acc.map Prod.fst → ∃ a ∈ acc.map (fun a =>
            if a.1 = e.1 then (a.1, a.2 + e.2) else a), a.1 = id := by
          intro id hid
          rw [← hfst, List.mem_map] at hid
          exact hid
        rcases List.mem_append.mp hb with hb | hb
        · obtain ⟨c, hc, heq⟩ := h.all b hb
          exact hkeys _ (List.mem_map.mpr ⟨c, hc, heq⟩)
        · rw [List.mem_singleton.mp hb]
          exact hkeys _ (List.mem_map.mpr ⟨a, ha, of_decide_eq_true hid⟩)
  · next hany =>
      have hnew : ∀ a ∈ acc, a.1 ≠ e.1 := fun a ha heq =>
        hany (List.any_eq_true.mpr ⟨a, ha, decide_eq_true heq⟩)
      have hzero : Sparse.total e.1 l = 0 := by
        have hnone : l.filter (fun a => a.1 = e.1) = [] := by
          refine List.filter_eq_nil_iff.mpr fun b hb heq => ?_
          obtain ⟨a, ha, hab⟩ := h.all b hb
          exact hnew a ha (hab.trans (of_decide_eq_true heq))
        rw [Sparse.total, hnone]
        rfl
      refine ⟨?_, ?_, ?_⟩
      · rw [List.map_append, List.nodup_append]
        refine ⟨h.nodup, List.nodup_singleton _, ?_⟩
        rintro a ha b hb rfl
        obtain ⟨c, hc, rfl⟩ := List.mem_map.mp ha
        exact hnew c hc (List.mem_singleton.mp hb)
      · intro b hb
        rw [total_append]
        rcases List.mem_append.mp hb with hb | hb
        · rw [h.total b hb]
          simp [Sparse.total, Ne.symm (hnew b hb)]
        · rw [List.mem_singleton.mp hb, hzero]
          simp [Sparse.total]
      · intro b hb
        rcases List.mem_append.mp hb with hb | hb
        · obtain ⟨a, ha, heq⟩ := h.all b hb
          exact ⟨a, List.mem_append_left _ ha, heq⟩
        · exact ⟨e, by simp, by rw [List.mem_singleton.mp hb]⟩

theorem Sums.foldl {l acc : List (Nat × F)} (h : Sums l acc) (es : List (Nat × F)) :
    Sums (l ++ es) (es.foldl Sparse.bump acc) := by
  induction es generalizing l acc with
  | nil => simpa using h
  | cons e es ih =>
      have hnext := ih (h.bump e)
      rwa [List.append_assoc] at hnext

variable [LinearOrder F]

/-- **A fused score** is the reciprocal-rank sum of its id over both rankings. -/
theorem rrf_fuse_spec (order : MapOrder F) (list list' : List Nat) {e : Nat × F}
    (he : e ∈ rrf_fuse order [list, list'] 60) :
    e.2 = rankSum e.1 list + rankSum e.1 list' := by
  have hsums : Sums ([] : List (Nat × F)) [] := ⟨List.nodup_nil, by simp, by simp⟩
  have hfold := hsums.foldl ([list, list'].flatMap (contributions 60))
  rw [rrf_fuse, List.mem_mergeSort, (order.perm _).mem_iff] at he
  rw [hfold.total e he]
  simp only [List.nil_append, List.flatMap_cons, List.flatMap_nil, List.append_nil, total_append,
    total_contributions]

end Ranks


/-! ## An index that tracks its documents -/

section Tracking

variable {F : Type}

theorem countP_term {terms : Terms F} (h : (terms.map Prod.fst).Nodup) (id : Nat) (t : UInt32) :
    (terms.countP fun e => e.1 = t) = if hasTerm t (id, terms) then 1 else 0 := by
  have hcount : (terms.countP fun e => e.1 = t) = (terms.map Prod.fst).count t := by
    rw [List.count, List.countP_map]
    rfl
  have hmem : hasTerm t (id, terms) = true ↔ t ∈ terms.map Prod.fst := by
    simp [hasTerm]
  rw [hcount]
  split
  · next hterm => exact List.count_eq_one_of_mem h (hmem.mp hterm)
  · next hterm => exact List.count_eq_zero_of_not_mem fun hin => hterm (hmem.mpr hin)

theorem filter_absent {docs : Docs F} {id : Nat} (h : ∀ d ∈ docs, d.1 ≠ id) :
    (docs.filter fun d => d.1 ≠ id) = docs :=
  List.filter_eq_self.mpr fun d hd => decide_eq_true (h d hd)

theorem hit_ne_nil {query : Terms F} {d : Nat × Terms F} (h : hit query d = true) : d.2 ≠ [] := by
  intro hnil
  obtain ⟨q, _, hterm⟩ := List.any_eq_true.mp h
  rw [hasTerm, hnil] at hterm
  cases hterm

/-- Among documents with different ids, taking one out leaves the others. -/
theorem perm_forget {docs : Docs F} (h : (docs.map Prod.fst).Nodup) {id : Nat} {terms : Terms F}
    (hmem : (id, terms) ∈ docs) :
    docs.Perm ((id, terms) :: docs.filter fun d => d.1 ≠ id) := by
  induction docs with
  | nil => cases hmem
  | cons d docs ih =>
      rw [List.map_cons, List.nodup_cons] at h
      rcases List.mem_cons.mp hmem with rfl | hmem
      · have habsent : ∀ e ∈ docs, e.1 ≠ id := fun e he heq =>
          h.1 (List.mem_map.mpr ⟨e, he, heq⟩)
        rw [List.filter_cons_of_neg (by simp), filter_absent habsent]
      · have hne : d.1 ≠ id := fun heq => h.1 (List.mem_map.mpr ⟨_, hmem, heq.symm⟩)
        rw [List.filter_cons_of_pos (by simpa using hne)]
        exact ((ih h.2 hmem).cons d).trans (List.Perm.swap _ _ _)

variable [Field F]

/-- The step brings a document in at its own number, without repeated terms, and under an
id that is not attached. -/
def InOrder (docs : Docs F) (st : SparseIndex F) : SparseOp F → Prop
  | .add id terms =>
      (∀ d ∈ docs, d.1 ≠ id) ∧ (terms.map Prod.fst).Nodup ∧
        (terms = [] ∨ id = st.doc_terms.length)
  | .forget _ => True

/-- The index is what the documents make it, and each document that can be found has its
id for a number. -/
structure Tracks (docs : Docs F) (st : SparseIndex F) : Prop where
  ids : (docs.map Prod.fst).Nodup
  distinct : ∀ d ∈ docs, (d.2.map Prod.fst).Nodup
  lengths : st.doc_len = st.doc_terms.map List.length
  known : ∀ id order, st.id_to_order id = some order → ∃ terms, (id, terms) ∈ docs
  slot : ∀ d ∈ docs, ∃ order, st.id_to_order d.1 = some order ∧
    st.doc_terms[order]? = some d.2 ∧ (d.2 ≠ [] → order = d.1)
  injective : ∀ id id' order, st.id_to_order id = some order →
    st.id_to_order id' = some order → id = id'
  postings : ∀ t, st.postings t = (docs.filter (hasTerm t)).map Prod.fst
  count : st.n = docs.length
  average : st.avgdl = docs.average

theorem tracks_new : Tracks ([] : Docs F) SparseIndex.new where
  ids := List.nodup_nil
  distinct := by simp
  lengths := rfl
  known := by simp [SparseIndex.new]
  slot := by simp
  injective := by simp [SparseIndex.new]
  postings := fun _ => rfl
  count := rfl
  average := by simp [SparseIndex.new, Docs.average]

/-! ### Operations -/

@[simp] theorem add_id_to_order (st : SparseIndex F) (id : Nat) (terms : Terms F) (id' : Nat) :
    (st.add id terms).id_to_order id' =
      if id' = id then some st.doc_terms.length else st.id_to_order id' :=
  Function.update_apply ..

@[simp] theorem add_doc_terms (st : SparseIndex F) (id : Nat) (terms : Terms F) :
    (st.add id terms).doc_terms = st.doc_terms ++ [terms] := rfl

@[simp] theorem add_doc_len (st : SparseIndex F) (id : Nat) (terms : Terms F) :
    (st.add id terms).doc_len = st.doc_len ++ [terms.length] := rfl

@[simp] theorem add_n (st : SparseIndex F) (id : Nat) (terms : Terms F) :
    (st.add id terms).n = st.n + 1 := rfl

theorem add_postings (st : SparseIndex F) (id : Nat) (terms : Terms F) (t : UInt32) :
    (st.add id terms).postings t =
      st.postings t ++ List.replicate (terms.countP fun e => e.1 = t) st.doc_terms.length :=
  postings_add terms st.postings st.doc_terms.length t

theorem remove_postings {st : SparseIndex F} {id order : Nat} {terms : Terms F}
    (hin : st.id_to_order id = some order) (hslot : st.doc_terms[order]? = some terms)
    (t : UInt32) :
    (st.remove id).postings t =
      if hasTerm t (id, terms) then (st.postings t).filter fun d => d ≠ order
      else st.postings t := by
  have hterms : st.doc_terms.getD order [] = terms := by
    rw [List.getD_eq_getElem?_getD, hslot]
    rfl
  rw [SparseIndex.remove, hin]
  simp only [hterms]
  exact postings_remove terms st.postings order t

/-- A document that is attached has a slot in use. -/
theorem Tracks.order_lt {docs : Docs F} {st : SparseIndex F} (h : Tracks docs st) {id order : Nat}
    (hin : st.id_to_order id = some order) : order < st.doc_terms.length := by
  obtain ⟨terms, hmem⟩ := h.known id order hin
  obtain ⟨order', hin', hslot, _⟩ := h.slot _ hmem
  obtain rfl : order = order' := Option.some.inj (hin.symm.trans hin')
  exact (List.getElem?_eq_some_iff.mp hslot).1

theorem Tracks.df {docs : Docs F} {st : SparseIndex F} (h : Tracks docs st) (t : UInt32) :
    (st.postings t).length = docs.countP (hasTerm t) := by
  rw [h.postings, List.length_map, List.countP_eq_length_filter]

theorem Tracks.mem_postings {docs : Docs F} {st : SparseIndex F} (h : Tracks docs st)
    {d : Nat × Terms F} (hd : d ∈ docs) (t : UInt32) :
    d.1 ∈ st.postings t ↔ hasTerm t d = true := by
  rw [h.postings, List.mem_map]
  constructor
  · rintro ⟨e, he, heq⟩
    obtain ⟨he, ht⟩ := List.mem_filter.mp he
    rwa [List.inj_on_of_nodup_map h.ids he hd heq] at ht
  · intro ht
    exact ⟨d, List.mem_filter.mpr ⟨hd, ht⟩, rfl⟩

/-- The candidates are the documents that contain a term of the query. -/
theorem Tracks.mem_candidates {docs : Docs F} {st : SparseIndex F} (h : Tracks docs st)
    (query : Terms F) (id : Nat) :
    id ∈ st.candidates query ↔ ∃ d ∈ docs, d.1 = id ∧ hit query d = true := by
  rw [(candidates_spec st query).2]
  constructor
  · rintro ⟨q, hq, hin⟩
    rw [h.postings, List.mem_map] at hin
    obtain ⟨d, hd, rfl⟩ := hin
    obtain ⟨hd, ht⟩ := List.mem_filter.mp hd
    exact ⟨d, hd, rfl, List.any_eq_true.mpr ⟨q, hq, ht⟩⟩
  · rintro ⟨d, hd, rfl, hhit⟩
    obtain ⟨q, hq, ht⟩ := List.any_eq_true.mp hhit
    exact ⟨q, hq, (h.mem_postings hd q.1).mpr ht⟩

variable [CharZero F]

theorem Tracks.add {docs : Docs F} {st : SparseIndex F} (h : Tracks docs st) {id : Nat}
    {terms : Terms F} (hok : InOrder docs st (.add id terms)) :
    Tracks (Docs.step docs (.add id terms)) (st.add id terms) := by
  obtain ⟨hnew, hterms, horder⟩ := hok
  rw [Docs.step, filter_absent hnew]
  refine ⟨?_, ?_, ?_, ?_, ?_, ?_, ?_, ?_, ?_⟩
  · rw [List.map_append, List.nodup_append]
    refine ⟨h.ids, List.nodup_singleton _, ?_⟩
    rintro a ha b hb rfl
    obtain ⟨d, hd, rfl⟩ := List.mem_map.mp ha
    exact hnew d hd (List.mem_singleton.mp hb)
  · intro d hd
    rcases List.mem_append.mp hd with hd | hd
    · exact h.distinct d hd
    · rw [List.mem_singleton.mp hd]
      exact hterms
  · rw [add_doc_len, add_doc_terms, h.lengths, List.map_append, List.map_singleton]
  · intro id' order hin
    rw [add_id_to_order] at hin
    split at hin
    · next hid =>
        subst hid
        exact ⟨terms, by simp⟩
    · obtain ⟨terms', hmem⟩ := h.known id' order hin
      exact ⟨terms', List.mem_append_left _ hmem⟩
  · intro d hd
    rw [add_id_to_order, add_doc_terms]
    rcases List.mem_append.mp hd with hd | hd
    · obtain ⟨order, hin, hslot, hnum⟩ := h.slot d hd
      refine ⟨order, ?_, ?_, hnum⟩
      · rw [if_neg (hnew d hd), hin]
      · rw [List.getElem?_append_left (h.order_lt hin), hslot]
    · rw [List.mem_singleton.mp hd]
      refine ⟨st.doc_terms.length, if_pos rfl, by simp, fun hne => ?_⟩
      rcases horder with hnil | hnum
      · exact absurd hnil hne
      · exact hnum.symm
  · intro a b order ha hb
    rw [add_id_to_order] at ha hb
    split at ha
    · next hida =>
        split at hb
        · next hidb => rw [hida, hidb]
        · have hlt := h.order_lt hb
          rw [Option.some.injEq] at ha
          omega
    · split at hb
      · have hlt := h.order_lt ha
        rw [Option.some.injEq] at hb
        omega
      · exact h.injective a b order ha hb
  · intro t
    rw [add_postings, countP_term hterms id t, h.postings t, List.filter_append,
      List.map_append, List.filter_singleton]
    by_cases ht : hasTerm t (id, terms) = true
    · rcases horder with rfl | hnum
      · cases ht
      · rw [if_pos ht, ht, hnum]
        rfl
    · rw [if_neg ht, Bool.eq_false_iff.mpr ht]
      rfl
  · rw [add_n, h.count, List.length_append, List.length_singleton]
  · have havg : (st.add id terms).avgdl =
        docs.average + (terms.length - docs.average) / (docs.length + 1 : Nat) := by
      rw [← h.average, ← h.count]
      rfl
    rw [havg, Docs.average, Docs.average]
    have hpos : ((docs.length : F) + 1) ≠ 0 := by
      have hcast : ((docs.length + 1 : Nat) : F) ≠ 0 := Nat.cast_ne_zero.mpr (Nat.succ_ne_zero _)
      rwa [Nat.cast_succ] at hcast
    simp only [List.map_append, List.sum_append, List.map_cons, List.map_nil, List.sum_cons,
      List.sum_nil, add_zero, List.length_append, List.length_cons, List.length_nil, zero_add,
      Nat.cast_add, Nat.cast_one]
    rcases Nat.eq_zero_or_pos docs.length with hzero | hlen
    · rw [List.eq_nil_of_length_eq_zero hzero]
      simp
    · have hne : (docs.length : F) ≠ 0 := Nat.cast_ne_zero.mpr (by omega)
      field_simp
      ring

theorem Tracks.forget {docs : Docs F} {st : SparseIndex F} (h : Tracks docs st) (id : Nat) :
    Tracks (Docs.step docs (.forget id)) (st.remove id) := by
  rw [Docs.step]
  cases hin : st.id_to_order id with
  | none =>
      have habsent : ∀ d ∈ docs, d.1 ≠ id := by
        rintro d hd rfl
        obtain ⟨order, hsome, _⟩ := h.slot d hd
        rw [hin] at hsome
        cases hsome
      rw [filter_absent habsent, SparseIndex.remove, hin]
      exact h
  | some order =>
      obtain ⟨terms, hmem⟩ := h.known id order hin
      obtain ⟨order', hin', hslot, hnum⟩ := h.slot _ hmem
      obtain rfl : order = order' := Option.some.inj (hin.symm.trans hin')
      have hperm := perm_forget h.ids hmem
      have hlen : docs.length = (docs.filter fun d => d.1 ≠ id).length + 1 := hperm.length_eq
      have horder' : ∀ a, (st.remove id).id_to_order a =
          if a = id then none else st.id_to_order a := by
        intro a
        rw [SparseIndex.remove, hin]
        exact Function.update_apply ..
      have hterms' : (st.remove id).doc_terms = st.doc_terms.set order [] := by
        rw [SparseIndex.remove, hin]
      refine ⟨?_, ?_, ?_, ?_, ?_, ?_, ?_, ?_, ?_⟩
      · exact h.ids.sublist (List.filter_sublist.map Prod.fst)
      · exact fun d hd => h.distinct d (List.mem_of_mem_filter hd)
      · rw [hterms', List.map_set, ← h.lengths, SparseIndex.remove, hin]
        rfl
      · intro a order' ha
        rw [horder'] at ha
        split at ha
        · cases ha
        · next hne =>
            obtain ⟨terms', hmem'⟩ := h.known a order' ha
            exact ⟨terms', List.mem_filter.mpr ⟨hmem', decide_eq_true hne⟩⟩
      · intro d hd
        obtain ⟨hd, hne⟩ := List.mem_filter.mp hd
        have hne' := of_decide_eq_true hne
        obtain ⟨order', hin', hslot', hnum'⟩ := h.slot d hd
        refine ⟨order', ?_, ?_, hnum'⟩
        · rw [horder', if_neg hne', hin']
        · rw [hterms', List.getElem?_set_ne, hslot']
          rintro rfl
          exact hne' (h.injective _ _ _ hin' hin)
      · intro a b order' ha hb
        rw [horder'] at ha hb
        split at ha
        · cases ha
        · split at hb
          · cases hb
          · exact h.injective a b order' ha hb
      · intro t
        rw [remove_postings hin hslot t, h.postings t, List.filter_filter]
        by_cases ht : hasTerm t (id, terms) = true
        · have hid : order = id := hnum (by
            rintro rfl
            cases ht)
          rw [if_pos ht, hid, List.filter_map, List.filter_filter]
          congr 1
          refine List.filter_congr fun d _ => ?_
          simp [Bool.and_comm]
        · rw [if_neg ht]
          congr 1
          refine List.filter_congr fun d hd => ?_
          by_cases hdt : hasTerm t d = true
          · have hne : d.1 ≠ id := by
              intro heq
              have hsame : d = (id, terms) := List.inj_on_of_nodup_map h.ids hd hmem heq
              exact ht (hsame ▸ hdt)
            simp [hne]
          · simp [hdt]
      · rw [SparseIndex.remove, hin]
        simp only [h.count]
        split <;> omega
      · have hsum : (docs.map fun d => (d.2.length : F)).sum =
            terms.length + ((docs.filter fun d => d.1 ≠ id).map fun d => (d.2.length : F)).sum := by
          rw [(hperm.map _).sum_eq, List.map_cons, List.sum_cons]
        have hold : st.doc_len.getD order 0 = terms.length := by
          rw [h.lengths, List.getD_eq_getElem?_getD, List.getElem?_map, hslot]
          rfl
        have havg : (st.remove id).avgdl =
            if docs.length > 1 then (docs.average * docs.length - terms.length) / (docs.length - 1)
            else 0 := by
          rw [SparseIndex.remove, hin]
          simp only [hold, h.count, h.average]
        rw [havg]
        split
        · next hmore =>
            have hne : (docs.length : F) ≠ 0 := Nat.cast_ne_zero.mpr (by omega)
            rw [Docs.average, Docs.average, div_mul_cancel₀ _ hne, hsum, add_sub_cancel_left, hlen,
              Nat.cast_succ, add_sub_cancel_right]
        · next hone =>
            have hnil : (docs.filter fun d => d.1 ≠ id) = [] :=
              List.eq_nil_of_length_eq_zero (by omega)
            rw [hnil, Docs.average]
            simp

/-- **One operation.** -/
theorem Tracks.step {docs : Docs F} {st : SparseIndex F} (h : Tracks docs st) {op : SparseOp F}
    (hok : InOrder docs st op) : Tracks (Docs.step docs op) (st.step op) := by
  cases op with
  | add id terms => exact h.add hok
  | forget id => exact h.forget id

end Tracking


/-! ## Searches -/

section Searches

variable {F : Type} [Field F] [LinearOrder F]

/-- What a search has to find: documents that contain a term of the query, each once,
with their scores, which are positive, best first, and as many as there are up to `k`. -/
structure Found (ln : F → F) (docs : Docs F) (query : Terms F) (k : Nat)
    (found : List (Nat × F)) : Prop where
  nodup : (found.map Prod.fst).Nodup
  sound : ∀ e ∈ found, ∃ d ∈ docs, d.1 = e.1 ∧ hit query d = true ∧
    e.2 = docs.score ln d query ∧ 0 < e.2
  sorted : found.Pairwise fun a b => b.2 ≤ a.2
  all : found.length = min k (docs.countP fun d => hit query d && decide (0 < docs.score ln d query))

theorem Tracks.termScore {docs : Docs F} {st : SparseIndex F} (h : Tracks docs st) (ln : F → F)
    {d : Nat × Terms F} (hd : d ∈ docs) (hne : d.2 ≠ []) (q : UInt32 × F) :
    st.termScore ln d.1 (3 / 2) (3 / 4) q = docs.termScore ln d q := by
  have hnodup : (st.postings q.1).Nodup := by
    rw [h.postings]
    exact h.ids.sublist (List.filter_sublist.map Prod.fst)
  have hhits : ((st.postings q.1).filter fun e => e = d.1).length =
      if hasTerm q.1 d then 1 else 0 := by
    have hcount : ((st.postings q.1).filter fun e => e = d.1).length =
        (st.postings q.1).count d.1 := by
      rw [List.count, List.countP_eq_length_filter]
      rfl
    rw [hcount, hnodup.count]
    simp only [h.mem_postings hd]
  have hlen : st.doc_len.getD d.1 0 = d.2.length := by
    obtain ⟨order, _, hslot, hnum⟩ := h.slot d hd
    rw [hnum hne] at hslot
    rw [h.lengths, List.getD_eq_getElem?_getD, List.getElem?_map, hslot]
    rfl
  have htf := countP_term (h.distinct d hd) d.1 q.1
  rw [SparseIndex.termScore, Docs.termScore]
  simp only [hhits, htf, hlen, h.df, h.count, h.average]
  by_cases ht : hasTerm q.1 d = true
  · rw [if_pos ht, if_neg Nat.one_ne_zero]
  · rw [if_neg ht, if_pos rfl]
    simp

theorem Tracks.bm25 {docs : Docs F} {st : SparseIndex F} (h : Tracks docs st) (ln : F → F)
    {d : Nat × Terms F} (hd : d ∈ docs) (hne : d.2 ≠ []) (query : Terms F) :
    st.bm25 ln d.1 query (3 / 2) (3 / 4) = docs.score ln d query := by
  have hfold : ∀ (query : Terms F) (s : F),
      query.foldl (fun score q => score + st.termScore ln d.1 (3 / 2) (3 / 4) q) s =
        s + (query.map (docs.termScore ln d)).sum := by
    intro query
    induction query with
    | nil => simp
    | cons q query ih =>
        intro s
        rw [List.foldl_cons, ih, h.termScore ln hd hne, List.map_cons, List.sum_cons, add_assoc]
  rw [SparseIndex.bm25, hfold, zero_add, Docs.score]

/-- **A search** in an index that tracks its documents. -/
theorem Tracks.search_spec {docs : Docs F} {st : SparseIndex F} (h : Tracks docs st) (ln : F → F)
    (query : Terms F) (k : Nat) : Found ln docs query k (st.search ln query k) := by
  rw [SparseIndex.search]
  split
  · next hzero =>
      rw [h.count] at hzero
      rw [List.eq_nil_of_length_eq_zero hzero]
      exact ⟨List.nodup_nil, by simp, List.Pairwise.nil, by simp⟩
  · obtain ⟨hnodup, _⟩ := candidates_spec st query
    let scored := ((st.candidates query).map fun order =>
      (order, st.bm25 ln order query (3 / 2) (3 / 4))).filter fun s => s.2 > 0
    have hfst : (scored.map Prod.fst).Nodup := by
      have hall : ((st.candidates query).map fun order =>
          (order, st.bm25 ln order query (3 / 2) (3 / 4))).map Prod.fst = st.candidates query := by
        rw [List.map_map]
        exact List.map_id _
      exact (hall ▸ hnodup).sublist (List.filter_sublist.map Prod.fst)
    have hmem : ∀ e, e ∈ scored ↔ ∃ d ∈ docs, d.1 = e.1 ∧ hit query d = true ∧
        e.2 = docs.score ln d query ∧ 0 < e.2 := by
      intro e
      rw [List.mem_filter, List.mem_map]
      constructor
      · rintro ⟨⟨order, horder, rfl⟩, hpos⟩
        obtain ⟨d, hd, rfl, hhit⟩ := (h.mem_candidates query order).mp horder
        exact ⟨d, hd, rfl, hhit, h.bm25 ln hd (hit_ne_nil hhit) query, of_decide_eq_true hpos⟩
      · rintro ⟨d, hd, hid, hhit, hscore, hpos⟩
        refine ⟨⟨d.1, (h.mem_candidates query _).mpr ⟨d, hd, rfl, hhit⟩, ?_⟩, decide_eq_true hpos⟩
        rw [h.bm25 ln hd (hit_ne_nil hhit) query, ← hscore, hid]
    have hlen : scored.length =
        docs.countP fun d => hit query d && decide (0 < docs.score ln d query) := by
      have hperm : (scored.map Prod.fst).Perm ((docs.filter fun d =>
          hit query d && decide (0 < docs.score ln d query)).map Prod.fst) := by
        refine (List.perm_ext_iff_of_nodup hfst
          (h.ids.sublist (List.filter_sublist.map Prod.fst))).mpr fun id => ?_
        rw [List.mem_map, List.mem_map]
        constructor
        · rintro ⟨e, he, rfl⟩
          obtain ⟨d, hd, hid, hhit, hscore, hpos⟩ := (hmem e).mp he
          refine ⟨d, List.mem_filter.mpr ⟨hd, ?_⟩, hid⟩
          rw [Bool.and_eq_true, decide_eq_true_eq, ← hscore]
          exact ⟨hhit, hpos⟩
        · rintro ⟨d, hd, rfl⟩
          obtain ⟨hd, hboth⟩ := List.mem_filter.mp hd
          rw [Bool.and_eq_true, decide_eq_true_eq] at hboth
          exact ⟨(d.1, docs.score ln d query), (hmem _).mpr ⟨d, hd, rfl, hboth.1, rfl, hboth.2⟩, rfl⟩
      rw [List.countP_eq_length_filter, ← List.length_map (f := Prod.fst), hperm.length_eq,
        List.length_map]
    have hsort := List.mergeSort_perm scored SparseIndex.byScore
    refine ⟨?_, ?_, ?_, ?_⟩
    · exact ((hsort.map Prod.fst).nodup_iff.mpr hfst).sublist
        ((List.take_sublist k _).map Prod.fst)
    · exact fun e he => (hmem e).mp (hsort.mem_iff.mp (List.mem_of_mem_take he))
    · refine List.Pairwise.sublist (List.take_sublist k _) ?_
      refine (List.pairwise_mergeSort ?_ ?_ scored).imp fun hle => of_decide_eq_true hle
      · intro a b c hab hbc
        exact decide_eq_true ((of_decide_eq_true hbc).trans (of_decide_eq_true hab))
      · intro a b
        rw [Bool.or_eq_true]
        exact (le_total b.2 a.2).imp decide_eq_true decide_eq_true
    · rw [List.length_take, List.length_mergeSort]
      exact congrArg (min k) hlen

end Searches


/-! ## The index all the time -/

section Exactness

/-- Statistics and searches are those of the attached documents, and a fused score belongs
to one document. -/
structure Exact {F : Type} [Field F] [LinearOrder F] (ln : F → F) (docs : Docs F)
    (st : SparseIndex F) : Prop where
  count : st.n = docs.length
  average : st.avgdl = docs.average
  frequencies : ∀ t, (st.postings t).length = docs.countP (hasTerm t)
  search : ∀ query k, Found ln docs query k (st.search ln query k)
  hybrid : ∀ (order : MapOrder F) (dense : Nat → List Nat) (query : Terms F) (k rerank : Nat),
    ∀ e ∈ search_hybrid ln order st dense query k rerank,
      e.2 = rankSum e.1 (dense (max rerank k)) +
        rankSum e.1 ((st.search ln query (max rerank k)).map Prod.fst)

theorem Tracks.exact {F : Type} [Field F] [LinearOrder F] {docs : Docs F} {st : SparseIndex F}
    (h : Tracks docs st) (ln : F → F) : Exact ln docs st where
  count := h.count
  average := h.average
  frequencies := h.df
  search := h.search_spec ln
  hybrid := fun order _ _ _ _ _ he => rrf_fuse_spec order _ _ (List.mem_of_mem_take he)

/-- The property in every state of a run. -/
def Always (docs : Docs ℝ) (st : SparseIndex ℝ) : List (SparseOp ℝ) → Prop
  | [] => Exact Real.log docs st
  | op :: ops => Exact Real.log docs st ∧ Always (Docs.step docs op) (st.step op) ops

/-- Every step of a run brings its document in at its own number. -/
def AllInOrder (docs : Docs ℝ) (st : SparseIndex ℝ) : List (SparseOp ℝ) → Prop
  | [] => True
  | op :: ops => InOrder docs st op ∧ AllInOrder (Docs.step docs op) (st.step op) ops

/-- A document that was just added scores for one of its terms. -/
theorem termScore_pos {docs : Docs ℝ} {st : SparseIndex ℝ} (h : Tracks docs st) (id : Nat)
    {terms : Terms ℝ} (hnodup : (terms.map Prod.fst).Nodup) {t : UInt32}
    (ht : hasTerm t (id, terms) = true) :
    0 < (st.add id terms).termScore Real.log st.doc_terms.length (3 / 2) (3 / 4) (t, 1) := by
  have hpost : (st.add id terms).postings t = st.postings t ++ [st.doc_terms.length] := by
    rw [add_postings, countP_term hnodup id t, if_pos ht]
    rfl
  have hhits : (((st.add id terms).postings t).filter
      fun d => d = st.doc_terms.length).length ≠ 0 := by
    rw [hpost, List.filter_append]
    simp
  have hdf : ((((st.add id terms).postings t).length : Nat) : ℝ) ≤ ((st.add id terms).n : ℝ) := by
    rw [hpost, add_n, List.length_append, List.length_singleton, h.df, h.count]
    exact_mod_cast Nat.succ_le_succ List.countP_le_length
  rw [SparseIndex.termScore]
  simp only
  rw [if_neg hhits]
  generalize (((st.add id terms).postings t).filter
    fun d => d = st.doc_terms.length).length = hits at hhits
  generalize hdl : max ((st.add id terms).doc_len.getD st.doc_terms.length 0) 1 = dl
  have hdlpos : (0 : ℝ) < dl := by
    have hone : 1 ≤ dl := hdl ▸ le_max_right _ _
    exact_mod_cast hone
  have htf : (0 : ℝ) < hits := by
    exact_mod_cast Nat.pos_of_ne_zero hhits
  have hpost0 : (0 : ℝ) ≤ (((st.add id terms).postings t).length : ℝ) := Nat.cast_nonneg _
  have hidf : 0 < Real.log ((((st.add id terms).n : ℝ) - ((st.add id terms).postings t).length +
      1 / 2) / ((((st.add id terms).postings t).length : ℝ) + 1 / 2) + 1) := by
    refine Real.log_pos (lt_add_of_pos_left 1 (div_pos ?_ ?_))
    · linarith
    · linarith
  have havg : (0 : ℝ) < max (st.add id terms).avgdl (1 / 10 ^ 6) :=
    lt_of_lt_of_le (by norm_num) (le_max_right _ _)
  positivity

/-- A candidate with a positive score is found, if enough are asked for. -/
theorem mem_search {F : Type} [Field F] [LinearOrder F] (ln : F → F) {st : SparseIndex F}
    (hn : st.n ≠ 0) {query : Terms F} {order : Nat} (hcand : order ∈ st.candidates query)
    (hpos : 0 < st.bm25 ln order query (3 / 2) (3 / 4)) :
    (order, st.bm25 ln order query (3 / 2) (3 / 4)) ∈
      st.search ln query (st.candidates query).length := by
  rw [SparseIndex.search, if_neg hn, List.take_of_length_le, List.mem_mergeSort, List.mem_filter]
  · exact ⟨List.mem_map.mpr ⟨order, hcand, rfl⟩, decide_eq_true hpos⟩
  · rw [List.length_mergeSort]
    refine (List.length_filter_le _ _).trans ?_
    rw [List.length_map]

/-- **A document that comes in at another number** shows. -/
theorem inOrder_of_exact {docs : Docs ℝ} {st : SparseIndex ℝ} (h : Tracks docs st)
    {op : SparseOp ℝ} (hexact : Exact Real.log (Docs.step docs op) (st.step op)) :
    InOrder docs st op := by
  cases op with
  | forget id => trivial
  | add id terms =>
      have hcount := hexact.count
      rw [Docs.step, SparseIndex.step, add_n, h.count, List.length_append,
        List.length_singleton] at hcount
      have hnew : ∀ d ∈ docs, d.1 ≠ id := by
        have hall := List.length_filter_eq_length_iff.mp (Nat.succ.inj hcount).symm
        exact fun d hd => of_decide_eq_true (hall d hd)
      have hdf := hexact.frequencies
      simp only [Docs.step, SparseIndex.step, filter_absent hnew, add_postings, List.length_append,
        List.length_replicate, h.df, List.countP_append, Nat.add_left_cancel_iff] at hdf
      have hnodup : (terms.map Prod.fst).Nodup := by
        refine List.nodup_iff_count_le_one.mpr fun t => ?_
        have ht := hdf t
        rw [List.count, List.countP_map]
        refine le_of_eq_of_le (Eq.trans ?_ ht) (List.countP_le_length.trans (le_refl 1))
        rfl
      refine ⟨hnew, hnodup, ?_⟩
      by_contra hno
      rw [not_or] at hno
      obtain ⟨hne, hid⟩ := hno
      obtain ⟨e, rest, rfl⟩ := List.exists_cons_of_ne_nil hne
      have ht : hasTerm e.1 (id, e :: rest) = true := by simp [hasTerm]
      have hpos := termScore_pos h id hnodup ht
      have hscore : (st.add id (e :: rest)).bm25 Real.log st.doc_terms.length [(e.1, 1)]
          (3 / 2) (3 / 4) =
          (st.add id (e :: rest)).termScore Real.log st.doc_terms.length (3 / 2) (3 / 4) (e.1, 1) :=
        zero_add _
      have hcand : st.doc_terms.length ∈ (st.add id (e :: rest)).candidates [(e.1, 1)] := by
        refine ((candidates_spec _ _).2 _).mpr ⟨(e.1, 1), by simp, ?_⟩
        rw [add_postings, countP_term hnodup id e.1, if_pos ht]
        simp
      have hfound := mem_search Real.log (Nat.succ_ne_zero _) hcand (hscore ▸ hpos)
      obtain ⟨d, hd, hnum, hhit, _⟩ := (hexact.search _ _).sound _ hfound
      -- the document found is the new one or an older one, and neither has this number
      rw [Docs.step, filter_absent hnew] at hd
      rcases List.mem_append.mp hd with hd | hd
      · obtain ⟨order, hin, _, hself⟩ := h.slot d hd
        have hlt := h.order_lt hin
        rw [hself (hit_ne_nil hhit), hnum] at hlt
        exact Nat.lt_irrefl _ hlt
      · rw [List.mem_singleton.mp hd] at hnum
        exact hid hnum

theorem always_iff {docs : Docs ℝ} {st : SparseIndex ℝ} (h : Tracks docs st)
    (ops : List (SparseOp ℝ)) : Always docs st ops ↔ AllInOrder docs st ops := by
  induction ops generalizing docs st with
  | nil => exact iff_of_true (h.exact Real.log) trivial
  | cons op ops ih =>
      constructor
      · rintro ⟨_, hnext⟩
        have hstep : Exact Real.log (Docs.step docs op) (st.step op) := by
          cases ops with
          | nil => exact hnext
          | cons op' ops => exact hnext.1
        have hok := inOrder_of_exact h hstep
        exact ⟨hok, (ih (h.step hok)).mp hnext⟩
      · rintro ⟨hok, hrest⟩
        exact ⟨h.exact Real.log, (ih (h.step hok)).mpr hrest⟩

/-- **Sparse and hybrid search.**  In a sequence of `add_sparse` and `forget` everything is
right in every state exactly when each document comes in at its own number: under an id that
is not attached, without a repeated term, and, if it has terms, as the document after as many
additions as its id says. -/
theorem sparse_exact_iff (ops : List (SparseOp ℝ)) :
    Always [] SparseIndex.new ops ↔ AllInOrder [] SparseIndex.new ops :=
  always_iff tracks_new ops

/-- The first document, attached under the id 5, is found under the id 0. -/
theorem sparse_ids_are_orders :
    ¬ ∀ ops : List (SparseOp ℝ),
      Exact Real.log (ops.foldl Docs.step []) (ops.foldl SparseIndex.step SparseIndex.new) := by
  intro h
  have hexact : Exact Real.log (Docs.step [] (.add 5 [(7, 1)]))
      (SparseIndex.new.step (.add 5 [(7, 1)])) := h [.add 5 [(7, 1)]]
  have hok := inOrder_of_exact tracks_new hexact
  rcases hok.2.2 with hnil | hnum
  · cases hnil
  · cases hnum

end Exactness

end Sparse
end StrikeDB
