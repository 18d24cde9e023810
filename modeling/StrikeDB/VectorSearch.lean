import Mathlib.Data.Set.Card
import StrikeDB.VectorGraph

/-!
# StrikeDB: what a vector search returns

* `Linked`: every index that the graph holds is that of a node.
* `descent_spec`: the node at which layer 0 is entered does not depend on the stamps that
  earlier searches left, nor on the order in which heaps are drained.
* `candidates_eq`: the candidates of a walk are the nearest of its beam.
* `length_rescore`, `pairwise_rescore`, `nodup_rescore`: what is returned of them.
-/

namespace StrikeDB
namespace Vectors

variable {V F : Type}

namespace Hnsw

/-- Every index in the graph is that of a node. -/
structure Linked (g : Hnsw V) : Prop where
  entry : ∀ e, g.entry = some e → e < g.nodes.length
  neighbors : ∀ node ∈ g.nodes, ∀ l ∈ node.neighbors, ∀ i ∈ l, i < g.nodes.length
  attr_entry : ∀ e, some e ∈ g.attr_entry → e < g.nodes.length

theorem Linked.adj_lt {g : Hnsw V} (h : g.Linked) (level i : Nat) :
    ∀ j ∈ g.adj level i, j < g.nodes.length := by
  intro j hj
  unfold adj at hj
  cases hn : g.nodes[i]? with
  | none => simp [hn] at hj
  | some node =>
    cases hl : node.neighbors[level]? with
    | none => simp [hn, hl] at hj
    | some l =>
      simp only [hn, Option.bind_some, hl, Option.getD_some] at hj
      exact h.neighbors node (List.mem_of_getElem? hn) l (List.mem_of_getElem? hl) j hj

theorem Linked.entryFor_lt {g : Hnsw V} (h : g.Linked) {filter : Filter} {e : Nat}
    (he : g.entryFor filter = some e) :
    e < g.nodes.length := by
  have hkind : ∀ a : UInt32, (g.attr_entry[a.toNat]?).join = some e →
      e < g.nodes.length := by
    intro a ha
    rw [Option.join_eq_some_iff] at ha
    exact h.attr_entry e (List.mem_of_getElem? ha)
  unfold entryFor at he
  rcases Option.or_eq_some_iff.mp he with hf | ⟨-, hf⟩
  · cases filter with
    | Any => exact h.entry e hf
    | Eq a => exact hkind a hf
    | In set =>
      obtain ⟨a, -, ha⟩ := List.exists_of_findSome?_eq_some hf
      exact hkind a ha
  · exact h.entry e hf

end Hnsw

variable [LinearOrder F]

theorem min_by_dist_mem {l : List (Cand F)} {c : Cand F} (h : min_by_dist l = some c) :
    c ∈ l := by
  induction l generalizing c with
  | nil => exact absurd h (by simp [min_by_dist])
  | cons d l ih =>
    unfold min_by_dist at h
    cases hl : min_by_dist l with
    | none =>
      simp only [hl, Option.some.injEq] at h
      rw [← h]
      exact List.mem_cons_self
    | some best =>
      simp only [hl] at h
      split at h
      · rw [← Option.some.inj h]
        exact List.mem_cons_of_mem d (ih hl)
      · rw [← Option.some.inj h]
        exact List.mem_cons_self

omit [LinearOrder F] in
/-- There is one order only for a heap of one entry. -/
theorem HeapOrder.list_of_length_le_one (heap : HeapOrder F) {l : List (Cand F)}
    (h : l.length ≤ 1) :
    heap.list l = l := by
  have hperm := heap.perm l
  match l, h with
  | [], _ => exact List.perm_nil.mp hperm
  | [_], _ => exact List.perm_singleton.mp hperm

/-! ## The start of layer 0 -/

namespace Hnsw

/-- The layer search for the nodes in `wanted`. -/
def find (g : Hnsw V) (dist : Nat → F) (wanted : Nat → Bool) (entry ef level : Nat)
    (s : VisitScratch) : Beam F :=
  layer g.nodes.length (g.adj level) dist wanted entry ef s

/-- The descent through the upper layers. -/
def descent (g : Hnsw V) (dist : Nat → F) (wanted : Nat → Bool) (heap : HeapOrder F)
    (entry : Nat) (s : VisitScratch) : Nat × VisitScratch :=
  descend (fun cur lvl s => g.find dist wanted cur 1 lvl s.bump_epoch) heap g.upper entry s

/-- The descent stays in the graph, keeps the buffer large enough, and ends at the same
node whatever the stamps and the order of the heaps. -/
theorem descent_spec
    {g : Hnsw V} (hg : g.Linked) (dist : Nat → F) (wanted : Nat → Bool)
    (heap heap' : HeapOrder F) {cur : Nat} {s s' : VisitScratch} (hcur : cur < g.nodes.length)
    (hs : g.nodes.length ≤ s.visited.length) (hs' : g.nodes.length ≤ s'.visited.length) :
    (g.descent dist wanted heap cur s).1 < g.nodes.length ∧
      g.nodes.length ≤ (g.descent dist wanted heap cur s).2.visited.length ∧
      (g.descent dist wanted heap' cur s').1 = (g.descent dist wanted heap cur s).1 := by
  unfold descent
  generalize g.upper = levels
  induction levels generalizing cur s s' with
  | nil => exact ⟨hcur, hs, rfl⟩
  | cons lvl levels ih =>
    simp only [descend, find]
    have hb : g.nodes.length ≤ s.bump_epoch.visited.length := by
      rw [VisitScratch.length_bump_epoch]
      exact hs
    have hb' : g.nodes.length ≤ s'.bump_epoch.visited.length := by
      rw [VisitScratch.length_bump_epoch]
      exact hs'
    have hsame := layer_of_same dist wanted 1 (hg.adj_lt lvl) hcur hb hb' s.bump_epoch_fresh
      s'.bump_epoch_fresh
    have hone := length_layer g.nodes.length (g.adj lvl) dist wanted cur s.bump_epoch
      Nat.one_pos
    rw [hsame, heap.list_of_length_le_one hone, heap'.list_of_length_le_one hone]
    refine ih ?_ ?_ ?_
    · cases hm : min_by_dist
        (layer g.nodes.length (g.adj lvl) dist wanted cur 1 s.bump_epoch).results with
      | none => exact hcur
      | some c =>
        have hreach := ((layer_mem (hcur.trans_le hb)).kept c (min_by_dist_mem hm)).1
        rcases Relation.ReflTransGen.cases_tail hreach with heq | ⟨j, -, hj⟩
        · simpa [heq] using hcur
        · exact hg.adj_lt lvl j c.idx hj
    · rw [length_scratch_layer]
      exact hb
    · rw [length_scratch_layer]
      exact hb'

/-- The distance that the walk for `filter` navigates by. -/
def nav (q : Query F) (filter : Filter) : Nat → F :=
  if filter = .Any then q.walk else q.gated

/-- The distance that orders the candidates of the walk for `filter`. -/
def rank (q : Query F) (filter : Filter) : Nat → F :=
  if filter = .Any then q.score.getD q.walk else q.gated

/-- The nodes that the walk for `filter` may return. -/
def admits (g : Hnsw V) (filter : Filter) : Nat → Bool :=
  if filter = .Any then fun _ => true else g.matchesAt filter

/-- The node at which the walk for `filter` enters the graph. -/
def door (g : Hnsw V) (filter : Filter) : Option Nat :=
  if filter = .Any then g.entry else if g.nodes.length = 0 then none else g.entryFor filter

/-- The node at which the search of layer 0 starts, if there is a walk at all. -/
def start (g : Hnsw V) (q : Query F) (filter : Filter) : Option Nat :=
  (g.door filter).map fun entry =>
    (g.descent (nav q filter) (g.admits filter) (HeapOrder.popped F) entry
      (VisitScratch.new.ensure_visited g.nodes.length)).1

/-- The beam of the layer-0 search from `x`. -/
def beam (g : Hnsw V) (q : Query F) (filter : Filter) (x ef : Nat) : List (Cand F) :=
  (layer g.nodes.length (g.adj 0) (nav q filter) (g.admits filter) x ef
    (VisitScratch.new.ensure_visited g.nodes.length)).results

theorem Linked.door_lt {g : Hnsw V} (h : g.Linked) {filter : Filter} {e : Nat}
    (he : g.door filter = some e) :
    e < g.nodes.length := by
  unfold door at he
  split at he
  · exact h.entry e he
  · split at he
    · exact absurd he (by simp)
    · exact h.entryFor_lt he

theorem Linked.start_lt {g : Hnsw V} (h : g.Linked) {q : Query F} {filter : Filter} {x : Nat}
    (hx : g.start q filter = some x) :
    x < g.nodes.length := by
  obtain ⟨e, he, rfl⟩ := Option.map_eq_some_iff.mp hx
  have hsize := VisitScratch.length_ensure_visited g.nodes.length VisitScratch.new
  exact (descent_spec h (nav q filter) (g.admits filter) (HeapOrder.popped F) (HeapOrder.popped F) (h.door_lt he)
    hsize hsize).1

/-- A search walks to the beam of `beam`, whatever stamps it finds. -/
theorem walk_eq
    {g : Hnsw V} (hg : g.Linked) (q : Query F) (filter : Filter) (heap : HeapOrder F)
    {e x : Nat} (he : g.door filter = some e) (hx : g.start q filter = some x) (ef : Nat)
    (s : VisitScratch) :
    (g.walk_layers (g.find (nav q filter) (g.admits filter)) heap e ef s).results =
      g.beam q filter x ef := by
  have hsize := VisitScratch.length_ensure_visited g.nodes.length VisitScratch.new
  obtain ⟨-, -, hcur⟩ := descent_spec hg (nav q filter) (g.admits filter)
    (HeapOrder.popped F) heap (hg.door_lt he) hsize (s.length_ensure_visited g.nodes.length)
  obtain ⟨hlt, hlen, -⟩ := descent_spec hg (nav q filter) (g.admits filter)
    heap heap (hg.door_lt he) (s.length_ensure_visited g.nodes.length) hsize
  obtain ⟨e', he', hx'⟩ := Option.map_eq_some_iff.mp hx
  obtain rfl : e = e' := Option.some.inj (he.symm.trans he')
  rw [hx'] at hcur
  rw [hcur] at hlt
  change (g.find (nav q filter) (g.admits filter) (g.descent (nav q filter) (g.admits filter)
    heap e (s.ensure_visited g.nodes.length)).1 ef 0 _).results = _
  rw [hcur]
  refine layer_of_same _ _ ef (hg.adj_lt 0) hlt hsize ?_ (VisitScratch.bump_epoch_fresh _)
    (VisitScratch.bump_epoch_fresh _)
  rw [VisitScratch.length_bump_epoch]
  exact hlen

/-- What a walk from `x` with a beam of `ef` offers, ranked and cut to `k`. -/
def offered (g : Hnsw V) (q : Query F) (filter : Filter) (heap : HeapOrder F) (x k ef : Nat) :
    List (Cand F) :=
  (sort_by_dist ((heap.list (g.beam q filter x ef)).map fun c =>
    ⟨rank q filter c.idx, c.idx⟩)).take k

/-- The beam of a search has reached admitted nodes, each of them once. -/
theorem beam_sound
    {g : Hnsw V} (q : Query F) (filter : Filter) {x : Nat} (hx : x < g.nodes.length)
    (ef : Nat) :
    Beam.Sound (g.adj 0) (nav q filter) (g.admits filter) x
      (layer g.nodes.length (g.adj 0) (nav q filter) (g.admits filter) x ef
        (VisitScratch.new.ensure_visited g.nodes.length)) :=
  layer_mem (hx.trans_le (VisitScratch.length_ensure_visited g.nodes.length VisitScratch.new))

/-- Candidates already carry the distance that the walk navigates by. -/
theorem map_nav_beam
    {g : Hnsw V} (hg : g.Linked) {q : Query F} {filter : Filter} {x ef : Nat}
    (hx : g.start q filter = some x) (heap : HeapOrder F) :
    ((heap.list (g.beam q filter x ef)).map fun c => (⟨nav q filter c.idx, c.idx⟩ : Cand F)) =
      heap.list (g.beam q filter x ef) := by
  have hsound := beam_sound q filter (hg.start_lt hx) ef
  refine (List.map_congr_left ?_).trans (List.map_id _)
  intro c hc
  rw [← (hsound.kept c ((heap.perm _).mem_iff.mp hc)).2.2.2]
  rfl

theorem search_indices_eq
    {g : Hnsw V} (hg : g.Linked) (q : Query F) (heap : HeapOrder F) (k ef : Nat)
    (s : VisitScratch) :
    (g.search_indices q heap k ef s).1 =
      match g.start q .Any with
      | none => []
      | some x => g.offered q .Any heap x k (max ef k) := by
  cases he : g.entry with
  | none => simp [search_indices, start, door, he]
  | some e =>
    have hdoor : g.door .Any = some e := by
      simp [door, he]
    obtain ⟨x, hx⟩ : ∃ x, g.start q .Any = some x := by
      simp [start, hdoor]
    have hwalk : (g.walk_layers (g.search_layer q.walk) heap e (max ef k) s).results =
        g.beam q .Any x (max ef k) :=
      walk_eq hg q .Any heap hdoor hx (max ef k) s
    simp only [hx, search_indices, he, hwalk, offered]
    cases hq : q.score with
    | some score => simp [rank, hq]
    | none =>
      have hrank : rank q .Any = nav q .Any := by
        simp [rank, nav, hq]
      rw [hrank, map_nav_beam hg hx heap]

/-- The candidates of a walk are the nearest of its beam. -/
theorem candidates_eq
    {g : Hnsw V} (hg : g.Linked) (q : Query F) (heap : HeapOrder F) (k ef : Nat)
    {filter : Filter} (hb : g.brute filter ef = false) (s : VisitScratch) :
    (g.search_indices_filtered q heap k ef filter s).1 =
      match g.start q filter with
      | none => []
      | some x => g.offered q filter heap x k (max ef k) := by
  unfold search_indices_filtered
  by_cases hany : filter = .Any
  · subst hany
    rw [if_pos rfl]
    exact search_indices_eq hg q heap k ef s
  rw [if_neg hany]
  by_cases hn : g.nodes.length = 0
  · have hstart : g.start q filter = none := by
      simp [start, door, hany, hn]
    rw [if_pos hn, hstart]
  rw [if_neg hn, hb]
  have hdoor : g.door filter = g.entryFor filter := by
    simp [door, hany, hn]
  cases he : g.entryFor filter with
  | none =>
    have hstart : g.start q filter = none := by
      simp [start, hdoor, he]
    rw [hstart]
    rfl
  | some e =>
    obtain ⟨x, hx⟩ : ∃ x, g.start q filter = some x := by
      simp [start, hdoor, he]
    have hfind : g.search_layer_filtered q.gated filter =
        g.find (nav q filter) (g.admits filter) := by
      funext entry ef level s
      simp only [search_layer_filtered, find, nav, admits, if_neg hany]
    have hrank : rank q filter = nav q filter := by
      simp [rank, nav, hany]
    have hwalk := walk_eq hg q filter heap (hdoor.trans he) hx (max ef k) s
    simp only [Bool.false_eq_true, if_false, hx, hfind, hwalk, offered, hrank]
    rw [map_nav_beam hg hx heap]

/-! ## What is returned of the candidates -/

omit [LinearOrder F] in
theorem hit_eq_some {g : Hnsw V} {q : Query F} {c : Cand F} {h : Hit F} :
    g.hit q c = some h ↔
      ∃ node, g.nodes[c.idx]? = some node ∧ node.deleted = false ∧
        h = ⟨node.id, q.exact c.idx⟩ := by
  unfold hit
  cases hn : g.nodes[c.idx]? with
  | none => simp
  | some node =>
    cases hd : node.deleted with
    | true => simp [hd]
    | false =>
      simp only [hd, Bool.false_eq_true, if_false, Option.some.injEq]
      constructor
      · rintro rfl
        exact ⟨node, rfl, hd, rfl⟩
      · rintro ⟨_, rfl, -, rfl⟩
        rfl

omit [LinearOrder F] in
theorem hit_isSome (g : Hnsw V) (q : Query F) (c : Cand F) :
    (g.hit q c).isSome = g.liveAt c.idx := by
  unfold hit liveAt
  cases hn : g.nodes[c.idx]? with
  | none => rfl
  | some node =>
    cases hd : node.deleted with
    | true => simp [hd]
    | false => simp [hd]

theorem length_rescore (g : Hnsw V) (q : Query F) (k : Nat) (C : List (Cand F)) :
    (g.rescore q k C).length = min k (C.countP fun c => g.liveAt c.idx) := by
  unfold rescore
  rw [List.length_take, List.length_insertionSort, List.length_filterMap_eq_countP]
  simp only [hit_isSome]

theorem mem_rescore {g : Hnsw V} {q : Query F} {k : Nat} {C : List (Cand F)} {h : Hit F}
    (hh : h ∈ g.rescore q k C) :
    ∃ c ∈ C, g.hit q c = some h :=
  List.mem_filterMap.mp ((List.mem_insertionSort _).mp (List.mem_of_mem_take hh))

theorem pairwise_rescore (g : Hnsw V) (q : Query F) (k : Nat) (C : List (Cand F)) :
    (g.rescore q k C).Pairwise fun h h' => h.dist ≤ h'.dist := by
  have : IsTrans (Hit F) (fun h h' => h.dist ≤ h'.dist) := ⟨fun _ _ _ h h' => h.trans h'⟩
  have : Std.Total fun h h' : Hit F => h.dist ≤ h'.dist := ⟨fun h h' => le_total h.dist h'.dist⟩
  exact (List.pairwise_insertionSort _ _).sublist (List.take_sublist k _)

/-- No two candidates that give a result have nodes with the same id. -/
def Apart (g : Hnsw V) (q : Query F) (c c' : Cand F) : Prop :=
  ∀ h, g.hit q c = some h → ∀ h', g.hit q c' = some h' → h.id ≠ h'.id

theorem nodup_rescore {g : Hnsw V} {q : Query F} (k : Nat) {C : List (Cand F)}
    (h : C.Pairwise (g.Apart q)) :
    ((g.rescore q k C).map Hit.id).Nodup := by
  have hsub := (List.take_sublist k
    ((C.filterMap (g.hit q)).insertionSort (·.dist ≤ ·.dist))).map Hit.id
  refine List.Nodup.sublist hsub ?_
  rw [((List.perm_insertionSort _ _).map Hit.id).nodup_iff, List.Nodup, List.pairwise_map,
    List.pairwise_filterMap]
  exact h

/-- With room for all of them, results with distinct ids come from candidates apart. -/
theorem apart_of_nodup {g : Hnsw V} {q : Query F} {k : Nat} {C : List (Cand F)}
    (hk : C.length ≤ k) (h : ((g.rescore q k C).map Hit.id).Nodup) :
    C.Pairwise (g.Apart q) := by
  have hlen : ((C.filterMap (g.hit q)).insertionSort (·.dist ≤ ·.dist)).length ≤ k := by
    rw [List.length_insertionSort]
    exact (List.length_filterMap_le _ _).trans hk
  rw [rescore, List.take_of_length_le hlen,
    ((List.perm_insertionSort _ _).map Hit.id).nodup_iff, List.Nodup, List.pairwise_map,
    List.pairwise_filterMap] at h
  exact h

end Hnsw
end Vectors
end StrikeDB
