import Mathlib.Data.List.Sort
import StrikeDB.LayerWalk

/-!
# StrikeDB: searching the vector graph

The layered graph of the vector index and its k-nearest-neighbour searches on the CPU.
A query is given by its distances from the nodes, which may be any total preorder.

* `search_indices` descends the upper layers from the entry node with a beam of one,
  searches layer 0, and over-fetches: what it returns still has deleted nodes in it.
* `search_indices_filtered` counts the nodes that may match, and scans them all when they
  are few; otherwise it walks the graph through every node and keeps the matching ones.
* `search_ef` and `search_filtered_attr` drop the deleted nodes, order the rest by their
  exact distance and cut to `k`.
-/

namespace StrikeDB
namespace Vectors

/-- A predicate on a node's attribute. -/
inductive Filter where
  | Any
  | Eq (kind : UInt32)
  | In (set : List UInt32)
deriving DecidableEq

/-- `Filter::matches`. -/
def Filter.matchesAttr (attr : UInt32) : Filter → Bool
  | Any => true
  | Eq kind => attr == kind
  | In set => set.any (· == attr)

/-- A node: `neighbors[level]` lists the nodes it has edges to, and `vec` is what the
flat storage holds for it, in every form the index keeps. -/
structure Node (V : Type) where
  id : UInt64
  neighbors : List (List Nat)
  deleted : Bool
  attr : UInt32
  vec : V

/-- The graph. `attr_counts` and `attr_entry` are indexed by attribute. -/
structure Hnsw (V : Type) where
  nodes : List (Node V)
  id_to_idx : UInt64 → Option Nat
  dim : Nat
  entry : Option Nat
  max_level : Nat
  m : Nat
  m_max0 : Nat
  ef_construction : Nat
  attr_counts : List Nat
  attr_entry : List (Option Nat)

/-- The distances of one query from the nodes: the one that a plain search navigates by,
the score that reranks its beam under a rotating quantization, the one that a filtered
search navigates by, and the exact one. -/
structure Query (F : Type) where
  walk : Nat → F
  score : Option (Nat → F)
  gated : Nat → F
  exact : Nat → F

/-- The order in which `into_iter` drains a heap is not specified. -/
structure HeapOrder (F : Type) where
  list : List (Cand F) → List (Cand F)
  perm : ∀ l, (list l).Perm l

/-- The heap drained in the order in which it pops. -/
def HeapOrder.popped (F : Type) : HeapOrder F :=
  ⟨id, List.Perm.refl⟩

/-- A search result. -/
structure Hit (F : Type) where
  id : UInt64
  dist : F
deriving DecidableEq, Repr

variable {V F : Type}

namespace Hnsw

/-- The edges of node `i` at `level`; a node below that level has none. -/
def adj (g : Hnsw V) (level i : Nat) : List Nat :=
  ((g.nodes[i]?.bind (·.neighbors[level]?)).getD [])

/-- `filter.matches(nodes[i].attr)`. -/
def matchesAt (g : Hnsw V) (filter : Filter) (i : Nat) : Bool :=
  g.nodes[i]?.any fun node => filter.matchesAttr node.attr

/-- Node `i` is there and not deleted. -/
def liveAt (g : Hnsw V) (i : Nat) : Bool :=
  g.nodes[i]?.any fun node => !node.deleted

/-- The upper levels, from the top down. -/
def upper (g : Hnsw V) : List Nat :=
  (List.range' 1 g.max_level).reverse

/-- The number of nodes ever inserted that `filter` may match. -/
def matching (g : Hnsw V) : Filter → Nat
  | .Any => g.nodes.length
  | .Eq a => (g.attr_counts[a.toNat]?).getD 0
  | .In set => (set.map fun a => (g.attr_counts[a.toNat]?).getD 0).sum

/-- Where a filtered walk enters the graph: at a matching node, if one is recorded. -/
def entryFor (g : Hnsw V) (filter : Filter) : Option Nat :=
  let kind : UInt32 → Option Nat := fun a => (g.attr_entry[a.toNat]?).join
  (match filter with
    | .Any => g.entry
    | .Eq a => kind a
    | .In set => set.findSome? kind).or g.entry

/-- A filtered search scans all matching nodes when they are fewer than twice the beam. -/
def brute (g : Hnsw V) (filter : Filter) (ef : Nat) : Bool :=
  filter != .Any && decide (0 < g.matching filter) &&
    decide (g.matching filter < max (ef * 2) 64)

variable [LinearOrder F]

/-- Search one level. -/
def search_layer (g : Hnsw V) (dist : Nat → F) (entry ef level : Nat) (s : VisitScratch) :
    Beam F :=
  layer g.nodes.length (g.adj level) dist (fun _ => true) entry ef s

/-- Search one level for matching nodes, through all others. -/
def search_layer_filtered (g : Hnsw V) (dist : Nat → F) (filter : Filter)
    (entry ef level : Nat) (s : VisitScratch) : Beam F :=
  layer g.nodes.length (g.adj level) dist (g.matchesAt filter) entry ef s

end Hnsw

variable [LinearOrder F]

/-- `min_by` on the distance: the first of the nearest. -/
def min_by_dist : List (Cand F) → Option (Cand F)
  | [] => none
  | c :: rest =>
    match min_by_dist rest with
    | none => some c
    | some best => if best.dist < c.dist then some best else some c

/-- A stable sort on the distance. -/
def sort_by_dist (l : List (Cand F)) : List (Cand F) :=
  l.insertionSort (·.dist ≤ ·.dist)

/-- Greedy descent: at each level move on to the best node found, if any. -/
def descend (find : Nat → Nat → VisitScratch → Beam F) (heap : HeapOrder F) :
    List Nat → Nat → VisitScratch → Nat × VisitScratch
  | [], cur, s => (cur, s)
  | lvl :: levels, cur, s =>
    let b := find cur lvl s
    descend find heap levels (((min_by_dist (heap.list b.results)).map Cand.idx).getD cur)
      b.scratch

namespace Hnsw

/-- A search of all layers from `entry` by the layer search `find`: down the upper ones
with a beam of one, then layer 0 with a beam of `ef`. Every layer has an epoch of its
own. -/
def walk_layers (g : Hnsw V) (find : Nat → Nat → Nat → VisitScratch → Beam F)
    (heap : HeapOrder F) (entry ef : Nat) (s : VisitScratch) : Beam F :=
  let (cur, s) := descend (fun cur lvl s => find cur 1 lvl s.bump_epoch) heap g.upper entry
    (s.ensure_visited g.nodes.length)
  find cur ef 0 s.bump_epoch

/-- The nodes nearest to the query, deleted ones included. -/
def search_indices (g : Hnsw V) (q : Query F) (heap : HeapOrder F) (k ef : Nat)
    (s : VisitScratch) : List (Cand F) × VisitScratch :=
  match g.entry with
  | none => ([], s)
  | some entry =>
    let b := g.walk_layers (g.search_layer q.walk) heap entry (max ef k) s
    let found := heap.list b.results
    match q.score with
    | some score =>
      ((sort_by_dist (found.map fun c => ⟨score c.idx, c.idx⟩)).take k, b.scratch)
    | none => ((sort_by_dist found).take k, b.scratch)

/-- The live matching nodes, by a scan. -/
def scored (g : Hnsw V) (q : Query F) (filter : Filter) : List (Cand F) :=
  ((List.range g.nodes.length).filter fun i => g.liveAt i && g.matchesAt filter i).map
    fun i => ⟨q.gated i, i⟩

/-- The matching nodes nearest to the query: by a scan of the live ones if few can match,
else by a walk, which returns deleted ones too. -/
def search_indices_filtered (g : Hnsw V) (q : Query F) (heap : HeapOrder F) (k ef : Nat)
    (filter : Filter) (s : VisitScratch) : List (Cand F) × VisitScratch :=
  if filter = .Any then
    g.search_indices q heap k ef s
  else if g.nodes.length = 0 then
    ([], s)
  else if g.brute filter ef then
    ((sort_by_dist (g.scored q filter)).take k, s)
  else
    match g.entryFor filter with
    | none => ([], s)
    | some entry =>
      let b := g.walk_layers (g.search_layer_filtered q.gated filter) heap entry (max ef k) s
      ((sort_by_dist (heap.list b.results)).take k, b.scratch)

/-- The result that candidate `c` gives, if its node is not deleted. -/
def hit (g : Hnsw V) (q : Query F) (c : Cand F) : Option (Hit F) :=
  match g.nodes[c.idx]? with
  | none => none
  | some node => if node.deleted then none else some ⟨node.id, q.exact c.idx⟩

/-- Rerank the live candidates by their exact distance, and cut to `k`. -/
def rescore (g : Hnsw V) (q : Query F) (k : Nat) (candidates : List (Cand F)) : List (Hit F) :=
  ((candidates.filterMap (g.hit q)).insertionSort (·.dist ≤ ·.dist)).take k

/-- How many candidates a search for `k` results asks for. -/
def rerank_k (k : Nat) : Nat :=
  max (k * 4) 64

/-- k-nearest-neighbour search. -/
def search_ef (g : Hnsw V) (q : Query F) (heap : HeapOrder F) (k ef : Nat)
    (s : VisitScratch) : List (Hit F) × VisitScratch :=
  let (candidates, s) := g.search_indices q heap (rerank_k k) (max ef (rerank_k k)) s
  (g.rescore q k candidates, s)

/-- Filtered k-nearest-neighbour search. -/
def search_filtered_attr (g : Hnsw V) (q : Query F) (heap : HeapOrder F) (k ef : Nat)
    (filter : Filter) (s : VisitScratch) : List (Hit F) × VisitScratch :=
  let (candidates, s) :=
    g.search_indices_filtered q heap (rerank_k k) (max ef (rerank_k k)) filter s
  (g.rescore q k candidates, s)

end Hnsw
end Vectors
end StrikeDB
