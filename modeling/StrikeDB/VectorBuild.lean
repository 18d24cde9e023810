import StrikeDB.VectorGraph

/-!
# StrikeDB: building the vector graph

How the graph of the vector index comes to be: `insert_attr` links one node into it,
`merge_into` appends graphs built apart and bridges them, `merge_segments` does so for a
bulk load, and `forget` marks a node deleted.

The levels of new nodes, which the code draws at random, are arguments here, and so is
the order in which heaps are drained. A vector stands for everything that the index keeps
for a node, already normalized and quantized.
-/

namespace StrikeDB
namespace Vectors

/-- The measures that construction goes by: the length of a vector, the distance that a
layer search navigates by, the one that edges are pruned by, and the multiple of `m_max0`
to which a merge prunes. -/
structure Build (V F : Type) where
  dim : V → Nat
  node_dist : V → V → F
  cos_dist_q : V → V → F
  merge_cap_mult : Nat

/-- One row of a batch: id, vector, attribute, and the level its node gets. -/
structure Row (V : Type) where
  id : UInt64
  vector : V
  attr : UInt32
  level : Nat

/-- `resize(n, a)`, where the list is not longer yet. -/
def grow {α : Type} (n : Nat) (a : α) (l : List α) : List α :=
  l ++ List.replicate (n - l.length) a

variable {V F : Type}

namespace Hnsw

/-- `Hnsw::new`. -/
def new : Hnsw V where
  nodes := []
  id_to_idx := fun _ => none
  dim := 0
  entry := none
  max_level := 0
  m := 32
  m_max0 := 64
  ef_construction := 200
  attr_counts := []
  attr_entry := []

/-- Replace the edges of node `i` at `level`. -/
def relink (g : Hnsw V) (i level : Nat) (f : List Nat → List Nat) : Hnsw V :=
  { g with
    nodes := g.nodes.modify i fun node =>
      { node with neighbors := node.neighbors.modify level f } }

/-- The topmost level of node `i`. -/
def level (g : Hnsw V) (i : Nat) : Nat :=
  ((g.nodes[i]?.map fun node => node.neighbors.length).getD 0) - 1

/-- Mark the node of `id` deleted and forget the id. -/
def forget (g : Hnsw V) (id : UInt64) : Hnsw V :=
  match g.id_to_idx id with
  | none => g
  | some idx =>
    { g with
      nodes := g.nodes.modify idx fun node => { node with deleted := true }
      id_to_idx := Function.update g.id_to_idx id none }

/-- Append a node without edges and enter it in the tables. The first one fixes the
dimension. -/
def place (g : Hnsw V) (id : UInt64) (vector : V) (dim : Nat) (attr : UInt32)
    (level : Nat) : Hnsw V :=
  { g with
    nodes := g.nodes ++ [⟨id, List.replicate (level + 1) [], false, attr, vector⟩]
    id_to_idx := Function.update g.id_to_idx id (some g.nodes.length)
    dim := if g.dim = 0 then dim else g.dim
    attr_counts := (grow (attr.toNat + 1) 0 g.attr_counts).modify attr.toNat (· + 1)
    attr_entry :=
      (grow (attr.toNat + 1) none g.attr_entry).modify attr.toNat (·.or (some g.nodes.length)) }

variable [Inhabited V] [LinearOrder F]

/-- What the index keeps for node `i`. -/
def vec_at (g : Hnsw V) (i : Nat) : V :=
  (g.nodes[i]?.map Node.vec).getD default

/-- The distance of `vector` from node `i`, as a layer search sees it. -/
def dist_from (g : Hnsw V) (B : Build V F) (vector : V) (i : Nat) : F :=
  B.node_dist vector (g.vec_at i)

/-- The `cap` nodes of `l` that are nearest to node `i`. -/
def nearest (g : Hnsw V) (B : Build V F) (i cap : Nat) (l : List Nat) : List Nat :=
  ((sort_by_dist (l.map fun x =>
    ⟨B.cos_dist_q (g.vec_at i) (g.vec_at x), x⟩)).take cap).map Cand.idx

/-- The first pass of `select_neighbors_heuristic`: leave out a candidate that is nearer
to one already selected than to the new node. -/
def spread (g : Hnsw V) (B : Build V F) (m : Nat) : List (Cand F) → List Nat → List Nat
  | [], selected => selected
  | cand :: rest, selected =>
    if m ≤ selected.length then
      selected
    else if selected.any fun s => B.cos_dist_q (g.vec_at cand.idx) (g.vec_at s) < cand.dist then
      g.spread B m rest selected
    else
      g.spread B m rest (selected ++ [cand.idx])

omit [LinearOrder F] in
/-- Its second pass: fill up with the nearest that were left out. -/
def pad (m : Nat) : List (Cand F) → List Nat → List Nat
  | [], selected => selected
  | cand :: rest, selected =>
    if m ≤ selected.length then
      selected
    else if cand.idx ∈ selected then
      pad m rest selected
    else
      pad m rest (selected ++ [cand.idx])

/-- Up to `m` of the candidates, with a spread of directions. -/
def select_neighbors_heuristic (g : Hnsw V) (B : Build V F) (candidates : List (Cand F))
    (m : Nat) : List Nat :=
  pad m candidates (g.spread B m candidates [])

/-- Link the new node `idx` and its neighbour `nb` both ways, and prune what got too
long. -/
def link (B : Build V F) (idx lvl : Nat) (selected : List Nat) (g : Hnsw V) (nb : Nat) :
    Hnsw V :=
  let g := g.relink idx lvl (· ++ [nb])
  let g := g.relink nb lvl (· ++ [idx])
  let g := if g.m < (g.adj lvl idx).length then g.relink idx lvl fun _ => selected else g
  if g.m_max0 < (g.adj lvl nb).length then g.relink nb lvl (g.nearest B nb g.m_max0) else g

/-- Link the new node `idx` at level `lvl`, and move on to the nearest node found. -/
def link_level (B : Build V F) (heap : HeapOrder F) (idx : Nat) (vector : V)
    (st : Hnsw V × Nat × VisitScratch) (lvl : Nat) : Hnsw V × Nat × VisitScratch :=
  let (g, cur, s) := st
  let b := g.search_layer (g.dist_from B vector) cur g.ef_construction lvl s
  let found := sort_by_dist (heap.list b.results)
  let selected := g.select_neighbors_heuristic B found g.m
  (selected.foldl (link B idx lvl selected) g, (found.head?.map Cand.idx).getD cur, b.scratch)

/-- Insert a vector. One whose id is there is replaced where it is and keeps its edges; one
of another dimension is ignored. All levels share one epoch. -/
def insert_attr (g : Hnsw V) (B : Build V F) (heap : HeapOrder F) (row : Row V)
    (s : VisitScratch) : Hnsw V × VisitScratch :=
  match g.id_to_idx row.id with
  | some idx =>
    ({ g with nodes := g.nodes.modify idx fun node => { node with vec := row.vector } }, s)
  | none =>
    if g.dim ≠ 0 ∧ B.dim row.vector ≠ g.dim then
      (g, s)
    else
      let idx := g.nodes.length
      let g := g.place row.id row.vector (B.dim row.vector) row.attr row.level
      match g.entry with
      | none => ({ g with entry := some idx, max_level := row.level }, s)
      | some entry =>
        let top := g.max_level
        let (cur, s) := descend
          (fun cur lvl s => g.search_layer (g.dist_from B row.vector) cur 1 lvl s) heap
          (List.range' (row.level + 1) (top - row.level)).reverse entry
          (s.ensure_visited g.nodes.length)
        let (g, _, s) := (List.range (min row.level top + 1)).reverse.foldl
          (link_level B heap idx row.vector) (g, cur, s)
        if g.max_level < row.level then
          ({ g with max_level := row.level, entry := some idx }, s)
        else
          (g, s)

/-! ## Merging -/

/-- Build a segment from rows of dimension `dim`, on a thread of its own. -/
def segment (B : Build V F) (heap : HeapOrder F) (dim : Nat) (rows : List (Row V)) : Hnsw V :=
  (rows.foldl (fun (st : Hnsw V × VisitScratch) row => st.1.insert_attr B heap row st.2)
    ({ new with dim := dim }, VisitScratch.new)).1

/-- Append the nodes of a segment, renumbered, and fold in its attribute tables. Every id
is entered anew, also one that the graph has. -/
def append (g seg : Hnsw V) : Hnsw V :=
  let offset := g.nodes.length
  { g with
    nodes := g.nodes ++ seg.nodes.map fun node =>
      { node with neighbors := node.neighbors.map fun l => l.map (offset + ·) }
    id_to_idx := (seg.nodes.zipIdx offset).foldl
      (fun ids p => Function.update ids p.1.id (some p.2)) g.id_to_idx
    attr_counts := seg.attr_counts.zipIdx.foldl (fun counts p => counts.modify p.2 (· + p.1))
      (grow seg.attr_counts.length 0 g.attr_counts)
    attr_entry := grow seg.attr_counts.length none g.attr_entry }

/-- Enter the nodes from `base` on as representatives of attributes that have none. -/
def enter_attrs (base : Nat) (g : Hnsw V) : Hnsw V :=
  { g with
    attr_entry := ((g.nodes.zipIdx).drop base).foldl
      (fun entries p => entries.modify p.1.attr.toNat (·.or (some p.2))) g.attr_entry }

/-- The first of the tallest nodes and its level. -/
def tallest (g : Hnsw V) : Nat × Nat :=
  g.nodes.zipIdx.foldl
    (fun best p => if best.2 < p.1.neighbors.length - 1 then (p.2, p.1.neighbors.length - 1)
      else best) (0, 0)

/-- Enter the graph at its tallest node. -/
def crown (g : Hnsw V) : Hnsw V :=
  { g with entry := some g.tallest.1, max_level := g.tallest.2 }

/-- The `k` nodes of a segment that are nearest to `vector`. -/
def search_local (g : Hnsw V) (B : Build V F) (heap : HeapOrder F) (vector : V) (k : Nat)
    (s : VisitScratch) : List Nat × VisitScratch :=
  match g.entry with
  | none => ([], s)
  | some entry =>
    let b := g.walk_layers (g.search_layer (g.dist_from B vector)) heap entry k s
    (((sort_by_dist (heap.list b.results)).take k).map Cand.idx, b.scratch)

/-- A greedy descent that does not leave the nodes below `hi`. -/
def descend_below (hi : Nat) (find : Nat → Nat → VisitScratch → Beam F) (heap : HeapOrder F) :
    List Nat → Nat → VisitScratch → Nat × VisitScratch
  | [], cur, s => (cur, s)
  | lvl :: levels, cur, s =>
    let b := find cur lvl s
    let best := ((min_by_dist (heap.list b.results)).map Cand.idx).filter (· < hi)
    descend_below hi find heap levels (best.getD cur) b.scratch

/-- Where a search of the nodes below `hi` starts: at the entry node if it is one of them,
else at the tallest of a sample of at most 1024. -/
def probe (g : Hnsw V) (hi : Nat) : Nat :=
  match g.entry.filter (· < hi) with
  | some e => e
  | none =>
    let stride := max ((hi + 1023) / 1024) 1
    ((List.range ((hi + stride - 1) / stride)).map (· * stride)).foldl
      (fun best i =>
        if (g.nodes[best]?.map fun node => node.neighbors.length).getD 0 <
            (g.nodes[i]?.map fun node => node.neighbors.length).getD 0 then i else best) 0

/-- `search_local_range(0, hi, ..)`: the `k` nodes below `hi` that are nearest to
`vector`. -/
def search_local_range (g : Hnsw V) (B : Build V F) (heap : HeapOrder F) (hi : Nat)
    (vector : V) (k : Nat) (s : VisitScratch) : List Nat × VisitScratch :=
  let levels : Nat → Nat := fun i => (g.nodes[i]?.map fun node => node.neighbors.length).getD 0
  let start := (if levels (g.probe hi) ≠ 0 then some (g.probe hi) else
    (List.range hi).find? fun i => levels i ≠ 0).filter (· < hi)
  match start with
  | none => ([], s)
  | some entry =>
    let find := g.search_layer (g.dist_from B vector)
    let (cur, s) := descend_below hi (fun cur lvl s => find cur 1 lvl s.bump_epoch) heap
      (List.range' 1 (g.level entry)).reverse entry (s.ensure_visited g.nodes.length)
    let b := find cur k 0 s.bump_epoch
    let found := (heap.list b.results).filter (·.idx < hi)
    (((sort_by_dist found).take k).map Cand.idx, b.scratch)

/-- Make an edge between `a` and `b`, both ways, at the top level that both have. The list
`touched` notes whose edges grew. -/
def connect (a : Nat) (st : Hnsw V × List Nat) (b : Nat) : Hnsw V × List Nat :=
  let (g, touched) := st
  let lvl := min (g.level a) (g.level b)
  let (g, touched) :=
    if b ∈ g.adj lvl a then (g, touched) else (g.relink a lvl (· ++ [b]), touched ++ [a])
  if a ∈ g.adj lvl b then (g, touched) else (g.relink b lvl (· ++ [a]), touched ++ [b])

/-- The last position in `l` whose element is at most `a`. -/
def rposition (l : List Nat) (a : Nat) : Option Nat :=
  (List.range l.length).reverse.find? fun i => l[i]?.any (· ≤ a)

/-- The state of a bridge pass: the graph, whose edges grew, and the visited stamps. -/
structure Bridge (V : Type) where
  graph : Hnsw V
  touched : List Nat
  scratch : VisitScratch

/-- Bridge node `a` to the partitions nearest to it, `own` excepted: `reach` of them, by the
`bridge` nodes that `near` finds in each. -/
def bridge_node (B : Build V F) (entries : List V) (own : Nat → Nat) (reach : Nat)
    (near : Hnsw V → V → Nat → VisitScratch → List Nat × VisitScratch) (st : Bridge V)
    (a : Nat) : Bridge V :=
  let vector := st.graph.vec_at a
  let scored := sort_by_dist (((entries.zipIdx).filter (·.2 ≠ own a)).map fun p =>
    (⟨B.cos_dist_q vector p.1, p.2⟩ : Cand F))
  (scored.take reach).foldl (fun st c =>
    let (found, s) := near st.graph vector c.idx st.scratch
    let (g, touched) := found.foldl (connect a) (st.graph, st.touched)
    ⟨g, touched, s⟩) st

/-- The offsets at which segments are appended to `base` nodes. -/
def offsets (base : Nat) : List (Hnsw V) → List Nat
  | [] => []
  | seg :: segments => base :: offsets (base + seg.nodes.length) segments

/-- Search segment `i` for the `bridge` nodes nearest to `vector`, by their index in the
merged graph. -/
def near_segment (B : Build V F) (heap : HeapOrder F) (base : Nat) (segments : List (Hnsw V))
    (bridge : Nat) (vector : V) (i : Nat) (s : VisitScratch) : List Nat × VisitScratch :=
  match segments[i]? with
  | none => ([], s)
  | some seg =>
    let (found, s) := seg.search_local B heap vector bridge s
    (found.map (((offsets base segments)[i]?.getD 0) + ·), s)

/-- Prune every list of node `i` to its `cap` nearest. -/
def cap_degree (B : Build V F) (cap : Nat) (g : Hnsw V) (i : Nat) : Hnsw V :=
  (List.range (g.level i + 1)).foldl
    (fun g lvl => if (g.adj lvl i).length ≤ cap then g else g.relink i lvl (g.nearest B i cap)) g

/-- An empty graph takes the parameters of the first segment. -/
def inherit (g first : Hnsw V) : Hnsw V :=
  if g.nodes.isEmpty then
    { g with
      m := first.m
      m_max0 := first.m_max0
      ef_construction := first.ef_construction
      dim := max g.dim first.dim }
  else
    g

/-- Append segments, and bring the tables and the entry node up to date. -/
def assemble (g : Hnsw V) (segments : List (Hnsw V)) : Hnsw V :=
  (enter_attrs g.nodes.length (segments.foldl append g)).crown

/-- The bridge pass over `g`, whose first `base_n` nodes were there before the segments.
When few nodes are new, they alone look for bridges. -/
def bridge_pass (g : Hnsw V) (B : Build V F) (heap : HeapOrder F) (base_n : Nat)
    (segments : List (Hnsw V)) (bridge : Nat) (s : VisitScratch) : Bridge V :=
  let has_base := decide (0 < base_n)
  let shift := if has_base then 1 else 0
  let entries := (if has_base then [g.vec_at (g.entry.getD 0)] else []) ++
    segments.map fun seg => seg.vec_at (seg.entry.getD 0)
  let total := g.nodes.length
  let scan_from := if has_base && (total - base_n) * 4 < base_n then base_n else 0
  let own : Nat → Nat := fun a =>
    if has_base && a < base_n then 0
    else ((rposition (offsets base_n segments) a).map (· + shift)).getD 0
  let near : Hnsw V → V → Nat → VisitScratch → List Nat × VisitScratch := fun g vector i s =>
    if has_base && i == 0 then g.search_local_range B heap base_n vector bridge s
    else near_segment B heap base_n segments bridge vector (i - shift) s
  (List.range' scan_from (total - scan_from)).foldl (bridge_node B entries own 2 near) ⟨g, [], s⟩

/-- Merge segments into the live graph. -/
def merge_into (g : Hnsw V) (B : Build V F) (heap : HeapOrder F) (segments : List (Hnsw V))
    (bridge : Nat) (s : VisitScratch) : Hnsw V × VisitScratch :=
  match segments with
  | [] => (g, s)
  | first :: _ =>
    let st := ((g.inherit first).assemble segments).bridge_pass B heap g.nodes.length segments
      bridge s
    ((st.touched.dedup).foldl (cap_degree B (st.graph.m_max0 * B.merge_cap_mult)) st.graph,
      st.scratch)

/-- Merge the segments of a bulk load into one graph; every node is bridged to the other
segment nearest to it. -/
def merge_segments (B : Build V F) (heap : HeapOrder F) (segments : List (Hnsw V))
    (bridge : Nat) (s : VisitScratch) : Hnsw V × VisitScratch :=
  match segments with
  | [] => (new, s)
  | [seg] => (seg, s)
  | first :: _ =>
    let g := (inherit new first).assemble segments
    let entries := segments.map fun seg => seg.vec_at (seg.entry.getD 0)
    let own : Nat → Nat := fun a => (rposition (offsets 0 segments) a).getD 0
    let near : Hnsw V → V → Nat → VisitScratch → List Nat × VisitScratch :=
      fun _ vector i s => near_segment B heap 0 segments bridge vector i s
    let st := (List.range g.nodes.length).foldl (bridge_node B entries own 1 near) ⟨g, [], s⟩
    (st.graph, st.scratch)

/-- Give the nodes of a bulk load the ids of its rows. -/
def relabel (ids : List UInt64) (g : Hnsw V) : Hnsw V :=
  { g with
    nodes := g.nodes.map fun node =>
      { node with id := (ids[node.id.toNat]?).getD node.id }
    id_to_idx := (g.nodes.zipIdx).foldl (fun f p =>
      Function.update f ((ids[p.1.id.toNat]?).getD p.1.id) (some p.2)) fun _ => none }

/-! ## The index -/

/-- `check_dim`: what is wrong with a vector of length `len`, if anything. -/
def check_dim (g : Hnsw V) (len : Nat) : Bool :=
  len != 0 && (g.dim == 0 || len == g.dim)

/-- `VectorIndex::insert`, on the graph. -/
def insert (g : Hnsw V) (B : Build V F) (heap : HeapOrder F) (row : Row V)
    (s : VisitScratch) : Hnsw V × VisitScratch :=
  if g.check_dim (B.dim row.vector) then g.insert_attr B heap row s else (g, s)

/-- The ranges of a batch that its shards build: at least 1024 rows each, as even as can
be. -/
def shards (n_shards : Nat) (rows : List (Row V)) : List (List (Row V)) :=
  let n := rows.length
  let count := min (max (min (max n_shards 1) ((n + 1023) / 1024)) 1) n
  let per := (n + count - 1) / count
  ((List.range count).map fun i => (rows.drop (i * per)).take per).filter (!·.isEmpty)

/-- `VectorIndex::insert_many_parallel`, on the graph: build the shards apart, then merge
them. -/
def insert_many_parallel (g : Hnsw V) (B : Build V F) (heap : HeapOrder F)
    (rows : List (Row V)) (dim n_shards : Nat) (s : VisitScratch) : Hnsw V × VisitScratch :=
  if rows.isEmpty || !g.check_dim dim || !rows.all (fun row => B.dim row.vector == dim) then
    (g, s)
  else
    g.merge_into B heap ((shards n_shards rows).map (segment B heap dim)) 8 s

/-- A bulk load: segments of numbered rows, merged and given their ids. -/
def bulk_load (B : Build V F) (heap : HeapOrder F) (parts : List (List (Row V)))
    (ids : List UInt64) (dim bridge : Nat) (s : VisitScratch) : Hnsw V × VisitScratch :=
  if parts.all fun part => !part.isEmpty && part.all fun row => B.dim row.vector == dim then
    let (g, s) := merge_segments B heap (parts.map (segment B heap dim)) bridge s
    (g.relabel ids, s)
  else
    (new, s)

/-- The graphs that inserts, merges, bulk loads and deletions lead to. -/
inductive Reachable (B : Build V F) : Hnsw V → Prop
  | new : Reachable B new
  | bulk_load (heap : HeapOrder F) (parts : List (List (Row V))) (ids : List UInt64)
      (dim bridge : Nat) (s : VisitScratch) :
      Reachable B (bulk_load B heap parts ids dim bridge s).1
  | insert {g : Hnsw V} (h : Reachable B g) (heap : HeapOrder F) (row : Row V)
      (s : VisitScratch) :
      Reachable B (g.insert B heap row s).1
  | insert_many_parallel {g : Hnsw V} (h : Reachable B g) (heap : HeapOrder F)
      (rows : List (Row V)) (dim n_shards : Nat) (s : VisitScratch) :
      Reachable B (g.insert_many_parallel B heap rows dim n_shards s).1
  | forget {g : Hnsw V} (h : Reachable B g) (id : UInt64) :
      Reachable B (g.forget id)

end Hnsw
end Vectors
end StrikeDB
