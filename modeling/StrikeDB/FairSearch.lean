import StrikeDB.VectorSearch

/-!
# StrikeDB: when a vector search is right

* `Right`: what a search should return. At most `k` results, each once, live and
  matching, nearest first; and with a beam as wide as the graph as many as there are.
* `Fair`: when it does. Ids tell the live nodes apart, and among the nodes that are
  ranked before the cut at `rerank_k` enough are live.
* `right_iff`: the one exactly when the other.
-/

namespace StrikeDB
namespace Vectors

variable {V F : Type} [LinearOrder F]

theorem ncard_eq_length {l : List Nat} {S : Set Nat} (hl : l.Nodup) (h : ∀ i, i ∈ l ↔ i ∈ S) :
    S.ncard = l.length := by
  have hS : S = (l.toFinset : Set Nat) := by
    ext i
    rw [← h i]
    simp
  rw [hS, Set.ncard_coe_finset, List.toFinset_card_of_nodup hl]

namespace Hnsw

/-- Node `i` is reached through layer-0 edges from the node at which layer 0 is entered. -/
def Reaches (g : Hnsw V) (q : Query F) (filter : Filter) (i : Nat) : Prop :=
  ∃ x, g.start q filter = some x ∧ Reach (g.adj 0) x i

/-- The nodes that a search with a beam of `ef` may return: live and matching, and reached
unless all nodes are scanned. -/
def pool (g : Hnsw V) (q : Query F) (filter : Filter) (ef : Nat) : Set Nat :=
  {i | g.liveAt i = true ∧ g.matchesAt filter i = true ∧
    (g.brute filter ef = true ∨ g.Reaches q filter i)}

/-- What a search for `k` results with a beam of `ef` should return. -/
structure Right (g : Hnsw V) (q : Query F) (filter : Filter) (k ef : Nat)
    (hits : List (Hit F)) : Prop where
  few : hits.length ≤ k
  distinct : (hits.map Hit.id).Nodup
  live : ∀ h ∈ hits, ∃ node ∈ g.nodes,
    node.id = h.id ∧ node.deleted = false ∧ filter.matchesAttr node.attr = true
  ascending : hits.Pairwise fun h h' => h.dist ≤ h'.dist
  full : g.nodes.length ≤ ef →
    hits.length = min k (g.pool q filter (max ef (rerank_k k))).ncard

/-- Some search with `filter` scans all nodes. -/
def MayScan (g : Hnsw V) (filter : Filter) : Prop :=
  filter ≠ .Any ∧ 0 < g.matching filter

/-- The graph is fair to a query. No two live nodes that can be returned have one id; and
in every ranking of the nodes that a walk can reach, deleted ones included, the first
`rerank_k k` hold as many live ones as there are, up to `k`. -/
structure Fair (g : Hnsw V) (q : Query F) (filter : Filter) : Prop where
  distinct : ∀ i j node node', g.nodes[i]? = some node → g.nodes[j]? = some node' →
    node.deleted = false → node'.deleted = false →
    filter.matchesAttr node.attr = true → filter.matchesAttr node'.attr = true →
    g.MayScan filter ∨ g.Reaches q filter i ∧ g.Reaches q filter j →
    node.id = node'.id → i = j
  fed : ∀ k ef, g.nodes.length ≤ ef → g.brute filter (max ef (rerank_k k)) = false →
    ∀ r : List Nat, r.Nodup →
      (∀ i, i ∈ r ↔ g.Reaches q filter i ∧ g.matchesAt filter i = true) →
      r.Pairwise (fun i j => rank q filter i ≤ rank q filter j) →
      min k (r.countP g.liveAt) ≤ (r.take (rerank_k k)).countP g.liveAt

theorem le_rerank_k (k : Nat) : k ≤ rerank_k k := by
  unfold rerank_k
  omega

theorem MayScan.of_brute {g : Hnsw V} {filter : Filter} {ef : Nat}
    (h : g.brute filter ef = true) :
    g.MayScan filter := by
  simp only [brute, Bool.and_eq_true, bne_iff_ne, decide_eq_true_eq] at h
  exact ⟨h.1.1, h.1.2⟩

/-- A wide enough beam makes the scan the cheaper way. -/
theorem MayScan.brute {g : Hnsw V} {filter : Filter} (h : g.MayScan filter) {ef : Nat}
    (hef : g.matching filter ≤ ef) :
    g.brute filter ef = true := by
  simp only [Hnsw.brute, Bool.and_eq_true, bne_iff_ne, decide_eq_true_eq]
  have := h.2
  exact ⟨⟨h.1, h.2⟩, by omega⟩

theorem Linked.reaches_lt {g : Hnsw V} (hg : g.Linked) {q : Query F} {filter : Filter} {i : Nat}
    (h : g.Reaches q filter i) :
    i < g.nodes.length := by
  obtain ⟨x, hx, hr⟩ := h
  rcases Relation.ReflTransGen.cases_tail hr with rfl | ⟨j, -, hj⟩
  · exact hg.start_lt hx
  · exact hg.adj_lt 0 j i hj

/-- On nodes of the graph, the walk returns what matches. -/
theorem admits_eq {g : Hnsw V} {filter : Filter} {i : Nat} (hi : i < g.nodes.length) :
    g.admits filter i = g.matchesAt filter i := by
  unfold admits
  split
  case isTrue h =>
    subst h
    simp [matchesAt, List.getElem?_eq_getElem hi, Filter.matchesAttr]
  case isFalse => rfl

/-! ## The candidates -/

theorem perm_sort_by_dist (l : List (Cand F)) :
    (sort_by_dist l).Perm l :=
  List.perm_insertionSort _ l

theorem pairwise_sort_by_dist (l : List (Cand F)) :
    (sort_by_dist l).Pairwise fun c c' => c.dist ≤ c'.dist := by
  have : IsTrans (Cand F) (fun c c' => c.dist ≤ c'.dist) := ⟨fun _ _ _ h h' => h.trans h'⟩
  have : Std.Total fun c c' : Cand F => c.dist ≤ c'.dist :=
    ⟨fun c c' => le_total c.dist c'.dist⟩
  exact List.pairwise_insertionSort _ l

theorem sort_by_dist_of_pairwise {l : List (Cand F)}
    (h : l.Pairwise fun c c' => c.dist ≤ c'.dist) :
    sort_by_dist l = l :=
  h.insertionSort_eq

/-- The nodes of a beam, in the order in which they are ranked. -/
def ranked (g : Hnsw V) (q : Query F) (filter : Filter) (heap : HeapOrder F) (x ef : Nat) :
    List Nat :=
  (sort_by_dist ((heap.list (g.beam q filter x ef)).map fun c =>
    ⟨rank q filter c.idx, c.idx⟩)).map Cand.idx

theorem map_idx_offered (g : Hnsw V) (q : Query F) (filter : Filter) (heap : HeapOrder F)
    (x k ef : Nat) :
    (g.offered q filter heap x k ef).map Cand.idx = (g.ranked q filter heap x ef).take k :=
  List.map_take

theorem perm_ranked (g : Hnsw V) (q : Query F) (filter : Filter) (heap : HeapOrder F)
    (x ef : Nat) :
    (g.ranked q filter heap x ef).Perm ((g.beam q filter x ef).map Cand.idx) := by
  refine ((perm_sort_by_dist _).map Cand.idx).trans ?_
  rw [List.map_map]
  exact (heap.perm _).map Cand.idx

theorem pairwise_ranked (g : Hnsw V) (q : Query F) (filter : Filter) (heap : HeapOrder F)
    (x ef : Nat) :
    (g.ranked q filter heap x ef).Pairwise fun i j => rank q filter i ≤ rank q filter j := by
  have hdist : ∀ c ∈ sort_by_dist ((heap.list (g.beam q filter x ef)).map fun c =>
      (⟨rank q filter c.idx, c.idx⟩ : Cand F)), c.dist = rank q filter c.idx := by
    intro c hc
    obtain ⟨d, -, rfl⟩ := List.mem_map.mp ((perm_sort_by_dist _).mem_iff.mp hc)
    rfl
  rw [ranked, List.pairwise_map]
  refine List.Pairwise.imp_of_mem ?_ (pairwise_sort_by_dist _)
  intro c c' hc hc' h
  rwa [← hdist c hc, ← hdist c' hc']

theorem nodup_ranked {g : Hnsw V} (hg : g.Linked) {q : Query F} {filter : Filter}
    (heap : HeapOrder F) {x : Nat} (hx : g.start q filter = some x) (ef : Nat) :
    (g.ranked q filter heap x ef).Nodup :=
  (perm_ranked g q filter heap x ef).nodup_iff.mpr (beam_sound q filter (hg.start_lt hx) ef).distinct

theorem mem_ranked {g : Hnsw V} (hg : g.Linked) {q : Query F} {filter : Filter}
    {heap : HeapOrder F} {x ef : Nat} (hx : g.start q filter = some x) {i : Nat}
    (hi : i ∈ g.ranked q filter heap x ef) :
    g.Reaches q filter i ∧ g.matchesAt filter i = true := by
  obtain ⟨c, hc, rfl⟩ := List.mem_map.mp ((perm_ranked g q filter heap x ef).mem_iff.mp hi)
  obtain ⟨hr, -, ha, -⟩ := (beam_sound q filter (hg.start_lt hx) ef).kept c hc
  have hreach : g.Reaches q filter c.idx := ⟨x, hx, hr⟩
  exact ⟨hreach, by rwa [← admits_eq (hg.reaches_lt hreach)]⟩

/-- A beam as wide as the graph has every node that can be reached and matches. -/
theorem mem_ranked_iff {g : Hnsw V} (hg : g.Linked) {q : Query F} {filter : Filter}
    (heap : HeapOrder F) {x ef : Nat} (hx : g.start q filter = some x)
    (hef : g.nodes.length ≤ ef) (i : Nat) :
    i ∈ g.ranked q filter heap x ef ↔
      g.Reaches q filter i ∧ g.matchesAt filter i = true := by
  refine ⟨mem_ranked hg hx, ?_⟩
  rintro ⟨hreach, hm⟩
  obtain ⟨x', hx', hr⟩ := hreach
  obtain rfl : x = x' := Option.some.inj (hx.symm.trans hx')
  refine (perm_ranked g q filter heap x ef).mem_iff.mpr ?_
  refine (layer_exact (hg.adj_lt 0) (hg.start_lt hx)
    (VisitScratch.length_ensure_visited _ _) (VisitScratch.bump_epoch_fresh _) hef i).mpr ⟨hr, ?_⟩
  rwa [admits_eq (hg.reaches_lt ⟨x, hx, hr⟩)]

omit [LinearOrder F] in
theorem map_idx_scored (g : Hnsw V) (q : Query F) (filter : Filter) :
    (g.scored q filter).map Cand.idx =
      (List.range g.nodes.length).filter fun i => g.liveAt i && g.matchesAt filter i := by
  rw [scored, List.map_map]
  exact List.map_id _

omit [LinearOrder F] in
theorem liveAt_lt {g : Hnsw V} {i : Nat} (h : g.liveAt i = true) :
    i < g.nodes.length := by
  obtain ⟨node, hn, -⟩ := (Option.any_eq_true _ _).mp h
  exact (List.getElem?_eq_some_iff.mp hn).1

omit [LinearOrder F] in
theorem mem_scored (g : Hnsw V) (q : Query F) (filter : Filter) (i : Nat) :
    i ∈ (g.scored q filter).map Cand.idx ↔ g.liveAt i = true ∧ g.matchesAt filter i = true := by
  rw [map_idx_scored, List.mem_filter, List.mem_range, Bool.and_eq_true]
  exact ⟨And.right, fun h => ⟨liveAt_lt h.1, h⟩⟩

theorem scan_eq {g : Hnsw V} {q : Query F} {heap : HeapOrder F} {k ef : Nat}
    {filter : Filter} (hb : g.brute filter ef = true) (s : VisitScratch) :
    (g.search_indices_filtered q heap k ef filter s).1 =
      (sort_by_dist (g.scored q filter)).take k := by
  have hany := (MayScan.of_brute hb).1
  unfold search_indices_filtered
  rw [if_neg hany]
  split
  case isTrue hn =>
    have hnil : g.scored q filter = [] := by
      simp [scored, hn]
    simp [hnil, sort_by_dist]
  case isFalse => rfl

/-- Candidates are distinct matching nodes, and reached unless all nodes are scanned. -/
theorem candidates_spec {g : Hnsw V} (hg : g.Linked) (q : Query F) (heap : HeapOrder F)
    (k ef : Nat) (filter : Filter) (s : VisitScratch) :
    ((g.search_indices_filtered q heap k ef filter s).1.map Cand.idx).Nodup ∧
      ∀ c ∈ (g.search_indices_filtered q heap k ef filter s).1,
        g.matchesAt filter c.idx = true ∧
          (g.brute filter ef = true ∨ g.Reaches q filter c.idx) := by
  cases hb : g.brute filter ef with
  | true =>
    rw [scan_eq hb]
    constructor
    · refine List.Nodup.sublist ((List.take_sublist k _).map Cand.idx) ?_
      rw [((perm_sort_by_dist _).map Cand.idx).nodup_iff, map_idx_scored]
      exact List.nodup_range.filter _
    · intro c hc
      have hmem := (perm_sort_by_dist _).mem_iff.mp (List.mem_of_mem_take hc)
      exact ⟨((mem_scored g q filter c.idx).mp (List.mem_map_of_mem hmem)).2, .inl rfl⟩
  | false =>
    rw [candidates_eq hg q heap k ef hb s]
    cases hx : g.start q filter with
    | none => exact ⟨List.nodup_nil, fun c hc => absurd hc List.not_mem_nil⟩
    | some x =>
      dsimp only
      constructor
      · rw [map_idx_offered]
        exact (nodup_ranked hg heap hx _).sublist (List.take_sublist k _)
      · intro c hc
        have hmem := List.mem_map_of_mem (f := Cand.idx) hc
        rw [map_idx_offered] at hmem
        obtain ⟨hr, hm⟩ := mem_ranked hg hx (List.mem_of_mem_take hmem)
        exact ⟨hm, .inr hr⟩

/-! ## From fair to right -/

omit [LinearOrder F] in
theorem liveAt_eq_true {g : Hnsw V} {i : Nat} {node : Node V} (hn : g.nodes[i]? = some node) :
    g.liveAt i = true ↔ node.deleted = false := by
  simp [liveAt, hn]

omit [LinearOrder F] in
theorem matchesAt_eq_true {g : Hnsw V} {filter : Filter} {i : Nat} {node : Node V}
    (hn : g.nodes[i]? = some node) :
    g.matchesAt filter i = true ↔ filter.matchesAttr node.attr = true := by
  simp [matchesAt, hn]

/-- Distinct candidates give results with distinct ids. -/
theorem Fair.apart {g : Hnsw V} {q : Query F} {filter : Filter} (h : g.Fair q filter)
    {C : List (Cand F)} (hnodup : (C.map Cand.idx).Nodup) {ef : Nat}
    (hC : ∀ c ∈ C, g.matchesAt filter c.idx = true ∧
      (g.brute filter ef = true ∨ g.Reaches q filter c.idx)) :
    C.Pairwise (g.Apart q) := by
  refine List.Pairwise.imp_of_mem ?_ (List.pairwise_map.mp hnodup)
  intro c c' hc hc' hne r hr r' hr' hid
  obtain ⟨node, hn, hd, rfl⟩ := hit_eq_some.mp hr
  obtain ⟨node', hn', hd', rfl⟩ := hit_eq_some.mp hr'
  obtain ⟨hm, hway⟩ := hC c hc
  obtain ⟨hm', hway'⟩ := hC c' hc'
  have hdomain : g.MayScan filter ∨ g.Reaches q filter c.idx ∧ g.Reaches q filter c'.idx := by
    rcases hway with hb | hr
    · exact .inl (MayScan.of_brute hb)
    · rcases hway' with hb | hr'
      · exact .inl (MayScan.of_brute hb)
      · exact .inr ⟨hr, hr'⟩
  exact hne (h.distinct c.idx c'.idx node node' hn hn' hd hd' ((matchesAt_eq_true hn).mp hm)
    ((matchesAt_eq_true hn').mp hm') hdomain hid)

/-- A scan finds all there is. -/
theorem length_of_scan {g : Hnsw V} {q : Query F} {heap : HeapOrder F} {k ef : Nat}
    {filter : Filter} (hb : g.brute filter ef = true) (s : VisitScratch) :
    (g.rescore q k
      (g.search_indices_filtered q heap (rerank_k k) ef filter s).1).length =
      min k (g.pool q filter ef).ncard := by
  have hpool : (g.pool q filter ef).ncard = ((g.scored q filter).map Cand.idx).length := by
    refine ncard_eq_length ?_ ?_
    · rw [map_idx_scored]
      exact List.nodup_range.filter _
    · intro i
      rw [mem_scored]
      exact ⟨fun h => ⟨h.1, h.2, .inl hb⟩, fun h => ⟨h.1, h.2.1⟩⟩
  have hlive : ((sort_by_dist (g.scored q filter)).take (rerank_k k)).countP
      (fun c => g.liveAt c.idx) =
        ((sort_by_dist (g.scored q filter)).take (rerank_k k)).length := by
    refine List.countP_eq_length.mpr fun c hc => ?_
    have hmem := (perm_sort_by_dist _).mem_iff.mp (List.mem_of_mem_take hc)
    exact ((mem_scored g q filter c.idx).mp (List.mem_map_of_mem hmem)).1
  rw [length_rescore, scan_eq hb, hlive, hpool, List.length_take,
    (perm_sort_by_dist _).length_eq, List.length_map]
  have := le_rerank_k k
  omega

/-- The number of nodes that a walk with a beam as wide as the graph could return. -/
theorem ncard_pool_of_walk {g : Hnsw V} {q : Query F} {filter : Filter} {ef : Nat}
    (hb : g.brute filter ef = false) {r : List Nat} (hr : r.Nodup)
    (hmem : ∀ i, i ∈ r ↔ g.Reaches q filter i ∧ g.matchesAt filter i = true) :
    (g.pool q filter ef).ncard = r.countP g.liveAt := by
  rw [List.countP_eq_length_filter]
  refine ncard_eq_length (hr.filter _) ?_
  intro i
  rw [List.mem_filter, hmem]
  constructor
  · rintro ⟨⟨hreach, hm⟩, hl⟩
    exact ⟨hl, hm, .inr hreach⟩
  · rintro ⟨hl, hm, hway⟩
    rcases hway with h | hreach
    · rw [hb] at h
      exact Bool.noConfusion h
    · exact ⟨⟨hreach, hm⟩, hl⟩

/-- The results of a walk are the live ones of the nodes ranked before the cut. -/
theorem length_of_walk {g : Hnsw V} (hg : g.Linked) {q : Query F} (heap : HeapOrder F)
    (k : Nat) {ef : Nat} {filter : Filter} (hb : g.brute filter ef = false) {x : Nat}
    (hx : g.start q filter = some x) (s : VisitScratch) :
    (g.rescore q k
      (g.search_indices_filtered q heap (rerank_k k) ef filter s).1).length =
      min k (((g.ranked q filter heap x (max ef (rerank_k k))).take (rerank_k k)).countP
        g.liveAt) := by
  rw [length_rescore, candidates_eq hg q heap _ ef hb s, hx]
  dsimp only
  rw [← map_idx_offered, List.countP_map]
  rfl

theorem Fair.full {g : Hnsw V} (hg : g.Linked) {q : Query F} {filter : Filter}
    (h : g.Fair q filter) (heap : HeapOrder F) (k : Nat) {ef : Nat}
    (hef : g.nodes.length ≤ ef) (s : VisitScratch) :
    (g.search_filtered_attr q heap k ef filter s).1.length =
      min k (g.pool q filter (max ef (rerank_k k))).ncard := by
  change (g.rescore q k (g.search_indices_filtered q heap (rerank_k k)
    (max ef (rerank_k k)) filter s).1).length = _
  cases hb : g.brute filter (max ef (rerank_k k)) with
  | true => exact length_of_scan hb s
  | false =>
    cases hx : g.start q filter with
    | none =>
      have hpool : g.pool q filter (max ef (rerank_k k)) = ∅ := by
        ext i
        simp [pool, hb, Reaches, hx]
      rw [length_rescore, candidates_eq hg q heap _ _ hb s, hx, hpool]
      simp
    | some x =>
      have hwide : g.nodes.length ≤ max (max ef (rerank_k k)) (rerank_k k) := by omega
      have hnodup := nodup_ranked hg heap hx (max (max ef (rerank_k k)) (rerank_k k))
      have hmem := fun i => mem_ranked_iff hg heap hx hwide i
      have hfed := h.fed k ef hef hb _ hnodup hmem (pairwise_ranked g q filter heap x _)
      rw [length_of_walk hg heap k hb hx s, ncard_pool_of_walk hb hnodup hmem]
      have hle := (List.take_sublist (rerank_k k)
        (g.ranked q filter heap x (max (max ef (rerank_k k)) (rerank_k k)))).countP_le
        (p := g.liveAt)
      omega

theorem Fair.right {g : Hnsw V} (hg : g.Linked) {q : Query F} {filter : Filter}
    (h : g.Fair q filter) (heap : HeapOrder F) (s : VisitScratch) (k ef : Nat) :
    g.Right q filter k ef (g.search_filtered_attr q heap k ef filter s).1 := by
  obtain ⟨hnodup, hC⟩ := candidates_spec hg q heap (rerank_k k) (max ef (rerank_k k)) filter s
  refine ⟨List.length_take_le _ _, nodup_rescore k (h.apart hnodup hC), ?_,
    pairwise_rescore g q k _, fun hef => h.full hg heap k hef s⟩
  intro r hr
  obtain ⟨c, hc, hhit⟩ := mem_rescore hr
  obtain ⟨node, hn, hd, rfl⟩ := hit_eq_some.mp hhit
  exact ⟨node, List.mem_of_getElem? hn, rfl, hd, (matchesAt_eq_true hn).mp (hC c hc).1⟩

/-! ## From right to fair -/

/-- A heap order that drains the nodes of `r` as listed, when they are what it holds. -/
def listed (dist : Nat → F) (r : List Nat) : HeapOrder F where
  list l := if l.Perm (r.map fun i => ⟨dist i, i⟩) then r.map fun i => ⟨dist i, i⟩ else l
  perm l := by
    split
    case isTrue h => exact h.symm
    case isFalse => exact List.Perm.refl l

theorem listed_list {dist : Nat → F} {r : List Nat} {l : List (Cand F)}
    (hl : (l.map Cand.idx).Nodup) (hdist : ∀ c ∈ l, c.dist = dist c.idx) (hr : r.Nodup)
    (hmem : ∀ i, i ∈ l.map Cand.idx ↔ i ∈ r) :
    (listed dist r).list l = r.map fun i => ⟨dist i, i⟩ := by
  have hperm : l.Perm (r.map fun i => ⟨dist i, i⟩) := by
    refine (List.perm_ext_iff_of_nodup (List.Nodup.of_map _ hl) ?_).mpr ?_
    · refine hr.map fun i j hij => ?_
      exact congrArg Cand.idx hij
    · intro c
      rw [List.mem_map]
      constructor
      · intro hc
        refine ⟨c.idx, (hmem c.idx).mp (List.mem_map_of_mem hc), ?_⟩
        rw [← hdist c hc]
      · rintro ⟨i, hi, rfl⟩
        obtain ⟨c, hc, rfl⟩ := List.mem_map.mp ((hmem i).mpr hi)
        rw [← hdist c hc]
        exact hc
  simp only [listed, if_pos hperm]

/-- Every ranking of what a wide walk reaches is the one that some heap order leads to. -/
theorem ranked_listed {g : Hnsw V} (hg : g.Linked) {q : Query F} {filter : Filter} {x ef : Nat}
    (hx : g.start q filter = some x) (hef : g.nodes.length ≤ ef) {r : List Nat} (hr : r.Nodup)
    (hmem : ∀ i, i ∈ r ↔ g.Reaches q filter i ∧ g.matchesAt filter i = true)
    (hrank : r.Pairwise fun i j => rank q filter i ≤ rank q filter j) :
    g.ranked q filter (listed (nav q filter) r) x ef = r := by
  have hsound := beam_sound q filter (hg.start_lt hx) ef
  have hbeam : ∀ i, i ∈ (g.beam q filter x ef).map Cand.idx ↔ i ∈ r := by
    intro i
    rw [hmem, ← mem_ranked_iff hg (HeapOrder.popped F) hx hef]
    exact (perm_ranked g q filter (HeapOrder.popped F) x ef).mem_iff.symm
  have hlist := listed_list hsound.distinct (fun c hc => (hsound.kept c hc).2.2.2) hr hbeam
  change ((sort_by_dist (((listed (nav q filter) r).list (g.beam q filter x ef)).map fun c =>
    (⟨rank q filter c.idx, c.idx⟩ : Cand F))).map Cand.idx) = r
  rw [show (listed (nav q filter) r).list (g.beam q filter x ef) =
    r.map fun i => ⟨nav q filter i, i⟩ from hlist, List.map_map, sort_by_dist_of_pairwise,
    List.map_map]
  · exact List.map_id r
  · exact List.pairwise_map.mpr hrank

omit [LinearOrder F] in
theorem length_le_of_nodup_lt {n : Nat} {l : List Nat} (hl : l.Nodup) (h : ∀ i ∈ l, i < n) :
    l.length ≤ n := by
  have hsub := (hl.subperm fun i hi => List.mem_range.mpr (h i hi)).length_le
  rwa [List.length_range] at hsub

/-- A search that asks for every node finds every node that it may return. -/
theorem mem_candidates_of_wide {g : Hnsw V} (hg : g.Linked) {q : Query F} {heap : HeapOrder F}
    {k ef : Nat} {filter : Filter} (hk : g.nodes.length ≤ k) (hef : g.nodes.length ≤ ef)
    (s : VisitScratch) {i : Nat} (hlive : g.liveAt i = true)
    (hm : g.matchesAt filter i = true)
    (hway : g.brute filter ef = true ∨ g.Reaches q filter i) :
    i ∈ (g.search_indices_filtered q heap k ef filter s).1.map Cand.idx := by
  cases hb : g.brute filter ef with
  | true =>
    have hlen : (sort_by_dist (g.scored q filter)).length ≤ k := by
      rw [(perm_sort_by_dist _).length_eq, ← List.length_map (f := Cand.idx), map_idx_scored]
      refine ((List.length_filter_le _ _).trans ?_).trans hk
      rw [List.length_range]
    rw [scan_eq hb, List.take_of_length_le hlen]
    exact ((perm_sort_by_dist _).map Cand.idx).mem_iff.mpr
      ((mem_scored g q filter i).mpr ⟨hlive, hm⟩)
  | false =>
    rw [hb] at hway
    have hreach := hway.resolve_left Bool.false_ne_true
    obtain ⟨x, hx, -⟩ := id hreach
    have hwide : g.nodes.length ≤ max ef k := by omega
    have hlen : (g.ranked q filter heap x (max ef k)).length ≤ k := by
      refine (length_le_of_nodup_lt (nodup_ranked hg heap hx _) ?_).trans hk
      intro j hj
      exact hg.reaches_lt (mem_ranked hg hx hj).1
    rw [candidates_eq hg q heap k ef hb s, hx]
    dsimp only
    rw [map_idx_offered, List.take_of_length_le hlen]
    exact (mem_ranked_iff hg heap hx hwide i).mpr ⟨hreach, hm⟩

theorem Fair.of_right {g : Hnsw V} (hg : g.Linked) {q : Query F} {filter : Filter}
    (h : ∀ (heap : HeapOrder F) (s : VisitScratch) (k ef : Nat),
      g.Right q filter k ef (g.search_filtered_attr q heap k ef filter s).1) :
    g.Fair q filter := by
  constructor
  case distinct =>
    intro i j node node' hn hn' hd hd' hm hm' hdomain hid
    by_contra hne
    -- ask for as many results as there are nodes, with a beam that makes a scan pay
    let n := g.nodes.length
    let ef := max (max n (g.matching filter)) (rerank_k n)
    let C := (g.search_indices_filtered q (HeapOrder.popped F) (rerank_k n) ef filter
      VisitScratch.new).1
    obtain ⟨hnodup, hC⟩ := candidates_spec hg q (HeapOrder.popped F) (rerank_k n) ef filter
      VisitScratch.new
    have hlen : C.length ≤ n := by
      rw [← List.length_map (f := Cand.idx)]
      refine length_le_of_nodup_lt hnodup fun a ha => ?_
      obtain ⟨c, hc, rfl⟩ := List.mem_map.mp ha
      obtain ⟨nd, hnd, -⟩ := (Option.any_eq_true _ _).mp (hC c hc).1
      exact (List.getElem?_eq_some_iff.mp hnd).1
    have hfound : ∀ a nd, g.nodes[a]? = some nd → nd.deleted = false →
        filter.matchesAttr nd.attr = true → g.MayScan filter ∨ g.Reaches q filter a →
        ∃ c ∈ C, c.idx = a := by
      intro a nd hnd hlive hmatch hway
      have hmem : a ∈ C.map Cand.idx := by
        refine mem_candidates_of_wide hg (le_rerank_k n) (by omega) VisitScratch.new
          ((liveAt_eq_true hnd).mpr hlive) ((matchesAt_eq_true hnd).mpr hmatch) ?_
        exact hway.imp_left fun hs => hs.brute (by omega)
      exact List.mem_map.mp hmem
    have hapart : C.Pairwise (g.Apart q) :=
      apart_of_nodup hlen (h (HeapOrder.popped F) VisitScratch.new n
        (max n (g.matching filter))).distinct
    obtain ⟨c, hc, rfl⟩ := hfound i node hn hd hm (hdomain.imp_right And.left)
    obtain ⟨c', hc', rfl⟩ := hfound j node' hn' hd' hm' (hdomain.imp_right And.right)
    have hsymm : Std.Symm (g.Apart q) :=
      ⟨fun a b hab r hr r' hr' he => hab r' hr' r hr he.symm⟩
    exact hapart.forall hc hc' (fun he => hne (congrArg Cand.idx he))
      _ (hit_eq_some.mpr ⟨node, hn, hd, rfl⟩) _ (hit_eq_some.mpr ⟨node', hn', hd', rfl⟩) hid
  case fed =>
    intro k ef hef hb r hr hmem hrank
    cases hx : g.start q filter with
    | none =>
      have hnil : r = [] := by
        refine List.eq_nil_iff_forall_not_mem.mpr fun i hi => ?_
        obtain ⟨⟨x, hx', -⟩, -⟩ := (hmem i).mp hi
        exact absurd (hx.symm.trans hx') (by simp)
      simp [hnil]
    | some x =>
      have hfull := (h (listed (nav q filter) r) VisitScratch.new k ef).full hef
      have hwide : g.nodes.length ≤ max (max ef (rerank_k k)) (rerank_k k) := by omega
      have hlen := length_of_walk hg (listed (nav q filter) r) k hb hx
        VisitScratch.new
      rw [ranked_listed hg hx hwide hr hmem hrank] at hlen
      have hsame := hfull.symm.trans hlen
      rw [ncard_pool_of_walk hb hr hmem] at hsame
      omega

end Hnsw
end Vectors
end StrikeDB
