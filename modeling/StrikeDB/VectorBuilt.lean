import StrikeDB.VectorBuild
import StrikeDB.VectorSearch

/-!
# StrikeDB: the graphs that can be built

* `Linked.link`, `Linked.insert_attr`, `Linked.append`, `Linked.bridge_node`,
  `Linked.merge_into`, ..: every operation keeps all indices in range.
* `Reachable.linked`: so they are in every graph that can be built.
-/

namespace StrikeDB
namespace Vectors

theorem forall_mem_modify {α : Type} {P : α → Prop} {f : α → α} {l : List α}
    (h : ∀ a ∈ l, P a) (hf : ∀ a, P a → P (f a)) (i : Nat) :
    ∀ a ∈ l.modify i f, P a := by
  intro a ha
  obtain ⟨j, hj, rfl⟩ := List.mem_iff_getElem.mp ha
  rw [List.length_modify] at hj
  rw [List.getElem_modify]
  split
  · exact hf _ (h _ (List.getElem_mem hj))
  · exact h _ (List.getElem_mem hj)

theorem mem_grow {α : Type} {n : Nat} {a b : α} {l : List α} (h : b ∈ grow n a l) :
    b ∈ l ∨ b = a := by
  rcases List.mem_append.mp h with h | h
  · exact .inl h
  · exact .inr (List.eq_of_mem_replicate h)

variable {V F : Type}

/-- All elements of a list are below `n`. -/
def Below (n : Nat) (l : List Nat) : Prop :=
  ∀ i ∈ l, i < n

theorem Below.append {n : Nat} {l l' : List Nat} (h : Below n l) (h' : Below n l') :
    Below n (l ++ l') := by
  intro i hi
  rcases List.mem_append.mp hi with hi | hi
  · exact h i hi
  · exact h' i hi

theorem Below.singleton {n i : Nat} (h : i < n) :
    Below n [i] := by
  intro j hj
  rwa [List.mem_singleton.mp hj]

namespace Hnsw

/-- A graph of `n` nodes whose indices are all in range. -/
structure Sized (n : Nat) (g : Hnsw V) : Prop where
  length : g.nodes.length = n
  linked : g.Linked

theorem Linked.sized {g : Hnsw V} (h : g.Linked) :
    g.Sized g.nodes.length :=
  ⟨rfl, h⟩

theorem Sized.adj {n : Nat} {g : Hnsw V} (h : g.Sized n) (level i : Nat) :
    Below n (g.adj level i) := by
  have := h.linked.adj_lt level i
  rwa [h.length] at this

theorem Sized.relink {n : Nat} {g : Hnsw V} (h : g.Sized n) {f : List Nat → List Nat}
    (hf : ∀ l, Below n l → Below n (f l)) (i level : Nat) :
    (g.relink i level f).Sized n := by
  have hlen : (g.relink i level f).nodes.length = n := by
    rw [← h.length]
    exact List.length_modify ..
  refine ⟨hlen, ?_, ?_, ?_⟩
  · rw [hlen, ← h.length]
    exact h.linked.entry
  · rw [hlen]
    refine forall_mem_modify (P := fun node : Node V => ∀ l ∈ node.neighbors, Below n l) ?_ ?_ i
    · intro node hnode
      have := h.linked.neighbors node hnode
      rwa [h.length] at this
    · intro node hnode
      exact forall_mem_modify hnode hf level
  · rw [hlen, ← h.length]
    exact h.linked.attr_entry

/-- Changing what else a node holds leaves the edges alone. -/
theorem Sized.modify {n : Nat} {g : Hnsw V} (h : g.Sized n) {f : Node V → Node V}
    (hf : ∀ node, (f node).neighbors = node.neighbors) (i : Nat) (ids : UInt64 → Option Nat) :
    Sized n { g with nodes := g.nodes.modify i f, id_to_idx := ids } := by
  have hlen : (g.nodes.modify i f).length = n := by
    rw [List.length_modify, h.length]
  refine ⟨hlen, ?_, ?_, ?_⟩
  · dsimp only
    rw [hlen, ← h.length]
    exact h.linked.entry
  · dsimp only
    rw [hlen]
    refine forall_mem_modify (P := fun node : Node V => ∀ l ∈ node.neighbors, Below n l) ?_ ?_ i
    · intro node hnode
      have := h.linked.neighbors node hnode
      rwa [h.length] at this
    · intro node hnode
      rwa [hf node]
  · dsimp only
    rw [hlen, ← h.length]
    exact h.linked.attr_entry

variable [Inhabited V] [LinearOrder F]

/-! ## Inserting -/

theorem mem_nearest {g : Hnsw V} {B : Build V F} {i cap : Nat} {l : List Nat} {x : Nat}
    (hx : x ∈ g.nearest B i cap l) :
    x ∈ l := by
  obtain ⟨c, hc, rfl⟩ := List.mem_map.mp hx
  have hmem := (List.perm_insertionSort _ _).mem_iff.mp (List.mem_of_mem_take hc)
  obtain ⟨y, hy, rfl⟩ := List.mem_map.mp hmem
  exact hy

theorem Below.spread {n : Nat} {g : Hnsw V} {B : Build V F} {m : Nat} {found : List (Cand F)}
    (h : ∀ c ∈ found, c.idx < n) {selected : List Nat} (hs : Below n selected) :
    Below n (g.spread B m found selected) := by
  induction found generalizing selected with
  | nil => exact hs
  | cons c rest ih =>
    have hrest : ∀ d ∈ rest, d.idx < n := fun d hd => h d (List.mem_cons_of_mem c hd)
    have hc := Below.singleton (h c List.mem_cons_self)
    unfold Hnsw.spread
    split
    · exact hs
    · split
      · exact ih hrest hs
      · exact ih hrest (hs.append hc)

omit [LinearOrder F] in
theorem Below.pad {n m : Nat} {found : List (Cand F)} (h : ∀ c ∈ found, c.idx < n)
    {selected : List Nat} (hs : Below n selected) :
    Below n (pad m found selected) := by
  induction found generalizing selected with
  | nil => exact hs
  | cons c rest ih =>
    have hrest : ∀ d ∈ rest, d.idx < n := fun d hd => h d (List.mem_cons_of_mem c hd)
    have hc := Below.singleton (h c List.mem_cons_self)
    unfold Hnsw.pad
    split
    · exact hs
    · split
      · exact ih hrest hs
      · exact ih hrest (hs.append hc)

theorem Sized.link {n : Nat} {g : Hnsw V} (h : g.Sized n) (B : Build V F) {idx nb : Nat}
    {selected : List Nat} (hidx : idx < n) (hnb : nb < n) (hs : Below n selected) (lvl : Nat) :
    (link B idx lvl selected g nb).Sized n := by
  have h₁ : (g.relink idx lvl (· ++ [nb])).Sized n :=
    h.relink (fun l hl => hl.append (Below.singleton hnb)) idx lvl
  have h₂ : ((g.relink idx lvl (· ++ [nb])).relink nb lvl (· ++ [idx])).Sized n :=
    h₁.relink (fun l hl => hl.append (Below.singleton hidx)) nb lvl
  unfold Hnsw.link
  dsimp only
  generalize (g.relink idx lvl (· ++ [nb])).relink nb lvl (· ++ [idx]) = g₂ at h₂
  have h₃ : (if g₂.m < (g₂.adj lvl idx).length then g₂.relink idx lvl fun _ => selected
      else g₂).Sized n := by
    split
    · exact h₂.relink (fun _ _ => hs) idx lvl
    · exact h₂
  generalize (if g₂.m < (g₂.adj lvl idx).length then g₂.relink idx lvl fun _ => selected
    else g₂) = g₃ at h₃
  split
  · exact h₃.relink (fun l hl i hi => hl i (mem_nearest hi)) nb lvl
  · exact h₃

omit [Inhabited V] in
/-- A layer search from a node of the graph stays in the graph. -/
theorem Sized.search_layer {n : Nat} {g : Hnsw V} (h : g.Sized n) (dist : Nat → F)
    {entry : Nat} (hentry : entry < n) {s : VisitScratch} (hs : n ≤ s.visited.length)
    (ef level : Nat) :
    (∀ c ∈ (g.search_layer dist entry ef level s).results, c.idx < n) ∧
      n ≤ (g.search_layer dist entry ef level s).scratch.visited.length := by
  unfold Hnsw.search_layer
  constructor
  · intro c hc
    have hreach := ((layer_mem (hentry.trans_le hs)).kept c hc).1
    rcases Relation.ReflTransGen.cases_tail hreach with heq | ⟨j, -, hj⟩
    · rwa [heq]
    · exact h.adj level j c.idx hj
  · rwa [length_scratch_layer]

/-- So does a descent. -/
theorem descend_lt {n : Nat} (find : Nat → Nat → VisitScratch → Beam F) (heap : HeapOrder F)
    (hfind : ∀ cur lvl s, cur < n → n ≤ s.visited.length →
      (∀ c ∈ (find cur lvl s).results, c.idx < n) ∧
        n ≤ (find cur lvl s).scratch.visited.length)
    (levels : List Nat) {cur : Nat} {s : VisitScratch} (hcur : cur < n)
    (hs : n ≤ s.visited.length) :
    (descend find heap levels cur s).1 < n ∧
      n ≤ (descend find heap levels cur s).2.visited.length := by
  induction levels generalizing cur s with
  | nil => exact ⟨hcur, hs⟩
  | cons lvl levels ih =>
    obtain ⟨hres, hlen⟩ := hfind cur lvl s hcur hs
    refine ih ?_ hlen
    cases hm : min_by_dist (heap.list (find cur lvl s).results) with
    | none => exact hcur
    | some c => exact hres c ((heap.perm _).mem_iff.mp (min_by_dist_mem hm))

theorem Sized.link_level {n : Nat} {g : Hnsw V} (h : g.Sized n) (B : Build V F)
    (heap : HeapOrder F) {idx cur : Nat} (hidx : idx < n) (hcur : cur < n) (vector : V)
    {s : VisitScratch} (hs : n ≤ s.visited.length) (lvl : Nat) :
    (link_level B heap idx vector (g, cur, s) lvl).1.Sized n ∧
      (link_level B heap idx vector (g, cur, s) lvl).2.1 < n ∧
      n ≤ (link_level B heap idx vector (g, cur, s) lvl).2.2.visited.length := by
  obtain ⟨hres, hlen⟩ := h.search_layer (g.dist_from B vector) hcur hs g.ef_construction lvl
  simp only [Hnsw.link_level]
  generalize hb : g.search_layer (g.dist_from B vector) cur g.ef_construction lvl s = b
    at hres hlen
  have hfound : ∀ c ∈ sort_by_dist (heap.list b.results), c.idx < n := by
    intro c hc
    exact hres c ((heap.perm _).mem_iff.mp ((List.perm_insertionSort _ _).mem_iff.mp hc))
  have hselected : Below n (g.select_neighbors_heuristic B
      (sort_by_dist (heap.list b.results)) g.m) :=
    Below.pad hfound (Below.spread hfound fun i hi => absurd hi List.not_mem_nil)
  refine ⟨?_, ?_, hlen⟩
  · generalize g.select_neighbors_heuristic B (sort_by_dist (heap.list b.results)) g.m
      = selected at hselected
    have hfold : ∀ (l : List Nat) (g : Hnsw V), g.Sized n → Below n l →
        (l.foldl (Hnsw.link B idx lvl selected) g).Sized n := by
      intro l
      induction l with
      | nil => exact fun g hg _ => hg
      | cons nb l ih =>
        intro g hg hl
        exact ih _ (hg.link B hidx (hl nb List.mem_cons_self) hselected lvl)
          fun i hi => hl i (List.mem_cons_of_mem nb hi)
    exact hfold selected g h hselected
  · cases hl : sort_by_dist (heap.list b.results) with
    | nil => exact hcur
    | cons c rest =>
      refine hfound c ?_
      rw [hl]
      exact List.mem_cons_self

omit [Inhabited V] [LinearOrder F] in
theorem Linked.place {g : Hnsw V} (h : g.Linked) (id : UInt64) (vector : V) (dim : Nat)
    (attr : UInt32) (level : Nat) :
    (g.place id vector dim attr level).Sized (g.nodes.length + 1) := by
  have hlen : (g.place id vector dim attr level).nodes.length = g.nodes.length + 1 := by
    simp [Hnsw.place]
  refine ⟨hlen, ?_, ?_, ?_⟩
  · intro e he
    rw [hlen]
    have := h.entry e he
    omega
  · rw [hlen]
    intro node hnode l hl i hi
    rcases List.mem_append.mp hnode with hnode | hnode
    · have := h.neighbors node hnode l hl i hi
      omega
    · rw [List.mem_singleton.mp hnode] at hl
      rw [List.eq_of_mem_replicate hl] at hi
      exact absurd hi List.not_mem_nil
  · rw [hlen]
    intro e he
    refine forall_mem_modify (P := fun o : Option Nat => ∀ e, o = some e →
      e < g.nodes.length + 1) ?_ ?_ attr.toNat (some e) he e rfl
    · intro o ho e' he'
      rcases mem_grow ho with ho | rfl
      · have := h.attr_entry e' (he' ▸ ho)
        omega
      · exact absurd he' (by simp)
    · intro o ho e' he'
      rcases Option.or_eq_some_iff.mp he' with he' | ⟨-, he'⟩
      · exact ho e' he'
      · have := Option.some.inj he'
        omega

omit [Inhabited V] [LinearOrder F] in
theorem Sized.enter {n : Nat} {g : Hnsw V} (h : g.Sized n) {e : Nat} (he : e < n)
    (top : Nat) :
    Sized n { g with entry := some e, max_level := top } := by
  refine ⟨h.length, ?_, h.linked.neighbors, h.linked.attr_entry⟩
  intro e' he'
  rw [← Option.some.inj he']
  dsimp only
  rwa [h.length]

theorem Linked.insert_attr {g : Hnsw V} (h : g.Linked) (B : Build V F) (heap : HeapOrder F)
    (row : Row V) (s : VisitScratch) :
    (g.insert_attr B heap row s).1.Linked ∧
      g.nodes.length ≤ (g.insert_attr B heap row s).1.nodes.length := by
  unfold Hnsw.insert_attr
  split
  case h_1 idx _ =>
    have hs := h.sized.modify (f := fun node => { node with vec := row.vector })
      (fun _ => rfl) idx g.id_to_idx
    exact ⟨hs.linked, hs.length.ge⟩
  case h_2 =>
    split
    · exact ⟨h, le_rfl⟩
    dsimp only
    have hp := h.place row.id row.vector (B.dim row.vector) row.attr row.level
    have hnew : g.nodes.length < g.nodes.length + 1 := Nat.lt_succ_self _
    generalize g.place row.id row.vector (B.dim row.vector) row.attr row.level = g₁ at hp
    have hdone : ∀ g' : Hnsw V, g'.Sized (g.nodes.length + 1) →
        g'.Linked ∧ g.nodes.length ≤ g'.nodes.length := by
      intro g' hg'
      refine ⟨hg'.linked, ?_⟩
      rw [hg'.length]
      exact Nat.le_succ _
    split
    · exact hdone _ (hp.enter hnew row.level)
    case h_2 entry he =>
      have hentry : entry < g.nodes.length + 1 := by
        rw [← hp.length]
        exact hp.linked.entry entry he
      have hsize : g.nodes.length + 1 ≤ (s.ensure_visited g₁.nodes.length).visited.length := by
        rw [hp.length]
        exact VisitScratch.length_ensure_visited _ _
      have hdesc := descend_lt
        (fun cur lvl s => g₁.search_layer (g₁.dist_from B row.vector) cur 1 lvl s) heap
        (fun cur lvl s hcur hs => hp.search_layer _ hcur hs 1 lvl)
        (List.range' (row.level + 1) (g₁.max_level - row.level)).reverse hentry hsize
      generalize descend
        (fun cur lvl s => g₁.search_layer (g₁.dist_from B row.vector) cur 1 lvl s) heap
        (List.range' (row.level + 1) (g₁.max_level - row.level)).reverse entry
        (s.ensure_visited g₁.nodes.length) = walked at hdesc
      have hfold : ∀ (levels : List Nat) (st : Hnsw V × Nat × VisitScratch),
          st.1.Sized (g.nodes.length + 1) → st.2.1 < g.nodes.length + 1 →
          g.nodes.length + 1 ≤ st.2.2.visited.length →
          (levels.foldl (Hnsw.link_level B heap g.nodes.length row.vector) st).1.Sized
            (g.nodes.length + 1) := by
        intro levels
        induction levels with
        | nil => exact fun st h _ _ => h
        | cons lvl levels ih =>
          rintro ⟨g', cur, s'⟩ hg' hcur hs'
          obtain ⟨hg'', hcur', hs''⟩ := hg'.link_level B heap hnew hcur row.vector hs' lvl
          exact ih _ hg'' hcur' hs''
      have hlinked := hfold (List.range (min row.level g₁.max_level + 1)).reverse
        (g₁, walked.1, walked.2) hp hdesc.1 hdesc.2
      split
      · exact hdone _ (hlinked.enter hnew row.level)
      · exact hdone _ hlinked

/-! ## Merging -/

/-- A segment of a batch has nodes, and its indices are in range. -/
theorem segment_linked {B : Build V F} (heap : HeapOrder F) {dim : Nat} {rows : List (Row V)}
    (hrows : rows ≠ []) (hdim : ∀ row ∈ rows, B.dim row.vector = dim) :
    (segment B heap dim rows).Linked ∧ 0 < (segment B heap dim rows).nodes.length := by
  have hfold : ∀ (rows : List (Row V)) (st : Hnsw V × VisitScratch), st.1.Linked →
      0 < st.1.nodes.length →
      (rows.foldl (fun (st : Hnsw V × VisitScratch) row =>
        st.1.insert_attr B heap row st.2) st).1.Linked ∧
      0 < (rows.foldl (fun (st : Hnsw V × VisitScratch) row =>
        st.1.insert_attr B heap row st.2) st).1.nodes.length := by
    intro rows
    induction rows with
    | nil => exact fun st h hpos => ⟨h, hpos⟩
    | cons row rows ih =>
      intro st h hpos
      obtain ⟨hl, hle⟩ := h.insert_attr B heap row st.2
      exact ih _ hl (hpos.trans_le hle)
  cases rows with
  | nil => exact absurd rfl hrows
  | cons row rows =>
    have hempty : Linked { (new : Hnsw V) with dim := dim } :=
      ⟨fun e he => absurd he (by simp [new]), fun node hnode => absurd hnode List.not_mem_nil,
        fun e he => absurd he List.not_mem_nil⟩
    refine hfold rows _ (hempty.insert_attr B heap row VisitScratch.new).1 ?_
    have hd := hdim row List.mem_cons_self
    simp [Hnsw.insert_attr, new, hd, Hnsw.place]

omit [Inhabited V] [LinearOrder F] in
theorem Linked.append {g seg : Hnsw V} (hg : g.Linked) (hseg : seg.Linked) :
    (g.append seg).Sized (g.nodes.length + seg.nodes.length) := by
  have hlen : (g.append seg).nodes.length = g.nodes.length + seg.nodes.length := by
    simp [Hnsw.append]
  refine ⟨hlen, ?_, ?_, ?_⟩
  · intro e he
    rw [hlen]
    have := hg.entry e he
    omega
  · rw [hlen]
    intro node hnode l hl i hi
    rcases List.mem_append.mp hnode with hnode | hnode
    · have := hg.neighbors node hnode l hl i hi
      omega
    · obtain ⟨node, hn, rfl⟩ := List.mem_map.mp hnode
      obtain ⟨l', hl', rfl⟩ := List.mem_map.mp hl
      obtain ⟨i', hi', rfl⟩ := List.mem_map.mp hi
      have := hseg.neighbors node hn l' hl' i' hi'
      omega
  · rw [hlen]
    intro e he
    rcases mem_grow he with he | he
    · have := hg.attr_entry e he
      omega
    · exact absurd he (by simp)

/-- The number of nodes of all segments. -/
def nodesOf (segments : List (Hnsw V)) : Nat :=
  (segments.map fun seg => seg.nodes.length).sum

omit [Inhabited V] [LinearOrder F] in
theorem Linked.append_all {g : Hnsw V} (hg : g.Linked) {segments : List (Hnsw V)}
    (h : ∀ seg ∈ segments, seg.Linked) :
    (segments.foldl Hnsw.append g).Sized (g.nodes.length + nodesOf segments) := by
  induction segments generalizing g with
  | nil => exact hg.sized
  | cons seg segments ih =>
    have ha := hg.append (h seg List.mem_cons_self)
    have hs := ih ha.linked fun seg' h' => h seg' (List.mem_cons_of_mem seg h')
    rw [ha.length] at hs
    rw [List.foldl_cons, nodesOf, List.map_cons, List.sum_cons, ← Nat.add_assoc]
    exact hs

omit [Inhabited V] [LinearOrder F] in
theorem Linked.enter_attrs {g : Hnsw V} (h : g.Linked) (base : Nat) :
    (g.enter_attrs base).Sized g.nodes.length := by
  refine ⟨rfl, h.entry, h.neighbors, ?_⟩
  have hfold : ∀ (l : List (Node V × Nat)) (entries : List (Option Nat)),
      (∀ p ∈ l, p.2 < g.nodes.length) → (∀ e, some e ∈ entries → e < g.nodes.length) →
      ∀ e, some e ∈ l.foldl (fun entries p => entries.modify p.1.attr.toNat
        (·.or (some p.2))) entries → e < g.nodes.length := by
    intro l
    induction l with
    | nil => exact fun entries _ h => h
    | cons p l ih =>
      intro entries hl hentries
      refine ih _ (fun p' hp' => hl p' (List.mem_cons_of_mem p hp')) ?_
      intro e he
      refine forall_mem_modify (P := fun o : Option Nat => ∀ e, o = some e →
        e < g.nodes.length) ?_ ?_ p.1.attr.toNat (some e) he e rfl
      · rintro _ ho e rfl
        exact hentries e ho
      · intro o ho e he
        rcases Option.or_eq_some_iff.mp he with he | ⟨-, he⟩
        · exact ho e he
        · rw [← Option.some.inj he]
          exact hl p List.mem_cons_self
  refine hfold _ g.attr_entry ?_ h.attr_entry
  intro p hp
  have := (List.mem_zipIdx' (List.mem_of_mem_drop hp)).1
  exact this

omit [Inhabited V] [LinearOrder F] in
theorem tallest_lt {g : Hnsw V} (h : 0 < g.nodes.length) :
    g.tallest.1 < g.nodes.length := by
  have hfold : ∀ (l : List (Node V × Nat)) (best : Nat × Nat),
      (∀ p ∈ l, p.2 < g.nodes.length) → best.1 < g.nodes.length →
      (l.foldl (fun best p => if best.2 < p.1.neighbors.length - 1 then
        (p.2, p.1.neighbors.length - 1) else best) best).1 < g.nodes.length := by
    intro l
    induction l with
    | nil => exact fun best _ h => h
    | cons p l ih =>
      intro best hl hbest
      refine ih _ (fun p' hp' => hl p' (List.mem_cons_of_mem p hp')) ?_
      dsimp only
      split
      · exact hl p List.mem_cons_self
      · exact hbest
  exact hfold _ (0, 0) (fun p hp => (List.mem_zipIdx' hp).1) h

omit [Inhabited V] [LinearOrder F] in
theorem Sized.crown {n : Nat} {g : Hnsw V} (h : g.Sized n) (hn : 0 < n) :
    g.crown.Sized n := by
  refine h.enter ?_ g.tallest.2
  rw [← h.length]
  exact tallest_lt (h.length.symm ▸ hn)

omit [Inhabited V] [LinearOrder F] in
theorem Sized.connect {n : Nat} {g : Hnsw V} (h : g.Sized n) {a b : Nat} (ha : a < n)
    (hb : b < n) (touched : List Nat) :
    (connect a (g, touched) b).1.Sized n := by
  unfold Hnsw.connect
  dsimp only
  generalize min (g.level a) (g.level b) = lvl
  have h₁ : (if b ∈ g.adj lvl a then (g, touched)
      else (g.relink a lvl (· ++ [b]), touched ++ [a])).1.Sized n := by
    split
    · exact h
    · exact h.relink (fun l hl => hl.append (Below.singleton hb)) a lvl
  generalize (if b ∈ g.adj lvl a then (g, touched)
    else (g.relink a lvl (· ++ [b]), touched ++ [a])) = st at h₁
  split
  · exact h₁
  · exact h₁.relink (fun l hl => hl.append (Below.singleton ha)) b lvl

/-- A search of a partition names nodes of the merged graph. -/
def Nearby (n : Nat) (near : Hnsw V → V → Nat → VisitScratch → List Nat × VisitScratch) :
    Prop :=
  ∀ g : Hnsw V, g.Sized n → ∀ vector i s, Below n (near g vector i s).1

theorem Sized.bridge_node {n : Nat} {B : Build V F} {entries : List V} {own : Nat → Nat}
    {reach : Nat} {near : Hnsw V → V → Nat → VisitScratch → List Nat × VisitScratch}
    (hnear : Nearby n near) {st : Bridge V} (h : st.graph.Sized n) {a : Nat} (ha : a < n) :
    (bridge_node B entries own reach near st a).graph.Sized n := by
  unfold Hnsw.bridge_node
  dsimp only
  generalize st.graph.vec_at a = vector
  generalize (sort_by_dist ((entries.zipIdx.filter (·.2 ≠ own a)).map fun p =>
    (⟨B.cos_dist_q vector p.1, p.2⟩ : Cand F))).take reach = picked
  induction picked generalizing st with
  | nil => exact h
  | cons c picked ih =>
    have hfold : ∀ (found : List Nat) (p : Hnsw V × List Nat), p.1.Sized n → Below n found →
        (found.foldl (Hnsw.connect a) p).1.Sized n := by
      intro found
      induction found with
      | nil => exact fun p hp _ => hp
      | cons b found ihf =>
        rintro ⟨g, touched⟩ hp hfound
        exact ihf _ (Sized.connect hp ha (hfound b List.mem_cons_self) touched)
          fun i hi => hfound i (List.mem_cons_of_mem b hi)
    exact ih (hfold _ (st.graph, st.touched) h (hnear st.graph h vector c.idx st.scratch))

theorem Sized.bridge_all {n : Nat} {B : Build V F} {entries : List V} {own : Nat → Nat}
    {reach : Nat} {near : Hnsw V → V → Nat → VisitScratch → List Nat × VisitScratch}
    (hnear : Nearby n near) {l : List Nat} (hl : Below n l) {st : Bridge V}
    (h : st.graph.Sized n) :
    (l.foldl (Hnsw.bridge_node B entries own reach near) st).graph.Sized n := by
  induction l generalizing st with
  | nil => exact h
  | cons a l ih =>
    exact ih (fun i hi => hl i (List.mem_cons_of_mem a hi))
      (h.bridge_node hnear (hl a List.mem_cons_self))

theorem Sized.cap_degree {n : Nat} {g : Hnsw V} (h : g.Sized n) (B : Build V F) (cap i : Nat) :
    (cap_degree B cap g i).Sized n := by
  unfold Hnsw.cap_degree
  generalize List.range (g.level i + 1) = levels
  induction levels generalizing g with
  | nil => exact h
  | cons lvl levels ih =>
    refine ih ?_
    dsimp only
    split
    · exact h
    · exact h.relink (fun l hl j hj => hl j (mem_nearest hj)) i lvl

theorem Linked.search_local {g : Hnsw V} (h : g.Linked) (B : Build V F) (heap : HeapOrder F)
    (vector : V) (k : Nat) (s : VisitScratch) :
    Below g.nodes.length (g.search_local B heap vector k s).1 := by
  unfold Hnsw.search_local
  split
  · exact fun i hi => absurd hi List.not_mem_nil
  case h_2 entry he =>
    have hentry := h.entry entry he
    have hwalked := descend_lt
      (fun cur lvl s => g.search_layer (g.dist_from B vector) cur 1 lvl s.bump_epoch) heap
      (fun cur lvl s hcur hs => h.sized.search_layer _ hcur
        (by rwa [VisitScratch.length_bump_epoch]) 1 lvl)
      g.upper hentry (s.length_ensure_visited g.nodes.length)
    intro i hi
    obtain ⟨c, hc, rfl⟩ := List.mem_map.mp hi
    have hmem := (heap.perm _).mem_iff.mp
      ((List.perm_insertionSort _ _).mem_iff.mp (List.mem_of_mem_take hc))
    refine (h.sized.search_layer (g.dist_from B vector) hwalked.1 ?_ k 0).1 c hmem
    rw [VisitScratch.length_bump_epoch]
    exact hwalked.2

theorem search_local_range_lt (g : Hnsw V) (B : Build V F) (heap : HeapOrder F) (hi : Nat)
    (vector : V) (k : Nat) (s : VisitScratch) :
    Below hi (g.search_local_range B heap hi vector k s).1 := by
  unfold Hnsw.search_local_range
  dsimp only
  split
  · exact fun i h => absurd h List.not_mem_nil
  · intro i h
    obtain ⟨c, hc, rfl⟩ := List.mem_map.mp h
    have hmem := (List.perm_insertionSort _ _).mem_iff.mp (List.mem_of_mem_take hc)
    simpa using (List.mem_filter.mp hmem).2

omit [Inhabited V] [LinearOrder F] in
/-- A segment lies in the merged graph from its offset on. -/
theorem offsets_spec {segments : List (Hnsw V)} {i : Nat} {seg : Hnsw V}
    (h : segments[i]? = some seg) (base : Nat) :
    (((offsets base segments)[i]?).getD 0) + seg.nodes.length ≤ base + nodesOf segments := by
  induction segments generalizing i base with
  | nil => exact absurd h (by simp)
  | cons first segments ih =>
    rw [nodesOf, List.map_cons, List.sum_cons]
    cases i with
    | zero =>
      obtain rfl : first = seg := by simpa using h
      simp only [offsets, List.getElem?_cons_zero, Option.getD_some]
      omega
    | succ i =>
      have := ih (i := i) (by simpa using h) (base + first.nodes.length)
      simp only [offsets, List.getElem?_cons_succ]
      rw [nodesOf] at this
      omega

theorem near_segment_lt {B : Build V F} {heap : HeapOrder F} {base bridge : Nat}
    {segments : List (Hnsw V)} (h : ∀ seg ∈ segments, seg.Linked) (vector : V) (i : Nat)
    (s : VisitScratch) :
    Below (base + nodesOf segments)
      (near_segment B heap base segments bridge vector i s).1 := by
  unfold Hnsw.near_segment
  split
  · exact fun i hi => absurd hi List.not_mem_nil
  case h_2 seg hseg =>
    intro x hx
    obtain ⟨l, hl, rfl⟩ := List.mem_map.mp hx
    have hlocal := (h seg (List.mem_of_getElem? hseg)).search_local B heap vector bridge s l hl
    have := offsets_spec hseg base
    omega

omit [Inhabited V] [LinearOrder F] in
theorem Linked.inherit {g : Hnsw V} (h : g.Linked) (first : Hnsw V) :
    (g.inherit first).Sized g.nodes.length := by
  unfold Hnsw.inherit
  split
  · exact ⟨rfl, h.entry, h.neighbors, h.attr_entry⟩
  · exact h.sized

omit [Inhabited V] [LinearOrder F] in
theorem Linked.assemble {g : Hnsw V} (hg : g.Linked) {segments : List (Hnsw V)}
    (h : ∀ seg ∈ segments, seg.Linked) (hpos : 0 < nodesOf segments) :
    (g.assemble segments).Sized (g.nodes.length + nodesOf segments) := by
  have hall := hg.append_all h
  have he := hall.linked.enter_attrs g.nodes.length
  rw [hall.length] at he
  exact he.crown (by omega)

theorem Sized.bridge_pass {base_n : Nat} {segments : List (Hnsw V)} {g : Hnsw V}
    (hg : g.Sized (base_n + nodesOf segments)) (h : ∀ seg ∈ segments, seg.Linked)
    (B : Build V F) (heap : HeapOrder F) (bridge : Nat) (s : VisitScratch) :
    (g.bridge_pass B heap base_n segments bridge s).graph.Sized
      (base_n + nodesOf segments) := by
  unfold Hnsw.bridge_pass
  dsimp only
  refine Sized.bridge_all ?_ ?_ hg
  · intro g' hg' vector i s'
    dsimp only
    split
    · intro x hx
      have := search_local_range_lt g' B heap base_n vector bridge s' x hx
      omega
    · exact near_segment_lt h vector _ s'
  · intro i hi
    rw [hg.length] at hi
    have := List.mem_range'_1.mp hi
    omega

omit [Inhabited V] [LinearOrder F] in
theorem nodesOf_pos {first : Hnsw V} {rest : List (Hnsw V)} (h : 0 < first.nodes.length) :
    0 < nodesOf (first :: rest) := by
  rw [nodesOf, List.map_cons, List.sum_cons]
  omega

theorem Linked.merge_into {g : Hnsw V} (hg : g.Linked) (B : Build V F) (heap : HeapOrder F)
    {segments : List (Hnsw V)}
    (h : ∀ seg ∈ segments, seg.Linked ∧ 0 < seg.nodes.length) (bridge : Nat)
    (s : VisitScratch) :
    (g.merge_into B heap segments bridge s).1.Linked := by
  unfold Hnsw.merge_into
  split
  · exact hg
  case h_2 first rest =>
    have hseg : ∀ seg ∈ first :: rest, seg.Linked := fun seg hs => (h seg hs).1
    have hi := hg.inherit first
    have ha := hi.linked.assemble hseg (nodesOf_pos (h first List.mem_cons_self).2)
    rw [hi.length] at ha
    have hb := ha.bridge_pass hseg B heap bridge s
    dsimp only
    generalize ((g.inherit first).assemble (first :: rest)).bridge_pass B heap g.nodes.length
      (first :: rest) bridge s = st at hb
    have hfold : ∀ (l : List Nat) (cap : Nat) (g' : Hnsw V),
        g'.Sized (g.nodes.length + nodesOf (first :: rest)) →
        (l.foldl (Hnsw.cap_degree B cap) g').Linked := by
      intro l cap
      induction l with
      | nil => exact fun g' h => h.linked
      | cons i l ih => exact fun g' h => ih _ (h.cap_degree B cap i)
    exact hfold _ _ st.graph hb

omit [Inhabited V] [LinearOrder F] in
theorem linked_new : (new : Hnsw V).Linked :=
  ⟨fun e he => absurd he (by simp [new]), fun node hnode => absurd hnode List.not_mem_nil,
    fun e he => absurd he List.not_mem_nil⟩

theorem merge_segments_linked (B : Build V F) (heap : HeapOrder F) {segments : List (Hnsw V)}
    (h : ∀ seg ∈ segments, seg.Linked ∧ 0 < seg.nodes.length) (bridge : Nat)
    (s : VisitScratch) :
    (merge_segments B heap segments bridge s).1.Linked := by
  unfold Hnsw.merge_segments
  split
  · exact linked_new
  case h_2 seg => exact (h seg List.mem_cons_self).1
  case h_3 first rest _ =>
    have hseg : ∀ seg ∈ first :: rest, seg.Linked := fun seg hs => (h seg hs).1
    have hi := (linked_new (V := V)).inherit first
    have ha := hi.linked.assemble hseg (nodesOf_pos (h first List.mem_cons_self).2)
    rw [hi.length] at ha
    dsimp only
    refine (Sized.bridge_all ?_ ?_ ha).linked
    · exact fun g' hg' vector i s' => near_segment_lt hseg vector i s'
    · intro i hi
      rw [ha.length] at hi
      exact List.mem_range.mp hi

omit [Inhabited V] [LinearOrder F] in
theorem Linked.relabel {g : Hnsw V} (h : g.Linked) (ids : List UInt64) :
    (g.relabel ids).Linked := by
  have hlen : (g.relabel ids).nodes.length = g.nodes.length := List.length_map _
  refine ⟨by rw [hlen]; exact h.entry, ?_, by rw [hlen]; exact h.attr_entry⟩
  rw [hlen]
  intro node hnode
  obtain ⟨node', hn, rfl⟩ := List.mem_map.mp hnode
  exact h.neighbors node' hn

/-! ## Every graph that can be built -/

theorem Linked.insert_many_parallel {g : Hnsw V} (h : g.Linked) (B : Build V F)
    (heap : HeapOrder F) (rows : List (Row V)) (dim n_shards : Nat) (s : VisitScratch) :
    (g.insert_many_parallel B heap rows dim n_shards s).1.Linked := by
  unfold Hnsw.insert_many_parallel
  split
  · exact h
  case isFalse hok =>
    simp only [Bool.or_eq_true, Bool.not_eq_true', not_or, Bool.not_eq_false,
      List.all_eq_true, beq_iff_eq] at hok
    refine h.merge_into B heap ?_ 8 s
    intro seg hseg
    obtain ⟨part, hpart, rfl⟩ := List.mem_map.mp hseg
    obtain ⟨hmem, hne⟩ := List.mem_filter.mp hpart
    obtain ⟨i, -, rfl⟩ := List.mem_map.mp hmem
    refine segment_linked heap (by simpa using hne) ?_
    intro row hrow
    exact hok.2 row (List.mem_of_mem_drop (List.mem_of_mem_take hrow))

theorem bulk_load_linked (B : Build V F) (heap : HeapOrder F) (parts : List (List (Row V)))
    (ids : List UInt64) (dim bridge : Nat) (s : VisitScratch) :
    (bulk_load B heap parts ids dim bridge s).1.Linked := by
  unfold Hnsw.bulk_load
  split
  case isTrue hok =>
    simp only [List.all_eq_true, Bool.and_eq_true, beq_iff_eq] at hok
    refine (merge_segments_linked B heap ?_ bridge s).relabel ids
    intro seg hseg
    obtain ⟨part, hpart, rfl⟩ := List.mem_map.mp hseg
    obtain ⟨hne, hdim⟩ := hok part hpart
    exact segment_linked heap (by simpa using hne) hdim
  case isFalse => exact linked_new

/-- **Built graphs are linked.** Every index in a graph that inserts, merges, bulk loads and
deletions lead to is that of a node. -/
theorem Reachable.linked
    {B : Build V F} {g : Hnsw V} (h : Reachable B g) :
    g.Linked := by
  induction h with
  | new => exact linked_new
  | bulk_load heap parts ids dim bridge s => exact bulk_load_linked B heap parts ids dim bridge s
  | insert _ heap row s ih =>
    unfold Hnsw.insert
    split
    · exact (ih.insert_attr B heap row s).1
    · exact ih
  | insert_many_parallel _ heap rows dim n_shards s ih =>
    exact ih.insert_many_parallel B heap rows dim n_shards s
  | forget _ id ih =>
    unfold Hnsw.forget
    split
    · exact ih
    case h_2 idx _ =>
      exact (ih.sized.modify (f := fun node => { node with deleted := true }) (fun _ => rfl)
        idx _).linked

end Hnsw
end Vectors
end StrikeDB
