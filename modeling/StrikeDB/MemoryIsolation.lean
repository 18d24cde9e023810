import StrikeDB.MemoryScopes

/-!
# StrikeDB: scoped recall is isolated and, but for the empty scope, not starved

Every hit of a scoped recall is a visible record, and none comes twice, whatever the
approximate search returns.  As long as the records of the scope and the shared ones are
at most as many as the exact search takes, a recall has as many hits as there are relevant
records, up to `k`.  The empty scope is counted twice: its own records are the shared
ones.  So from half of the limit on it is searched approximately, and the records of other
scopes can push its own out.

**Results.**
* `Represents.scopedRows`: the rows that recall counts.
* `recall_spec`: a recall, from the candidates of its semantic part.
* `recall_isolated_not_starved`: isolation, and exactly when recall is not starved.
-/

namespace StrikeDB
namespace Recall

section Isolation

variable {F : Type} [Field F] [LinearOrder F]

/-! ## The records a recall is about -/

namespace Book

variable (b : Book F)

/-- The records of the scope and the shared ones. -/
def owned (scope : String) : List (Entry F) := b.entries.filter fun x => x.Owned scope

/-- The visible records that share a token with the query. -/
def sharing (u : Unicode) (query : List Char) (scope : String) (at_ : Nat) : List (Entry F) :=
  b.entries.filter fun x => x.Visible scope at_ ∧ x.Shares u query

/-- The visible records that share a token with the query or have positive similarity. -/
def relevant (u : Unicode) (query : List Char) (query_vec : List F) (scope : String)
    (at_ : Nat) : List (Entry F) :=
  b.entries.filter fun x => x.Visible scope at_ ∧ (x.Shares u query ∨ x.Similar query_vec)

/-- The search calls near only what has positive similarity. -/
def Truthful (query_vec : List F) (search_ef : List F → Nat → Nat → List (Nat × F)) : Prop :=
  ∀ want ef, ∀ r ∈ search_ef query_vec want ef, r.2 < 1 →
    ∀ x ∈ b.entries, x.id = r.1 → x.Similar query_vec

/-- The hits are visible records, none of them twice. -/
def Isolated (scope : String) (at_ : Nat) (hits : List (RecallHit F)) : Prop :=
  (hits.map RecallHit.id).Nodup ∧ ∀ hit ∈ hits, b.Shows scope at_ hit

end Book

theorem length_filter_or {α : Type} {P Q : α → Prop} [DecidablePred P] [DecidablePred Q]
    (h : ∀ x, P x → ¬ Q x) (l : List α) :
    (l.filter fun x => P x ∨ Q x).length =
      (l.filter fun x => P x).length + (l.filter fun x => Q x).length := by
  induction l with
  | nil => rfl
  | cons x l ih =>
      simp only [Bool.decide_or] at ih ⊢
      by_cases hP : P x
      · simp [hP, h x hP, ih]
        omega
      · by_cases hQ : Q x
        · simp [hP, hQ, ih]
          omega
        · simp [hP, hQ, ih]

variable {u : Unicode} {sqrt : F → F} {d : Nat} {m : LongTerm F} {b : Book F}

/-- The rows that recall counts: those of the empty scope twice. -/
theorem Represents.scopedRows (h : Represents u sqrt d m b) (hd : 0 < d) (scope : String) :
    Recall.scopedRows m.idx scope =
      if scope = "" then 2 * (b.owned scope).length else (b.owned scope).length := by
  have hlen : ∀ o, (m.idx.arena o).rows.length =
      (b.entries.filter fun x => x.meta_.owner = o).length := by
    intro o
    refine (h.idx.arena o).length fun x hx hvec => ?_
    have hdim := h.dims x (List.mem_of_mem_filter hx)
    rw [hvec] at hdim
    exact absurd hdim hd.ne
  rw [Recall.scopedRows, ← List.length_flatMap, scopeArenas_flatMap m.idx scope rfl,
    List.length_append, hlen, hlen]
  by_cases hscope : scope = ""
  · subst hscope
    rw [if_pos rfl]
    have howned : b.owned "" = b.entries.filter fun x => x.meta_.owner = "" := by
      simp only [Book.owned, Entry.Owned, or_self]
    rw [howned]
    omega
  · rw [if_neg hscope]
    refine (length_filter_or (fun x hx hshared => hscope ?_) b.entries).symm
    rw [← hx, hshared]

omit [Field F] [LinearOrder F] in
/-- A map of ids of these records has at most as many. -/
theorem size_le {fused : Fused F} {l : List (Entry F)}
    (h : ∀ j ∈ fused, ∃ x ∈ l, x.id = j) :
    fused.size ≤ l.length := by
  rw [← Std.ExtTreeMap.length_keys, ← List.length_map Entry.id]
  refine (Std.ExtTreeMap.nodup_keys.subperm fun j hj => ?_).length_le
  obtain ⟨x, hx, hxid⟩ := h j (Std.ExtTreeMap.mem_keys.mp hj)
  exact List.mem_map.mpr ⟨x, hx, hxid⟩

omit [Field F] [LinearOrder F] in
theorem le_size {fused : Fused F} {ids : List Nat} (hnodup : ids.Nodup)
    (h : ∀ j ∈ ids, j ∈ fused) :
    ids.length ≤ fused.size := by
  rw [← Std.ExtTreeMap.length_keys]
  exact (hnodup.subperm fun j hj => Std.ExtTreeMap.mem_keys.mpr (h j hj)).length_le

omit [Field F] [LinearOrder F] in
theorem nodup_filter_ids {P : Entry F → Bool} (h : (b.entries.map Entry.id).Nodup) :
    ((b.entries.filter P).map Entry.id).Nodup :=
  h.sublist (List.filter_sublist.map _)

/-! ## One recall -/

variable {p : Platform F} {search_ef : List F → Nat → Nat → List (Nat × F)} {scope : String}
  {query : List Char} {query_vec : List F} {k at_ : Nat}

/-- A recall, from the candidates of its semantic part. -/
theorem recall_spec (h : Represents p.unicode p.sqrt d m b) {fused : Fused F}
    (hsem : semantic p search_ef m.idx (visible m.idx scope at_) scope query_vec (k * 3) =
      some fused)
    (hsee : ∀ j ∈ fused, (visible m.idx scope at_ j).isSome) :
    ∃ hits, recall_at p search_ef m scope query query_vec k at_ = some hits ∧
      b.Isolated scope at_ hits ∧
      hits.length = min k (keyword p m (visible m.idx scope at_) query fused).size := by
  obtain ⟨hnodup, hlen, hmem⟩ := winners_spec p (k * 3)
    (keyword p m (visible m.idx scope at_) query fused)
  have htop : ∀ w ∈ winners p (k * 3) (keyword p m (visible m.idx scope at_) query fused),
      ∃ x ∈ b.entries, x.id = w.id ∧ x.Visible scope at_ := by
    intro w hw
    rcases (mem_keyword h scope at_ query fused w.id).mp (hmem w hw) with hin | hin
    · exact (visible_isSome h scope at_ w.id).mp (hsee _ hin)
    · obtain ⟨x, hx, hxid, hvis, _⟩ := hin
      exact ⟨x, hx, hxid, hvis⟩
  obtain ⟨hits, heq, hids, hshows⟩ :=
    materialize_spec h htop (show ([] : List (RecallHit F)).length ≤ k from Nat.zero_le k)
  refine ⟨hits, ?_, ⟨?_, hshows⟩, ?_⟩
  · unfold recall_at
    dsimp only
    rw [hsem, Option.bind_eq_bind, Option.bind_some, heq]
    rfl
  · rw [hids]
    exact hnodup.sublist (List.take_sublist _ _)
  · have hlength := congrArg List.length hids
    rw [List.length_map, List.length_take, List.length_map, hlen, List.length_nil] at hlength
    omega

variable [IsStrictOrderedRing F]

/-- What the exact scan offers to its heap. -/
def offered (p : Platform F) (m : LongTerm F) (scope : String) (at_ : Nat)
    (query_vec : List F) : List (F × Nat) :=
  candidates (visible m.idx scope at_) (normalize p.sqrt query_vec) (m.idx.arena scope) ++
    candidates (visible m.idx scope at_) (normalize p.sqrt query_vec) (m.idx.arena "")

/-- The exact scan offers the visible similar records. -/
theorem mem_offered (h : Represents p.unicode p.sqrt d m b) (j : Nat) :
    j ∈ (offered p m scope at_ query_vec).map Prod.snd ↔
      ∃ x ∈ b.entries, x.id = j ∧ x.Visible scope at_ ∧ x.Similar query_vec := by
  have hone := fun o => mem_candidates (h.idx.arena o)
    (fun x hx => h.dims x (List.mem_of_mem_filter hx)) (visible m.idx scope at_) query_vec j
  rw [offered, List.map_append, List.mem_append, hone, hone, visible_isSome h]
  constructor
  · intro hj
    have hany : ∃ o, (∃ x ∈ b.entries, x.id = j ∧ x.Visible scope at_) ∧
        ∃ x ∈ b.entries.filter (fun x => x.meta_.owner = o), x.id = j ∧ x.Similar query_vec := by
      rcases hj with hj | hj
      · exact ⟨_, hj⟩
      · exact ⟨_, hj⟩
    obtain ⟨_, ⟨x, hx, rfl, hvis⟩, y, hy, hyid, hsim⟩ := hany
    rw [List.inj_on_of_nodup_map h.nodup (List.mem_of_mem_filter hy) hx hyid] at hsim
    exact ⟨x, hx, rfl, hvis, hsim⟩
  · rintro ⟨x, hx, hxid, hvis, hsim⟩
    have hin : ∀ {o}, x.meta_.owner = o → x ∈ b.entries.filter fun x => x.meta_.owner = o :=
      fun ho => List.mem_filter.mpr ⟨hx, decide_eq_true ho⟩
    rcases hvis.1 with ho | ho
    · exact Or.inl ⟨⟨x, hx, hxid, hvis⟩, x, hin ho, hxid, hsim⟩
    · exact Or.inr ⟨⟨x, hx, hxid, hvis⟩, x, hin ho, hxid, hsim⟩

omit [IsStrictOrderedRing F] in
/-- No record is offered more than twice. -/
theorem count_offered (h : Represents p.unicode p.sqrt d m b) (j : Nat) :
    ((offered p m scope at_ query_vec).map Prod.snd).count j ≤ 2 := by
  have hone := fun o => List.nodup_iff_count_le_one.mp
    (candidates_nodup (h.idx.arena o) (nodup_filter_ids h.nodup) (visible m.idx scope at_)
      (normalize p.sqrt query_vec)) j
  rw [offered, List.map_append, List.count_append]
  have := hone scope
  have := hone ""
  omega

/-- The semantic part finds only visible records. -/
theorem semantic_seen (h : Represents p.unicode p.sqrt d m b) {fused : Fused F} {fetch : Nat}
    (hsem : semantic p search_ef m.idx (visible m.idx scope at_) scope query_vec fetch =
      some fused) :
    ∀ j ∈ fused, (visible m.idx scope at_ j).isSome := by
  intro j hj
  rcases Nat.eq_zero_or_pos (Recall.scopedRows m.idx scope) with hzero | hpos
  · rw [semantic_nothing _ _ _ _ _ _ hzero, Option.some.injEq] at hsem
    rw [← hsem] at hj
    exact absurd hj Std.ExtTreeMap.not_mem_empty
  · rcases Nat.lt_or_ge p.exact_max (Recall.scopedRows m.idx scope) with hmore | hmax
    · rcases mem_semantic_near p search_ef (visible m.idx scope at_) scope query_vec fetch hpos
        hmore with ⟨_, hnone⟩ | ⟨_, _, _, _, heq, hmem⟩
      · rw [hnone] at hsem
        cases hsem
      · rw [heq, Option.some.injEq] at hsem
        exact ((hmem j).mp (hsem ▸ hj)).1
    · obtain ⟨_, heq, hmem⟩ := mem_semantic_exact p search_ef (visible m.idx scope at_) scope
        query_vec fetch hpos hmax
      rw [heq, Option.some.injEq] at hsem
      obtain ⟨c, hc, rfl⟩ := List.mem_map.mp ((hmem j).mp (hsem ▸ hj))
      have hin := ((BestOf.fills_offerPop Prod.fst fetch).foldl _).1.subset hc
      have hoffered : c.2 ∈ (offered p m scope at_ query_vec).map Prod.snd :=
        List.mem_map_of_mem hin
      obtain ⟨x, hx, hxid, hvis, _⟩ := (mem_offered h c.2).mp hoffered
      exact (visible_isSome h scope at_ c.2).mpr ⟨x, hx, hxid, hvis⟩

/-- An exact search is not starved. -/
theorem exact_not_starved (h : Represents p.unicode p.sqrt d m b)
    (hpos : 0 < Recall.scopedRows m.idx scope)
    (hmax : Recall.scopedRows m.idx scope ≤ p.exact_max) :
    ∃ hits, recall_at p search_ef m scope query query_vec k at_ = some hits ∧
      hits.length = min k (b.relevant p.unicode query query_vec scope at_).length := by
  obtain ⟨fused, hsem, hmem⟩ := mem_semantic_exact p search_ef (visible m.idx scope at_) scope
    query_vec (k * 3) hpos hmax
  obtain ⟨hits, hrecall, _, hlen⟩ := recall_spec h hsem (semantic_seen h hsem)
  refine ⟨hits, hrecall, hlen.trans ?_⟩
  have hkey := mem_keyword h scope at_ query fused
  have hupper : (keyword p m (visible m.idx scope at_) query fused).size ≤
      (b.relevant p.unicode query query_vec scope at_).length := by
    refine size_le fun j hj => ?_
    rcases (hkey j).mp hj with hj | ⟨x, hx, hxid, hvis, hshares⟩
    · obtain ⟨c, hc, rfl⟩ := List.mem_map.mp ((hmem j).mp hj)
      have hin := ((BestOf.fills_offerPop Prod.fst (k * 3)).foldl _).1.subset hc
      obtain ⟨x, hx, hxid, hvis, hsim⟩ := (mem_offered h c.2).mp (List.mem_map_of_mem hin)
      exact ⟨x, List.mem_filter.mpr ⟨hx, decide_eq_true ⟨hvis, Or.inr hsim⟩⟩, hxid⟩
    · exact ⟨x, List.mem_filter.mpr ⟨hx, decide_eq_true ⟨hvis, Or.inl hshares⟩⟩, hxid⟩
  rcases best_enough (s := offered p m scope at_ query_vec) (count_offered h) k with hall | hmany
  · have hlower : (b.relevant p.unicode query query_vec scope at_).length ≤
        (keyword p m (visible m.idx scope at_) query fused).size := by
      rw [← List.length_map Entry.id]
      refine le_size (nodup_filter_ids h.nodup) fun j hj => (hkey j).mpr ?_
      obtain ⟨x, hx, rfl⟩ := List.mem_map.mp hj
      obtain ⟨hx, hgood⟩ := List.mem_filter.mp hx
      obtain ⟨hvis, hshares | hsim⟩ := of_decide_eq_true hgood
      · exact Or.inr ⟨x, hx, rfl, hvis, hshares⟩
      · obtain ⟨c, hc, hcid⟩ :=
          List.mem_map.mp ((mem_offered h x.id).mpr ⟨x, hx, rfl, hvis, hsim⟩)
        exact Or.inl ((hmem _).mpr (List.mem_map.mpr ⟨c, hall c hc, hcid⟩))
    omega
  · have hlower := le_size (List.nodup_dedup _) fun j hj =>
      (hkey j).mpr (Or.inl ((hmem j).mpr (List.mem_dedup.mp hj)))
    have := hmany.trans hlower
    omega

/-- An approximate search finds between the sharing and the relevant records, or panics. -/
theorem near_spec (h : Represents p.unicode p.sqrt d m b)
    (hpos : 0 < Recall.scopedRows m.idx scope)
    (hmore : p.exact_max < Recall.scopedRows m.idx scope)
    (search_ef : List F → Nat → Nat → List (Nat × F)) (query : List Char) (query_vec : List F)
    (k at_ : Nat) :
    (4096 < k * 3 ∧ recall_at p search_ef m scope query query_vec k at_ = none) ∨
      (k * 3 ≤ 4096 ∧ ∃ hits n,
        recall_at p search_ef m scope query query_vec k at_ = some hits ∧
        hits.length = min k n ∧ (b.sharing p.unicode query scope at_).length ≤ n ∧
        (b.Truthful query_vec search_ef →
          n ≤ (b.relevant p.unicode query query_vec scope at_).length) ∧
        ((∀ want ef, search_ef query_vec want ef = []) →
          n = (b.sharing p.unicode query scope at_).length)) := by
  rcases mem_semantic_near p search_ef (visible m.idx scope at_) scope query_vec (k * 3) hpos
    hmore with ⟨hbig, hnone⟩ | ⟨hsmall, want, ef, fused, hsem, hmem⟩
  · left
    refine ⟨hbig, ?_⟩
    unfold recall_at
    dsimp only
    rw [hnone]
    rfl
  · right
    obtain ⟨hits, hrecall, _, hlen⟩ := recall_spec (k := k) h hsem (semantic_seen h hsem)
    have hkey := mem_keyword h scope at_ query fused
    have hlower : (b.sharing p.unicode query scope at_).length ≤
        (keyword p m (visible m.idx scope at_) query fused).size := by
      rw [← List.length_map Entry.id]
      refine le_size (nodup_filter_ids h.nodup) fun j hj => (hkey j).mpr (Or.inr ?_)
      obtain ⟨x, hx, rfl⟩ := List.mem_map.mp hj
      obtain ⟨hx, hgood⟩ := List.mem_filter.mp hx
      obtain ⟨hvis, hshares⟩ := of_decide_eq_true hgood
      exact ⟨x, hx, rfl, hvis, hshares⟩
    refine ⟨hsmall, hits, _, hrecall, hlen, hlower, ?_, ?_⟩
    · intro htruthful
      refine size_le fun j hj => ?_
      rcases (hkey j).mp hj with hj | ⟨x, hx, hxid, hvis, hshares⟩
      · obtain ⟨hsee, r, hr, hrid, hdist⟩ := (hmem j).mp hj
        obtain ⟨x, hx, hxid, hvis⟩ := (visible_isSome h scope at_ j).mp hsee
        have hsim := htruthful want ef r hr hdist x hx (hxid.trans hrid.symm)
        exact ⟨x, List.mem_filter.mpr ⟨hx, decide_eq_true ⟨hvis, Or.inr hsim⟩⟩, hxid⟩
      · exact ⟨x, List.mem_filter.mpr ⟨hx, decide_eq_true ⟨hvis, Or.inl hshares⟩⟩, hxid⟩
    · intro hempty
      refine Nat.le_antisymm (size_le fun j hj => ?_) hlower
      rcases (hkey j).mp hj with hj | ⟨x, hx, hxid, hvis, hshares⟩
      · obtain ⟨_, r, hr, _⟩ := (hmem j).mp hj
        rw [hempty] at hr
        cases hr
      · exact ⟨x, List.mem_filter.mpr ⟨hx, decide_eq_true ⟨hvis, hshares⟩⟩, hxid⟩

/-- Scoped recall is isolated.  Up to the exact-search limit it is not starved, unless the
scope is the empty one and twice its records are more than the limit: then the request may
be too wide, or the approximate search may leave out what no token finds. -/
theorem recall_isolated_not_starved (p : Platform F) {d : Nat} (hd : 0 < d)
    (ops : List (Op F)) (hops : ∀ op ∈ ops, op.HasDim d) (scope : String)
    (query : List Char) (query_vec : List F) (k at_ : Nat) :
    (∀ search_ef hits,
      recall_at p search_ef (LongTerm.run p.sqrt p.unicode ops) scope query query_vec k at_ =
        some hits → (Book.run ops).Isolated scope at_ hits) ∧
    (0 < ((Book.run ops).owned scope).length →
      ((Book.run ops).owned scope).length ≤ p.exact_max →
      ((∀ search_ef, (Book.run ops).Truthful query_vec search_ef →
        ∃ hits, recall_at p search_ef (LongTerm.run p.sqrt p.unicode ops) scope query
            query_vec k at_ = some hits ∧
          hits.length =
            min k ((Book.run ops).relevant p.unicode query query_vec scope at_).length) ↔
        ¬ (scope = "" ∧ p.exact_max < 2 * ((Book.run ops).owned scope).length ∧
          (4096 < k * 3 ∨ min k ((Book.run ops).sharing p.unicode query scope at_).length <
            min k ((Book.run ops).relevant p.unicode query query_vec scope at_).length)))) := by
  have h : Represents p.unicode p.sqrt d (LongTerm.run p.sqrt p.unicode ops) (Book.run ops) :=
    represents_run ops hops
  generalize LongTerm.run p.sqrt p.unicode ops = m at h
  generalize Book.run ops = b at h
  constructor
  · intro search_ef hits hrecall
    have hrecall' := hrecall
    unfold recall_at at hrecall'
    obtain ⟨fused, hsem, _⟩ := Option.bind_eq_some_iff.mp hrecall'
    obtain ⟨hits', heq, hisolated, _⟩ := recall_spec h hsem
      (semantic_seen h hsem)
    rw [hrecall, Option.some.injEq] at heq
    rw [heq]
    exact hisolated
  · intro hpos hlimit
    have hrows := h.scopedRows hd scope
    have hrowspos : 0 < Recall.scopedRows m.idx scope := by
      rw [hrows]
      split <;> omega
    constructor
    · rintro hall ⟨hscope, htwice, hbad⟩
      obtain ⟨hits, hrecall, hlen⟩ := hall (fun _ _ _ => []) (by
        intro want ef r hr
        cases hr)
      have hmore : p.exact_max < Recall.scopedRows m.idx scope := by
        rw [hrows, if_pos hscope]
        exact htwice
      rcases near_spec h hrowspos hmore (fun _ _ _ => []) query query_vec k at_ with
        ⟨_, hnone⟩ | ⟨_, hits', n, heq, hn, _, _, hempty⟩
      · rw [hnone] at hrecall
        cases hrecall
      · rw [hrecall, Option.some.injEq] at heq
        have := hempty fun _ _ => rfl
        rw [heq] at hlen
        omega
    · intro hgood search_ef htruthful
      rcases Nat.lt_or_ge p.exact_max (Recall.scopedRows m.idx scope) with hmore | hmax
      · have hscope : scope = "" := by
          by_contra hne
          rw [hrows, if_neg hne] at hmore
          omega
        rw [hrows, if_pos hscope] at hmore
        have hnot : ¬ (4096 < k * 3 ∨ min k (b.sharing p.unicode query scope at_).length <
            min k (b.relevant p.unicode query query_vec scope at_).length) :=
          fun hbad => hgood ⟨hscope, hmore, hbad⟩
        have htwice : p.exact_max < Recall.scopedRows m.idx scope := by
          rw [hrows, if_pos hscope]
          exact hmore
        rcases near_spec h hrowspos htwice search_ef query query_vec k at_ with
          ⟨hbig, _⟩ | ⟨_, hits, n, hrecall, hn, hlower, hupper, _⟩
        · exact absurd (Or.inl hbig) hnot
        · have := hupper htruthful
          exact ⟨hits, hrecall, by omega⟩
      · exact exact_not_starved h hrowspos hmax

end Isolation

/-! ## Shared memories pushed out -/

def asciiTables : Unicode where
  to_lowercase := List.map Char.toLower
  is_alphanumeric := Char.isAlphanum
  colon := by decide

/-- The root of the squares below. -/
def rootOf (x : ℚ) : ℚ := if x = 25 then 5 else x

/-- A limit of two records. -/
def smallLimit : Platform ℚ where
  unicode := asciiTables
  sqrt := rootOf
  ln := id
  exact_max := 2
  order := id
  perm := fun l => List.Perm.refl l

def remember (owner : String) (vector : List ℚ) : Op ℚ :=
  .ltm_store_temporal [] vector "tool" 1 "" 0 0 owner 1

/-- Two shared memories near the query, and three nearer ones of another scope. -/
def crowded : List (Op ℚ) :=
  List.replicate 2 (remember "" [3, 4]) ++ List.replicate 3 (remember "crowd" [1, 0])

/-- An approximate search that misses nothing. -/
def nearest (b : Book ℚ) (query_vec : List ℚ) (want _ef : Nat) : List (Nat × ℚ) :=
  ((b.entries.map fun x =>
    (x.id, 1 - dot8 (normalize rootOf query_vec) (normalize rootOf x.vec))).insertionSort
      fun r r' => r.2 ≤ r'.2).take want

/-- Recall for the empty scope returns nothing, though both its memories are relevant. -/
theorem shared_memories_starved :
    (Book.run crowded).Truthful [1, 0] (nearest (Book.run crowded)) ∧
      ((Book.run crowded).owned "").length = smallLimit.exact_max ∧
      (recall_at smallLimit (nearest (Book.run crowded))
        (LongTerm.run smallLimit.sqrt smallLimit.unicode crowded) "" [] [1, 0] 1 5).map
          List.length = some 0 ∧
      min 1 ((Book.run crowded).relevant smallLimit.unicode [] [1, 0] "" 5).length = 1 := by
  have hsimilar : ∀ x ∈ (Book.run crowded).entries, x.Similar [1, 0] := by decide +kernel
  refine ⟨?_, by decide +kernel, by decide +kernel, by decide +kernel⟩
  intro want ef r _ _ x hx _
  exact hsimilar x hx

/-- The same memories, recalled for a scope of its own. -/
theorem shared_memories_recalled :
    ∃ hits, recall_at smallLimit (nearest (Book.run crowded))
        (LongTerm.run smallLimit.sqrt smallLimit.unicode crowded) "alice" [] [1, 0] 1 5 =
          some hits ∧
      hits.length =
        min 1 ((Book.run crowded).relevant smallLimit.unicode [] [1, 0] "alice" 5).length := by
  have hdims : ∀ op ∈ crowded, op.HasDim 2 := by
    intro op hop
    rcases List.mem_append.mp hop with h | h
    · rw [List.eq_of_mem_replicate h]
      rfl
    · rw [List.eq_of_mem_replicate h]
      rfl
  have hsimilar : ∀ x ∈ (Book.run crowded).entries, x.Similar [1, 0] := by decide +kernel
  have h := recall_isolated_not_starved smallLimit (by decide) crowded hdims "alice" [] [1, 0] 1 5
  refine (h.2 (by decide +kernel) (by decide +kernel)).mpr ?_ _ ?_
  · rintro ⟨hscope, _⟩
    exact absurd hscope (by decide)
  · intro want ef r _ _ x hx _
    exact hsimilar x hx

end Recall
end StrikeDB
