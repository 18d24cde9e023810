import StrikeDB.BoundedHeap
import StrikeDB.MemoryRecords

/-!
# StrikeDB: scoped recall

`recall_at`: candidates come from an exact scan of the arenas of the scope and of the shared
records, or from a wider approximate search, and from the keyword postings; the best
scored ones are read back.  The approximate search is a parameter, as it may return
anything, and so is the iteration order of the `HashMap` of the scores.

Of the two arenas one is the other's when the scope is the empty one.

**Results.**
* `dot8_normalize_pos`: normalising keeps the sign of a similarity.
* `visible_iff`: what recall may see is decided by the stored records.
* `mem_keyword`: the candidates of the postings.
-/

namespace StrikeDB
namespace Recall

/-- Which part of the search found a record first. -/
inductive Kind where
  | semantic
  | keyword
deriving DecidableEq

structure Scored (F : Type) where
  score : F
  id : Nat
  kind : Kind
deriving DecidableEq

structure RecallHit (F : Type) where
  id : Nat
  text : List Char
  score : F
  kind : Kind
  meta_ : Meta F

abbrev Fused (F : Type) := Std.ExtTreeMap Nat (F × Kind)

/-- What a recall finds around it: the standard library's functions, the setting
`DBSTRIKE_MEM_EXACT_MAX` and the iteration order of a `HashMap`. -/
structure Platform (F : Type) where
  unicode : Unicode
  sqrt : F → F
  ln : F → F
  exact_max : Nat
  order : List (Scored F) → List (Scored F)
  perm : ∀ l, (order l).Perm l

/-- `usize::clamp` panics when its bounds are crossed. -/
def clamp (x lo hi : Nat) : Option Nat := if lo ≤ hi then some (min (max x lo) hi) else none

section Recall

variable {F : Type} [Field F] [LinearOrder F]

def half : F := 1 / (2 : ℕ)

def MIN_SEMANTIC_SIM : F := half

/-- The salience of a record that the requester may see. -/
def visible (idx : RecIndex F) (scope : String) (at_ id : Nat) : Option F :=
  let scope_id := idx.owner_ids scope
  let legacy_id := idx.owner_ids ""
  idx.recs[id]?.bind fun r =>
    let owned := some r.owner = scope_id ∨ some r.owner = legacy_id
    if owned ∧ r.valid_at at_ = true then some r.sal else none

/-! ## Semantic candidates -/

def admitted (see : Nat → Option F) (fused : Fused F) (id : Nat) (sim : F) : Fused F :=
  if ¬ MIN_SEMANTIC_SIM < sim then fused
  else
    match see id with
    | none => fused
    | some sal => fused.insert id (sim * (half + half * sal), .semantic)

/-- The arenas of the scope and of the shared records. -/
def scopeArenas (idx : RecIndex F) (scope : String) : List (Arena F) :=
  ([idx.owner_ids scope, idx.owner_ids ""].filterMap id).filterMap idx.arenas

omit [Field F] [LinearOrder F] in
/-- `scoped_n`: the rows of these arenas. -/
def scopedRows (idx : RecIndex F) (scope : String) : Nat :=
  ((scopeArenas idx scope).map fun a => a.rows.length).sum

/-- The min-heap of the best visible rows, after one more arena. -/
def scanArena (see : Nat → Option F) (q : List F) (fetch : Nat) (best : List (F × Nat))
    (a : Arena F) : List (F × Nat) :=
  if a.dim ≠ q.length then best
  else
    a.rows.foldl
      (fun best r =>
        let cos := dot8 q r.2
        if cos ≤ 0 ∨ (best.length = fetch ∧
            (BestOf.worst Prod.fst best).any (fun w => cos ≤ w.1) = true) then best
        else if (see r.1).isNone then best
        else
          let best := (cos, r.1) :: best
          if fetch < best.length then BestOf.pop Prod.fst best else best)
      best

def semantic (p : Platform F) (search_ef : List F → Nat → Nat → List (Nat × F))
    (idx : RecIndex F) (see : Nat → Option F) (scope : String) (query_vec : List F)
    (fetch : Nat) : Option (Fused F) := do
  let arenas := scopeArenas idx scope
  let scoped_n := scopedRows idx scope
  if 0 < scoped_n ∧ scoped_n ≤ p.exact_max then
    let q := normalize p.sqrt query_vec
    let best := arenas.foldl (scanArena see q fetch) []
    return best.foldl (fun fused c => admitted see fused c.2 ((1 + c.1) / (2 : ℕ))) ∅
  else if 0 < scoped_n then
    let total := max idx.recs.size 1
    let widen ← clamp (total / scoped_n) 1 64
    let want ← clamp (fetch * widen) fetch 4096
    return (search_ef query_vec want (max want 128)).foldl
      (fun fused r => admitted see fused r.1 (1 - r.2 / (2 : ℕ))) ∅
  else return ∅

/-! ## Keyword candidates -/

/-- One posting adds to the score of its record. -/
def addPosting (see : Nat → Option F) (contrib_per_doc : F) (fused : Fused F) (kk : Key) :
    Fused F :=
  if 8 ≤ kk.length then
    let id := beNat (kk.drop (kk.length - 8))
    match see id with
    | none => fused
    | some sal =>
        let add := contrib_per_doc * ((4 : ℕ) / (5 : ℕ)) * (half + half * sal)
        match fused[id]? with
        | none => fused.insert id (add, .keyword)
        | some e => fused.insert id (e.1 + add, e.2)
  else fused

/-- The postings of one token; their order does not matter. -/
def addToken (ln : F → F) (total_docs : Nat) (kw : List Key) (see : Nat → Option F)
    (fused : Fused F) (tok : List Char) : Fused F :=
  let hits := kw.filter fun kk => (kwPrefix tok).isPrefixOf kk
  let df := hits.length
  if df = 0 then fused
  else
    let idf := max (ln (((total_docs : F) - df + half) / (df + half))) 0 + 1
    let contrib_per_doc := 1 * (2 : ℕ) / (1 + 1) * idf
    hits.foldl (addPosting see contrib_per_doc) fused

def keyword (p : Platform F) (m : LongTerm F) (see : Nat → Option F) (query : List Char)
    (fused : Fused F) : Fused F :=
  (tokenize p.unicode query).foldl (addToken p.ln m.ltm_count m.kw see) fused

/-! ## The winners -/

/-- The best `fetch` scored records, best first. -/
def winners (p : Platform F) (fetch : Nat) (fused : Fused F) : List (Scored F) :=
  let scored := fused.toList.map fun e => { score := e.2.1, id := e.1, kind := e.2.2 }
  let heap := (p.order scored).foldl (BestOf.offerReplace Scored.score fetch) []
  heap.mergeSort fun a b => b.score ≤ a.score

omit [Field F] [LinearOrder F] in
/-- Read the winners back until there are `k` hits. -/
def materialize (m : LongTerm F) (scope : String) (k at_ : Nat) :
    List (Scored F) → List (RecallHit F) → List (RecallHit F)
  | [], out => out
  | s :: top, out =>
      if out.length = k then out
      else
        match m.get s.id with
        | none => materialize m scope k at_ top out
        | some (text, meta_) =>
            if meta_.owner ≠ "" ∧ meta_.owner ≠ scope then materialize m scope k at_ top out
            else if validAt meta_.valid_from meta_.valid_to at_ = false then
              materialize m scope k at_ top out
            else
              materialize m scope k at_ top (out ++ [{
                id := s.id, text := text, score := s.score, kind := s.kind, meta_ := meta_ }])

/-- The recall pipeline; `none` is a panic. -/
def recall_at (p : Platform F) (search_ef : List F → Nat → Nat → List (Nat × F))
    (m : LongTerm F) (scope : String) (query : List Char) (query_vec : List F) (k at_ : Nat) :
    Option (List (RecallHit F)) := do
  let fetch := k * 3
  let see := visible m.idx scope at_
  let fused ← semantic p search_ef m.idx see scope query_vec fetch
  let fused := keyword p m see query fused
  return materialize m scope k at_ (winners p fetch fused) []

/-! ## Similarity -/

/-- The memory's vector points the way of the query. -/
def Entry.Similar (query_vec : List F) (x : Entry F) : Prop :=
  x.vec.length = query_vec.length ∧ 0 < dot8 query_vec x.vec

instance (query_vec : List F) (x : Entry F) : Decidable (x.Similar query_vec) :=
  inferInstanceAs (Decidable (_ ∧ _))

omit [LinearOrder F] in
theorem dot8_scale (a b : F) (q v : List F) :
    dot8 (q.map fun x => x * a) (v.map fun x => x * b) = dot8 q v * (a * b) := by
  induction q generalizing v with
  | nil => simp [dot8]
  | cons x q ih =>
      cases v with
      | nil => simp [dot8]
      | cons y v =>
          simp only [dot8, List.map_cons, List.zipWith_cons_cons, List.sum_cons] at ih ⊢
          rw [ih]
          ring

section Ordered

variable [IsStrictOrderedRing F]

theorem exists_normalize (sqrt : F → F) (v : List F) :
    ∃ c : F, 0 < c ∧ normalize sqrt v = v.map fun x => x * c := by
  unfold normalize
  dsimp only
  split
  · next hn => exact ⟨_, one_div_pos.mpr hn, rfl⟩
  · exact ⟨1, one_pos, by simp⟩

/-- Normalising keeps the sign of a similarity. -/
theorem dot8_normalize_pos (sqrt : F → F) (q v : List F) :
    0 < dot8 (normalize sqrt q) (normalize sqrt v) ↔ 0 < dot8 q v := by
  obtain ⟨a, ha, hq⟩ := exists_normalize sqrt q
  obtain ⟨b, hb, hv⟩ := exists_normalize sqrt v
  rw [hq, hv, dot8_scale]
  exact mul_pos_iff_of_pos_right (mul_pos ha hb)

end Ordered

/-! ## Visibility -/

omit [Field F] [LinearOrder F] in
/-- The record belongs to the scope or is shared. -/
def Entry.Owned (scope : String) (x : Entry F) : Prop :=
  x.meta_.owner = scope ∨ x.meta_.owner = ""

omit [Field F] [LinearOrder F] in
def Entry.Visible (scope : String) (at_ : Nat) (x : Entry F) : Prop :=
  x.Owned scope ∧ validAt x.meta_.valid_from x.meta_.valid_to at_ = true

instance (scope : String) (x : Entry F) : Decidable (x.Owned scope) :=
  inferInstanceAs (Decidable (_ ∨ _))

instance (scope : String) (at_ : Nat) (x : Entry F) : Decidable (x.Visible scope at_) :=
  inferInstanceAs (Decidable (_ ∧ _))

section Visible

variable {u : Unicode} {sqrt : F → F} {d : Nat} {m : LongTerm F} {b : Book F}

theorem IndexHolds.owner_iff {idx : RecIndex F} {xs : List (Entry F)}
    (h : IndexHolds sqrt d idx xs) {o o' : String} {i : Nat} (hi : idx.owner_ids o = some i) :
    some i = idx.owner_ids o' ↔ o = o' := by
  constructor
  · intro heq
    exact h.inj _ _ i hi heq.symm
  · rintro rfl
    exact hi.symm

/-- What recall may see is decided by the stored records. -/
theorem visible_iff (h : Represents u sqrt d m b) (scope : String) (at_ id : Nat) (sal : F) :
    visible m.idx scope at_ id = some sal ↔
      ∃ x ∈ b.entries, x.id = id ∧ x.Visible scope at_ ∧ x.meta_.salience = sal := by
  have hsees : ∀ {x : Entry F} {info : RecInfo F}, Describes m.idx.owner_ids x info →
      ((some info.owner = m.idx.owner_ids scope ∨ some info.owner = m.idx.owner_ids "") ∧
        info.valid_at at_ = true ↔ x.Visible scope at_) := by
    rintro x info ⟨howner, _, hfrom, hto⟩
    rw [h.idx.owner_iff howner, h.idx.owner_iff howner, RecInfo.valid_at, hfrom, hto]
    rfl
  unfold visible
  dsimp only
  constructor
  · intro hvis
    obtain ⟨info, hinfo, hif⟩ := Option.bind_eq_some_iff.mp hvis
    obtain ⟨x, hx, hxid, hdesc⟩ := (h.idx.recs id info).mp hinfo
    split at hif
    · next howned =>
        refine ⟨x, hx, hxid, (hsees hdesc).mp howned, ?_⟩
        rw [← Option.some.inj hif]
        exact hdesc.2.1.symm
    · cases hif
  · rintro ⟨x, hx, hxid, hvis, rfl⟩
    obtain ⟨info, hdesc⟩ := h.idx.described hx
    rw [(h.idx.recs id info).mpr ⟨x, hx, hxid, hdesc⟩, Option.bind_some,
      if_pos ((hsees hdesc).mpr hvis), hdesc.2.1]

theorem visible_isSome (h : Represents u sqrt d m b) (scope : String) (at_ id : Nat) :
    (visible m.idx scope at_ id).isSome ↔
      ∃ x ∈ b.entries, x.id = id ∧ x.Visible scope at_ := by
  rw [Option.isSome_iff_exists]
  constructor
  · rintro ⟨sal, hsal⟩
    obtain ⟨x, hx, hxid, hvis, _⟩ := (visible_iff h scope at_ id sal).mp hsal
    exact ⟨x, hx, hxid, hvis⟩
  · rintro ⟨x, hx, hxid, hvis⟩
    exact ⟨_, (visible_iff h scope at_ id _).mpr ⟨x, hx, hxid, hvis, rfl⟩⟩

end Visible

/-! ## Candidates -/

omit [Field F] [LinearOrder F] in
/-- Each step adds the ids it says. -/
theorem mem_foldl_fused {α : Type} {f : Fused F → α → Fused F} {P : α → Nat → Prop}
    (h : ∀ fused a j, j ∈ f fused a ↔ j ∈ fused ∨ P a j) (l : List α) (fused : Fused F)
    (j : Nat) :
    j ∈ l.foldl f fused ↔ j ∈ fused ∨ ∃ a ∈ l, P a j := by
  induction l generalizing fused with
  | nil => simp
  | cons a l ih =>
      rw [List.foldl_cons, ih, h]
      simp only [List.mem_cons, exists_eq_or_imp]
      exact or_assoc

omit [Field F] [LinearOrder F] in
theorem mem_insert_fused (fused : Fused F) (id j : Nat) (e : F × Kind) :
    j ∈ fused.insert id e ↔ j ∈ fused ∨ j = id := by
  rw [Std.ExtTreeMap.mem_insert, Std.LawfulEqCmp.compare_eq_iff_eq, or_comm, eq_comm]

theorem mem_admitted (see : Nat → Option F) (fused : Fused F) (id : Nat) (sim : F) (j : Nat) :
    j ∈ admitted see fused id sim ↔
      j ∈ fused ∨ (MIN_SEMANTIC_SIM < sim ∧ (see id).isSome ∧ j = id) := by
  unfold admitted
  by_cases hsim : MIN_SEMANTIC_SIM < sim
  · rw [if_neg (not_not.mpr hsim)]
    cases hsee : see id with
    | none => simp
    | some sal =>
        dsimp only
        rw [mem_insert_fused]
        simp [hsim]
  · rw [if_pos hsim]
    simp [hsim]

omit [LinearOrder F] in
theorem mem_addPosting (see : Nat → Option F) (c : F) (fused : Fused F) (kk : Key) (j : Nat) :
    j ∈ addPosting see c fused kk ↔
      j ∈ fused ∨ (8 ≤ kk.length ∧ (see j).isSome ∧ j = beNat (kk.drop (kk.length - 8))) := by
  unfold addPosting
  by_cases hlen : 8 ≤ kk.length
  · rw [if_pos hlen]
    dsimp only
    generalize beNat (kk.drop (kk.length - 8)) = id
    cases hsee : see id with
    | none =>
        constructor
        · exact Or.inl
        · rintro (h | ⟨_, hj, rfl⟩)
          · exact h
          · rw [hsee] at hj
            cases hj
    | some sal =>
        have hj : j = id → (see j).isSome = true := by
          rintro rfl
          rw [hsee]
          rfl
        dsimp only
        cases hfused : fused[id]? with
        | none =>
            rw [mem_insert_fused]
            tauto
        | some e =>
            rw [mem_insert_fused]
            tauto
  · rw [if_neg hlen]
    simp [hlen]

theorem mem_addToken (ln : F → F) (n : Nat) (kw : List Key) (see : Nat → Option F)
    (fused : Fused F) (tok : List Char) (j : Nat) :
    j ∈ addToken ln n kw see fused tok ↔
      j ∈ fused ∨ ∃ kk ∈ kw, kwPrefix tok <+: kk ∧ 8 ≤ kk.length ∧ (see j).isSome ∧
        j = beNat (kk.drop (kk.length - 8)) := by
  unfold addToken
  dsimp only
  obtain ⟨hits, hhits⟩ : ∃ l, l = kw.filter fun kk => (kwPrefix tok).isPrefixOf kk := ⟨_, rfl⟩
  have hmem : ∀ kk, kk ∈ hits ↔ kk ∈ kw ∧ kwPrefix tok <+: kk := by
    intro kk
    rw [hhits, List.mem_filter, List.isPrefixOf_iff_prefix]
  rw [← hhits]
  split
  · next hempty =>
      have hnil : hits = [] := List.length_eq_zero_iff.mp hempty
      constructor
      · exact Or.inl
      · rintro (h | ⟨kk, hkk, hpre, _⟩)
        · exact h
        · have := (hmem kk).mpr ⟨hkk, hpre⟩
          rw [hnil] at this
          cases this
  · rw [mem_foldl_fused (mem_addPosting see _)]
    simp only [hmem, and_assoc]

/-- The query and the record have a token in common. -/
def Entry.Shares (u : Unicode) (query : List Char) (x : Entry F) : Prop :=
  ∃ tok ∈ tokenize u query, tok ∈ tokenize u x.text

instance (u : Unicode) (query : List Char) (x : Entry F) : Decidable (x.Shares u query) :=
  inferInstanceAs (Decidable (∃ tok ∈ tokenize u query, _))

theorem beNat_kw_key (tok : List Char) {id : Nat} (hid : id < 2 ^ 64) :
    8 ≤ (kw_key tok id).length ∧
      beNat ((kw_key tok id).drop ((kw_key tok id).length - 8)) = id := by
  have hlen : (kw_key tok id).length = (kwPrefix tok).length + 8 := by
    rw [kw_key, List.length_append, beBytes_length]
  refine ⟨by omega, ?_⟩
  rw [hlen, Nat.add_sub_cancel, kw_key, List.drop_left, beNat_beBytes (by omega)]

/-- The postings lead to the visible records that share a token with the query. -/
theorem mem_keyword {p : Platform F} {d : Nat} {m : LongTerm F} {b : Book F}
    (h : Represents p.unicode p.sqrt d m b) (scope : String) (at_ : Nat) (query : List Char)
    (fused : Fused F) (j : Nat) :
    j ∈ keyword p m (visible m.idx scope at_) query fused ↔
      j ∈ fused ∨ ∃ x ∈ b.entries, x.id = j ∧ x.Visible scope at_ ∧
        x.Shares p.unicode query := by
  have hlt : ∀ x ∈ b.entries, x.id < 2 ^ 64 := fun x hx => (h.ids x hx).trans_le h.bound
  unfold keyword
  rw [mem_foldl_fused (mem_addToken p.ln m.ltm_count m.kw (visible m.idx scope at_))]
  refine or_congr_right ?_
  constructor
  · rintro ⟨tok, htok, kk, hkk, hpre, _, hsee, rfl⟩
    obtain ⟨x, hx, tok', htok', rfl⟩ := (h.kw kk).mp hkk
    have heq := (kwPrefix_kw_key (colon_not_mem_token htok) (colon_not_mem_token htok')
      x.id).mp hpre
    rw [(beNat_kw_key tok' (hlt x hx)).2] at hsee ⊢
    obtain ⟨y, hy, hyid, hvis⟩ := (visible_isSome h scope at_ x.id).mp hsee
    rw [List.inj_on_of_nodup_map h.nodup hy hx hyid] at hvis
    exact ⟨x, hx, rfl, hvis, tok', heq ▸ htok, htok'⟩
  · rintro ⟨x, hx, rfl, hvis, tok, htok, htok'⟩
    obtain ⟨hlen, hid⟩ := beNat_kw_key tok (hlt x hx)
    exact ⟨tok, htok, kw_key tok x.id, (h.kw _).mpr ⟨x, hx, tok, htok', rfl⟩,
      (kwPrefix_kw_key (colon_not_mem_token htok) (colon_not_mem_token htok') x.id).mpr rfl,
      hlen, (visible_isSome h scope at_ x.id).mpr ⟨x, hx, rfl, hvis⟩, hid.symm⟩

end Recall
end Recall
end StrikeDB
