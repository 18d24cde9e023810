import StrikeDB.MemoryRecall

/-!
# StrikeDB: scoped recall is isolated, and when it is not starved

What a scoped recall returns, over every sequence of operations on the long-term memory
and for every outcome of the approximate search.

**Results.**
* `mem_semantic_exact`, `mem_semantic_near`: the candidates of the two searches.
* `best_enough`: the heap of the exact scan keeps everything, or enough different records.
* `materialize_spec`: what is read back of the winners.
-/

namespace StrikeDB
namespace Recall

section Scan

variable {F : Type} [Field F] [LinearOrder F]

/-! ## The arenas of a scope -/

omit [Field F] [LinearOrder F] in
/-- The arena of an owner, empty when it has none. -/
def RecIndex.arena (idx : RecIndex F) (owner : String) : Arena F :=
  ((idx.owner_ids owner).bind idx.arenas).getD (Arena.empty F)

omit [Field F] [LinearOrder F] in
theorem scopeArenas_flatMap {β : Type} (idx : RecIndex F) (scope : String)
    {f : Arena F → List β} (hf : f (Arena.empty F) = []) :
    (scopeArenas idx scope).flatMap f = f (idx.arena scope) ++ f (idx.arena "") := by
  unfold scopeArenas RecIndex.arena
  rw [List.filterMap_filterMap]
  have hone : ∀ o : Option Nat,
      ((o.bind idx.arenas).map f).getD [] = f ((o.bind idx.arenas).getD (Arena.empty F)) := by
    intro o
    cases o.bind idx.arenas with
    | none => exact hf.symm
    | some a => rfl
  rw [← hone, ← hone]
  simp only [List.filterMap_cons, List.filterMap_nil, id_eq]
  cases (idx.owner_ids scope).bind idx.arenas with
  | none =>
      cases (idx.owner_ids "").bind idx.arenas with
      | none => rfl
      | some a => simp
  | some a =>
      cases (idx.owner_ids "").bind idx.arenas with
      | none => simp
      | some a' => simp

variable {sqrt : F → F} {d : Nat} {idx : RecIndex F} {xs : List (Entry F)}

theorem IndexHolds.arena (h : IndexHolds sqrt d idx xs) (owner : String) :
    (idx.arena owner).Holds sqrt d (xs.filter fun x => x.meta_.owner = owner) := by
  unfold RecIndex.arena
  cases ho : idx.owner_ids owner with
  | none =>
      have hnone : xs.filter (fun x => x.meta_.owner = owner) = [] := by
        rw [List.filter_eq_nil_iff]
        intro x hx heq
        have hknown := h.known x hx
        rw [of_decide_eq_true heq, ho] at hknown
        cases hknown
      rw [hnone]
      exact Arena.holds_empty
  | some i => exact h.arenas owner i ho

/-- An arena has a row for every record of its owner. -/
theorem Arena.Holds.length {a : Arena F} (h : a.Holds sqrt d xs)
    (hvec : ∀ x ∈ xs, x.vec ≠ []) :
    a.rows.length = xs.length := by
  rw [h.rows.length_eq, List.length_map, List.filter_eq_self.mpr]
  intro x hx
  exact decide_eq_true (hvec x hx)

/-! ## The exact scan -/

/-- The rows of an arena that the exact scan offers to its heap. -/
def candidates (see : Nat → Option F) (q : List F) (a : Arena F) : List (F × Nat) :=
  if a.dim ≠ q.length then []
  else (a.rows.map fun r => (dot8 q r.2, r.1)).filter fun c => 0 < c.1 ∧ (see c.2).isSome

theorem scanArena_eq (see : Nat → Option F) (q : List F) (fetch : Nat) (best : List (F × Nat))
    (a : Arena F) :
    scanArena see q fetch best a =
      (candidates see q a).foldl (BestOf.offerPop Prod.fst fetch) best := by
  unfold scanArena candidates
  split
  · rfl
  · rw [List.foldl_filter, List.foldl_map]
    refine congrArg (fun f => List.foldl f best a.rows) ?_
    funext best r
    dsimp only
    by_cases hcos : dot8 q r.2 ≤ 0
    · rw [if_pos (Or.inl hcos), if_neg]
      simp [hcos]
    · by_cases hsee : (see r.1).isSome = true
      · rw [if_pos (decide_eq_true ⟨not_le.mp hcos, hsee⟩), BestOf.offerPop]
        simp only [hcos, false_or, Option.isNone_iff_eq_none,
          Option.isSome_iff_ne_none.mp hsee, if_false]
      · have hnone : (see r.1).isNone = true := by simpa using hsee
        simp only [hsee, hnone, and_false, decide_false, Bool.false_eq_true, if_false, if_true,
          ite_self]

theorem foldl_scanArena (see : Nat → Option F) (q : List F) (fetch : Nat) (scope : String) :
    (scopeArenas idx scope).foldl (scanArena see q fetch) [] =
      (candidates see q (idx.arena scope) ++ candidates see q (idx.arena "")).foldl
        (BestOf.offerPop Prod.fst fetch) [] := by
  have hempty : candidates see q (Arena.empty F) = [] := by
    unfold candidates Arena.empty
    simp
  rw [← scopeArenas_flatMap idx scope hempty, List.foldl_flatMap]
  refine congrArg (fun f => List.foldl f [] (scopeArenas idx scope)) ?_
  funext best a
  exact scanArena_eq see q fetch best a

theorem candidates_nodup {a : Arena F} (h : a.Holds sqrt d xs) (hnodup : (xs.map Entry.id).Nodup)
    (see : Nat → Option F) (q : List F) :
    ((candidates see q a).map Prod.snd).Nodup := by
  unfold candidates
  split
  · exact List.nodup_nil
  · refine (h.nodup hnodup).sublist ?_
    have hmap : a.rows.map Prod.fst = (a.rows.map fun r => (dot8 q r.2, r.1)).map Prod.snd := by
      rw [List.map_map]
      rfl
    rw [hmap]
    exact List.filter_sublist.map _

/-- The candidates are the visible similar records. -/
theorem mem_candidates [IsStrictOrderedRing F] {a : Arena F} (h : a.Holds sqrt d xs)
    (hdims : ∀ x ∈ xs, x.vec.length = d) (see : Nat → Option F) (query_vec : List F)
    (j : Nat) :
    j ∈ (candidates see (normalize sqrt query_vec) a).map Prod.snd ↔
      (see j).isSome ∧ ∃ x ∈ xs, x.id = j ∧ x.Similar query_vec := by
  have hlen : (normalize sqrt query_vec).length = query_vec.length := by
    unfold normalize
    dsimp only
    split
    · exact List.length_map ..
    · rfl
  have hrow : ∀ {x}, x ∈ xs → x.vec ≠ [] → (x.id, normalize sqrt x.vec) ∈ a.rows := by
    intro x hx hvec
    exact h.rows.mem_iff.mpr (List.mem_map_of_mem
      (List.mem_filter.mpr ⟨hx, decide_eq_true hvec⟩))
  unfold candidates
  rw [hlen]
  constructor
  · intro hj
    obtain ⟨c, hc, rfl⟩ := List.mem_map.mp hj
    split at hc
    · cases hc
    · next hdim =>
        obtain ⟨hc, hgood⟩ := List.mem_filter.mp hc
        obtain ⟨hpos, hsee⟩ := of_decide_eq_true hgood
        obtain ⟨r, hr, rfl⟩ := List.mem_map.mp hc
        obtain ⟨x, hx, _, hxid, hvec⟩ := h.mem hr
        have hd := h.dim_rows (List.ne_nil_of_mem hr)
        refine ⟨hsee, x, hx, hxid, ?_, ?_⟩
        · rw [hdims x hx, ← hd]
          exact not_not.mp hdim
        · rw [hvec] at hpos
          exact (dot8_normalize_pos sqrt query_vec x.vec).mp hpos
  · rintro ⟨hsee, x, hx, rfl, hsame, hpos⟩
    have hvec : x.vec ≠ [] := by
      rintro hnil
      rw [hnil] at hpos
      simp [dot8] at hpos
    have hmem := hrow hx hvec
    have hd := h.dim_rows (List.ne_nil_of_mem hmem)
    rw [if_neg (not_not.mpr (by rw [hd, ← hdims x hx, hsame]))]
    refine List.mem_map.mpr ⟨(dot8 (normalize sqrt query_vec) (normalize sqrt x.vec), x.id),
      List.mem_filter.mpr ⟨List.mem_map_of_mem hmem, decide_eq_true ⟨?_, hsee⟩⟩, rfl⟩
    exact (dot8_normalize_pos sqrt query_vec x.vec).mpr hpos

omit [Field F] in
/-- A heap with room for three times as many keeps everything that comes, or enough
different ids. -/
theorem best_enough {s : List (F × Nat)} (hs : ∀ j, (s.map Prod.snd).count j ≤ 2) (k : Nat) :
    (∀ c ∈ s, c ∈ s.foldl (BestOf.offerPop Prod.fst (k * 3)) []) ∨
      k ≤ ((s.foldl (BestOf.offerPop Prod.fst (k * 3)) []).map Prod.snd).dedup.length := by
  obtain ⟨hsub, hlen⟩ := (BestOf.fills_offerPop Prod.fst (k * 3)).foldl s
  generalize s.foldl (BestOf.offerPop Prod.fst (k * 3)) [] = best at hsub hlen
  rcases Nat.lt_or_ge (k * 3) s.length with hfull | hroom
  · right
    have hcount : ∀ j, (best.map Prod.snd).count j ≤ 2 := by
      obtain ⟨l, hperm, hl⟩ := hsub
      intro j
      rw [← (hperm.map Prod.snd).count_eq j]
      exact ((hl.map Prod.snd).count_le j).trans (hs j)
    have htwice := BestOf.length_le_two_mul_dedup hcount
    rw [List.length_map] at htwice
    omega
  · left
    have hperm := hsub.perm_of_length_le (by omega)
    exact fun c hc => hperm.mem_iff.mpr hc

/-! ## Semantic candidates -/

section Semantic

variable [IsStrictOrderedRing F]

theorem sim_of_cos (cos : F) : MIN_SEMANTIC_SIM < (1 + cos) / (2 : ℕ) ↔ 0 < cos := by
  rw [MIN_SEMANTIC_SIM, half, div_lt_div_iff_of_pos_right (by norm_num), lt_add_iff_pos_right]

theorem sim_of_dist (dist : F) : MIN_SEMANTIC_SIM < 1 - dist / (2 : ℕ) ↔ dist < 1 := by
  rw [MIN_SEMANTIC_SIM, half, lt_sub_iff_add_lt, ← add_div, div_lt_one (by norm_num)]
  push_cast
  constructor
  · intro h
    linarith
  · intro h
    linarith

variable (p : Platform F) (search_ef : List F → Nat → Nat → List (Nat × F))
  (see : Nat → Option F) (scope : String) (query_vec : List F) (fetch : Nat)

/-- What the exact scan finds. -/
theorem mem_semantic_exact (hpos : 0 < scopedRows idx scope)
    (hmax : scopedRows idx scope ≤ p.exact_max) :
    ∃ fused, semantic p search_ef idx see scope query_vec fetch = some fused ∧
      ∀ j, j ∈ fused ↔ j ∈ ((candidates see (normalize p.sqrt query_vec) (idx.arena scope) ++
        candidates see (normalize p.sqrt query_vec) (idx.arena "")).foldl
          (BestOf.offerPop Prod.fst fetch) []).map Prod.snd := by
  unfold semantic
  dsimp only
  rw [if_pos ⟨hpos, hmax⟩]
  refine ⟨_, rfl, fun j => ?_⟩
  rw [mem_foldl_fused fun fused c j => mem_admitted see fused c.2 _ j, foldl_scanArena]
  simp only [sim_of_cos, List.mem_map, Std.ExtTreeMap.not_mem_empty, false_or]
  constructor
  · rintro ⟨c, hc, _, _, rfl⟩
    exact ⟨c, hc, rfl⟩
  · rintro ⟨c, hc, rfl⟩
    have hsub := ((BestOf.fills_offerPop Prod.fst fetch).foldl _).1.subset hc
    have hgood : ∀ a, c ∈ candidates see (normalize p.sqrt query_vec) a →
        0 < c.1 ∧ (see c.2).isSome := by
      intro a ha
      unfold candidates at ha
      split at ha
      · cases ha
      · exact of_decide_eq_true (List.mem_filter.mp ha).2
    refine ⟨c, hc, ?_⟩
    rcases List.mem_append.mp hsub with h | h
    · exact ⟨(hgood _ h).1, (hgood _ h).2, rfl⟩
    · exact ⟨(hgood _ h).1, (hgood _ h).2, rfl⟩

/-- What the approximate search finds, unless its bounds are crossed. -/
theorem mem_semantic_near (hpos : 0 < scopedRows idx scope)
    (hmax : p.exact_max < scopedRows idx scope) :
    (4096 < fetch ∧ semantic p search_ef idx see scope query_vec fetch = none) ∨
      (fetch ≤ 4096 ∧ ∃ want ef fused,
        semantic p search_ef idx see scope query_vec fetch = some fused ∧
          ∀ j, j ∈ fused ↔ (see j).isSome ∧
            ∃ r ∈ search_ef query_vec want ef, r.1 = j ∧ r.2 < 1) := by
  unfold semantic
  dsimp only
  have hexact : ¬ (0 < scopedRows idx scope ∧ scopedRows idx scope ≤ p.exact_max) := by
    rintro ⟨_, h⟩
    omega
  rw [if_neg hexact, if_pos hpos]
  rcases Nat.lt_or_ge 4096 fetch with hbig | hsmall
  · left
    refine ⟨hbig, ?_⟩
    simp [clamp, Nat.not_le.mpr hbig]
  · right
    refine ⟨hsmall, ?_⟩
    obtain ⟨widen, hwiden⟩ :
        ∃ w, clamp (max idx.recs.size 1 / scopedRows idx scope) 1 64 = some w :=
      ⟨_, if_pos (by decide)⟩
    obtain ⟨want, hwant⟩ : ∃ w, clamp (fetch * widen) fetch 4096 = some w :=
      ⟨_, if_pos hsmall⟩
    simp only [hwiden, hwant, Option.bind_eq_bind, Option.bind_some]
    refine ⟨want, max want 128, _, rfl, fun j => ?_⟩
    rw [mem_foldl_fused fun fused r j => mem_admitted see fused r.1 _ j]
    simp only [sim_of_dist, Std.ExtTreeMap.not_mem_empty, false_or]
    constructor
    · rintro ⟨r, hr, hdist, hsee, rfl⟩
      exact ⟨hsee, r, hr, rfl, hdist⟩
    · rintro ⟨hsee, r, hr, rfl, hdist⟩
      exact ⟨r, hr, hdist, hsee, rfl⟩

omit [IsStrictOrderedRing F] in
theorem semantic_nothing (hzero : scopedRows idx scope = 0) :
    semantic p search_ef idx see scope query_vec fetch = some ∅ := by
  unfold semantic
  dsimp only
  rw [if_neg (fun h => h.1.ne' hzero), if_neg (fun h => h.ne' hzero)]
  rfl

end Semantic

/-! ## The winners -/

omit [Field F] in
theorem winners_spec (p : Platform F) (fetch : Nat) (fused : Fused F) :
    ((winners p fetch fused).map Scored.id).Nodup ∧
      (winners p fetch fused).length = min fetch fused.size ∧
      ∀ w ∈ winners p fetch fused, w.id ∈ fused := by
  unfold winners
  dsimp only
  obtain ⟨scored, hscored⟩ : ∃ l, l = fused.toList.map fun e =>
    ({ score := e.2.1, id := e.1, kind := e.2.2 } : Scored F) := ⟨_, rfl⟩
  rw [← hscored]
  have hids : scored.map Scored.id = fused.keys := by
    rw [hscored, List.map_map, ← Std.ExtTreeMap.map_fst_toList_eq_keys]
    rfl
  obtain ⟨hsub, hlen⟩ :=
    (BestOf.fills_offerReplace Scored.score fetch).foldl (p.order scored)
  generalize (p.order scored).foldl (BestOf.offerReplace Scored.score fetch) [] = heap
    at hsub hlen
  have hperm := List.mergeSort_perm heap fun a b => decide (b.score ≤ a.score)
  have hsub := hsub.trans (p.perm scored).subperm
  have hsize : scored.length = fused.size := by
    rw [← List.length_map Scored.id, hids, Std.ExtTreeMap.length_keys]
  refine ⟨?_, ?_, ?_⟩
  · obtain ⟨l, hl, hsublist⟩ := hperm.subperm.trans hsub
    rw [← (hl.map Scored.id).nodup_iff]
    refine List.Nodup.sublist (hsublist.map Scored.id) ?_
    rw [hids]
    exact Std.ExtTreeMap.nodup_keys
  · rw [hperm.length_eq, hlen, (p.perm scored).length_eq, hsize]
  · intro w hw
    have hmem := List.mem_map_of_mem (f := Scored.id) (hsub.subset (hperm.mem_iff.mp hw))
    rw [hids, Std.ExtTreeMap.mem_keys] at hmem
    exact hmem

/-! ## Hits -/

variable {u : Unicode} {m : LongTerm F} {b : Book F}

/-- The hit is a visible record as it is stored. -/
def Book.Shows (b : Book F) (scope : String) (at_ : Nat) (hit : RecallHit F) : Prop :=
  ∃ x ∈ b.entries, x.id = hit.id ∧ x.text = hit.text ∧ x.meta_ = hit.meta_ ∧
    x.Visible scope at_

/-- Visible winners are read back, until there are `k` of them. -/
theorem materialize_spec (h : Represents u sqrt d m b) {scope : String} {at_ k : Nat}
    {top : List (Scored F)}
    (htop : ∀ w ∈ top, ∃ x ∈ b.entries, x.id = w.id ∧ x.Visible scope at_)
    {out : List (RecallHit F)} (hout : out.length ≤ k) :
    ∃ hits, materialize m scope k at_ top out = out ++ hits ∧
      hits.map RecallHit.id = (top.map Scored.id).take (k - out.length) ∧
      ∀ hit ∈ hits, b.Shows scope at_ hit := by
  induction top generalizing out with
  | nil => exact ⟨[], by simp [materialize], by simp, by simp⟩
  | cons w top ih =>
      rw [materialize]
      by_cases hfull : out.length = k
      · rw [if_pos hfull]
        exact ⟨[], by simp, by simp [hfull], by simp⟩
      · rw [if_neg hfull]
        obtain ⟨x, hx, hxid, howned, hvalid⟩ := htop w List.mem_cons_self
        rw [(h.get w.id (x.text, x.meta_)).mpr ⟨x, hx, hxid, rfl⟩]
        dsimp only
        have hscope : ¬ (x.meta_.owner ≠ "" ∧ x.meta_.owner ≠ scope) := by
          rintro ⟨hshared, hother⟩
          rcases howned with h | h
          · exact hother h
          · exact hshared h
        rw [if_neg hscope, if_neg (by rw [hvalid]; exact Bool.false_ne_true.symm)]
        obtain ⟨hit, hhit⟩ : ∃ hit : RecallHit F, hit =
          { id := w.id, text := x.text, score := w.score, kind := w.kind, meta_ := x.meta_ } :=
          ⟨_, rfl⟩
        rw [← hhit]
        have hroom : (out ++ [hit]).length ≤ k := by
          rw [List.length_append, List.length_singleton]
          omega
        obtain ⟨hits, heq, hids, hshows⟩ :=
          ih (fun w hw => htop w (List.mem_cons_of_mem _ hw)) hroom
        refine ⟨hit :: hits, by rw [heq, List.append_assoc]; rfl, ?_, ?_⟩
        · have hk : k - out.length = (k - (out ++ [hit]).length) + 1 := by
            rw [List.length_append, List.length_singleton] at hroom ⊢
            omega
          rw [hk, List.map_cons, List.map_cons, List.take_succ_cons, hids, hhit]
        · intro hit' hhit'
          rcases List.mem_cons.mp hhit' with rfl | hhit'
          · rw [hhit]
            exact ⟨x, hx, hxid, rfl, rfl, howned, hvalid⟩
          · exact hshows hit' hhit'

end Scan
end Recall
end StrikeDB
