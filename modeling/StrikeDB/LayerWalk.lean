import Mathlib.Data.List.Sort
import Mathlib.Data.UInt
import Mathlib.Logic.Relation

/-!
# StrikeDB: walking one layer of a vector graph

The best-first walk that every layer search of the vector index makes, over any graph
given by its adjacency `adj`, any distance `dist` and any set `wanted` of nodes that may
be returned.

* `VisitScratch`: the buffer of visited stamps that a thread reuses for all its
  searches. A new epoch makes every old stamp stale (`bump_epoch_fresh`).
* `Beam`: the two heaps of a walk and its stamps; `Beam.see` looks at one neighbour,
  `Beam.walk` expands the nearest candidate until the beam is good enough.
* `layer_mem`: what a walk returns was reached through edges from its entry.
* `layer_exact`: a walk with a beam as wide as the graph returns every admitted node
  that edges lead to, and each of them once.
* `layer_of_same`: the stamps left by earlier walks make no difference.
-/

namespace StrikeDB
namespace Vectors

/-! ## Visited stamps -/

/-- A thread's visited buffer: `visited[n]` is the epoch that last visited `n`, and no
stamp is from a later epoch than the current one. -/
structure VisitScratch where
  visited : List UInt32
  epoch : UInt32
  stamped : ∀ x ∈ visited, x ≤ epoch

theorem le_succ_of_ne_zero {x e : UInt32} (h : e + 1 ≠ 0) (hx : x ≤ e) :
    x < e + 1 := by
  have hne : (e + 1).toNat ≠ 0 := fun h' => h (UInt32.toNat_inj.mp h')
  have hlt := e.toNat_lt
  rw [UInt32.le_iff_toNat_le] at hx
  rw [UInt32.lt_iff_toNat_lt]
  rw [UInt32.toNat_add] at hne ⊢
  simp only [UInt32.reduceToNat] at hne ⊢
  omega

namespace VisitScratch

/-- The buffer a thread starts with. -/
def new : VisitScratch :=
  ⟨[], 0, by simp⟩

/-- Start a new epoch. After the last one the stamps are zeroed and the count starts
again at 1, since 0 means never visited. -/
def bump_epoch (s : VisitScratch) : VisitScratch :=
  if h : s.epoch + 1 = 0 then
    ⟨s.visited.map fun _ => 0, 1, by simp⟩
  else
    ⟨s.visited, s.epoch + 1, fun x hx =>
      UInt32.le_of_lt (le_succ_of_ne_zero h (s.stamped x hx))⟩

/-- Make room for `n` nodes, and start a new epoch. -/
def ensure_visited (n : Nat) (s : VisitScratch) : VisitScratch :=
  bump_epoch
    ⟨s.visited ++ List.replicate (n - s.visited.length) 0, s.epoch, by
      intro x hx
      rcases List.mem_append.mp hx with hx | hx
      · exact s.stamped x hx
      · rw [List.eq_of_mem_replicate hx]
        exact UInt32.zero_le⟩

/-- `visited[n] = epoch`. -/
def mark (n : Nat) (s : VisitScratch) : VisitScratch :=
  ⟨s.visited.set n s.epoch, s.epoch, by
    intro x hx
    rcases List.mem_or_eq_of_mem_set hx with hx | rfl
    · exact s.stamped x hx
    · exact UInt32.le_refl s.epoch⟩

/-- `n < visited.len() && visited[n] != epoch`. -/
def unseen (n : Nat) (s : VisitScratch) : Bool :=
  s.visited[n]?.any (· != s.epoch)

/-- Node `n` carries the stamp of the current epoch. -/
def Marked (s : VisitScratch) (n : Nat) : Prop :=
  s.visited[n]? = some s.epoch

/-- No node carries the stamp of the current epoch. -/
def Fresh (s : VisitScratch) : Prop :=
  ∀ n, ¬s.Marked n

@[simp]
theorem length_bump_epoch (s : VisitScratch) :
    s.bump_epoch.visited.length = s.visited.length := by
  unfold bump_epoch
  split <;> simp

theorem length_ensure_visited (n : Nat) (s : VisitScratch) :
    n ≤ (s.ensure_visited n).visited.length := by
  simp only [ensure_visited, length_bump_epoch, List.length_append, List.length_replicate]
  omega

@[simp]
theorem length_mark (n : Nat) (s : VisitScratch) :
    (s.mark n).visited.length = s.visited.length := by
  simp [mark]

/-- A new epoch invalidates every stamp already in the buffer. -/
theorem bump_epoch_fresh (s : VisitScratch) :
    s.bump_epoch.Fresh := by
  intro n hn
  have hmem := List.mem_of_getElem? hn
  unfold bump_epoch at hmem
  split at hmem
  case isTrue h =>
    obtain ⟨_, _, hz⟩ := List.mem_map.mp hmem
    exact absurd hz (show ¬(0 : UInt32) = 1 by decide)
  case isFalse h =>
    exact UInt32.lt_irrefl _ (le_succ_of_ne_zero h (s.stamped _ hmem))

theorem unseen_iff (n : Nat) (s : VisitScratch) :
    s.unseen n = true ↔ n < s.visited.length ∧ ¬s.Marked n := by
  unfold unseen Marked
  by_cases hn : n < s.visited.length
  · simp [hn]
  · simp [hn]

theorem marked_mark (n m : Nat) (s : VisitScratch) :
    (s.mark n).Marked m ↔ (n = m ∧ m < s.visited.length) ∨ s.Marked m := by
  unfold mark Marked
  simp only [List.getElem?_set]
  by_cases hnm : n = m
  · subst hnm
    by_cases hn : n < s.visited.length
    · simp [hn]
    · simp [hn]
  · simp [hnm]

end VisitScratch

/-! ## The two heaps -/

/-- An entry of either heap of a walk: a node and its distance from the query. -/
structure Cand (F : Type) where
  dist : F
  idx : Nat
deriving DecidableEq, Repr

variable {F : Type} [LinearOrder F]

/-- The order in which `BinaryHeap<Cand>` pops: the nearest first, of equals the one
with the larger index. -/
def Cand.Before (a b : Cand F) : Prop :=
  a.dist < b.dist ∨ a.dist = b.dist ∧ b.idx ≤ a.idx

instance : DecidableRel (Cand.Before (F := F)) :=
  fun a b => inferInstanceAs (Decidable (a.dist < b.dist ∨ a.dist = b.dist ∧ b.idx ≤ a.idx))

/-- The order in which `BinaryHeap<OrdCand>` pops: the farthest first, of equals the one
with the smaller index. -/
def OrdCand.Before (a b : Cand F) : Prop :=
  b.dist < a.dist ∨ a.dist = b.dist ∧ a.idx ≤ b.idx

instance : DecidableRel (OrdCand.Before (F := F)) :=
  fun a b => inferInstanceAs (Decidable (b.dist < a.dist ∨ a.dist = b.dist ∧ a.idx ≤ b.idx))

/-- `results.push(c)`, and `results.pop()` where that makes more than `ef`. -/
def keep (ef : Nat) (c : Cand F) (results : List (Cand F)) : List (Cand F) :=
  let pushed := results.orderedInsert OrdCand.Before c
  if ef < pushed.length then pushed.tail else pushed

/-- A walk in progress. Both heaps are listed in the order in which they pop. -/
structure Beam (F : Type) where
  candidates : List (Cand F)
  results : List (Cand F)
  scratch : VisitScratch

namespace Beam

/-- The start of a walk: the entry is visited, and is a result if it may be one. -/
def start (dist : Nat → F) (wanted : Nat → Bool) (entry : Nat) (s : VisitScratch) : Beam F where
  candidates := [⟨dist entry, entry⟩]
  results := if wanted entry then [⟨dist entry, entry⟩] else []
  scratch := s.mark entry

/-- Neighbour `n` of the expanded node. Every unvisited neighbour is a candidate, since
it may be the way to a nearer node; only those admitted, and nearer than the worst result
while the results are full, are results. -/
def see (dist : Nat → F) (wanted : Nat → Bool) (ef : Nat) (b : Beam F) (n : Nat) : Beam F :=
  if b.scratch.unseen n then
    let c : Cand F := ⟨dist n, n⟩
    { candidates := b.candidates.orderedInsert Cand.Before c
      results :=
        if wanted n && (b.results.head?.all (c.dist < ·.dist) || b.results.length < ef) then
          keep ef c b.results
        else
          b.results
      scratch := b.scratch.mark n }
  else
    b

/-- The greedy stop: the nearest candidate is farther than the worst of `ef` results. -/
def broke (ef : Nat) (b : Beam F) (c : Cand F) : Bool :=
  b.results.head?.any (·.dist < c.dist) && ef ≤ b.results.length

/-- Expand candidates, nearest first, for at most `fuel` of them. -/
def walk (adj : Nat → List Nat) (dist : Nat → F) (wanted : Nat → Bool) (ef : Nat) :
    Nat → Beam F → Beam F
  | 0, b => b
  | fuel + 1, b =>
    match b.candidates with
    | [] => b
    | c :: rest =>
      if b.broke ef c then
        b
      else
        walk adj dist wanted ef fuel
          ((adj c.idx).foldl (see dist wanted ef) { b with candidates := rest })

end Beam

/-- One layer search over a graph of `n` nodes. Each of them is a candidate at most once
(`layer_done`), so that `n + 1` expansions are enough. -/
def layer (n : Nat) (adj : Nat → List Nat) (dist : Nat → F) (wanted : Nat → Bool)
    (entry ef : Nat) (s : VisitScratch) : Beam F :=
  Beam.walk adj dist wanted ef (n + 1) (Beam.start dist wanted entry s)

/-! ## What a walk returns -/

/-- Node `i` is reached from `entry` through edges. -/
def Reach (adj : Nat → List Nat) : Nat → Nat → Prop :=
  Relation.ReflTransGen fun i j => j ∈ adj i

theorem mem_keep_iff {ef : Nat} {c d : Cand F} {results : List (Cand F)}
    (h : results.length < ef) :
    d ∈ keep ef c results ↔ d = c ∨ d ∈ results := by
  unfold keep
  dsimp only
  rw [List.orderedInsert_length, if_neg (by omega)]
  exact List.mem_orderedInsert _

theorem keep_sublist (ef : Nat) (c : Cand F) (results : List (Cand F)) :
    (keep ef c results).Sublist (results.orderedInsert OrdCand.Before c) := by
  unfold keep
  dsimp only
  split
  · exact List.tail_sublist _
  · exact List.Sublist.refl _

theorem mem_of_mem_keep {ef : Nat} {c d : Cand F} {results : List (Cand F)}
    (h : d ∈ keep ef c results) :
    d = c ∨ d ∈ results :=
  (List.mem_orderedInsert _).mp ((keep_sublist ef c results).subset h)

theorem nodup_keep {ef : Nat} {c : Cand F} {results : List (Cand F)}
    (hnew : c.idx ∉ results.map Cand.idx) (h : (results.map Cand.idx).Nodup) :
    ((keep ef c results).map Cand.idx).Nodup := by
  have hperm := (List.perm_orderedInsert OrdCand.Before c results).map Cand.idx
  refine List.Nodup.sublist ((keep_sublist ef c results).map Cand.idx) ?_
  rw [hperm.nodup_iff, List.map_cons]
  exact List.nodup_cons.mpr ⟨hnew, h⟩

namespace Beam

variable {n : Nat} {adj : Nat → List Nat} {dist : Nat → F} {wanted : Nat → Bool}
  {entry ef : Nat}

theorem see_of_unseen (dist : Nat → F) (wanted : Nat → Bool) (ef : Nat) {b : Beam F} {i : Nat}
    (h : b.scratch.unseen i = true) :
    (b.see dist wanted ef i).candidates = b.candidates.orderedInsert Cand.Before ⟨dist i, i⟩ ∧
      (b.see dist wanted ef i).scratch = b.scratch.mark i := by
  simp [see, h]

theorem see_of_seen {b : Beam F} {i : Nat} (h : b.scratch.unseen i = false) :
    b.see dist wanted ef i = b := by
  simp [see, h]

/-- A neighbour that becomes a result is an admitted one. -/
theorem see_results (dist : Nat → F) (wanted : Nat → Bool) (ef : Nat) {b : Beam F} {i : Nat}
    (h : b.scratch.unseen i = true) :
    (b.see dist wanted ef i).results = b.results ∨
      wanted i = true ∧
        (b.see dist wanted ef i).results = keep ef ⟨dist i, i⟩ b.results := by
  simp only [see, h, if_true]
  split
  case isTrue hc =>
    exact .inr ⟨(Bool.and_eq_true_iff.mp hc).1, rfl⟩
  case isFalse => exact .inl rfl

/-- A walk from `entry` keeps to what edges lead to, and returns admitted nodes only,
each once and with its distance. -/
structure Sound (adj : Nat → List Nat) (dist : Nat → F) (wanted : Nat → Bool) (entry : Nat)
    (b : Beam F) : Prop where
  front : ∀ c ∈ b.candidates, Reach adj entry c.idx
  kept : ∀ c ∈ b.results, Reach adj entry c.idx ∧ b.scratch.Marked c.idx ∧
    wanted c.idx = true ∧ c.dist = dist c.idx
  distinct : (b.results.map Cand.idx).Nodup

omit [LinearOrder F] in
theorem Sound.init {s : VisitScratch} (h : entry < s.visited.length) :
    Sound adj dist wanted entry (start dist wanted entry s) := by
  refine ⟨?_, ?_, ?_⟩
  · intro c hc
    rw [List.mem_singleton.mp hc]
    exact Relation.ReflTransGen.refl
  · intro c hc
    simp only [start] at hc ⊢
    split at hc
    · rw [List.mem_singleton.mp hc]
      exact ⟨Relation.ReflTransGen.refl,
        (VisitScratch.marked_mark entry entry s).mpr (.inl ⟨rfl, h⟩), ‹_›, rfl⟩
    · exact absurd hc List.not_mem_nil
  · simp only [start]
    split <;> simp

theorem Sound.see {b : Beam F} (h : Sound adj dist wanted entry b) {i : Nat}
    (hi : Reach adj entry i) :
    Sound adj dist wanted entry (b.see dist wanted ef i) := by
  cases hu : b.scratch.unseen i with
  | false => rwa [see_of_seen hu]
  | true =>
    obtain ⟨hcand, hscratch⟩ := see_of_unseen dist wanted ef hu
    obtain ⟨hlen, hnot⟩ := (VisitScratch.unseen_iff i b.scratch).mp hu
    have hmono : ∀ j, b.scratch.Marked j → (b.scratch.mark i).Marked j := fun j hj =>
      (VisitScratch.marked_mark i j b.scratch).mpr (.inr hj)
    have hnew : i ∉ b.results.map Cand.idx := by
      intro hmem
      obtain ⟨c, hc, rfl⟩ := List.mem_map.mp hmem
      exact hnot (h.kept c hc).2.1
    have hold : ∀ c ∈ b.results, Reach adj entry c.idx ∧
        (b.see dist wanted ef i).scratch.Marked c.idx ∧
        wanted c.idx = true ∧ c.dist = dist c.idx := by
      intro c hc
      obtain ⟨hr, hm, ha, hd⟩ := h.kept c hc
      exact ⟨hr, by rw [hscratch]; exact hmono _ hm, ha, hd⟩
    refine ⟨?_, ?_, ?_⟩
    · intro c hc
      rw [hcand] at hc
      rcases (List.mem_orderedInsert _).mp hc with rfl | hc
      · exact hi
      · exact h.front c hc
    · rcases see_results dist wanted ef hu with hres | ⟨ha, hres⟩
      · rw [hres]
        exact hold
      · rw [hres]
        intro c hc
        rcases mem_of_mem_keep hc with rfl | hc
        · refine ⟨hi, ?_, ha, rfl⟩
          rw [hscratch]
          exact (VisitScratch.marked_mark i i b.scratch).mpr (.inl ⟨rfl, hlen⟩)
        · exact hold c hc
    · rcases see_results dist wanted ef hu with hres | ⟨-, hres⟩
      · rw [hres]
        exact h.distinct
      · rw [hres]
        exact nodup_keep hnew h.distinct

theorem Sound.expand {b : Beam F} (h : Sound adj dist wanted entry b) {l : List Nat}
    (hl : ∀ i ∈ l, Reach adj entry i) :
    Sound adj dist wanted entry (l.foldl (Beam.see dist wanted ef) b) := by
  induction l generalizing b with
  | nil => exact h
  | cons i l ih =>
    exact ih (h.see (hl i List.mem_cons_self)) fun j hj => hl j (List.mem_cons_of_mem i hj)

omit [LinearOrder F] in
theorem Sound.pop {b : Beam F} (h : Sound adj dist wanted entry b) {c : Cand F}
    {rest : List (Cand F)} (hc : b.candidates = c :: rest) :
    Reach adj entry c.idx ∧ Sound adj dist wanted entry { b with candidates := rest } := by
  refine ⟨h.front c (by rw [hc]; exact List.mem_cons_self), ?_, h.kept, h.distinct⟩
  intro d hd
  exact h.front d (by rw [hc]; exact List.mem_cons_of_mem c hd)

theorem Sound.walk {b : Beam F} (h : Sound adj dist wanted entry b) (fuel : Nat) :
    Sound adj dist wanted entry (b.walk adj dist wanted ef fuel) := by
  induction fuel generalizing b with
  | zero => exact h
  | succ fuel ih =>
    unfold Beam.walk
    split
    · exact h
    case h_2 c rest hc =>
      split
      · exact h
      · obtain ⟨hreach, hpop⟩ := h.pop hc
        exact ih (hpop.expand fun j hj => hreach.tail hj)

end Beam

/-- What a layer search returns was reached from its entry, is admitted, and is returned
once. -/
theorem layer_mem
    {n : Nat} {adj : Nat → List Nat} {dist : Nat → F} {wanted : Nat → Bool} {entry ef : Nat}
    {s : VisitScratch} (h : entry < s.visited.length) :
    Beam.Sound adj dist wanted entry (layer n adj dist wanted entry ef s) :=
  (Beam.Sound.init h).walk (n + 1)

/-! ## How long a walk is -/

/-- The nodes below `n` that the epoch has not visited. -/
def VisitScratch.blank (n : Nat) (s : VisitScratch) : Finset Nat :=
  (Finset.range n).filter fun i => s.unseen i = true

theorem VisitScratch.blank_mark {n i : Nat} {s : VisitScratch} (h : s.unseen i = true) :
    (s.mark i).blank n = (s.blank n).erase i := by
  obtain ⟨hlen, -⟩ := (unseen_iff i s).mp h
  ext j
  simp only [blank, Finset.mem_filter, Finset.mem_erase, unseen_iff, marked_mark, length_mark]
  constructor
  · rintro ⟨hj, hjl, hm⟩
    exact ⟨fun hji => hm (.inl ⟨hji.symm, hjl⟩), hj, hjl, fun h => hm (.inr h)⟩
  · rintro ⟨hne, hj, hjl, hm⟩
    refine ⟨hj, hjl, ?_⟩
    rintro (⟨rfl, -⟩ | h)
    · exact hne rfl
    · exact hm h

namespace Beam

variable {n : Nat} {adj : Nat → List Nat} {dist : Nat → F} {wanted : Nat → Bool}
  {entry ef : Nat}

/-- The candidates of a walk, now and to come. -/
def load (n : Nat) (b : Beam F) : Nat :=
  b.candidates.length + (b.scratch.blank n).card

theorem load_see {b : Beam F} {i : Nat} (hi : i < n) :
    (b.see dist wanted ef i).load n = b.load n := by
  cases hu : b.scratch.unseen i with
  | false => rw [see_of_seen hu]
  | true =>
    obtain ⟨hcand, hscratch⟩ := see_of_unseen dist wanted ef hu
    have hmem : i ∈ b.scratch.blank n := by
      simp [VisitScratch.blank, hi, hu]
    have hpos := Finset.card_pos.mpr ⟨i, hmem⟩
    rw [load, load, hcand, hscratch, VisitScratch.blank_mark hu, List.orderedInsert_length,
      Finset.card_erase_of_mem hmem]
    omega

theorem load_expand {b : Beam F} {l : List Nat} (hl : ∀ i ∈ l, i < n) :
    (l.foldl (see dist wanted ef) b).load n = b.load n := by
  induction l generalizing b with
  | nil => rfl
  | cons i l ih =>
    rw [List.foldl_cons, ih fun j hj => hl j (List.mem_cons_of_mem i hj),
      load_see (hl i List.mem_cons_self)]

/-- The walk has ended: no candidate is left, or the greedy stop was taken. -/
def Done (ef : Nat) (b : Beam F) : Prop :=
  ∀ c rest, b.candidates = c :: rest → b.broke ef c = true

theorem walk_done (hadj : ∀ i, ∀ j ∈ adj i, j < n) {b : Beam F} {fuel : Nat}
    (h : b.load n ≤ fuel) :
    Done ef (b.walk adj dist wanted ef fuel) := by
  induction fuel generalizing b with
  | zero =>
    intro c rest hc
    simp only [walk] at hc
    rw [load, hc, List.length_cons] at h
    omega
  | succ fuel ih =>
    unfold walk
    split
    case h_1 hnil =>
      intro c rest hc
      rw [hnil] at hc
      exact absurd hc (by simp)
    case h_2 c rest hc =>
      split
      case isTrue hb =>
        intro d rest' hd
        rw [hc] at hd
        obtain ⟨rfl, -⟩ := List.cons.inj hd
        exact hb
      case isFalse =>
        refine ih ?_
        rw [load_expand (hadj c.idx)]
        rw [load, hc, List.length_cons] at h
        rw [load]
        dsimp only
        omega

end Beam

theorem layer_done
    {n : Nat} {adj : Nat → List Nat} {dist : Nat → F} {wanted : Nat → Bool} {entry ef : Nat}
    (hadj : ∀ i, ∀ j ∈ adj i, j < n) (s : VisitScratch) :
    Beam.Done ef (layer n adj dist wanted entry ef s) := by
  refine Beam.walk_done hadj ?_
  have hcard : ((s.mark entry).blank n).card ≤ n :=
    (Finset.card_filter_le _ _).trans (Finset.card_range n).le
  have hload : (Beam.start dist wanted entry s).load n = 1 + ((s.mark entry).blank n).card := rfl
  omega

/-! ## A beam as wide as the graph -/

namespace Beam

variable {n : Nat} {adj : Nat → List Nat} {dist : Nat → F} {wanted : Nat → Bool}
  {entry ef : Nat}

/-- A walk that started on fresh stamps and drops no result: what it has visited is what
edges lead to, every visited node is still a candidate or has all its neighbours visited
(those in `P` excepted), and every admitted visited node is a result. -/
structure Full (adj : Nat → List Nat) (wanted : Nat → Bool) (entry : Nat) (P : Nat → Prop)
    (b : Beam F) : Prop where
  entered : b.scratch.Marked entry
  reached : ∀ i, b.scratch.Marked i → Reach adj entry i
  closed : ∀ i, b.scratch.Marked i →
    P i ∨ i ∈ b.candidates.map Cand.idx ∨ ∀ j ∈ adj i, b.scratch.Marked j
  all : ∀ i, b.scratch.Marked i → wanted i = true → i ∈ b.results.map Cand.idx

omit [LinearOrder F] in
theorem Full.init {s : VisitScratch} (hs : s.Fresh) (h : entry < s.visited.length) :
    Full adj wanted entry (fun _ => False) (start dist wanted entry s) := by
  have honly : ∀ i, (s.mark entry).Marked i → i = entry := by
    intro i hi
    rcases (VisitScratch.marked_mark entry i s).mp hi with ⟨h, -⟩ | h
    · exact h.symm
    · exact absurd h (hs i)
  refine ⟨(VisitScratch.marked_mark entry entry s).mpr (.inl ⟨rfl, h⟩), ?_, ?_, ?_⟩
  · intro i hi
    rw [honly i hi]
    exact Relation.ReflTransGen.refl
  · intro i hi
    rw [honly i hi]
    exact .inr (.inl (by simp [start]))
  · intro i hi ha
    rw [honly i hi] at ha ⊢
    simp [start, ha]

omit [LinearOrder F] in
/-- Nodes below `n` that are results, and one that is not, are at most `n`. -/
theorem Sound.room
    {b : Beam F} (h : Sound adj dist wanted entry b)
    (hrange : ∀ i, Reach adj entry i → i < n) {i : Nat} (hi : i < n)
    (hnew : ¬b.scratch.Marked i) :
    b.results.length < n := by
  have hnot : i ∉ b.results.map Cand.idx := by
    intro hmem
    obtain ⟨c, hc, rfl⟩ := List.mem_map.mp hmem
    exact hnew (h.kept c hc).2.1
  have hsub : (i :: b.results.map Cand.idx) ⊆ List.range n := by
    intro j hj
    rcases List.mem_cons.mp hj with rfl | hj
    · exact List.mem_range.mpr hi
    · obtain ⟨c, hc, rfl⟩ := List.mem_map.mp hj
      exact List.mem_range.mpr (hrange _ (h.kept c hc).1)
  have hle := ((List.nodup_cons.mpr ⟨hnot, h.distinct⟩).subperm hsub).length_le
  simpa [Nat.succ_le_iff] using hle

theorem Full.see {P : Nat → Prop} {b : Beam F} (h : Full adj wanted entry P b)
    (hsound : Sound adj dist wanted entry b) (hrange : ∀ i, Reach adj entry i → i < n)
    (hef : n ≤ ef) {i : Nat} (hi : Reach adj entry i) :
    Full adj wanted entry P (b.see dist wanted ef i) := by
  cases hu : b.scratch.unseen i with
  | false => rwa [see_of_seen hu]
  | true =>
    obtain ⟨hcand, hscratch⟩ := see_of_unseen dist wanted ef hu
    obtain ⟨-, hnot⟩ := (VisitScratch.unseen_iff i b.scratch).mp hu
    have hroom : b.results.length < ef :=
      (hsound.room hrange (hrange i hi) hnot).trans_le hef
    have hmarked : ∀ j, (b.see dist wanted ef i).scratch.Marked j → j = i ∨ b.scratch.Marked j := by
      intro j hj
      rw [hscratch] at hj
      exact ((VisitScratch.marked_mark i j b.scratch).mp hj).imp_left fun h => h.1.symm
    have hmono : ∀ j, b.scratch.Marked j → (b.see dist wanted ef i).scratch.Marked j := by
      intro j hj
      rw [hscratch]
      exact (VisitScratch.marked_mark i j b.scratch).mpr (.inr hj)
    have hfront : ∀ j, j = i ∨ j ∈ b.candidates.map Cand.idx →
        j ∈ (b.see dist wanted ef i).candidates.map Cand.idx := by
      intro j hj
      rw [hcand]
      refine ((List.perm_orderedInsert Cand.Before _ _).map Cand.idx).mem_iff.mpr ?_
      rw [List.map_cons]
      exact List.mem_cons.mpr hj
    have hres : (b.see dist wanted ef i).results =
        if wanted i = true then keep ef ⟨dist i, i⟩ b.results else b.results := by
      simp [Beam.see, hu, hroom]
    refine ⟨hmono _ h.entered, ?_, ?_, ?_⟩
    · intro j hj
      rcases hmarked j hj with rfl | hj
      · exact hi
      · exact h.reached j hj
    · intro j hj
      rcases hmarked j hj with rfl | hj
      · exact .inr (.inl (hfront j (.inl rfl)))
      · rcases h.closed j hj with hP | hc | hc
        · exact .inl hP
        · exact .inr (.inl (hfront j (.inr hc)))
        · exact .inr (.inr fun m hm => hmono m (hc m hm))
    · intro j hj ha
      rw [hres]
      rcases hmarked j hj with rfl | hj
      · rw [if_pos ha]
        exact List.mem_map.mpr ⟨_, (mem_keep_iff hroom).mpr (.inl rfl), rfl⟩
      · obtain ⟨c, hc, rfl⟩ := List.mem_map.mp (h.all j hj ha)
        refine List.mem_map.mpr ⟨c, ?_, rfl⟩
        split
        · exact (mem_keep_iff hroom).mpr (.inr hc)
        · exact hc

theorem marked_expand {b : Beam F} {l : List Nat} {i : Nat}
    (h : b.scratch.Marked i ∨ i ∈ l ∧ i < b.scratch.visited.length) :
    (l.foldl (Beam.see dist wanted ef) b).scratch.Marked i := by
  induction l generalizing b with
  | nil =>
    rcases h with h | ⟨h, -⟩
    · exact h
    · exact absurd h List.not_mem_nil
  | cons j l ih =>
    refine ih ?_
    cases hu : b.scratch.unseen j with
    | false =>
      rw [see_of_seen hu]
      rcases h with h | ⟨h, hlen⟩
      · exact .inl h
      · rcases List.mem_cons.mp h with rfl | h
        · refine .inl ?_
          by_contra hm
          rw [(VisitScratch.unseen_iff i b.scratch).mpr ⟨hlen, hm⟩] at hu
          exact Bool.noConfusion hu
        · exact .inr ⟨h, hlen⟩
    | true =>
      obtain ⟨-, hscratch⟩ := see_of_unseen dist wanted ef hu
      rw [hscratch, VisitScratch.length_mark, VisitScratch.marked_mark]
      rcases h with h | ⟨h, hlen⟩
      · exact .inl (.inr h)
      · rcases List.mem_cons.mp h with rfl | h
        · exact .inl (.inl ⟨rfl, hlen⟩)
        · exact .inr ⟨h, hlen⟩

theorem length_expand (b : Beam F) (l : List Nat) :
    (l.foldl (Beam.see dist wanted ef) b).scratch.visited.length = b.scratch.visited.length := by
  induction l generalizing b with
  | nil => rfl
  | cons i l ih =>
    rw [List.foldl_cons, ih]
    cases hu : b.scratch.unseen i with
    | false => rw [see_of_seen hu]
    | true =>
      rw [(see_of_unseen dist wanted ef hu).2,
        VisitScratch.length_mark]

theorem Full.expand {P : Nat → Prop} {b : Beam F} (h : Full adj wanted entry P b)
    (hsound : Sound adj dist wanted entry b) (hrange : ∀ i, Reach adj entry i → i < n)
    (hef : n ≤ ef) {l : List Nat} (hl : ∀ i ∈ l, Reach adj entry i) :
    Full adj wanted entry P (l.foldl (Beam.see dist wanted ef) b) := by
  induction l generalizing b with
  | nil => exact h
  | cons i l ih =>
    have hi := hl i List.mem_cons_self
    exact ih (h.see hsound hrange hef hi) (hsound.see hi)
      fun j hj => hl j (List.mem_cons_of_mem i hj)

/-- Once all neighbours of the popped node are visited, it needs no exception. -/
theorem Full.step {b : Beam F} (h : Full adj wanted entry (fun _ => False) b)
    (hsound : Sound adj dist wanted entry b) (hrange : ∀ i, Reach adj entry i → i < n)
    (hsize : n ≤ b.scratch.visited.length) (hef : n ≤ ef) {c : Cand F}
    {rest : List (Cand F)} (hc : b.candidates = c :: rest) :
    Full adj wanted entry (fun _ => False)
      ((adj c.idx).foldl (Beam.see dist wanted ef) { b with candidates := rest }) := by
  obtain ⟨hreach, hpop⟩ := hsound.pop hc
  have hneigh : ∀ j ∈ adj c.idx, Reach adj entry j := fun j hj => hreach.tail hj
  have hopen : Full adj wanted entry (· = c.idx) { b with candidates := rest } := by
    refine ⟨h.entered, h.reached, ?_, h.all⟩
    intro i hi
    rcases h.closed i hi with hF | hmem | hcl
    · exact hF.elim
    · rw [hc, List.map_cons] at hmem
      rcases List.mem_cons.mp hmem with hic | hmem
      · exact .inl hic
      · exact .inr (.inl hmem)
    · exact .inr (.inr hcl)
  have hdone := hopen.expand hpop hrange hef hneigh
  refine ⟨hdone.entered, hdone.reached, ?_, hdone.all⟩
  intro i hi
  rcases hdone.closed i hi with rfl | hmem | hcl
  · refine .inr (.inr fun j hj => marked_expand (.inr ⟨hj, ?_⟩))
    exact (hrange j (hneigh j hj)).trans_le hsize
  · exact .inr (.inl hmem)
  · exact .inr (.inr hcl)

theorem Full.walk {b : Beam F} (h : Full adj wanted entry (fun _ => False) b)
    (hsound : Sound adj dist wanted entry b) (hrange : ∀ i, Reach adj entry i → i < n)
    (hsize : n ≤ b.scratch.visited.length) (hef : n ≤ ef) (fuel : Nat) :
    Full adj wanted entry (fun _ => False) (b.walk adj dist wanted ef fuel) := by
  induction fuel generalizing b with
  | zero => exact h
  | succ fuel ih =>
    unfold Beam.walk
    split
    · exact h
    case h_2 c rest hc =>
      split
      · exact h
      · obtain ⟨hreach, hpop⟩ := hsound.pop hc
        refine ih (h.step hsound hrange hsize hef hc)
          (hpop.expand fun j hj => hreach.tail hj) ?_
        rw [length_expand]
        exact hsize

omit [LinearOrder F] in
/-- When as many nodes as there are have become results, all are. -/
theorem Sound.all_marked
    {b : Beam F} (h : Sound adj dist wanted entry b)
    (hrange : ∀ i, Reach adj entry i → i < n) (hfull : n ≤ b.results.length) {i : Nat}
    (hi : i < n) :
    b.scratch.Marked i := by
  by_contra hm
  have := h.room hrange hi hm
  omega

end Beam

/-- **A layer search whose beam is as wide as the graph.** It returns exactly the admitted
nodes that edges lead to from its entry. -/
theorem layer_exact
    {n : Nat} {adj : Nat → List Nat} {dist : Nat → F} {wanted : Nat → Bool} {entry ef : Nat}
    {s : VisitScratch} (hadj : ∀ i, ∀ j ∈ adj i, j < n) (hentry : entry < n)
    (hsize : n ≤ s.visited.length) (hs : s.Fresh) (hef : n ≤ ef) (i : Nat) :
    i ∈ (layer n adj dist wanted entry ef s).results.map Cand.idx ↔
      Reach adj entry i ∧ wanted i = true := by
  have hrange : ∀ i, Reach adj entry i → i < n := by
    intro i hi
    rcases Relation.ReflTransGen.cases_tail hi with rfl | ⟨j, -, hj⟩
    · exact hentry
    · exact hadj j i hj
  have hlen : entry < s.visited.length := hentry.trans_le hsize
  have hsound : Beam.Sound adj dist wanted entry (layer n adj dist wanted entry ef s) :=
    layer_mem hlen
  have hfull : Beam.Full adj wanted entry (fun _ => False)
      (layer n adj dist wanted entry ef s) := by
    refine (Beam.Full.init hs hlen).walk (Beam.Sound.init hlen) hrange ?_ hef (n + 1)
    rw [Beam.start, VisitScratch.length_mark]
    exact hsize
  have hall : ∀ i, Reach adj entry i → (layer n adj dist wanted entry ef s).scratch.Marked i := by
    intro i hi
    induction hi with
    | refl => exact hfull.entered
    | @tail j i hj hji ih =>
      cases hc : (layer n adj dist wanted entry ef s).candidates with
      | nil =>
        rcases hfull.closed j ih with hF | hmem | hcl
        · exact hF.elim
        · rw [hc] at hmem
          exact absurd hmem List.not_mem_nil
        · exact hcl i hji
      | cons c rest =>
        -- the greedy stop, with as many results as nodes
        have hb : (layer n adj dist wanted entry ef s).broke ef c = true :=
          layer_done hadj s c rest hc
        obtain ⟨-, hres⟩ := Bool.and_eq_true_iff.mp hb
        exact hsound.all_marked hrange (hef.trans (of_decide_eq_true hres)) (hadj j i hji)
  constructor
  · intro hi
    obtain ⟨c, hc, rfl⟩ := List.mem_map.mp hi
    exact ⟨(hsound.kept c hc).1, (hsound.kept c hc).2.2.1⟩
  · rintro ⟨hi, ha⟩
    exact hfull.all i (hall i hi) ha

/-! ## What earlier walks left behind -/

namespace Beam

variable {n : Nat} {adj : Nat → List Nat} {dist : Nat → F} {wanted : Nat → Bool}
  {entry ef : Nat}

/-- Two walks over the same graph that differ in stale stamps only. -/
structure Same (n : Nat) (b b' : Beam F) : Prop where
  candidates : b'.candidates = b.candidates
  results : b'.results = b.results
  marks : ∀ i < n, b'.scratch.unseen i = b.scratch.unseen i

theorem unseen_mark {s s' : VisitScratch} {i j : Nat} (hi : s.unseen i = true)
    (hi' : s'.unseen i = true) (hj : s'.unseen j = s.unseen j) :
    (s'.mark i).unseen j = (s.mark i).unseen j := by
  rw [Bool.eq_iff_iff] at hj ⊢
  obtain ⟨hlen, -⟩ := (VisitScratch.unseen_iff i s).mp hi
  obtain ⟨hlen', -⟩ := (VisitScratch.unseen_iff i s').mp hi'
  simp only [VisitScratch.unseen_iff, VisitScratch.marked_mark, VisitScratch.length_mark]
    at hj ⊢
  by_cases hij : i = j
  · subst hij
    simp [hlen, hlen']
  · simpa [hij] using hj

theorem Same.see {b b' : Beam F} (h : Same n b b') {i : Nat} (hi : i < n) :
    Same n (b.see dist wanted ef i) (b'.see dist wanted ef i) := by
  cases hu : b.scratch.unseen i with
  | false =>
    rw [see_of_seen hu, see_of_seen ((h.marks i hi).trans hu)]
    exact h
  | true =>
    have hu' := (h.marks i hi).trans hu
    obtain ⟨hcand, hscratch⟩ := see_of_unseen dist wanted ef hu
    obtain ⟨hcand', hscratch'⟩ := see_of_unseen dist wanted ef hu'
    refine ⟨?_, ?_, ?_⟩
    · rw [hcand, hcand', h.candidates]
    · simp only [Beam.see, hu, hu', h.results, if_true]
    · intro j hj
      rw [hscratch, hscratch']
      exact unseen_mark hu hu' (h.marks j hj)

theorem Same.expand {b b' : Beam F} (h : Same n b b') {l : List Nat} (hl : ∀ i ∈ l, i < n) :
    Same n (l.foldl (Beam.see dist wanted ef) b) (l.foldl (Beam.see dist wanted ef) b') := by
  induction l generalizing b b' with
  | nil => exact h
  | cons i l ih =>
    exact ih (h.see (hl i List.mem_cons_self)) fun j hj => hl j (List.mem_cons_of_mem i hj)

theorem Same.walk (hadj : ∀ i, ∀ j ∈ adj i, j < n) {b b' : Beam F} (h : Same n b b')
    (fuel : Nat) :
    (b'.walk adj dist wanted ef fuel).results = (b.walk adj dist wanted ef fuel).results := by
  induction fuel generalizing b b' with
  | zero => exact h.results
  | succ fuel ih =>
    unfold Beam.walk
    rw [h.candidates]
    split
    · exact h.results
    case h_2 c rest hc =>
      rw [show b'.broke ef c = b.broke ef c by simp only [broke, h.results]]
      split
      · exact h.results
      · have hpop : Same n { b with candidates := rest } { b' with candidates := rest } :=
          ⟨rfl, h.results, h.marks⟩
        exact ih (hpop.expand (hadj c.idx))

end Beam

/-- A layer search that starts a new epoch returns the same whatever stamps it finds. -/
theorem layer_of_same
    {n : Nat} {adj : Nat → List Nat} (dist : Nat → F) (wanted : Nat → Bool) (ef : Nat)
    {entry : Nat}
    {s s' : VisitScratch} (hadj : ∀ i, ∀ j ∈ adj i, j < n) (hentry : entry < n)
    (hsize : n ≤ s.visited.length) (hsize' : n ≤ s'.visited.length)
    (hs : s.Fresh) (hs' : s'.Fresh) :
    (layer n adj dist wanted entry ef s').results =
      (layer n adj dist wanted entry ef s).results := by
  have hu : ∀ i < n, s.unseen i = true := fun i hi =>
    (VisitScratch.unseen_iff i s).mpr ⟨hi.trans_le hsize, hs i⟩
  have hu' : ∀ i < n, s'.unseen i = true := fun i hi =>
    (VisitScratch.unseen_iff i s').mpr ⟨hi.trans_le hsize', hs' i⟩
  have hsame : Beam.Same n (Beam.start dist wanted entry s)
      (Beam.start dist wanted entry s') := by
    refine ⟨rfl, rfl, ?_⟩
    intro i hi
    exact Beam.unseen_mark (hu entry hentry) (hu' entry hentry)
      ((hu' i hi).trans (hu i hi).symm)
  exact hsame.walk hadj (n + 1)

theorem Beam.length_scratch_walk
    {adj : Nat → List Nat} {dist : Nat → F} {wanted : Nat → Bool} {ef : Nat} (b : Beam F)
    (fuel : Nat) :
    (b.walk adj dist wanted ef fuel).scratch.visited.length = b.scratch.visited.length := by
  induction fuel generalizing b with
  | zero => rfl
  | succ fuel ih =>
    unfold walk
    split
    · rfl
    · split
      · rfl
      · rw [ih, length_expand]

theorem length_scratch_layer
    {n : Nat} {adj : Nat → List Nat} {dist : Nat → F} {wanted : Nat → Bool} {entry ef : Nat}
    (s : VisitScratch) :
    (layer n adj dist wanted entry ef s).scratch.visited.length = s.visited.length := by
  rw [layer, Beam.length_scratch_walk, Beam.start, VisitScratch.length_mark]

/-- A beam of width `ef` ends with at most `ef` results. -/
theorem length_keep {ef : Nat} (c : Cand F) {results : List (Cand F)}
    (h : results.length ≤ ef) :
    (keep ef c results).length ≤ ef := by
  unfold keep
  dsimp only
  rw [List.orderedInsert_length]
  split
  · rw [List.length_tail, List.orderedInsert_length]
    omega
  · rw [List.orderedInsert_length]
    omega

theorem Beam.length_see
    {dist : Nat → F} {wanted : Nat → Bool} {ef : Nat} {b : Beam F}
    (h : b.results.length ≤ ef) (i : Nat) :
    (b.see dist wanted ef i).results.length ≤ ef := by
  cases hu : b.scratch.unseen i with
  | false => rwa [see_of_seen hu]
  | true =>
    rcases see_results dist wanted ef hu with hres | ⟨-, hres⟩
    · rwa [hres]
    · rw [hres]
      exact length_keep _ h

theorem Beam.length_walk
    {adj : Nat → List Nat} {dist : Nat → F} {wanted : Nat → Bool} {ef : Nat} {b : Beam F}
    (h : b.results.length ≤ ef) (fuel : Nat) :
    (b.walk adj dist wanted ef fuel).results.length ≤ ef := by
  induction fuel generalizing b with
  | zero => exact h
  | succ fuel ih =>
    unfold walk
    split
    · exact h
    case h_2 c rest hc =>
      split
      · exact h
      · refine ih ?_
        generalize adj c.idx = l
        have hrest : ({ b with candidates := rest } : Beam F).results.length ≤ ef := h
        generalize ({ b with candidates := rest } : Beam F) = b₁ at hrest
        induction l generalizing b₁ with
        | nil => exact hrest
        | cons i l ihl => exact ihl _ (length_see hrest i)

theorem length_layer
    (n : Nat) (adj : Nat → List Nat) (dist : Nat → F) (wanted : Nat → Bool) (entry : Nat)
    (s : VisitScratch) {ef : Nat} (hef : 0 < ef) :
    (layer n adj dist wanted entry ef s).results.length ≤ ef := by
  refine Beam.length_walk ?_ (n + 1)
  simp only [Beam.start]
  split
  · exact hef
  · exact Nat.zero_le ef

end Vectors
end StrikeDB
