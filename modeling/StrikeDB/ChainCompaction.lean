import StrikeDB.Chain
import Mathlib.Data.List.InsertIdx

/-!
# StrikeDB: the compaction of a version chain

`Chain::push` prunes in place: a reading index `i` runs over the versions, a
writing index `w` follows it, a kept version is swapped down to `w`, and the
timestamp after it is read while the versions before it have already moved.
This module carries that loop out index by index and shows that it never leaves
its vector and computes the pruning of `Chain.push`.

**Results.**

* `Chain.pushInPlace_eq`: the in-place push is `Chain.push`.
* `Chain.Kept.push`: what one push preserves of the versions pushed so far.
* `Chain.visible_push`: a push drops nothing that its own open snapshots read.
* `Chain.pushes_keep_needed`: for every sequence of pushes, the chain is sorted,
  ends in the latest version pushed, has lost none of the newest
  `MAX_VERSIONS_PER_KEY`, accounts for every dropped version in `pruned_ts`, and
  no push changes what its own open snapshots read.
-/

namespace StrikeDB

/-! ## The loop as the code runs it -/

/-- The index of the first element that `p` does not hold of; the vector is
partitioned by `p`. -/
def partition_point {α : Type} (p : α → Bool) (l : List α) : Nat := (l.takeWhile p).length

/-- `Vec::swap`; `none` stands for the panic of an index out of range. -/
def swap {α : Type} (l : List α) (i j : Nat) : Option (List α) := do
  let a ← l[i]?
  let b ← l[j]?
  return (l.set i b).set j a

/-- The variables of the pruning loop. -/
structure Compaction where
  versions : List Version
  w : Nat
  pruned_ts : Nat
deriving DecidableEq

namespace Compaction

/-- The closure `needed` of the loop: does an open snapshot in `[lo, hi)` exist? -/
def neededAt (active : List Nat) (lo hi : Nat) : Bool :=
  let p := partition_point (fun s => s < lo) active
  match active[p]? with
  | none => false
  | some s => s < hi

/-- Is version `i` of `n` kept? The next timestamp is read only when the version is
not among the newest. -/
def keep (active : List Nat) (n i : Nat) (versions : List Version) : Option Bool :=
  if n - MAX_VERSIONS_PER_KEY ≤ i then some true
  else do
    let v ← versions[i]?
    let next ← versions[i + 1]?
    return neededAt active v.ts next.ts

/-- One round of the loop. -/
def step (active : List Nat) (n : Nat) (c : Compaction) (i : Nat) : Option Compaction := do
  if ← keep active n i c.versions then
    return { c with versions := ← swap c.versions c.w i, w := c.w + 1 }
  else
    return { c with pruned_ts := max c.pruned_ts (← c.versions[i]?).ts }

end Compaction

namespace Chain

/-- `Chain::push`, with its indices; `none` stands for a panic. -/
def pushInPlace (c : Chain) (ts : Nat) (value : Value) (active : List Nat) : Option Chain := do
  let first_ts :=
    if c.first_ts = 0 ∧ c.pruned_ts = 0 ∧ c.versions = [] then ts else c.first_ts
  let pos := partition_point (fun v : Version => v.ts ≤ ts) c.versions
  let versions := c.versions.insertIdx pos ⟨ts, value⟩
  let latest_ts := max c.latest_ts ts
  let n := versions.length
  if n > MAX_VERSIONS_PER_KEY then
    let done ← (List.range n).foldlM (Compaction.step active n) ⟨versions, 0, c.pruned_ts⟩
    return { latest_ts, versions := done.versions.take done.w, pruned_ts := done.pruned_ts,
             first_ts }
  else
    return { latest_ts, versions, pruned_ts := c.pruned_ts, first_ts }

end Chain

/-! ## The loop against the pruning by recursion -/

theorem getElem?_takeWhile_length
    {α : Type} (p : α → Bool) (l : List α) :
    l[(l.takeWhile p).length]? = (l.dropWhile p).head? := by
  conv_lhs =>
    rw [← List.takeWhile_append_dropWhile (p := p) (l := l)]
  rw [List.takeWhile_append_dropWhile]
  induction l with
  | nil => rfl
  | cons a l ih =>
      by_cases ha : p a = true
      · rw [List.takeWhile_cons_of_pos ha, List.dropWhile_cons_of_pos ha, List.length_cons,
          List.getElem?_cons_succ]
        exact ih
      · rw [List.takeWhile_cons_of_neg ha, List.dropWhile_cons_of_neg ha]
        rfl

theorem insertIdx_partition_point
    {α : Type} (p : α → Bool) (a : α) (l : List α) :
    l.insertIdx (partition_point p l) a = l.takeWhile p ++ a :: l.dropWhile p := by
  unfold partition_point
  induction l with
  | nil => rfl
  | cons b l ih =>
      by_cases hb : p b = true
      · rw [List.takeWhile_cons_of_pos hb, List.dropWhile_cons_of_pos hb, List.length_cons,
          List.insertIdx_succ_cons, ih]
        rfl
      · rw [List.takeWhile_cons_of_neg hb, List.dropWhile_cons_of_neg hb]
        rfl

namespace Compaction

theorem neededAt_eq (active : List Nat) (lo hi : Nat) :
    neededAt active lo hi = needed active lo hi := by
  unfold neededAt partition_point needed
  simp only [getElem?_takeWhile_length]
  cases active.dropWhile (fun s => s < lo) <;> rfl

/-- The test of the loop at the head of the versions not yet read. -/
theorem keep_eq
    (active : List Nat) (before : List Version) (v : Version) (rest : List Version) :
    keep active (before.length + (v :: rest).length) before.length (before ++ v :: rest) =
      some (keepVersion active v rest) := by
  unfold keep keepVersion
  rw [List.length_cons]
  by_cases hnew : rest.length < MAX_VERSIONS_PER_KEY
  · rw [if_pos (by omega)]
    simp [hnew]
  · rw [if_neg (by omega)]
    cases rest with
    | nil => simp [MAX_VERSIONS_PER_KEY] at hnew
    | cons next rest =>
        have hv : (before ++ v :: next :: rest)[before.length]? = some v := by simp
        have hnext : (before ++ v :: next :: rest)[before.length + 1]? = some next := by simp
        rw [hv, hnext, decide_eq_false hnew]
        simp [neededAt_eq]

/-- Swapping the version read down to the writing index. -/
theorem swap_down
    (kept junk : List Version) (v : Version) (rest : List Version) :
    ∃ junk', junk'.length = junk.length ∧
      swap (kept ++ junk ++ v :: rest) kept.length (kept ++ junk).length =
        some (kept ++ [v] ++ junk' ++ rest) := by
  have hread : (kept ++ junk ++ v :: rest)[(kept ++ junk).length]? = some v := by simp
  cases junk with
  | nil =>
      refine ⟨[], rfl, ?_⟩
      unfold swap
      rw [hread]
      simp
  | cons a junk =>
      refine ⟨junk ++ [a], by simp, ?_⟩
      have hwrite : (kept ++ a :: junk ++ v :: rest)[kept.length]? = some a := by simp
      unfold swap
      rw [hread, hwrite]
      simp [List.set_cons_succ]

/-- From a state of the loop to its end: what has been kept stays in front, and the
versions not yet read are pruned as by recursion. -/
theorem run_eq
    (active : List Nat) (kept junk rest : List Version) (p : Nat) :
    ∃ junk',
      (List.range' (kept ++ junk).length rest.length).foldlM
        (step active ((kept ++ junk).length + rest.length))
        ⟨kept ++ junk ++ rest, kept.length, p⟩ =
      some ⟨kept ++ (pruneLoop active rest).1 ++ junk',
        (kept ++ (pruneLoop active rest).1).length, max p (pruneLoop active rest).2⟩ := by
  induction rest generalizing kept junk p with
  | nil => exact ⟨junk, by simp [pruneLoop]⟩
  | cons v rest ih =>
      rw [List.length_cons, List.range'_succ, List.foldlM_cons]
      have hkeep := keep_eq active (kept ++ junk) v rest
      rw [List.length_cons] at hkeep
      by_cases hk : keepVersion active v rest = true
      · obtain ⟨junk', hlen, hswap⟩ := swap_down kept junk v rest
        have hstep : step active ((kept ++ junk).length + (rest.length + 1))
            ⟨kept ++ junk ++ v :: rest, kept.length, p⟩ (kept ++ junk).length =
            some ⟨kept ++ [v] ++ junk' ++ rest, (kept ++ [v]).length, p⟩ := by
          unfold step
          simp only [hkeep, hk, hswap]
          simp
        rw [hstep]
        obtain ⟨junk'', hrun⟩ := ih (kept ++ [v]) junk' p
        refine ⟨junk'', ?_⟩
        have hat : (kept ++ [v] ++ junk').length = (kept ++ junk).length + 1 := by
          simp [hlen]
          omega
        rw [hat, show (kept ++ junk).length + 1 + rest.length =
          (kept ++ junk).length + (rest.length + 1) from by omega] at hrun
        rw [pruneLoop, if_pos hk]
        simpa using hrun
      · have hstep : step active ((kept ++ junk).length + (rest.length + 1))
            ⟨kept ++ junk ++ v :: rest, kept.length, p⟩ (kept ++ junk).length =
            some ⟨kept ++ (junk ++ [v]) ++ rest, kept.length, max p v.ts⟩ := by
          have hread : (kept ++ junk ++ v :: rest)[(kept ++ junk).length]? = some v := by simp
          unfold step
          simp only [hkeep, Bool.not_eq_true _ ▸ hk, hread]
          simp
        rw [hstep]
        obtain ⟨junk'', hrun⟩ := ih kept (junk ++ [v]) (max p v.ts)
        refine ⟨junk'', ?_⟩
        have hat : (kept ++ (junk ++ [v])).length = (kept ++ junk).length + 1 := by
          simp
          omega
        rw [hat, show (kept ++ junk).length + 1 + rest.length =
          (kept ++ junk).length + (rest.length + 1) from by omega] at hrun
        rw [pruneLoop, if_neg hk]
        simpa [max_assoc] using hrun

end Compaction

namespace Chain

/-- The loop from its first round: the versions pruned by recursion, and what
`truncate` cuts off. -/
theorem compact_eq (active : List Nat) (versions : List Version) (p : Nat) :
    ∃ junk,
      (List.range versions.length).foldlM (Compaction.step active versions.length)
        ⟨versions, 0, p⟩ =
      some ⟨(pruneLoop active versions).1 ++ junk, (pruneLoop active versions).1.length,
        max p (pruneLoop active versions).2⟩ := by
  obtain ⟨junk, hrun⟩ := Compaction.run_eq active [] [] versions p
  refine ⟨junk, ?_⟩
  rw [List.range_eq_range']
  simpa using hrun

/-- The loop with its indices never leaves the vector and is the pruning of `push`. -/
theorem pushInPlace_eq
    (c : Chain) (ts : Nat) (value : Value) (active : List Nat) :
    c.pushInPlace ts value active = some (c.push ts value active) := by
  have hinsert : c.versions.insertIdx
      (partition_point (fun v : Version => v.ts ≤ ts) c.versions) ⟨ts, value⟩ =
      insertVersion ⟨ts, value⟩ c.versions := insertIdx_partition_point _ _ _
  unfold pushInPlace push
  simp only [hinsert]
  by_cases hlong : (insertVersion ⟨ts, value⟩ c.versions).length > MAX_VERSIONS_PER_KEY
  · obtain ⟨junk, hrun⟩ :=
      compact_eq active (insertVersion ⟨ts, value⟩ c.versions) c.pruned_ts
    rw [if_pos hlong, hrun]
    simp [hlong]
  · rw [if_neg hlong]
    simp [hlong]

end Chain

/-! ## Every sequence of pushes -/

/-- One call of `push`. -/
structure Push where
  ts : Nat
  value : Value
  active : List Nat

namespace Push

def version (p : Push) : Version := ⟨p.ts, p.value⟩

/-- The versions pushed, by timestamp; of one timestamp, in the order of the pushes. -/
def history (pushes : List Push) : List Version :=
  pushes.foldl (fun vs p => insertVersion p.version vs) []

/-- The largest timestamp pushed. -/
def maxTs (pushes : List Push) : Nat := pushes.foldl (fun t p => max t p.ts) 0

/-- The last version pushed of the largest timestamp. -/
def newest (pushes : List Push) : Option Version :=
  (pushes.reverse.find? fun p => p.ts = maxTs pushes).map version

end Push

namespace Chain

def pushAll (c : Chain) (pushes : List Push) : Option Chain :=
  pushes.foldlM (fun c p => c.pushInPlace p.ts p.value p.active) c

/-- The chain with a version inserted and nothing pruned. -/
def unpruned (c : Chain) (p : Push) : Chain :=
  { c with versions := insertVersion p.version c.versions }

/-- What a chain has kept of the versions pushed. -/
structure Kept (pushes : List Push) (c : Chain) : Prop where
  sorted : Sorted c.versions
  /-- Only pushed versions, each no more often than it was pushed. -/
  sublist : c.versions.Sublist (Push.history pushes)
  latest_ts : c.latest_ts = Push.maxTs pushes
  latest : c.latest = (Push.newest pushes).bind fun v => live v.value
  newest : ∀ vs, vs <:+ Push.history pushes → vs.length ≤ MAX_VERSIONS_PER_KEY →
    vs <:+ c.versions
  dropped : ∀ v, c.versions.count v < (Push.history pushes).count v → v.ts ≤ c.pruned_ts

end Chain

namespace Push

theorem history_concat (pushes : List Push) (p : Push) :
    history (pushes ++ [p]) = insertVersion p.version (history pushes) := by
  simp [history]

theorem maxTs_concat (pushes : List Push) (p : Push) :
    maxTs (pushes ++ [p]) = max (maxTs pushes) p.ts := by
  simp [maxTs]

theorem sorted_history (pushes : List Push) : Chain.Sorted (history pushes) := by
  induction pushes using List.reverseRecOn with
  | nil => exact List.Pairwise.nil
  | append_singleton pushes p ih =>
      rw [history_concat]
      exact sorted_insertVersion ih

theorem le_maxTs {pushes : List Push} {v : Version} (h : v ∈ history pushes) :
    v.ts ≤ maxTs pushes := by
  induction pushes using List.reverseRecOn with
  | nil => cases h
  | append_singleton pushes p ih =>
      rw [history_concat, mem_insertVersion] at h
      rw [maxTs_concat]
      rcases h with rfl | h
      · exact le_max_right _ _
      · exact (ih h).trans (le_max_left _ _)

/-- The history ends in the last version pushed of the largest timestamp. -/
theorem getLast?_history (pushes : List Push) :
    (history pushes).getLast? = newest pushes ∧
      ∀ v, newest pushes = some v → v.ts = maxTs pushes := by
  induction pushes using List.reverseRecOn with
  | nil => exact ⟨rfl, fun v hv => by cases hv⟩
  | append_singleton pushes p ih =>
      obtain ⟨hlast, hmax⟩ := ih
      by_cases hp : maxTs pushes ≤ p.ts
      · have hnew : newest (pushes ++ [p]) = some p.version := by
          unfold newest
          rw [maxTs_concat, max_eq_right hp]
          simp
        rw [history_concat, hnew, maxTs_concat, max_eq_right hp,
          insertVersion_of_newest fun w hw => (le_maxTs hw).trans hp]
        refine ⟨by simp, ?_⟩
        rintro v ⟨rfl⟩
        rfl
      · have hnew : newest (pushes ++ [p]) = newest pushes := by
          unfold newest
          rw [maxTs_concat, max_eq_left (by omega)]
          simp [show p.ts ≠ maxTs pushes from by omega]
        rw [history_concat, hnew, maxTs_concat, max_eq_left (by omega)]
        refine ⟨?_, hmax⟩
        cases hv : newest pushes with
        | none =>
            -- nothing was pushed, so no timestamp is above that of `p`
            rw [hv, List.getLast?_eq_none_iff] at hlast
            cases hpushes : pushes using List.reverseRecOn with
            | nil => simp [hpushes, maxTs] at hp
            | append_singleton pushes q =>
                rw [hpushes, history_concat] at hlast
                exact absurd hlast (insertVersion_ne_nil _ _)
        | some v =>
            exact getLast?_insertVersion_of_lt (hlast.trans hv)
              (by rw [hmax v hv]; exact not_le.mp hp)

end Push

/-! ## What one push preserves -/

theorem insertVersion_perm (v : Version) (vs : List Version) :
    (insertVersion v vs).Perm (v :: vs) := by
  unfold insertVersion
  refine List.perm_middle.trans ?_
  rw [List.takeWhile_append_dropWhile]

/-- Inserting into parts around the insertion point. -/
theorem insertVersion_append
    {v : Version} {older newer : List Version}
    (holder : ∀ w ∈ older, w.ts ≤ v.ts) (hnewer : ∀ w ∈ newer, v.ts < w.ts) :
    insertVersion v (older ++ newer) = older ++ v :: newer := by
  have htake : newer.takeWhile (fun w => w.ts ≤ v.ts) = [] := by
    cases newer with
    | nil => rfl
    | cons w newer =>
        have := hnewer w (by simp)
        exact List.takeWhile_cons_of_neg (by simpa using this)
  have hdrop : newer.dropWhile (fun w => w.ts ≤ v.ts) = newer := by
    cases newer with
    | nil => rfl
    | cons w newer =>
        have := hnewer w (by simp)
        exact List.dropWhile_cons_of_neg (by simpa using this)
  unfold insertVersion
  rw [List.takeWhile_append_of_pos (by simpa using holder), htake,
    List.dropWhile_append_of_pos (by simpa using holder), hdrop, List.append_nil]

/-- A sorted list around the insertion point. -/
theorem exists_insertVersion
    {vs : List Version} (h : Chain.Sorted vs) (v : Version) :
    ∃ older newer, vs = older ++ newer ∧ (∀ w ∈ older, w.ts ≤ v.ts) ∧
      (∀ w ∈ newer, v.ts < w.ts) ∧ insertVersion v vs = older ++ v :: newer := by
  refine ⟨vs.takeWhile (fun w => w.ts ≤ v.ts), vs.dropWhile (fun w => w.ts ≤ v.ts), ?_, ?_, ?_,
    rfl⟩
  · exact (List.takeWhile_append_dropWhile ..).symm
  · intro w hw
    simpa using List.mem_takeWhile_imp hw
  · exact fun w hw => lt_of_mem_dropWhile h hw

theorem insertVersion_sublist
    {vs ws : List Version} (hsorted : Chain.Sorted ws) (h : vs.Sublist ws) (v : Version) :
    (insertVersion v vs).Sublist (insertVersion v ws) := by
  obtain ⟨older, newer, rfl, holder, hnewer, heq⟩ := exists_insertVersion hsorted v
  obtain ⟨a, b, rfl, ha, hb⟩ := List.sublist_append_iff.mp h
  rw [heq, insertVersion_append (fun w hw => holder w (ha.subset hw))
    (fun w hw => hnewer w (hb.subset hw))]
  exact ha.append (hb.cons_cons v)

/-- A suffix of newer versions lies behind the insertion point. -/
theorem suffix_newer
    {t : Nat} {vs older newer : List Version} (h : vs <:+ older ++ newer)
    (hvs : ∀ w ∈ vs, t < w.ts) (holder : ∀ w ∈ older, w.ts ≤ t) :
    vs <:+ newer := by
  rcases List.suffix_or_suffix_of_suffix h (List.suffix_append older newer) with h' | h'
  · exact h'
  · obtain ⟨x, rfl⟩ := h'
    cases x with
    | nil => exact List.suffix_rfl
    | cons w x =>
        have hin : w :: x <:+ older := by
          obtain ⟨y, hy⟩ := h
          rw [← List.append_assoc, List.append_cancel_right_eq] at hy
          exact ⟨y, hy⟩
        have hold := holder w (hin.subset (by simp))
        have hnew := hvs w (by simp)
        omega

/-- Inserting into a part of a sorted list that has lost none of its newest. -/
theorem suffix_insertVersion
    {vs ws : List Version} {m : Nat} (hsorted : Chain.Sorted ws) (hsub : vs.Sublist ws)
    (hnew : ∀ us, us <:+ ws → us.length ≤ m → us <:+ vs) (v : Version)
    {us : List Version} (hus : us <:+ insertVersion v ws) (hlen : us.length ≤ m) :
    us <:+ insertVersion v vs := by
  obtain ⟨older, newer, rfl, holder, hnewer, heq⟩ := exists_insertVersion hsorted v
  obtain ⟨a, b, rfl, ha, hb⟩ := List.sublist_append_iff.mp hsub
  have hahead : ∀ w ∈ a, w.ts ≤ v.ts := fun w hw => holder w (ha.subset hw)
  rw [heq] at hus
  rw [insertVersion_append hahead fun w hw => hnewer w (hb.subset hw)]
  rcases List.suffix_or_suffix_of_suffix hus (List.suffix_append older (v :: newer)) with h | h
  · rcases List.suffix_cons_iff.mp h with rfl | h
    · -- the new version is the oldest of them
      have hin := hnew newer (List.suffix_append older newer) (by
        rw [List.length_cons] at hlen
        omega)
      have hnb := (suffix_newer hin hnewer hahead).sublist.antisymm hb
      rw [hnb]
      exact List.suffix_append a (v :: b)
    · -- all of them are newer
      have hin := hnew us (h.trans (List.suffix_append older newer)) hlen
      have hub := suffix_newer hin (fun w hw => hnewer w (h.subset hw)) hahead
      exact hub.trans ((List.suffix_cons v b).trans (List.suffix_append a (v :: b)))
  · -- the new version is among them
    obtain ⟨x, rfl⟩ := h
    have hx : x <:+ older := by
      obtain ⟨y, hy⟩ := hus
      rw [← List.append_assoc, List.append_cancel_right_eq] at hy
      exact ⟨y, hy⟩
    have hxn : x ++ newer <:+ older ++ newer := by
      obtain ⟨y, rfl⟩ := hx
      exact ⟨y, by simp⟩
    have hin := hnew _ hxn (by
      rw [List.length_append, List.length_cons] at hlen
      rw [List.length_append]
      omega)
    have hnb := (suffix_newer ((List.suffix_append x newer).trans hin) hnewer
      hahead).sublist.antisymm hb
    obtain ⟨y, hy⟩ := hin
    rw [hnb, ← List.append_assoc, List.append_cancel_right_eq] at hy
    rw [hnb, ← hy]
    exact ⟨y, by simp⟩

/-- The newest versions are not pruned. -/
theorem pruneLoop_of_short
    (active : List Nat) {vs : List Version} (h : vs.length ≤ MAX_VERSIONS_PER_KEY) :
    pruneLoop active vs = (vs, 0) := by
  induction vs with
  | nil => rfl
  | cons v vs ih =>
      rw [List.length_cons] at h
      have hkeep : keepVersion active v vs = true := by
        unfold keepVersion
        rw [decide_eq_true (by omega), Bool.true_or]
      rw [pruneLoop, if_pos hkeep, ih (by omega)]

theorem suffix_pruneLoop
    (active : List Nat) {us vs : List Version} (h : us <:+ vs)
    (hlen : us.length ≤ MAX_VERSIONS_PER_KEY) :
    us <:+ (pruneLoop active vs).1 := by
  induction vs with
  | nil => exact h
  | cons v vs ih =>
      rcases List.suffix_cons_iff.mp h with rfl | h
      · rw [pruneLoop_of_short active hlen]
      · rw [pruneLoop]
        split
        · exact (ih h).trans (List.suffix_cons v _)
        · exact ih h

/-- The loop reports a timestamp no older than that of a dropped version. -/
theorem le_pruneLoop_of_dropped
    {active : List Nat} {vs : List Version} {v : Version}
    (h : (pruneLoop active vs).1.count v < vs.count v) :
    v.ts ≤ (pruneLoop active vs).2 := by
  induction vs with
  | nil => simp at h
  | cons w vs ih =>
      rw [pruneLoop] at h ⊢
      split at h
      · rename_i hkeep
        rw [if_pos hkeep]
        rw [List.count_cons, List.count_cons] at h
        exact ih (by omega)
      · rename_i hkeep
        rw [if_neg hkeep]
        rw [List.count_cons] at h
        by_cases hw : w = v
        · rw [hw]
          exact le_max_left _ _
        · rw [beq_eq_false_iff_ne.mpr hw] at h
          exact (ih (by simpa using h)).trans (le_max_right _ _)

namespace Chain

/-- The chain before pruning, and what a push leaves of it. -/
theorem push_cases (c : Chain) (p : Push) :
    ((c.push p.ts p.value p.active).versions = (c.unpruned p).versions ∧
      (c.push p.ts p.value p.active).pruned_ts = c.pruned_ts) ∨
    ((c.push p.ts p.value p.active).versions = (pruneLoop p.active (c.unpruned p).versions).1 ∧
      (c.push p.ts p.value p.active).pruned_ts =
        max c.pruned_ts (pruneLoop p.active (c.unpruned p).versions).2) := by
  unfold push unpruned
  by_cases hlong : (insertVersion p.version c.versions).length > MAX_VERSIONS_PER_KEY
  · exact Or.inr ⟨if_pos hlong, if_pos hlong⟩
  · exact Or.inl ⟨if_neg hlong, if_neg hlong⟩

/-- A push drops nothing that its own open snapshots read. -/
theorem visible_push
    {c : Chain} (hs : Sorted c.versions) {p : Push} (ha : p.active.Pairwise (· ≤ ·))
    {s : Nat} (hmem : s ∈ p.active) :
    (c.push p.ts p.value p.active).visible s = (c.unpruned p).visible s := by
  have hsorted : Sorted (c.unpruned p).versions := sorted_insertVersion hs
  rw [visible, visible, visibleVersion_eq, visibleVersion_eq]
  rcases c.push_cases p with ⟨hv, -⟩ | ⟨hv, -⟩
  · rw [hv]
  · rw [hv, pruneLoop_upTo_getLast? ha hmem hsorted]

/-- One push keeps what is needed of the versions pushed so far and its own. -/
theorem Kept.push
    {pushes : List Push} {c : Chain} (h : Kept pushes c) (p : Push) :
    Kept (pushes ++ [p]) (c.push p.ts p.value p.active) := by
  have hsorted := Push.sorted_history pushes
  have hsub : (c.unpruned p).versions.Sublist (Push.history (pushes ++ [p])) := by
    rw [Push.history_concat]
    exact insertVersion_sublist hsorted h.sublist p.version
  have hnewest : ∀ vs, vs <:+ Push.history (pushes ++ [p]) →
      vs.length ≤ MAX_VERSIONS_PER_KEY → vs <:+ (c.unpruned p).versions := by
    intro vs hvs hlen
    rw [Push.history_concat] at hvs
    exact suffix_insertVersion hsorted h.sublist h.newest p.version hvs hlen
  have hdropped : ∀ v, (c.unpruned p).versions.count v <
      (Push.history (pushes ++ [p])).count v → v.ts ≤ c.pruned_ts := by
    intro v hv
    rw [Push.history_concat, (insertVersion_perm _ _).count_eq, List.count_cons] at hv
    unfold unpruned at hv
    rw [(insertVersion_perm _ _).count_eq, List.count_cons] at hv
    exact h.dropped v (by omega)
  have hkept : ∀ vs, vs <:+ Push.history (pushes ++ [p]) →
      vs.length ≤ MAX_VERSIONS_PER_KEY →
      vs <:+ (c.push p.ts p.value p.active).versions := by
    intro vs hvs hlen
    rcases c.push_cases p with ⟨heq, -⟩ | ⟨heq, -⟩
    · rw [heq]
      exact hnewest vs hvs hlen
    · rw [heq]
      exact suffix_pruneLoop p.active (hnewest vs hvs hlen) hlen
  refine ⟨sorted_push h.sorted p.ts p.value p.active, ?_, ?_, ?_, hkept, ?_⟩
  · rcases c.push_cases p with ⟨heq, -⟩ | ⟨heq, -⟩
    · rw [heq]
      exact hsub
    · rw [heq]
      exact (pruneLoop_sublist _ _).trans hsub
  · rw [Push.maxTs_concat, ← h.latest_ts]
    rfl
  · -- the newest version alone is one of the newest kept
    have hne : Push.history (pushes ++ [p]) ≠ [] := by
      rw [Push.history_concat]
      exact insertVersion_ne_nil _ _
    have hlast : [(Push.history (pushes ++ [p])).getLast hne] <:+
        Push.history (pushes ++ [p]) := ⟨_, List.dropLast_append_getLast hne⟩
    obtain ⟨front, hfront⟩ := hkept _ hlast (by simp [MAX_VERSIONS_PER_KEY])
    unfold Chain.latest
    rw [← (Push.getLast?_history (pushes ++ [p])).1, ← hfront, List.getLast?_concat,
      List.getLast?_eq_some_getLast hne]
  · intro v hv
    rcases c.push_cases p with ⟨heq, hts⟩ | ⟨heq, hts⟩
    · rw [heq] at hv
      rw [hts]
      exact hdropped v hv
    · rw [heq] at hv
      rw [hts]
      by_cases hpruned : (pruneLoop p.active (c.unpruned p).versions).1.count v <
          (c.unpruned p).versions.count v
      · exact (le_pruneLoop_of_dropped hpruned).trans (le_max_right _ _)
      · exact (hdropped v (by omega)).trans (le_max_left _ _)

theorem kept_default : Kept [] default :=
  { sorted := List.Pairwise.nil
    sublist := List.Sublist.slnil
    latest_ts := rfl
    latest := rfl
    newest := fun _ h _ => h
    dropped := fun v h => absurd h (by simp [Push.history]) }

/-- Every sequence of pushes runs through and keeps what is needed. -/
theorem pushAll_kept (pushes : List Push) :
    ∃ c, pushAll default pushes = some c ∧ Kept pushes c := by
  induction pushes using List.reverseRecOn with
  | nil => exact ⟨default, rfl, kept_default⟩
  | append_singleton pushes p ih =>
      obtain ⟨c, hc, hkept⟩ := ih
      refine ⟨c.push p.ts p.value p.active, ?_, hkept.push p⟩
      unfold pushAll at hc ⊢
      rw [List.foldlM_append, hc]
      simp [pushInPlace_eq]

/-- For every sequence of pushes, in any order of timestamps and each with any sorted list
of open snapshots: the chain keeps what is needed of all that was pushed, and the last push
changes nothing that its own snapshots read. -/
theorem pushes_keep_needed
    (pushes : List Push) (hactive : ∀ p ∈ pushes, p.active.Pairwise (· ≤ ·)) :
    (∃ c, pushAll default pushes = some c ∧ Kept pushes c) ∧
    ∀ before p after, pushes = before ++ p :: after →
      ∃ c c', pushAll default before = some c ∧
        c.pushInPlace p.ts p.value p.active = some c' ∧
        ∀ s ∈ p.active, c'.visible s = (c.unpruned p).visible s := by
  refine ⟨pushAll_kept pushes, ?_⟩
  rintro before p after rfl
  obtain ⟨c, hc, hkept⟩ := pushAll_kept before
  refine ⟨c, c.push p.ts p.value p.active, hc, c.pushInPlace_eq _ _ _, ?_⟩
  intro s hs
  exact visible_push hkept.sorted (hactive p (by simp)) hs

/-- Ten versions, one of them late, while a snapshot at 3 is open twice. -/
def tenPushes : List Push :=
  [2, 5, 4, 6, 6, 7, 8, 9, 10, 11].map fun ts => ⟨ts, .int 0, [3, 3, 12]⟩

theorem tenPushes_keep_needed :
    (∃ c, pushAll default tenPushes = some c ∧ Kept tenPushes c) ∧
    ∀ before p after, tenPushes = before ++ p :: after →
      ∃ c c', pushAll default before = some c ∧
        c.pushInPlace p.ts p.value p.active = some c' ∧
        ∀ s ∈ p.active, c'.visible s = (c.unpruned p).visible s :=
  pushes_keep_needed tenPushes (by decide)

example : (pushAll default tenPushes).map (fun c => (c.versions.map Version.ts, c.pruned_ts)) =
    some ([2, 5, 6, 6, 7, 8, 9, 10, 11], 4) := by decide

end Chain
end StrikeDB
