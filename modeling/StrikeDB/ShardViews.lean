import StrikeDB.Keyspace
import StrikeDB.SortedPairs

/-!
# StrikeDB: what the shards show at a snapshot

`FlushCore.view` is what one shard shows of a key at a snapshot.  All reads are
functions of it (`get_at_eq_view`, `scanShard_congr`, `scanOver_congr`), and the
two operations that rewrite history, pruning and the collection of tombstones,
leave it alone for the snapshots that they have to respect
(`view_apply_shard`, `view_sweep_remove`).
-/

namespace StrikeDB

namespace FlushCore

/-- What shard `i` shows of a key at a snapshot. -/
def view (core : FlushCore) (i : Fin SHARD_COUNT) (k : Key) (snapshot : Nat) : Option Value :=
  (core.shards i)[k]?.bind fun c => c.visible snapshot

theorem get_at_eq_view (core : FlushCore) (k : Key) (snapshot : Nat) :
    core.get_at k snapshot = core.view (shard_of k) k snapshot := rfl

theorem mem_scanShard
    {core : FlushCore} {i : Fin SHARD_COUNT} {start stop : Key} {snapshot : Nat}
    {e : Key × Value} :
    e ∈ core.scanShard i start stop snapshot ↔
      inRange start stop e.1 = true ∧ core.view i e.1 snapshot = some e.2 := by
  simp only [scanShard, view, List.mem_filterMap, List.mem_filter, Option.map_eq_some_iff,
    Option.bind_eq_some_iff, Std.ExtTreeMap.mem_toList_iff_getElem?_eq_some, Prod.exists]
  constructor
  · rintro ⟨k, c, ⟨hc, hr⟩, v, hv, rfl⟩
    exact ⟨hr, c, hc, hv⟩
  · rintro ⟨hr, c, hc, hv⟩
    exact ⟨e.1, c, ⟨hc, hr⟩, e.2, hv, rfl⟩

theorem scanShard_sorted
    (core : FlushCore) (i : Fin SHARD_COUNT) (start stop : Key) (snapshot : Nat) :
    KeySorted (core.scanShard i start stop snapshot) := by
  refine ((keySorted_toList (core.shards i)).filter _).filterMap ?_
  intro e e' he
  obtain ⟨v, _, rfl⟩ := Option.map_eq_some_iff.mp he
  rfl

/-- A scan of one shard depends only on what the shard shows. -/
theorem scanShard_congr
    {core core' : FlushCore} {i : Fin SHARD_COUNT} {snapshot : Nat}
    (h : ∀ k, core.view i k snapshot = core'.view i k snapshot) (start stop : Key) :
    core.scanShard i start stop snapshot = core'.scanShard i start stop snapshot := by
  refine (scanShard_sorted _ _ _ _ _).eq_of_mem_iff (scanShard_sorted _ _ _ _ _) ?_
  intro e
  rw [mem_scanShard, mem_scanShard, h]

/-- A range scan that reads each shard at a moment of its own. -/
def scanOver (views : Fin SHARD_COUNT → FlushCore) (start stop : Key) (snapshot : Nat) :
    List (Key × Value) :=
  ((List.finRange SHARD_COUNT).flatMap fun i =>
    (views i).scanShard i start stop snapshot).mergeSort fun a b => (compare a.1 b.1).isLE

theorem scan_eq_scanOver (core : FlushCore) (start stop : Key) (snapshot : Nat) :
    core.scan start stop snapshot = scanOver (fun _ => core) start stop snapshot := rfl

theorem scanOver_congr
    {views views' : Fin SHARD_COUNT → FlushCore} {snapshot : Nat}
    (h : ∀ i k, (views i).view i k snapshot = (views' i).view i k snapshot)
    (start stop : Key) :
    scanOver views start stop snapshot = scanOver views' start stop snapshot := by
  unfold scanOver
  congr 2
  funext i
  exact scanShard_congr (h i) start stop

/-- Keys stand in their own shards, with well-formed chains. -/
def Placed (core : FlushCore) : Prop :=
  ∀ (i : Fin SHARD_COUNT) (k : Key) (c : Chain), (core.shards i)[k]? = some c →
    shard_of k = i ∧ c.WF

theorem getElem?_apply_shard
    (core : FlushCore) (i i' : Fin SHARD_COUNT) (muts : List Mutation) (active : List Nat)
    (k : Key) :
    ((core.apply_shard i muts active).shards i')[k]? =
      if i' = i then pushAll active k (core.shards i)[k]? (itemsOf i muts)
      else (core.shards i')[k]? := by
  unfold apply_shard
  by_cases h : i' = i
  · subst h
    rw [if_pos rfl]
    simp only [Function.update_self]
    rw [foldl_applyItem_data]
  · rw [if_neg h]
    simp only [Function.update_of_ne h]

theorem getElem?_sweep_remove
    (core : FlushCore) (e : Key × Nat) (i : Fin SHARD_COUNT) (k : Key) :
    ((core.sweep_remove e).shards i)[k]? =
      if (i = shard_of e.1 ∧ e.1 = k) ∧ core.isDead e.1 e.2 then none
      else (core.shards i)[k]? := by
  unfold sweep_remove
  by_cases hd : core.isDead e.1 e.2
  · rw [if_pos hd]
    simp only
    by_cases hi : i = shard_of e.1
    · subst hi
      rw [Function.update_self, map_getElem?_erase]
      by_cases hk : e.1 = k
      · rw [if_pos hk, if_pos ⟨⟨rfl, hk⟩, hd⟩]
      · rw [if_neg hk, if_neg fun h => hk h.1.2]
    · rw [Function.update_of_ne hi, if_neg fun h => hi h.1.1]
  · rw [if_neg hd, if_neg fun h => hd h.2]

theorem wf_pushAll
    {active : List Nat} {k : Key} {muts : List Mutation} {c : Option Chain}
    (hc : ∀ d, c = some d → d.WF) :
    ∀ d, pushAll active k c muts = some d → d.WF := by
  induction muts generalizing c with
  | nil => exact hc
  | cons m muts ih =>
      rw [pushAll_cons]
      refine ih ?_
      by_cases hk : m.key = k
      · rw [if_pos hk]
        intro d hd
        rw [← Option.some.inj hd]
        refine Chain.wf_push ?_ _ _ _
        cases c with
        | none => exact Or.inr rfl
        | some d => exact Or.inl (hc d rfl)
      · rw [if_neg hk]
        exact hc

theorem Placed.apply_shard
    {core : FlushCore} (h : core.Placed) (i : Fin SHARD_COUNT) (muts : List Mutation)
    (active : List Nat) :
    (core.apply_shard i muts active).Placed := by
  intro i' k c hc
  rw [getElem?_apply_shard] at hc
  by_cases hi : i' = i
  · subst hi
    rw [if_pos rfl] at hc
    refine ⟨?_, wf_pushAll (fun d hd => (h i' k d hd).2) c hc⟩
    by_cases hmem : ∃ m ∈ itemsOf i' muts, m.key = k
    · obtain ⟨m, hm, rfl⟩ := hmem
      simpa [itemsOf] using (List.mem_filter.mp hm).2
    · rw [pushAll_of_not_mem _ _ fun m hm hk => hmem ⟨m, hm, hk⟩] at hc
      exact (h i' k c hc).1
  · rw [if_neg hi] at hc
    exact h i' k c hc

theorem Placed.sweep_remove
    {core : FlushCore} (h : core.Placed) (e : Key × Nat) :
    (core.sweep_remove e).Placed := by
  intro i k c hc
  rw [getElem?_sweep_remove] at hc
  split at hc
  · cases hc
  · exact h i k c hc

theorem Placed.clear_shard
    {core : FlushCore} (h : core.Placed) (i : Fin SHARD_COUNT) :
    (core.clear_shard i).Placed := by
  intro i' k c hc
  unfold FlushCore.clear_shard at hc
  by_cases hi : i' = i
  · simp [hi] at hc
  · simp only [Function.update_of_ne hi] at hc
    exact h i' k c hc

/-- Pushes never change which version an open snapshot older than all of them reads. -/
theorem pushAll_visibleVersion
    {active : List Nat} (ha : active.Pairwise (· < ·)) {snapshot : Nat}
    (hmem : snapshot ∈ active) {muts : List Mutation} (hlt : ∀ m ∈ muts, snapshot < m.ts)
    (k : Key) {c : Option Chain} (hc : ∀ d, c = some d → d.WF) :
    (pushAll active k c muts).bind (fun d => d.visibleVersion snapshot) =
      c.bind fun d => d.visibleVersion snapshot := by
  induction muts generalizing c with
  | nil => rfl
  | cons m muts ih =>
      rw [pushAll_cons]
      have hrest : ∀ m' ∈ muts, snapshot < m'.ts :=
        fun m' hm' => hlt m' (List.mem_cons_of_mem _ hm')
      by_cases hk : m.key = k
      · rw [if_pos hk]
        have hsorted : Chain.Sorted (c.getD Chain.default).versions := by
          cases c with
          | none => exact List.Pairwise.nil
          | some d => exact (hc d rfl).sorted
        have hwf : (c.getD Chain.default).WF ∨ c.getD Chain.default = Chain.default := by
          cases c with
          | none => exact Or.inr rfl
          | some d => exact Or.inl (hc d rfl)
        rw [ih hrest fun d hd => Option.some.inj hd ▸ Chain.wf_push hwf _ _ _,
          Option.bind_some,
          Chain.push_visibleVersion_of_active hsorted ha hmem (hlt m (by simp))]
        cases c with
        | none => rfl
        | some d => rfl
      · rw [if_neg hk]
        exact ih hrest hc

/-- Pushes never change what an open snapshot older than all of them sees. -/
theorem pushAll_visible
    {active : List Nat} (ha : active.Pairwise (· < ·)) {snapshot : Nat}
    (hmem : snapshot ∈ active) {muts : List Mutation} (hlt : ∀ m ∈ muts, snapshot < m.ts)
    (k : Key) {c : Option Chain} (hc : ∀ d, c = some d → d.WF) :
    (pushAll active k c muts).bind (fun d => d.visible snapshot) =
      c.bind fun d => d.visible snapshot := by
  have hversion := congrArg (fun v : Option Version => v.bind fun v => live v.value)
    (pushAll_visibleVersion ha hmem hlt k hc)
  simp only [Option.bind_assoc] at hversion
  exact hversion

theorem view_apply_shard
    {core : FlushCore} (h : core.Placed) {active : List Nat}
    (ha : active.Pairwise (· < ·)) {snapshot : Nat} (hmem : snapshot ∈ active)
    {muts : List Mutation} (hlt : ∀ m ∈ muts, snapshot < m.ts)
    (i i' : Fin SHARD_COUNT) (k : Key) :
    (core.apply_shard i muts active).view i' k snapshot = core.view i' k snapshot := by
  unfold view
  rw [getElem?_apply_shard]
  by_cases hi : i' = i
  · subst hi
    rw [if_pos rfl]
    exact pushAll_visible ha hmem (fun m hm => hlt m (List.mem_filter.mp hm).1) k
      fun d hd => (h i' k d hd).2
  · rw [if_neg hi]

/-- A collected tombstone was already invisible at every later snapshot. -/
theorem view_sweep_remove
    {core : FlushCore} (h : core.Placed) {e : Key × Nat} {snapshot : Nat}
    (hle : e.2 ≤ snapshot) (i : Fin SHARD_COUNT) (k : Key) :
    (core.sweep_remove e).view i k snapshot = core.view i k snapshot := by
  unfold view
  rw [getElem?_sweep_remove]
  split
  · next hcond =>
      obtain ⟨⟨rfl, rfl⟩, hd⟩ := hcond
      obtain ⟨c, hc, hnone, hts⟩ := (isDead_iff _ _ _).mp hd
      rw [chain] at hc
      rw [hc, Option.bind_none, Option.bind_some]
      have hwf := (h _ _ c hc).2
      -- the tombstone is the newest version at the snapshot, too
      have hall : upTo snapshot c.versions = c.versions := by
        unfold upTo
        rw [List.filter_eq_self]
        intro v hv
        obtain ⟨w, hw⟩ : ∃ w, c.versions.getLast? = some w := by
          cases hl : c.versions.getLast? with
          | none => exact absurd (List.getLast?_eq_none_iff.mp hl) hwf.ne_nil
          | some w => exact ⟨w, rfl⟩
        have hv' := Chain.le_getLast? hwf.sorted hw v hv
        have hw' := hwf.latest_ts_eq w hw
        simp only [decide_eq_true_eq]
        omega
      rw [Chain.visible, Chain.visibleVersion_eq, hall]
      exact hnone.symm
  · rfl

end FlushCore
end StrikeDB
