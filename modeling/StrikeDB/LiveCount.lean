import Mathlib.Data.Set.Card
import StrikeDB.ByteOrder
import StrikeDB.ShardViews

/-!
# StrikeDB: the live-key counter

`kv_live`, the counter behind `DBSIZE`: each mutation adds what it changes, FLUSHALL
sets it to zero, and opening a store counts.

**Results.**
* `ncard_point`: what the change of one member does to the size of a set.
* `counts_apply_shard`: a batch keeps the counter, key by key.
* `live_counter_exact`: the counter after any sequence of operations.
-/

namespace StrikeDB

/-- Two finite sets that differ at most in `a`. -/
theorem ncard_point {α : Type} {s t : Set α} (hs : s.Finite) (ht : t.Finite) (a : α)
    [Decidable (a ∈ s)] [Decidable (a ∈ t)] (h : ∀ b, b ≠ a → (b ∈ s ↔ b ∈ t)) :
    (t.ncard : Int) = s.ncard + (if a ∈ t then 1 else 0) - (if a ∈ s then 1 else 0) := by
  have hrest : t \ {a} = s \ {a} := by
    ext b
    simp only [Set.mem_sdiff, Set.mem_singleton_iff]
    constructor
    · rintro ⟨hb, hne⟩
      exact ⟨(h b hne).mpr hb, hne⟩
    · rintro ⟨hb, hne⟩
      exact ⟨(h b hne).mp hb, hne⟩
  have hcount : ∀ u : Set α, u.Finite → ∀ [Decidable (a ∈ u)],
      (u.ncard : Int) = (u \ {a}).ncard + (if a ∈ u then 1 else 0) := by
    intro u hu _
    split
    · next ha =>
        have hadd := Set.ncard_sdiff_singleton_add_one ha hu
        omega
    · next ha =>
        rw [Set.sdiff_singleton_eq_self ha]
        omega
  rw [hcount t ht, hcount s hs, hrest]
  omega

namespace FlushCore

/-- The user keys whose newest version is not a tombstone. -/
def liveKeys (core : FlushCore) : Set Key :=
  {k | kvPrefix <+: k ∧ ∃ c, core.chain k = some c ∧ c.latest.isSome = true}

/-- `kv_count`. -/
def kv_count (core : FlushCore) : Nat := (max core.kv_live 0).toNat

/-- The counter is right. -/
def Counts (core : FlushCore) : Prop := core.kv_live = core.liveKeys.ncard

theorem liveKeys_finite (core : FlushCore) : core.liveKeys.Finite := by
  refine Set.Finite.subset
    (List.finite_toSet ((List.finRange SHARD_COUNT).flatMap fun i => (core.shards i).keys)) ?_
  rintro k ⟨_, c, hc, _⟩
  refine List.mem_flatMap.mpr ⟨shard_of k, List.mem_finRange _, ?_⟩
  rw [Std.ExtTreeMap.mem_keys]
  exact Std.ExtTreeMap.mem_iff_isSome_getElem?.mpr (Option.isSome_of_eq_some hc)

theorem Counts.kv_count {core : FlushCore} (h : core.Counts) :
    core.kv_count = core.liveKeys.ncard := by
  rw [FlushCore.kv_count, h, Int.max_eq_left (Int.natCast_nonneg _), Int.toNat_natCast]

/-- The counter depends only on the chains. -/
theorem Counts.congr {core core' : FlushCore} (h : core.Counts) (hlive : core'.kv_live = core.kv_live)
    (hchain : ∀ k, core'.chain k = core.chain k) : core'.Counts := by
  rw [Counts, hlive, h]
  congr 2
  ext k
  simp only [liveKeys, Set.mem_ofPred_eq, hchain]

/-! ## Batches -/

/-- The store in the middle of the loop over the items of shard `i`. -/
def midway (core : FlushCore) (i : Fin SHARD_COUNT) (p : ShardPass) : FlushCore :=
  { core with shards := Function.update core.shards i p.data, kv_live := core.kv_live + p.delta }

theorem chain_midway (core : FlushCore) (i : Fin SHARD_COUNT) (p : ShardPass) (k : Key) :
    (core.midway i p).chain k = if shard_of k = i then p.data[k]? else core.chain k := by
  rw [chain]
  simp only [midway]
  by_cases hk : shard_of k = i
  · rw [if_pos hk, hk, Function.update_self]
  · rw [if_neg hk, Function.update_of_ne hk]
    rfl

/-- **One item** adds to the counter what it changes. -/
theorem Counts.applyItem {core : FlushCore} {i : Fin SHARD_COUNT} {p : ShardPass}
    (h : (core.midway i p).Counts) (active : List Nat) {m : Mutation} (hm : shard_of m.key = i) :
    (core.midway i (FlushCore.applyItem active p m)).Counts := by
  classical
  have hold : (core.midway i p).chain m.key = p.data[m.key]? := by
    rw [chain_midway, if_pos hm]
  have hnew : (core.midway i (FlushCore.applyItem active p m)).chain m.key =
      some ((p.data[m.key]?.getD Chain.default).push m.ts m.value active) := by
    rw [chain_midway, if_pos hm, FlushCore.applyItem, map_getElem?_insert, if_pos rfl]
  have hpoint := ncard_point (core.midway i p).liveKeys_finite
    (core.midway i (FlushCore.applyItem active p m)).liveKeys_finite m.key (by
      intro k hk
      have hchain : (core.midway i (FlushCore.applyItem active p m)).chain k =
          (core.midway i p).chain k := by
        rw [chain_midway, chain_midway, FlushCore.applyItem, map_getElem?_insert,
          if_neg (Ne.symm hk)]
      simp only [liveKeys, Set.mem_ofPred_eq, hchain])
  have hmemNew : m.key ∈ (core.midway i (FlushCore.applyItem active p m)).liveKeys ↔
      kvPrefix <+: m.key ∧
        ((p.data[m.key]?.getD Chain.default).push m.ts m.value active).latest.isSome = true := by
    simp only [liveKeys, Set.mem_ofPred_eq, hnew, Option.some.injEq, exists_eq_left']
  have hmemOld : m.key ∈ (core.midway i p).liveKeys ↔
      kvPrefix <+: m.key ∧ (p.data[m.key]?.getD Chain.default).latest.isSome = true := by
    simp only [liveKeys, Set.mem_ofPred_eq, hold]
    cases p.data[m.key]? with
    | none => simp [Chain.default, Chain.latest]
    | some c => simp
  rw [Counts, hpoint, ← h]
  simp only [hmemNew, hmemOld]
  simp only [midway, FlushCore.applyItem, boolInt, List.isPrefixOf_iff_prefix]
  by_cases hkv : kvPrefix <+: m.key
  · simp only [hkv, true_and, if_true]
    omega
  · simp only [hkv, false_and, if_false]
    omega

theorem Counts.applyItems {core : FlushCore} {i : Fin SHARD_COUNT} (active : List Nat)
    (muts : List Mutation) (hmuts : ∀ m ∈ muts, shard_of m.key = i) {p : ShardPass}
    (h : (core.midway i p).Counts) :
    (core.midway i (muts.foldl (FlushCore.applyItem active) p)).Counts := by
  induction muts generalizing p with
  | nil => exact h
  | cons m muts ih =>
      exact ih (fun m' hm' => hmuts m' (List.mem_cons_of_mem _ hm'))
        (h.applyItem active (hmuts m (List.mem_cons_self ..)))

/-- **The share of one shard.** -/
theorem Counts.apply_shard {core : FlushCore} (h : core.Counts) (i : Fin SHARD_COUNT)
    (muts : List Mutation) (active : List Nat) : (core.apply_shard i muts active).Counts := by
  have hstart : (core.midway i { data := core.shards i, delta := 0, dead := [] }).Counts := by
    refine h.congr (Int.add_zero _) fun k => ?_
    rw [chain_midway]
    split
    · next hk => rw [chain, hk]
    · rfl
  have hmuts : ∀ m ∈ itemsOf i muts, shard_of m.key = i := by
    intro m hm
    simpa [itemsOf] using (List.mem_filter.mp hm).2
  exact (hstart.applyItems active _ hmuts).congr rfl fun _ => rfl

theorem Counts.apply_refs_to_shards {core : FlushCore} (h : core.Counts) (muts : List Mutation) :
    (core.apply_refs_to_shards muts).Counts := by
  rw [FlushCore.apply_refs_to_shards]
  generalize List.finRange SHARD_COUNT = shards
  induction shards generalizing core with
  | nil => exact h
  | cons i shards ih => exact ih (h.apply_shard i muts _)

/-! ## Sweeps -/

/-- A chain that is removed ends in a tombstone. -/
theorem liveKeys_sweep_remove (core : FlushCore) (e : Key × Nat) :
    (core.sweep_remove e).liveKeys = core.liveKeys := by
  ext k
  simp only [liveKeys, Set.mem_ofPred_eq, chain_sweep_remove]
  by_cases hk : e.1 = k ∧ core.isDead e.1 e.2
  · rw [if_pos hk]
    obtain ⟨rfl, hdead⟩ := hk
    rw [isDead] at hdead
    cases hc : core.chain e.1 with
    | none => rfl
    | some c =>
        rw [hc] at hdead
        simp only [Bool.and_eq_true, Option.isNone_iff_eq_none] at hdead
        simp [hdead.1]
  · rw [if_neg hk]

theorem Counts.sweep_remove {core : FlushCore} (h : core.Counts) (e : Key × Nat) :
    (core.sweep_remove e).Counts := by
  have hlive : (core.sweep_remove e).kv_live = core.kv_live := by
    rw [FlushCore.sweep_remove]
    split <;> rfl
  rw [Counts, hlive, liveKeys_sweep_remove]
  exact h

theorem Counts.sweepLoop {core : FlushCore} (h : core.Counts) (max_removed : Nat)
    (ready : List (Key × Nat)) : (core.sweepLoop max_removed ready).1.Counts := by
  induction ready generalizing core max_removed with
  | nil => exact h
  | cons e ready ih => exact ih (h.sweep_remove e) _

theorem Counts.sweep_tombstones {core : FlushCore} (h : core.Counts) :
    core.sweep_tombstones.Counts := by
  rw [FlushCore.sweep_tombstones]
  simp only
  split
  · exact h
  · have hkeep : (core.sweepKeep core.sweepHorizon).Counts := h.congr rfl fun _ => rfl
    exact (hkeep.sweepLoop 0 (core.sweepReady core.sweepHorizon)).congr rfl fun _ => rfl

/-! ## FLUSHALL and opening -/

/-- What FLUSHALL does to the memory: every shard is cleared, and the counter set. -/
def flush_all (core : FlushCore) : FlushCore :=
  { (List.finRange SHARD_COUNT).foldl FlushCore.clear_shard core with kv_live := 0, graveyard := [] }

theorem clear_shards (core : FlushCore) (shards : List (Fin SHARD_COUNT)) (i : Fin SHARD_COUNT) :
    (shards.foldl FlushCore.clear_shard core).shards i =
      if i ∈ shards then ∅ else core.shards i := by
  induction shards generalizing core with
  | nil => rfl
  | cons j shards ih =>
      rw [List.foldl_cons, ih, FlushCore.clear_shard]
      by_cases hi : i ∈ shards
      · rw [if_pos hi, if_pos (List.mem_cons_of_mem _ hi)]
      · by_cases hj : i = j
        · subst hj
          simp [hi]
        · simp [hi, hj]

theorem counts_flush_all (core : FlushCore) : core.flush_all.Counts := by
  have hnone : core.flush_all.liveKeys = ∅ := by
    refine Set.eq_empty_iff_forall_notMem.mpr ?_
    rintro k ⟨_, c, hc, _⟩
    rw [chain] at hc
    simp [flush_all, clear_shards] at hc
  rw [Counts, hnone, Set.ncard_empty]
  rfl

/-- Recovery puts one record of the log in its place. -/
def replayRecord (data : Fin SHARD_COUNT → ShardMap) (m : Mutation) : Fin SHARD_COUNT → ShardMap :=
  let i := shard_of m.key
  Function.update data i
    ((data i).insert m.key (((data i)[m.key]?.getD Chain.default).push m.ts m.value []))

/-- Recovery puts one record of the snapshot in its place; the history before it is
gone. -/
def loadRecord (data : Fin SHARD_COUNT → ShardMap) (m : Mutation) : Fin SHARD_COUNT → ShardMap :=
  let i := shard_of m.key
  let chain := (data i)[m.key]?.getD Chain.default
  let chain := { chain with pruned_ts := max chain.pruned_ts (max (m.ts - 1) 1) }
  Function.update data i ((data i).insert m.key (chain.push m.ts m.value []))

/-- `Engine::open`: the snapshot, the logs behind it, and a count of what is live. -/
def openCore (snapshot logs : List Mutation) : FlushCore :=
  let loaded := logs.foldl replayRecord (snapshot.foldl loadRecord fun _ => ∅)
  let shards : Fin SHARD_COUNT → ShardMap := fun i =>
    (loaded i).filter fun _ c => c.latest.isSome
  let dropped := (List.finRange SHARD_COUNT).flatMap fun i =>
    (loaded i).toList.filter fun e => !e.2.latest.isSome
  let max_ts := (snapshot ++ logs).foldl (fun ts m => max ts m.ts) 0
  { shards := shards
    visible_ts := max_ts
    kv_live := ((List.finRange SHARD_COUNT).map fun i =>
      (((shards i).toList.filter fun e =>
        inRange kvPrefix [0x6b, 0x76, 0x3b] e.1 && e.2.latest.isSome).length : Int)).sum
    active := ∅
    graveyard := []
    gc_horizon := dropped.foldl (fun ts e => max ts e.2.latest_ts) 0
    last_appended := max_ts }

/-- Keys stand in their own shards. -/
def Own (data : Fin SHARD_COUNT → ShardMap) : Prop :=
  ∀ (i : Fin SHARD_COUNT) (k : Key) (c : Chain), (data i)[k]? = some c → shard_of k = i

theorem Own.insert {data : Fin SHARD_COUNT → ShardMap} (h : Own data) (k : Key) (c : Chain) :
    Own (Function.update data (shard_of k) ((data (shard_of k)).insert k c)) := by
  intro i a d hd
  by_cases hi : i = shard_of k
  · subst hi
    rw [Function.update_self, map_getElem?_insert] at hd
    split at hd
    · next heq => rw [heq]
    · exact h _ a d hd
  · rw [Function.update_of_ne hi] at hd
    exact h i a d hd

theorem own_loaded (snapshot logs : List Mutation) :
    Own (logs.foldl replayRecord (snapshot.foldl loadRecord fun _ => ∅)) := by
  have hfold : ∀ (f : (Fin SHARD_COUNT → ShardMap) → Mutation → Fin SHARD_COUNT → ShardMap),
      (∀ data m, Own data → Own (f data m)) → ∀ (muts : List Mutation) data, Own data →
        Own (muts.foldl f data) := by
    intro f hf muts
    induction muts with
    | nil => exact fun _ h => h
    | cons m muts ih => exact fun data h => ih _ (hf data m h)
  refine hfold _ (fun _ _ h => h.insert _ _) logs _ (hfold _ (fun _ _ h => h.insert _ _) snapshot _ ?_)
  intro i k c hc
  simp at hc

/-- The range from `kv:` to `kv;` has the user keys. -/
theorem inRange_kv (k : Key) : inRange kvPrefix [0x6b, 0x76, 0x3b] k = true ↔ kvPrefix <+: k := by
  have hend : above kvPrefix = some [0x6b, 0x76, 0x3b] := by decide
  rw [prefix_iff_above, hend, inRange]
  simp

/-- The live user keys of one shard. -/
def liveIn (data : ShardMap) : List Key :=
  (data.toList.filter fun e =>
    inRange kvPrefix [0x6b, 0x76, 0x3b] e.1 && e.2.latest.isSome).map Prod.fst

theorem mem_liveIn {data : ShardMap} {k : Key} :
    k ∈ liveIn data ↔ kvPrefix <+: k ∧ ∃ c, data[k]? = some c ∧ c.latest.isSome = true := by
  simp only [liveIn, List.mem_map, List.mem_filter, Bool.and_eq_true, inRange_kv,
    Std.ExtTreeMap.mem_toList_iff_getElem?_eq_some, Prod.exists]
  constructor
  · rintro ⟨k, c, ⟨hc, hkv, hlive⟩, rfl⟩
    exact ⟨hkv, c, hc, hlive⟩
  · rintro ⟨hkv, c, hc, hlive⟩
    exact ⟨k, c, ⟨hc, hkv, hlive⟩, rfl⟩

theorem nodup_liveIn (data : ShardMap) : (liveIn data).Nodup := by
  rw [liveIn, List.Nodup, List.pairwise_map]
  exact ((keySorted_toList data).filter _).imp KeyLt.key_ne

/-- Counting shard by shard counts every key once. -/
theorem ncard_liveKeys {core : FlushCore} (h : Own core.shards) :
    core.liveKeys.ncard = ((List.finRange SHARD_COUNT).map fun i =>
      (liveIn (core.shards i)).length).sum := by
  have hkeys : core.liveKeys =
      ((List.finRange SHARD_COUNT).flatMap fun i => liveIn (core.shards i)).toFinset := by
    ext k
    simp only [liveKeys, Set.mem_ofPred_eq, Finset.mem_coe, List.mem_toFinset, List.mem_flatMap,
      mem_liveIn]
    constructor
    · rintro ⟨hkv, c, hc, hlive⟩
      exact ⟨shard_of k, List.mem_finRange _, hkv, c, hc, hlive⟩
    · rintro ⟨i, _, hkv, c, hc, hlive⟩
      refine ⟨hkv, c, ?_, hlive⟩
      rw [chain, h i k c hc]
      exact hc
  have hnodup : ((List.finRange SHARD_COUNT).flatMap fun i => liveIn (core.shards i)).Nodup := by
    refine List.nodup_flatMap.mpr ⟨fun i _ => nodup_liveIn _, ?_⟩
    refine (List.nodup_finRange _).imp fun {i j} hne k hi hj => hne ?_
    obtain ⟨_, c, hc, _⟩ := mem_liveIn.mp hi
    obtain ⟨_, c', hc', _⟩ := mem_liveIn.mp hj
    rw [← h i k c hc, h j k c' hc']
  rw [hkeys, Set.ncard_coe_finset, List.toFinset_card_of_nodup hnodup, List.length_flatMap]

/-- A store that was opened counts what is live. -/
theorem counts_openCore (snapshot logs : List Mutation) : (openCore snapshot logs).Counts := by
  have hown : Own (openCore snapshot logs).shards := by
    intro i k c hc
    simp only [openCore, Std.ExtTreeMap.getElem?_filter', Option.filter_eq_some_iff] at hc
    exact own_loaded snapshot logs i k c hc.1
  rw [Counts, ncard_liveKeys hown, Nat.cast_list_sum, List.map_map]
  simp [openCore, liveIn, Function.comp_def]

end FlushCore

/-! ## Sequences of operations -/

/-- What changes the store or decides what a batch or a sweep does to it. -/
inductive LiveOp where
  | commit (muts : List Mutation)
  | publish (ts : Nat)
  | register (snapshot : Nat)
  | unregister (snapshot : Nat)
  | sweep
  | flush_all
  | reopen (snapshot logs : List Mutation)

namespace FlushCore

def runOp (core : FlushCore) : LiveOp → FlushCore
  | .commit muts => core.apply_refs_to_shards muts
  | .publish ts => { core with visible_ts := max core.visible_ts ts }
  | .register snapshot => core.register snapshot
  | .unregister snapshot => core.unregister snapshot
  | .sweep => core.sweep_tombstones
  | .flush_all => core.flush_all
  | .reopen snapshot logs => openCore snapshot logs

theorem Counts.runOp {core : FlushCore} (h : core.Counts) (op : LiveOp) : (core.runOp op).Counts := by
  cases op with
  | commit muts => exact h.apply_refs_to_shards muts
  | publish ts => exact h.congr rfl fun _ => rfl
  | register snapshot => exact h.congr rfl fun _ => rfl
  | unregister snapshot =>
      rw [FlushCore.runOp, FlushCore.unregister]
      split
      · exact h
      · split <;> exact h.congr rfl fun _ => rfl
  | sweep => exact h.sweep_tombstones
  | flush_all => exact counts_flush_all core
  | reopen snapshot logs => exact counts_openCore snapshot logs

theorem Counts.run {core : FlushCore} (h : core.Counts) (ops : List LiveOp) :
    (ops.foldl FlushCore.runOp core).Counts := by
  induction ops generalizing core with
  | nil => exact h
  | cons op ops ih => exact ih (h.runOp op)

end FlushCore
end StrikeDB
