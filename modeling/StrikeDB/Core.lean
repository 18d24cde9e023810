import StrikeDB.Chain

/-!
# StrikeDB: the sharded keyspace

`FlushCore` of `engine.rs`: 32 maps from keys to version chains, and what the
commit path keeps beside them.  The functions here are those that run under one
shard lock or one other lock; how threads interleave them is for the modules
that build transition systems from them.

The lemmas say, for each operation, what it does to the chain of an arbitrary
key (`chain_apply_shard`, `chain_sweep_remove`), so that later proofs need not
open the maps.
-/

namespace StrikeDB

/-- Number of independent shard maps. -/
abbrev SHARD_COUNT : Nat := 32

/-- FNV-1a of a byte string. -/
def fnv1a (bytes : Bytes) : UInt64 :=
  bytes.foldl (fun (h : UInt64) b => (h ^^^ b.toUInt64) * 0x100000001b3) 0xcbf29ce484222325

/-- The bytes that choose the shard: those inside the first `{...}`, if that is
closed and not empty, otherwise the whole key. -/
def hashInput (key : Key) : Bytes :=
  let rest := (key.dropWhile (fun b => b ≠ 0x7b)).drop 1
  let tag := rest.takeWhile (fun b => b ≠ 0x7d)
  if (0x7b ∈ key) ∧ (0x7d ∈ rest) ∧ tag ≠ [] then tag else key

/-- Shard selection for a key. -/
def shard_of (key : Key) : Fin SHARD_COUNT :=
  ⟨((fnv1a (hashInput key)) &&& 31).toNat % SHARD_COUNT, Nat.mod_lt _ (by decide)⟩

abbrev ShardMap := Std.ExtTreeMap Key Chain

/-- Everything the commit path touches in memory. -/
structure FlushCore where
  shards : Fin SHARD_COUNT → ShardMap
  /-- Every commit with ts at most this has been applied. -/
  visible_ts : Nat
  /-- Live `kv:` key count. -/
  kv_live : Int
  /-- Snapshots held by open readers (snapshot → count). -/
  active : Std.ExtTreeMap Nat Nat
  /-- Keys whose newest version is a tombstone, with that tombstone's ts. -/
  graveyard : List (Key × Nat)
  /-- Newest tombstone ts whose chain was physically removed. -/
  gc_horizon : Nat
  /-- Highest commit ts written to the log so far. -/
  last_appended : Nat

/-- The prefix of user keys. -/
def kvPrefix : Bytes := [0x6b, 0x76, 0x3a]

def boolInt (b : Bool) : Int := if b then 1 else 0

/-- The state of the loop over the items of one shard: its map, the change of
the live-key count, the keys that now end in a tombstone. -/
structure ShardPass where
  data : ShardMap
  delta : Int
  dead : List (Key × Nat)

namespace FlushCore

/-- The chain of a key, if there is one. -/
def chain (core : FlushCore) (key : Key) : Option Chain := (core.shards (shard_of key))[key]?

/-- One item of the loop in `apply_refs_to_shards`. -/
def applyItem (active : List Nat) (p : ShardPass) (m : Mutation) : ShardPass :=
  let old := p.data[m.key]?.getD Chain.default
  let new := old.push m.ts m.value active
  { data := p.data.insert m.key new
    delta :=
      if kvPrefix.isPrefixOf m.key then
        p.delta + (boolInt new.latest.isSome - boolInt old.latest.isSome)
      else p.delta
    dead := if new.latest.isSome then p.dead else p.dead ++ [(m.key, new.latest_ts)] }

/-- The mutations of a batch that fall into shard `i`. -/
def itemsOf (i : Fin SHARD_COUNT) (muts : List Mutation) : List Mutation :=
  muts.filter fun m => shard_of m.key = i

/-- What `apply_refs_to_shards` does under the write lock of shard `i`, with the
list of open snapshots that it read there. -/
def apply_shard (core : FlushCore) (i : Fin SHARD_COUNT) (muts : List Mutation)
    (active : List Nat) : FlushCore :=
  let p := (itemsOf i muts).foldl (applyItem active)
    { data := core.shards i, delta := 0, dead := [] }
  { core with
    shards := Function.update core.shards i p.data
    kv_live := core.kv_live + p.delta
    graveyard := core.graveyard ++ p.dead }

/-- `active.lock().keys()`: the open snapshots, sorted. -/
def openSnapshots (core : FlushCore) : List Nat := core.active.keys

/-- Apply committed mutations, one shard after the other. -/
def apply_refs_to_shards (core : FlushCore) (muts : List Mutation) : FlushCore :=
  (List.finRange SHARD_COUNT).foldl
    (fun core i => core.apply_shard i muts core.openSnapshots) core

/-- Register a snapshot as open. -/
def register (core : FlushCore) (s : Nat) : FlushCore :=
  { core with active := core.active.insert s (core.active[s]?.getD 0 + 1) }

/-- Give a registered snapshot back. -/
def unregister (core : FlushCore) (s : Nat) : FlushCore :=
  match core.active[s]? with
  | none => core
  | some c =>
      if c - 1 = 0 then { core with active := core.active.erase s }
      else { core with active := core.active.insert s (c - 1) }

/-- The horizon of a sweep: every open and every future snapshot is at least this. -/
def sweepHorizon (core : FlushCore) : Nat :=
  match core.openSnapshots with
  | [] => core.visible_ts
  | m :: _ => min m core.visible_ts

/-- The graveyard entries that a sweep with this horizon may remove. -/
def sweepReady (core : FlushCore) (horizon : Nat) : List (Key × Nat) :=
  core.graveyard.filter fun e => e.2 ≤ horizon

/-- Leave only the graveyard entries that a sweep with this horizon keeps. -/
def sweepKeep (core : FlushCore) (horizon : Nat) : FlushCore :=
  { core with graveyard := core.graveyard.filter fun e => ¬ e.2 ≤ horizon }

/-- Is the chain of `k` still the tombstone of `ts`? -/
def isDead (core : FlushCore) (k : Key) (ts : Nat) : Bool :=
  match core.chain k with
  | none => false
  | some c => c.latest.isNone && c.latest_ts = ts

/-- Physically remove the chain of one graveyard entry, if it is still dead. -/
def sweep_remove (core : FlushCore) (e : Key × Nat) : FlushCore :=
  if core.isDead e.1 e.2 then
    { core with
      shards := Function.update core.shards (shard_of e.1)
        ((core.shards (shard_of e.1)).erase e.1) }
  else core

/-- The loop over the ready entries: the core, and the newest tombstone removed. -/
def sweepLoop (core : FlushCore) (max_removed : Nat) :
    List (Key × Nat) → FlushCore × Nat
  | [] => (core, max_removed)
  | e :: es =>
      sweepLoop (core.sweep_remove e)
        (if core.isDead e.1 e.2 then max max_removed e.2 else max_removed) es

/-- Remove chains whose newest version is a tombstone that every open snapshot
already sees. -/
def sweep_tombstones (core : FlushCore) : FlushCore :=
  let horizon := core.sweepHorizon
  if core.graveyard = [] then core
  else
    let r := sweepLoop (core.sweepKeep horizon) 0 (core.sweepReady horizon)
    { r.1 with gc_horizon := max r.1.gc_horizon r.2 }

/-- `sh.write().unwrap().clear()`. -/
def clear_shard (core : FlushCore) (i : Fin SHARD_COUNT) : FlushCore :=
  { core with shards := Function.update core.shards i ∅ }

/-! ### Reads -/

/-- Point read as of `snapshot`. -/
def get_at (core : FlushCore) (key : Key) (snapshot : Nat) : Option Value :=
  (core.chain key).bind fun c => c.visible snapshot

/-- Like `get_at`, but an error when `snapshot` predates the retained history. -/
def get_at_checked (core : FlushCore) (key : Key) (snapshot : Nat) :
    Except Unit (Option Value) :=
  match core.chain key with
  | none => if snapshot < core.gc_horizon then .error () else .ok none
  | some c =>
      if c.first_ts > 0 ∧ snapshot < c.first_ts then .ok none
      else
        let oldest := (c.versions.head?.map Version.ts).getD (2 ^ 64 - 1)
        if c.pruned_ts > 0 ∧ snapshot < oldest then .error ()
        else .ok (c.visible snapshot)

/-- Commit ts of the newest version of `key` (0 if never written). -/
def key_version (core : FlushCore) (key : Key) : Nat :=
  match core.chain key with
  | none => 0
  | some c => c.latest_ts

/-- Current value of a key. -/
def latestValue (core : FlushCore) (key : Key) : Option Value :=
  (core.chain key).bind Chain.latest

/-- `start <= k && k < end`. -/
def inRange (start stop k : Key) : Bool :=
  (compare start k).isLE && (compare k stop).isLT

/-- The live pairs of one shard in `[start, end)` as of `snapshot`, in key order. -/
def scanShard (core : FlushCore) (i : Fin SHARD_COUNT) (start stop : Key) (snapshot : Nat) :
    List (Key × Value) :=
  ((core.shards i).toList.filter fun e => inRange start stop e.1).filterMap fun e =>
    (e.2.visible snapshot).map fun v => (e.1, v)

/-- Range scan `[start, end)`: every shard's pairs, merged in key order. -/
def scan (core : FlushCore) (start stop : Key) (snapshot : Nat) : List (Key × Value) :=
  ((List.finRange SHARD_COUNT).flatMap fun i => core.scanShard i start stop snapshot).mergeSort
    fun a b => (compare a.1 b.1).isLE

/-! ### What the operations do to one chain -/

theorem map_getElem?_insert
    {β : Type} (t : Std.ExtTreeMap Key β) (k a : Key) (v : β) :
    (t.insert k v)[a]? = if k = a then some v else t[a]? := by
  rw [Std.ExtTreeMap.getElem?_insert]
  simp only [Std.LawfulEqCmp.compare_eq_iff_eq]

theorem map_getElem?_erase
    {β : Type} (t : Std.ExtTreeMap Key β) (k a : Key) :
    (t.erase k)[a]? = if k = a then none else t[a]? := by
  rw [Std.ExtTreeMap.getElem?_erase]
  simp only [Std.LawfulEqCmp.compare_eq_iff_eq]

/-- The pushes of a list of mutations that concern one key. -/
def pushAll (active : List Nat) (k : Key) (c : Option Chain) (muts : List Mutation) :
    Option Chain :=
  (muts.filter fun m => m.key = k).foldl
    (fun c m => some ((c.getD Chain.default).push m.ts m.value active)) c

@[simp] theorem pushAll_nil (active : List Nat) (k : Key) (c : Option Chain) :
    pushAll active k c [] = c := rfl

theorem pushAll_cons
    (active : List Nat) (k : Key) (c : Option Chain) (m : Mutation) (muts : List Mutation) :
    pushAll active k c (m :: muts) =
      pushAll active k
        (if m.key = k then some ((c.getD Chain.default).push m.ts m.value active) else c)
        muts := by
  unfold pushAll
  by_cases h : m.key = k <;> simp [h]

theorem pushAll_append
    (active : List Nat) (k : Key) (c : Option Chain) (ms ms' : List Mutation) :
    pushAll active k c (ms ++ ms') = pushAll active k (pushAll active k c ms) ms' := by
  simp [pushAll]

/-- Keys that a list of mutations does not write keep their chain. -/
theorem pushAll_of_not_mem
    (active : List Nat) {k : Key} (c : Option Chain) {muts : List Mutation}
    (h : ∀ m ∈ muts, m.key ≠ k) :
    pushAll active k c muts = c := by
  have : muts.filter (fun m => m.key = k) = [] := by
    rw [List.filter_eq_nil_iff]
    intro m hm
    simpa using h m hm
  simp [pushAll, this]

theorem pushAll_eq_none
    {active : List Nat} {k : Key} {muts : List Mutation} {c : Option Chain}
    (h : pushAll active k c muts = none) :
    c = none ∧ ∀ m ∈ muts, m.key ≠ k := by
  induction muts generalizing c with
  | nil => exact ⟨h, by simp⟩
  | cons m muts ih =>
      rw [pushAll_cons] at h
      obtain ⟨hc, hmuts⟩ := ih h
      by_cases hk : m.key = k
      · simp [hk] at hc
      · rw [if_neg hk] at hc
        refine ⟨hc, ?_⟩
        intro m' hm'
        rcases List.mem_cons.mp hm' with rfl | hm'
        · exact hk
        · exact hmuts m' hm'

/-- A version of the new chain was pushed or was there before. -/
theorem mem_pushAll
    {active : List Nat} {k : Key} {muts : List Mutation} {c : Option Chain} {d : Chain}
    (hd : pushAll active k c muts = some d) {v : Version} (hv : v ∈ d.versions) :
    (∃ m ∈ muts, v = ⟨m.ts, m.value⟩) ∨ ∃ c', c = some c' ∧ v ∈ c'.versions := by
  induction muts generalizing c with
  | nil => exact Or.inr ⟨d, hd, hv⟩
  | cons m muts ih =>
      rw [pushAll_cons] at hd
      rcases ih hd with ⟨m', hm', rfl⟩ | ⟨c', hc', hv'⟩
      · exact Or.inl ⟨m', List.mem_cons_of_mem _ hm', rfl⟩
      · by_cases hk : m.key = k
        · rw [if_pos hk] at hc'
          rw [← Option.some.inj hc'] at hv'
          rcases Chain.mem_push hv' with rfl | hv'
          · exact Or.inl ⟨m, by simp, rfl⟩
          · cases c with
            | none => simp [Chain.default] at hv'
            | some c => exact Or.inr ⟨c, rfl, hv'⟩
        · rw [if_neg hk] at hc'
          exact Or.inr ⟨c', hc', hv'⟩

theorem foldl_applyItem_data
    (active : List Nat) (muts : List Mutation) (p : ShardPass) (k : Key) :
    (muts.foldl (applyItem active) p).data[k]? = pushAll active k p.data[k]? muts := by
  induction muts generalizing p with
  | nil => rfl
  | cons m muts ih =>
      rw [List.foldl_cons, ih, pushAll_cons]
      congr 1
      simp only [applyItem]
      rw [map_getElem?_insert]
      by_cases h : m.key = k
      · rw [if_pos h, if_pos h, h]
      · rw [if_neg h, if_neg h]

theorem pushAll_itemsOf
    (active : List Nat) (k : Key) (c : Option Chain) (muts : List Mutation) :
    pushAll active k c (itemsOf (shard_of k) muts) = pushAll active k c muts := by
  unfold pushAll itemsOf
  rw [List.filter_filter]
  congr 1
  apply List.filter_congr
  intro m _
  by_cases h : m.key = k
  · simp [h]
  · simp [h]

/-- Applying a batch to one shard pushes its mutations on the keys there. -/
theorem chain_apply_shard
    (core : FlushCore) (i : Fin SHARD_COUNT) (muts : List Mutation) (active : List Nat)
    (k : Key) :
    (core.apply_shard i muts active).chain k =
      if shard_of k = i then pushAll active k (core.chain k) muts else core.chain k := by
  unfold chain apply_shard
  by_cases h : shard_of k = i
  · subst h
    rw [if_pos rfl]
    simp only [Function.update_self]
    rw [foldl_applyItem_data, pushAll_itemsOf]
  · rw [if_neg h]
    simp only [Function.update_of_ne h]

@[simp] theorem apply_shard_visible_ts
    (core : FlushCore) (i : Fin SHARD_COUNT) (muts : List Mutation) (active : List Nat) :
    (core.apply_shard i muts active).visible_ts = core.visible_ts := rfl

@[simp] theorem apply_shard_active
    (core : FlushCore) (i : Fin SHARD_COUNT) (muts : List Mutation) (active : List Nat) :
    (core.apply_shard i muts active).active = core.active := rfl

theorem chain_clear_shard (core : FlushCore) (i : Fin SHARD_COUNT) (k : Key) :
    (core.clear_shard i).chain k = if shard_of k = i then none else core.chain k := by
  unfold chain clear_shard
  by_cases h : shard_of k = i
  · rw [if_pos h]
    simp [h]
  · rw [if_neg h]
    simp only [Function.update_of_ne h]

theorem chain_sweep_remove (core : FlushCore) (e : Key × Nat) (k : Key) :
    (core.sweep_remove e).chain k =
      if e.1 = k ∧ core.isDead e.1 e.2 then none else core.chain k := by
  unfold sweep_remove
  by_cases hd : core.isDead e.1 e.2
  · rw [if_pos hd]
    unfold chain
    simp only
    by_cases hk : e.1 = k
    · subst hk
      rw [if_pos ⟨rfl, hd⟩, Function.update_self, map_getElem?_erase, if_pos rfl]
    · rw [if_neg fun h => hk h.1]
      by_cases hs : shard_of k = shard_of e.1
      · rw [hs, Function.update_self, map_getElem?_erase, if_neg hk]
      · rw [Function.update_of_ne hs]
  · rw [if_neg hd, if_neg fun h => hd h.2]

@[simp] theorem sweep_remove_visible_ts (core : FlushCore) (e : Key × Nat) :
    (core.sweep_remove e).visible_ts = core.visible_ts := by
  unfold sweep_remove
  split <;> rfl

@[simp] theorem sweep_remove_active (core : FlushCore) (e : Key × Nat) :
    (core.sweep_remove e).active = core.active := by
  unfold sweep_remove
  split <;> rfl

@[simp] theorem sweep_remove_graveyard (core : FlushCore) (e : Key × Nat) :
    (core.sweep_remove e).graveyard = core.graveyard := by
  unfold sweep_remove
  split <;> rfl

/-- A chain that is dead ends in a tombstone of exactly that timestamp. -/
theorem isDead_iff (core : FlushCore) (k : Key) (ts : Nat) :
    core.isDead k ts = true ↔
      ∃ c, core.chain k = some c ∧ c.latest = none ∧ c.latest_ts = ts := by
  unfold isDead
  cases core.chain k with
  | none => simp
  | some c => simp

/-! ### Open snapshots -/

theorem openSnapshots_sorted (core : FlushCore) :
    core.openSnapshots.Pairwise (· < ·) := by
  have h := Std.ExtTreeMap.ordered_keys (t := core.active)
  refine h.imp ?_
  intro a b hab
  exact Nat.compare_eq_lt.mp hab

theorem mem_openSnapshots (core : FlushCore) (s : Nat) :
    s ∈ core.openSnapshots ↔ s ∈ core.active := by
  unfold openSnapshots
  rw [Std.ExtTreeMap.mem_keys]

/-- The horizon of a sweep is at most every open snapshot. -/
theorem sweepHorizon_le_of_mem
    {core : FlushCore} {s : Nat} (h : s ∈ core.openSnapshots) :
    core.sweepHorizon ≤ s := by
  have hsorted := core.openSnapshots_sorted
  unfold sweepHorizon
  cases hl : core.openSnapshots with
  | nil => rw [hl] at h; simp at h
  | cons m rest =>
      rw [hl] at h hsorted
      rw [List.pairwise_cons] at hsorted
      simp only
      rcases List.mem_cons.mp h with rfl | h
      · omega
      · have := hsorted.1 s h
        omega

theorem sweepHorizon_le_visible_ts (core : FlushCore) :
    core.sweepHorizon ≤ core.visible_ts := by
  unfold sweepHorizon
  cases core.openSnapshots with
  | nil => exact le_rfl
  | cons m rest => exact Nat.min_le_right _ _

theorem mem_active_register (core : FlushCore) (s t : Nat) :
    t ∈ (core.register s).active ↔ t = s ∨ t ∈ core.active := by
  unfold register
  simp only [Std.ExtTreeMap.mem_insert, Std.LawfulEqCmp.compare_eq_iff_eq]
  tauto

end FlushCore
end StrikeDB
