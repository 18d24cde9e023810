import StrikeDB.CheckpointRuns
import StrikeDB.Compaction
import StrikeDB.Disk
import StrikeDB.LiveCount

/-!
# StrikeDB: what a start reads

`Engine::open` reads the snapshot, the segment that a checkpoint has rotated away
and the live log, in this order, and pushes whatever it finds.  The files may hold
several copies of a commit, and older commits behind newer ones.

**Results.**
* `Chain.push_pruned`: a note about pruned history does not change what a chain holds.
* `holds_loaded`: the shards hold the newest record of each key, in whatever order the
  records are read.
* `merged_of_covers`: these are the newest writes of every keyspace that the records cover.
* `opened`: the store that is opened on a set of files.
-/

namespace StrikeDB

instance : Compaction.Stamped Mutation Key where
  key := Mutation.key
  stamp := Mutation.ts
  Gone m := m.value.isLive = false

/-! ## The newest record of each key -/

namespace Keyspace

/-- The newest write of a key as a record. -/
def newest (ks : Keyspace) (k : Key) : Option Mutation :=
  ks[k]?.map fun w => { key := k, value := w.2, ts := w.1 }

/-- A record counts unless a newer one is there. -/
def merge (ks : Keyspace) (m : Mutation) : Keyspace :=
  match ks[m.key]? with
  | some w => if m.ts < w.1 then ks else ks.write m
  | none => ks.write m

def merged (ms : List Mutation) : Keyspace := ms.foldl merge ∅

variable {ks : Keyspace}

theorem newest_eq_some {k : Key} {m : Mutation} :
    ks.newest k = some m ↔ m.key = k ∧ ks[k]? = some (m.ts, m.value) := by
  rw [newest, Option.map_eq_some_iff]
  constructor
  · rintro ⟨w, hw, rfl⟩
    exact ⟨rfl, hw⟩
  · rintro ⟨rfl, hw⟩
    exact ⟨_, hw, rfl⟩

theorem newest_write (ks : Keyspace) (m : Mutation) :
    (ks.write m).newest = Compaction.written ks.newest m := by
  funext k
  by_cases hk : m.key = k
  · subst hk
    rw [show m.key = Compaction.Stamped.key m from rfl, Compaction.written_self]
    exact newest_eq_some.mpr ⟨rfl, by rw [getElem?_write]; exact if_pos rfl⟩
  · rw [Compaction.written_of_ne hk, newest, newest, getElem?_write, if_neg hk]

theorem newest_commit (ms : List Mutation) (ks : Keyspace) :
    (ks.commit ms).newest = ms.foldl Compaction.written ks.newest := by
  induction ms generalizing ks with
  | nil => rfl
  | cons m ms ih => rw [commit_cons, ih, newest_write, List.foldl_cons]

theorem getElem?_merge_of_ne {m : Mutation} {k : Key} (h : m.key ≠ k) :
    (ks.merge m)[k]? = ks[k]? := by
  rw [merge]
  split
  · split
    · rfl
    · rw [getElem?_write, if_neg h]
  · rw [getElem?_write, if_neg h]

theorem getElem?_merge_self (ks : Keyspace) (m : Mutation) :
    (ks.merge m)[m.key]? =
      if ∃ w, ks[m.key]? = some w ∧ m.ts < w.1 then ks[m.key]? else some (m.ts, m.value) := by
  rw [merge]
  cases hw : ks[m.key]? with
  | none =>
      rw [if_neg (by simp)]
      exact (getElem?_write ks m m.key).trans (if_pos rfl)
  | some w =>
      by_cases hlt : m.ts < w.1
      · rw [if_pos ⟨w, rfl, hlt⟩]
        simp only [if_pos hlt]
        exact hw
      · rw [if_neg (by rintro ⟨_, heq, hlt'⟩; cases heq; exact hlt hlt')]
        simp only [if_neg hlt]
        exact (getElem?_write ks m m.key).trans (if_pos rfl)

/-- What a key holds after some records: one of them that no other is newer than. -/
structure MergedFrom (ks : Keyspace) (ms : List Mutation) : Prop where
  mem : ∀ k m, ks.newest k = some m → m ∈ ms
  newest : ∀ m ∈ ms, ∃ w, ks[m.key]? = some w ∧ m.ts ≤ w.1

theorem MergedFrom.merge {ms : List Mutation} (h : ks.MergedFrom ms) (m : Mutation) :
    (ks.merge m).MergedFrom (ms ++ [m]) where
  mem := by
    intro k x hx
    obtain ⟨rfl, hw⟩ := newest_eq_some.mp hx
    by_cases hk : m.key = x.key
    · rw [← hk, getElem?_merge_self] at hw
      split at hw
      · exact List.mem_append_left _ (h.mem m.key x (newest_eq_some.mpr ⟨hk.symm, hw⟩))
      · have hxm : x = m := by
          obtain ⟨k, v, t⟩ := x
          obtain ⟨k', v', t'⟩ := m
          cases hk
          cases hw
          rfl
        rw [hxm]
        exact List.mem_append_right _ (List.mem_singleton_self m)
    · rw [getElem?_merge_of_ne hk] at hw
      exact List.mem_append_left _ (h.mem x.key x (newest_eq_some.mpr ⟨rfl, hw⟩))
  newest := by
    intro x hx
    by_cases hk : m.key = x.key
    · rw [← hk, getElem?_merge_self]
      have hold : ∀ w, ks[m.key]? = some w → x ∈ ms → x.ts ≤ w.1 := by
        intro w hw hmem
        obtain ⟨w', hw', hle⟩ := h.newest x hmem
        rw [← hk, hw, Option.some.injEq] at hw'
        exact hw' ▸ hle
      split
      · next hlt =>
          obtain ⟨w, hw, hlt⟩ := hlt
          refine ⟨w, hw, ?_⟩
          rcases List.mem_append.mp hx with hmem | hmem
          · exact hold w hw hmem
          · rw [List.mem_singleton.mp hmem]
            exact hlt.le
      · next hnot =>
          refine ⟨_, rfl, ?_⟩
          rcases List.mem_append.mp hx with hmem | hmem
          · obtain ⟨w, hw, hle⟩ := h.newest x hmem
            rw [← hk] at hw
            have hge : w.1 ≤ m.ts := Nat.le_of_not_lt fun hlt => hnot ⟨w, hw, hlt⟩
            exact hle.trans hge
          · rw [List.mem_singleton.mp hmem]
    · rw [getElem?_merge_of_ne hk]
      refine h.newest x ?_
      rcases List.mem_append.mp hx with hmem | hmem
      · exact hmem
      · exact absurd (by rw [List.mem_singleton.mp hmem]) hk

theorem mergedFrom_merged (ms : List Mutation) : (merged ms).MergedFrom ms := by
  have hgen : ∀ (ms pre : List Mutation) (ks : Keyspace), ks.MergedFrom pre →
      (ms.foldl merge ks).MergedFrom (pre ++ ms) := by
    intro ms
    induction ms with
    | nil =>
        intro pre ks h
        rw [List.append_nil]
        exact h
    | cons m ms ih =>
        intro pre ks h
        have hall := ih (pre ++ [m]) _ (h.merge m)
        rw [List.append_assoc] at hall
        exact hall
  exact hgen ms [] ∅ ⟨by simp [newest], by simp⟩

/-- The records that cover a keyspace determine what its keys hold. -/
theorem merged_of_covers {sure found : List Mutation}
    (h : Compaction.Covers ks.newest sure []) (hsub : sure ⊆ found) (hle : found ⊆ sure) :
    (∀ k, (merged found).value k = ks.value k) ∧
      Compaction.Covers (merged found).newest found [] := by
  have hmerged := mergedFrom_merged found
  have hsure : found ⊆ sure ++ [] := by
    rw [List.append_nil]
    exact hle
  have hkey : ∀ k, (∃ w ∈ found, ks.newest k = some w ∧ (merged found).newest k = some w ∧
      ∀ r ∈ found, r.key = k → r = w ∨ r.ts < w.ts) ∨
      ((∀ r ∈ found, r.key ≠ k) ∧ ∀ w, ks.newest k = some w → w.value.isLive = false) := by
    intro k
    rcases h.read hsub hsure k with ⟨w, hw, hnew, rfl, hold⟩ | hnone
    · refine Or.inl ⟨w, hw, hnew, ?_, hold⟩
      obtain ⟨u, hu, hle'⟩ := hmerged.newest w hw
      have hfound : (merged found).newest w.key =
          some { key := w.key, value := u.2, ts := u.1 } := newest_eq_some.mpr ⟨rfl, hu⟩
      rcases hold _ (hmerged.mem _ _ hfound) rfl with heq | hlt
      · rw [heq] at hfound
        exact hfound
      · exact absurd hle' (Nat.not_le_of_lt hlt)
    · exact Or.inr hnone
  have hnone : ∀ k, (∀ r ∈ found, r.key ≠ k) → (merged found).newest k = none := by
    intro k hk
    rw [Option.eq_none_iff_forall_ne_some]
    intro m hm
    exact hk m (hmerged.mem k m hm) (newest_eq_some.mp hm).1
  refine ⟨?_, ?_, ?_, ?_⟩
  · intro k
    rcases hkey k with ⟨w, _, hnew, hnew', _⟩ | ⟨hk, hgone⟩
    · rw [value, value, (newest_eq_some.mp hnew).2, (newest_eq_some.mp hnew').2]
    · have hmk : (merged found)[k]? = none := by
        simpa [newest] using hnone k hk
      rw [value, hmk, value]
      cases hw : ks[k]? with
      | none => rfl
      | some w =>
          have hlive : w.2.isLive = false :=
            hgone { key := k, value := w.2, ts := w.1 } (newest_eq_some.mpr ⟨rfl, hw⟩)
          simp [live, hlive]
  · intro k m hm
    exact (newest_eq_some.mp hm).1
  · intro r hr
    rw [List.append_nil] at hr
    rcases hkey r.key with ⟨w, _, _, hnew, hold⟩ | ⟨hk, _⟩
    · exact ⟨w, hnew, hold r hr rfl⟩
    · exact absurd rfl (hk r hr)
  · intro k m hm
    exact Or.inl (hmerged.mem k m hm)

end Keyspace

/-! ## Pushes in any order -/

/-- A note about pruned history does not change what a push makes of the chain. -/
theorem Chain.wf_push_pruned {c : Chain} (n ts : Nat) (value : Value)
    (h : (c.push ts value []).WF) : ({ c with pruned_ts := n }.push ts value []).WF where
  sorted := h.sorted
  latest_ts_eq := h.latest_ts_eq
  ne_nil := h.ne_nil

/-- The chain of a key ends in the newest write, and there is one if the key was written. -/
def Tops (c : Option Chain) (n : Option (Nat × Value)) : Prop :=
  (c = none ∧ n = none) ∨
    ∃ d v, c = some d ∧ d.WF ∧ d.versions.getLast? = some v ∧ n = some (v.ts, v.value)

theorem Tops.reflects {c : Option Chain} {n : Option (Nat × Value)} (h : Tops c n) :
    Reflects c n := by
  rcases h with ⟨rfl, rfl⟩ | ⟨d, v, rfl, hwf, hlast, rfl⟩
  · exact .never
  · exact .chain hwf hlast

/-- A push keeps that, also of a record that is older than the newest. -/
theorem Tops.push {c : Option Chain} {ks : Keyspace} {m : Mutation} (h : Tops c ks[m.key]?) :
    Tops (some ((c.getD Chain.default).push m.ts m.value [])) (ks.merge m)[m.key]? := by
  rw [Keyspace.getElem?_merge_self]
  rcases h with ⟨rfl, hnone⟩ | ⟨d, v, rfl, hwf, hlast, hn⟩
  · rw [if_neg (by simp [hnone])]
    refine Or.inr ⟨_, ⟨m.ts, m.value⟩, rfl, Chain.wf_push (Or.inr rfl) _ _ _, ?_, rfl⟩
    exact Chain.push_newest (by simp [Chain.default]) _ _
  · have hpush : (d.push m.ts m.value []).WF := Chain.wf_push (Or.inl hwf) _ _ _
    by_cases hlt : m.ts < v.ts
    · rw [if_pos ⟨_, hn, hlt⟩]
      exact Or.inr ⟨_, v, rfl, hpush, Chain.push_older hlast hlt _ _, hn⟩
    · rw [if_neg (by rw [hn]; rintro ⟨_, heq, hlt'⟩; cases heq; exact hlt hlt')]
      refine Or.inr ⟨_, ⟨m.ts, m.value⟩, rfl, hpush, Chain.push_newest ?_ _ _, rfl⟩
      intro w hw
      exact (Chain.le_getLast? hwf.sorted hlast w hw).trans (Nat.le_of_not_lt hlt)

theorem Tops.prune {c : Chain} {ts : Nat} {value : Value} {n : Option (Nat × Value)}
    (h : Tops (some (c.push ts value [])) n) (p : Nat) :
    Tops (some ({ c with pruned_ts := p }.push ts value [])) n := by
  rcases h with ⟨hnone, _⟩ | ⟨d, v, hd, hwf, hlast, hn⟩
  · cases hnone
  · rw [Option.some.injEq] at hd
    subst hd
    exact Or.inr ⟨_, v, rfl, Chain.wf_push_pruned p ts value hwf, hlast, hn⟩

namespace FlushCore

/-- The shards hold the keyspace. -/
def HoldsAll (data : Fin SHARD_COUNT → ShardMap) (ks : Keyspace) : Prop :=
  ∀ k, Tops (data (shard_of k))[k]? ks[k]?

theorem HoldsAll.insert {data : Fin SHARD_COUNT → ShardMap} {ks : Keyspace}
    (h : HoldsAll data ks) {m : Mutation} {c : Chain} (hc : Tops (some c) (ks.merge m)[m.key]?) :
    HoldsAll (Function.update data (shard_of m.key) ((data (shard_of m.key)).insert m.key c))
      (ks.merge m) := by
  intro k
  by_cases hk : m.key = k
  · subst hk
    rw [Function.update_self, map_getElem?_insert, if_pos rfl]
    exact hc
  · rw [Keyspace.getElem?_merge_of_ne hk]
    by_cases hs : shard_of k = shard_of m.key
    · rw [hs, Function.update_self, map_getElem?_insert, if_neg hk, ← hs]
      exact h k
    · rw [Function.update_of_ne hs]
      exact h k

theorem HoldsAll.replay {data : Fin SHARD_COUNT → ShardMap} {ks : Keyspace}
    (h : HoldsAll data ks) (m : Mutation) : HoldsAll (replayRecord data m) (ks.merge m) :=
  h.insert (h m.key).push

theorem HoldsAll.load {data : Fin SHARD_COUNT → ShardMap} {ks : Keyspace}
    (h : HoldsAll data ks) (m : Mutation) : HoldsAll (loadRecord data m) (ks.merge m) :=
  h.insert ((h m.key).push.prune _)

/-- The records of the snapshot, then those of the logs. -/
theorem holds_loaded (snapshot logs : List Mutation) :
    HoldsAll (logs.foldl replayRecord (snapshot.foldl loadRecord fun _ => ∅))
      (Keyspace.merged (snapshot ++ logs)) := by
  have hfold : ∀ (f : (Fin SHARD_COUNT → ShardMap) → Mutation → Fin SHARD_COUNT → ShardMap),
      (∀ data ks m, HoldsAll data ks → HoldsAll (f data m) (Keyspace.merge ks m)) →
      ∀ (ms : List Mutation) data ks, HoldsAll data ks →
        HoldsAll (ms.foldl f data) (ms.foldl Keyspace.merge ks) := by
    intro f hf ms
    induction ms with
    | nil => exact fun _ _ h => h
    | cons m ms ih => exact fun data ks h => ih _ _ (hf data ks m h)
  rw [Keyspace.merged, List.foldl_append]
  refine hfold _ (fun _ _ m h => h.replay m) logs _ _ ?_
  refine hfold _ (fun _ _ m h => h.load m) snapshot _ _ ?_
  intro k
  exact Or.inl ⟨by simp, by simp⟩

theorem chain_openCore (snapshot logs : List Mutation) (k : Key) :
    (openCore snapshot logs).chain k =
      ((logs.foldl replayRecord (snapshot.foldl loadRecord fun _ => ∅)) (shard_of k))[k]?.filter
        fun c => c.latest.isSome := by
  simp only [chain, openCore, Std.ExtTreeMap.getElem?_filter']

/-- A key whose newest record is a tombstone has no chain; any other ends in it. -/
theorem reflects_openCore (snapshot logs : List Mutation) (k : Key) :
    Reflects ((openCore snapshot logs).chain k) (Keyspace.merged (snapshot ++ logs))[k]? := by
  have htops := (holds_loaded snapshot logs k).reflects
  rw [chain_openCore]
  cases hc : ((logs.foldl replayRecord (snapshot.foldl loadRecord fun _ => ∅)) (shard_of k))[k]?
    with
  | none =>
      rw [hc] at htops
      exact htops
  | some c =>
      rw [hc] at htops
      rw [Option.filter_some]
      split
      · exact htops
      · next hdead =>
          exact htops.collect (by simpa using hdead)

theorem placed_openCore (snapshot logs : List Mutation) : (openCore snapshot logs).Placed := by
  intro i k c hc
  simp only [openCore, Std.ExtTreeMap.getElem?_filter', Option.filter_eq_some_iff] at hc
  have hown := own_loaded snapshot logs i k c hc.1
  refine ⟨hown, ?_⟩
  rcases holds_loaded snapshot logs k with ⟨hnone, _⟩ | ⟨d, v, hd, hwf, _⟩
  · rw [hown, hc.1] at hnone
    cases hnone
  · rw [hown, hc.1, Option.some.injEq] at hd
    rw [hd]
    exact hwf

/-- The clock starts at the newest timestamp that was read. -/
theorem visible_ts_openCore (snapshot logs : List Mutation) (n : Nat) :
    (openCore snapshot logs).visible_ts ≤ n ↔ ∀ m ∈ snapshot ++ logs, m.ts ≤ n := by
  have hgen : ∀ (ms : List Mutation) (a : Nat),
      ms.foldl (fun ts m => max ts m.ts) a ≤ n ↔ a ≤ n ∧ ∀ m ∈ ms, m.ts ≤ n := by
    intro ms
    induction ms with
    | nil => simp
    | cons m ms ih =>
        intro a
        rw [List.foldl_cons, ih, Nat.max_le, List.forall_mem_cons, and_assoc]
  rw [openCore, hgen]
  simp

end FlushCore

/-! ## Opening the files -/

/-- The files that a start finds: the snapshot, the rotated segment and the live log. -/
structure Files where
  snap : Option Bytes
  seg : Option Bytes
  wal : Bytes
deriving DecidableEq

namespace Files

/-- An unreadable snapshot is passed over with a warning. -/
def snapshot (f : Files) : List Mutation :=
  match f.snap with
  | none => []
  | some body =>
      match load_snapshot body with
      | .ok ms => ms
      | .error _ => []

/-- The records of the segment, then those of the live log. -/
def logs (f : Files) : List Mutation := ((f.seg.map logRecords).getD []) ++ logRecords f.wal

def records (f : Files) : List Mutation := f.snapshot ++ f.logs

/-- The shards as `Engine::open` fills them. -/
def core (f : Files) : FlushCore := FlushCore.openCore f.snapshot f.logs

/-- The store that is opened on these files, if their timestamps leave room for more. -/
def opened (f : Files) (h : ∀ m ∈ f.records, m.ts < 2 ^ 64 - 1) : Opened where
  core := f.core
  wal := replayed f.wal
  keyspace := Keyspace.merged f.records
  placed := FlushCore.placed_openCore f.snapshot f.logs
  reflects := FlushCore.reflects_openCore f.snapshot f.logs
  bound := by
    intro k w hw
    have hmem := (Keyspace.mergedFrom_merged f.records).mem k _
      (Keyspace.newest_eq_some.mpr ⟨rfl, hw⟩ : _ = some { key := k, value := w.2, ts := w.1 })
    exact (FlushCore.visible_ts_openCore _ _ _).mp le_rfl _ hmem
  clock_lt := by
    have hle : f.core.visible_ts ≤ 2 ^ 64 - 2 :=
      (FlushCore.visible_ts_openCore _ _ _).mpr fun m hm => Nat.le_sub_one_of_lt (h m hm)
    omega
  active_empty := rfl

end Files
end StrikeDB
