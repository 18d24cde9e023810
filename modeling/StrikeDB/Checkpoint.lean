import StrikeDB.Opening
import StrikeDB.SnapshotFile

/-!
# StrikeDB: checkpoints beside a running engine

`Engine::checkpoint` as steps of a thread of its own: the rotation of the log,
which reads the timestamp `snap` of the snapshot, its registration as an open
snapshot, the wait until it is published, the counting pass, the writing pass and
the end.  The two passes of `write_snapshot_at` walk the shards in chunks of
`CKPT_CHUNK` keys, and a step of them is one chunk under its read lock; between
any two steps the engine does what it likes.

A checkpoint whose file operations fail is left out: the rotation is not enabled
on a log that refuses `sync`.  `results` is what the finished checkpoints gave.

* `passed_next`: a chunk copies the live keys from its place to the next one.
-/

namespace StrikeDB

/-- Keys of one shard copied per acquisition of its lock. -/
def CKPT_CHUNK : Nat := 4096

/-- Where a walk stands: the shard, and the last key that it saw there. -/
structure Place where
  shard : Nat
  after : Option Key
deriving DecidableEq

namespace Place

def start : Place := { shard := 0, after := none }

/-- Is the key behind the last one seen? -/
def behind (p : Place) (k : Key) : Bool :=
  match p.after with
  | none => true
  | some a => (compare a k).isLT

/-- The place behind a chunk; an empty chunk ends the shard. -/
def next (p : Place) (chunk : List (Key × Chain)) : Place :=
  match chunk.getLast? with
  | none => { shard := p.shard + 1, after := none }
  | some e => { p with after := some e.1 }

end Place

/-- The keys of a shard that one step of a walk visits. -/
def ShardMap.chunk (data : ShardMap) (p : Place) : List (Key × Chain) :=
  (data.toList.filter fun e => p.behind e.1).take CKPT_CHUNK

/-- The timestamp and the value that a checkpoint copies. -/
def Chain.entry (c : Chain) (snap : Nat) : Option (Nat × Value) :=
  (c.visible snap).map fun v => (((c.visibleVersion snap).map Version.ts).getD 0, v)

/-- The record of an entry. -/
def entryRecord (e : Key × (Nat × Value)) : Mutation :=
  { key := e.1, value := e.2.2, ts := e.2.1 }

/-- The live keys of a chunk with what is copied of them. -/
def entries (chunk : List (Key × Chain)) (snap : Nat) : List (Key × (Nat × Value)) :=
  chunk.filterMap fun e => (e.2.entry snap).map fun w => (e.1, w)

/-- The counting pass over one chunk. -/
def countChunk (chunk : List (Key × Chain)) (snap : Nat) : Nat :=
  (chunk.filter fun e => (e.2.visible snap).isSome).length

/-- Where a checkpoint stands. -/
inductive Ckpt where
  | idle
  /-- The log is rotated, and `snap` not registered yet. -/
  | rotated (snap : Nat)
  | waiting (snap : Nat)
  | counting (snap : Nat) (place : Place) (count : Nat)
  | writing (snap : Nat) (count : Nat) (place : Place) (written : List Mutation)

namespace Ckpt

/-- The snapshot that the checkpoint holds registered. -/
def held : Ckpt → List Nat
  | idle | rotated _ => []
  | waiting snap | counting snap _ _ | writing snap _ _ _ => [snap]

end Ckpt

/-- The file once the header, the records and the checksum are written. -/
def checkpointFile (count : Nat) (written : List Mutation) : Bytes :=
  snapshotBody count written ++ leBytes 4 (Crc.crcNat (snapshotBody count written))

/-- `last_appended` starts where `visible_ts` does, at the newest timestamp read. -/
def Opened.appended (o : Opened) : Opened :=
  { o with core := { o.core with last_appended := o.core.visible_ts } }

/-- An engine and its checkpoints, one at a time (`ckpt_lock`). -/
structure Checkpointed (ρ : Type) where
  engine : Engine ρ
  ckpt : Ckpt
  /-- Is there a rotated log that no snapshot covers? -/
  pending : Bool
  results : List (Nat × Except IoError Bytes)

inductive CkptAct (ρ : Type) where
  | engine (act : Act ρ)
  | rotate
  | register
  | published
  /-- One chunk of the pass in work. -/
  | chunk
  | counted
  | finish

namespace Checkpointed

variable {ρ : Type}

def start (o : Opened) (sync_writes : Bool) : Checkpointed ρ :=
  { engine := Engine.start o.appended sync_writes, ckpt := .idle, pending := false, results := [] }

/-- What a step of a walk sees, if the lock of its shard can be taken. -/
def chunkAt (w : Checkpointed ρ) (p : Place) : Option (List (Key × Chain)) :=
  if h : p.shard < SHARD_COUNT then
    if w.engine.unlocked p.shard then some ((w.engine.core.shards ⟨p.shard, h⟩).chunk p)
    else none
  else none

/-- Under the WAL lock: the live log moves to the rotated segment, or is copied
behind it when an earlier checkpoint left one, and is empty afterwards. -/
def rotate (w : Checkpointed ρ) : Option (Checkpointed ρ) :=
  match w.ckpt, w.engine.wal.sync true with
  | .idle, (wal, .ok ()) =>
      let wal := if w.pending then (wal.truncate true true).1 else Wal.open []
      some { w with
        engine := { w.engine with wal := wal }
        ckpt := .rotated w.engine.core.last_appended
        pending := true }
  | _, _ => none

/-- The steps of the engine's other threads.  A checkpoint registers its snapshot by
itself, and nobody else gives it back. -/
def other (w : Checkpointed ρ) (act : Act ρ) : Option (Checkpointed ρ) :=
  match act with
  | .ckptPin _ => none
  | .unpin snap =>
      if snap ∈ w.engine.pins.diff w.ckpt.held then
        (w.engine.unpin snap).map fun s => { w with engine := s }
      else none
  | act => (w.engine.step act).map fun s => { w with engine := s }

/-- What `write_snapshot_at` returns. -/
def outcome (count : Nat) (written : List Mutation) : Except IoError Bytes :=
  if written.length = count then .ok (checkpointFile count written)
  else .error .snapshotChanged

def step (w : Checkpointed ρ) : CkptAct ρ → Option (Checkpointed ρ)
  | .engine act => w.other act
  | .rotate => w.rotate
  | .register =>
      match w.ckpt with
      | .rotated snap => some { w with engine := w.engine.pin snap, ckpt := .waiting snap }
      | _ => none
  | .published =>
      match w.ckpt with
      | .waiting snap =>
          if w.engine.core.visible_ts < snap then none
          else some { w with ckpt := .counting snap .start 0 }
      | _ => none
  | .chunk =>
      match w.ckpt with
      | .counting snap p count =>
          (w.chunkAt p).map fun chunk =>
            { w with ckpt := .counting snap (p.next chunk) (count + countChunk chunk snap) }
      | .writing snap count p written =>
          (w.chunkAt p).map fun chunk =>
            let written := written ++ (entries chunk snap).map entryRecord
            { w with ckpt := .writing snap count (p.next chunk) written }
      | _ => none
  | .counted =>
      match w.ckpt with
      | .counting snap p count =>
          if p.shard < SHARD_COUNT then none
          else some { w with ckpt := .writing snap count .start [] }
      | _ => none
  | .finish =>
      match w.ckpt with
      | .writing snap count p written =>
          if p.shard < SHARD_COUNT then none
          else
            let r := outcome count written
            (w.engine.unpin snap).map fun s =>
              { engine := s, ckpt := .idle, pending := !r.isOk
                results := w.results ++ [(snap, r)] }
      | _ => none

end Checkpointed

/-! ### Which keys a walk has passed -/

/-- Does the key belong to shard `i`, with a live newest write? -/
def liveInShard (i : Nat) (e : Key × (Nat × Value)) : Bool :=
  (shard_of e.1).val = i && e.2.2.isLive

/-- The live keys of one shard, with their newest writes. -/
def Keyspace.liveIn (ks : Keyspace) (i : Nat) : List (Key × (Nat × Value)) :=
  ks.toList.filter (liveInShard i)

/-- The live keys of the shards in front of a place, and those of its shard up to the
last one seen. -/
def Keyspace.passed (ks : Keyspace) (p : Place) : List (Key × (Nat × Value)) :=
  (List.range p.shard).flatMap ks.liveIn ++ (ks.liveIn p.shard).filter fun e => !p.behind e.1

/-- All live keys, shard after shard. -/
def Keyspace.lives (ks : Keyspace) : List (Key × (Nat × Value)) :=
  (List.range SHARD_COUNT).flatMap ks.liveIn

/-- The store shows at `snap` the live keys of `ks`. -/
def FlushCore.Shows (core : FlushCore) (snap : Nat) (ks : Keyspace) : Prop :=
  ∀ k, (core.chain k).bind (fun c => c.entry snap) = ks[k]?.filter fun w => w.2.isLive

namespace Keyspace

variable {ks : Keyspace}

@[simp] theorem mem_liveIn {i : Nat} {e : Key × (Nat × Value)} :
    e ∈ ks.liveIn i ↔ ks[e.1]? = some e.2 ∧ (shard_of e.1).val = i ∧ e.2.2.isLive = true := by
  simp only [liveIn, liveInShard, List.mem_filter, Bool.and_eq_true, decide_eq_true_eq]
  rw [show e = (e.1, e.2) from rfl, Std.ExtTreeMap.mem_toList_iff_getElem?_eq_some]

theorem liveIn_sorted (ks : Keyspace) (i : Nat) : KeySorted (ks.liveIn i) :=
  (keySorted_toList ks).filter _

@[simp] theorem passed_start (ks : Keyspace) : ks.passed .start = [] := by
  simp [passed, Place.start, Place.behind]

theorem passed_end {p : Place} (h : p.shard = SHARD_COUNT) : ks.passed p = ks.lives := by
  have hnone : ks.liveIn p.shard = [] := by
    rw [List.eq_nil_iff_forall_not_mem]
    intro e he
    have := (mem_liveIn.mp he).2.1
    have := (shard_of e.1).isLt
    omega
  rw [passed, hnone, h]
  simp [lives]

end Keyspace

/-! ### One chunk -/

/-- The first members of a list in key order are those up to the last of them. -/
theorem KeySorted.mem_take_iff
    {V : Type} {l : List (Key × V)} (h : KeySorted l) {n : Nat} {last : Key × V}
    (hlast : (l.take n).getLast? = some last) {e : Key × V} :
    e ∈ l.take n ↔ e ∈ l ∧ (compare e.1 last.1).isLE = true := by
  have hsplit : KeySorted (l.take n ++ l.drop n) := by
    rw [List.take_append_drop]
    exact h
  obtain ⟨htake, _, hcross⟩ := List.pairwise_append.mp hsplit
  have hmem : last ∈ l.take n := List.mem_of_getLast? hlast
  constructor
  · intro he
    refine ⟨List.mem_of_mem_take he, ?_⟩
    obtain ⟨init, hinit⟩ := List.getLast?_eq_some_iff.mp hlast
    rw [hinit] at he htake
    rcases List.mem_append.mp he with he | he
    · have hlt : compare e.1 last.1 = .lt :=
        (List.pairwise_append.mp htake).2.2 e he last (List.mem_singleton_self last)
      rw [hlt]
      rfl
    · rw [List.mem_singleton.mp he]
      simp
  · rintro ⟨he, hle⟩
    rw [← List.take_append_drop n l] at he
    rcases List.mem_append.mp he with he | he
    · exact he
    · have hlt : compare last.1 e.1 = .lt := hcross last hmem e he
      have hgt : compare e.1 last.1 = .gt := Std.OrientedCmp.gt_of_lt hlt
      rw [hgt] at hle
      cases hle

/-- The keys behind a place come after the others. -/
theorem Place.behind_lt
    {p : Place} {a b : Key} (ha : p.behind a = false) (hb : p.behind b = true) :
    compare a b = .lt := by
  unfold behind at ha hb
  split at ha
  · cases ha
  · next x hx =>
      simp only [hx] at hb
      have hax : (compare a x).isLE = true := by
        have hswap : compare a x = (compare x a).swap := Std.OrientedCmp.eq_swap
        rw [hswap]
        cases hcmp : compare x a <;> simp_all
      have hxb : compare x b = .lt := by
        cases hcmp : compare x b <;> simp_all
      exact Std.TransCmp.lt_of_isLE_of_lt hax hxb

theorem mem_chunk
    {data : ShardMap} {p : Place} {last : Key × Chain}
    (hlast : (data.chunk p).getLast? = some last) {e : Key × Chain} :
    e ∈ data.chunk p ↔
      data[e.1]? = some e.2 ∧ p.behind e.1 = true ∧ (p.next (data.chunk p)).behind e.1 = false := by
  have hsorted : KeySorted (data.toList.filter fun e => p.behind e.1) :=
    (keySorted_toList data).filter _
  have hnext : (p.next (data.chunk p)).behind e.1 = (compare last.1 e.1).isLT := by
    rw [Place.next, hlast]
    rfl
  have hle : (compare e.1 last.1).isLE = true ↔ (compare last.1 e.1).isLT = false := by
    have hswap : compare e.1 last.1 = (compare last.1 e.1).swap := Std.OrientedCmp.eq_swap
    rw [hswap]
    cases compare last.1 e.1 <;> decide
  rw [hnext, ← hle, ShardMap.chunk, hsorted.mem_take_iff hlast, List.mem_filter,
    show e = (e.1, e.2) from rfl, Std.ExtTreeMap.mem_toList_iff_getElem?_eq_some, and_assoc]

/-- A walk does not come back. -/
theorem Place.behind_next
    (p : Place) {data : ShardMap} {last : Key × Chain}
    (hlast : (data.chunk p).getLast? = some last) {k : Key} (hk : p.behind k = false) :
    (p.next (data.chunk p)).behind k = false := by
  have hb := ((mem_chunk hlast).mp (List.mem_of_getLast? hlast)).2.1
  have hlt := p.behind_lt hk hb
  rw [Place.next, hlast]
  change (compare last.1 k).isLT = false
  rw [Std.OrientedCmp.gt_of_lt hlt]
  rfl

theorem chunk_eq_nil
    {data : ShardMap} {p : Place} (h : data.chunk p = []) {k : Key} {c : Chain}
    (hc : data[k]? = some c) :
    p.behind k = false := by
  cases hb : p.behind k with
  | false => rfl
  | true =>
      have hmem : (k, c) ∈ data.toList.filter fun e => p.behind e.1 := by
        rw [List.mem_filter, Std.ExtTreeMap.mem_toList_iff_getElem?_eq_some]
        exact ⟨hc, hb⟩
      rw [ShardMap.chunk, List.take_eq_nil_iff] at h
      rcases h with h | h
      · cases h
      · rw [h] at hmem
        cases hmem

theorem entries_sorted (data : ShardMap) (p : Place) (snap : Nat) :
    KeySorted (entries (data.chunk p) snap) := by
  have hsorted : KeySorted (data.chunk p) :=
    List.Pairwise.take ((keySorted_toList data).filter _)
  refine hsorted.filterMap ?_
  intro e e' he
  obtain ⟨w, _, rfl⟩ := Option.map_eq_some_iff.mp he
  rfl

theorem mem_entries {chunk : List (Key × Chain)} {snap : Nat} {e : Key × (Nat × Value)} :
    e ∈ entries chunk snap ↔ ∃ c, (e.1, c) ∈ chunk ∧ c.entry snap = some e.2 := by
  simp only [entries, List.mem_filterMap, Option.map_eq_some_iff]
  constructor
  · rintro ⟨x, hx, w, hw, rfl⟩
    exact ⟨x.2, hx, hw⟩
  · rintro ⟨c, hc, hw⟩
    exact ⟨(e.1, c), hc, e.2, hw, rfl⟩

theorem countChunk_eq (chunk : List (Key × Chain)) (snap : Nat) :
    countChunk chunk snap = (entries chunk snap).length := by
  induction chunk with
  | nil => rfl
  | cons e chunk ih =>
      rw [countChunk, List.filter_cons, entries, List.filterMap_cons] at *
      cases hv : e.2.visible snap with
      | none => simpa [Chain.entry, hv] using ih
      | some v => simpa [Chain.entry, hv] using ih

/-- A shard holds the live keys that the store shows there. -/
theorem FlushCore.Shows.mem_iff
    {core : FlushCore} {snap : Nat} {ks : Keyspace} (h : core.Shows snap ks)
    (hplaced : core.Placed) (i : Fin SHARD_COUNT) {e : Key × (Nat × Value)} :
    e ∈ ks.liveIn i ↔ ∃ c, (core.shards i)[e.1]? = some c ∧ c.entry snap = some e.2 := by
  rw [Keyspace.mem_liveIn]
  have hk := h e.1
  constructor
  · rintro ⟨he, hshard, hlive⟩
    rw [he, Option.filter_some, if_pos hlive] at hk
    obtain ⟨c, hc, hentry⟩ := Option.bind_eq_some_iff.mp hk
    rw [FlushCore.chain, Fin.ext hshard] at hc
    exact ⟨c, hc, hentry⟩
  · rintro ⟨c, hc, hentry⟩
    have hshard := (hplaced i e.1 c hc).1
    have hchain : core.chain e.1 = some c := by
      rw [FlushCore.chain, hshard]
      exact hc
    rw [hchain, Option.bind_some, hentry, eq_comm, Option.filter_eq_some_iff] at hk
    exact ⟨hk.1, by rw [hshard], hk.2⟩

/-- A chunk copies the live keys from its place to the next one. -/
theorem passed_next
    {core : FlushCore} {snap : Nat} {ks : Keyspace} (h : core.Shows snap ks)
    (hplaced : core.Placed) {p : Place} {i : Fin SHARD_COUNT} (hi : p.shard = i) :
    ks.passed (p.next ((core.shards i).chunk p)) =
      ks.passed p ++ entries ((core.shards i).chunk p) snap := by
  cases hlast : ((core.shards i).chunk p).getLast? with
  | none =>
      have hnil := List.getLast?_eq_none_iff.mp hlast
      have hall : (ks.liveIn p.shard).filter (fun e => !p.behind e.1) = ks.liveIn p.shard := by
        rw [List.filter_eq_self]
        intro e he
        rw [hi, h.mem_iff hplaced] at he
        obtain ⟨c, hc, _⟩ := he
        rw [chunk_eq_nil hnil hc]
        rfl
      rw [Keyspace.passed, Keyspace.passed, hall, hnil]
      simp [Place.next, Place.behind, entries, List.range_succ]
  | some last =>
      have hshard : (p.next ((core.shards i).chunk p)).shard = p.shard := by
        rw [Place.next, hlast]
      rw [Keyspace.passed, Keyspace.passed, hshard, List.append_assoc]
      congr 1
      refine ((ks.liveIn_sorted _).filter _).eq_of_mem_iff ?_ ?_
      · refine List.pairwise_append.mpr
          ⟨(ks.liveIn_sorted _).filter _, entries_sorted _ _ _, ?_⟩
        intro a ha b hb
        obtain ⟨c, hc, _⟩ := mem_entries.mp hb
        refine Place.behind_lt ?_ ((mem_chunk hlast).mp hc).2.1
        simpa using (List.mem_filter.mp ha).2
      · intro e
        have hpass : p.behind e.1 = false → (p.next ((core.shards i).chunk p)).behind e.1 = false :=
          p.behind_next hlast
        rw [List.mem_filter, List.mem_append, List.mem_filter, hi, h.mem_iff hplaced, mem_entries]
        constructor
        · rintro ⟨⟨c, hc, hentry⟩, hb⟩
          cases hold : p.behind e.1 with
          | false => exact Or.inl ⟨⟨c, hc, hentry⟩, rfl⟩
          | true => exact Or.inr ⟨c, (mem_chunk hlast).mpr ⟨hc, hold, by simpa using hb⟩, hentry⟩
        · rintro (⟨hlive, hb⟩ | ⟨c, hc, hentry⟩)
          · exact ⟨hlive, by simpa using hpass (by simpa using hb)⟩
          · obtain ⟨hdata, _, hb⟩ := (mem_chunk hlast).mp hc
            exact ⟨⟨c, hdata, hentry⟩, by simpa using hb⟩

end StrikeDB
