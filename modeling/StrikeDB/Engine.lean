import StrikeDB.Keyspace
import StrikeDB.Resolve
import StrikeDB.Runs
import StrikeDB.Txn
import StrikeDB.Wal

/-!
# StrikeDB: the engine as a transition system

The threads of a running engine: any number of clients, the flusher, and in
`SYNC=0` mode the client inside `submit` that holds `apply_lock`.  A step is
what one thread does while it holds one lock, so a run is an interleaving.  In
particular the list of open snapshots is read when a shard is locked and used
when it is pushed, and `visible_ts` is published later still.

The log is the real one; the renames of FLUSHALL and the files of a checkpoint
are the subject of other modules, and here a FLUSHALL whose file operations
succeed leaves an empty log.  `base`, `history`, `logged` and `replies` are kept
for the statements only: no step reads them, apart from `txnDrop`, which waits
for the reply as the thread inside `commit` does.

`Step` and `Works` list what the steps can do, case by case; proofs about runs
go through them (`step_cases`) and never open `step`.
-/

namespace StrikeDB

/-- The threads that change the shards. -/
inductive Actor where
  | flusher
  /-- The client inside `submit` that holds `apply_lock`. -/
  | direct
deriving DecidableEq

/-- How the system calls of one step end. -/
structure Io where
  write : WriteIo
  syncOk : Bool
  /-- The renames of FLUSHALL and the opening of the fresh log. -/
  filesOk : Bool

/-- What a finished batch did to the shards. -/
inductive Effect where
  | nothing
  | applied
  | wiped
deriving DecidableEq

/-- A resolved batch; `err` is `flush_result` or `flush_all_err`, the first that
was set. -/
structure Job (ρ : Type) where
  batch : List (PendingWrite ρ)
  outcomes : List (Option (Resolved ρ))
  err : Option String

/-- Where a thread stands in its work on a batch. -/
inductive Phase (ρ : Type) where
  | idle
  | drained (batch : List (PendingWrite ρ))
  | horizon (batch : List (PendingWrite ρ)) (h : Nat)
  | sweeping (batch : List (PendingWrite ρ)) (ready : List (Key × Nat)) (max_removed : Nat)
  | resolving (batch : List (PendingWrite ρ))
  | logging (job : Job ρ)
  | flushing (job : Job ρ)
  | wiping (job : Job ρ) (next : Nat)
  /-- `locked` is the list of open snapshots read under the lock of shard `next`. -/
  | applying (job : Job ρ) (next : Nat) (locked : Option (List Nat))
  | publishing (job : Job ρ) (effect : Effect)

/-- The answer to a commit. -/
inductive Reply (ρ : Type) where
  | ok (value : Option Int64) (out : Option ρ)
  | conflict
  | opErr (msg : String)
  | err (msg : String)

/-- A transaction of a client: `obtained` are the results of its reads of the
store, `committing` is the timestamp its commit was submitted with. -/
structure TxnSlot where
  id : Nat
  txn : Txn
  obtained : List (Key × Option Value)
  committing : Option Nat

/-- What a client may submit outside a transaction. -/
inductive Request (ρ : Type) where
  | write (writes : ValueMap)
  | incr (key : Key) (by_ : Int64)
  | op (op : Op ρ)
  | flush_all (bak : String)

structure Engine (ρ : Type) where
  core : FlushCore
  sync_writes : Bool
  clock : Nat
  wal : Wal
  write_queue : List (PendingWrite ρ)
  phase : Actor → Phase ρ
  txns : List TxnSlot
  /-- Snapshots registered by dumps and checkpoints. -/
  pins : List Nat
  /-- The keyspace that the engine was opened with. -/
  base : Keyspace
  history : List Event
  /-- Every mutation whose frame was handed to the log. -/
  logged : List Mutation
  replies : List (Nat × Reply ρ)

inductive Act (ρ : Type) where
  | begin_ (id : Nat)
  | txnGet (id : Nat) (key : Key)
  /-- A put, or a delete without a value. -/
  | txnPut (id : Nat) (key : Key) (value : Option Value)
  | txnCommit (id : Nat)
  | txnDrop (id : Nat)
  | dumpStart
  /-- A checkpoint registers the timestamp it read when it rotated the log. -/
  | ckptPin (snapshot : Nat)
  | unpin (s : Nat)
  | now
  | submit (r : Request ρ)
  | drain
  | work (a : Actor) (io : Io)

section Batches

variable {ρ : Type}

/-- The pending write of a request. -/
def Request.pending (ts : Nat) : Request ρ → PendingWrite ρ
  | .write writes =>
      { ts := ts, muts := opMuts ts writes, reads := [], incr := none, op := none,
        flush_all := none }
  | .incr key by_ =>
      { ts := ts, muts := [], reads := [], incr := some (key, by_), op := none,
        flush_all := none }
  | .op o =>
      { ts := ts, muts := [], reads := [], incr := none, op := some o, flush_all := none }
  | .flush_all bak =>
      { ts := ts, muts := [], reads := [], incr := none, op := none, flush_all := some bak }

/-- The pending write of `Txn::commit`. -/
def Txn.pending (ts : Nat) (t : Txn) : PendingWrite ρ :=
  { ts := ts, muts := opMuts ts t.writes, reads := t.reads.map fun k => (k, t.snapshot)
    incr := none, op := none, flush_all := none }

namespace Job

/-- The commits of a batch with what they write, in queue order. -/
def commits (job : Job ρ) : List (Nat × List Mutation) :=
  commitsOf (job.batch.zip job.outcomes)

/-- Everything `apply_refs_to_shards` gets. -/
def muts (job : Job ρ) : List Mutation := job.commits.flatMap Prod.snd

/-- Does the batch hold a FLUSHALL? -/
def wipe_ran (job : Job ρ) : Bool := job.batch.any fun pw => pw.flush_all.isSome

/-- What a finished batch means for the sequential keyspace. -/
def event (job : Job ρ) (effect : Effect) (e : PendingWrite ρ × Option (Resolved ρ)) :
    Option Event :=
  match effect with
  | .nothing => none
  | .applied => (e.2.bind fun r => r.muts e.1).map (Event.commit e.1.ts)
  | .wiped =>
      if e.1.flush_all.isSome then some (.flush e.1.ts)
      else if job.err.isSome then none
      else (e.2.bind fun r => r.muts e.1).map (Event.commit e.1.ts)

def events (job : Job ρ) (effect : Effect) : List Event :=
  (job.batch.zip job.outcomes).filterMap (job.event effect)

/-- The answer to one commit of the batch. -/
def reply (job : Job ρ) (out : Option (Resolved ρ)) : Reply ρ :=
  match job.err with
  | some e => .err e
  | none =>
      match out with
      | some (.apply _ v o) => .ok v o
      | some .conflict => .conflict
      | some (.opErr e) => .opErr e
      | none => .ok none none

def replies (job : Job ρ) : List (Nat × Reply ρ) :=
  (job.batch.zip job.outcomes).map fun e => (e.1.ts, job.reply e.2)

/-- The durable step: one append and one fsync, if there is anything to write. -/
def log (job : Job ρ) (core : FlushCore) (wal : Wal) (io : Io) :
    Wal × FlushCore × Except IoError Unit :=
  let frames := batchFrames job.batch job.outcomes
  if frames = [] then (wal, core, .ok ())
  else
    let r := wal.append_frames frames io.write
    match r.2 with
    | .error e => (r.1, core, .error e)
    | .ok () =>
        let core := { core with last_appended := max core.last_appended (batchMaxTs job.batch) }
        let t := r.1.sync io.syncOk
        (t.1, core, t.2)

end Job

/-- Does a thread in this phase hold the write lock of shard `i`? -/
def Phase.holds (i : Nat) : Phase ρ → Bool
  | .applying _ next (some _) => next = i
  | _ => false

end Batches

namespace Actor

def other : Actor → Actor
  | flusher => direct
  | direct => flusher

end Actor

namespace Engine

variable {ρ : Type}

def setPhase (s : Engine ρ) (a : Actor) (p : Phase ρ) : Engine ρ :=
  { s with phase := Function.update s.phase a p }

/-- Nobody holds the write lock of shard `i`. -/
def unlocked (s : Engine ρ) (i : Nat) : Bool :=
  !(s.phase .flusher).holds i && !(s.phase .direct).holds i

def slot (s : Engine ρ) (id : Nat) : Option TxnSlot := s.txns.find? fun t => t.id = id

/-- Replace the slot of a transaction. -/
def setSlot (s : Engine ρ) (t : TxnSlot) : Engine ρ :=
  { s with txns := s.txns.map fun u => if u.id = t.id then t else u }

/-- Reserve a timestamp and hand the commit on: to the queue, or in `SYNC=0`
mode to the thread itself, which takes `apply_lock`.  The clock is a `u64` that
never runs out. -/
def submit (s : Engine ρ) (mk : Nat → PendingWrite ρ) : Option (Engine ρ) :=
  let pw := mk (s.clock + 1)
  if 2 ^ 64 - 1 ≤ s.clock + 1 then none
  else if s.sync_writes || pw.flush_all.isSome then
    some { s with clock := s.clock + 1, write_queue := s.write_queue ++ [pw] }
  else
    match s.phase .direct with
    | .idle => some ({ s with clock := s.clock + 1 }.setPhase .direct (.resolving [pw]))
    | _ => none

/-- The clients' steps on their transactions. -/
def begin_ (s : Engine ρ) (id : Nat) : Option (Engine ρ) :=
  match s.slot id with
  | some _ => none
  | none =>
      let t : TxnSlot :=
        { id := id, txn := { snapshot := s.core.visible_ts, writes := ∅, reads := [] }
          obtained := [], committing := none }
      some { s with core := s.core.register s.core.visible_ts, txns := t :: s.txns }

def txnGet (s : Engine ρ) (id : Nat) (key : Key) : Option (Engine ρ) :=
  match s.slot id with
  | none => none
  | some t =>
      if t.committing.isSome then none
      else if key ∈ t.txn.writes then some s
      else if s.unlocked (shard_of key) then
        let r := t.txn.get s.core key
        some (s.setSlot { t with txn := r.2, obtained := t.obtained ++ [(key, r.1)] })
      else none

def txnPut (s : Engine ρ) (id : Nat) (key : Key) (value : Option Value) :
    Option (Engine ρ) :=
  match s.slot id with
  | none => none
  | some t =>
      if t.committing.isSome then none
      else
        match value with
        | some v => some (s.setSlot { t with txn := t.txn.put key v })
        | none => some (s.setSlot { t with txn := t.txn.delete key })

def txnCommit (s : Engine ρ) (id : Nat) : Option (Engine ρ) :=
  match s.slot id with
  | none => none
  | some t =>
      if t.committing.isSome then none
      else
        (s.submit fun ts => t.txn.pending ts).map fun s' =>
          s'.setSlot { t with committing := some (s.clock + 1) }

/-- Nothing is submitted, or the reply is there. -/
def answered (s : Engine ρ) (t : TxnSlot) : Bool :=
  match t.committing with
  | none => true
  | some ts => s.replies.any fun r => r.1 = ts

/-- A transaction is dropped without a commit, or when `commit` returns. -/
def txnDrop (s : Engine ρ) (id : Nat) : Option (Engine ρ) :=
  match s.slot id with
  | none => none
  | some t =>
      if s.answered t then
        some { s with
          core := s.core.unregister t.txn.snapshot
          txns := s.txns.eraseP fun u => u.id = id }
      else none

def pin (s : Engine ρ) (snapshot : Nat) : Engine ρ :=
  { s with core := s.core.register snapshot, pins := snapshot :: s.pins }

def unpin (s : Engine ρ) (snapshot : Nat) : Option (Engine ρ) :=
  if snapshot ∈ s.pins then
    some { s with core := s.core.unregister snapshot, pins := s.pins.erase snapshot }
  else none

/-- The flusher takes the whole queue. -/
def drain (s : Engine ρ) : Option (Engine ρ) :=
  match s.phase .flusher with
  | .idle =>
      if s.write_queue.isEmpty then none
      else some ({ s with write_queue := [] }.setPhase .flusher (.drained s.write_queue))
  | _ => none

/-- What a thread does when the sweep is over. -/
def afterSweep (a : Actor) (batch : List (PendingWrite ρ)) : Phase ρ :=
  match a with
  | .flusher => .resolving batch
  | .direct => .idle

/-- What a thread does with a resolved batch: the flusher logs it, a direct
commit is applied at once unless it was refused. -/
def afterResolve (a : Actor) (job : Job ρ) : Phase ρ :=
  match a with
  | .flusher => .logging job
  | .direct =>
      match job.outcomes with
      | [some (.apply _ _ _)] => .applying job 0 none
      | _ => .publishing job .nothing

/-- What the flusher does after the durable step. -/
def afterLog (job : Job ρ) (result : Except IoError Unit) : Phase ρ :=
  match result with
  | .ok () => if job.wipe_ran then .flushing job else .applying job 0 none
  | .error e =>
      if job.wipe_ran then .flushing { job with err := some e.text }
      else .publishing { job with err := some e.text } .nothing

/-- The text of an error of FLUSHALL gives way to that of the durable step. -/
def flushFailed (job : Job ρ) (e : IoError) : Phase ρ :=
  .publishing { job with err := some (job.err.getD e.text) } .nothing

/-- What a thread does after it has answered: a direct commit sweeps when its
timestamp is a multiple of 64. -/
def afterPublish (a : Actor) (job : Job ρ) (effect : Effect) : Phase ρ :=
  match a with
  | .flusher => .idle
  | .direct =>
      if effect = .applied ∧ batchMaxTs job.batch % 64 = 0 then .drained [] else .idle

/-- One step of the thread `a` on its batch. -/
def work (s : Engine ρ) (a : Actor) (io : Io) : Option (Engine ρ) :=
  match s.phase a with
  | .idle => none
  | .drained batch => some (s.setPhase a (.horizon batch s.core.sweepHorizon))
  | .horizon batch h =>
      if s.core.graveyard = [] then some (s.setPhase a (afterSweep a batch))
      else
        some ({ s with core := s.core.sweepKeep h }.setPhase a
          (.sweeping batch (s.core.sweepReady h) 0))
  | .sweeping batch (e :: ready) max_removed =>
      if (s.phase a.other).holds (shard_of e.1) then none
      else
        some ({ s with core := s.core.sweep_remove e }.setPhase a
          (.sweeping batch ready
            (if s.core.isDead e.1 e.2 then max max_removed e.2 else max_removed)))
  | .sweeping batch [] max_removed =>
      let core := { s.core with gc_horizon := max s.core.gc_horizon max_removed }
      some ({ s with core := core }.setPhase a (afterSweep a batch))
  | .resolving batch =>
      let job := { batch := batch, outcomes := resolveBatch s.core batch, err := none }
      some (s.setPhase a (afterResolve a job))
  | .logging job =>
      let r := job.log s.core s.wal io
      some ({ s with wal := r.1, core := r.2.1, logged := s.logged ++ job.muts }.setPhase a
        (afterLog job r.2.2))
  | .flushing job =>
      let r := s.wal.sync io.syncOk
      match r.2 with
      | .error e => some ({ s with wal := r.1 }.setPhase a (flushFailed job e))
      | .ok () =>
          if io.filesOk then some ({ s with wal := Wal.open [] }.setPhase a (.wiping job 0))
          else some (s.setPhase a (flushFailed job .os))
  | .wiping job next =>
      if h : next < SHARD_COUNT then
        if (s.phase a.other).holds next then none
        else
          some ({ s with core := s.core.clear_shard ⟨next, h⟩ }.setPhase a
            (.wiping job (next + 1)))
      else
        let core := { s.core with kv_live := 0, graveyard := [] }
        some ({ s with core := core }.setPhase a (.publishing job .wiped))
  | .applying job next none =>
      if h : next < SHARD_COUNT then
        if FlushCore.itemsOf ⟨next, h⟩ job.muts = [] then
          some (s.setPhase a (.applying job (next + 1) none))
        else if (s.phase a.other).holds next then none
        else some (s.setPhase a (.applying job next (some s.core.openSnapshots)))
      else some (s.setPhase a (.publishing job .applied))
  | .applying job next (some active) =>
      if h : next < SHARD_COUNT then
        some ({ s with core := s.core.apply_shard ⟨next, h⟩ job.muts active }.setPhase a
          (.applying job (next + 1) none))
      else none
  | .publishing job effect =>
      let core := { s.core with visible_ts := max s.core.visible_ts (batchMaxTs job.batch) }
      some ({ s with
        core := core
        history := s.history ++ job.events effect
        replies := s.replies ++ job.replies }.setPhase a (afterPublish a job effect))

def step (s : Engine ρ) : Act ρ → Option (Engine ρ)
  | .begin_ id => s.begin_ id
  | .txnGet id key => s.txnGet id key
  | .txnPut id key value => s.txnPut id key value
  | .txnCommit id => s.txnCommit id
  | .txnDrop id => s.txnDrop id
  | .dumpStart => some (s.pin s.core.visible_ts)
  | .ckptPin snapshot =>
      if snapshot ≤ s.core.last_appended then some (s.pin snapshot) else none
  | .unpin snapshot => s.unpin snapshot
  | .now => if 2 ^ 64 - 1 ≤ s.clock + 1 then none else some { s with clock := s.clock + 1 }
  | .submit r => s.submit r.pending
  | .drain => s.drain
  | .work a io => s.work a io

/-- The keyspace that the published history makes. -/
def keyspace (s : Engine ρ) : Keyspace := s.base.after s.history

@[simp] theorem setPhase_phase_self (s : Engine ρ) (a : Actor) (p : Phase ρ) :
    (s.setPhase a p).phase a = p := by
  simp [setPhase]

@[simp] theorem setPhase_phase_other (s : Engine ρ) (a : Actor) (p : Phase ρ) :
    (s.setPhase a p).phase a.other = s.phase a.other := by
  cases a <;> simp [setPhase, Actor.other]

/-! ### The steps, case by case -/

/-- What the thread `a` can do next. -/
inductive Works (s : Engine ρ) (a : Actor) (io : Io) : Engine ρ → Prop
  | horizon {batch} (hp : s.phase a = .drained batch) :
      Works s a io (s.setPhase a (.horizon batch s.core.sweepHorizon))
  | noSweep {batch h} (hp : s.phase a = .horizon batch h) (hg : s.core.graveyard = []) :
      Works s a io (s.setPhase a (afterSweep a batch))
  | ready {batch h} (hp : s.phase a = .horizon batch h) :
      Works s a io ({ s with core := s.core.sweepKeep h }.setPhase a
        (.sweeping batch (s.core.sweepReady h) 0))
  | sweep {batch e ready n} (n' : Nat) (hp : s.phase a = .sweeping batch (e :: ready) n) :
      Works s a io ({ s with core := s.core.sweep_remove e }.setPhase a
        (.sweeping batch ready n'))
  | swept {batch n} (hp : s.phase a = .sweeping batch [] n) :
      Works s a io
        ({ s with core := { s.core with gc_horizon := max s.core.gc_horizon n } }.setPhase a
          (afterSweep a batch))
  | resolve {batch} (hp : s.phase a = .resolving batch) :
      Works s a io (s.setPhase a (afterResolve a
        { batch := batch, outcomes := resolveBatch s.core batch, err := none }))
  | log {job wal core result} (hp : s.phase a = .logging job)
      (hlog : job.log s.core s.wal io = (wal, core, result)) :
      Works s a io ({ s with wal := wal, core := core, logged := s.logged ++ job.muts }.setPhase a
        (afterLog job result))
  | flushFailed {job} (wal : Wal) (e : IoError) (hp : s.phase a = .flushing job) :
      Works s a io ({ s with wal := wal }.setPhase a (Engine.flushFailed job e))
  | flushFiles {job} (hp : s.phase a = .flushing job) :
      Works s a io ({ s with wal := Wal.open [] }.setPhase a (.wiping job 0))
  | wipe {job next} (hp : s.phase a = .wiping job next) (h : next < SHARD_COUNT) :
      Works s a io ({ s with core := s.core.clear_shard ⟨next, h⟩ }.setPhase a
        (.wiping job (next + 1)))
  | wiped {job next} (hp : s.phase a = .wiping job next) (h : SHARD_COUNT ≤ next) :
      Works s a io
        ({ s with core := { s.core with kv_live := 0, graveyard := [] } }.setPhase a
          (.publishing job .wiped))
  | skip {job next} (hp : s.phase a = .applying job next none) (h : next < SHARD_COUNT)
      (hitems : FlushCore.itemsOf ⟨next, h⟩ job.muts = []) :
      Works s a io (s.setPhase a (.applying job (next + 1) none))
  | lock {job next} (hp : s.phase a = .applying job next none) (h : next < SHARD_COUNT) :
      Works s a io (s.setPhase a (.applying job next (some s.core.openSnapshots)))
  | push {job next active} (hp : s.phase a = .applying job next (some active))
      (h : next < SHARD_COUNT) :
      Works s a io ({ s with core := s.core.apply_shard ⟨next, h⟩ job.muts active }.setPhase a
        (.applying job (next + 1) none))
  | applied {job next} (hp : s.phase a = .applying job next none) (h : SHARD_COUNT ≤ next) :
      Works s a io (s.setPhase a (.publishing job .applied))
  | publish {job effect} (hp : s.phase a = .publishing job effect) :
      Works s a io
        ({ s with
            core := { s.core with
              visible_ts := max s.core.visible_ts (batchMaxTs job.batch) }
            history := s.history ++ job.events effect
            replies := s.replies ++ job.replies }.setPhase a (afterPublish a job effect))

theorem works_of_work
    {s s' : Engine ρ} {a : Actor} {io : Io} (h : s.work a io = some s') :
    Works s a io s' := by
  unfold work at h
  split at h
  · cases h
  · next hp => cases h; exact .horizon hp
  · next hp =>
      split at h
      · next hg => cases h; exact .noSweep hp hg
      · cases h; exact .ready hp
  · next hp =>
      split at h
      · cases h
      · cases h; exact .sweep _ hp
  · next hp => cases h; exact .swept hp
  · next hp => cases h; exact .resolve hp
  · next hp => cases h; exact .log hp rfl
  · next hp =>
      simp only at h
      split at h
      · cases h; exact .flushFailed _ _ hp
      · split at h
        · cases h; exact .flushFiles hp
        · cases h; exact .flushFailed s.wal .os hp
  · next hp =>
      split at h
      · next hlt =>
          split at h
          · cases h
          · cases h; exact .wipe hp hlt
      · next hle => cases h; exact .wiped hp (Nat.le_of_not_lt hle)
  · next hp =>
      split at h
      · next hlt =>
          split at h
          · next hitems => cases h; exact .skip hp hlt hitems
          · split at h
            · cases h
            · cases h; exact .lock hp hlt
      · next hle => cases h; exact .applied hp (Nat.le_of_not_lt hle)
  · next hp =>
      split at h
      · next hlt => cases h; exact .push hp hlt
      · cases h
  · next hp => cases h; exact .publish hp

/-- What `submit` does with a new commit. -/
inductive Submits (s : Engine ρ) (mk : Nat → PendingWrite ρ) : Engine ρ → Prop
  | queued (hclock : s.clock + 1 < 2 ^ 64 - 1)
      (hmode : s.sync_writes = true ∨ (mk (s.clock + 1)).flush_all.isSome = true) :
      Submits s mk { s with
        clock := s.clock + 1, write_queue := s.write_queue ++ [mk (s.clock + 1)] }
  | direct (hclock : s.clock + 1 < 2 ^ 64 - 1) (hmode : s.sync_writes = false)
      (hflush : (mk (s.clock + 1)).flush_all = none) (hidle : s.phase .direct = .idle) :
      Submits s mk
        ({ s with clock := s.clock + 1 }.setPhase .direct (.resolving [mk (s.clock + 1)]))

theorem submits_of_submit
    {s s' : Engine ρ} {mk : Nat → PendingWrite ρ} (h : s.submit mk = some s') :
    Submits s mk s' := by
  unfold submit at h
  simp only at h
  split at h
  · cases h
  · next hclock =>
      split at h
      · next hmode =>
          cases h
          exact .queued (by omega) (by simpa using hmode)
      · next hmode =>
          simp only [Bool.or_eq_true, not_or, Bool.not_eq_true, Option.isSome_eq_false_iff,
            Option.isNone_iff_eq_none] at hmode
          split at h
          · next hidle =>
              cases h
              exact .direct (by omega) hmode.1 hmode.2 hidle
          · cases h

/-- What the engine can do next. -/
inductive Step (s : Engine ρ) : Act ρ → Engine ρ → Prop
  | begin_ {id} (hid : s.slot id = none) :
      Step s (.begin_ id) { s with
        core := s.core.register s.core.visible_ts
        txns := { id := id, txn := { snapshot := s.core.visible_ts, writes := ∅, reads := [] }
                  obtained := [], committing := none } :: s.txns }
  | ownRead {id key} : Step s (.txnGet id key) s
  | txnGet {id key t} (ht : s.slot id = some t) (hopen : t.committing = none)
      (hun : s.unlocked (shard_of key) = true) :
      Step s (.txnGet id key) (s.setSlot { t with
        txn := { t.txn with reads := t.txn.reads ++ [key] }
        obtained := t.obtained ++ [(key, s.core.get_at key t.txn.snapshot)] })
  | txnPut {id key value t} (writes : ValueMap) (ht : s.slot id = some t)
      (hopen : t.committing = none) :
      Step s (.txnPut id key value) (s.setSlot { t with txn := { t.txn with writes := writes } })
  | txnCommit {id t s₁} (ht : s.slot id = some t) (hopen : t.committing = none)
      (hsub : Submits s (fun ts => t.txn.pending ts) s₁) :
      Step s (.txnCommit id) (s₁.setSlot { t with committing := some (s.clock + 1) })
  | txnDrop {id t} (ht : s.slot id = some t)
      (hdone : ∀ ts, t.committing = some ts → ∃ r, (ts, r) ∈ s.replies) :
      Step s (.txnDrop id) { s with
        core := s.core.unregister t.txn.snapshot
        txns := s.txns.eraseP fun u => u.id = id }
  | dumpStart : Step s .dumpStart (s.pin s.core.visible_ts)
  | ckptPin {snapshot} (hle : snapshot ≤ s.core.last_appended) :
      Step s (.ckptPin snapshot) (s.pin snapshot)
  | unpin {snapshot} (hmem : snapshot ∈ s.pins) :
      Step s (.unpin snapshot) { s with
        core := s.core.unregister snapshot, pins := s.pins.erase snapshot }
  | now (hclock : s.clock + 1 < 2 ^ 64 - 1) : Step s .now { s with clock := s.clock + 1 }
  | submit {r s'} (hsub : Submits s r.pending s') : Step s (.submit r) s'
  | drain (hidle : s.phase .flusher = .idle) (hne : s.write_queue ≠ []) :
      Step s .drain ({ s with write_queue := [] }.setPhase .flusher (.drained s.write_queue))
  | work {a io s'} (hwork : Works s a io s') : Step s (.work a io) s'

theorem step_txnGet {s s' : Engine ρ} {id : Nat} {key : Key} (h : s.txnGet id key = some s') :
    Step s (.txnGet id key) s' := by
  unfold txnGet at h
  split at h
  · cases h
  · next t ht =>
      split at h
      · cases h
      · next hopen =>
          split at h
          · cases h; exact .ownRead
          · next hkey =>
              split at h
              · next hun =>
                  have hnone : t.txn.writes[key]? = none := by simpa using hkey
                  simp only [Txn.get, hnone] at h
                  cases h
                  exact .txnGet ht (by simpa using hopen) hun
              · cases h

theorem step_txnPut
    {s s' : Engine ρ} {id : Nat} {key : Key} {value : Option Value}
    (h : s.txnPut id key value = some s') :
    Step s (.txnPut id key value) s' := by
  unfold txnPut at h
  split at h
  · cases h
  · next t ht =>
      split at h
      · cases h
      · next hopen =>
          split at h <;> cases h <;> exact .txnPut _ ht (by simpa using hopen)

theorem step_txnDrop {s s' : Engine ρ} {id : Nat} (h : s.txnDrop id = some s') :
    Step s (.txnDrop id) s' := by
  unfold txnDrop at h
  split at h
  · cases h
  · next t ht =>
      split at h
      · next hdone =>
          cases h
          refine .txnDrop ht ?_
          intro ts hts
          simp only [answered, hts, List.any_eq_true, decide_eq_true_eq] at hdone
          obtain ⟨r, hr, rfl⟩ := hdone
          exact ⟨r.2, hr⟩
      · cases h

/-- Every step of the engine is one of the cases. -/
theorem step_cases {s s' : Engine ρ} {act : Act ρ} (h : s.step act = some s') :
    Step s act s' := by
  cases act with
  | begin_ id =>
      simp only [step, Engine.begin_] at h
      split at h
      · cases h
      · next hid => cases h; exact .begin_ hid
  | txnGet id key => exact step_txnGet h
  | txnPut id key value => exact step_txnPut h
  | txnCommit id =>
      simp only [step, Engine.txnCommit] at h
      split at h
      · cases h
      · next t ht =>
          split at h
          · cases h
          · next hopen =>
              obtain ⟨s₁, hs₁, rfl⟩ := Option.map_eq_some_iff.mp h
              exact .txnCommit ht (by simpa using hopen) (submits_of_submit hs₁)
  | txnDrop id => exact step_txnDrop h
  | dumpStart => cases h; exact .dumpStart
  | ckptPin snapshot =>
      simp only [step] at h
      split at h
      · next hle => cases h; exact .ckptPin hle
      · cases h
  | unpin snapshot =>
      simp only [step, Engine.unpin] at h
      split at h
      · next hmem => cases h; exact .unpin hmem
      · cases h
  | now =>
      simp only [step] at h
      split at h
      · cases h
      · cases h; exact .now (by omega)
  | submit r => exact .submit (submits_of_submit h)
  | drain =>
      simp only [step, Engine.drain] at h
      split at h
      · next hidle =>
          split at h
          · cases h
          · next hne => cases h; exact .drain hidle (by simpa using hne)
      · cases h
  | work a io => exact .work (works_of_work h)

end Engine
end StrikeDB
