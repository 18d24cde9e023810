import StrikeDB.LoggedCommits
import StrikeDB.Recovery

/-!
# StrikeDB: the engine, its files and crashes

An engine in durable mode with its checkpoints (`Checkpointed`), together with the
snapshot, the rotated segment and the live log as they are on the disk.  Appended
bytes are safe once the log is synced; a rename and a removal are atomic.  A crash may
come between any two steps, in the middle of an append, in the middle of the copy that
folds the live log into an older segment, and between the rename of a new snapshot and
the removal of the segment.  What it leaves is the choice of the step `crash`, and
`leaves` says which choices there are.

Beside crashes the steps have the failures of system calls: of an append and of its
rollback, of any `fsync` of the log, of the fold, of the writing of a snapshot and of
the removal of a segment.  FLUSHALL, and the failure to open the fresh log behind a
rotation, are left out.
-/

namespace StrikeDB

section Durable

variable {ρ : Type}

namespace Checkpointed

/-- The file of a checkpoint whose passes are over and agree. -/
def complete (w : Checkpointed ρ) : Option Bytes :=
  match w.ckpt with
  | .writing _ count p written =>
      if p.shard < SHARD_COUNT then none else (outcome count written).toOption
  | _ => none

/-- A file operation of `write_snapshot_at` fails, or the removal of the segment. -/
def giveUp (w : Checkpointed ρ) : Option (Checkpointed ρ) :=
  match w.ckpt with
  | .writing snap _ _ _ =>
      (w.engine.unpin snap).map fun s => { w with engine := s, ckpt := .idle }
  | _ => none

end Checkpointed

/-- The engine that is opened on these files. -/
def Files.engine (f : Files) : Engine ρ :=
  { core := f.core, sync_writes := true, clock := f.core.visible_ts, wal := replayed f.wal
    write_queue := [], phase := fun _ => .idle, txns := [], pins := []
    base := Keyspace.merged f.records, history := [], logged := [], replies := [] }

/-- The engine with its files; `handed` is kept for the statements only. -/
structure Durable (ρ : Type) where
  system : Checkpointed ρ
  /-- The live log at its last `fsync`. -/
  synced : Bytes
  /-- What the live log has held since then. -/
  since : List Bytes
  seg : Option File
  snap : Option Bytes
  /-- The batches that were handed to the log since then. -/
  handed : List (Job ρ)

inductive DurableAct (ρ : Type) where
  | system (act : CkptAct ρ)
  /-- The `fsync` in front of a rotation fails. -/
  | syncFails
  /-- The live log is folded into an older segment, and a system call fails: the copy
  after some bytes, the `fsync` of the segment, or the truncation behind it. -/
  | foldFails (copied : Nat) (segSynced emptied : Bool)
  /-- The snapshot cannot be written. -/
  | abandon
  /-- The snapshot is in place and the segment cannot be removed. -/
  | keepSegment
  | crash (left : Files)

namespace Durable

/-- The files that are found on the disk are opened; what cannot be read at the end of a
log is cut off. -/
def reopen (f : Files) : Durable ρ :=
  { system := { engine := f.engine, ckpt := .idle, pending := f.seg.isSome, results := [] }
    synced := (replayed f.wal).file
    since := [(replayed f.wal).file]
    seg := f.seg.map fun b => File.safe (replayed b).file
    snap := f.snap
    handed := [] }

/-- An engine in a fresh directory. -/
def start : Durable ρ := reopen { snap := none, seg := none, wal := [] }

/-- The live log behind a step of the engine. -/
def follow (d : Durable ρ) (act : Act ρ) (w : Checkpointed ρ) : Durable ρ :=
  let s := d.system.engine
  match act with
  | .work a io =>
      match s.phase a with
      | .logging job =>
          if job.writes = [] then { d with system := w }
          else
            match (job.log s.core s.wal io).2.2 with
            | .ok () =>
                { d with
                  system := w
                  synced := w.engine.wal.file
                  since := [w.engine.wal.file]
                  handed := [] }
            | .error _ =>
                let reached := s.wal.reaches (job.writes.map commit_record) io.write
                { d with
                  system := w
                  since := d.since ++ [s.wal.file ++ reached, w.engine.wal.file]
                  handed := d.handed ++ [job] }
      | _ => { d with system := w }
  | _ => { d with system := w }

/-- The live log is behind what the segment holds, and empty. -/
def rotated (d : Durable ρ) (w : Checkpointed ρ) : Durable ρ :=
  { d with
    system := w
    synced := []
    since := [[]]
    seg := some (File.safe (((d.seg.map File.data).getD []) ++ d.system.engine.wal.file))
    handed := [] }

/-- A fold that fails: the segment has some bytes of the live log, all of them when its
`fsync` was reached; the truncation behind that may have happened without being synced. -/
def foldFails (d : Durable ρ) (copied : Nat) (segSynced emptied : Bool) : Option (Durable ρ) :=
  let wal := d.system.engine.wal
  match d.system.ckpt, d.seg, wal.sync true with
  | .idle, some f, (_, .ok ()) =>
      if wal.file.length < copied ∨ (segSynced ∧ copied ≠ wal.file.length) ∨
          (emptied ∧ !segSynced) then none
      else
        let data := f.data ++ wal.file.take copied
        let wal' := if emptied then (wal.truncate true false).1 else wal
        some { d with
          system := { d.system with engine := { d.system.engine with wal := wal' } }
          synced := wal.file
          since := [wal.file, wal'.file]
          seg := some { data := data, synced := if segSynced then data else f.synced }
          handed := [] }
  | _, _, _ => none

/-- Everything that the live log may have held since its last `fsync`; the flusher may be
in the middle of an append. -/
def contents (d : Durable ρ) : List Bytes :=
  let s := d.system.engine
  match s.phase .flusher with
  | .logging job =>
      d.since ++ [s.wal.file ++ s.wal.reaches (job.writes.map commit_record) .done]
  | _ => d.since

/-- The live log after a crash: the synced bytes and some of those behind them, or a log
that was truncated. -/
def leavesWal (d : Durable ρ) (b : Bytes) : Bool :=
  (d.synced.isPrefixOf b && d.contents.any fun c => b.isPrefixOf c) || d.since.contains b

/-- A segment after a crash. -/
def leavesSeg : Option File → Option Bytes → Bool
  | none, none => true
  | some f, some b => f.synced.isPrefixOf b && b.isPrefixOf f.data
  | _, _ => false

/-- The files after a crash in the middle of a fold: the log is synced, and some bytes of it
are in the segment. -/
def leavesFold (d : Durable ρ) (left : Files) : Bool :=
  let wal := d.system.engine.wal
  match d.system.ckpt, d.seg, wal.sync true with
  | .idle, some f, (_, .ok ()) =>
      left.snap = d.snap && left.wal = wal.file &&
        leavesSeg (some { f with data := f.data ++ wal.file }) left.seg
  | _, _, _ => false

/-- Which files a crash may leave. -/
def leaves (d : Durable ρ) (left : Files) : Bool :=
  (d.leavesWal left.wal && leavesSeg d.seg left.seg &&
      (left.snap = d.snap || (left.snap.isSome && left.snap = d.system.complete))) ||
    d.leavesFold left

def step (d : Durable ρ) : DurableAct ρ → Option (Durable ρ)
  | .system (.engine act) => (d.system.step (.engine act)).map (d.follow act)
  | .system .rotate => (d.system.step .rotate).map d.rotated
  | .system .counted =>
      -- the count is a `u64` that never runs out
      match d.system.ckpt with
      | .counting _ _ count =>
          if 2 ^ 64 ≤ count then none
          else (d.system.step .counted).map fun w => { d with system := w }
      | _ => none
  | .system .finish =>
      (d.system.step .finish).map fun w =>
        match d.system.complete with
        | some file => { d with system := w, snap := some file, seg := none }
        | none => { d with system := w }
  | .system act => (d.system.step act).map fun w => { d with system := w }
  | .syncFails =>
      let wal := d.system.engine.wal
      match d.system.ckpt with
      | .idle =>
          some { d with
            system := { d.system with
              engine := { d.system.engine with wal := (wal.sync false).1 } } }
      | _ => none
  | .foldFails copied segSynced emptied => d.foldFails copied segSynced emptied
  | .abandon => d.system.giveUp.map fun w => { d with system := w }
  | .keepSegment =>
      match d.system.complete with
      | some file => d.system.giveUp.map fun w => { d with system := w, snap := some file }
      | none => none
  | .crash left => if d.leaves left then some (reopen left) else none

/-- No FLUSHALL is submitted, every checkpoint registers its snapshot in time, and a copy
of the live log that fails does not stop inside a frame. -/
def Ok (d : Durable ρ) : DurableAct ρ → Prop
  | .system act => d.system.OnTime act
  | .foldFails copied _ _ =>
      (Framing.scan Crc.crcNat (d.system.engine.wal.file.take copied)).2 = []
  | _ => True

end Durable
end Durable
end StrikeDB
