import StrikeDB.Expiry
import StrikeDB.Opening

/-!
# StrikeDB: replication from a primary to its replicas

The primary is the engine with the calls of its commit subscribers made visible:
the flusher calls them for every mutation of a batch, or once for a FLUSHALL,
before it publishes the batch; a client that committed directly in `SYNC=0` mode
calls them after it has let go of `apply_lock`, so that several such clients may
call at the same time.  The hub puts what it is called with into the queue of
every replica.

For each replica a thread of the primary writes a dump at a snapshot, and then
the queue, to the socket (`wire`), from which the replica reads.  A replica
changes by what it reads, and where it purges a key whose deadline has passed by
its own clock.  Here the frames are not yet bytes; an error on a socket, a refused
write of the replica and a new REPLICAOF all end the connection (`drop`), after
which the replica starts again with a full sync.
-/

namespace StrikeDB
namespace Repl

/-- Entries of the queue of a replica. -/
inductive Frame where
  | mutation (m : Mutation)
  | flush
deriving DecidableEq

/-- Frames on the socket. -/
inductive Wire where
  | snap (m : Mutation)
  | ready (snap : Nat)
  | mutation (m : Mutation)
  | ping (ts : Nat)
  | flush
deriving DecidableEq

/-- Mutations a replica may lag behind before it is disconnected. -/
def REPLICA_QUEUE : Nat := 1000000

/-- Frames of the snapshot that a replica writes as one batch, and mutations. -/
def BATCH : Nat := 4096

/-! ## The replica -/

/-- A replica: its store, which only it writes, the part of a snapshot it has not
stored yet, and how far it has applied the primary's commits. -/
structure Replica where
  ks : Keyspace
  clock : Nat
  batch : List (Key × Value)
  max_ts : Nat
  applied : Nat

namespace Replica

/-- One commit of all pairs; of pairs with the same key the last one stays. -/
def put_batch (r : Replica) (kvs : List (Key × Value)) : Replica :=
  { r with
    clock := r.clock + 1
    ks := r.ks.commit (opMuts (r.clock + 1) (kvs.foldl (fun b kv => b.insert kv.1 kv.2) ∅)) }

def wipe_local (r : Replica) : Replica := { r with clock := r.clock + 1, ks := ∅ }

/-- The start of a full sync. -/
def resync (r : Replica) : Replica := { r.wipe_local with batch := [], max_ts := 0 }

def apply_muts (r : Replica) (muts : List Mutation) : Replica :=
  let r' := r.put_batch (muts.map fun m => (m.key, m.value))
  { r' with applied := max r'.applied (muts.foldl (fun t m => max t m.ts) 0) }

def takeSnap (r : Replica) (m : Mutation) : Replica :=
  let r' := { r with max_ts := max r.max_ts m.ts, batch := r.batch ++ [(m.key, m.value)] }
  if r'.batch.length ≥ BATCH then { r'.put_batch r'.batch with batch := [] } else r'

def takeReady (r : Replica) (snap : Nat) : Replica :=
  let r' := if r.batch = [] then r else { r.put_batch r.batch with batch := [] }
  { r' with applied := max snap r'.max_ts }

/-- What a replica does with one frame. -/
def takeFrame (r : Replica) : Wire → Replica
  | .snap m => r.takeSnap m
  | .ready snap => r.takeReady snap
  | .mutation m => r.apply_muts [m]
  | .ping ts => { r with applied := max r.applied ts }
  | .flush => r.wipe_local

/-- Is a frame that is no mutation answered with an ACK? -/
def answers : Wire → Bool
  | .ready _ => true
  | .ping _ => true
  | _ => false

end Replica

/-- The mutations at the front of what was read, at most `n` of them. -/
def leadingMuts : Nat → List Wire → List Mutation × List Wire
  | n + 1, .mutation m :: w => (m :: (leadingMuts n w).1, (leadingMuts n w).2)
  | _, w => ([], w)

/-! ## The primary -/

/-- How far `serve_replica` is. -/
inductive Serving where
  /-- In the map of the hub, but the flag of the hub may not be set yet. -/
  | registering
  | registered
  | dumping (snap next : Nat)
  | streaming (snap : Nat)
deriving DecidableEq

/-- The connection of a replica; `acks` are the lines on their way back. -/
structure Link where
  id : Nat
  queue : List Frame
  serving : Serving
  wire : List Wire
  replica : Replica
  acks : List Nat
  acked : Nat

structure Replication (ρ : Type) where
  eng : Engine ρ
  /-- Calls of the subscribers that the flusher has still to make. -/
  hooks : List Frame
  /-- Those of clients that have committed directly, in commit order. -/
  late : List (List Frame)
  /-- The flag of the hub and its map. -/
  active : Bool
  links : List Link

inductive ReplAct (ρ : Type) where
  | engine (act : Act ρ)
  /-- The flusher makes its next call. -/
  | call
  | callLate (i : Nat)
  | register (id : Nat) (old : Replica)
  | activate (id : Nat)
  | pin (id : Nat)
  | dumpShard (id : Nat)
  | ready (id : Nat)
  /-- The serving thread takes a frame from the queue. -/
  | stream (id : Nat)
  | ping (id : Nat)
  /-- The replica reads a frame; behind a mutation up to `n` more, and the frame
  behind these if that is there, too. -/
  | consume (id n : Nat) (control : Bool)
  /-- The replica purges an expired key by itself. -/
  | purge (id now : Nat) (user : Bytes)
  | ack (id : Nat)
  | drop (id : Nat)

section Primary

variable {ρ : Type}

/-- The calls for a batch that was applied. -/
def Job.calls (job : Job ρ) : List Frame := job.muts.map .mutation

/-- The calls that the flusher has to make after its step. -/
def flusherCalls (before after : Phase ρ) : List Frame :=
  match before, after with
  | .applying .., .publishing job .applied => Job.calls job
  | .wiping .., .publishing _ .wiped => [.flush]
  | _, _ => []

/-- The calls that a client has to make when its direct commit is published. -/
def directCalls : Phase ρ → List (List Frame)
  | .publishing job .applied => [Job.calls job]
  | _ => []

namespace Replication

/-- The calls that are due, in commit order. -/
def due (s : Replication ρ) : List Frame := s.late.flatten ++ s.hooks

/-- A step of the engine.  The flusher makes its calls before it goes on. -/
def engineStep (s : Replication ρ) (act : Act ρ) : Option (Replication ρ) :=
  match act with
  | .work .flusher io =>
      if s.hooks = [] then
        (s.eng.work .flusher io).map fun e =>
          { s with eng := e, hooks := flusherCalls (s.eng.phase .flusher) (e.phase .flusher) }
      else none
  | .work .direct io =>
      (s.eng.work .direct io).map fun e =>
        { s with eng := e, late := s.late ++ directCalls (s.eng.phase .direct) }
  | act => (s.eng.step act).map fun e => { s with eng := e }

/-- Send to every replica; one whose queue is full is disconnected. -/
def broadcast (s : Replication ρ) (f : Frame) : Replication ρ :=
  if s.active then
    let links := (s.links.filter fun l => l.queue.length < REPLICA_QUEUE).map fun l =>
      { l with queue := l.queue ++ [f] }
    { s with links := links, active := !links.isEmpty }
  else s

def call (s : Replication ρ) : Option (Replication ρ) :=
  match s.hooks with
  | [] => none
  | f :: rest => some ({ s with hooks := rest }.broadcast f)

def callLate (s : Replication ρ) (i : Nat) : Option (Replication ρ) :=
  match s.late[i]? with
  | some (f :: rest) => some ({ s with late := s.late.set i rest }.broadcast f)
  | _ => none

def link (s : Replication ρ) (id : Nat) : Option Link := s.links.find? fun l => l.id = id

def setLink (s : Replication ρ) (l : Link) : Replication ρ :=
  { s with links := s.links.map fun l' => if l'.id = l.id then l else l' }

/-- A step on one connection. -/
def onLink (s : Replication ρ) (id : Nat) (f : Link → Option Link) : Option (Replication ρ) :=
  (s.link id).bind fun l => (f l).map s.setLink

/-- The hub gets to know a replica that asks for a full sync. -/
def register (s : Replication ρ) (id : Nat) (old : Replica) : Option (Replication ρ) :=
  match s.link id with
  | some _ => none
  | none =>
      some { s with
        links := { id := id, queue := [], serving := .registering, wire := []
                   replica := old.resync, acks := [], acked := 0 } :: s.links }

def activate (s : Replication ρ) (id : Nat) : Option (Replication ρ) :=
  (s.onLink id fun l =>
    if l.serving = Serving.registering then some { l with serving := Serving.registered } else none).map
    fun s' => { s' with active := true }

/-- The snapshot of the dump is taken and registered. -/
def pin (s : Replication ρ) (id : Nat) : Option (Replication ρ) :=
  match s.eng.step .dumpStart with
  | none => none
  | some e =>
      { s with eng := e }.onLink id fun l =>
        if l.serving = Serving.registered then
          some { l with serving := Serving.dumping s.eng.core.visible_ts 0 }
        else none

/-- What a dump finds in one shard. -/
def page (core : FlushCore) (i : Fin SHARD_COUNT) (snap : Nat) : List Mutation :=
  (core.shards i).toList.filterMap fun e =>
    (e.2.visible snap).map fun v =>
      { key := e.1, value := v, ts := ((e.2.visibleVersion snap).map Version.ts).getD 0 }

def dumpShard (s : Replication ρ) (id : Nat) : Option (Replication ρ) :=
  s.onLink id fun l =>
    match l.serving with
    | .dumping snap next =>
        if h : next < SHARD_COUNT then
          if s.eng.unlocked next then
            some { l with
              serving := .dumping snap (next + 1)
              wire := l.wire ++ (page s.eng.core ⟨next, h⟩ snap).map .snap }
          else none
        else none
    | _ => none

/-- The dump is over. -/
def ready (s : Replication ρ) (id : Nat) : Option (Replication ρ) :=
  match s.link id with
  | some l =>
      match l.serving with
      | .dumping snap next =>
          if SHARD_COUNT ≤ next then
            match s.eng.step (.unpin snap) with
            | none => none
            | some e =>
                some ({ s with eng := e }.setLink { l with
                  serving := .streaming snap, wire := l.wire ++ [Wire.ready snap] })
          else none
      | _ => none
  | none => none

/-- What is written for a frame of the queue: nothing for a mutation that the
dump contains. -/
def forward (snap : Nat) : Frame → List Wire
  | .mutation m => if m.ts > snap then [.mutation m] else []
  | .flush => [.flush]

def stream (s : Replication ρ) (id : Nat) : Option (Replication ρ) :=
  s.onLink id fun l =>
    match l.serving, l.queue with
    | .streaming snap, f :: rest => some { l with queue := rest, wire := l.wire ++ forward snap f }
    | _, _ => none

def ping (s : Replication ρ) (id : Nat) : Option (Replication ρ) :=
  s.onLink id fun l =>
    match l.serving with
    | .streaming _ => some { l with wire := l.wire ++ [.ping s.eng.core.visible_ts] }
    | _ => none

/-- The frame behind mutations, if the replica has it and it is none itself. -/
def controlFrame : Bool → List Wire → Option (Wire × List Wire)
  | true, .mutation _ :: _ => none
  | true, f :: w => some (f, w)
  | _, _ => none

/-- Read a frame that is no mutation. -/
def takeControl (l : Link) (f : Wire) (w : List Wire) : Link :=
  let r := l.replica.takeFrame f
  { l with
    replica := r, wire := w
    acks := if Replica.answers f then l.acks ++ [r.applied] else l.acks }

/-- Mutations are applied together, as many as were there, and then one ACK is
sent, behind that for the frame that follows them. -/
def takeMuts (l : Link) (m : Mutation) (w : List Wire) (n : Nat) (control : Bool) : Link :=
  let more := leadingMuts (min n (BATCH - 1)) w
  let l₁ := { l with replica := l.replica.apply_muts (m :: more.1), wire := more.2 }
  let l₂ :=
    match controlFrame (control && more.1.length < BATCH - 1) more.2 with
    | some (f, w') => takeControl l₁ f w'
    | none => l₁
  { l₂ with acks := l₂.acks ++ [l₂.replica.applied] }

def consume (s : Replication ρ) (id n : Nat) (control : Bool) : Option (Replication ρ) :=
  s.onLink id fun l =>
    match l.wire with
    | [] => none
    | .mutation m :: w => some (takeMuts l m w n control)
    | f :: w => some (takeControl l f w)

/-- The reaper of the replica, or a command that it runs, finds an expired key. -/
def purge (s : Replication ρ) (id now : Nat) (user : Bytes) : Option (Replication ρ) :=
  s.onLink id fun l =>
    match expiredKeys l.replica.ks now user with
    | [] => none
    | keys => some { l with replica := l.replica.put_batch (keys.map fun k => (k, .tombstone)) }

/-- The primary reads an ACK. -/
def ack (s : Replication ρ) (id : Nat) : Option (Replication ρ) :=
  s.onLink id fun l =>
    match l.serving, l.acks with
    | .streaming _, t :: rest => some { l with acks := rest, acked := max l.acked t }
    | _, _ => none

/-- The serving thread of a replica ends. -/
def drop (s : Replication ρ) (id : Nat) : Option (Replication ρ) :=
  match s.link id with
  | none => none
  | some _ =>
      let links := s.links.filter fun l => l.id ≠ id
      some { s with links := links, active := !links.isEmpty }

/-- Replicas whose ack has reached `ts`. -/
def acked_at_least (s : Replication ρ) (ts : Nat) : Nat :=
  (s.links.filter fun l => l.acked ≥ ts).length

def step (s : Replication ρ) : ReplAct ρ → Option (Replication ρ)
  | .engine act => s.engineStep act
  | .call => s.call
  | .callLate i => s.callLate i
  | .register id old => s.register id old
  | .activate id => s.activate id
  | .pin id => s.pin id
  | .dumpShard id => s.dumpShard id
  | .ready id => s.ready id
  | .stream id => s.stream id
  | .ping id => s.ping id
  | .consume id n control => s.consume id n control
  | .purge id now user => s.purge id now user
  | .ack id => s.ack id
  | .drop id => s.drop id

/-- A primary that was just opened. -/
def start (o : Opened) (sync_writes : Bool) : Replication ρ :=
  { eng := Engine.start o sync_writes, hooks := [], late := [], active := false, links := [] }

end Replication
end Primary
end Repl
end StrikeDB
