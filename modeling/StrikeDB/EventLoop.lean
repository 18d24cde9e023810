import StrikeDB.RespStream
import StrikeDB.Replies

/-!
# StrikeDB: one connection of the event loop

The connection is owned by its worker or, while a batch runs, by a thread of the
blocking pool.  Every system call and every turn of `process_batch` is a step of
its own, so that the client, the other clients and the two threads interleave
freely.  Executing commands is left to an `Executor`; the loops that move the
bytes are the source's.

* `Executor.call`: what a step of the worker does, `Executor.owned` one of the
  pool thread in `run_owned`.
* `step`: the steps of the client, the worker and the pool.
-/

namespace StrikeDB
namespace EventLoop

open Resp (Command ProtocolError Fault parse_commands)

/-- Largest input that waits to be parsed. -/
def QUERY_BUFFER_LIMIT : Nat := 1024 * 1024 * 1024
/-- Stop parsing while this much output waits for a slow reader. -/
def OUTPUT_HIGH_WATER : Nat := 8 * 1024 * 1024
/-- While a connection is paused, buffer at most this much further input. -/
def PAUSED_INPUT_LIMIT : Nat := 16 * 1024 * 1024
/-- The size of the buffer for one read. -/
def READ_SIZE : Nat := 64 * 1024
/-- Polls of a pool thread before it hands the connection back. -/
def OWNED_WAITS : Nat := 6
/-- Reads that may go by without completing a command before it does. -/
def OWNED_READS : Nat := 8

/-! ## The executor -/

/-- How a turn of `process_batch` leaves the batch. -/
inductive Verdict where
  | next
  | quit
  | subscribe
  | replSync
  | failed
deriving DecidableEq, Repr

/-- How a batch left the connection; `Failed` is the `Err` of the source. -/
inductive BatchEnd where
  | Continue
  | Quit
  | Subscribe (cmds : List Command)
  | ReplSync
  | Failed
deriving DecidableEq, Repr

/-- What a turn did: `extra` of the commands behind the first ran with it as one. -/
structure Turn (σ κ : Type) where
  db : σ
  st : κ
  extra : Nat
  replies : Bytes
  verdict : Verdict

/-- What executes commands, on a database shared with the other clients and the state of the
connection. -/
structure Executor (σ κ : Type) where
  new : σ → κ
  turn : σ → κ → Command → List Command → Turn σ κ
  batch_inline : σ → κ → List Command → Bool
  resp3 : κ → Bool

/-- The commands that a turn takes from the batch. -/
def Turn.took {σ κ : Type} (t : Turn σ κ) (cmd : Command) (more : List Command) : List Command :=
  match t.verdict with
  | .next => cmd :: more.take t.extra
  | _ => [cmd]

/-- The commands that it leaves. -/
def Turn.left {σ κ : Type} (t : Turn σ κ) (more : List Command) : List Command :=
  match t.verdict with
  | .next => more.drop t.extra
  | _ => more

/-- How the batch ends when the turn ends it. -/
def Verdict.batchEnd (cmd : Command) (more : List Command) : Verdict → BatchEnd
  | .next => .Continue
  | .quit => .Quit
  | .subscribe => .Subscribe (cmd :: more)
  | .replSync => .ReplSync
  | .failed => .Failed

/-! ## The state -/

/-- The worker's side of a connection.  `st` is taken while a batch runs. -/
structure Conn (κ : Type) where
  rbuf : Bytes
  wbuf : Bytes
  wpos : Nat
  st : Option κ
  close_after_flush : Bool
  more_to_read : Bool
  muted : Bool

namespace Conn

variable {κ : Type}

def pending_out (c : Conn κ) : Nat := c.wbuf.length - c.wpos

/-- Not paused on the pool, not closing, not held up by a slow reader. -/
def ready (c : Conn κ) : Bool :=
  c.st.isSome && !c.close_after_flush && decide (c.pending_out ≤ OUTPUT_HIGH_WATER)

end Conn

/-- What the worker is doing for the connection; `flushing`, `reading`, `received` and `batch`
are the inside of `flush`, `readable` and `process`. -/
inductive Call (κ : Type) where
  | flush
  | flushing (was_backpressured : Bool)
  | readable
  | reading
  | received
  | process
  | batch (st : κ) (cmds : List Command)

/-- Where `run_owned` is. -/
inductive Phase where
  | batch
  | write (ended : BatchEnd)
  | written (ended : BatchEnd)
  | next (waits reads : Nat)
  | read (waits reads : Nat)
deriving DecidableEq

/-- The variables of `run_owned`. -/
structure Job (κ : Type) where
  st : κ
  cmds : List Command
  rbuf : Bytes
  direct : Bool
  out : Bytes
  eof : Bool
  phase : Phase

structure Completion (κ : Type) where
  st : κ
  out : Bytes
  ended : BatchEnd
  rbuf : Bytes
  eof : Bool

/-- A turn of the executor: the database it found, its command and the batch behind that. -/
structure Entry (σ : Type) where
  db : σ
  cmd : Command
  more : List Command

/-- The connection and all that serves it.  `unsent` is what the client has still to send,
`unread` what the socket holds, `room` that the socket takes output, and `armed` that `epoll_wait`
will report the socket.  `log` and `queued` are history: the turns, and all replies that were put
into an output buffer. -/
structure State (σ κ : Type) where
  db : σ
  unsent : Bytes
  shut : Bool
  unread : Bytes
  room : Bool
  armed : Bool
  conn : Option (Conn κ)
  calls : List (Call κ)
  job : Option (Job κ)
  completed : Option (Completion κ)
  handed : Option (Option (List Command) × Conn κ)
  log : List (Entry σ)
  queued : Bytes

/-! ## System calls -/

inductive ReadResult where
  | bytes (n : Nat)
  | zero
  | wouldBlock
  | failed
deriving DecidableEq

inductive WriteResult where
  | bytes (n : Nat)
  | wouldBlock
  | failed
deriving DecidableEq

/-- What a step gets from the outside. -/
inductive Io where
  | nothing
  | read (r : ReadResult)
  | write (w : WriteResult)
  | poll (backlogged quiet : Bool)
deriving DecidableEq

section Server

variable {σ κ : Type}

namespace State

def push (s : State σ κ) (call : Call κ) : State σ κ := { s with calls := call :: s.calls }

def setConn (s : State σ κ) (c : Conn κ) : State σ κ := { s with conn := some c }

/-- The worker leaves the connection; replies that are not written yet are lost. -/
def close (s : State σ κ) : State σ κ := { s with conn := none }

/-- Is there something that `epoll_wait` reports an unmuted socket for? -/
def signalled (s : State σ κ) : Bool := s.room || !s.unread.isEmpty || s.shut

/-- Input and room for output are reported while the socket is not muted. -/
def unmuted (s : State σ κ) : Bool := s.conn.any fun c => !c.muted

def arm (s : State σ κ) : State σ κ := { s with armed := s.armed || s.unmuted }

/-- May the next read answer so? -/
def MayRead (s : State σ κ) : ReadResult → Prop
  | .bytes n => 0 < n ∧ n ≤ READ_SIZE ∧ n ≤ s.unread.length
  | .zero => s.unread = [] ∧ s.shut = true
  | .wouldBlock => s.unread = [] ∧ s.shut = false
  | .failed => True

instance (s : State σ κ) : (r : ReadResult) → Decidable (s.MayRead r)
  | .bytes _ => inferInstanceAs (Decidable (_ ∧ _))
  | .zero => inferInstanceAs (Decidable (_ ∧ _))
  | .wouldBlock => inferInstanceAs (Decidable (_ ∧ _))
  | .failed => isTrue trivial

/-- May a write of `len` bytes answer so? -/
def MayWrite (s : State σ κ) (len : Nat) : WriteResult → Prop
  | .bytes n => 0 < n ∧ n ≤ len ∧ s.room = true
  | .wouldBlock => True
  | .failed => True

instance (s : State σ κ) (len : Nat) : (w : WriteResult) → Decidable (s.MayWrite len w)
  | .bytes _ => inferInstanceAs (Decidable (_ ∧ _))
  | .wouldBlock => isTrue trivial
  | .failed => isTrue trivial

end State

/-! ## The worker -/

/-- `Protocol error: ..`, as the connection's dialect writes it. -/
def protocolError (resp3 : Bool) (msg : Text) : Bytes :=
  (Replies.err (utf8 "Protocol error: " ++ msg)).encode_as resp3

def Fault.text : Fault → Text
  | .invalid e => utf8 e.text
  | .panic => []

/-- Queue a reply for the worker to write, and close behind it. -/
def State.refuse (s : State σ κ) (c : Conn κ) (reply : Bytes) : State σ κ :=
  ({ s with queued := s.queued ++ reply }.setConn
    { c with wbuf := c.wbuf ++ reply, close_after_flush := true }).push .flush

namespace Executor

variable (ex : Executor σ κ)

/-- Move the connection to a thread of its own. -/
def hand_off (s : State σ κ) (c : Conn κ) (subscribe : Option (List Command)) : State σ κ :=
  { s with conn := none, handed := some (subscribe, c) }

/-- Apply how a batch ended; `resume` goes on if it did not end the connection. -/
def finish_batch (s : State σ κ) (c : Conn κ) (ended : BatchEnd) (resume : Call κ) : State σ κ :=
  match ended with
  | .Continue => (s.setConn c).push resume
  | .Quit => (s.setConn { c with close_after_flush := true }).push .flush
  | .Failed => (s.setConn { c with close_after_flush := true }).push .flush
  | .Subscribe cmds => hand_off s c (some cmds)
  | .ReplSync => hand_off s c none

def resume (c : Conn κ) : Call κ := if c.more_to_read then .readable else .process

/-- A slow reader may have caught up: go on with its input. -/
def caughtUp (s : State σ κ) (c : Conn κ) (was_backpressured : Bool) : State σ κ :=
  if was_backpressured && c.ready then (s.setConn c).push (resume c) else s.setConn c

/-- The end of `flush`. -/
def flushed (s : State σ κ) (c : Conn κ) (was_backpressured : Bool) : State σ κ :=
  if c.wpos = c.wbuf.length then
    if c.close_after_flush then s.close
    else caughtUp s { c with wbuf := [], wpos := 0 } was_backpressured
  else if 1 <<< 20 < c.wpos then
    caughtUp s { c with wbuf := c.wbuf.drop c.wpos, wpos := 0 } was_backpressured
  else caughtUp s c was_backpressured

/-- The loop of `flush`. -/
def flushing (s : State σ κ) (c : Conn κ) (was_backpressured : Bool) : Io → Option (State σ κ)
  | .nothing => if c.wpos = c.wbuf.length then some (flushed s c was_backpressured) else none
  | .write w =>
      if c.wpos < c.wbuf.length ∧ s.MayWrite c.pending_out w then
        match w with
        | .bytes n =>
            some ((s.setConn { c with wpos := c.wpos + n }).push (.flushing was_backpressured))
        | .wouldBlock => some (flushed { s with room := false } c was_backpressured)
        | .failed => some s.close
      else none
  | _ => none

/-- The loop of `readable`. -/
def reading (s : State σ κ) (c : Conn κ) : Io → Option (State σ κ)
  | .nothing =>
      if !c.ready && decide (PAUSED_INPUT_LIMIT < c.rbuf.length) then
        some ((s.setConn { c with more_to_read := true }).push .received)
      else none
  | .read r =>
      if (c.ready || decide (c.rbuf.length ≤ PAUSED_INPUT_LIMIT)) ∧ s.MayRead r then
        match r with
        | .bytes n =>
            let c := { c with rbuf := c.rbuf ++ s.unread.take n }
            let s := { s with unread := s.unread.drop n }
            some ((s.setConn c).push
              (if QUERY_BUFFER_LIMIT < c.rbuf.length then .received else .reading))
        | .wouldBlock => some (s.push .received)
        | .zero => some s.close
        | .failed => some s.close
      else none
  | _ => none

/-- The end of `readable`. -/
def received (s : State σ κ) (c : Conn κ) : State σ κ :=
  if QUERY_BUFFER_LIMIT < c.rbuf.length then
    s.refuse { c with rbuf := [] }
      (protocolError (c.st.any ex.resp3) (utf8 "query buffer limit exceeded"))
  else if c.ready then s.push .process
  else s

/-- The head of the loop of `process`: parse, and run the batch here or hand it to the pool. -/
def process (s : State σ κ) (c : Conn κ) : State σ κ :=
  match c.st, c.ready with
  | some st, true =>
      match parse_commands c.rbuf with
      | .error (e, _) => s.refuse c (protocolError (ex.resp3 st) (Fault.text e))
      | .ok ([], rest) => (s.setConn { c with rbuf := rest }).push .flush
      | .ok (cmds, rest) =>
          if ex.batch_inline s.db st cmds then
            (s.setConn { c with rbuf := rest, st := none }).push (.batch st cmds)
          else
            -- with nothing queued ahead the pool thread may write to the socket itself
            let direct := decide (c.pending_out = 0)
            ({ s with
                job := some
                  { st := st, cmds := cmds, rbuf := rest, direct := direct, out := [], eof := false,
                    phase := .batch } }.setConn
              { c with rbuf := [], st := none, muted := c.muted || direct }).push .flush
  | _, _ => s.push .flush

/-- A turn of `process_batch` on the worker. -/
def batch (s : State σ κ) (c : Conn κ) (st : κ) : List Command → State σ κ
  | [] => finish_batch s { c with st := some st } .Continue .process
  | cmd :: more =>
      let t := ex.turn s.db st cmd more
      let c := { c with wbuf := c.wbuf ++ t.replies }
      let s := { s with
        db := t.db
        log := s.log ++ [{ db := s.db, cmd := cmd, more := more }]
        queued := s.queued ++ t.replies }
      match t.verdict with
      | .next => (s.setConn c).push (.batch t.st (t.left more))
      | v => finish_batch s { c with st := some t.st } (v.batchEnd cmd more) .process

/-- A step of the worker. -/
def call (s : State σ κ) (c : Conn κ) : Call κ → Io → Option (State σ κ)
  | .flush, .nothing => some (s.push (.flushing (decide (OUTPUT_HIGH_WATER < c.pending_out))))
  | .flushing was_backpressured, io => flushing s c was_backpressured io
  | .readable, .nothing =>
      if c.st.isNone then some (s.setConn { c with more_to_read := true })
      else some ((s.setConn { c with more_to_read := false }).push .reading)
  | .reading, io => reading s c io
  | .received, .nothing => some (ex.received s c)
  | .process, .nothing => some (ex.process s c)
  | .batch st cmds, .nothing => some (ex.batch s c st cmds)
  | _, _ => none

/-- A batch comes back from the pool. -/
def completions (s : State σ κ) (c : Conn κ) (comp : Completion κ) : State σ κ :=
  let s := { s with armed := s.armed || (c.muted && s.signalled) }
  let c := { c with
    st := some comp.st
    wbuf := c.wbuf ++ comp.out
    rbuf := comp.rbuf
    muted := false
    more_to_read := c.more_to_read || c.muted
    close_after_flush := c.close_after_flush || comp.eof }
  finish_batch s c comp.ended (resume c)

/-! ## The pool thread -/

/-- `run_owned` returns. -/
def complete (s : State σ κ) (j : Job κ) (ended : BatchEnd) : State σ κ :=
  { s with
    job := none
    completed := some { st := j.st, out := j.out, ended := ended, rbuf := j.rbuf, eof := j.eof } }

def setJob (s : State σ κ) (j : Job κ) : State σ κ := { s with job := some j }

/-- The batch is over: write the replies, or let the worker do it. -/
def batchOver (s : State σ κ) (j : Job κ) (ended : BatchEnd) : State σ κ :=
  if j.direct then setJob s { j with phase := .write ended } else complete s j ended

/-- A turn of `process_batch` on the pool thread. -/
def ownedBatch (s : State σ κ) (j : Job κ) : State σ κ :=
  match j.cmds with
  | [] => batchOver s j .Continue
  | cmd :: more =>
      let t := ex.turn s.db j.st cmd more
      let j := { j with st := t.st, cmds := t.left more, out := j.out ++ t.replies }
      let s := { s with
        db := t.db
        log := s.log ++ [{ db := s.db, cmd := cmd, more := more }]
        queued := s.queued ++ t.replies }
      match t.verdict with
      | .next => setJob s j
      | v => batchOver s j (v.batchEnd cmd more)

/-- The replies are written as far as the socket takes them. -/
def ownedWritten (s : State σ κ) (j : Job κ) (ended : BatchEnd) : State σ κ :=
  if j.out ≠ [] ∨ ended ≠ .Continue ∨ QUERY_BUFFER_LIMIT < j.rbuf.length then complete s j ended
  else setJob s { j with phase := .next 0 0 }

def ownedWrite (s : State σ κ) (j : Job κ) (ended : BatchEnd) : Io → Option (State σ κ)
  | .nothing => if j.out = [] then some (setJob s { j with phase := .written ended }) else none
  | .write w =>
      if j.out ≠ [] ∧ s.MayWrite j.out.length w then
        match w with
        | .bytes n => some (setJob s { j with out := j.out.drop n })
        | .wouldBlock =>
            some (setJob { s with room := false } { j with phase := .written ended })
        | .failed => some (setJob s { j with phase := .written ended })
      else none
  | _ => none

/-- Look for the next batch, and wait for input a little while. -/
def ownedNext (s : State σ κ) (j : Job κ) (waits reads : Nat) (backlogged quiet : Bool) :
    State σ κ :=
  match parse_commands j.rbuf with
  | .error _ => complete s j .Continue
  | .ok ([], rest) =>
      let j := { j with rbuf := rest }
      if j.eof then complete s j .Continue
      else if waits = OWNED_WAITS ∨ reads = OWNED_READS ∨ backlogged = true then
        complete s j .Continue
      else if quiet then setJob s { j with phase := .next (waits + 1) reads }
      else setJob s { j with phase := .read waits (reads + 1) }
  | .ok (cmds, rest) => setJob s { j with rbuf := rest, cmds := cmds, phase := .batch }

def ownedRead (s : State σ κ) (j : Job κ) (waits reads : Nat) : Io → Option (State σ κ)
  | .read r =>
      if s.MayRead r then
        match r with
        | .bytes n =>
            let j := { j with rbuf := j.rbuf ++ s.unread.take n }
            let s := { s with unread := s.unread.drop n }
            if n < READ_SIZE ∨ QUERY_BUFFER_LIMIT < j.rbuf.length then
              some (setJob s { j with phase := .next waits reads })
            else some (setJob s j)
        | .wouldBlock => some (setJob s { j with phase := .next waits reads })
        | .zero => some (setJob s { j with eof := true, phase := .next waits reads })
        | .failed => some (setJob s { j with eof := true, phase := .next waits reads })
      else none
  | _ => none

/-- A step of the pool thread. -/
def owned (s : State σ κ) (j : Job κ) (io : Io) : Option (State σ κ) :=
  match j.phase, io with
  | .batch, .nothing => some (ex.ownedBatch s j)
  | .write ended, io => ownedWrite s j ended io
  | .written ended, .nothing => some (ownedWritten s j ended)
  | .next waits reads, .poll backlogged quiet => some (ownedNext s j waits reads backlogged quiet)
  | .read waits reads, io => ownedRead s j waits reads io
  | _, _ => none

end Executor

/-! ## Steps -/

inductive Action (σ : Type) where
  | send (n : Nat)
  | shutdown
  | drain
  | hangup
  | others (db : σ)
  | event (out inp : Bool)
  | collect
  | worker (io : Io)
  | pool (io : Io)

/-- Steps that the server takes, not a client. -/
def Action.isServer : Action σ → Bool
  | .event _ _ => true
  | .collect => true
  | .worker _ => true
  | .pool _ => true
  | _ => false

/-- `epoll_wait` reports the socket: `out` and `inp` are the flags that `conn_event` looks for. -/
def State.event (s : State σ κ) (out inp : Bool) : State σ κ :=
  { s with
    armed := false
    calls := (if out then [.flush] else []) ++ (if inp then [.readable] else []) }

def step (ex : Executor σ κ) (s : State σ κ) : Action σ → Option (State σ κ)
  | .send n =>
      if 0 < n ∧ n ≤ s.unsent.length then
        some { s with unread := s.unread ++ s.unsent.take n, unsent := s.unsent.drop n }.arm
      else none
  | .shutdown => if s.unsent = [] ∧ s.shut = false then some { s with shut := true }.arm else none
  | .drain => some { s with room := true }.arm
  | .hangup => some { s with armed := true }
  | .others db => some { s with db := db }
  | .event out inp =>
      if s.conn.isSome ∧ s.calls.isEmpty ∧ s.armed ∧ (s.room → out) ∧
          (!s.unread.isEmpty ∨ s.shut → inp) then
        some (s.event out inp)
      else none
  | .collect =>
      match s.completed, s.calls with
      | some comp, [] =>
          match s.conn with
          | none => some { s with completed := none }
          | some c => some (Executor.completions { s with completed := none } c comp)
      | _, _ => none
  | .worker io =>
      match s.calls with
      | [] => none
      | call :: calls =>
          match s.conn with
          | none => some { s with calls := calls }
          | some c => ex.call { s with calls := calls } c call io
  | .pool io => s.job.bind fun j => ex.owned s j io

/-- A registered connection, before its first read. -/
def fresh (ex : Executor σ κ) (db : σ) (stream : Bytes) : State σ κ :=
  { db := db
    unsent := stream
    shut := false
    unread := []
    room := true
    armed := false
    conn := some
      { rbuf := [], wbuf := [], wpos := 0, st := some (ex.new db), close_after_flush := false,
        more_to_read := false, muted := false }
    calls := [.readable]
    job := none
    completed := none
    handed := none
    log := []
    queued := [] }

end Server

end EventLoop
end StrikeDB
