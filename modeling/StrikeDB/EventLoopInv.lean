import StrikeDB.EventLoop
import StrikeDB.Runs

/-!
# StrikeDB: who holds a connection, and what is left of its input

At any time one holder has the state of the connection and the input that is read but not run:
the worker, the batch on the worker, the pool thread, or a completion on its way back
(`Owner`).  Once a command has ended the connection, or the input was refused or is used up,
there is no holder (`Final`).

* `Serves`: the turns of a sequential server.
* `Stage`: the invariant, one constructor for each of the three times.
* `Handled`: the condition on the steps, which leaves out those that drop input.
-/

namespace StrikeDB
namespace EventLoop

open Resp (Command Fault ProtocolError Reads Stuck pushed readCommand parse_commands)

variable {σ κ : Type}

/-! ## The sequential server -/

/-- What a server has done for a connection: the commands it ran, its replies, and how the last
turn ended. -/
structure Service (κ : Type) where
  st : κ
  ran : List Command
  replies : Bytes
  verdict : Verdict

def Service.turn (ex : Executor σ κ) (r : Service κ) (e : Entry σ) : Service κ :=
  let t := ex.turn e.db r.st e.cmd e.more
  { st := t.st
    ran := r.ran ++ t.took e.cmd e.more
    replies := r.replies ++ t.replies
    verdict := t.verdict }

/-- Turn after turn, each in the state that the one before it left, until one ends the
connection. -/
inductive Serves (ex : Executor σ κ) (st : κ) : List (Entry σ) → Service κ → Prop
  | start : Serves ex st [] { st := st, ran := [], replies := [], verdict := .next }
  | turn {log : List (Entry σ)} {r : Service κ} (h : Serves ex st log r)
      (hnext : r.verdict = .next) (e : Entry σ) : Serves ex st (log ++ [e]) (r.turn ex e)

/-! ## Holders -/

/-- No batch is running among these calls. -/
def NoBatch (calls : List (Call κ)) : Prop := ∀ st cmds, Call.batch st cmds ∉ calls

theorem noBatch_cons {call : Call κ} {calls : List (Call κ)} :
    NoBatch (call :: calls) ↔ (∀ st cmds, call ≠ .batch st cmds) ∧ NoBatch calls := by
  constructor
  · intro h
    exact ⟨fun st cmds heq => h st cmds (heq ▸ List.mem_cons_self),
      fun st cmds hmem => h st cmds (List.mem_cons_of_mem _ hmem)⟩
  · rintro ⟨hcall, hcalls⟩ st cmds hmem
    rcases List.mem_cons.mp hmem with heq | hmem
    · exact hcall st cmds heq.symm
    · exact hcalls st cmds hmem

theorem noBatch_nil : NoBatch ([] : List (Call κ)) := by
  intro st cmds hmem
  cases hmem

/-- The pool has the connection. -/
def Parked (conn : Option (Conn κ)) : Prop :=
  ∀ c, conn = some c → c.st = none ∧ c.close_after_flush = false

/-- How the batch of the pool thread ended, if it did end the connection. -/
def Phase.ended : Phase → Option BatchEnd
  | .write ended => if ended = .Continue then none else some ended
  | .written ended => if ended = .Continue then none else some ended
  | _ => none

/-- What is left of the batch. -/
def Job.pending (j : Job κ) : List Command :=
  match j.phase with
  | .batch => j.cmds
  | _ => []

/-- Who runs the commands: its state of the connection, its input, and what is left of its
batch. -/
inductive Owner (s : State σ κ) : κ → Bytes → List Command → Prop
  | worker (c : Conn κ) (st : κ) (hconn : s.conn = some c) (hst : c.st = some st)
      (hclose : c.close_after_flush = false) (hcalls : NoBatch s.calls) (hjob : s.job = none)
      (hcompleted : s.completed = none) : Owner s st c.rbuf []
  | inline (c : Conn κ) (st : κ) (cmds : List Command) (calls : List (Call κ))
      (hconn : s.conn = some c) (hst : c.st = none) (hclose : c.close_after_flush = false)
      (hcalls : s.calls = .batch st cmds :: calls) (hrest : NoBatch calls) (hjob : s.job = none)
      (hcompleted : s.completed = none) : Owner s st c.rbuf cmds
  | pool (j : Job κ) (hjob : s.job = some j) (hphase : j.phase.ended = none)
      (hcompleted : s.completed = none) (hcalls : NoBatch s.calls) (hconn : Parked s.conn) :
      Owner s j.st j.rbuf j.pending
  | completed (comp : Completion κ) (hcompleted : s.completed = some comp)
      (hended : comp.ended = .Continue) (hjob : s.job = none) (hcalls : NoBatch s.calls)
      (hconn : Parked s.conn) : Owner s comp.st comp.rbuf []

/-- A command has ended the connection on the pool, and the worker does not know yet. -/
inductive Ending (s : State σ κ) : Prop
  | pool (j : Job κ) (hjob : s.job = some j) (hphase : j.phase.ended ≠ none)
      (hcompleted : s.completed = none) (hcalls : NoBatch s.calls) (hconn : Parked s.conn)
  | completed (comp : Completion κ) (hcompleted : s.completed = some comp)
      (hended : comp.ended ≠ .Continue) (hjob : s.job = none) (hcalls : NoBatch s.calls)
      (hconn : Parked s.conn)

/-- No command will be run any more. -/
structure Final (s : State σ κ) : Prop where
  closing : ∀ c, s.conn = some c → c.close_after_flush = true
  calls : NoBatch s.calls
  job : s.job = none
  completed : s.completed = none

/-- Why no command will be run: one ended the connection, there is no other, or the next one is
malformed and was refused. -/
inductive Over (ex : Executor σ κ) (s : State σ κ) (found : List Command) (left : Bytes)
    (r : Service κ) : Prop
  | ended (hverdict : r.verdict ≠ .next) (hran : r.ran <+: pushed found)
      (hqueued : s.queued = r.replies)
  | drained (hran : r.ran = pushed found) (hleft : readCommand left = .more)
      (hqueued : s.queued = r.replies)
  | refused (e : ProtocolError) (hran : r.ran = pushed found) (hleft : readCommand left = .bad e)
      (hqueued : s.queued = r.replies ++ protocolError (ex.resp3 r.st) (utf8 e.text))

/-- Where the connection is, when the commands `found` are parsed and `left` is not. -/
inductive Stage (ex : Executor σ κ) (s : State σ κ) (found : List Command) (left : Bytes)
    (r : Service κ) : Prop
  | serving (buf : Bytes) (pending : List Command) (howner : Owner s r.st buf pending)
      (hnext : r.verdict = .next) (hleft : left = buf ++ (s.unread ++ s.unsent))
      (hran : r.ran ++ pending = pushed found) (hqueued : s.queued = r.replies)
      (hconn : s.conn = none → readCommand left = .more)
  | ending (hending : Ending s) (hverdict : r.verdict ≠ .next) (hran : r.ran <+: pushed found)
      (hqueued : s.queued = r.replies)
  | finished (hfinal : Final s) (hover : Over ex s found left r)

/-- The call that the worker makes has the connection when it is reading, and all that waits is to
read. -/
structure ReadsOwn (s : State σ κ) : Prop where
  head : ∀ calls, s.calls = .reading :: calls → ∀ c, s.conn = some c → c.st.isSome = true
  tail : ∀ call ∈ s.calls.tail, call = .readable

/-- What was parsed of the stream, what the server did, and where the connection is. -/
structure Inv (ex : Executor σ κ) (st : κ) (stream : Bytes) (s : State σ κ) : Prop where
  stage : ∃ found left r, Reads stream found left ∧ Serves ex st s.log r ∧
    Stage ex s found left r
  reads : ReadsOwn s

/-! ## The condition -/

/-- The input that was read and not parsed. -/
def State.held (s : State σ κ) : Bytes :=
  match s.job, s.completed, s.conn with
  | some j, _, _ => j.rbuf
  | none, some comp, _ => comp.rbuf
  | none, none, some c => c.rbuf
  | none, none, none => []

/-- The rest of the stream. -/
def State.rest (s : State σ κ) : Bytes := s.held ++ (s.unread ++ s.unsent)

/-- A command that was run on the pool has ended the connection. -/
def State.ending (s : State σ κ) : Bool :=
  (s.job.any fun j => j.phase.ended.isSome) ||
    s.completed.any fun comp => decide (comp.ended ≠ .Continue)

/-- Leaving the connection loses nothing: it was over, or the rest of the stream is not a
command. -/
def Lossless (s : State σ κ) (c : Conn κ) : Prop :=
  c.close_after_flush = true ∨ s.ending = true ∨ readCommand s.rest = .more

/-- What is refused is malformed in the whole stream, not only in what was read of it. -/
def RefusedForGood (s : State σ κ) (c : Conn κ) : Prop :=
  ∀ e cursor, parse_commands c.rbuf = .error (e, cursor) →
    readCommand (c.rbuf.drop cursor ++ (s.unread ++ s.unsent)) = readCommand (c.rbuf.drop cursor)

/-- The reply of a batch is written some time: the worker goes on to write it, or the socket
reports that it takes output. -/
def Announced (s : State σ κ) (c : Conn κ) (comp : Completion κ) : Prop :=
  c.muted = true ∨ c.more_to_read = false ∨ s.room = false ∨ s.armed = true ∨
    c.pending_out + comp.out.length ≤ OUTPUT_HIGH_WATER

def HandledCall (s : State σ κ) (c : Conn κ) : Call κ → Io → Prop
  | .reading, .read .zero => Lossless s c
  | .reading, .read .failed => Lossless s c
  | .flushing _, .write .failed => Lossless s c
  | .received, .nothing => c.rbuf.length ≤ QUERY_BUFFER_LIMIT
  | .process, .nothing => c.ready = true → RefusedForGood s c
  | _, _ => True

/-- No step drops input: nothing is left to run when the connection is closed, what waits to be
parsed stays within the limit, and only malformed commands are refused. -/
def Handled (s : State σ κ) : Action σ → Prop
  | .worker io => ∀ call calls c, s.calls = call :: calls → s.conn = some c → HandledCall s c call io
  | .collect => ∀ comp c, s.completed = some comp → s.conn = some c → comp.ended = .Continue →
      (comp.eof = true → readCommand s.rest = .more) ∧ Announced s c comp
  | _ => True

end EventLoop
end StrikeDB
