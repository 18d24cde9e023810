import StrikeDB.Engine
import StrikeDB.RespEncode

/-!
# StrikeDB: connections that use WATCH, MULTI and EXEC

A user key has an entry `kv:` for its value or the header of its collection, and
an entry `exp:` for its deadline.  Every change of the key rewrites one of the
two, so EXEC checks exactly these.  A queued command is an arbitrary operation
on the commit path; what the commands of the keyspace do is not modelled.

`Server` is the engine with its connections.  Commands of other clients, the
purging of expired keys and FLUSHALL are steps of the engine.
-/

namespace StrikeDB

def Resp.isError : Resp → Bool
  | .error _ => true
  | _ => false

def kv (key : Bytes) : Key := kvPrefix ++ key

def expk (key : Bytes) : Key := [0x65, 0x78, 0x70, 0x3a] ++ key

/-- The entries that stand for a user key. -/
def watchKeys (key : Bytes) : List Key := [kv key, expk key]

/-- A key whose TTL has passed counts as modified. -/
def deadlinePassed (now : Nat) : Option Value → Bool
  | some (.int deadline) => decide (deadline.toUInt64.toNat ≤ now)
  | _ => false

/-- The commands of a MULTI queue, one after the other; one that fails writes
nothing. -/
def runQueue : List (Op Resp) → List Resp → Op Resp
  | [], out => .ret (.array out)
  | cmd :: cmds, out =>
      .savepoint fun sp =>
        cmd.bind fun r =>
          if r.isError then .rollback_to sp (runQueue cmds (out ++ [r]))
          else runQueue cmds (out ++ [r])

/-- The operation of EXEC: the check of the watches, then the queue. -/
def exec_multi (now : Nat) (cmds : List (Op Resp)) : List (Bytes × Nat) → Op Resp
  | [] => runQueue cmds []
  | (k, snap) :: watches =>
      .version (kv k) fun v =>
        if v > snap then .ret .nil
        else
          .version (expk k) fun v =>
            if v > snap then .ret .nil
            else
              .get (expk k) fun deadline =>
                if deadlinePassed now deadline then .ret .nil else exec_multi now cmds watches

/-- MULTI/EXEC state of a connection: queued commands, whether queuing hit an
error, and watched keys with the snapshot they were watched at. -/
structure ConnState where
  multi : Option (List (Op Resp))
  multi_err : Bool
  watches : List (Bytes × Nat)

/-- An EXEC that was handed to the engine. -/
structure Exec where
  ts : Nat
  now : Nat
  cmds : List (Op Resp)
  watches : List (Bytes × Nat)

structure Server where
  engine : Engine Resp
  conns : Nat → ConnState
  /-- Kept for the statements only. -/
  execs : List Exec

/-- What a connection can send that concerns its MULTI/EXEC state. -/
inductive ConnCmd where
  | multi
  | discard
  | watch (keys : List Bytes)
  | unwatch
  /-- A command inside MULTI, or `none` if it can not be queued. -/
  | queue (cmd : Option (Op Resp))
  /-- `now` is the time when the operation runs. -/
  | exec (now : Nat)

inductive ServerAct where
  | engine (act : Act Resp)
  | conn (c : Nat) (cmd : ConnCmd)

def Exec.op (x : Exec) : Op Resp := exec_multi x.now x.cmds x.watches

/-- The commit that waits for the flusher. -/
def Exec.pending (x : Exec) : PendingWrite Resp := (Request.op x.op).pending x.ts

namespace Server

def setConn (s : Server) (c : Nat) (st : ConnState) : Server :=
  { s with conns := Function.update s.conns c st }

/-- `EXEC` of a connection with its queue. -/
def runExec (s : Server) (c now : Nat) (cmds : List (Op Resp)) : Option Server :=
  let st := s.conns c
  let x : Exec := { ts := s.engine.clock + 1, now := now, cmds := cmds, watches := st.watches }
  (s.engine.step (.submit (.op x.op))).map fun e =>
    { s with engine := e, execs := x :: s.execs }.setConn c
      { multi := none, multi_err := false, watches := [] }

/-- The arms of the dispatch that concern transactions. -/
def transact (s : Server) (c : Nat) (cmd : ConnCmd) : Option Server :=
  let st := s.conns c
  match cmd, st.multi with
  | .multi, some _ => some s
  | .multi, none => some (s.setConn c { st with multi := some [], multi_err := false })
  | .discard, none => some s
  | .discard, some _ => some (s.setConn c { st with multi := none, watches := [] })
  | .exec _, none => some s
  | .exec now, some cmds =>
      if st.multi_err then
        some (s.setConn c { multi := none, multi_err := false, watches := [] })
      else s.runExec c now cmds
  | .watch _, some _ => some s
  | .watch keys, none =>
      some (s.setConn c
        { st with watches := st.watches ++ keys.map fun k => (k, s.engine.core.visible_ts) })
  | .unwatch, _ => some (s.setConn c { st with watches := [] })
  | .queue _, none => some s
  | .queue (some op), some cmds => some (s.setConn c { st with multi := some (cmds ++ [op]) })
  | .queue none, some _ => some (s.setConn c { st with multi_err := true })

def step (s : Server) : ServerAct → Option Server
  | .engine act => (s.engine.step act).map fun e => { s with engine := e }
  | .conn c cmd => s.transact c cmd

/-- What the server can do next: the engine steps, a connection hands an EXEC
over, or a connection changes its own state. -/
inductive Step (s : Server) : ServerAct → Server → Prop
  | engine {act e} (hst : s.engine.Step act e) : Step s (.engine act) { s with engine := e }
  | exec {c now cmds e}
      (hst : s.engine.Step (.submit (.op (exec_multi now cmds (s.conns c).watches))) e) :
      Step s (.conn c (.exec now)) ({ s with
        engine := e
        execs := { ts := s.engine.clock + 1, now := now, cmds := cmds
                   watches := (s.conns c).watches } :: s.execs }.setConn c
          { multi := none, multi_err := false, watches := [] })
  | conn {c cmd st}
      (hwatch : ∀ w ∈ st.watches, w ∈ (s.conns c).watches ∨ w.2 = s.engine.core.visible_ts) :
      Step s (.conn c cmd) (s.setConn c st)

/-- Every step of the server is one of the cases. -/
theorem step_cases {s s' : Server} {act : ServerAct} (h : s.step act = some s') :
    Step s act s' := by
  have hkeep : ∀ c cmd, Step s (.conn c cmd) s := by
    intro c cmd
    have hself : s.setConn c (s.conns c) = s := by simp [setConn]
    have hconn : Step s (.conn c cmd) (s.setConn c (s.conns c)) := .conn fun w hw => Or.inl hw
    rwa [hself] at hconn
  cases act with
  | engine act =>
      obtain ⟨e, he, rfl⟩ := Option.map_eq_some_iff.mp h
      exact .engine (Engine.step_cases he)
  | conn c cmd =>
      simp only [step, transact] at h
      split at h
      · cases h; exact hkeep c _
      · cases h; exact .conn fun w hw => Or.inl hw
      · cases h; exact hkeep c _
      · cases h; exact .conn (by simp)
      · cases h; exact hkeep c _
      · split at h
        · cases h; exact .conn (by simp)
        · obtain ⟨e, he, rfl⟩ := Option.map_eq_some_iff.mp h
          exact .exec (Engine.step_cases he)
      · cases h; exact hkeep c _
      · cases h
        refine .conn ?_
        intro w hw
        rcases List.mem_append.mp hw with hw | hw
        · exact Or.inl hw
        · obtain ⟨k, _, rfl⟩ := List.mem_map.mp hw
          exact Or.inr rfl
      · cases h; exact .conn (by simp)
      · cases h; exact hkeep c _
      · cases h; exact .conn fun w hw => Or.inl hw
      · cases h; exact .conn fun w hw => Or.inl hw

end Server

/-! ### What the operation of EXEC answers -/

theorem runOp_runQueue
    (core : FlushCore) (overlay : ValueMap) (cmds : List (Op Resp)) (out : List Resp)
    (st : OpState) :
    ∃ l, (runOp core overlay (runQueue cmds out) st).1 = .array l := by
  induction cmds generalizing out st with
  | nil => exact ⟨out, rfl⟩
  | cons cmd cmds ih =>
      simp only [runQueue, runOp, runOp_bind]
      split
      · exact ih _ _
      · exact ih _ _

/-- Either a watched entry changed, and EXEC answers nil and writes nothing, or
every watched entry has its old version, and EXEC answers an array. -/
theorem runOp_exec_multi
    (core : FlushCore) (overlay : ValueMap) (now : Nat) (cmds : List (Op Resp))
    (watches : List (Bytes × Nat)) :
    runOp core overlay (exec_multi now cmds watches) OpState.init = (.nil, OpState.init) ∨
      (∃ l, (runOp core overlay (exec_multi now cmds watches) OpState.init).1 = .array l) ∧
        ∀ w ∈ watches, ∀ x ∈ watchKeys w.1,
          OpStore.version core overlay OpState.init x ≤ w.2 := by
  induction watches with
  | nil => exact Or.inr ⟨runOp_runQueue core overlay cmds [] _, by simp⟩
  | cons w watches ih =>
      obtain ⟨k, snap⟩ := w
      simp only [exec_multi, runOp]
      by_cases hkv : OpStore.version core overlay OpState.init (kv k) > snap
      · rw [if_pos hkv]
        exact Or.inl rfl
      · rw [if_neg hkv]
        by_cases hexp : OpStore.version core overlay OpState.init (expk k) > snap
        · simp only [runOp, if_pos hexp]
          exact Or.inl trivial
        · simp only [runOp, if_neg hexp]
          split
          · exact Or.inl rfl
          · rcases ih with hnil | ⟨harr, hver⟩
            · exact Or.inl hnil
            · refine Or.inr ⟨harr, ?_⟩
              intro w hw x hx
              rcases List.mem_cons.mp hw with rfl | hw
              · simp only [watchKeys, List.mem_cons, List.not_mem_nil, or_false] at hx
                rcases hx with rfl | rfl
                · exact Nat.le_of_not_lt hkv
                · exact Nat.le_of_not_lt hexp
              · exact hver w hw x hx

end StrikeDB
