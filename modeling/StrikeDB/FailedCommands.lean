import StrikeDB.ExpiryCommands
import StrikeDB.Txn

/-!
# StrikeDB: a command that fails writes nothing

A command runs alone (`Keyspace::run`), or as one of several in `run_writes` or in
EXEC, where a savepoint stands before each.  It may write, purge an expired key among
it, before it fails.  Which commands there are does not matter: here a command is any
program over `Ctx`, and `exec` gives the one for a reading or a writing context.

**Results.**
* `Cmd.runOp_toOp`: what a command does depends on the buffered writes alone, not on
  the undo log.
* `runOp_queueCmds`: a queue is the fold of its commands, each taken whole or not at all.
* `failed_commands_write_nothing`: alone and in a queue, a command that fails leaves no
  trace but its reply.
-/

namespace StrikeDB

variable {α ρ : Type}

/-! ## Reading on a snapshot -/

/-- A transaction as a `Store`; it has no savepoints. -/
def runTxn (core : FlushCore) : Op ρ → Txn → ρ × Txn
  | .ret r, t => (r, t)
  | .get key next, t => runTxn core (next (t.get core key).1) (t.get core key).2
  | .put key value next, t => runTxn core next (t.put key value)
  | .delete key next, t => runTxn core next (t.delete key)
  | .scan_range hint start stop limit reverse next, t =>
      runTxn core (next (t.scan_range core hint start stop limit reverse)) t
  | .version key next, t =>
      runTxn core (next (if key ∈ t.writes then 2 ^ 64 - 1 else core.key_version key)) t
  | .has_writes next, t => runTxn core (next (!t.writes.isEmpty)) t
  | .discard next, t => runTxn core next { t with writes := ∅ }
  | .savepoint next, t => runTxn core (next 0) t
  | .rollback_to _ next, t => runTxn core next { t with writes := ∅ }
  | .batch_keys next, t => runTxn core (next []) t

/-- What `run` answers, and what it commits. -/
structure Ran where
  reply : Resp
  effect : ValueMap

/-- The operation of `run`, on the commit path. -/
def on_commit_path (core : FlushCore) (overlay : ValueMap) (op : ClientOp) : Ran :=
  let r := runOp core overlay op.op .init
  { reply := r.1.reply, effect := r.2.writes }

/-- `Keyspace::run`: what is no write is first tried on a snapshot, and run properly when
it tries to write.  `exec true` is the command in a context for reading; `begun` is the
state when it begins. -/
def run (is_keyspace_write : Bool) (exec : Bool → Cmd Resp) (begun core : FlushCore)
    (overlay : ValueMap) : Ran :=
  if is_keyspace_write then on_commit_path core overlay (.run (exec false))
  else
    let r := runTxn begun ((exec true).toOp [])
      { snapshot := begun.visible_ts, writes := ∅, reads := [] }
    if r.2.writes.isEmpty then { reply := r.1.1, effect := ∅ }
    else on_commit_path core overlay (.run (exec false))

/-! ## What a command does -/

/-- Buffered writes without an undo log. -/
def OpState.of (writes : ValueMap) : OpState := { writes := writes, undo := [], savepoints := 0 }

section Effects

variable (core : FlushCore) (overlay : ValueMap)

/-- What a command answers, notes, and leaves as the buffered writes. -/
structure Did (α : Type) where
  answer : α
  exp : List Change
  writes : ValueMap

def Cmd.did (c : Cmd α) (writes : ValueMap) : Did α :=
  let r := runOp core overlay (c.toOp []) (.of writes)
  { answer := r.1.1, exp := r.1.2, writes := r.2.writes }

/-- The rest of a command after a write, with and without an undo log. -/
theorem Cmd.rest_alike {next : Cmd α}
    (ih : ∀ (exp : List Change) (st : OpState),
      (runOp core overlay (next.toOp exp) st).1 = ((next.did core overlay st.writes).answer,
          exp ++ (next.did core overlay st.writes).exp) ∧
        (runOp core overlay (next.toOp exp) st).2.writes =
          (next.did core overlay st.writes).writes)
    (exp new : List Change) (key : Key) (v : Value) (st : OpState) :
    (runOp core overlay (next.toOp (exp ++ new)) (st.write key v)).1 =
        ((runOp core overlay (next.toOp new) ((OpState.of st.writes).write key v)).1.1,
          exp ++ (runOp core overlay (next.toOp new) ((OpState.of st.writes).write key v)).1.2) ∧
      (runOp core overlay (next.toOp (exp ++ new)) (st.write key v)).2.writes =
        (runOp core overlay (next.toOp new) ((OpState.of st.writes).write key v)).2.writes := by
  obtain ⟨hans, hwrites⟩ := ih (exp ++ new) (st.write key v)
  obtain ⟨hans', hwrites'⟩ := ih new ((OpState.of st.writes).write key v)
  have hsame : ((OpState.of st.writes).write key v).writes = (st.write key v).writes := by
    rw [writes_write, writes_write]
    rfl
  rw [hsame] at hans' hwrites'
  rw [hans, hans', hwrites, hwrites', List.append_assoc]
  exact ⟨rfl, rfl⟩

/-- Notes come behind those before them, and the undo log does not show. -/
theorem Cmd.runOp_toOp (c : Cmd α) (exp : List Change) (st : OpState) :
    (runOp core overlay (c.toOp exp) st).1 =
        ((c.did core overlay st.writes).answer, exp ++ (c.did core overlay st.writes).exp) ∧
      (runOp core overlay (c.toOp exp) st).2.writes = (c.did core overlay st.writes).writes := by
  induction c generalizing exp st with
  | ret r => exact ⟨by simp [toOp, runOp, did], rfl⟩
  | get key next ih => exact ih _ exp st
  | scan_range hint start stop limit reverse next ih => exact ih _ exp st
  | put key value next ih =>
      have hrest := rest_alike core overlay ih exp [] key.val value st
      rw [List.append_nil] at hrest
      exact hrest
  | delete key next ih =>
      have hrest := rest_alike core overlay ih exp [] key.val .tombstone st
      rw [List.append_nil] at hrest
      exact hrest
  | set_ttl key had at_ next ih =>
      cases at_ with
      | some d => exact rest_alike core overlay ih exp [(key, some d)] (expk key) _ st
      | none =>
          cases had with
          | none => exact ih exp st
          | some old => exact rest_alike core overlay ih exp [(key, none)] (expk key) _ st

/-- One command of a queue is taken whole or not at all. -/
def Cmd.taken (c : Cmd Resp) (writes : ValueMap) :
    Did Resp :=
  let d := c.did core overlay writes
  if d.answer.isError then { answer := d.answer, exp := [], writes := writes } else d

/-- The commands of a queue, one after the other. -/
def takeAll : List (Cmd Resp) → ValueMap → Did (List Resp)
  | [], writes => { answer := [], exp := [], writes := writes }
  | c :: cmds, writes =>
      let d := c.taken core overlay writes
      let rest := takeAll cmds d.writes
      { answer := d.answer :: rest.answer, exp := d.exp ++ rest.exp, writes := rest.writes }

/-- The savepoints of a queue do what `takeAll` says. -/
theorem runOp_queueCmds (cmds : List (Cmd Resp)) (out : List Resp) (exp : List Change)
    (st : OpState) :
    (runOp core overlay (queueCmds cmds out exp) st).1 =
        ⟨.array (out ++ (takeAll core overlay cmds st.writes).answer),
          exp ++ (takeAll core overlay cmds st.writes).exp⟩ ∧
      (runOp core overlay (queueCmds cmds out exp) st).2.writes =
        (takeAll core overlay cmds st.writes).writes := by
  induction cmds generalizing out exp st with
  | nil => exact ⟨by simp [queueCmds, runOp, takeAll], rfl⟩
  | cons cmd cmds ih =>
      obtain ⟨hans, hwrites⟩ := cmd.runOp_toOp core overlay exp
        { st with savepoints := st.savepoints + 1 }
      have hback := (cmd.undoable core overlay exp
        { st with savepoints := st.savepoints + 1 }).rollback (Nat.succ_pos _)
      rw [queueCmds, runOp, runOp_bind, hans]
      simp only [takeAll, Cmd.taken]
      split
      · rw [runOp]
        obtain ⟨hrest, hrestw⟩ := ih (out ++ [(cmd.did core overlay st.writes).answer]) exp
          ((runOp core overlay (cmd.toOp exp)
            { st with savepoints := st.savepoints + 1 }).2.rollback_to st.undo.length)
        simp only at hback
        rw [hback] at hrest hrestw
        rw [hrest, hrestw]
        exact ⟨by simp, rfl⟩
      · obtain ⟨hrest, hrestw⟩ := ih (out ++ [(cmd.did core overlay st.writes).answer])
          (exp ++ (cmd.did core overlay st.writes).exp)
          (runOp core overlay (cmd.toOp exp) { st with savepoints := st.savepoints + 1 }).2
        rw [hwrites] at hrest hrestw
        rw [hrest, hrestw]
        exact ⟨by simp, rfl⟩

theorem takeAll_append (cmds cmds' : List (Cmd Resp)) (writes : ValueMap) :
    takeAll core overlay (cmds ++ cmds') writes =
      { answer := (takeAll core overlay cmds writes).answer ++
          (takeAll core overlay cmds' (takeAll core overlay cmds writes).writes).answer
        exp := (takeAll core overlay cmds writes).exp ++
          (takeAll core overlay cmds' (takeAll core overlay cmds writes).writes).exp
        writes :=
          (takeAll core overlay cmds' (takeAll core overlay cmds writes).writes).writes } := by
  induction cmds generalizing writes with
  | nil => simp [takeAll]
  | cons c cmds ih => simp [takeAll, ih]

theorem length_takeAll (cmds : List (Cmd Resp)) (writes : ValueMap) :
    (takeAll core overlay cmds writes).answer.length = cmds.length := by
  induction cmds generalizing writes with
  | nil => rfl
  | cons c cmds ih => simp [takeAll, ih]

/-- A command that fails can be left out. -/
theorem takeAll_failed {before after : List (Cmd Resp)} {c : Cmd Resp} {writes : ValueMap}
    {e : Resp}
    (he : (takeAll core overlay (before ++ c :: after) writes).answer[before.length]? = some e)
    (herr : e.isError) :
    takeAll core overlay (before ++ after) writes =
      { takeAll core overlay (before ++ c :: after) writes with
        answer := (takeAll core overlay (before ++ c :: after) writes).answer.eraseIdx
          before.length } := by
  have hlen := length_takeAll core overlay before writes
  simp only [takeAll_append, takeAll] at he ⊢
  generalize takeAll core overlay before writes = b at he hlen ⊢
  have hc : (c.did core overlay b.writes).answer.isError := by
    rw [List.getElem?_append_right (by omega), hlen, Nat.sub_self, List.getElem?_cons_zero] at he
    have hans : (c.taken core overlay b.writes).answer = (c.did core overlay b.writes).answer := by
      unfold Cmd.taken
      simp only
      split
      · rfl
      · rfl
    rw [← hans, Option.some.inj he]
    exact herr
  have htaken : c.taken core overlay b.writes =
      { answer := (c.did core overlay b.writes).answer, exp := [], writes := b.writes } := by
    unfold Cmd.taken
    rw [if_pos hc]
  rw [htaken, List.eraseIdx_append_of_length_le (by omega), hlen, Nat.sub_self,
    List.eraseIdx_cons_zero, List.nil_append]

/-! ## What comes of it -/

/-- The watches of EXEC either stop it, whatever its queue, or let it pass. -/
theorem watched_cases (now : Nat) (watches : List (Bytes × Nat)) :
    (∀ next, runOp core overlay (watched now next watches) .init = (⟨.nil, []⟩, .init)) ∨
      ∀ next, runOp core overlay (watched now next watches) .init =
        runOp core overlay next .init := by
  induction watches with
  | nil => exact .inr fun next => rfl
  | cons w watches ih =>
      obtain ⟨k, snap⟩ := w
      simp only [watched, runOp]
      by_cases hkv : OpStore.version core overlay .init (kv k) > snap
      · simp only [hkv, if_true, runOp]
        exact .inl fun _ => trivial
      · by_cases hexp : OpStore.version core overlay .init (expk k) > snap
        · simp only [hkv, hexp, if_true, if_false, runOp]
          exact .inl fun _ => trivial
        · by_cases hdue : deadlinePassed now (OpStore.get core overlay .init (expk k))
          · simp only [hkv, hexp, hdue, if_true, if_false, runOp]
            exact .inl fun _ => trivial
          · simp only [hkv, hexp, hdue, if_false, runOp]
            exact ih

/-- A command alone on the commit path. -/
theorem on_commit_path_failed {cmd : Cmd Resp}
    (h : (on_commit_path core overlay (.run cmd)).reply.isError) :
    (on_commit_path core overlay (.run cmd)).effect = ∅ := by
  unfold on_commit_path ClientOp.op at h ⊢
  simp only [runOp_bind] at h ⊢
  split
  · rfl
  · next hok =>
      rw [if_neg hok] at h
      exact absurd h hok

end Effects

/-- How several commands are run: `run_writes`, or EXEC with the time and its watches. -/
def inQueue : Option (Nat × List (Bytes × Nat)) → List (Cmd Resp) → ClientOp
  | none, cmds => .run_writes cmds
  | some (now, watches), cmds => .exec_multi now cmds watches

/-- A command that fails has no effect when it runs alone; as one of several, the others
answer, note and write what they would without it. -/
theorem failed_commands_write_nothing (core : FlushCore) (overlay : ValueMap) :
    (∀ (is_keyspace_write : Bool) (exec : Bool → Cmd Resp) (begun : FlushCore),
      (run is_keyspace_write exec begun core overlay).reply.isError →
        (run is_keyspace_write exec begun core overlay).effect = ∅) ∧
    ∀ (queue : Option (Nat × List (Bytes × Nat))) (before after : List (Cmd Resp))
      (c : Cmd Resp) (replies : List Resp) (e : Resp),
      (runOp core overlay (inQueue queue (before ++ c :: after)).op .init).1.reply =
          .array replies →
        replies[before.length]? = some e → e.isError →
          (runOp core overlay (inQueue queue (before ++ after)).op .init).1 =
              ⟨.array (replies.eraseIdx before.length),
                (runOp core overlay (inQueue queue (before ++ c :: after)).op .init).1.exp⟩ ∧
            (runOp core overlay (inQueue queue (before ++ after)).op .init).2.writes =
              (runOp core overlay (inQueue queue (before ++ c :: after)).op .init).2.writes := by
  constructor
  · intro is_keyspace_write exec begun h
    unfold run at h ⊢
    cases is_keyspace_write with
    | true => exact on_commit_path_failed core overlay h
    | false =>
        simp only [Bool.false_eq_true, if_false] at h ⊢
        split
        · rfl
        · next hwrote =>
            rw [if_neg hwrote] at h
            exact on_commit_path_failed core overlay h
  · intro queue before after c replies e hreplies he herr
    have hqueue : ∀ cmds,
        (runOp core overlay (queueCmds cmds [] []) .init).1 =
            ⟨.array (takeAll core overlay cmds ∅).answer, (takeAll core overlay cmds ∅).exp⟩ ∧
          (runOp core overlay (queueCmds cmds [] []) .init).2.writes =
            (takeAll core overlay cmds ∅).writes :=
      fun cmds => runOp_queueCmds core overlay cmds [] [] .init
    have hrest : (runOp core overlay (queueCmds (before ++ c :: after) [] []) .init).1.reply =
          .array replies →
        (runOp core overlay (queueCmds (before ++ after) [] []) .init).1 =
            ⟨.array (replies.eraseIdx before.length),
              (runOp core overlay (queueCmds (before ++ c :: after) [] []) .init).1.exp⟩ ∧
          (runOp core overlay (queueCmds (before ++ after) [] []) .init).2.writes =
            (runOp core overlay (queueCmds (before ++ c :: after) [] []) .init).2.writes := by
      intro hans
      rw [(hqueue (before ++ c :: after)).1, Resp.array.injEq] at hans
      subst hans
      have hout := takeAll_failed core overlay he herr
      rw [(hqueue (before ++ after)).1, (hqueue (before ++ after)).2,
        (hqueue (before ++ c :: after)).1, (hqueue (before ++ c :: after)).2, hout]
      exact ⟨rfl, rfl⟩
    cases queue with
    | none => exact hrest hreplies
    | some w =>
        obtain ⟨now, watches⟩ := w
        unfold inQueue ClientOp.op at hreplies ⊢
        simp only at hreplies ⊢
        rcases watched_cases core overlay now watches with hstop | hpass
        · rw [hstop] at hreplies
          exact nomatch hreplies
        · rw [hpass] at hreplies
          rw [hpass, hpass]
          exact hrest hreplies

/-- An engine without keys. -/
def emptyCore : FlushCore :=
  { shards := fun _ => ∅, visible_ts := 0, kv_live := 0, active := ∅, graveyard := []
    gc_horizon := 0, last_appended := 0 }

/-- A command that writes and then fails. -/
def halfway : Cmd Resp := .put (.kv [1]) (.int 7) (.ret (.error (utf8 "ERR")))

/-- A command that writes and succeeds. -/
def setSeven : Cmd Resp := .put (.kv [1]) (.int 7) (.ret (.int 1))

theorem halfway_writes_nothing :
    (run true (fun _ => halfway) emptyCore emptyCore ∅).effect = ∅ ∧
      (runOp emptyCore ∅ (inQueue none ([setSeven] ++ [setSeven])).op .init).2.writes =
        (runOp emptyCore ∅ (inQueue none ([setSeven] ++ halfway :: [setSeven])).op .init).2.writes :=
  ⟨(failed_commands_write_nothing emptyCore ∅).1 true (fun _ => halfway) emptyCore rfl,
    ((failed_commands_write_nothing emptyCore ∅).2 none [setSeven] [setSeven] halfway _ _
      rfl rfl rfl).2⟩

end StrikeDB
