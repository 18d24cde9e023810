import StrikeDB.ExpiryIndex
import StrikeDB.Text

/-!
# StrikeDB: commands and the deadlines they change

A command of the executor runs on the commit path against a `Ctx`: it reads and
scans the store, writes keys other than `exp:` directly, and changes deadlines
only through `set_ttl`, which writes the `exp:` key and notes the change for the
index in memory.  `Cmd` is any program over that interface.  A command that fails
is undone, its notes included.

**Results.**
* `ClientOp.tracks`: whatever a client runs on the commit path, the notes it carries
  back are exactly its writes to `exp:` keys.
-/

namespace StrikeDB

/-- The prefix of deadlines. -/
def expPrefix : Bytes := [0x65, 0x78, 0x70, 0x3a]

/-- A key that is not the deadline of a user key. -/
def PlainKey := {k : Key // ¬ expPrefix <+: k}

theorem expPrefix_expk (user : Bytes) : expPrefix <+: expk user := ⟨user, rfl⟩

theorem expk_injective {user user' : Bytes} (h : expk user = expk user') : user = user' :=
  List.append_cancel_left h

def PlainKey.kv (user : Bytes) : PlainKey :=
  ⟨StrikeDB.kv user, by simp [expPrefix, StrikeDB.kv, kvPrefix]⟩

/-- A program over `Ctx`. -/
inductive Cmd (α : Type) where
  | ret (r : α)
  | get (key : Key) (next : Option Value → Cmd α)
  | put (key : PlainKey) (value : Value) (next : Cmd α)
  | delete (key : PlainKey) (next : Cmd α)
  | scan_range (hint start stop : Key) (limit : Nat) (reverse : Bool)
      (next : List (Key × Value) → Cmd α)
  | set_ttl (key : Bytes) (had at_ : Option UInt64) (next : Cmd α)

/-- What a deadline is stored as. -/
def deadlineValue : Option UInt64 → Value
  | some d => .int d.toInt64
  | none => .tombstone

namespace Cmd

variable {α β : Type}

def bind : Cmd α → (α → Cmd β) → Cmd β
  | .ret r, f => f r
  | .get key next, f => .get key fun v => (next v).bind f
  | .put key value next, f => .put key value (next.bind f)
  | .delete key next, f => .delete key (next.bind f)
  | .scan_range hint start stop limit reverse next, f =>
      .scan_range hint start stop limit reverse fun l => (next l).bind f
  | .set_ttl key had at_ next, f => .set_ttl key had at_ (next.bind f)

/-- The calls on the store, with the notes for the index (`Ctx::exp`). -/
def toOp : Cmd α → List Change → Op (α × List Change)
  | .ret r, exp => .ret (r, exp)
  | .get key next, exp => .get key fun v => (next v).toOp exp
  | .put key value next, exp => .put key.val value (next.toOp exp)
  | .delete key next, exp => .delete key.val (next.toOp exp)
  | .scan_range hint start stop limit reverse next, exp =>
      .scan_range hint start stop limit reverse fun l => (next l).toOp exp
  | .set_ttl key _ (some d) next, exp =>
      .put (expk key) (deadlineValue (some d)) (next.toOp (exp ++ [(key, some d)]))
  | .set_ttl key (some _) none next, exp =>
      .delete (expk key) (next.toOp (exp ++ [(key, none)]))
  | .set_ttl _ none none next, exp => next.toOp exp

end Cmd

/-! ## Commands on deadlines -/

/-- What is stored under a user key, and its deadline. -/
structure Entry where
  ent : Ent
  ttl : Option UInt64

def Entry.exists_ (e : Entry) : Bool := e.ent ≠ .absent

/-- The deadline that an `exp:` key holds. -/
def deadlineOf : Option Value → Option UInt64
  | some (.int d) => some d.toUInt64
  | _ => none

theorem deadlineOf_live (d : Option UInt64) : deadlineOf (live (deadlineValue d)) = d := by
  cases d with
  | none => rfl
  | some d => simp [deadlineValue, live, Value.isLive, deadlineOf]

/-- Why a key can not be loaded. -/
def loadError : Option Value → Resp
  | some (.metaBytes _) => .error (utf8 "corrupt collection header")
  | _ => .error (utf8 wrongTypeMsg)

/-- The keys that `delete_elements` finds are deleted one by one. -/
def deleteKeys {α : Type} (keys : List Key) (next : Cmd α) : Cmd α :=
  keys.foldr (fun k c => if h : expPrefix <+: k then c else .delete ⟨k, h⟩ c) next

/-- `Ctx::delete_elements`: each family is scanned and deleted. -/
def delete_elements {α : Type} (key : Bytes) (usize_max : Nat) : List UInt8 → Cmd α → Cmd α
  | [], next => next
  | sub :: subs, next =>
      .scan_range (ebase key sub) (ebase key sub) (ebase key (sub + 1)) usize_max false fun l =>
        deleteKeys (l.map Prod.fst) (delete_elements key usize_max subs next)

/-- `Ctx::delete_all`: value or header, every element, and the deadline. -/
def delete_all {α : Type} (key : Bytes) (e : Entry) (usize_max : Nat) (next : Cmd α) : Cmd α :=
  let rest :=
    if e.exists_ then .delete (.kv key) (.set_ttl key e.ttl none next)
    else .set_ttl key e.ttl none next
  match e.ent with
  | .coll ty => delete_elements key usize_max (type_subs ty) rest
  | _ => rest

/-- `Ctx::load`: the entry of a key, deleted first if its deadline has passed. -/
def load (now : UInt64) (key : Bytes) (usize_max : Nat) : Cmd (Except Resp Entry) :=
  .get (expk key) fun v =>
    let ttl := deadlineOf v
    .get (kv key) fun raw =>
      match entOf raw with
      | none => .ret (.error (loadError raw))
      | some ent =>
          match ttl with
          | none => .ret (.ok ⟨ent, none⟩)
          | some d =>
              if d ≤ now then
                delete_all key ⟨ent, some d⟩ usize_max (.ret (.ok ⟨.absent, none⟩))
              else .ret (.ok ⟨ent, some d⟩)

/-- Run `f` on a loaded entry, or answer with the error. -/
def loaded (now : UInt64) (key : Bytes) (usize_max : Nat) (f : Entry → Cmd Resp) : Cmd Resp :=
  (load now key usize_max).bind fun
    | .error e => .ret e
    | .ok e => f e

/-- `PERSIST key` -/
def persist (now : UInt64) (key : Bytes) (usize_max : Nat) : Cmd Resp :=
  loaded now key usize_max fun e =>
    if !e.exists_ || e.ttl.isNone then .ret (.int 0)
    else .set_ttl key e.ttl none (.ret (.int 1))

/-- The options of EXPIRE. -/
structure ExpireOptions where
  nx : Bool
  xx : Bool
  gt : Bool
  lt : Bool

/-- No deadline counts as infinite. -/
def ExpireOptions.allowed (o : ExpireOptions) (at_ : UInt64) : Option UInt64 → Bool
  | none => !o.xx && !o.gt
  | some cur => !o.nx && !(o.gt && at_ ≤ cur) && !(o.lt && at_ ≥ cur)

/-- `EXPIRE` and its relatives, once the arguments have given a deadline. -/
def expire (now : UInt64) (key : Bytes) (at_ : UInt64) (o : ExpireOptions) (usize_max : Nat) :
    Cmd Resp :=
  loaded now key usize_max fun e =>
    if !e.exists_ then .ret (.int 0)
    else if !o.allowed at_ e.ttl then .ret (.int 0)
    else if at_ ≤ now then delete_all key e usize_max (.ret (.int 1))
    else .set_ttl key e.ttl (some at_) (.ret (.int 1))

/-- `DEL key ...` without repeated keys; `count` have been deleted. -/
def del (now : UInt64) (usize_max : Nat) : List Bytes → Int64 → Cmd Resp
  | [], count => .ret (.int count)
  | key :: keys, count =>
      loaded now key usize_max fun e =>
        if e.exists_ then delete_all key e usize_max (del now usize_max keys (count + 1))
        else del now usize_max keys count

/-- `Ctx::put_str`: overwrite a key with a string, replacing any collection. -/
def put_str {α : Type} (key : Bytes) (val : Bytes) (old : Entry) (ttl : Option UInt64)
    (usize_max : Nat) (next : Cmd α) : Cmd α :=
  let rest := .put (.kv key) (.bytes val) (.set_ttl key old.ttl ttl next)
  match old.ent with
  | .coll ty => delete_elements key usize_max (type_subs ty) rest
  | _ => rest

/-- `SET key val` with its conditions, once the arguments have given a deadline. -/
def set (now : UInt64) (key val : Bytes) (nx xx keep : Bool) (ttl : Option UInt64)
    (usize_max : Nat) : Cmd Resp :=
  loaded now key usize_max fun old =>
    if (nx && old.exists_) || (xx && !old.exists_) then .ret .nil
    else
      put_str key val old (if keep then old.ttl else ttl) usize_max
        (.ret (.simple (utf8 "OK")))

/-! ## What a client runs on the commit path -/

/-- What one run produced, carried back from the commit thread. -/
structure Outcome where
  reply : Resp
  exp : List Change

/-- Commands one after the other; one that fails writes nothing and leaves no
notes. -/
def queueCmds : List (Cmd Resp) → List Resp → List Change → Op Outcome
  | [], out, exp => .ret ⟨.array out, exp⟩
  | cmd :: cmds, out, exp =>
      .savepoint fun sp =>
        (cmd.toOp exp).bind fun r =>
          if r.1.isError then .rollback_to sp (queueCmds cmds (out ++ [r.1]) exp)
          else queueCmds cmds (out ++ [r.1]) r.2

/-- The watches of EXEC; a broken one answers nil. -/
def watched (now : Nat) (next : Op Outcome) : List (Bytes × Nat) → Op Outcome
  | [] => next
  | (k, snap) :: watches =>
      .version (kv k) fun v =>
        if v > snap then .ret ⟨.nil, []⟩
        else
          .version (expk k) fun v =>
            if v > snap then .ret ⟨.nil, []⟩
            else
              .get (expk k) fun deadline =>
                if deadlinePassed now deadline then .ret ⟨.nil, []⟩ else watched now next watches

/-- What a client hands to the commit path. -/
inductive ClientOp where
  /-- `Keyspace::run` -/
  | run (cmd : Cmd Resp)
  /-- `Keyspace::run_writes`, and EXEC without watches -/
  | run_writes (cmds : List (Cmd Resp))
  | exec_multi (now : Nat) (cmds : List (Cmd Resp)) (watches : List (Bytes × Nat))
  /-- `Keyspace::purge` -/
  | purge (now : UInt64) (key : Bytes) (usize_max : Nat)

namespace ClientOp

def op : ClientOp → Op Outcome
  | run cmd =>
      (cmd.toOp []).bind fun r =>
        if r.1.isError then .discard (.ret ⟨r.1, []⟩) else .ret ⟨r.1, r.2⟩
  | run_writes cmds => queueCmds cmds [] []
  | exec_multi now cmds watches => watched now (queueCmds cmds [] []) watches
  | purge now key usize_max =>
      ((load now key usize_max).toOp []).bind fun r => .ret ⟨.nil, r.2⟩

end ClientOp

/-! ## The notes are the writes -/

/-- The last note about a user key. -/
def lastChange (exp : List Change) (user : Bytes) : Option (Option UInt64) :=
  exp.foldl (fun last c => if c.1 = user then some c.2 else last) none

theorem lastChange_append (exp : List Change) (c : Change) (user : Bytes) :
    lastChange (exp ++ [c]) user = if c.1 = user then some c.2 else lastChange exp user := by
  simp [lastChange]

/-- The notes are the buffered writes to `exp:` keys. -/
def Recorded (exp : List Change) (writes : ValueMap) : Prop :=
  ∀ user, writes[expk user]? = (lastChange exp user).map deadlineValue

theorem recorded_empty : Recorded [] ∅ := by
  intro user
  simp [lastChange]

theorem Recorded.plain {exp : List Change} {writes : ValueMap} (h : Recorded exp writes)
    (key : PlainKey) (v : Value) : Recorded exp (writes.insert key.val v) := by
  intro user
  have hne : key.val ≠ expk user := by
    intro heq
    exact key.property (heq ▸ expPrefix_expk user)
  rw [FlushCore.map_getElem?_insert, if_neg hne, h user]

theorem Recorded.change {exp : List Change} {writes : ValueMap} (h : Recorded exp writes)
    (key : Bytes) (d : Option UInt64) :
    Recorded (exp ++ [(key, d)]) (writes.insert (expk key) (deadlineValue d)) := by
  intro user
  rw [FlushCore.map_getElem?_insert, lastChange_append]
  by_cases heq : key = user
  · rw [if_pos (congrArg expk heq), if_pos heq]
    rfl
  · rw [if_neg fun h => heq (expk_injective h), if_neg heq, h user]

/-- What a plain operation did since `st` can be undone. -/
structure Undoable (st st' : OpState) : Prop where
  savepoints : st'.savepoints = st.savepoints
  undo : ∃ new, st'.undo = new ++ st.undo ∧
    (0 < st.savepoints → new.foldl OpState.undoOne st'.writes = st.writes)

theorem Undoable.refl (st : OpState) : Undoable st st where
  savepoints := rfl
  undo := ⟨[], rfl, fun _ => rfl⟩

theorem Undoable.trans {a b c : OpState} (hab : Undoable a b) (hbc : Undoable b c) :
    Undoable a c where
  savepoints := hbc.savepoints.trans hab.savepoints
  undo := by
    obtain ⟨new, hnew, hback⟩ := hab.undo
    obtain ⟨new', hnew', hback'⟩ := hbc.undo
    refine ⟨new' ++ new, by rw [hnew', hnew, List.append_assoc], ?_⟩
    intro hpos
    rw [List.foldl_append, hback' (hab.savepoints.symm ▸ hpos), hback hpos]

theorem undoOne_insert (writes : ValueMap) (key : Key) (v : Value) :
    OpState.undoOne (writes.insert key v) (key, writes[key]?) = writes := by
  apply Std.ExtTreeMap.ext_getElem?
  intro k
  unfold OpState.undoOne
  cases hold : writes[key]? with
  | none =>
      simp only [FlushCore.map_getElem?_erase, FlushCore.map_getElem?_insert]
      by_cases hk : key = k
      · rw [if_pos hk, ← hk, hold]
      · rw [if_neg hk, if_neg hk]
  | some old =>
      simp only [FlushCore.map_getElem?_insert]
      by_cases hk : key = k
      · rw [if_pos hk, ← hk, hold]
      · rw [if_neg hk, if_neg hk]

theorem writes_write (st : OpState) (key : Key) (v : Value) :
    (st.write key v).writes = st.writes.insert key v := by
  unfold OpState.write OpState.record
  split <;> rfl

theorem undoable_write (st : OpState) (key : Key) (v : Value) : Undoable st (st.write key v) := by
  by_cases hpos : 0 < st.savepoints
  · refine ⟨by simp [OpState.write, OpState.record, hpos], [(key, st.writes[key]?)], ?_, ?_⟩
    · simp [OpState.write, OpState.record, hpos]
    · intro _
      rw [writes_write]
      exact undoOne_insert st.writes key v
  · refine ⟨by simp [OpState.write, OpState.record, hpos], [], ?_, ?_⟩
    · simp [OpState.write, OpState.record, hpos]
    · intro h
      exact absurd h hpos

/-- Going back to a savepoint restores the writes. -/
theorem Undoable.rollback {st st' : OpState} (h : Undoable st st') (hpos : 0 < st.savepoints) :
    (st'.rollback_to st.undo.length).writes = st.writes := by
  obtain ⟨new, hnew, hback⟩ := h.undo
  have hlen : st'.undo.length - st.undo.length = new.length := by
    rw [hnew, List.length_append, Nat.add_sub_cancel]
  simp only [OpState.rollback_to]
  rw [hlen, hnew, List.take_left]
  exact hback hpos

section Tracking

variable {α : Type} (core : FlushCore) (overlay : ValueMap)

/-- Whatever a command writes can be undone. -/
theorem Cmd.undoable (c : Cmd α) (exp : List Change) (st : OpState) :
    Undoable st (runOp core overlay (c.toOp exp) st).2 := by
  induction c generalizing exp st with
  | ret r => exact .refl st
  | get key next ih => exact ih _ exp st
  | scan_range hint start stop limit reverse next ih => exact ih _ exp st
  | put key value next ih => exact (undoable_write st _ _).trans (ih exp _)
  | delete key next ih => exact (undoable_write st _ _).trans (ih exp _)
  | set_ttl key had at_ next ih =>
      cases at_ with
      | some d => exact (undoable_write st _ _).trans (ih _ _)
      | none =>
          cases had with
          | none => exact ih exp st
          | some old => exact (undoable_write st _ _).trans (ih _ _)

/-- A command keeps the notes in step with the writes. -/
theorem Cmd.recorded (c : Cmd α) (exp : List Change) (st : OpState)
    (h : Recorded exp st.writes) :
    Recorded (runOp core overlay (c.toOp exp) st).1.2
      (runOp core overlay (c.toOp exp) st).2.writes := by
  induction c generalizing exp st with
  | ret r => exact h
  | get key next ih => exact ih _ exp st h
  | scan_range hint start stop limit reverse next ih => exact ih _ exp st h
  | put key value next ih =>
      refine ih exp (st.write key.val value) ?_
      rw [writes_write]
      exact h.plain key value
  | delete key next ih =>
      refine ih exp (st.write key.val .tombstone) ?_
      rw [writes_write]
      exact h.plain key .tombstone
  | set_ttl key had at_ next ih =>
      have hchange : ∀ d, Recorded (exp ++ [(key, d)])
          (st.write (expk key) (deadlineValue d)).writes := by
        intro d
        rw [writes_write]
        exact h.change key d
      cases at_ with
      | some d => exact ih _ _ (hchange (some d))
      | none =>
          cases had with
          | none => exact ih exp st h
          | some old => exact ih _ _ (hchange none)

/-- The notes that an operation carries back are its writes to `exp:` keys. -/
def Tracks (op : Op Outcome) : Prop :=
  ∀ (core : FlushCore) (overlay : ValueMap),
    Recorded (runOp core overlay op .init).1.exp (runOp core overlay op .init).2.writes

theorem queueCmds_recorded (cmds : List (Cmd Resp)) (out : List Resp) (exp : List Change)
    (st : OpState) (h : Recorded exp st.writes) :
    Recorded (runOp core overlay (queueCmds cmds out exp) st).1.exp
      (runOp core overlay (queueCmds cmds out exp) st).2.writes := by
  induction cmds generalizing out exp st with
  | nil => exact h
  | cons cmd cmds ih =>
      rw [queueCmds, runOp, runOp_bind]
      have hrec := cmd.recorded core overlay exp { st with savepoints := st.savepoints + 1 } h
      have hundo := cmd.undoable core overlay exp { st with savepoints := st.savepoints + 1 }
      split
      · rw [runOp]
        refine ih _ _ _ ?_
        have hback := hundo.rollback (Nat.succ_pos _)
        simp only at hback
        rw [hback]
        exact h
      · exact ih _ _ _ hrec

theorem watched_recorded (now : Nat) (next : Op Outcome) (watches : List (Bytes × Nat))
    (hnext : Tracks next) :
    Recorded (runOp core overlay (watched now next watches) .init).1.exp
      (runOp core overlay (watched now next watches) .init).2.writes := by
  induction watches with
  | nil => exact hnext core overlay
  | cons w watches ih =>
      obtain ⟨k, snap⟩ := w
      rw [watched, runOp]
      split
      · exact recorded_empty
      · rw [runOp]
        split
        · exact recorded_empty
        · rw [runOp]
          split
          · exact recorded_empty
          · exact ih

end Tracking

/-- Whatever a client runs on the commit path, the notes it carries back are
exactly its writes to `exp:` keys. -/
theorem ClientOp.tracks (j : ClientOp) : Tracks j.op := by
  intro core overlay
  cases j with
  | run cmd =>
      rw [op, runOp_bind]
      split
      · exact recorded_empty
      · exact cmd.recorded core overlay [] .init recorded_empty
  | run_writes cmds => exact queueCmds_recorded core overlay cmds [] [] .init recorded_empty
  | exec_multi now cmds watches =>
      exact watched_recorded core overlay now _ watches fun core overlay =>
        queueCmds_recorded core overlay cmds [] [] .init recorded_empty
  | purge now key usize_max =>
      rw [op, runOp_bind]
      exact (load now key usize_max).recorded core overlay [] .init recorded_empty

end StrikeDB
