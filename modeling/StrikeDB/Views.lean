import StrikeDB.ElementKeys
import StrikeDB.FailedCommands

/-!
# StrikeDB: commands by what they read

A command sees the live value under every key, its view, and changes it write by
write.  `Cmd.wp c Q v` says that from the view `v` the command `c` ends with an answer
and a view that satisfy `Q`, and that each of its scans stays in the shard of its
hint; what a scan returns is then what reading the keys of its range would.

**Results.**
* `wp_bind`: one command after another.
* `wp_commit`, `wp_snapshot`: what is shown of views holds on the commit path and in a
  transaction.
* `wp_each`: the pages of `each` visit a range.
-/

namespace StrikeDB

variable {α β : Type}

/-- The live value under every key. -/
abbrev View := Key → Option Value

namespace View

def set (v : View) (k : Key) (x : Option Value) : View := Function.update v k x

@[simp] theorem set_self (v : View) (k : Key) (x : Option Value) : v.set k x k = x :=
  Function.update_self ..

theorem set_of_ne {k k' : Key} (h : k' ≠ k) (v : View) (x : Option Value) :
    v.set k x k' = v k' := Function.update_of_ne h ..

end View

namespace Cmd

/-- Run from the view `v`, the command ends as `Q` says. -/
def wp : Cmd α → (α → View → Prop) → View → Prop
  | .ret r, Q, v => Q r v
  | .get key next, Q, v => (next (v key)).wp Q v
  | .put key value next, Q, v => next.wp Q (v.set key.val (live value))
  | .delete key next, Q, v => next.wp Q (v.set key.val none)
  | .scan_range hint start stop limit reverse next, Q, v =>
      Together hint start stop ∧
        ∀ l, Lists v start stop l → (next ((inDirection reverse l).take limit)).wp Q v
  | .set_ttl key _ (some d) next, Q, v => next.wp Q (v.set (expk key) (some (.int d.toInt64)))
  | .set_ttl key (some _) none next, Q, v => next.wp Q (v.set (expk key) none)
  | .set_ttl _ none none next, Q, v => next.wp Q v

theorem wp_mono {c : Cmd α} {Q Q' : α → View → Prop} {v : View} (h : c.wp Q v)
    (hQ : ∀ r v, Q r v → Q' r v) : c.wp Q' v := by
  induction c generalizing v with
  | ret r => exact hQ _ _ h
  | get key next ih => exact ih _ h
  | put key value next ih => exact ih h
  | delete key next ih => exact ih h
  | scan_range hint start stop limit reverse next ih =>
      exact ⟨h.1, fun l hl => ih _ (h.2 l hl)⟩
  | set_ttl key had at_ next ih =>
      cases at_ with
      | some d => exact ih h
      | none => cases had <;> exact ih h

/-- One command after another. -/
theorem wp_bind {c : Cmd α} {f : α → Cmd β} {Q : β → View → Prop} {v : View} :
    (c.bind f).wp Q v ↔ c.wp (fun r v => (f r).wp Q v) v := by
  induction c generalizing v with
  | ret r => rfl
  | get key next ih => exact ih _
  | put key value next ih => exact ih
  | delete key next ih => exact ih
  | scan_range hint start stop limit reverse next ih =>
      exact and_congr_right fun _ => forall₂_congr fun _ _ => ih _
  | set_ttl key had at_ next ih =>
      cases at_ with
      | some d => exact ih
      | none => cases had <;> exact ih

end Cmd

/-! ## Views of a store -/

/-- What an operation on the commit path reads. -/
def viewOf (core : FlushCore) (overlay : ValueMap) (st : OpState) : View :=
  OpStore.get core overlay st

theorem viewOf_write (core : FlushCore) (overlay : ValueMap) (st : OpState) (key : Key)
    (value : Value) :
    viewOf core overlay (st.write key value) = (viewOf core overlay st).set key (live value) := by
  funext k
  unfold viewOf OpStore.get View.set
  rw [writes_write, FlushCore.map_getElem?_insert]
  by_cases hk : key = k
  · subst hk
    rw [if_pos rfl, Function.update_self]
  · rw [if_neg hk, Function.update_of_ne (Ne.symm hk)]

/-- What is shown of views holds on the commit path. -/
theorem Cmd.wp_commit (core : FlushCore) (overlay : ValueMap) {c : Cmd α}
    {Q : α → View → Prop} (exp : List Change) (st : OpState)
    (h : c.wp Q (viewOf core overlay st)) :
    Q (runOp core overlay (c.toOp exp) st).1.1
      (viewOf core overlay (runOp core overlay (c.toOp exp) st).2) := by
  induction c generalizing exp st with
  | ret r => exact h
  | get key next ih => exact ih _ exp st h
  | put key value next ih =>
      refine ih exp (st.write key.val value) ?_
      rw [viewOf_write]
      exact h
  | delete key next ih =>
      refine ih exp (st.write key.val .tombstone) ?_
      rw [viewOf_write]
      exact h
  | scan_range hint start stop limit reverse next ih =>
      obtain ⟨htogether, hnext⟩ := h
      obtain ⟨l, hl, hscan⟩ := OpStore.scan_exact core overlay st hint start stop htogether
      refine ih _ exp st ?_
      rw [hscan]
      exact hnext l hl
  | set_ttl key had at_ next ih =>
      cases at_ with
      | some d =>
          refine ih _ (st.write (expk key) (deadlineValue (some d))) ?_
          rw [viewOf_write]
          exact h
      | none =>
          cases had with
          | none => exact ih exp st h
          | some at_ =>
              refine ih _ (st.write (expk key) .tombstone) ?_
              rw [viewOf_write]
              exact h

theorem Txn.value_put (core : FlushCore) (t : Txn) (key : Key) (value : Value) :
    (t.put key value).value core = View.set (t.value core) key (live value) := by
  funext k
  unfold Txn.value Txn.get Txn.put View.set
  simp only [FlushCore.map_getElem?_insert]
  by_cases hk : key = k
  · subst hk
    rw [if_pos rfl, Function.update_self]
  · rw [if_neg hk, Function.update_of_ne (Ne.symm hk)]
    cases t.writes[k]? <;> rfl

theorem Txn.value_get (core : FlushCore) (t : Txn) (key : Key) :
    (t.get core key).2.value core = t.value core := by
  funext k
  unfold Txn.value Txn.get
  cases t.writes[key]? <;> cases t.writes[k]? <;> rfl

/-- What is shown of views holds in a transaction. -/
theorem Cmd.wp_snapshot (core : FlushCore) {c : Cmd α} {Q : α → View → Prop}
    (exp : List Change) (t : Txn) (h : c.wp Q (t.value core)) :
    Q (runTxn core (c.toOp exp) t).1.1 ((runTxn core (c.toOp exp) t).2.value core) := by
  induction c generalizing exp t with
  | ret r => exact h
  | get key next ih =>
      refine ih _ exp (t.get core key).2 ?_
      rw [Txn.value_get]
      exact h
  | put key value next ih =>
      refine ih exp (t.put key.val value) ?_
      rw [Txn.value_put]
      exact h
  | delete key next ih =>
      refine ih exp (t.delete key.val) ?_
      rw [Txn.delete, Txn.value_put]
      exact h
  | scan_range hint start stop limit reverse next ih =>
      obtain ⟨htogether, hnext⟩ := h
      obtain ⟨l, hl, hscan⟩ := Txn.scan_exact core t hint start stop htogether
      refine ih _ exp t ?_
      rw [hscan]
      exact hnext l hl
  | set_ttl key had at_ next ih =>
      cases at_ with
      | some d =>
          refine ih _ (t.put (expk key) (deadlineValue (some d))) ?_
          rw [Txn.value_put]
          exact h
      | none =>
          cases had with
          | none => exact ih exp t h
          | some at_ =>
              refine ih _ (t.delete (expk key)) ?_
              rw [Txn.delete, Txn.value_put]
              exact h

/-! ## Programs that may fail -/

theorem Cmd.bind_ret (c : Cmd α) : c.bind .ret = c := by
  induction c with
  | ret r => rfl
  | get key next ih => exact congrArg (Cmd.get key) (funext ih)
  | put key value next ih => exact congrArg (Cmd.put key value) ih
  | delete key next ih => exact congrArg (Cmd.delete key) ih
  | scan_range hint start stop limit reverse next ih =>
      exact congrArg (Cmd.scan_range hint start stop limit reverse) (funext ih)
  | set_ttl key had at_ next ih => exact congrArg (Cmd.set_ttl key had at_) ih

theorem Cmd.bind_bind {γ : Type} (c : Cmd α) (f : α → Cmd β) (g : β → Cmd γ) :
    (c.bind f).bind g = c.bind fun a => (f a).bind g := by
  induction c with
  | ret r => rfl
  | get key next ih => exact congrArg (Cmd.get key) (funext ih)
  | put key value next ih => exact congrArg (Cmd.put key value) ih
  | delete key next ih => exact congrArg (Cmd.delete key) ih
  | scan_range hint start stop limit reverse next ih =>
      exact congrArg (Cmd.scan_range hint start stop limit reverse) (funext ih)
  | set_ttl key had at_ next ih => exact congrArg (Cmd.set_ttl key had at_) ih

instance : Monad Cmd where
  pure := .ret
  bind := .bind

instance : LawfulMonad Cmd := LawfulMonad.mk' Cmd Cmd.bind_ret (fun _ _ => rfl) Cmd.bind_bind

/-- `R<T>`: a result, or the error to answer with. -/
abbrev R (α : Type) := ExceptT Resp Cmd α

namespace R

def wp (m : R α) (Q : Except Resp α → View → Prop) (v : View) : Prop := Cmd.wp m.run Q v

/-- What is left to show after a part has ended. -/
def after (f : α → R β) (Q : Except Resp β → View → Prop) : Except Resp α → View → Prop
  | .ok a, v => (f a).wp Q v
  | .error e, v => Q (.error e) v

theorem wp_mono {m : R α} {Q Q' : Except Resp α → View → Prop} {v : View} (h : m.wp Q v)
    (hQ : ∀ r v, Q r v → Q' r v) : m.wp Q' v := Cmd.wp_mono h hQ

@[simp] theorem wp_pure (a : α) (Q : Except Resp α → View → Prop) (v : View) :
    (pure a : R α).wp Q v ↔ Q (.ok a) v := Iff.rfl

@[simp] theorem wp_throw (e : Resp) (Q : Except Resp α → View → Prop) (v : View) :
    (throw e : R α).wp Q v ↔ Q (.error e) v := Iff.rfl

theorem wp_bind {m : R α} {f : α → R β} {Q : Except Resp β → View → Prop} {v : View} :
    (m >>= f).wp Q v ↔ m.wp (after f Q) v := by
  unfold wp
  change (m.run.bind (ExceptT.bindCont f)).wp Q v ↔ _
  rw [Cmd.wp_bind]
  constructor
  · intro h
    exact Cmd.wp_mono h fun r v hr => by cases r <;> exact hr
  · intro h
    exact Cmd.wp_mono h fun r v hr => by cases r <;> exact hr

/-- Run a command to its answer, be it a result or an error. -/
def exec (m : R Resp) : Cmd Resp :=
  m.run.bind fun
    | .ok r => .ret r
    | .error r => .ret r

theorem wp_exec {m : R Resp} {Q : Resp → View → Prop} {v : View}
    (h : m.wp (fun r v => match r with | .ok r => Q r v | .error r => Q r v) v) :
    m.exec.wp Q v := by
  rw [exec, Cmd.wp_bind]
  exact Cmd.wp_mono h fun r v hr => by cases r <;> exact hr

end R

/-! ## The calls of `Ctx` -/

namespace Ctx

def get (key : Key) : R (Option Value) := ExceptT.lift (.get key .ret)
def put (key : PlainKey) (value : Value) : R Unit := ExceptT.lift (.put key value (.ret ()))
def delete (key : PlainKey) : R Unit := ExceptT.lift (.delete key (.ret ()))

def scan_range (hint start stop : Key) (limit : Nat) (reverse : Bool) : R (List (Key × Value)) :=
  ExceptT.lift (.scan_range hint start stop limit reverse .ret)

def set_ttl (key : Bytes) (had at_ : Option UInt64) : R Unit :=
  ExceptT.lift (.set_ttl key had at_ (.ret ()))

section Calls

variable {γ : Type} {Q : Except Resp γ → View → Prop} {v : View}

theorem wp_get {key : Key} {f : Option Value → R γ} :
    (get key >>= f).wp Q v ↔ (f (v key)).wp Q v := by
  rw [R.wp_bind]
  rfl

theorem wp_put {key : PlainKey} {value : Value} {f : Unit → R γ} :
    (put key value >>= f).wp Q v ↔ (f ()).wp Q (v.set key.val (live value)) := by
  rw [R.wp_bind]
  rfl

theorem wp_delete {key : PlainKey} {f : Unit → R γ} :
    (delete key >>= f).wp Q v ↔ (f ()).wp Q (v.set key.val none) := by
  rw [R.wp_bind]
  rfl

theorem wp_put_kv {user : Bytes} {value : Value} {f : Unit → R γ} :
    (put (.kv user) value >>= f).wp Q v ↔ (f ()).wp Q (v.set (kv user) (live value)) := wp_put

theorem wp_delete_kv {user : Bytes} {f : Unit → R γ} :
    (delete (.kv user) >>= f).wp Q v ↔ (f ()).wp Q (v.set (kv user) none) := wp_delete

theorem wp_scan_range {hint start stop : Key} {limit : Nat} {reverse : Bool}
    {f : List (Key × Value) → R γ} :
    (scan_range hint start stop limit reverse >>= f).wp Q v ↔
      Together hint start stop ∧
        ∀ l, Lists v start stop l → (f ((inDirection reverse l).take limit)).wp Q v := by
  rw [R.wp_bind]
  rfl

end Calls

end Ctx
end StrikeDB
