import StrikeDB.Mutation

/-!
# StrikeDB: change events

The hub that every committed mutation is announced to.  Commits call `on_commit` at the same
time: a callback looks whether the hub is enabled, draws a number, appends its event to the log
and sends it, each under another lock or none, so that the steps of other callbacks stand in
between.

Sequence numbers do not wrap.  `number`, `sent`, `since` and `received` are what a callback has
drawn and done so far, and what a subscription has got.
-/

namespace StrikeDB
namespace Reactive

/-- A change with its position in the change log. -/
structure CdcEvent where
  seq : Nat
  key : Key
  value : Value
  ts : Nat
deriving DecidableEq

def CDC_LOG_CAP : Nat := 2 ^ 20

/-- The senders by prefix, each by the place of its subscription. -/
abbrev Subs := List (Bytes × List Nat)

namespace Subs

/-- `entry(p).or_default().push(id)`. -/
def register (subs : Subs) (p : Bytes) (id : Nat) : Subs :=
  if subs.any fun e => e.1 = p then
    subs.map fun e => if e.1 = p then (e.1, e.2 ++ [id]) else e
  else subs ++ [(p, [id])]

/-- The senders whose prefix the key has, in the order of iteration. -/
def matching (subs : Subs) (key : Key) : List Nat :=
  (subs.filter fun e => e.1.isPrefixOf key).flatMap Prod.snd

/-- Prune senders whose receiver is gone. -/
def prune (subs : Subs) (dead : List Nat) : Subs :=
  (subs.map fun e => (e.1, e.2.filter (· ∉ dead))).filter fun e => e.2 ≠ []

/-- The sender is registered under the prefix. -/
def Has (subs : Subs) (p : Bytes) (id : Nat) : Prop := ∃ e ∈ subs, e.1 = p ∧ id ∈ e.2

end Subs

/-- How far a callback is. -/
inductive Phase where
  /-- It has not looked whether the hub is enabled. -/
  | begun
  /-- It has no number yet. -/
  | checked
  | drawn
  /-- Its event is in the log. -/
  | logged
  /-- It holds the lock of the senders, and has these left. -/
  | sending (due : List Nat)
  /-- It still has to prune senders. -/
  | pruning
  | done
deriving DecidableEq

structure Callback where
  m : Mutation
  phase : Phase
  /-- 0 as long as none was drawn. -/
  number : Nat
  /-- Senders whose receiver was gone. -/
  dead : List Nat
  /-- Senders that have got the event. -/
  sent : List Nat

namespace Callback

def event (cb : Callback) : CdcEvent :=
  { seq := cb.number, key := cb.m.key, value := cb.m.value, ts := cb.m.ts }

/-- Has its event been appended to the log? -/
def Logged (cb : Callback) : Prop :=
  match cb.phase with
  | .begun => False
  | .checked => False
  | .drawn => False
  | .done => cb.number ≠ 0
  | _ => True

end Callback

structure Subscription where
  prefixes : List Bytes
  /-- How many callbacks had begun before. -/
  since : Nat
  /-- The receiver has not been dropped. -/
  opened : Bool
  received : List CdcEvent

/-- The key has one of the prefixes. -/
def Subscription.Wants (σ : Subscription) (key : Key) : Prop := ∃ p ∈ σ.prefixes, p <+: key

structure Hub where
  seq : Nat
  subs : Subs
  log : List CdcEvent
  enabled : Bool
  subscriptions : List Subscription
  callbacks : List Callback

namespace Hub

def attach : Hub :=
  { seq := 0, subs := [], log := [], enabled := false, subscriptions := [], callbacks := [] }

/-! ## Reading the log -/

/-- Bounded: the oldest quarter is dropped when the log is full. -/
def push (log : List CdcEvent) (ev : CdcEvent) : List CdcEvent :=
  (if log.length ≥ CDC_LOG_CAP then log.drop (CDC_LOG_CAP / 4) else log) ++ [ev]

def cdc_since (h : Hub) (since_seq : Nat) : List CdcEvent :=
  h.log.filter fun e => e.seq > since_seq

/-! ## on_commit -/

/-- Does a callback hold the lock of the senders? -/
def reading (h : Hub) : Bool :=
  h.callbacks.any fun cb =>
    match cb.phase with
    | .sending _ => true
    | _ => false

/-- Is the receiver there? -/
def isOpen (h : Hub) (id : Nat) : Bool :=
  match h.subscriptions[id]? with
  | some σ => σ.opened
  | none => false

/-- `send`, where the receiver is there. -/
def deliver (subscriptions : List Subscription) (id : Nat) (ev : CdcEvent) : List Subscription :=
  subscriptions.modify id fun σ => { σ with received := σ.received ++ [ev] }

/-- The next step of a callback.  `order` is the order in which the senders are iterated, where
they are. -/
def advance (h : Hub) (i : Nat) (cb : Callback) (order : Subs) : Hub :=
  match cb.phase with
  | .begun =>
      { h with
        callbacks := h.callbacks.set i
          { cb with phase := if h.enabled then .checked else .done } }
  | .checked =>
      { h with
        seq := h.seq + 1
        callbacks := h.callbacks.set i { cb with phase := .drawn, number := h.seq + 1 } }
  | .drawn =>
      { h with
        log := push h.log cb.event
        callbacks := h.callbacks.set i { cb with phase := .logged } }
  | .logged =>
      if order.isPerm h.subs then
        { h with
          callbacks := h.callbacks.set i
            { cb with phase := .sending (order.matching cb.m.key) } }
      else h
  | .sending (id :: due) =>
      if h.isOpen id then
        { h with
          subscriptions := deliver h.subscriptions id cb.event
          callbacks := h.callbacks.set i
            { cb with phase := .sending due, sent := id :: cb.sent } }
      else
        { h with
          callbacks := h.callbacks.set i
            { cb with phase := .sending due, dead := id :: cb.dead } }
  | .sending [] =>
      { h with
        callbacks := h.callbacks.set i
          { cb with phase := if cb.dead = [] then .done else .pruning } }
  | .pruning =>
      if h.reading then h
      else
        { h with
          subs := h.subs.prune cb.dead
          callbacks := h.callbacks.set i { cb with phase := .done } }
  | .done => h

/-! ## Steps -/

/-- Subscribe to multiple prefixes through one receiver, in a hub that is enabled. -/
def subscribe_prefixes (h : Hub) (prefixes : List Bytes) : Hub :=
  let id := h.subscriptions.length
  { h with
    subs := prefixes.foldl (fun subs p => subs.register p id) h.subs
    subscriptions := h.subscriptions ++
      [{ prefixes := prefixes, since := h.callbacks.length, opened := true, received := [] }] }

def subscribe_prefix (h : Hub) (p : Bytes) : Hub := h.subscribe_prefixes [p]

inductive Act where
  /-- A mutation is committed, and its callback begins. -/
  | commit (m : Mutation)
  /-- The next step of a callback. -/
  | next (i : Nat) (order : Subs)
  /-- What a subscription or a read of the log begins with. -/
  | enable
  /-- A subscription gets the lock of the senders. -/
  | subscribe (prefixes : List Bytes)
  /-- A receiver is dropped. -/
  | drop (id : Nat)

def step (h : Hub) : Act → Hub
  | .commit m =>
      { h with
        callbacks := h.callbacks ++
          [{ m := m, phase := .begun, number := 0, dead := [], sent := [] }] }
  | .next i order =>
      match h.callbacks[i]? with
      | some cb => h.advance i cb order
      | none => h
  | .enable => { h with enabled := true }
  | .subscribe prefixes =>
      if h.enabled ∧ ¬ h.reading then h.subscribe_prefixes prefixes else h
  | .drop id =>
      { h with subscriptions := h.subscriptions.modify id fun σ => { σ with opened := false } }

def run (h : Hub) (acts : List Act) : Hub := acts.foldl step h

/-! ## What subscribers get -/

/-- Every subscriber gets every event with a key that it asked for, once and in order, and the
log has no gap. -/
structure Ordered (h : Hub) : Prop where
  increasing : ∀ σ ∈ h.subscriptions, σ.received.Pairwise fun a b => a.seq < b.seq
  /-- Whatever was committed after the subscription has been sent when its callback is done. -/
  complete : ∀ σ ∈ h.subscriptions, σ.opened = true → ∀ i cb, σ.since ≤ i →
    h.callbacks[i]? = some cb → cb.phase = .done → σ.Wants cb.m.key → cb.event ∈ σ.received
  only : ∀ σ ∈ h.subscriptions, ∀ e ∈ σ.received,
    σ.Wants e.key ∧ ∃ cb ∈ h.callbacks, cb.number ≠ 0 ∧ cb.event = e
  /-- What is retained is in ascending order, with no gap. -/
  log : h.log.IsChain fun a b => b.seq = a.seq + 1
  retained : ∀ e ∈ h.log, ∃ cb ∈ h.callbacks, cb.number ≠ 0 ∧ cb.event = e
  since : ∀ n, (h.cdc_since n).Pairwise (fun a b => a.seq < b.seq) ∧
    ∀ e, e ∈ h.cdc_since n ↔ e ∈ h.log ∧ n < e.seq

end Hub

end Reactive
end StrikeDB
