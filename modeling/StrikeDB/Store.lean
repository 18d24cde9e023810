import StrikeDB.Core

/-!
# StrikeDB: operations on the commit path

An operation handed to `submit_op` is a closure that talks to the keyspace only
through the `Store` trait.  It is modelled as a tree of such calls, each node
branching on the answer, with the value it leaves behind at the leaves.  `runOp`
interprets the tree over the applied state, the overlay of the current flush
batch and the operation's own buffered writes (`OpStore`).
-/

namespace StrikeDB

abbrev ValueMap := Std.ExtTreeMap Key Value

/-- A program over the `Store` interface with result type `ρ`. -/
inductive Op (ρ : Type) where
  | ret (r : ρ)
  | get (key : Key) (next : Option Value → Op ρ)
  | put (key : Key) (value : Value) (next : Op ρ)
  | delete (key : Key) (next : Op ρ)
  | scan_range (hint start stop : Key) (limit : Nat) (reverse : Bool)
      (next : List (Key × Value) → Op ρ)
  | version (key : Key) (next : Nat → Op ρ)
  | has_writes (next : Bool → Op ρ)
  | discard (next : Op ρ)
  | savepoint (next : Nat → Op ρ)
  | rollback_to (sp : Nat) (next : Op ρ)
  | batch_keys (next : List Key → Op ρ)

/-- Go on with the result of an operation. -/
def Op.bind {α β : Type} : Op α → (α → Op β) → Op β
  | .ret r, f => f r
  | .get key next, f => .get key fun v => (next v).bind f
  | .put key value next, f => .put key value (next.bind f)
  | .delete key next, f => .delete key (next.bind f)
  | .scan_range hint start stop limit reverse next, f =>
      .scan_range hint start stop limit reverse fun l => (next l).bind f
  | .version key next, f => .version key fun n => (next n).bind f
  | .has_writes next, f => .has_writes fun b => (next b).bind f
  | .discard next, f => .discard (next.bind f)
  | .savepoint next, f => .savepoint fun sp => (next sp).bind f
  | .rollback_to sp next, f => .rollback_to sp (next.bind f)
  | .batch_keys next, f => .batch_keys fun ks => (next ks).bind f

/-- The mutable part of `OpStore`; the last entry of `undo` stands first. -/
structure OpState where
  writes : ValueMap
  undo : List (Key × Option Value)
  savepoints : Nat

namespace OpState

def init : OpState := { writes := ∅, undo := [], savepoints := 0 }

/-- Remember the previous entry of `key` while a savepoint is open. -/
def record (st : OpState) (key : Key) : OpState :=
  if st.savepoints > 0 then { st with undo := (key, st.writes[key]?) :: st.undo } else st

/-- `put`, and `delete` with a tombstone. -/
def write (st : OpState) (key : Key) (value : Value) : OpState :=
  { st.record key with writes := (st.record key).writes.insert key value }

def discard (st : OpState) : OpState := { st with writes := ∅, undo := [] }

/-- Undo one recorded write. -/
def undoOne (writes : ValueMap) (e : Key × Option Value) : ValueMap :=
  match e.2 with
  | some v => writes.insert e.1 v
  | none => writes.erase e.1

/-- Undo writes until only `sp` are recorded. -/
def rollback_to (st : OpState) (sp : Nat) : OpState :=
  { st with
    writes := (st.undo.take (st.undo.length - sp)).foldl undoOne st.writes
    undo := st.undo.drop (st.undo.length - sp) }

end OpState

/-! ## The merged range scan -/

/-- One source of a merged scan: entries in scan order, `none` for a key whose
newest version is a tombstone. -/
abbrev ScanSource := List (Key × Option Value)

/-- Is `k` before `n` in scan order? -/
def scanBefore (reverse : Bool) (k n : Key) : Bool :=
  if reverse then (compare k n).isGT else (compare k n).isLT

/-- The earlier of the best key so far and the head of a source. -/
def betterHead (reverse : Bool) (next : Option Key) (src : ScanSource) : Option Key :=
  match src, next with
  | [], next => next
  | (k, _) :: _, none => some k
  | (k, _) :: _, some n => if scanBefore reverse k n then some k else some n

/-- The entry of the head of a source, if the head has this key. -/
def headAt (key : Key) : ScanSource → Option (Option Value)
  | [] => none
  | (k, v) :: _ => if k = key then some v else none

/-- Advance a source past this key. -/
def advance (key : Key) : ScanSource → ScanSource
  | [] => []
  | (k, v) :: rest => if k = key then rest else (k, v) :: rest

/-- The loop of `scan_range`: own writes `w` over the overlay `o` over the
applied state `d`, until `room` live entries have been produced. -/
def mergeLoop (reverse : Bool) : Nat → Nat → ScanSource → ScanSource → ScanSource →
    List (Key × Value)
  | 0, _, _, _, _ => []
  | _, 0, _, _, _ => []
  | fuel + 1, room + 1, w, o, d =>
      match betterHead reverse (betterHead reverse (betterHead reverse none w) o) d with
      | none => []
      | some key =>
          let chosen := (headAt key w).orElse fun _ => (headAt key o).orElse fun _ => headAt key d
          match (chosen.bind id).bind live with
          | some v =>
              (key, v) :: mergeLoop reverse fuel room (advance key w) (advance key o) (advance key d)
          | none =>
              mergeLoop reverse fuel (room + 1) (advance key w) (advance key o) (advance key d)

/-- The entries of a map in `[start, stop)`, in scan order. -/
def rangeOf {β : Type} (reverse : Bool) (start stop : Key) (t : Std.ExtTreeMap Key β) :
    List (Key × β) :=
  let l := t.toList.filter fun e => FlushCore.inRange start stop e.1
  if reverse then l.reverse else l

namespace OpStore

/-- Read: own writes, then the batch overlay, then the applied state. -/
def get (core : FlushCore) (overlay : ValueMap) (st : OpState) (key : Key) : Option Value :=
  match st.writes[key]? with
  | some v => live v
  | none =>
      match overlay[key]? with
      | some v => live v
      | none => core.latestValue key

/-- `usize::MAX` entries are more than any range holds. -/
def scan_range (core : FlushCore) (overlay : ValueMap) (st : OpState)
    (hint start stop : Key) (limit : Nat) (reverse : Bool) : List (Key × Value) :=
  if (compare start stop).isGE ∨ limit = 0 then []
  else
    let w := (rangeOf reverse start stop st.writes).map fun e => (e.1, some e.2)
    let o := (rangeOf reverse start stop overlay).map fun e => (e.1, some e.2)
    let d := (rangeOf reverse start stop (core.shards (shard_of hint))).map fun e =>
      (e.1, e.2.latest)
    mergeLoop reverse (w.length + o.length + d.length) limit w o d

/-- `u64::MAX` for a key written in this batch. -/
def version (core : FlushCore) (overlay : ValueMap) (st : OpState) (key : Key) : Nat :=
  if key ∈ st.writes ∨ key ∈ overlay then 2 ^ 64 - 1 else core.key_version key

end OpStore

/-- Run an operation to its end. -/
def runOp {ρ : Type} (core : FlushCore) (overlay : ValueMap) :
    Op ρ → OpState → ρ × OpState
  | .ret r, st => (r, st)
  | .get key next, st => runOp core overlay (next (OpStore.get core overlay st key)) st
  | .put key value next, st => runOp core overlay next (st.write key value)
  | .delete key next, st => runOp core overlay next (st.write key .tombstone)
  | .scan_range hint start stop limit reverse next, st =>
      runOp core overlay
        (next (OpStore.scan_range core overlay st hint start stop limit reverse)) st
  | .version key next, st => runOp core overlay (next (OpStore.version core overlay st key)) st
  | .has_writes next, st => runOp core overlay (next (!st.writes.isEmpty)) st
  | .discard next, st => runOp core overlay next st.discard
  | .savepoint next, st =>
      runOp core overlay (next st.undo.length) { st with savepoints := st.savepoints + 1 }
  | .rollback_to sp next, st => runOp core overlay next (st.rollback_to sp)
  | .batch_keys next, st => runOp core overlay (next overlay.keys) st

theorem runOp_bind
    {α β : Type} (core : FlushCore) (overlay : ValueMap) (p : Op α) (f : α → Op β)
    (st : OpState) :
    runOp core overlay (p.bind f) st =
      runOp core overlay (f (runOp core overlay p st).1) (runOp core overlay p st).2 := by
  induction p generalizing st with
  | ret r => rfl
  | get key next ih => exact ih _ _
  | put key value next ih => exact ih _
  | delete key next ih => exact ih _
  | scan_range hint start stop limit reverse next ih => exact ih _ _
  | version key next ih => exact ih _ _
  | has_writes next ih => exact ih _ _
  | discard next ih => exact ih _
  | savepoint next ih => exact ih _ _
  | rollback_to sp next ih => exact ih _
  | batch_keys next ih => exact ih _ _

end StrikeDB
