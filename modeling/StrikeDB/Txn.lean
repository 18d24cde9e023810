import StrikeDB.Store

/-!
# StrikeDB: client transactions

A transaction reads at its snapshot, buffers its writes and remembers the keys
that it read from the store.  What is left out is `watch`, which nothing calls.
-/

namespace StrikeDB

namespace FlushCore

/-- Forward single-shard scan stopping after `limit` live values. -/
def scan_pinned_limit (core : FlushCore) (hint_key start stop : Key) (snapshot limit : Nat) :
    List (Key × Value) :=
  if (compare start stop).isGE then []
  else (core.scanShard (shard_of hint_key) start stop snapshot).take limit

/-- The last `limit` live values in ascending order; a limit of 0 still yields one. -/
def scan_pinned_reverse (core : FlushCore) (hint_key start stop : Key) (snapshot limit : Nat) :
    List (Key × Value) :=
  if (compare start stop).isGE then []
  else
    ((core.scanShard (shard_of hint_key) start stop snapshot).reverse.take (max limit 1)).reverse

end FlushCore

/-- A transaction with snapshot isolation and optimistic conflict detection. -/
structure Txn where
  snapshot : Nat
  writes : ValueMap
  reads : List Key

namespace Txn

/-- Read within the transaction: own writes, else the snapshot view. -/
def get (core : FlushCore) (t : Txn) (key : Key) : Option Value × Txn :=
  match t.writes[key]? with
  | some v => (live v, t)
  | none => (core.get_at key t.snapshot, { t with reads := t.reads ++ [key] })

/-- Buffer a write. -/
def put (t : Txn) (key : Key) (value : Value) : Txn :=
  { t with writes := t.writes.insert key value }

/-- Buffer a delete. -/
def delete (t : Txn) (key : Key) : Txn := t.put key .tombstone

/-- Lay one own write over the pairs of the snapshot. -/
def mergeOwn (merged : ValueMap) (e : Key × Value) : ValueMap :=
  match live e.2 with
  | none => merged.erase e.1
  | some v => merged.insert e.1 v

/-- Range read `[start, stop)` at the snapshot merged with the own writes. -/
def scan_range (core : FlushCore) (t : Txn) (hint start stop : Key) (limit : Nat)
    (reverse : Bool) : List (Key × Value) :=
  if (compare start stop).isGE ∨ limit = 0 then []
  else
    let own := t.writes.toList.filter fun e => FlushCore.inRange start stop e.1
    let fetch := limit + own.length
    let base :=
      if reverse then core.scan_pinned_reverse hint start stop t.snapshot fetch
      else core.scan_pinned_limit hint start stop t.snapshot fetch
    let merged := own.foldl mergeOwn (Std.ExtTreeMap.ofList base)
    if reverse then merged.toList.reverse.take limit else merged.toList.take limit

end Txn
end StrikeDB
