import StrikeDB.Server

/-!
# StrikeDB: purging an expired key

Whoever loads a user key on the commit path, a client's command or the reaper,
first deletes it if its deadline has passed: the elements of its collection, its
value or header, and the deadline.
-/

namespace StrikeDB

/-- `c:{<hex key>}:<sub>`, the common prefix of one element family. -/
def ebase (key : Bytes) (sub : UInt8) : Bytes :=
  let hex : Bytes := key.flatMap fun (b : UInt8) => [hexDigit (b >>> 4), hexDigit (b &&& 15)]
  ([0x63, 0x3a, 0x7b] : Bytes) ++ hex ++ [0x7d, 0x3a, sub]

/-- The element families of a collection type. -/
def type_subs (ty : UInt8) : Bytes :=
  if ty = 1 then [0x68]
  else if ty = 2 then [0x6c]
  else if ty = 3 then [0x73, 0x74]
  else if ty = 4 then [0x6d, 0x7a]
  else if ty = 5 then [0x78, 0x67, 0x70, 0x71]
  else []

/-- What is stored under a user key; of a header only the type matters here. -/
inductive Ent where
  | absent
  | str
  | coll (ty : UInt8)
deriving DecidableEq

/-- The type in a collection header; `none` when it is corrupt. -/
def Meta.ty (b : Bytes) : Option UInt8 := if b.length = 33 ∨ b.length = 57 then b.head? else none

/-- `none` when loading the key is an error. -/
def entOf : Option Value → Option Ent
  | none => some .absent
  | some (.bytes _) => some .str
  | some (.int _) => some .str
  | some (.float _) => some .str
  | some (.metaBytes b) => (Meta.ty b).map .coll
  | some _ => none

/-- The live keys of one element family that a scan of the shard of its first key finds. -/
def elementKeys (ks : Keyspace) (user : Bytes) (sub : UInt8) : List Key :=
  (ks.toList.filter fun e =>
    FlushCore.inRange (ebase user sub) (ebase user (sub + 1)) e.1 && e.2.2.isLive &&
      shard_of e.1 = shard_of (ebase user sub)).map Prod.fst

/-- What `delete_all` deletes of a user key that has a deadline. -/
def deleteAll (ks : Keyspace) (user : Bytes) : Ent → List Key
  | .absent => [expk user]
  | .str => [kv user, expk user]
  | .coll ty => (type_subs ty).flatMap (elementKeys ks user) ++ [kv user, expk user]

/-- The keys that loading a user key deletes at time `now`. -/
def expiredKeys (ks : Keyspace) (now : Nat) (user : Bytes) : List Key :=
  match ks.value (expk user), entOf (ks.value (kv user)) with
  | some (.int at_), some ent => if at_.toUInt64.toNat ≤ now then deleteAll ks user ent else []
  | _, _ => []

end StrikeDB
