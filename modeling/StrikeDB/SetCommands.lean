import StrikeDB.CollRuns

/-!
# StrikeDB: set commands

A set has two element families: `s` gives the position of each member, and `t` the member
at each position, so that a random one is one read away.  A removal moves the last member
into the hole.  `Call` is a command with its arguments checked, and `Call.Means` says what
it does for sets.
-/

namespace StrikeDB
namespace Sets

open Ctx Coll
open Lists (parse_i64 not_int int seq_bytes)

def T_SET : UInt8 := 3
def SUB_SET : UInt8 := 0x73
def SUB_SETPOS : UInt8 := 0x74

/-- Most picks one `SRANDMEMBER key -count` may return. -/
def MAX_RANDOM_PICKS : Int := 2 ^ 24

/-- `BTreeSet<Vec<u8>>` -/
abbrev Members := Std.ExtTreeSet Bytes

/-- SINTER, SUNION and SDIFF. -/
inductive SetOp where
  | inter | union | diff
deriving DecidableEq

/-- The commands by their names. -/
inductive Name where
  | sadd | srem | sismember | smismember | scard | smembers | spop | srandmember
  | op (o : SetOp)
  | opstore (o : SetOp)
  | smove
deriving DecidableEq

def SetOp.word : SetOp → String
  | inter => "sinter"
  | union => "sunion"
  | diff => "sdiff"

def Name.word : Name → String
  | sadd => "sadd"
  | srem => "srem"
  | sismember => "sismember"
  | smismember => "smismember"
  | scard => "scard"
  | smembers => "smembers"
  | spop => "spop"
  | srandmember => "srandmember"
  | op o => o.word
  | opstore o => o.word ++ "store"
  | smove => "smove"

def wrong_args (name : Name) : Resp :=
  err ("wrong number of arguments for '" ++ name.word ++ "' command")

/-- A command with its arguments checked. -/
inductive Call where
  | add (key : Bytes) (members : List Bytes)
  | rem (key : Bytes) (members : List Bytes)
  | ismember (key member : Bytes)
  | mismember (key : Bytes) (members : List Bytes)
  | card (key : Bytes)
  | all (key : Bytes)
  | pop (key : Bytes) (count : Option Int)
  | randmember (key : Bytes) (count : Option Int)
  | op (o : SetOp) (srcs : List Bytes)
  | opstore (o : SetOp) (dst : Bytes) (srcs : List Bytes)
  | move (src dst member : Bytes)

def must_be_positive : Resp := err "value is out of range, must be positive"

def out_of_range : Resp :=
  err "value is out of range, value must between -9223372036854775807 and 9223372036854775807"

/-- The count of SPOP and SRANDMEMBER. -/
def parseCount (pop : Bool) (c : Bytes) : Except Resp Int :=
  match parse_i64 c with
  | none => .error not_int
  | some c =>
      if pop ∧ c < 0 then .error must_be_positive
      -- the smallest integer cannot be negated, and a huge count would never be answered
      else if c = -2 ^ 63 ∨ c < -MAX_RANDOM_PICKS then .error out_of_range
      else .ok c

def parse (name : Name) (a : List Bytes) : Except Resp Call :=
  match name, a with
  | .sadd, key :: member :: rest => .ok (.add key (member :: rest))
  | .srem, key :: member :: rest => .ok (.rem key (member :: rest))
  | .sismember, [key, member] => .ok (.ismember key member)
  | .smismember, key :: member :: rest => .ok (.mismember key (member :: rest))
  | .scard, [key] => .ok (.card key)
  | .smembers, [key] => .ok (.all key)
  | .spop, [key] => .ok (.pop key none)
  | .spop, [key, c] => (parseCount true c).map fun c => .pop key (some c)
  | .srandmember, [key] => .ok (.randmember key none)
  | .srandmember, [key, c] => (parseCount false c).map fun c => .randmember key (some c)
  | .op o, src :: srcs => .ok (.op o (src :: srcs))
  | .opstore o, dst :: src :: srcs => .ok (.opstore o dst (src :: srcs))
  | .smove, [src, dst, member] => .ok (.move src dst member)
  | name, _ => .error (wrong_args name)

/-! ## Members and positions -/

def memberKey (key member : Bytes) : Key := Elements.ekey key SUB_SET member

def positionKey (key : Bytes) (pos : Int) : Key := Elements.ekey key SUB_SETPOS (seq_bytes pos)

def set_add (key : Bytes) (m : Meta) (member : Bytes) : R (Bool × Meta) := do
  let cur ← get (memberKey key member)
  if cur.isSome then pure (false, m)
  else do
    put (elemKey key SUB_SET member) (.int (.ofInt m.len))
    put (elemKey key SUB_SETPOS (seq_bytes m.len)) (.bytes member)
    pure (true, { m with len := m.len + 1 })

/-- Move the last member into the hole. -/
def fillHole (key : Bytes) (pos last : Int) : R Unit := do
  match ← get (positionKey key last) with
  | some (.bytes lm) => do
      put (elemKey key SUB_SETPOS (seq_bytes pos)) (.bytes lm)
      put (elemKey key SUB_SET lm) (.int (.ofInt pos))
  | _ => pure ()

def set_rem (key : Bytes) (m : Meta) (member : Bytes) : R (Bool × Meta) := do
  match ← get (memberKey key member) with
  | some (.int pos) => do
      let last : Int := m.len - 1
      if pos.toInt ≠ last then fillHole key pos.toInt last else pure ()
      delete (elemKey key SUB_SETPOS (seq_bytes last))
      delete (elemKey key SUB_SET member)
      pure (true, { m with len := m.len - 1 })
  | _ => pure (false, m)

def bytesOf : Option Value → Bytes
  | some (.bytes b) => b
  | _ => []

def set_at (key : Bytes) (pos : Nat) : R Bytes := do
  let v ← get (positionKey key pos)
  pure (bytesOf v)

def set_members (cx : Ctx) (key : Bytes) : R (List Bytes) := do
  match ← cx.coll key T_SET with
  | none => pure []
  | some _ => do
      let l ← elements key SUB_SET
      pure (l.map Prod.fst)

/-! ## The commands -/

def addAll (key : Bytes) : List Bytes → Nat → Meta → R (Nat × Meta)
  | [], added, m => pure (added, m)
  | v :: vs, added, m => do
      let (new, m) ← set_add key m v
      addAll key vs (added + new.toNat) m

def sadd (cx : Ctx) (key : Bytes) (members : List Bytes) : R Resp := do
  let (m, ttl) ← coll_or_new cx key T_SET
  let (added, m) ← addAll key members 0 m
  if 0 < added then put_meta key m ttl
  pure (int added)

def remAll (key : Bytes) : List Bytes → Nat → Meta → R (Nat × Meta)
  | [], c, m => pure (c, m)
  | v :: vs, c, m => do
      let (gone, m) ← set_rem key m v
      remAll key vs (c + gone.toNat) m

def srem (cx : Ctx) (key : Bytes) (members : List Bytes) : R Resp := do
  match ← cx.coll key T_SET with
  | none => pure (int 0)
  | some (m, ttl) => do
      let (c, m) ← remAll key members 0 m
      if 0 < c then put_meta key m ttl
      pure (int c)

def sismember (cx : Ctx) (key member : Bytes) : R Resp := do
  match ← cx.coll key T_SET with
  | none => pure (int 0)
  | some _ => do
      let v ← get (memberKey key member)
      pure (int (if v.isSome then 1 else 0))

def askAll (key : Bytes) : List Bytes → R (List Resp)
  | [] => pure []
  | v :: vs => do
      let cur ← get (memberKey key v)
      let rest ← askAll key vs
      pure (int (if cur.isSome then 1 else 0) :: rest)

def smismember (cx : Ctx) (key : Bytes) (members : List Bytes) : R Resp := do
  match ← cx.coll key T_SET with
  | none => pure (.array (members.map fun _ => int 0))
  | some _ => do
      let out ← askAll key members
      pure (.array out)

def scard (cx : Ctx) (key : Bytes) : R Resp := do
  match ← cx.coll key T_SET with
  | none => pure (int 0)
  | some (m, _) => pure (int m.len)

def smembers (cx : Ctx) (key : Bytes) : R Resp := do
  let l ← set_members cx key
  pure (.array (l.map .bulk))

/-- `rand() % len` -/
def draw (draws : List UInt64) (len : Nat) : Nat := draws.headI.toNat % len

/-- Independent picks, may repeat. -/
def pickAny (key : Bytes) (len : Nat) : Nat → List UInt64 → R (List Bytes)
  | 0, _ => pure []
  | k + 1, draws => do
      let b ← set_at key (draw draws len)
      let rest ← pickAny key len k draws.tail
      pure (b :: rest)

/-- Picks at positions that were not drawn before, until there are enough. -/
def pickNew (key : Bytes) (len want : Nat) :
    List UInt64 → List Nat → List Bytes → R (List Bytes)
  | [], _, picked => pure picked
  | d :: draws, seen, picked =>
      if want ≤ picked.length then pure picked
      else if d.toNat % len ∈ seen then pickNew key len want draws seen picked
      else do
        let b ← set_at key (d.toNat % len)
        pickNew key len want draws (d.toNat % len :: seen) (picked ++ [b])

/-- The last element takes the place of the one that goes. -/
def swap_remove (l : List Bytes) (i : Nat) : List Bytes := (l.set i (l.getLastD [])).dropLast

/-- Random members go until few enough are left. -/
def thin : Nat → List UInt64 → List Bytes → List Bytes
  | 0, _, all => all
  | k + 1, draws, all => thin k draws.tail (swap_remove all (draw draws all.length))

/-- `None` answers the last pick. -/
def pickedReply (count : Option Int) (picked : List Bytes) : Resp :=
  if count.isSome then .array (picked.map .bulk) else (picked.getLast?.map .bulk).getD .nil

def randmember (cx : Ctx) (key : Bytes) (len : Nat) (want : Int) (draws : List UInt64) :
    R (List Bytes) :=
  if want < 0 then pickAny key len want.natAbs draws
  else if len ≤ min want.toNat len * 2 then do
    let all ← set_members cx key
    pure (thin (all.length - min want.toNat len) draws all)
  else pickNew key len (min want.toNat len) draws [] []

def srandmember (cx : Ctx) (key : Bytes) (count : Option Int) (draws : List UInt64) : R Resp := do
  match ← cx.coll key T_SET with
  | none => pure (pickedReply count [])
  | some (m, _) => do
      let picked ← randmember cx key m.len (count.getD 1) draws
      pure (pickedReply count picked)

def popAll (key : Bytes) : Nat → List UInt64 → Meta → R (List Bytes × Meta)
  | 0, _, m => pure ([], m)
  | k + 1, draws, m => do
      let mbr ← set_at key (draw draws m.len)
      let (_, m) ← set_rem key m mbr
      let (picked, m) ← popAll key k draws.tail m
      pure (mbr :: picked, m)

def spop (cx : Ctx) (key : Bytes) (count : Option Int) (draws : List UInt64) : R Resp := do
  match ← cx.coll key T_SET with
  | none => pure (pickedReply count [])
  | some (m, ttl) => do
      let (picked, m) ← popAll key (min (count.getD 1).toNat m.len) draws m
      if picked ≠ [] then put_meta key m ttl
      pure (pickedReply count picked)

def SetOp.apply : SetOp → Members → Members → Members
  | inter, s, s' => s ∩ s'
  | union, s, s' => s ∪ s'
  | diff, s, s' => s \ s'

/-- The first set with each of the others in turn. -/
def SetOp.combine (o : SetOp) : List Members → Members
  | [] => ∅
  | s :: ss => ss.foldl o.apply s

def loadAll (cx : Ctx) : List Bytes → R (List Members)
  | [] => pure []
  | k :: ks => do
      let l ← set_members cx k
      let rest ← loadAll cx ks
      pure (.ofList l :: rest)

def sop (cx : Ctx) (o : SetOp) (srcs : List Bytes) : R Resp := do
  let sets ← loadAll cx srcs
  pure (.array ((o.combine sets).toList.map .bulk))

def sopstore (cx : Ctx) (o : SetOp) (dst : Bytes) (srcs : List Bytes) : R Resp := do
  let sets ← loadAll cx srcs
  let old ← cx.load dst
  Ctx.delete_all dst old
  let (_, m) ← addAll dst (o.combine sets).toList 0 (Meta.new T_SET)
  put_meta dst m none
  pure (int (o.combine sets).size)

def smove (cx : Ctx) (src dst member : Bytes) : R Resp := do
  match ← cx.coll src T_SET with
  | none => pure (int 0)
  | some (sm, sttl) => do
      let (dm, dttl) ← coll_or_new cx dst T_SET
      let cur ← get (memberKey src member)
      if cur.isNone then pure (int 0)
      else if src = dst then pure (int 1)
      else do
        let (_, sm) ← set_rem src sm member
        put_meta src sm sttl
        let (new, dm) ← set_add dst dm member
        if new then put_meta dst dm dttl
        pure (int 1)

def Call.exec (cx : Ctx) (draws : List UInt64) : Call → R Resp
  | .add key members => sadd cx key members
  | .rem key members => srem cx key members
  | .ismember key member => sismember cx key member
  | .mismember key members => smismember cx key members
  | .card key => scard cx key
  | .all key => smembers cx key
  | .pop key count => spop cx key count draws
  | .randmember key count => srandmember cx key count draws
  | .op o srcs => sop cx o srcs
  | .opstore o dst srcs => sopstore cx o dst srcs
  | .move src dst member => smove cx src dst member

/-- A command line and the random numbers that are drawn while it runs. -/
structure Line where
  name : Name
  args : List Bytes
  draws : List UInt64

/-- The commands on sets. -/
def exec_inner (cx : Ctx) (line : Line) : R Resp :=
  match parse line.name line.args with
  | .error e => throw e
  | .ok c => c.exec cx line.draws

/-! ## What they mean -/

def Call.keys : Call → List Bytes
  | .add key _ | .rem key _ | .ismember key _ | .mismember key _ | .card key | .all key
  | .pop key _ | .randmember key _ => [key]
  | .op _ srcs => srcs
  | .opstore _ dst srcs => dst :: srcs
  | .move src dst _ => [src, dst]

/-- The command only reads. -/
def Call.reads : Call → Bool
  | .ismember .. | .mismember .. | .card _ | .all _ | .randmember .. | .op .. => true
  | _ => false

/-- SMOVE reaches its second key only if there is a first set. -/
def Call.touches (c : Call) (db : Bytes → Members) : List Bytes :=
  match c with
  | .move src dst _ => if db src = ∅ then [src] else [src, dst]
  | c => c.keys

/-- The sets of several keys together. -/
def SetOp.of (o : SetOp) (db : Bytes → Members) (srcs : List Bytes) : Members :=
  o.combine (srcs.map db)

/-- How large sets of some size may become. -/
def Call.grows (n : Nat) : Call → Nat
  | .add _ members => n + members.length
  | .move .. => n + 1
  | .opstore _ _ srcs => max n (srcs.length * n)
  | _ => n

def insertMembers (s : Members) (members : List Bytes) : Members :=
  members.foldl (fun s b => s.insert b) s

def eraseMembers (s : Members) (members : List Bytes) : Members :=
  members.foldl (fun s b => s.erase b) s

/-- Different members, as many as are wanted and there are. -/
def Picks (s : Members) (want : Nat) (picked : List Bytes) : Prop :=
  picked.Nodup ∧ (∀ b ∈ picked, b ∈ s) ∧ picked.length = min want s.size

/-- As many members as a negative count wants, or different ones. -/
def Samples (s : Members) (want : Int) (picked : List Bytes) : Prop :=
  if want < 0 then (∀ b ∈ picked, b ∈ s) ∧ picked.length = if s = ∅ then 0 else want.natAbs
  else Picks s want.toNat picked

/-- What a command does for sets: its answer, and the sets behind it. -/
def Call.Means (db : Bytes → Members) (reply : Resp) (db' : Bytes → Members) : Call → Prop
  | .add key members =>
      reply = int ((insertMembers (db key) members).size - (db key).size : Nat) ∧
        db' = Function.update db key (insertMembers (db key) members)
  | .rem key members =>
      reply = int ((db key).size - (eraseMembers (db key) members).size : Nat) ∧
        db' = Function.update db key (eraseMembers (db key) members)
  | .ismember key member => reply = int (if member ∈ db key then 1 else 0) ∧ db' = db
  | .mismember key members =>
      reply = .array (members.map fun b => int (if b ∈ db key then 1 else 0)) ∧ db' = db
  | .card key => reply = int (db key).size ∧ db' = db
  | .all key => reply = .array ((db key).toList.map .bulk) ∧ db' = db
  | .pop key count =>
      ∃ picked, Picks (db key) (count.getD 1).toNat picked ∧ reply = pickedReply count picked ∧
        db' = Function.update db key (eraseMembers (db key) picked)
  | .randmember key count =>
      ∃ picked, Samples (db key) (count.getD 1) picked ∧ reply = pickedReply count picked ∧ db' = db
  | .op o srcs => reply = .array ((o.of db srcs).toList.map .bulk) ∧ db' = db
  | .opstore o dst srcs =>
      reply = int (o.of db srcs).size ∧ db' = Function.update db dst (o.of db srcs)
  | .move src dst member =>
      reply = int (if member ∈ db src then 1 else 0) ∧
        db' = if member ∈ db src ∧ src ≠ dst then
          Function.update (Function.update db src ((db src).erase member)) dst
            ((db dst).insert member)
        else db

/-- The random draws hit enough different positions. -/
def Enough (len want : Nat) (draws : List UInt64) : Prop :=
  min want len * 2 < len → min want len ≤ (draws.map fun d => d.toNat % len).toFinset.card

/-- SRANDMEMBER draws until it has enough. -/
def Call.Drawn (draws : List UInt64) (db : Bytes → Members) : Call → Prop
  | .randmember key count => Enough (db key).size (count.getD 1).toNat draws
  | _ => True

/-- Where a member is, and which one is there. -/
structure IsRep (s : Members) (l : List Bytes) (f : Fams) : Prop where
  nodup : l.Nodup
  mem : ∀ b, b ∈ l ↔ b ∈ s
  member : ∀ b x, f SUB_SET b = some x ↔ ∃ i : Nat, l[i]? = some b ∧ x = .int (.ofInt i)
  position : ∀ r x, f SUB_SETPOS r = some x ↔ ∃ (i : Nat) (b : Bytes),
    l[i]? = some b ∧ r = seq_bytes i ∧ x = .bytes b

def kind : Kind Members Line where
  ty := T_SET
  empty := ∅
  size := fun s => s.size
  Rep := fun s f => ∃ l, IsRep s l f
  exec := exec_inner
  reads := fun line =>
    match parse line.name line.args with
    | .ok c => c.reads
    | .error _ => true
  keys := fun line =>
    match parse line.name line.args with
    | .ok c => c.keys
    | .error _ => []
  touches := fun line db =>
    match parse line.name line.args with
    | .ok c => c.touches db
    | .error _ => []
  grows := fun line n =>
    match parse line.name line.args with
    | .ok c => c.grows n
    | .error _ => n
  Drawn := fun line db => ∀ c, parse line.name line.args = .ok c → c.Drawn line.draws db
  Means := fun _ line db reply db' =>
    match parse line.name line.args with
    | .ok c => c.Means db reply db'
    | .error e => reply = e

end Sets
end StrikeDB
