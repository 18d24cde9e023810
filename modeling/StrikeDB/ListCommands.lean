import StrikeDB.Contexts
import StrikeDB.StreamId

/-!
# StrikeDB: list commands

A list is a window of positions, from `head` up to `tail`, in the element family
`l` of its key.  The commands below are those of the executor; `Call` is a command
with its arguments understood, and `Call.reference` is what it means for a finite
sequence.
-/

namespace StrikeDB
namespace Lists

open Ctx

def T_LIST : UInt8 := 2
def SUB_LIST : UInt8 := 0x6c

/-- Positions in the order of their bytes. -/
def seq_bytes (i : Int) : Bytes := beBytes 8 ((Int64.ofInt i).toUInt64 ^^^ TOP).toNat

def elem (key : Bytes) (i : Int) : PlainKey := elemKey key SUB_LIST (seq_bytes i)

def parse_i64 (a : Bytes) : Option Int := (parse_strict_i64 a).map Int64.toInt

def not_int : Resp := err "value is not an integer or out of range"
def syntax_error : Resp := err "syntax error"
def ok : Resp := .simple (utf8 "OK")
def int (n : Int) : Resp := .int (.ofInt n)

/-- The commands by their names. -/
inductive Name where
  | lpush | rpush | lpushx | rpushx | lpop | rpop | llen | lindex | lset | lrange | ltrim | lrem
  | linsert | lpos | rpoplpush | lmove
deriving DecidableEq

def Name.word : Name → String
  | lpush => "lpush"
  | rpush => "rpush"
  | lpushx => "lpushx"
  | rpushx => "rpushx"
  | lpop => "lpop"
  | rpop => "rpop"
  | llen => "llen"
  | lindex => "lindex"
  | lset => "lset"
  | lrange => "lrange"
  | ltrim => "ltrim"
  | lrem => "lrem"
  | linsert => "linsert"
  | lpos => "lpos"
  | rpoplpush => "rpoplpush"
  | lmove => "lmove"

def wrong_args (name : Name) : Resp :=
  err ("wrong number of arguments for '" ++ name.word ++ "' command")

/-! ## LPUSH, RPUSH, LPUSHX, RPUSHX, LPOP and RPOP -/

/-- Store the values one after the other. -/
def pushAll (key : Bytes) (left : Bool) : List Bytes → Meta → R Meta
  | [], m => pure m
  | x :: xs, m => do
      let seq := if left then m.head - 1 else m.tail
      let m := if left then { m with head := m.head - 1 } else { m with tail := m.tail + 1 }
      put (elem key seq) (.bytes x)
      pushAll key left xs { m with len := m.len + 1 }

def push (cx : Ctx) (left must_exist : Bool) (key : Bytes) (vals : List Bytes) : R Resp := do
  let existing ← cx.coll key T_LIST
  if existing.isNone && must_exist then pure (int 0)
  else do
    let (m, ttl) := existing.getD (Meta.new T_LIST, none)
    let m ← pushAll key left vals m
    put_meta key m ttl
    pure (int m.len)

/-- Take values off one end. -/
def popAll (cx : Ctx) (key : Bytes) (left : Bool) : Nat → List Bytes → Meta → R (List Bytes × Meta)
  | 0, out, m => pure (out, m)
  | n + 1, out, m => do
      let seq := if left then m.head else m.tail - 1
      let m := if left then { m with head := m.head + 1 } else { m with tail := m.tail - 1 }
      let v ← get (elem key seq).val
      delete (elem key seq)
      popAll cx key left n (out ++ [(v.map cx.val_bytes).getD []]) { m with len := m.len - 1 }

def positive : Resp := err "value is out of range, must be positive"

def pop (cx : Ctx) (left : Bool) (key : Bytes) (count : Option Bytes) : R Resp := do
  let count ←
    match count with
    | none => pure none
    | some c =>
        match parse_i64 c with
        | some c => if c ≥ 0 then pure (some c.toNat) else throw positive
        | none => throw positive
  match ← cx.coll key T_LIST with
  | none => pure .nil
  | some (m, ttl) => do
      let take := min (count.getD 1) m.len
      let (out, m) ← popAll cx key left take [] m
      put_meta key m ttl
      match count with
      | none => pure ((out.getLast?.map .bulk).getD .nil)
      | some _ => pure (.array (out.map .bulk))

/-! ## LLEN, LINDEX, LSET, LRANGE and LTRIM -/

def llen (cx : Ctx) (key : Bytes) : R Resp := do
  match ← cx.coll key T_LIST with
  | none => pure (int 0)
  | some (m, _) => pure (int m.len)

/-- The integer that an argument must be. -/
def need_int (a : Bytes) : R Int :=
  match parse_i64 a with
  | some i => pure i
  | none => throw not_int

/-- An index from the end counts back. -/
def norm_index (i len : Int) : Int := if i < 0 then len + i else i

def lindex (cx : Ctx) (key i : Bytes) : R Resp := do
  let i ← need_int i
  match ← cx.coll key T_LIST with
  | none => pure .nil
  | some (m, _) =>
      let i := norm_index i m.len
      if i < 0 ∨ i ≥ m.len then pure .nil
      else do
        let v ← get (elem key (m.head + i)).val
        pure ((v.map fun v => .bulk (cx.val_bytes v)).getD .nil)

def lset (cx : Ctx) (key i v : Bytes) : R Resp := do
  let i ← need_int i
  match ← cx.coll key T_LIST with
  | none => throw (err "no such key")
  | some (m, ttl) =>
      let i := norm_index i m.len
      if i < 0 ∨ i ≥ m.len then throw (err "index out of range")
      else do
        put (elem key (m.head + i)) (.bytes v)
        put_meta key m ttl
        pure ok

/-- An index pair against a length, `none` when it is empty. -/
def norm_range (start stop len : Int) : Option (Int × Int) :=
  let s := if start < 0 then max (len + start) 0 else start
  let e := if stop < 0 then len + stop else min stop (len - 1)
  if s ≤ e ∧ s < len then some (s, e) else none

def lrange (cx : Ctx) (key s e : Bytes) : R Resp := do
  let s ← need_int s
  let e ← need_int e
  match ← cx.coll key T_LIST with
  | none => pure (.array [])
  | some (m, _) =>
      match norm_range s e m.len with
      | none => pure (.array [])
      | some (s, e) => do
          let start := (elem key (m.head + s)).val
          let stop := (elem key (m.head + e + 1)).val
          let out ← each start false (fun out _ v => (out ++ [Resp.bulk (cx.val_bytes v)], true))
            usize_max start stop []
          pure (.array out)

/-- Delete the elements at `n` positions from one on. -/
def deletePositions (key : Bytes) : Nat → Int → R Unit
  | 0, _ => pure ()
  | n + 1, i => do
      delete (elem key i)
      deletePositions key n (i + 1)

def ltrim (cx : Ctx) (key s e : Bytes) : R Resp := do
  let s ← need_int s
  let e ← need_int e
  match ← cx.coll key T_LIST with
  | none => pure ok
  | some (m, ttl) => do
      let len : Int := m.len
      let (ks, ke) := (norm_range s e len).getD (len, len - 1)
      deletePositions key ks.toNat m.head
      deletePositions key (len - max (ke + 1) 0).toNat (m.head + max (ke + 1) 0)
      let nh := m.head + ks
      let nt := m.head + ke + 1
      let m := { m with head := nh, tail := max nt nh, len := (max nt nh - nh).toNat }
      put_meta key m ttl
      pure ok

/-! ## LREM and LINSERT -/

/-- `i64::abs`, which leaves the smallest integer negative. -/
def abs (c : Int) : Int := if c = -2 ^ 63 then c else |c|

/-- Leave out values equal to `target` while fewer than `limit` are removed. -/
def removeWhile (target : Bytes) (limit : Int) : Int → List Bytes → List Bytes × Int
  | removed, [] => ([], removed)
  | removed, x :: xs =>
      if removed < limit ∧ x = target then removeWhile target limit (removed + 1) xs
      else
        let r := removeWhile target limit removed xs
        (x :: r.1, r.2)

def remove (target : Bytes) (count : Int) (items : List Bytes) : List Bytes × Int :=
  let limit := if count = 0 then 2 ^ 63 - 1 else abs count
  if count < 0 then
    let r := removeWhile target limit 0 items.reverse
    (r.1.reverse, r.2)
  else removeWhile target limit 0 items

/-- Store the values at positions from one on. -/
def putAll (key : Bytes) : Int → List Bytes → R Unit
  | _, [] => pure ()
  | i, x :: xs => do
      put (elem key i) (.bytes x)
      putAll key (i + 1) xs

/-- Rewrite with contiguous positions. -/
def rewrite (key : Bytes) (m : Meta) (ttl : Option UInt64) (new : List Bytes) : R Unit := do
  deletePositions key m.len m.head
  putAll key 0 new
  put_meta key { m with head := 0, tail := new.length, len := new.length } ttl

def lrem (cx : Ctx) (key count target : Bytes) : R Resp := do
  match ← cx.coll key T_LIST with
  | none => pure (int 0)
  | some (m, ttl) => do
      let items := (← elements key SUB_LIST).map fun e => cx.val_bytes e.2
      let count ← need_int count
      let r := remove target count items
      rewrite key m ttl r.1
      pure (int r.2)

/-- `BEFORE` or `AFTER`. -/
def parseWhere (w : Bytes) : Option Bool :=
  if Stream.isWord w "BEFORE" then some true
  else if Stream.isWord w "AFTER" then some false
  else none

def linsert (cx : Ctx) (key w pivot v : Bytes) : R Resp := do
  match ← cx.coll key T_LIST with
  | none => pure (int 0)
  | some (m, ttl) => do
      let items := (← elements key SUB_LIST).map fun e => cx.val_bytes e.2
      match parseWhere w with
      | none => throw syntax_error
      | some before =>
          match items.findIdx? (· = pivot) with
          | none => pure (int (-1))
          | some p => do
              let new := items.insertIdx (if before then p else p + 1) v
              rewrite key m ttl new
              pure (int new.length)

/-! ## LPOS -/

structure PosOpts where
  rank : Int
  count : Option Int
  maxlen : Int

def parsePosOpts : PosOpts → List Bytes → Except Resp PosOpts
  | o, [] => .ok o
  | _, [_] => .error syntax_error
  | o, opt :: v :: rest =>
      match parse_i64 v with
      | none => .error not_int
      | some v =>
          if Stream.isWord opt "RANK" then
            if v = 0 then
              .error (err "RANK can't be zero: use 1 to start from the first match, 2 from the second ... or use negative to start from the end of the list")
            else if v = -2 ^ 63 then
              .error (err "value is out of range, value must between -9223372036854775807 and 9223372036854775807")
            else parsePosOpts { o with rank := v } rest
          else if Stream.isWord opt "COUNT" then
            if v < 0 then .error (err "COUNT can't be negative")
            else parsePosOpts { o with count := some v } rest
          else if Stream.isWord opt "MAXLEN" then
            if v < 0 then .error (err "MAXLEN can't be negative")
            else parsePosOpts { o with maxlen := v } rest
          else .error syntax_error

/-- How many positions are wanted, `none` for all. -/
def PosOpts.want (o : PosOpts) : Nat :=
  match o.count with
  | none => 1
  | some c => if c = 0 then usize_max else c.toNat

/-- Go through the elements, in the order of the search. -/
def findPos (pat : Bytes) (len : Int) (o : PosOpts) :
    List Bytes → Nat → Nat → List Int → List Int
  | [], _, _, found => found
  | x :: xs, idx, skip, found =>
      if o.maxlen ≠ 0 ∧ (idx : Int) ≥ o.maxlen then found
      else if x = pat then
        if skip > 0 then findPos pat len o xs (idx + 1) (skip - 1) found
        else
          let found := found ++ [if o.rank < 0 then len - 1 - idx else idx]
          if found.length ≥ o.want then found else findPos pat len o xs (idx + 1) skip found
      else findPos pat len o xs (idx + 1) skip found

def posReply (o : PosOpts) (found : List Int) : Resp :=
  match o.count with
  | some _ => .array (found.map int)
  | none => (found.head?.map int).getD .nil

def lpos (cx : Ctx) (key pat : Bytes) (opts : List Bytes) : R Resp := do
  match parsePosOpts { rank := 1, count := none, maxlen := 0 } opts with
  | .error e => throw e
  | .ok o =>
      match ← cx.coll key T_LIST with
      | none => pure (posReply o [])
      | some (m, _) => do
          let elems := (← elements key SUB_LIST).map fun e => cx.val_bytes e.2
          let elems := if o.rank < 0 then elems.reverse else elems
          pure (posReply o (findPos pat m.len o elems 0 (o.rank.natAbs - 1) []))

/-! ## RPOPLPUSH and LMOVE -/

def parseSide (a : Bytes) : Option Bool :=
  if Stream.isWord a "LEFT" then some true
  else if Stream.isWord a "RIGHT" then some false
  else none

/-- A missing source is a nil reply, whatever the destination holds; otherwise the
destination must be a list or absent before anything is popped. -/
def move (cx : Ctx) (from_left to_left : Bool) (src dst : Bytes) : R Resp := do
  if (← cx.coll src T_LIST).isNone then pure .nil
  else do
    if src ≠ dst then let _ ← cx.coll dst T_LIST
    match ← pop cx from_left src none with
    | .bulk v => do
        let _ ← push cx to_left false dst [v]
        pure (.bulk v)
    | _ => pure .nil

/-- `exec_inner` of the list commands. -/
def exec_inner (cx : Ctx) : Name → List Bytes → R Resp
  | .lpush, key :: v :: vs => push cx true false key (v :: vs)
  | .rpush, key :: v :: vs => push cx false false key (v :: vs)
  | .lpushx, key :: v :: vs => push cx true true key (v :: vs)
  | .rpushx, key :: v :: vs => push cx false true key (v :: vs)
  | .lpop, [key] => pop cx true key none
  | .lpop, [key, count] => pop cx true key (some count)
  | .rpop, [key] => pop cx false key none
  | .rpop, [key, count] => pop cx false key (some count)
  | .llen, [key] => llen cx key
  | .lindex, [key, i] => lindex cx key i
  | .lset, [key, i, v] => lset cx key i v
  | .lrange, [key, s, e] => lrange cx key s e
  | .ltrim, [key, s, e] => ltrim cx key s e
  | .lrem, [key, count, target] => lrem cx key count target
  | .linsert, [key, w, pivot, v] => linsert cx key w pivot v
  | .lpos, key :: pat :: opts => lpos cx key pat opts
  | .rpoplpush, [src, dst] => move cx false true src dst
  | .lmove, [src, dst, f, t] =>
      match parseSide f, parseSide t with
      | some f, some t => move cx f t src dst
      | _, _ => throw syntax_error
  | name, _ => throw (wrong_args name)

/-! ## What the commands mean -/

/-- A command with its arguments understood.  LREM and LINSERT look at their key
before they look at the count and at the word. -/
inductive Call where
  | push (left must_exist : Bool) (key : Bytes) (vals : List Bytes)
  | pop (left : Bool) (key : Bytes) (count : Option Nat)
  | llen (key : Bytes)
  | lindex (key : Bytes) (i : Int)
  | lset (key : Bytes) (i : Int) (v : Bytes)
  | lrange (key : Bytes) (s e : Int)
  | ltrim (key : Bytes) (s e : Int)
  | lrem (key : Bytes) (count : Option Int) (target : Bytes)
  | linsert (key : Bytes) (before : Option Bool) (pivot v : Bytes)
  | lpos (key pat : Bytes) (o : PosOpts)
  | move (from_left to_left : Bool) (src dst : Bytes)

def parseInt (a : Bytes) : Except Resp Int :=
  match parse_i64 a with
  | some i => .ok i
  | none => .error not_int

def parseCount (a : Bytes) : Except Resp Nat :=
  match parse_i64 a with
  | some i => if i ≥ 0 then .ok i.toNat else .error positive
  | none => .error positive

/-- The command that arguments are, or what is wrong with them. -/
def parse : Name → List Bytes → Except Resp Call
  | .lpush, key :: v :: vs => .ok (.push true false key (v :: vs))
  | .rpush, key :: v :: vs => .ok (.push false false key (v :: vs))
  | .lpushx, key :: v :: vs => .ok (.push true true key (v :: vs))
  | .rpushx, key :: v :: vs => .ok (.push false true key (v :: vs))
  | .lpop, [key] => .ok (.pop true key none)
  | .lpop, [key, count] => (parseCount count).map fun n => .pop true key (some n)
  | .rpop, [key] => .ok (.pop false key none)
  | .rpop, [key, count] => (parseCount count).map fun n => .pop false key (some n)
  | .llen, [key] => .ok (.llen key)
  | .lindex, [key, i] => (parseInt i).map fun i => .lindex key i
  | .lset, [key, i, v] => (parseInt i).map fun i => .lset key i v
  | .lrange, [key, s, e] => do
      let s ← parseInt s
      let e ← parseInt e
      .ok (.lrange key s e)
  | .ltrim, [key, s, e] => do
      let s ← parseInt s
      let e ← parseInt e
      .ok (.ltrim key s e)
  | .lrem, [key, count, target] => .ok (.lrem key (parse_i64 count) target)
  | .linsert, [key, w, pivot, v] => .ok (.linsert key (parseWhere w) pivot v)
  | .lpos, key :: pat :: opts =>
      (parsePosOpts { rank := 1, count := none, maxlen := 0 } opts).map fun o => .lpos key pat o
  | .rpoplpush, [src, dst] => .ok (.move false true src dst)
  | .lmove, [src, dst, f, t] =>
      match parseSide f, parseSide t with
      | some f, some t => .ok (.move f t src dst)
      | _, _ => .error syntax_error
  | name, _ => .error (wrong_args name)

/-- An index into a sequence, from either end. -/
def at_ (l : List Bytes) (i : Int) : Option Nat :=
  let i := if i < 0 then i + l.length else i
  if 0 ≤ i ∧ i < l.length then some i.toNat else none

/-- The part of a sequence between two indices, both included. -/
def slice (l : List Bytes) (s e : Int) : List Bytes :=
  let place := fun i : Int => if i < 0 then i + l.length else i
  (l.zipIdx.filter fun x => place s ≤ x.2 ∧ (x.2 : Int) ≤ place e).map Prod.fst

/-- A sequence without the first `n` values equal to `target`. -/
def dropFirst (target : Bytes) : Nat → List Bytes → List Bytes
  | _, [] => []
  | 0, l => l
  | n + 1, x :: xs => if x = target then dropFirst target n xs else x :: dropFirst target (n + 1) xs

/-- A sequence without `count` values equal to `target`, counted from the front, or
from the back if it is negative; without all of them if it is 0. -/
def without (target : Bytes) (count : Int) (l : List Bytes) : List Bytes :=
  if count = 0 then l.filter (· ≠ target)
  else if count > 0 then dropFirst target count.toNat l
  else (dropFirst target count.natAbs l.reverse).reverse

/-- As many of the hits as are asked for: one, or all for a count of 0. -/
def PosOpts.cut (o : PosOpts) (hits : List Nat) : List Nat :=
  match o.count with
  | none => hits.take 1
  | some c => if c = 0 then hits else hits.take c.toNat

/-- The indices at which a value stands, in the order of the search. -/
def positions (l : List Bytes) (pat : Bytes) (o : PosOpts) : List Int :=
  let order := if o.rank < 0 then (List.range l.length).reverse else List.range l.length
  let seen := if o.maxlen = 0 then order else order.take o.maxlen.toNat
  let hits := (seen.filter fun i => l[i]? = some pat).drop (o.rank.natAbs - 1)
  (o.cut hits).map fun i : Nat => (i : Int)

/-- The values that are taken off one end, in the order they are taken. -/
def ends (left : Bool) (n : Nat) (l : List Bytes) : List Bytes :=
  if left then l.take n else l.reverse.take n

/-- What is left when `n` values were taken off one end. -/
def shorten (left : Bool) (n : Nat) (l : List Bytes) : List Bytes :=
  if left then l.drop n else l.take (l.length - n)

def extend (left : Bool) (vals l : List Bytes) : List Bytes :=
  if left then vals.reverse ++ l else l ++ vals

/-- What a command means for the sequences under all keys; an absent key has the
empty one. -/
def Call.reference (db : Bytes → List Bytes) : Call → Resp × (Bytes → List Bytes)
  | .push left must_exist key vals =>
      if must_exist ∧ db key = [] then (int 0, db)
      else (int (extend left vals (db key)).length,
        Function.update db key (extend left vals (db key)))
  | .pop left key count =>
      if db key = [] then (.nil, db)
      else
        (match count with
          | none => ((ends left 1 (db key)).head?.map .bulk).getD .nil
          | some n => .array ((ends left n (db key)).map .bulk),
          Function.update db key (shorten left (count.getD 1) (db key)))
  | .llen key => (int (db key).length, db)
  | .lindex key i => ((((at_ (db key) i).bind fun i => (db key)[i]?).map .bulk).getD .nil, db)
  | .lset key i v =>
      if db key = [] then (err "no such key", db)
      else
        match at_ (db key) i with
        | none => (err "index out of range", db)
        | some i => (ok, Function.update db key ((db key).set i v))
  | .lrange key s e => (.array ((slice (db key) s e).map .bulk), db)
  | .ltrim key s e => (ok, Function.update db key (slice (db key) s e))
  | .lrem key count target =>
      if db key = [] then (int 0, db)
      else
        match count with
        | none => (not_int, db)
        | some count =>
            (int ((db key).length - (without target count (db key)).length),
              Function.update db key (without target count (db key)))
  | .linsert key before pivot v =>
      if db key = [] then (int 0, db)
      else
        match before, (db key).findIdx? (· = pivot) with
        | none, _ => (syntax_error, db)
        | some _, none => (int (-1), db)
        | some before, some p =>
            (int ((db key).length + 1),
              Function.update db key ((db key).insertIdx (if before then p else p + 1) v))
  | .lpos key pat o => (posReply o (positions (db key) pat o), db)
  | .move from_left to_left src dst =>
      match (ends from_left 1 (db src)).head? with
      | none => (.nil, db)
      | some v =>
          let db := Function.update db src (shorten from_left 1 (db src))
          (.bulk v, Function.update db dst (extend to_left [v] (db dst)))

end Lists
end StrikeDB
