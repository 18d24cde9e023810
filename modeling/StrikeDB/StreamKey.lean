import StrikeDB.StreamId

/-!
# StrikeDB: the commands on a stream's header and entries

A stream key has a header (`Header`), entries by ID, and consumer groups with
their pending entries and consumers.  This file has the state of one key and the
commands that add and remove entries: XADD, XDEL, XTRIM, XSETID and DEL.  A
command that answers with an error writes nothing.

The counters of the header are natural numbers: no stream lives to see the 2^63
XADDs that it takes to overflow one.  Times to live are not modelled.
-/

namespace StrikeDB
namespace Stream

open OrderedMap

/-- The header of a stream: number of entries, last generated ID, entries ever
added and largest deleted ID. -/
structure Header where
  len : Nat
  last : Id
  added : Nat
  maxdel : Id
deriving DecidableEq

/-- Consumer group: last delivered ID and entries read, -1 when unknown. -/
structure Group where
  last : Id
  read : Int
deriving DecidableEq

/-- Pending entry. -/
structure Pel where
  time : Nat
  count : Nat
  owner : Bytes
deriving DecidableEq

/-- Consumer: when it was seen and when it was given entries, -1 for never. -/
structure Con where
  seen : Nat
  active : Int
deriving DecidableEq

abbrev Fields := List Bytes
abbrev Entries := Std.ExtTreeMap Id Fields

/-- What the value under a key is. -/
inductive Kind where
  | absent
  | foreign
  | stream (s : Header)
deriving DecidableEq

/-- Everything stored for one key. -/
structure KeyData where
  kind : Kind
  entries : Entries
  groups : Std.ExtTreeMap Bytes Group
  pels : Bytes → Std.ExtTreeMap Id Pel
  cons : Bytes → Std.ExtTreeMap Bytes Con

def KeyData.empty : KeyData :=
  { kind := .absent, entries := ∅, groups := ∅, pels := fun _ => ∅, cons := fun _ => ∅ }

abbrev Answer := Except Resp (Resp × KeyData)

def wrong_type : Resp :=
  utf8Err "WRONGTYPE Operation against a key holding the wrong kind of value"

def wrong_args (name : String) : Resp :=
  utf8Err ("wrong number of arguments for '" ++ name ++ "' command")

/-- The header under the key; a key of another type is an error. -/
def load (d : KeyData) : Except Resp (Option Header) :=
  match d.kind with
  | .absent => .ok none
  | .foreign => .error wrong_type
  | .stream s => .ok (some s)

def new_stream : Header := { len := 0, last := ID_MIN, added := 0, maxdel := ID_MIN }

/-- Store the header; a stream without entries stays. -/
def save (d : KeyData) (s : Header) : KeyData := { d with kind := .stream s }

/-! ## Trimming -/

/-- Approximate trimming removes whole nodes of this many entries. -/
def NODE : Nat := 100

inductive Trim where
  | maxLen (max : Nat)
  | minId (min : Id)

structure TrimSpec where
  how : Trim
  approx : Bool
  limit : Nat

inductive TrimItem where
  | spec (t : TrimSpec)
  | limit (n : Nat)

/-- `~` or `=`, and what follows. -/
def takeApprox : List Bytes → Bool × List Bytes
  | [] => (false, [])
  | x :: rest =>
      if x = utf8 "~" then (true, rest)
      else if x = utf8 "=" then (false, rest)
      else (false, x :: rest)

def parseThreshold (maxLen : Bool) (t : Bytes) : Except Resp Trim :=
  if maxLen then
    match parse_int t with
    | .error e => .error e
    | .ok n =>
        if n < 0 then .error (utf8Err "The MAXLEN argument must be >= 0.")
        else .ok (.maxLen n.toInt.toNat)
  else
    match strict_id t with
    | .error e => .error e
    | .ok id => .ok (.minId id)

/-- `MAXLEN|MINID [=|~] threshold` or `LIMIT n` in front of the arguments, and
what follows; `none` when they start with another word. -/
def parse_trim : List Bytes → Except Resp (Option (TrimItem × List Bytes))
  | [] => .ok none
  | opt :: rest =>
      if isWord opt "MAXLEN" || isWord opt "MINID" then
        match (takeApprox rest).2 with
        | [] => .error syntax_error
        | t :: rest' =>
            match parseThreshold (isWord opt "MAXLEN") t with
            | .error e => .error e
            | .ok how =>
                .ok (some (.spec { how := how, approx := (takeApprox rest).1, limit := 0 }, rest'))
      else if isWord opt "LIMIT" then
        match rest with
        | [] => .error not_int
        | n :: rest' =>
            match parse_int n with
            | .error e => .error e
            | .ok n =>
                if n < 0 then .error (utf8Err "The LIMIT argument must be >= 0.")
                else .ok (some (.limit n.toInt.toNat, rest'))
      else .ok none

/-- The trim of a command, from the last specification and the last limit given. -/
def finish_trim : Option TrimSpec → Option Nat → Except Resp (Option TrimSpec)
  | none, some _ => .error syntax_error
  | none, none => .ok none
  | some s, l =>
      if l.isSome && !s.approx then
        .error (utf8Err "syntax error, LIMIT cannot be used without the special ~ option")
      else .ok (some { s with limit := if s.approx then l.getD (NODE * 100) else 0 })

/-- How many entries a trim removes. -/
def trimCount (s : Header) (entries : Entries) (t : TrimSpec) : Nat :=
  let n :=
    match t.how with
    | .maxLen max => s.len - max
    | .minId min =>
        match prev_id min with
        | some below => (range entries ID_MIN below).length
        | none => 0
  if t.approx then (if t.limit > 0 then min n t.limit else n) / NODE * NODE else n

/-- The IDs that a trim removes, the smallest ones. -/
def victims (s : Header) (entries : Entries) (t : TrimSpec) : List Id :=
  if trimCount s entries t = 0 then []
  else (first (trimCount s entries t) (range entries ID_MIN ID_MAX)).map Prod.fst

/-- Apply a trim. -/
def trim (s : Header) (entries : Entries) (t : TrimSpec) : Header × Entries :=
  ({ s with len := s.len - (victims s entries t).length },
    eraseAll entries (victims s entries t))

/-! ## XADD -/

/-- The ID that XADD asks for: `*`, `<ms>-*`, or a full or partial one. -/
inductive Req where
  | auto
  | ms (ms : UInt64)
  | full (id : Id)

/-- `0-0` is no ID for an entry. -/
def Req.isMin : Req → Bool
  | .full id => id == ID_MIN
  | _ => false

def parseReq (id_arg : Bytes) : Except Resp Req :=
  if id_arg = utf8 "*" then .ok .auto
  else if utf8 "-*" <:+ id_arg then
    match parse_u64 (id_arg.take (id_arg.length - 2)) with
    | some ms => .ok (.ms ms)
    | none => .error invalid_id
  else
    match strict_id id_arg with
    | .ok id => .ok (.full id)
    | .error e => .error e

structure XaddOpts where
  nomk : Bool
  spec : Option TrimSpec
  limit : Option Nat

/-- The options of XADD, and the arguments that follow them. -/
def parseXaddOpts : Nat → XaddOpts → List Bytes → Except Resp (XaddOpts × List Bytes)
  | 0, o, a => .ok (o, a)
  | _ + 1, o, [] => .ok (o, [])
  | fuel + 1, o, opt :: rest =>
      if isWord opt "NOMKSTREAM" then parseXaddOpts fuel { o with nomk := true } rest
      else
        match parse_trim (opt :: rest) with
        | .error e => .error e
        | .ok none => .ok (o, opt :: rest)
        | .ok (some (.spec t, rest')) => parseXaddOpts fuel { o with spec := some t } rest'
        | .ok (some (.limit n, rest')) => parseXaddOpts fuel { o with limit := some n } rest'

/-- A parsed XADD. -/
structure Xadd where
  nomk : Bool
  trim : Option TrimSpec
  req : Req
  fields : Fields

/-- The arguments of XADD behind the key. -/
def parseXadd (a : List Bytes) : Except Resp Xadd :=
  match parseXaddOpts a.length { nomk := false, spec := none, limit := none } a with
  | .error e => .error e
  | .ok (o, rest) =>
      match finish_trim o.spec o.limit with
      | .error e => .error e
      | .ok t =>
          match rest with
          | [] => .error (wrong_args "xadd")
          | id_arg :: fields =>
              match parseReq id_arg with
              | .error e => .error e
              | .ok req =>
                  if fields = [] ∨ fields.length % 2 ≠ 0 then .error (wrong_args "xadd")
                  else .ok { nomk := o.nomk, trim := t, req := req, fields := fields }

def too_small : Resp :=
  utf8Err "The ID specified in XADD is equal or smaller than the target stream top item"

/-- The ID of the new entry. -/
def xaddId (now : UInt64) (last : Id) : Req → Except Resp Id
  | .auto =>
      if now > last.ms then .ok ⟨now, 0⟩
      else
        match next_id last with
        | some id => .ok id
        | none => .error too_small
  | .ms ms =>
      if ms > last.ms then .ok ⟨ms, 0⟩
      else if ms = last.ms ∧ last.seq < U64_MAX then .ok ⟨ms, last.seq + 1⟩
      else .error too_small
  | .full id => if id ≤ last then .error too_small else .ok id

/-- The header and the entries after an entry was added. -/
def addEntry (s : Header) (entries : Entries) (id : Id) (fields : Fields) : Header × Entries :=
  ({ s with len := s.len + 1, added := s.added + 1, last := id }, entries.insert id fields)

def trimmed (t : Option TrimSpec) (r : Header × Entries) : Header × Entries :=
  match t with
  | none => r
  | some t => trim r.1 r.2 t

/-- What XADD does: the ID of the new entry, or none when it must not make a
stream. -/
def xaddEntry (now : UInt64) (a : List Bytes) (d : KeyData) :
    Except Resp (Option Id × KeyData) :=
  match parseXadd a with
  | .error e => .error e
  | .ok x =>
      if x.req.isMin then
        .error (utf8Err "The ID specified in XADD must be greater than 0-0")
      else
        match load d with
        | .error e => .error e
        | .ok found =>
            if found.isNone && x.nomk then .ok (none, d)
            else
              let s := found.getD new_stream
              if s.last = ID_MAX then
                .error (utf8Err
                  "The stream has exhausted the last possible ID, unable to add more items")
              else
                match xaddId now s.last x.req with
                | .error e => .error e
                | .ok id =>
                    let r := trimmed x.trim (addEntry s d.entries id x.fields)
                    .ok (some id, { save d r.1 with entries := r.2 })

def xaddReply : Option Id → Resp
  | none => .nil
  | some id => id_resp id

def xadd (now : UInt64) (a : List Bytes) (d : KeyData) : Answer :=
  match xaddEntry now a d with
  | .error e => .error e
  | .ok (id, d') => .ok (xaddReply id, d')

/-! ## XDEL, XTRIM, XSETID and DEL -/

def parseIds : List Bytes → Except Resp (List Id)
  | [] => .ok []
  | a :: rest =>
      match strict_id a with
      | .error e => .error e
      | .ok id =>
          match parseIds rest with
          | .error e => .error e
          | .ok ids => .ok (id :: ids)

/-- Delete an entry, if there is one; the number counts the entries deleted. -/
def delEntry (r : Nat × Header × Entries) (id : Id) : Nat × Header × Entries :=
  let (deleted, s, entries) := r
  if id ∈ entries then
    (deleted + 1,
      { s with len := s.len - 1, maxdel := if id > s.maxdel then id else s.maxdel },
      entries.erase id)
  else r

def xdel (a : List Bytes) (d : KeyData) : Answer :=
  if a = [] then .error (wrong_args "xdel")
  else
    match load d with
    | .error e => .error e
    | .ok none => .ok (.int 0, d)
    | .ok (some s) =>
        match parseIds a with
        | .error e => .error e
        | .ok ids =>
            let r := ids.foldl delEntry (0, s, d.entries)
            .ok (.int (.ofNat r.1), { save d r.2.1 with entries := r.2.2 })

def parseXtrim : Nat → Option TrimSpec → Option Nat → List Bytes → Except Resp (Option TrimSpec)
  | 0, spec, limit, _ => finish_trim spec limit
  | _ + 1, spec, limit, [] => finish_trim spec limit
  | fuel + 1, spec, limit, a =>
      match parse_trim a with
      | .error e => .error e
      | .ok none => .error syntax_error
      | .ok (some (.spec t, rest)) => parseXtrim fuel (some t) limit rest
      | .ok (some (.limit n, rest)) => parseXtrim fuel spec (some n) rest

/-- The arguments of XTRIM behind the key. -/
def xtrimArgs (a : List Bytes) : Except Resp TrimSpec :=
  if a.length < 2 then .error (wrong_args "xtrim")
  else
    match parseXtrim a.length none none a with
    | .error e => .error e
    | .ok none => .error syntax_error
    | .ok (some t) => .ok t

def xtrim (a : List Bytes) (d : KeyData) : Answer :=
  match xtrimArgs a with
  | .error e => .error e
  | .ok t =>
      match load d with
      | .error e => .error e
      | .ok none => .ok (.int 0, d)
      | .ok (some s) =>
          let r := trim s d.entries t
          .ok (.int (.ofNat (victims s d.entries t).length), { save d r.1 with entries := r.2 })

structure XsetidOpts where
  added : Option Nat
  maxdel : Option Id

def parseXsetidOpts : XsetidOpts → List Bytes → Except Resp XsetidOpts
  | o, [] => .ok o
  | _, [_] => .error syntax_error
  | o, opt :: v :: rest =>
      if isWord opt "ENTRIESADDED" then
        match parse_int v with
        | .error e => .error e
        | .ok e =>
            if e < 0 then .error (utf8Err "entries_added must be positive")
            else parseXsetidOpts { o with added := some e.toInt.toNat } rest
      else if isWord opt "MAXDELETEDID" then
        match strict_id v with
        | .error e => .error e
        | .ok id => parseXsetidOpts { o with maxdel := some id } rest
      else .error syntax_error

/-- Why XSETID refuses to set the header. -/
def xsetidError (s : Header) (id : Id) (o : XsetidOpts) : Option Resp :=
  if o.maxdel.any (id < ·) then
    some (utf8Err
      "The ID specified in XSETID is smaller than the provided max_deleted_entry_id")
  else if o.added.any (· < s.len) then
    some (utf8Err
      "The entries_added specified in XSETID is smaller than the target stream length")
  else if s.len > 0 ∧ id < s.last then
    some (utf8Err "The ID specified in XSETID is smaller than the target stream top item")
  else none

def xsetid (a : List Bytes) (d : KeyData) : Answer :=
  match a with
  | [] => .error (wrong_args "xsetid")
  | id_arg :: opts =>
      match strict_id id_arg with
      | .error e => .error e
      | .ok id =>
          match parseXsetidOpts { added := none, maxdel := none } opts with
          | .error e => .error e
          | .ok o =>
              match load d with
              | .error e => .error e
              | .ok none => .error (utf8Err "no such key")
              | .ok (some s) =>
                  match xsetidError s id o with
                  | some e => .error e
                  | none =>
                      .ok (.simple (utf8 "OK"), save d
                        { s with
                          last := id
                          added := o.added.getD s.added
                          maxdel := o.maxdel.getD s.maxdel })

/-- DEL of this key: the header and every element of it. -/
def del (d : KeyData) : Answer :=
  match d.kind with
  | .absent => .ok (.int 0, d)
  | _ => .ok (.int 1, .empty)

end Stream
end StrikeDB
