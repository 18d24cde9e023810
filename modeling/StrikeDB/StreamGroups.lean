import StrikeDB.StreamKey

/-!
# StrikeDB: consumer groups

The commands on consumer groups, over all stream keys of the database: XREADGROUP
may read several.  A group has its last delivered ID, pending entries by ID and
consumers.  A command is answered by a `Result`, which `Result.resp` puts into a
reply; a command that fails writes nothing.
-/

namespace StrikeDB
namespace Stream

open OrderedMap

/-- The stream keys. -/
abbrev Db := Bytes → KeyData

/-- What a read of a stream gives: new entries, or the consumer's own pending
ones, of which some are deleted. -/
inductive ReadOut where
  | new (key : Bytes) (es : List (Id × Fields))
  | history (key : Bytes) (es : List (Id × Option Fields))

/-- What a command has to answer. -/
inductive Result where
  | reply (r : Resp)
  | reads (out : List ReadOut)
  | claimed (justid : Bool) (es : List (Id × Fields))
  | autoclaimed (next : Id) (justid : Bool) (es : List (Id × Fields)) (deleted : List Id)

def entry_resp (id : Id) (fields : Fields) : Resp :=
  .array [id_resp id, .array (fields.map .bulk)]

def ReadOut.resp : ReadOut → Resp
  | .new key es => .array [.bulk key, .array (es.map fun e => entry_resp e.1 e.2)]
  | .history key es =>
      .array [.bulk key, .array (es.map fun e =>
        match e.2 with
        | some f => entry_resp e.1 f
        | none => .array [id_resp e.1, .nilArray])]

def claimResp (justid : Bool) (es : List (Id × Fields)) : Resp :=
  .array (es.map fun e => if justid then id_resp e.1 else entry_resp e.1 e.2)

def Result.resp : Result → Resp
  | .reply r => r
  | .reads [] => .nilArray
  | .reads out => .array (out.map ReadOut.resp)
  | .claimed justid es => claimResp justid es
  | .autoclaimed next justid es deleted =>
      .array [id_resp next, claimResp justid es, .array (deleted.map id_resp)]

abbrev Outcome := Except Resp (Result × KeyData)

/-! ## Groups, pending entries and consumers of a key -/

namespace KeyData

def save_group (d : KeyData) (g : Bytes) (gr : Group) : KeyData :=
  { d with groups := d.groups.insert g gr }

def putPel (d : KeyData) (g : Bytes) (id : Id) (p : Pel) : KeyData :=
  { d with pels := Function.update d.pels g ((d.pels g).insert id p) }

def delPel (d : KeyData) (g : Bytes) (id : Id) : KeyData :=
  { d with pels := Function.update d.pels g ((d.pels g).erase id) }

def save_con (d : KeyData) (g c : Bytes) (con : Con) : KeyData :=
  { d with cons := Function.update d.cons g ((d.cons g).insert c con) }

def delCon (d : KeyData) (g c : Bytes) : KeyData :=
  { d with cons := Function.update d.cons g ((d.cons g).erase c) }

/-- Touch a consumer, creating it if needed; `active` when it got entries. -/
def touch_con (d : KeyData) (now : UInt64) (g c : Bytes) (active : Bool) : KeyData :=
  d.save_con g c
    { seen := now.toNat
      active := if active then now.toNat else ((d.cons g)[c]?.map Con.active).getD (-1) }

def pel_range (d : KeyData) (g : Bytes) (lo hi : Id) : List (Id × Pel) := range (d.pels g) lo hi

/-- The consumers as listed: names from `\xff\xff` on are behind the end of the
range that is read. -/
def consumers (d : KeyData) (g : Bytes) : List (Bytes × Con) :=
  (d.cons g).toList.filter fun e => !([0xff, 0xff] : Bytes).isPrefixOf e.1

end KeyData

/-- Whether an ID is in front of the end of the range that `delete_prefix`
deletes: the prefix followed by `\xff\xff`. -/
def inPrefixRange (id : Id) : Bool := id.ms < 0xFFFF000000000000

/-- `delete_prefix` on the pending entries of a group. -/
def deletePels (d : KeyData) (g : Bytes) : KeyData :=
  { d with
    pels :=
      Function.update d.pels g
        (eraseAll (d.pels g) ((d.pels g).keys.filter inPrefixRange)) }

/-- `delete_prefix` on the consumers of a group. -/
def deleteCons (d : KeyData) (g : Bytes) : KeyData :=
  { d with
    cons :=
      Function.update d.cons g
        ((d.consumers g).foldl (fun m e => m.erase e.1) (d.cons g)) }

/-! ## Entries read -/

def first_id (entries : Entries) : Option Id := ((range entries ID_MIN ID_MAX).head?).map Prod.fst

def has_tombstones (s : Header) (entries : Entries) (start : Id) : Bool :=
  if s.len = 0 ∨ s.maxdel = ID_MIN then false
  else
    match first_id entries with
    | some f => if f > s.maxdel then false else start ≤ s.maxdel
    | none => start ≤ s.maxdel

def estimate_read (s : Header) (entries : Entries) (id : Id) : Int :=
  if s.added = 0 then 0
  else if s.len = 0 ∧ id ≤ s.last then s.added
  else if id = s.last then s.added
  else if id > s.last then -1
  else
    let first := (first_id entries).getD ID_MAX
    if s.maxdel = ID_MIN ∨ s.maxdel < first then
      if id < first then (s.added : Int) - s.len
      else if id = first then (s.added : Int) - s.len + 1
      else -1
    else -1

/-! ## XREADGROUP -/

/-- The arguments of a read in front of STREAMS. -/
structure ReadOpts where
  count : Nat
  noack : Bool

def parseReadOpts : Nat → ReadOpts → List Bytes → Except Resp (ReadOpts × List Bytes)
  | 0, _, _ => .error syntax_error
  | _ + 1, _, [] => .error syntax_error
  | fuel + 1, o, opt :: rest =>
      if isWord opt "COUNT" then
        match rest with
        | [] => .error not_int
        | v :: rest' =>
            match parse_int v with
            | .error e => .error e
            | .ok c => parseReadOpts fuel { o with count := c.toInt.toNat } rest'
      else if isWord opt "BLOCK" then
        match rest with
        | [] => .error (utf8Err "timeout is not an integer or out of range")
        | v :: rest' =>
            match parse_strict_i64 v with
            | none => .error (utf8Err "timeout is not an integer or out of range")
            | some b =>
                if b < 0 then .error (utf8Err "timeout is negative")
                else parseReadOpts fuel o rest'
      else if isWord opt "NOACK" then parseReadOpts fuel { o with noack := true } rest
      else if isWord opt "STREAMS" then .ok (o, rest)
      else .error syntax_error

/-- Where a read of a stream starts: new entries, or the consumer's own behind an ID. -/
inductive Start where
  | new
  | after (id : Id)

def formatErr (f : Replies.Format) : Resp := Replies.err f.render

def parseStart (idv : Bytes) : Except Resp Start :=
  if idv = utf8 ">" then .ok .new
  else if idv = utf8 "$" then
    .error (utf8Err "The $ ID is meaningless in the context of XREADGROUP: you want to read the history of this consumer by specifying a proper ID, or use the > ID to get new messages. The $ ID would just return an empty result set.")
  else
    match strict_id idv with
    | .error e => .error e
    | .ok id => .ok (.after id)

/-- Every ID is parsed and every group checked before anything is read. -/
def parseStarts (db : Db) (g : Bytes) : List (Bytes × Bytes) → Except Resp (List (Bytes × Start))
  | [] => .ok []
  | (k, idv) :: rest =>
      match load (db k) with
      | .error e => .error e
      | .ok found =>
          if found.isNone || (db k).groups[g]?.isNone then
            .error (formatErr (Replies.nogroup_xreadgroup k g))
          else
            match parseStart idv with
            | .error e => .error e
            | .ok st =>
                match parseStarts db g rest with
                | .error e => .error e
                | .ok sts => .ok ((k, st) :: sts)

/-- The new entries of a group, at most `count`, or all when `count` is 0. -/
def newEntries (d : KeyData) (gr : Group) (count : Nat) : List (Id × Fields) :=
  match next_id gr.last with
  | some lo => first count (range d.entries lo ID_MAX)
  | none => []

/-- The group after an entry was delivered. -/
def deliver (s : Header) (entries : Entries) (gr : Group) (id : Id) : Group :=
  { last := id
    read :=
      if gr.read ≠ -1 ∧ ¬ has_tombstones s entries id then gr.read + 1
      else if s.added > 0 then estimate_read s entries id
      else gr.read }

/-- Read new entries for a consumer. -/
def readNew (now : UInt64) (g c : Bytes) (o : ReadOpts) (s : Header) (gr : Group) (d : KeyData) :
    List (Id × Fields) × KeyData :=
  let es := newEntries d gr o.count
  let d₁ := d.touch_con now g c (!es.isEmpty)
  if es.isEmpty then ([], d₁)
  else
    let gr' := es.foldl (fun gr e => deliver s d.entries gr e.1) gr
    let d₂ :=
      if o.noack then d₁
      else es.foldl (fun d e => d.putPel g e.1 { time := now.toNat, count := 1, owner := c }) d₁
    (es, save (d₂.save_group g gr') s)

/-- Read the pending entries of a consumer behind `after`. -/
def readHistory (now : UInt64) (g c : Bytes) (count : Nat) (after : Id) (d : KeyData) :
    List (Id × Option Fields) × KeyData :=
  let d₁ := d.touch_con now g c false
  match next_id after with
  | none => ([], d₁)
  | some lo =>
      let pend := first count ((d₁.pel_range g lo ID_MAX).filter fun e => e.2.owner == c)
      (pend.map fun e => (e.1, d.entries[e.1]?),
        pend.foldl (fun d e =>
          d.putPel g e.1 { e.2 with time := now.toNat, count := e.2.count + 1 }) d₁)

/-- Read one stream after the other. -/
def readStreams (now : UInt64) (g c : Bytes) (o : ReadOpts) :
    List (Bytes × Start) → List ReadOut → Db → List ReadOut × Db
  | [], out, db => (out, db)
  | (k, st) :: rest, out, db =>
      match (db k).kind, (db k).groups[g]?, st with
      | .stream s, some gr, .new =>
          let r := readNew now g c o s gr (db k)
          readStreams now g c o rest (if r.1.isEmpty then out else out ++ [.new k r.1])
            (Function.update db k r.2)
      | .stream _, _, .after id =>
          let r := readHistory now g c o.count id (db k)
          readStreams now g c o rest (out ++ [.history k r.1]) (Function.update db k r.2)
      | _, _, _ => readStreams now g c o rest out db

/-- A parsed XREADGROUP. -/
structure ReadGroup where
  g : Bytes
  c : Bytes
  opts : ReadOpts
  starts : List (Bytes × Start)

def parseReadGroup (a : List Bytes) (db : Db) : Except Resp ReadGroup :=
  if a.length < 6 then .error (wrong_args "xreadgroup")
  else
    match a with
    | word :: g :: c :: rest =>
        if !isWord word "GROUP" then .error syntax_error
        else
          match parseReadOpts (rest.length + 1) { count := 0, noack := false } rest with
          | .error e => .error e
          | .ok (o, names) =>
              if names = [] ∨ names.length % 2 ≠ 0 then
                .error (utf8Err "Unbalanced 'xreadgroup' list of streams: for each stream key an ID or '>' must be specified.")
              else
                let half := names.length / 2
                match parseStarts db g ((names.take half).zip (names.drop half)) with
                | .error e => .error e
                | .ok sts => .ok { g := g, c := c, opts := o, starts := sts }
    | _ => .error (wrong_args "xreadgroup")

def xreadgroup (now : UInt64) (a : List Bytes) (db : Db) : Except Resp (Result × Db) :=
  match parseReadGroup a db with
  | .error e => .error e
  | .ok r =>
      let out := readStreams now r.g r.c r.opts r.starts [] db
      .ok (.reads out.1, out.2)

/-! ## XACK -/

/-- Whether key and group exist; a key of another type is an error. -/
def groupOf (d : KeyData) (g : Bytes) : Except Resp (Option (Header × Group)) :=
  match load d with
  | .error e => .error e
  | .ok none => .ok none
  | .ok (some s) =>
      match d.groups[g]? with
      | none => .ok none
      | some gr => .ok (some (s, gr))

/-- Acknowledge an ID, if it is pending; the number counts those that were. -/
def ackOne (g : Bytes) (r : Nat × KeyData) (id : Id) : Nat × KeyData :=
  if id ∈ r.2.pels g then (r.1 + 1, r.2.delPel g id) else r

def xack (g : Bytes) (a : List Bytes) (d : KeyData) : Outcome :=
  if a = [] then .error (wrong_args "xack")
  else
    match groupOf d g with
    | .error e => .error e
    | .ok none => .ok (.reply (.int 0), d)
    | .ok (some _) =>
        match parseIds a with
        | .error e => .error e
        | .ok ids =>
            let r := ids.foldl (ackOne g) (0, d)
            .ok (.reply (.int (.ofNat r.1)), r.2)

/-! ## XCLAIM and XAUTOCLAIM -/

structure ClaimOpts where
  time : Option Nat
  retry : Option Nat
  force : Bool
  justid : Bool
  lastid : Option Id

/-- The IDs in front of the options. -/
def leadingIds : List Bytes → List Id × List Bytes
  | [] => ([], [])
  | a :: rest =>
      match parse_id a 0 with
      | some id => (id :: (leadingIds rest).1, (leadingIds rest).2)
      | none => ([], a :: rest)

/-- A number that an option of XCLAIM takes, not below 0. -/
def claimNumber (option : String) (v : Bytes) : Except Resp Nat :=
  match parse_strict_i64 v with
  | some i => .ok i.toInt.toNat
  | none => .error (utf8Err ("Invalid " ++ option ++ " argument for XCLAIM"))

/-- The value of an option of XCLAIM. -/
def claimValue (now : UInt64) (o : ClaimOpts) (opt v : Bytes) : Except Resp ClaimOpts :=
  if isWord opt "IDLE" then
    match claimNumber "IDLE option" v with
    | .error e => .error e
    | .ok n => .ok { o with time := some (now.toNat - n) }
  else if isWord opt "TIME" then
    match claimNumber "TIME option" v with
    | .error e => .error e
    | .ok n => .ok { o with time := some n }
  else if isWord opt "RETRYCOUNT" then
    match claimNumber "RETRYCOUNT option" v with
    | .error e => .error e
    | .ok n => .ok { o with retry := some n }
  else
    match strict_id v with
    | .error e => .error e
    | .ok id => .ok { o with lastid := some id }

def takesValue (opt : Bytes) : Bool :=
  isWord opt "IDLE" || isWord opt "TIME" || isWord opt "RETRYCOUNT" || isWord opt "LASTID"

def parseClaimOpts (now : UInt64) : Nat → ClaimOpts → List Bytes → Except Resp ClaimOpts
  | 0, o, _ => .ok o
  | _ + 1, o, [] => .ok o
  | fuel + 1, o, opt :: rest =>
      if isWord opt "FORCE" then parseClaimOpts now fuel { o with force := true } rest
      else if isWord opt "JUSTID" then parseClaimOpts now fuel { o with justid := true } rest
      else if takesValue opt then
        match rest with
        | [] => .error syntax_error
        | v :: rest' =>
            match claimValue now o opt v with
            | .error e => .error e
            | .ok o' => parseClaimOpts now fuel o' rest'
      else .error (formatErr (Replies.unrecognized_xclaim_option opt))

/-- A parsed XCLAIM. -/
structure Claim where
  min_idle : Nat
  ids : List Id
  opts : ClaimOpts

def parseClaim (now : UInt64) (a : List Bytes) : Except Resp Claim :=
  match a with
  | [] => .error (wrong_args "xclaim")
  | min_idle :: rest =>
      match claimNumber "min-idle-time" min_idle with
      | .error e => .error e
      | .ok idle =>
          let r := leadingIds rest
          match parseClaimOpts now r.2.length
              { time := none, retry := none, force := false, justid := false, lastid := none } r.2 with
          | .error e => .error e
          | .ok o => .ok { min_idle := idle, ids := r.1, opts := o }

/-- A group whose last delivered ID was moved up by LASTID. -/
def raiseLast (gr : Group) : Option Id → Group
  | none => gr
  | some l => if l > gr.last then { gr with last := l } else gr

/-- The pending entry that a claim starts from. -/
def claimBase (now : UInt64) (g c : Bytes) (force : Bool) (id : Id) (d : KeyData) : Option Pel :=
  match (d.pels g)[id]? with
  | some p => some p
  | none =>
      if force && (d.entries[id]?).isSome then some { time := now.toNat, count := 0, owner := c }
      else none

/-- Claim one ID. -/
def claimOne (now : UInt64) (g c : Bytes) (x : Claim) (r : List (Id × Fields) × KeyData) (id : Id) :
    List (Id × Fields) × KeyData :=
  let d := r.2
  match claimBase now g c x.opts.force id d with
  | none => r
  | some p =>
      match d.entries[id]? with
      | none => (r.1, d.delPel g id)
      | some fields =>
          if x.min_idle > 0 ∧ now.toNat - p.time < x.min_idle then r
          else
            (r.1 ++ [(id, fields)],
              d.putPel g id
                { time := x.opts.time.getD now.toNat
                  count :=
                    match x.opts.retry with
                    | some n => n
                    | none => if x.opts.justid then p.count else p.count + 1
                  owner := c })

def xclaim (now : UInt64) (key g c : Bytes) (a : List Bytes) (d : KeyData) : Outcome :=
  if a.length < 2 then .error (wrong_args "xclaim")
  else
    match groupOf d g with
    | .error e => .error e
    | .ok none => .error (formatErr (Replies.nogroup key g))
    | .ok (some (_, gr)) =>
        match parseClaim now a with
        | .error e => .error e
        | .ok x =>
            let d₁ := d.save_group g (raiseLast gr x.opts.lastid)
            let r := x.ids.foldl (claimOne now g c x) ([], d₁)
            .ok (.claimed x.opts.justid r.1, r.2.touch_con now g c (!r.1.isEmpty))

/-- A parsed XAUTOCLAIM. -/
structure AutoClaim where
  min_idle : Nat
  start : Id
  count : Nat
  justid : Bool

def parseAutoOpts : Nat → AutoClaim → List Bytes → Except Resp AutoClaim
  | 0, o, _ => .ok o
  | _ + 1, o, [] => .ok o
  | fuel + 1, o, opt :: rest =>
      if isWord opt "COUNT" then
        match rest with
        | [] => .error not_int
        | v :: rest' =>
            match parse_int v with
            | .error e => .error e
            | .ok n =>
                if n.toInt < 1 ∨ n.toInt > (2 ^ 63 - 1) / 10 then
                  .error (utf8Err "COUNT must be > 0")
                else parseAutoOpts fuel { o with count := n.toInt.toNat } rest'
      else if isWord opt "JUSTID" then parseAutoOpts fuel { o with justid := true } rest
      else .error syntax_error

def parseAutoClaim (a : List Bytes) : Except Resp AutoClaim :=
  match a with
  | min_idle :: start :: rest =>
      match parse_strict_i64 min_idle with
      | none => .error (utf8Err "Invalid min-idle-time argument for XAUTOCLAIM")
      | some idle =>
          match range_start start with
          | .error e => .error e
          | .ok lo =>
              parseAutoOpts rest.length
                { min_idle := idle.toInt.toNat, start := lo, count := 100, justid := false } rest
  | _ => .error (wrong_args "xautoclaim")

/-- What an XAUTOCLAIM has found so far. -/
structure AutoFound where
  claimed : List (Id × Fields)
  deleted : List Id
  next : Id

/-- Go through the pending entries that were read. -/
def autoLoop (now : UInt64) (g c : Bytes) (x : AutoClaim) :
    Nat → List (Id × Pel) → AutoFound → KeyData → AutoFound × KeyData
  | _, [], f, d => (f, d)
  | attempts, (id, p) :: scan, f, d =>
      if f.claimed.length ≥ x.count ∨ attempts = 0 then ({ f with next := id }, d)
      else
        match d.entries[id]? with
        | none =>
            autoLoop now g c x (attempts - 1) scan { f with deleted := f.deleted ++ [id] }
              (d.delPel g id)
        | some fields =>
            if now.toNat - p.time < x.min_idle then autoLoop now g c x (attempts - 1) scan f d
            else
              autoLoop now g c x (attempts - 1) scan
                { f with claimed := f.claimed ++ [(id, fields)] }
                (d.putPel g id
                  { time := now.toNat
                    count := if x.justid then p.count else p.count + 1
                    owner := c })

def xautoclaim (now : UInt64) (key g c : Bytes) (a : List Bytes) (d : KeyData) : Outcome :=
  if a.length < 2 then .error (wrong_args "xautoclaim")
  else
    match load d with
    | .error e => .error e
    | .ok _ =>
        match parseAutoClaim a with
        | .error e => .error e
        | .ok x =>
            match groupOf d g with
            | .error e => .error e
            | .ok none => .error (formatErr (Replies.nogroup key g))
            | .ok (some _) =>
                let scan := first (x.count * 10 + 1) (d.pel_range g x.start ID_MAX)
                let r := autoLoop now g c x (x.count * 10) scan
                  { claimed := [], deleted := [], next := ID_MIN } d
                .ok (.autoclaimed r.1.next x.justid r.1.claimed r.1.deleted,
                  r.2.touch_con now g c (!r.1.claimed.isEmpty))

/-! ## XGROUP -/

def need_key : Resp :=
  utf8Err "The XGROUP subcommand requires the key to exist. Note that for CREATE you may want to use the MKSTREAM option to create an empty stream automatically."

def xgroupUsage (sub : String) : Resp :=
  utf8Err ("unknown subcommand or wrong number of arguments for '" ++ sub ++ "'. Try XGROUP HELP.")

/-- `ENTRIESREAD n` in front of the arguments. -/
def parse_entries_read : List Bytes → Except Resp (Option Int)
  | [] => .ok none
  | o :: rest =>
      if isWord o "ENTRIESREAD" then
        match rest with
        | [] => .error not_int
        | v :: _ =>
            match parse_int v with
            | .error e => .error e
            | .ok v =>
                if v.toInt < -1 then
                  .error (utf8Err "value for ENTRIESREAD must be positive or -1")
                else .ok (some v.toInt)
      else .error syntax_error

/-- The options of XGROUP CREATE. -/
def parseCreateOpts : Nat → Bool × Option Int → List Bytes → Except Resp (Bool × Option Int)
  | 0, o, _ => .ok o
  | _ + 1, o, [] => .ok o
  | fuel + 1, o, opt :: rest =>
      if isWord opt "MKSTREAM" then parseCreateOpts fuel (true, o.2) rest
      else
        match parse_entries_read (opt :: rest) with
        | .error e => .error e
        | .ok read => parseCreateOpts fuel (o.1, read) (rest.drop 1)

/-- The ID of a group: `$` stands for the last ID of the stream. -/
def parseGroupId (id_arg : Bytes) : Except Resp (Option Id) :=
  if id_arg = utf8 "$" then .ok none
  else
    match strict_id id_arg with
    | .error e => .error e
    | .ok id => .ok (some id)

/-- The group that CREATE and SETID store. -/
def newGroup (s : Header) (entries : Entries) (explicit : Option Id) (read : Option Int) : Group :=
  let id := explicit.getD s.last
  { last := id, read := read.getD (estimate_read s entries id) }

def ok : Result := .reply (.simple (utf8 "OK"))

def xgroupCreate (g id_arg : Bytes) (opts : List Bytes) (d : KeyData) : Outcome :=
  match parseCreateOpts opts.length (false, none) opts with
  | .error e => .error e
  | .ok (mk, read) =>
      match parseGroupId id_arg with
      | .error e => .error e
      | .ok explicit =>
          match load d with
          | .error e => .error e
          | .ok found =>
              if found.isNone && !mk then .error need_key
              else if (d.groups[g]?).isSome then
                .error (utf8Err "BUSYGROUP Consumer Group name already exists")
              else
                let s := found.getD new_stream
                .ok (ok, save (d.save_group g (newGroup s d.entries explicit read)) s)

def xgroupSetId (key g id_arg : Bytes) (opts : List Bytes) (d : KeyData) : Outcome :=
  match parseGroupId id_arg with
  | .error e => .error e
  | .ok explicit =>
      match parse_entries_read opts with
      | .error e => .error e
      | .ok read =>
          match load d with
          | .error e => .error e
          | .ok none => .error need_key
          | .ok (some s) =>
              if (d.groups[g]?).isNone then .error (formatErr (Replies.no_such_group key g))
              else .ok (ok, d.save_group g (newGroup s d.entries explicit read))

def xgroupDestroy (g : Bytes) (d : KeyData) : Outcome :=
  match load d with
  | .error e => .error e
  | .ok none => .error need_key
  | .ok (some _) =>
      if (d.groups[g]?).isNone then .ok (.reply (.int 0), d)
      else
        .ok (.reply (.int 1),
          deleteCons (deletePels { d with groups := d.groups.erase g } g) g)

/-- A consumer's own pending entries. -/
def ownPels (d : KeyData) (g c : Bytes) : List Id :=
  ((d.pel_range g ID_MIN ID_MAX).filter fun e => e.2.owner == c).map Prod.fst

def xgroupConsumer (now : UInt64) (create : Bool) (key g c : Bytes) (d : KeyData) : Outcome :=
  match load d with
  | .error e => .error e
  | .ok none => .error need_key
  | .ok (some _) =>
      if (d.groups[g]?).isNone then .error (formatErr (Replies.no_such_group key g))
      else if create then
        if ((d.cons g)[c]?).isSome then .ok (.reply (.int 0), d)
        else .ok (.reply (.int 1), d.save_con g c { seen := now.toNat, active := -1 })
      else if ((d.cons g)[c]?).isNone then .ok (.reply (.int 0), d)
      else
        .ok (.reply (.int (.ofNat (ownPels d g c).length)),
          ((ownPels d g c).foldl (fun d id => d.delPel g id) d).delCon g c)

/-- The subcommands of XGROUP that work on a group. -/
inductive Sub where
  | create
  | setId
  | destroy
  | createConsumer
  | delConsumer

def Sub.word : Sub → String
  | .create => "CREATE"
  | .setId => "SETID"
  | .destroy => "DESTROY"
  | .createConsumer => "CREATECONSUMER"
  | .delConsumer => "DELCONSUMER"

/-- A subcommand, its key, its group and the arguments behind them. -/
structure GroupCmd where
  sub : Sub
  key : Bytes
  g : Bytes
  rest : List Bytes

/-- Whether the subcommand has as many arguments as it takes. -/
def Sub.arity (n : Nat) : Sub → Bool
  | .create => 1 ≤ n
  | .setId => 1 ≤ n
  | .destroy => n = 0
  | .createConsumer => n = 1
  | .delConsumer => n = 1

def Sub.usage : Sub → Resp
  | .create => xgroupUsage "create"
  | .setId => xgroupUsage "setid"
  | .destroy => xgroupUsage "destroy"
  | .createConsumer => xgroupUsage "createconsumer"
  | .delConsumer => xgroupUsage "delconsumer"

def findSub (sub : Bytes) : Option Sub :=
  [Sub.create, .setId, .destroy, .createConsumer, .delConsumer].find? fun s => isWord sub s.word

def xgroup_help : Resp :=
  .array (["XGROUP <subcommand> [<arg> [value] [opt] ...]. Subcommands are:",
    "CREATE <key> <groupname> <id|$> [option]",
    "CREATECONSUMER <key> <groupname> <consumer>",
    "DELCONSUMER <key> <groupname> <consumer>",
    "DESTROY <key> <groupname>",
    "SETID <key> <groupname> <id|$> [ENTRIESREAD entries_read]"].map fun l => .simple (utf8 l))

/-- The arguments of XGROUP; HELP and unknown subcommands are answered at once. -/
def parseGroupCmd : List Bytes → Except Resp GroupCmd
  | [] => .error (wrong_args "xgroup")
  | sub :: a =>
      if isWord sub "HELP" then .error xgroup_help
      else
        match findSub sub with
        | none =>
            .error (formatErr (Replies.unknown_subcommand ⟨utf8 "XGROUP", by decide +kernel⟩ sub))
        | some s =>
            match a with
            | key :: g :: rest =>
                if s.arity rest.length then .ok { sub := s, key := key, g := g, rest := rest }
                else .error s.usage
            | _ => .error s.usage

def xgroup (now : UInt64) (x : GroupCmd) (d : KeyData) : Outcome :=
  match x.sub, x.rest with
  | .create, id_arg :: opts => xgroupCreate x.g id_arg opts d
  | .setId, id_arg :: opts => xgroupSetId x.key x.g id_arg opts d
  | .destroy, [] => xgroupDestroy x.g d
  | .createConsumer, [c] => xgroupConsumer now true x.key x.g c d
  | .delConsumer, [c] => xgroupConsumer now false x.key x.g c d
  | sub, _ => .error sub.usage

/-! ## Commands -/

/-- A command with its arguments. -/
inductive Cmd where
  | xadd (now : UInt64) (key : Bytes) (a : List Bytes)
  | xdel (key : Bytes) (a : List Bytes)
  | xtrim (key : Bytes) (a : List Bytes)
  | xreadgroup (now : UInt64) (a : List Bytes)
  | xack (key g : Bytes) (a : List Bytes)
  | xclaim (now : UInt64) (key g c : Bytes) (a : List Bytes)
  | xautoclaim (now : UInt64) (key g c : Bytes) (a : List Bytes)
  | xgroup (now : UInt64) (a : List Bytes)

/-- A command on one key. -/
def onKey (db : Db) (key : Bytes) (f : KeyData → Outcome) : Except Resp (Result × Db) :=
  match f (db key) with
  | .error e => .error e
  | .ok (r, d) => .ok (r, Function.update db key d)

/-- A command that is answered with a plain reply. -/
def plain (f : KeyData → Answer) (d : KeyData) : Outcome :=
  match f d with
  | .error e => .error e
  | .ok (r, d') => .ok (.reply r, d')

def Cmd.exec (db : Db) : Cmd → Except Resp (Result × Db)
  | .xadd now key a => onKey db key (plain (Stream.xadd now a))
  | .xdel key a => onKey db key (plain (Stream.xdel a))
  | .xtrim key a => onKey db key (plain (Stream.xtrim a))
  | .xreadgroup now a => Stream.xreadgroup now a db
  | .xack key g a => onKey db key (Stream.xack g a)
  | .xclaim now key g c a => onKey db key (Stream.xclaim now key g c a)
  | .xautoclaim now key g c a => onKey db key (Stream.xautoclaim now key g c a)
  | .xgroup now a =>
      match parseGroupCmd a with
      | .error e => .error e
      | .ok x => onKey db x.key (Stream.xgroup now x)

end Stream
end StrikeDB
