import StrikeDB.Clients
import StrikeDB.MergedScan

/-!
# StrikeDB: time series

A point of a series stands under `ts:{<series>}:`, its time and its number.  The
numbers of a series come from a counter that the process keeps in memory and takes
from the store when it first sees the series.  Every append writes the point and
the counter in one batch, but the batches of two threads may commit in another
order than the numbers were given out.

`TimeSeries` is the engine with the threads that append and read.  A read takes the
snapshot first and scans later.  At a restart the threads and the counters in
memory are gone, and the engine is opened again on what recovery finds.

`appends` has every append in the order of the numbers' reservation and is kept for
the statements only; those that a restart has undone are taken out.
-/

namespace StrikeDB

/-! ## Keys -/

namespace TimeSeries

def tsTag : Bytes := [0x74, 0x73, 0x3a, 0x7b]

def metaTag : Bytes := [0x74, 0x73, 0x6d, 0x65, 0x74, 0x61, 0x3a, 0x7b]

/-- `prefix`: what the keys of all points of a series begin with. -/
def seriesKey (series : Bytes) : Key := tsTag ++ series ++ [0x7d, 0x3a]

def point_key (series : Bytes) (ts seq : UInt64) : Key :=
  seriesKey series ++ (beBytes 8 ts.toNat ++ (0x3a :: beBytes 8 seq.toNat))

def meta_key (series : Bytes) : Key := metaTag ++ series ++ [0x7d]

/-- The keys of points and counters. -/
def Own (k : Key) : Prop := tsTag <+: k ∨ metaTag <+: k

/-- The time in a point key and the value, as the bits of a float. -/
def decode_point (i64_as_f64 : Int64 → UInt64) (key : Key) (v : Value) : Option (UInt64 × UInt64) :=
  if key.length < 17 then none
  else
    let ts := UInt64.ofNat (beNat ((key.drop (key.length - 17)).take 8))
    match v with
    | .float bits => some (ts, bits)
    | .int i => some (ts, i64_as_f64 i)
    | _ => none

/-! ## Reads -/

/-- Add one to the last byte that is not 0xFF, the bytes in reverse order. -/
def carry : Bytes → Bytes
  | [] => []
  | b :: bs => if b = 0xFF then 0 :: carry bs else (b + 1) :: bs

def nudge (end_ : Bytes) : Bytes := (carry end_.reverse).reverse

end TimeSeries

/-- Range scan of the shard of a key. -/
def FlushCore.scan_pinned (core : FlushCore) (hint_key start stop : Key) (snapshot : Nat) :
    List (Key × Value) :=
  core.scanShard (shard_of hint_key) start stop snapshot

namespace TimeSeries

section Reads

variable (i64_as_f64 : Int64 → UInt64) (core : FlushCore) (snapshot : Nat)

/-- The points with times from `from_` to `to_`. -/
def range (series : Bytes) (from_ to_ : UInt64) : List (UInt64 × UInt64) :=
  if from_ > to_ then []
  else
    let start := seriesKey series ++ beBytes 8 from_.toNat
    let end_ := nudge (seriesKey series ++ beBytes 8 to_.toNat)
    (core.scan_pinned (seriesKey series) start end_ snapshot).filterMap fun e =>
      decode_point i64_as_f64 e.1 e.2

/-- The last `limit` points. -/
def latest (series : Bytes) (limit : Nat) : List (UInt64 × UInt64) :=
  if limit = 0 then []
  else
    let start := seriesKey series
    let end_ := seriesKey series ++ List.replicate 17 0xFF
    (core.scan_pinned_reverse (seriesKey series) start end_ snapshot limit).filterMap fun e =>
      decode_point i64_as_f64 e.1 e.2

end Reads

/-! ## The system -/

/-- One append; `acked` when its thread was told of the success. -/
structure Append where
  series : Bytes
  ts : UInt64
  val : UInt64
  seq : UInt64
  acked : Bool
deriving DecidableEq

def Append.key (a : Append) : Key := point_key a.series a.ts a.seq

/-- The batch of an append: the counter and the point. -/
def Append.entries (a : Append) : ValueMap :=
  (Std.ExtTreeMap.insert ∅ (meta_key a.series) (.int a.seq.toInt64)).insert a.key (.float a.val)

/-- Where a thread stands; `place` is where its append stands among all of them. -/
inductive Task where
  | idle
  | reserved (place : Nat) (a : Append)
  | waiting (ts place : Nat) (a : Append)
  /-- A read that has taken its snapshot, with the appends acknowledged until then. -/
  | reading (snapshot : Nat) (known : List Append)

/-- The counter that the store holds. -/
def storedSeq : Option Value → UInt64
  | some (.int n) => n.toUInt64
  | _ => 0

end TimeSeries

structure TimeSeries (ρ : Type) (n : Nat) where
  engine : Engine ρ
  /-- Per-series sequence counters, as far as the process has seen the series. -/
  seq : Std.ExtTreeMap Bytes UInt64
  tasks : Fin n → TimeSeries.Task
  appends : List TimeSeries.Append

namespace TimeSeries

inductive SeriesAct (ρ : Type) (n : Nat) where
  | engine (act : Act ρ)
  | reserve (i : Fin n) (series : Bytes) (ts val : UInt64)
  | submit (i : Fin n)
  | receive (i : Fin n)
  | read (i : Fin n)
  | return_ (i : Fin n)
  /-- The process ends, and the next one opens what recovery finds. -/
  | restart (o : Opened)

variable {ρ : Type} {n : Nat}

def setTask (s : TimeSeries ρ n) (i : Fin n) (t : Task) : TimeSeries ρ n :=
  { s with tasks := Function.update s.tasks i t }

/-- Reserve the number after `cur`.  The counter is a `u64` that never runs out. -/
def reserveAfter (s : TimeSeries ρ n) (i : Fin n) (series : Bytes) (ts val cur : UInt64) :
    Option (TimeSeries ρ n) :=
  if cur.toNat + 1 < 2 ^ 64 then
    let a : Append := { series := series, ts := ts, val := val, seq := cur + 1, acked := false }
    some ({ s with
      seq := s.seq.insert series (cur + 1)
      appends := s.appends ++ [a] }.setTask i (.reserved s.appends.length a))
  else none

/-- The first half of `append_f`, under the lock of the counters. -/
def reserve (s : TimeSeries ρ n) (i : Fin n) (series : Bytes) (ts val : UInt64) :
    Option (TimeSeries ρ n) :=
  match s.tasks i with
  | .idle =>
      match s.seq[series]? with
      | some cur => s.reserveAfter i series ts val cur
      | none =>
          if s.engine.unlocked (shard_of (meta_key series)) then
            s.reserveAfter i series ts val
              (storedSeq (s.engine.core.get_at (meta_key series) s.engine.core.visible_ts))
          else none
  | _ => none

/-- What is left of the appends when the store holds `ks`. -/
def survivors (ks : Keyspace) (appends : List Append) : List Append :=
  appends.filter fun a => a.acked || (ks.value a.key == some (.float a.val))

def step (s : TimeSeries ρ n) : SeriesAct ρ n → Option (TimeSeries ρ n)
  | .engine act => (s.engine.step act).map fun e => { s with engine := e }
  | .reserve i series ts val => s.reserve i series ts val
  | .submit i => match s.tasks i with
    | .reserved place a =>
        (s.engine.step (.submit (.write a.entries))).map fun e =>
          { s with engine := e }.setTask i (.waiting (s.engine.clock + 1) place a)
    | _ => none
  | .receive i => match s.tasks i with
    | .waiting ts place _ =>
        (s.engine.replies.find? fun r => r.1 = ts).map fun r => match r.2 with
          | .ok _ _ =>
              { s with appends := s.appends.modify place fun a => { a with acked := true } }.setTask
                i .idle
          | _ => s.setTask i .idle
    | _ => none
  | .read i => match s.tasks i with
    | .idle => some (s.setTask i (.reading s.engine.core.visible_ts (s.appends.filter (·.acked))))
    | _ => none
  | .return_ i => match s.tasks i with
    | .reading _ _ => some (s.setTask i .idle)
    | _ => none
  | .restart o =>
      some { engine := .start o s.engine.sync_writes, seq := ∅, tasks := fun _ => .idle
             appends := survivors o.keyspace s.appends }

/-- The server on an empty directory. -/
def start (ρ : Type) (n : Nat) (sync_writes : Bool) : TimeSeries ρ n :=
  { engine := .start Opened.fresh sync_writes, seq := ∅, tasks := fun _ => .idle, appends := [] }

/-! ## What is claimed of it -/

/-- Points stand in the order of their times, those of one time in the order of
their appends. -/
def Before (appends : List Append) (a b : Append) : Prop :=
  a.ts < b.ts ∨ a.ts = b.ts ∧ [a, b].Sublist appends

/-- What the reads of one series at a snapshot return: the points of some of the
appends, among them all those that were acknowledged when the snapshot was taken. -/
structure Exact (i64_as_f64 : Int64 → UInt64) (s : TimeSeries ρ n) (snapshot : Nat)
    (known : List Append) (series : Bytes) (points : List Append) : Prop where
  requested : ∀ a ∈ points, a ∈ s.appends ∧ a.series = series
  known : ∀ a ∈ known, a.series = series → a ∈ points
  ordered : points.Pairwise (Before s.appends)
  once : points.Nodup
  range : ∀ from_ to_, range i64_as_f64 s.engine.core snapshot series from_ to_ =
    (points.filter fun a => from_ ≤ a.ts && a.ts ≤ to_).map fun a => (a.ts, a.val)
  latest : ∀ limit, latest i64_as_f64 s.engine.core snapshot series limit =
    (points.drop (points.length - limit)).map fun a => (a.ts, a.val)

/-- Something stands between the braces, so that the series has a shard. -/
def Tagged (series : Bytes) : Prop := ∃ b rest, series = b :: rest ∧ b ≠ 0x7d

/-- No name is the other's continued after a closing brace and a colon. -/
def Apart (a b : Bytes) : Prop := ¬ a ++ [0x7d, 0x3a] <+: b ∧ ¬ b ++ [0x7d, 0x3a] <+: a

/-- Recovery finds what was published, and maybe commits of appends that nobody was
told of; it may drop tombstones. -/
def Recovers (s : TimeSeries ρ n) (o : Opened) : Prop :=
  ∃ events : List Event, s.engine.history.Sublist events ∧
    (∀ ev ∈ events, ev ∈ s.engine.history ∨
      (∃ a ∈ s.appends, a.acked = false ∧ ∃ ts, ev = .commit ts (opMuts ts a.entries)) ∨
      ∃ ts ms, ev = .commit ts ms ∧ ∀ m ∈ ms, ¬ Own m.key) ∧
    ∀ k : Key, o.keyspace[k]? = (s.engine.base.after events)[k]? ∨
      o.keyspace[k]? = none ∧ (s.engine.base.after events).value k = none

/-- The steps of all runs. -/
def Scope (s : TimeSeries ρ n) : SeriesAct ρ n → Prop
  | .engine act => act.Elsewhere Own
  | .restart o => s.Recovers o
  | _ => True

/-- The steps of the runs in question: at a restart no point in the store has a
number above the counter of its series in the store. -/
def InOrder (s : TimeSeries ρ n) : SeriesAct ρ n → Prop
  | .restart o => s.Recovers o ∧ ∀ a ∈ survivors o.keyspace s.appends,
      a.seq ≤ storedSeq (o.keyspace.value (meta_key a.series))
  | act => s.Scope act

end TimeSeries
end StrikeDB
