import StrikeDB.ByteOrder
import StrikeDB.Keyspace
import StrikeDB.Programs
import StrikeDB.Text

/-!
# StrikeDB: the memories of agents

Working memory, episodes and procedures.  Each operation is a program that calls the
engine; the engine answers from the sequential keyspace, and a call that writes may fail.
What an agent stores lies behind one of four key prefixes that end with its name and a
colon.

The operations of any number of clients run at once, call by call, next to whatever else
writes to the store.  `recorded` is the history that the episodes are compared with: those
recorded and not yet forgotten, each with the clock before and after its recording.
-/

namespace StrikeDB

namespace Memory

/-- A string: bytes that `from_utf8_lossy` leaves as they are. -/
structure Str where
  bytes : Text
  valid : Text.from_utf8_lossy bytes = bytes

instance : DecidableEq Str := fun a b =>
  decidable_of_iff (a.bytes = b.bytes) (by cases a; cases b; simp)

/-! ## Keys -/

def COLON : UInt8 := 0x3a

/-- The families of keys that operations of an agent write. -/
inductive Family where
  | wm
  | wmx
  | ep
  | proc
deriving DecidableEq

def Family.tag : Family → Bytes
  | wm => utf8 "mem:wm:"
  | wmx => utf8 "mem:wmx:"
  | ep => utf8 "mem:ep:"
  | proc => utf8 "mem:proc:"

/-- What the keys of one family and one agent begin with. -/
def agentPrefix (f : Family) (agent : Str) : Bytes := f.tag ++ (agent.bytes ++ [COLON])

def wm_key (agent k : Str) : Key := agentPrefix .wm agent ++ k.bytes
def wm_exp_key (agent k : Str) : Key := agentPrefix .wmx agent ++ k.bytes
def ep_key (agent : Str) (seq : UInt64) : Key := agentPrefix .ep agent ++ beBytes 8 seq.toNat
def proc_key (agent name : Str) : Key := agentPrefix .proc agent ++ name.bytes

/-! ## Calls to the engine -/

inductive EngineCall where
  | get (key : Key)
  | put_batch (kvs : List (Key × Value))
  | delete (key : Key)
  /-- At the newest snapshot. -/
  | scanPrefix (p : Bytes)
  /-- Advance the clock. -/
  | now
  /-- `ep_seq.fetch_add(1)`, which is no call to the engine but a counter of the process. -/
  | ep_seq

abbrev EngineCall.Reply : EngineCall → Type
  | get _ => Option Value
  | put_batch _ => Bool
  | delete _ => Bool
  | scanPrefix _ => List (Key × Value)
  | now => Nat
  | ep_seq => Nat

structure State where
  ks : Keyspace
  clock : Nat
  ep_seq : Nat

namespace State

/-- The live pairs with a key in `[p, prefixEnd p)`, or from `p` on if there is no such bound,
in key order. -/
def scanPrefix (s : State) (p : Bytes) : List (Key × Value) :=
  (s.ks.toList.filter fun e =>
    (compare p e.1).isLE && (prefixEnd p = [] || (compare e.1 (prefixEnd p)).isLT)).filterMap
      fun e => (live e.2.2).map fun v => (e.1, v)

/-- A write that succeeds if `ok`. -/
def write (s : State) (ok : Bool) (kvs : List (Key × Value)) : State :=
  { s with
    clock := s.clock + 1
    ks := if ok then s.ks.commit (kvs.map fun kv =>
        { key := kv.1, value := kv.2, ts := s.clock + 1 }) else s.ks }

/-- The answer to a call; writes fail unless `ok`. -/
def answer (s : State) (ok : Bool) : (c : EngineCall) → State × c.Reply
  | .get key => (s, s.ks.value key)
  | .put_batch kvs => (s.write ok kvs, ok)
  | .delete key => (s.write ok [(key, .tombstone)], ok)
  | .scanPrefix p => (s, s.scanPrefix p)
  | .now => ({ s with clock := s.clock + 1 }, s.clock + 1)
  | .ep_seq => ({ s with ep_seq := s.ep_seq + 1 }, s.ep_seq)

end State

/-- A program of the memory engine. -/
abbrev MemProg := Prog EngineCall EngineCall.Reply

def get (key : Key) : MemProg (Option Value) := Prog.lift (EngineCall.get key)
def put_batch (kvs : List (Key × Value)) : MemProg Bool := Prog.lift (EngineCall.put_batch kvs)
def put (key : Key) (value : Value) : MemProg Bool := put_batch [(key, value)]
def delete (key : Key) : MemProg Bool := Prog.lift (EngineCall.delete key)
def scanPrefix (p : Bytes) : MemProg (List (Key × Value)) := Prog.lift (EngineCall.scanPrefix p)
def now : MemProg Nat := Prog.lift EngineCall.now
def next_ep_seq : MemProg Nat := Prog.lift EngineCall.ep_seq

/-! ## Working memory -/

/-- `ttl_ms` 0 means no expiry. -/
def wm_set (agent key : Str) (value : Bytes) (ttl_ms now : UInt64) : MemProg Bool :=
  let exp := if ttl_ms = 0 then 0 else now + ttl_ms
  put_batch [(wm_key agent key, .bytes value), (wm_exp_key agent key, .int exp.toInt64)]

/-- Drop an entry that has expired. -/
def wm_expired (agent key : Str) : MemProg (Option Bytes) := do
  let _ ← delete (wm_key agent key)
  let _ ← delete (wm_exp_key agent key)
  return none

/-- The value; an expiry that is left without one is cleaned up. -/
def wm_value (agent key : Str) : MemProg (Option Bytes) := do
  match ← get (wm_key agent key) with
  | some (.bytes b) => return some b
  | _ =>
      let _ ← delete (wm_exp_key agent key)
      return none

def wm_get (agent key : Str) (now : UInt64) : MemProg (Option Bytes) := do
  match ← get (wm_exp_key agent key) with
  | some (.int exp) =>
      if exp ≠ 0 ∧ exp.toUInt64 ≤ now then wm_expired agent key else wm_value agent key
  | _ => wm_value agent key

def wm_delete (agent key : Str) : MemProg Unit := do
  let _ ← delete (wm_key agent key)
  let _ ← delete (wm_exp_key agent key)
  return ()

/-! ## Episodes -/

structure Episode where
  seq : UInt64
  agent : Str
  kind : Text
  payload : Bytes
deriving DecidableEq

/-- The time in the upper 42 bits, the counter in the lower 22. -/
def seqOf (ts c : Nat) : UInt64 := UInt64.ofNat ts <<< 22 ||| (UInt64.ofNat c &&& 0x3FFFFF)

/-- The length of the kind in two bytes, the kind, the payload. -/
def encodeEpisode (kind : Str) (payload : Bytes) : Bytes :=
  beBytes 2 kind.bytes.length ++ kind.bytes ++ payload

def putEpisode (agent kind : Str) (payload : Bytes) (seq : UInt64) : MemProg (Option UInt64) := do
  let ok ← put (ep_key agent seq) (.bytes (encodeEpisode kind payload))
  return if ok then some seq else none

/-- Append an episode; `none` when the write fails. -/
def episode (agent kind : Str) (payload : Bytes) : MemProg (Option UInt64) := do
  let ts ← now
  let c ← next_ep_seq
  putEpisode agent kind payload (seqOf ts c)

/-- Split the kind from the payload. -/
def decodeEpisode (b : Bytes) : Text × Bytes :=
  if 2 ≤ b.length then
    let klen := beNat (b.take 2)
    if 2 + klen ≤ b.length then
      (Text.from_utf8_lossy ((b.drop 2).take klen), b.drop (2 + klen))
    else ([], b.drop 2)
  else ([], b)

/-- One pair of the scan; keys without room for the sequence number are skipped. -/
def readEpisode (agent : Str) : Key × Value → Option Episode
  | (k, .bytes b) =>
      if k.length < (agentPrefix .ep agent).length + 8 then none
      else
        let body := decodeEpisode b
        some
          { seq := UInt64.ofNat (beNat (k.drop (k.length - 8)))
            agent := agent
            kind := body.1
            payload := body.2 }
  | _ => none

def readEpisodes (agent : Str) (limit : Nat) (kvs : List (Key × Value)) : List Episode :=
  ((kvs.filterMap (readEpisode agent)).mergeSort fun e e' => e.seq ≤ e'.seq).take limit

def episodes (agent : Str) (limit : Nat) : MemProg (List Episode) := do
  let kvs ← scanPrefix (agentPrefix .ep agent)
  return readEpisodes agent limit kvs

def episode_forget (agent : Str) (seq : UInt64) : MemProg Unit := do
  let _ ← delete (ep_key agent seq)
  return ()

def episodes_clear (agent : Str) : MemProg Unit := do
  let kvs ← scanPrefix (agentPrefix .ep agent)
  kvs.forM fun kv => do
    let _ ← delete kv.1
    return ()

/-! ## Procedures -/

def proc_store (agent name : Str) (body : Bytes) : MemProg Bool :=
  put (proc_key agent name) (.bytes body)

def proc_get (agent name : Str) : MemProg (Option Bytes) := do
  match ← get (proc_key agent name) with
  | some (.bytes b) => return some b
  | _ => return none

/-- `strip_prefix`. -/
def strip_prefix (p t : Text) : Option Text := if p.isPrefixOf t then some (t.drop p.length) else none

def proc_list (agent : Str) : MemProg (List Text) := do
  let kvs ← scanPrefix (agentPrefix .proc agent)
  return kvs.filterMap fun kv => strip_prefix (agentPrefix .proc agent) (Text.from_utf8_lossy kv.1)

/-! ## Two agents -/

/-- Neither name begins with the other and a colon. -/
def Separate (a b : Str) : Prop :=
  ¬ a.bytes ++ [COLON] <+: b.bytes ∧ ¬ b.bytes ++ [COLON] <+: a.bytes

instance (a b : Str) : Decidable (Separate a b) := inferInstanceAs (Decidable (_ ∧ _))

/-- The key lies behind one of the agent's prefixes. -/
def Owned (agent : Str) (k : Key) : Prop := ∃ f, agentPrefix f agent <+: k

theorem tag_begins {f : Family} {agent : Str} {k : Key} (h : agentPrefix f agent <+: k) :
    f.tag <+: k :=
  (List.prefix_append _ _).trans h

theorem family_unique {f f' : Family} {k : Key} (h : f.tag <+: k) (h' : f'.tag <+: k) : f = f' := by
  have htake : f.tag.take 7 = f'.tag.take 7 := by
    have hlen : ∀ f : Family, 7 ≤ f.tag.length := by
      intro f
      cases f <;> decide +kernel
    obtain ⟨r, rfl⟩ := h
    obtain ⟨r', hr'⟩ := h'
    have heq := congrArg (List.take 7) hr'
    rw [List.take_append_of_le_length (hlen _), List.take_append_of_le_length (hlen _)] at heq
    exact heq.symm
  revert htake
  cases f <;> cases f' <;> decide +kernel

/-- No key belongs to two agents with separate names. -/
theorem Separate.not_owned
    {a b : Str} (h : Separate a b) (hne : a ≠ b) {k : Key} (ha : Owned a k) : ¬ Owned b k := by
  rintro ⟨f', hb⟩
  obtain ⟨f, ha⟩ := ha
  have hf := family_unique (tag_begins ha) (tag_begins hb)
  subst hf
  obtain ⟨r, rfl⟩ := ha
  rw [agentPrefix, agentPrefix, List.append_assoc, List.prefix_append_right_inj] at hb
  have hbytes : a.bytes ≠ b.bytes := by
    intro heq
    apply hne
    cases a
    cases b
    simpa using heq
  rcases prefix_of_append_sep (List.prefix_append _ _) hb hbytes with hpre | hpre
  · exact h.1 hpre
  · exact h.2 hpre

end Memory
end StrikeDB
