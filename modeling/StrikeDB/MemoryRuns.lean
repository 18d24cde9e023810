import StrikeDB.Memory
import StrikeDB.SortedPairs

/-!
# StrikeDB: agents do not reach each other's memories

The operations of all clients run at once, each call of each operation at its own moment.

* `prog_within`: an operation writes only behind the prefixes of its agent.
* `State.Alike.reads`: what an agent reads depends only on the keys behind its own prefixes.
* `Sys.isolated_of_separate`: so separate names are isolated.
-/

namespace StrikeDB
namespace Memory

/-! ## Operations -/

inductive Op where
  | wm_set (agent key : Str) (value : Bytes) (ttl_ms now : UInt64)
  | wm_get (agent key : Str) (now : UInt64)
  | wm_delete (agent key : Str)
  | episode (agent kind : Str) (payload : Bytes)
  | episodes (agent : Str) (limit : Nat)
  | episode_forget (agent : Str) (seq : UInt64)
  | episodes_clear (agent : Str)
  | proc_store (agent name : Str) (body : Bytes)
  | proc_get (agent name : Str)
  | proc_list (agent : Str)

inductive MemAnswer where
  | done (ok : Bool)
  | value (v : Option Bytes)
  | seq (s : Option UInt64)
  | episodes (l : List Episode)
  | names (l : List Text)
deriving DecidableEq

namespace Op

def agent : Op → Str
  | wm_set agent _ _ _ _ => agent
  | wm_get agent _ _ => agent
  | wm_delete agent _ => agent
  | episode agent _ _ => agent
  | episodes agent _ => agent
  | episode_forget agent _ => agent
  | episodes_clear agent => agent
  | proc_store agent _ _ => agent
  | proc_get agent _ => agent
  | proc_list agent => agent

def prog : Op → MemProg MemAnswer
  | wm_set agent key value ttl_ms now => do
      let ok ← Memory.wm_set agent key value ttl_ms now
      return .done ok
  | wm_get agent key now => do
      let v ← Memory.wm_get agent key now
      return .value v
  | wm_delete agent key => do
      Memory.wm_delete agent key
      return .done true
  | episode agent kind payload => do
      let s ← Memory.episode agent kind payload
      return .seq s
  | episodes agent limit => do
      let l ← Memory.episodes agent limit
      return .episodes l
  | episode_forget agent seq => do
      Memory.episode_forget agent seq
      return .done true
  | episodes_clear agent => do
      Memory.episodes_clear agent
      return .done true
  | proc_store agent name body => do
      let ok ← Memory.proc_store agent name body
      return .done ok
  | proc_get agent name => do
      let v ← Memory.proc_get agent name
      return .value v
  | proc_list agent => do
      let l ← Memory.proc_list agent
      return .names l

/-- Does it ask for something, rather than change it? -/
def isRead : Op → Bool
  | wm_get .. => true
  | episodes .. => true
  | proc_get .. => true
  | proc_list .. => true
  | _ => false

/-- Does it forget episodes? -/
def forgets : Op → Bool
  | episode_forget .. => true
  | episodes_clear .. => true
  | _ => false

end Op

/-! ## What an operation may call -/

/-- The key lies behind a prefix of the agent that is not that of its episodes. -/
def OwnedElse (agent : Str) (k : Key) : Prop := ∃ f, f ≠ .ep ∧ agentPrefix f agent <+: k

theorem OwnedElse.owned {agent : Str} {k : Key} (h : OwnedElse agent k) : Owned agent k := by
  obtain ⟨f, _, hf⟩ := h
  exact ⟨f, hf⟩

/-- What is written, by which operation. -/
def Op.May (op : Op) : EngineCall → Prop
  | .put_batch kvs =>
      match op with
      | .episode agent kind payload =>
          ∃ seq, kvs = [(ep_key agent seq, .bytes (encodeEpisode kind payload))]
      | op => ∀ kv ∈ kvs, OwnedElse op.agent kv.1
  | .delete k =>
      if op.forgets then agentPrefix .ep op.agent <+: k else OwnedElse op.agent k
  | _ => True

/-- A scan finds keys with the prefix. -/
def Found : (c : EngineCall) → c.Reply → Prop
  | .scanPrefix p, kvs => ∀ kv ∈ kvs, p <+: kv.1
  | _, _ => True

theorem ownedElse_wm (agent k : Str) : OwnedElse agent (wm_key agent k) :=
  ⟨.wm, by decide, List.prefix_append _ _⟩

theorem ownedElse_wmx (agent k : Str) : OwnedElse agent (wm_exp_key agent k) :=
  ⟨.wmx, by decide, List.prefix_append _ _⟩

theorem ownedElse_proc (agent name : Str) : OwnedElse agent (proc_key agent name) :=
  ⟨.proc, by decide, List.prefix_append _ _⟩

theorem within_wm_expired
    {pre : EngineCall → Prop} {agent key : Str} (hwm : pre (.delete (wm_key agent key)))
    (hwmx : pre (.delete (wm_exp_key agent key))) :
    (wm_expired agent key).Within pre Found :=
  ⟨hwm, fun _ _ => ⟨hwmx, fun _ _ => trivial⟩⟩

theorem within_wm_value
    {pre : EngineCall → Prop} {agent key : Str} (hget : pre (.get (wm_key agent key)))
    (hwmx : pre (.delete (wm_exp_key agent key))) :
    (wm_value agent key).Within pre Found := by
  refine ⟨hget, ?_⟩
  intro r _
  simp only [Prog.bind_ret]
  split
  · exact trivial
  · exact ⟨hwmx, fun _ _ => trivial⟩

theorem within_wm_get
    {pre : EngineCall → Prop} {agent key : Str} (now : UInt64)
    (hwm : pre (.delete (wm_key agent key))) (hwmx : pre (.delete (wm_exp_key agent key)))
    (hget : pre (.get (wm_key agent key))) (hgetx : pre (.get (wm_exp_key agent key))) :
    (wm_get agent key now).Within pre Found := by
  refine ⟨hgetx, ?_⟩
  intro r _
  simp only [Prog.bind_ret]
  split
  · split
    · exact within_wm_expired hwm hwmx
    · exact within_wm_value hget hwmx
  · exact within_wm_value hget hwmx

/-- An operation writes only behind the prefixes of its agent. -/
theorem prog_within (op : Op) : op.prog.Within op.May Found := by
  cases op with
  | wm_set agent key value ttl_ms now =>
      refine ⟨?_, fun _ _ => trivial⟩
      intro kv hkv
      simp only [List.mem_cons, List.not_mem_nil, or_false] at hkv
      rcases hkv with rfl | rfl
      · exact ownedElse_wm agent key
      · exact ownedElse_wmx agent key
  | wm_get agent key now =>
      refine Prog.Within.bind ?_ fun _ => trivial
      exact within_wm_get now (ownedElse_wm agent key) (ownedElse_wmx agent key) trivial trivial
  | wm_delete agent key =>
      exact ⟨ownedElse_wm agent key, fun _ _ => ⟨ownedElse_wmx agent key, fun _ _ => trivial⟩⟩
  | episode agent kind payload =>
      exact ⟨trivial, fun _ _ => ⟨trivial, fun _ _ => ⟨⟨_, rfl⟩, fun _ _ => trivial⟩⟩⟩
  | episodes agent limit => exact ⟨trivial, fun _ _ => trivial⟩
  | episode_forget agent seq =>
      exact ⟨List.prefix_append _ _, fun _ _ => trivial⟩
  | episodes_clear agent =>
      refine ⟨trivial, ?_⟩
      intro kvs hkvs
      refine Prog.Within.bind (Prog.Within.forM ?_) fun _ => trivial
      intro kv hkv
      exact ⟨hkvs kv hkv, fun _ _ => trivial⟩
  | proc_store agent name body =>
      refine ⟨?_, fun _ _ => trivial⟩
      intro kv hkv
      rw [List.mem_singleton] at hkv
      rw [hkv]
      exact ownedElse_proc agent name
  | proc_get agent name =>
      refine Prog.Within.bind ⟨trivial, ?_⟩ fun _ => trivial
      intro r _
      simp only [Prog.bind_ret]
      split <;> exact trivial
  | proc_list agent => exact ⟨trivial, fun _ _ => trivial⟩

/-! ## What an agent reads -/

theorem mem_scanPrefix (s : State) (p : Bytes) (e : Key × Value) :
    e ∈ s.scanPrefix p ↔ p <+: e.1 ∧ s.ks.value e.1 = some e.2 := by
  have hrange : ∀ k, ((compare p k).isLE && (decide (prefixEnd p = []) ||
      (compare k (prefixEnd p)).isLT)) = true ↔ p <+: k := by
    intro k
    rw [prefix_iff_above, (prefixEnd_spec p).1, Bool.and_eq_true, Bool.or_eq_true,
      decide_eq_true_eq]
    cases habove : above p with
    | none => simp
    | some b => simp [above_ne_nil habove]
  rw [State.scanPrefix, List.mem_filterMap]
  simp only [List.mem_filter, hrange, Option.map_eq_some_iff]
  constructor
  · rintro ⟨⟨k, w⟩, ⟨hmem, hpre⟩, v, hlive, rfl⟩
    rw [Std.ExtTreeMap.mem_toList_iff_getElem?_eq_some] at hmem
    exact ⟨hpre, by rw [Keyspace.value, hmem]; exact hlive⟩
  · rintro ⟨hpre, hval⟩
    obtain ⟨w, hget, hlive⟩ := Option.bind_eq_some_iff.mp hval
    refine ⟨(e.1, w), ⟨?_, hpre⟩, e.2, hlive, rfl⟩
    rw [Std.ExtTreeMap.mem_toList_iff_getElem?_eq_some]
    exact hget

/-- An answer while nothing else runs. -/
def ask {α : Type} (p : MemProg α) (s : State) : α := (p.run (State.answer · true) s).2

theorem keySorted_scanPrefix (s : State) (p : Bytes) : KeySorted (s.scanPrefix p) := by
  refine ((keySorted_toList s.ks).filter _).filterMap ?_
  intro e e' he
  obtain ⟨v, _, rfl⟩ := Option.map_eq_some_iff.mp he
  rfl

/-- Two states hold the same values behind the prefixes of an agent. -/
def State.Alike (agent : Str) (s s' : State) : Prop :=
  ∀ k, Owned agent k → s.ks.value k = s'.ks.value k

theorem State.Alike.scan
    {agent : Str} {s s' : State} (h : State.Alike agent s s') (f : Family) :
    s.scanPrefix (agentPrefix f agent) = s'.scanPrefix (agentPrefix f agent) := by
  refine KeySorted.eq_of_mem_iff (keySorted_scanPrefix s _) (keySorted_scanPrefix s' _) ?_
  intro e
  rw [mem_scanPrefix, mem_scanPrefix]
  refine and_congr_right ?_
  intro hpre
  rw [h e.1 ⟨f, hpre⟩]

theorem value_write (ks : Keyspace) (m : Mutation) (k : Key) :
    (ks.write m).value k = if m.key = k then live m.value else ks.value k := by
  rw [Keyspace.value, Keyspace.getElem?_write]
  split <;> rfl

/-- The calls of an operation that reads. -/
def Concerns (agent : Str) : EngineCall → Prop
  | .get k => Owned agent k
  | .delete k => Owned agent k
  | .scanPrefix p => ∃ f, p = agentPrefix f agent
  | _ => False

theorem State.Alike.answer
    {agent : Str} {s s' : State} {c : EngineCall} (h : State.Alike agent s s')
    (hc : Concerns agent c) :
    (s.answer true c).2 = (s'.answer true c).2 ∧
      State.Alike agent (s.answer true c).1 (s'.answer true c).1 := by
  cases c with
  | get k => exact ⟨h k hc, h⟩
  | put_batch kvs => exact absurd hc not_false
  | delete k =>
      refine ⟨rfl, ?_⟩
      intro k' hk'
      have heach : ∀ s : State, (s.write true [(k, .tombstone)]).ks.value k' =
          if k = k' then none else s.ks.value k' := fun s => value_write s.ks _ k'
      rw [State.answer, State.answer, heach, heach, h k' hk']
  | scanPrefix p =>
      obtain ⟨f, rfl⟩ := hc
      exact ⟨h.scan f, h⟩
  | now => exact absurd hc not_false
  | ep_seq => exact absurd hc not_false

theorem found_answer (s : State) (ok : Bool) (c : EngineCall) : Found c (s.answer ok c).2 := by
  cases c with
  | scanPrefix p => exact fun kv hkv => ((mem_scanPrefix s p kv).mp hkv).1
  | _ => trivial

/-- Operations that read call for their agent's own keys. -/
theorem prog_concerns {op : Op} (h : op.isRead = true) :
    op.prog.Within (Concerns op.agent) Found := by
  cases op with
  | wm_get agent key now =>
      refine Prog.Within.bind ?_ fun _ => trivial
      exact within_wm_get now (ownedElse_wm agent key).owned (ownedElse_wmx agent key).owned
        (ownedElse_wm agent key).owned (ownedElse_wmx agent key).owned
  | episodes agent limit => exact ⟨⟨.ep, rfl⟩, fun _ _ => trivial⟩
  | proc_get agent name =>
      refine Prog.Within.bind ⟨(ownedElse_proc agent name).owned, ?_⟩ fun _ => trivial
      intro r _
      simp only [Prog.bind_ret]
      split <;> exact trivial
  | proc_list agent => exact ⟨⟨.proc, rfl⟩, fun _ _ => trivial⟩
  | _ => cases h

/-- What an operation returns when nothing else runs and no write fails. -/
def Op.result (op : Op) (s : State) : MemAnswer := (op.prog.run (State.answer · true) s).2

/-- What an agent reads depends only on the keys behind its own prefixes. -/
theorem State.Alike.reads
    {s s' : State} {op : Op} (hread : op.isRead = true) (h : State.Alike op.agent s s') :
    op.result s = op.result s' :=
  Prog.run_congr (fun _ _ _ h hc => h.answer hc) (fun s c => found_answer s true c)
    (prog_concerns hread) h

/-! ## Operations of many clients -/

/-- An operation that has begun, and what is left of it. -/
structure Thread where
  op : Op
  /-- The clock when it began. -/
  since : Nat
  /-- The time that it was given by `now`. -/
  stamp : Option Nat
  prog : MemProg MemAnswer

/-- A recorded episode, with the clock before and after its recording. -/
structure Rec where
  seq : UInt64
  agent : Str
  kind : Str
  payload : Bytes
  since : Nat
  till : Nat
deriving DecidableEq

def Rec.shown (r : Rec) : Episode :=
  { seq := r.seq, agent := r.agent, kind := r.kind.bytes, payload := r.payload }

structure Sys where
  mem : State
  threads : List Thread
  /-- The episodes recorded and not yet forgotten. -/
  recorded : List Rec

inductive Act where
  | invoke (op : Op)
  /-- The next call of a thread. -/
  | call (i : Nat) (ok : Bool)
  /-- A write by anybody else in the server. -/
  | elsewhere (kvs : List (Key × Value))
  | flush_all
  | reset_volatile
  /-- The clock starts from the newest write that is still there, or later. -/
  | reopen (clock : Nat)

/-- The history after a call: an episode counts as recorded when its operation returns, and as
forgotten with the call that deletes it. -/
def note (th : Thread) (c : EngineCall) (rest : MemProg MemAnswer) (till : Nat)
    (recorded : List Rec) : List Rec :=
  match c with
  | .delete k =>
      if th.op.forgets then
        recorded.filter fun r => ¬ (r.agent = th.op.agent ∧ ep_key r.agent r.seq = k)
      else recorded
  | _ =>
      match th.op, rest with
      | .episode agent kind payload, .ret (.seq (some s)) =>
          recorded ++ [⟨s, agent, kind, payload, th.since, till⟩]
      | _, _ => recorded

namespace Thread

/-- The time that a call gives the thread. -/
def stampAfter (th : Thread) : (c : EngineCall) → c.Reply → Option Nat
  | .now, ts => some ts
  | _, _ => th.stamp

end Thread

namespace Sys

def step (s : Sys) : Act → Option Sys
  | .invoke op =>
      some { s with threads := s.threads ++
        [{ op := op, since := s.mem.clock, stamp := none, prog := op.prog }] }
  | .call i ok =>
      match s.threads[i]? with
      | none => none
      | some th =>
          match th.prog with
          | .ret _ => none
          | .call c next =>
              let r := s.mem.answer ok c
              some
                { mem := r.1
                  threads := s.threads.set i
                    { th with stamp := th.stampAfter c r.2, prog := next r.2 }
                  recorded := note th c (next r.2) r.1.clock s.recorded }
  | .elsewhere kvs =>
      if kvs.all fun kv => [Family.wm, .wmx, .ep, .proc].all fun f => !f.tag.isPrefixOf kv.1 then
        some { s with mem := s.mem.write true kvs }
      else none
  | .flush_all =>
      some { s with mem := { s.mem with ks := ∅, clock := s.mem.clock + 1 }, recorded := [] }
  | .reset_volatile => some { s with mem := { s.mem with ep_seq := 0 } }
  | .reopen clock =>
      if s.mem.ks.toList.all fun e => !e.2.2.isLive || e.2.1 ≤ clock then
        some { s with mem := { s.mem with clock := clock, ep_seq := 0 }, threads := [] }
      else none

def start : Sys :=
  { mem := { ks := ∅, clock := 0, ep_seq := 0 }, threads := [], recorded := [] }

/-- What a call of a thread does. -/
theorem call_cases
    {s s' : Sys} {i : Nat} {ok : Bool} (h : s.step (.call i ok) = some s') :
    ∃ th c next, s.threads[i]? = some th ∧ th.prog = .call c next ∧
      s' =
        { mem := (s.mem.answer ok c).1
          threads := s.threads.set i
            { th with stamp := th.stampAfter c (s.mem.answer ok c).2,
                      prog := next (s.mem.answer ok c).2 }
          recorded := note th c (next (s.mem.answer ok c).2) (s.mem.answer ok c).1.clock
            s.recorded } := by
  simp only [step] at h
  split at h
  · cases h
  · next th hth =>
      split at h
      · cases h
      · next c next hprog =>
          cases h
          exact ⟨th, c, next, hth, hprog, rfl⟩

/-- What is left of every operation calls only what the operation may. -/
def Confined (s : Sys) : Prop := ∀ th ∈ s.threads, th.prog.Within th.op.May Found

theorem confined_step {s s' : Sys} {act : Act} (h : s.Confined) (hst : s.step act = some s') :
    s'.Confined := by
  cases act with
  | invoke op =>
      cases hst
      intro th hth
      rcases List.mem_append.mp hth with hth | hth
      · exact h th hth
      · rw [List.mem_singleton.mp hth]
        exact prog_within op
  | call i ok =>
      obtain ⟨th, c, next, hth, hprog, rfl⟩ := call_cases hst
      intro th' hth'
      rcases List.mem_or_eq_of_mem_set hth' with hth' | rfl
      · exact h th' hth'
      · have hwithin := h th (List.mem_of_getElem? hth)
        rw [hprog] at hwithin
        exact hwithin.2 _ (found_answer s.mem ok c)
  | elsewhere kvs =>
      simp only [step] at hst
      split at hst
      · cases hst
        exact h
      · cases hst
  | flush_all =>
      cases hst
      exact h
  | reset_volatile =>
      cases hst
      exact h
  | reopen clock =>
      simp only [step] at hst
      split at hst
      · cases hst
        intro th hth
        cases hth
      · cases hst

theorem confined_run {s : Sys} (h : Run step (fun _ _ => True) start s) : s.Confined := by
  refine h.invariant (fun _ _ _ hs _ hst => confined_step hs hst) ?_
  intro th hth
  cases hth

/-! ## Isolation -/

/-- The step is a call of an operation for this agent. -/
def For (agent : Str) (s : Sys) : Act → Prop
  | .call i _ => ∃ th, s.threads[i]? = some th ∧ th.op.agent = agent
  | _ => False

/-- No call of an operation for `a` changes what any operation reads for `b`. -/
def Untouched (a b : Str) : Prop :=
  ∀ s s' act, Run step (fun _ _ => True) start s → For a s act → s.step act = some s' →
    ∀ op : Op, op.isRead = true → op.agent = b → op.result s'.mem = op.result s.mem

def Isolated (a b : Str) : Prop := Untouched a b ∧ Untouched b a

/-- A call leaves every key but those that it writes. -/
theorem getElem?_put_batch
    {kvs : List (Key × Value)} {k : Key} (h : ∀ kv ∈ kvs, kv.1 ≠ k) (s : State) (ok : Bool) :
    (s.write ok kvs).ks[k]? = s.ks[k]? := by
  cases ok with
  | false => rfl
  | true =>
      refine Keyspace.getElem?_commit_of_not_mem ?_ s.ks
      intro m hm
      obtain ⟨kv, hkv, rfl⟩ := List.mem_map.mp hm
      exact h kv hkv

/-- The keys that a call writes. -/
def written : EngineCall → List Key
  | .put_batch kvs => kvs.map Prod.fst
  | .delete k => [k]
  | _ => []

theorem getElem?_answer
    {c : EngineCall} {k : Key} (h : k ∉ written c) (s : State) (ok : Bool) :
    (s.answer ok c).1.ks[k]? = s.ks[k]? := by
  cases c with
  | put_batch kvs =>
      refine getElem?_put_batch ?_ s ok
      rintro kv hkv rfl
      exact h (List.mem_map_of_mem hkv)
  | delete k' =>
      refine getElem?_put_batch ?_ s ok
      rintro kv hkv rfl
      rw [List.mem_singleton.mp hkv] at h
      exact h (List.mem_singleton_self _)
  | _ => rfl

/-- An operation writes keys of its agent. -/
theorem owned_of_written {op : Op} {c : EngineCall} (hmay : op.May c) {k : Key} (hk : k ∈ written c) :
    Owned op.agent k := by
  cases c with
  | put_batch kvs =>
      obtain ⟨kv, hkv, rfl⟩ := List.mem_map.mp hk
      cases op with
      | episode agent kind payload =>
          obtain ⟨seq, rfl⟩ := hmay
          rw [List.mem_singleton.mp hkv]
          exact ⟨.ep, List.prefix_append _ _⟩
      | _ => exact (hmay kv hkv).owned
  | delete k' =>
      rw [List.mem_singleton.mp hk]
      rw [Op.May] at hmay
      split at hmay
      · exact ⟨.ep, hmay⟩
      · exact hmay.owned
  | _ => cases hk

theorem untouched_of_separate {a b : Str} (hne : a ≠ b) (h : Separate a b) : Untouched a b := by
  intro s s' act hrun hfor hst op hread hagent
  cases act with
  | call i ok =>
      obtain ⟨th, c, next, hth, hprog, rfl⟩ := call_cases hst
      obtain ⟨th₁, hth₁, ha⟩ := hfor
      rw [hth] at hth₁
      cases hth₁
      have hmay := confined_run hrun th (List.mem_of_getElem? hth)
      rw [hprog] at hmay
      refine State.Alike.reads hread ?_
      intro k hk
      rw [hagent] at hk
      refine Keyspace.value_congr (getElem?_answer ?_ s.mem ok)
      intro hwritten
      have hka := owned_of_written hmay.1 hwritten
      rw [ha] at hka
      exact h.not_owned hne hka hk
  | _ => exact absurd hfor not_false

/-- Agents with separate names do not reach each other's memories. -/
theorem isolated_of_separate {a b : Str} (hne : a ≠ b) (h : Separate a b) : Isolated a b :=
  ⟨untouched_of_separate hne h, untouched_of_separate hne.symm h.symm⟩

end Sys
end Memory
end StrikeDB
