import StrikeDB.MemoryRuns

/-!
# StrikeDB: episodes are those recorded and not forgotten

* `Kept.step`: behind an agent's prefix there is a key for each of its episodes, and no other,
  with sequence numbers that grow with the time of the recording.
* `Kept.exact`: so a scan shows these episodes, in that order.
* `memories_isolated`: isolation, exactly for separate names, and the episodes of every run.
-/

namespace StrikeDB
namespace Memory

/-! ## Encodings -/

/-- The time in a sequence number. -/
def timeOf (seq : UInt64) : Nat := seq.toNat / 2 ^ 22

theorem timeOf_seqOf {ts : Nat} (h : ts < 2 ^ 42) (c : Nat) : timeOf (seqOf ts c) = ts := by
  have hc : (UInt64.ofNat c).toNat &&& 4194303 < 2 ^ 22 :=
    lt_of_le_of_lt Nat.and_le_right (by decide)
  have hts : (UInt64.ofNat ts).toNat = ts := by
    rw [UInt64.toNat_ofNat']
    exact Nat.mod_eq_of_lt (by omega)
  have hshift : (UInt64.ofNat ts <<< 22).toNat = ts <<< 22 := by
    rw [UInt64.toNat_shiftLeft, hts]
    simp only [UInt64.reduceToNat, Nat.reduceMod]
    refine Nat.mod_eq_of_lt ?_
    rw [Nat.shiftLeft_eq]
    omega
  rw [timeOf, seqOf, UInt64.toNat_or, UInt64.toNat_and, hshift]
  simp only [UInt64.reduceToNat]
  rw [← Nat.shiftLeft_add_eq_or_of_lt hc, Nat.shiftLeft_eq]
  omega

theorem ep_key_inj {agent : Str} {s s' : UInt64} (h : ep_key agent s = ep_key agent s') : s = s' := by
  have hbytes : beBytes 8 s.toNat = beBytes 8 s'.toNat := List.append_cancel_left h
  have hnat := congrArg beNat hbytes
  rw [beNat_beBytes (by simpa using s.toNat_lt), beNat_beBytes (by simpa using s'.toNat_lt)] at hnat
  exact UInt64.toNat_inj.mp hnat

theorem decodeEpisode_encode
    {kind : Str} (h : kind.bytes.length < 65536) (payload : Bytes) :
    decodeEpisode (encodeEpisode kind payload) = (kind.bytes, payload) := by
  have hlen : 2 ≤ (encodeEpisode kind payload).length := by simp [encodeEpisode]
  have hpair : (beBytes 2 kind.bytes.length).length = 2 := beBytes_length 2 _
  have htake : (encodeEpisode kind payload).take 2 = beBytes 2 kind.bytes.length := by
    rw [encodeEpisode, List.append_assoc]
    exact List.take_left' hpair
  have hdrop : (encodeEpisode kind payload).drop 2 = kind.bytes ++ payload := by
    rw [encodeEpisode, List.append_assoc]
    exact List.drop_left' hpair
  have hbody : (encodeEpisode kind payload).drop (2 + kind.bytes.length) = payload := by
    rw [← List.drop_drop, hdrop]
    exact List.drop_left
  have hlong : 2 + kind.bytes.length ≤ (encodeEpisode kind payload).length := by
    simp only [encodeEpisode, List.length_append, beBytes_length]
    omega
  rw [decodeEpisode, if_pos hlen, htake, beNat_beBytes (by simpa using h), if_pos hlong, hdrop,
    hbody, List.take_left, kind.valid]

theorem readEpisode_ep_key
    {agent kind : Str} (h : kind.bytes.length < 65536) (seq : UInt64) (payload : Bytes) :
    readEpisode agent (ep_key agent seq, .bytes (encodeEpisode kind payload)) =
      some { seq := seq, agent := agent, kind := kind.bytes, payload := payload } := by
  have hlen : (ep_key agent seq).length = (agentPrefix .ep agent).length + 8 := by
    simp [ep_key]
  have hdrop : (ep_key agent seq).drop ((ep_key agent seq).length - 8) = beBytes 8 seq.toNat := by
    rw [hlen, Nat.add_sub_cancel]
    exact List.drop_left
  rw [readEpisode, if_neg (by omega), hdrop, beNat_beBytes (by simpa using seq.toNat_lt),
    UInt64.ofNat_toNat, decodeEpisode_encode h payload]

/-! ## The store and the history of one agent -/

def Rec.stored (r : Rec) : Value := .bytes (encodeEpisode r.kind r.payload)

/-- The history of one agent. -/
def ofAgent (b : Str) (recs : List Rec) : List Rec := recs.filter fun r => r.agent = b

/-- What holds of a recorded episode: the time in its number lies between the clock readings, and
its key was written last when it was recorded. -/
structure Rec.Kept (b : Str) (s : State) (r : Rec) : Prop where
  agent : r.agent = b
  kind : r.kind.bytes.length < 65536
  since : r.since < timeOf r.seq
  till : timeOf r.seq < r.till
  clock : r.till ≤ s.clock
  written : s.ks[ep_key b r.seq]? = some (r.till, r.stored)

/-- The keys behind an agent's prefix are those of its history. -/
structure Shelf (b : Str) (s : State) (recs : List Rec) : Prop where
  stored : ∀ k, agentPrefix .ep b <+: k → ∀ v, s.ks.value k = some v →
    ∃ r ∈ recs, k = ep_key b r.seq ∧ v = r.stored
  kept : ∀ r ∈ recs, r.Kept b s
  distinct : recs.Pairwise fun r r' => timeOf r.seq ≠ timeOf r'.seq

namespace Shelf

variable {b : Str} {s s' : State} {recs : List Rec}

/-- Steps that leave the keys behind the prefix. -/
theorem frame
    (h : Shelf b s recs) (hks : ∀ k, agentPrefix .ep b <+: k → s'.ks[k]? = s.ks[k]?)
    (hclock : s.clock ≤ s'.clock) :
    Shelf b s' recs where
  stored := by
    intro k hk v hv
    rw [Keyspace.value_congr (hks k hk)] at hv
    exact h.stored k hk v hv
  kept := by
    intro r hr
    have hkept := h.kept r hr
    refine { hkept with clock := hkept.clock.trans hclock, written := ?_ }
    rw [hks (ep_key b r.seq) (List.prefix_append _ _)]
    exact hkept.written
  distinct := h.distinct

theorem getElem?_write_one (s : State) (key k : Key) (value : Value) :
    (s.write true [(key, value)]).ks[k]? =
      if key = k then some (s.clock + 1, value) else s.ks[k]? :=
  Keyspace.getElem?_write s.ks { key := key, value := value, ts := s.clock + 1 } k

/-- An episode is recorded under a time that no other has. -/
theorem record
    (h : Shelf b s recs) {r : Rec} (hagent : r.agent = b) (hkind : r.kind.bytes.length < 65536)
    (hsince : r.since < timeOf r.seq) (htime : timeOf r.seq ≤ s.clock)
    (htill : r.till = s.clock + 1) (hfresh : ∀ r' ∈ recs, timeOf r'.seq ≠ timeOf r.seq) :
    Shelf b (s.write true [(ep_key b r.seq, r.stored)]) (recs ++ [r]) where
  stored := by
    intro k hk v hv
    rw [Keyspace.value, getElem?_write_one] at hv
    split at hv
    · next heq =>
        cases hv
        exact ⟨r, by simp, heq.symm, rfl⟩
    · obtain ⟨r', hr', hkey, hval⟩ := h.stored k hk v hv
      exact ⟨r', List.mem_append_left _ hr', hkey, hval⟩
  kept := by
    intro r' hr'
    rcases List.mem_append.mp hr' with hr' | hr'
    · have hkept := h.kept r' hr'
      refine { hkept with clock := hkept.clock.trans (Nat.le_succ _), written := ?_ }
      rw [getElem?_write_one, if_neg]
      · exact hkept.written
      · intro heq
        exact hfresh r' hr' (congrArg timeOf (ep_key_inj heq).symm)
    · rw [List.mem_singleton.mp hr']
      exact
        { agent := hagent, kind := hkind, since := hsince
          till := by omega
          clock := htill.le
          written := by rw [getElem?_write_one, if_pos rfl, htill] }
  distinct := by
    rw [List.pairwise_append]
    refine ⟨h.distinct, List.pairwise_singleton _ _, ?_⟩
    intro r' hr' r'' hr''
    rw [List.mem_singleton.mp hr'']
    exact hfresh r' hr'

/-- Deleting a key forgets the episode under it. -/
theorem forget (h : Shelf b s recs) (key : Key) :
    Shelf b (s.write true [(key, .tombstone)]) (recs.filter fun r => ep_key b r.seq ≠ key) where
  stored := by
    intro k hk v hv
    rw [Keyspace.value, getElem?_write_one] at hv
    split at hv
    · cases hv
    · next hne =>
        obtain ⟨r, hr, hkey, hval⟩ := h.stored k hk v hv
        refine ⟨r, List.mem_filter.mpr ⟨hr, ?_⟩, hkey, hval⟩
        rw [decide_eq_true_eq, ← hkey]
        exact fun heq => hne heq.symm
  kept := by
    intro r hr
    rw [List.mem_filter, decide_eq_true_eq] at hr
    have hkept := h.kept r hr.1
    refine { hkept with clock := hkept.clock.trans (Nat.le_succ _), written := ?_ }
    rw [getElem?_write_one, if_neg fun heq => hr.2 heq.symm]
    exact hkept.written
  distinct := h.distinct.filter _

end Shelf

/-! ## Threads that record -/

/-- What is left of a recording once it has its time. -/
def afterNow (agent kind : Str) (payload : Bytes) (ts : Nat) : MemProg MemAnswer := do
  let c ← next_ep_seq
  let s ← putEpisode agent kind payload (seqOf ts c)
  return .seq s

def afterCount (agent kind : Str) (payload : Bytes) (ts c : Nat) : MemProg MemAnswer := do
  let s ← putEpisode agent kind payload (seqOf ts c)
  return .seq s

/-- How far a recording has come. -/
inductive Thread.Stage (agent kind : Str) (payload : Bytes) (clock : Nat) (th : Thread) : Prop
  | begun : th.stamp = none → th.prog = (Op.episode agent kind payload).prog →
      Stage agent kind payload clock th
  | timed (ts : Nat) : th.stamp = some ts → th.since < ts → ts ≤ clock → ts < 2 ^ 42 →
      th.prog = afterNow agent kind payload ts → Stage agent kind payload clock th
  | counted (ts c : Nat) : th.stamp = some ts → th.since < ts → ts ≤ clock → ts < 2 ^ 42 →
      th.prog = afterCount agent kind payload ts c → Stage agent kind payload clock th
  | returned (a : MemAnswer) : th.prog = .ret a → Stage agent kind payload clock th

theorem Thread.Stage.mono
    {agent kind : Str} {payload : Bytes} {clock clock' : Nat} {th : Thread}
    (h : th.Stage agent kind payload clock) (hle : clock ≤ clock') :
    th.Stage agent kind payload clock' := by
  cases h with
  | begun hs hp => exact .begun hs hp
  | timed ts hs hsince hclock hlt hp => exact .timed ts hs hsince (hclock.trans hle) hlt hp
  | counted ts c hs hsince hclock hlt hp => exact .counted ts c hs hsince (hclock.trans hle) hlt hp
  | returned a hp => exact .returned a hp

/-- The thread is going to record an episode of `b` at this time. -/
structure Thread.Pending (b : Str) (ts : Nat) (th : Thread) : Prop where
  records : ∃ kind payload, th.op = .episode b kind payload
  stamp : th.stamp = some ts
  going : ∀ a, th.prog ≠ .ret a

/-- What holds of each thread. -/
structure Thread.Works (b : Str) (clock : Nat) (recs : List Rec) (th : Thread) : Prop where
  apart : th.op.agent ≠ b → Separate b th.op.agent
  kind : ∀ kind payload, th.op = .episode b kind payload → kind.bytes.length < 65536
  since : th.since ≤ clock
  stage : ∀ kind payload, th.op = .episode b kind payload → th.Stage b kind payload clock
  fresh : ∀ ts, th.Pending b ts → ∀ r ∈ recs, timeOf r.seq ≠ ts

/-- The times that are pending are in the past. -/
theorem Thread.Works.pending_le
    {b : Str} {clock ts : Nat} {recs : List Rec} {th : Thread} (h : th.Works b clock recs)
    (hp : th.Pending b ts) : ts ≤ clock := by
  obtain ⟨kind, payload, hop⟩ := hp.records
  cases h.stage kind payload hop with
  | begun hs _ =>
      rw [hp.stamp] at hs
      cases hs
  | timed ts' hs _ hclock _ _ =>
      rw [hp.stamp, Option.some.injEq] at hs
      exact hs ▸ hclock
  | counted ts' c hs _ hclock _ _ =>
      rw [hp.stamp, Option.some.injEq] at hs
      exact hs ▸ hclock
  | returned a hprog => exact absurd hprog (hp.going a)

/-- Time passes, and episodes are forgotten. -/
theorem Thread.Works.mono
    {b : Str} {clock clock' : Nat} {recs recs' : List Rec} {th : Thread} (h : th.Works b clock recs)
    (hle : clock ≤ clock') (hrecs : ∀ r ∈ recs', r ∈ recs) : th.Works b clock' recs' :=
  { apart := h.apart
    kind := h.kind
    since := h.since.trans hle
    stage := fun kind payload hop => (h.stage kind payload hop).mono hle
    fresh := fun ts hp r hr => h.fresh ts hp r (hrecs r hr) }

/-- What holds in every state of a run for the agent `b`. -/
structure Kept (b : Str) (s : Sys) : Prop where
  confined : s.Confined
  shelf : Shelf b s.mem (ofAgent b s.recorded)
  works : ∀ th ∈ s.threads, th.Works b s.mem.clock (ofAgent b s.recorded)
  single : ∀ (i j : Nat) (th th' : Thread), s.threads[i]? = some th → s.threads[j]? = some th' → i ≠ j →
    ∀ ts, th.Pending b ts → ¬ th'.Pending b ts

/-! ## One step -/

/-- The call that a thread makes next, for which operation. -/
def Sys.next (s : Sys) (i : Nat) : Option (Op × EngineCall) :=
  (s.threads[i]?).bind fun th =>
    match th.prog with
    | .call c _ => some (th.op, c)
    | .ret _ => none

/-- The condition on the steps: names are separate from `b`, kinds fit their length field, no
episode is recorded when the clock has passed 42 bits, and forgetting does not fail. -/
def Clean (b : Str) (s : Sys) : Act → Prop
  | .invoke op => (op.agent ≠ b → Separate b op.agent) ∧
      ∀ kind payload, op = .episode b kind payload → kind.bytes.length < 65536
  | .call i ok => ∀ op c, s.next i = some (op, c) → op.agent = b →
      (c = .now → s.mem.clock + 1 < 2 ^ 42) ∧
      ∀ k, c = .delete k → op.forgets = true → ok = true
  | _ => True

theorem next_eq
    {s : Sys} {i : Nat} {th : Thread} {c : EngineCall} {next : c.Reply → MemProg MemAnswer}
    (hth : s.threads[i]? = some th) (hprog : th.prog = .call c next) :
    s.next i = some (th.op, c) := by
  rw [Sys.next, hth, Option.bind_some, hprog]

/-- The clock does not go back in a call. -/
theorem clock_le_answer (s : State) (ok : Bool) (c : EngineCall) :
    s.clock ≤ (s.answer ok c).1.clock := by
  cases c with
  | get k => exact le_rfl
  | scanPrefix p => exact le_rfl
  | ep_seq => exact le_rfl
  | _ => exact Nat.le_succ _

/-- A thread goes on to `th'`. -/
theorem Kept.goOn
    {b : Str} {s : Sys} (h : Kept b s) {i : Nat} {th th' : Thread} {mem : State} {recs : List Rec}
    (hth : s.threads[i]? = some th) (hwithin : th'.prog.Within th'.op.May Found)
    (hshelf : Shelf b mem (ofAgent b recs))
    (hrest : ∀ x ∈ s.threads, x.Works b s.mem.clock (ofAgent b s.recorded) →
      (∀ ts, x.Pending b ts → ¬ th.Pending b ts) → x.Works b mem.clock (ofAgent b recs))
    (hworks : th'.Works b mem.clock (ofAgent b recs))
    (hpending : ∀ ts, th'.Pending b ts → th.Pending b ts ∨ s.mem.clock < ts) :
    Kept b { mem := mem, threads := s.threads.set i th', recorded := recs } := by
  have hget : ∀ j x, (s.threads.set i th')[j]? = some x → j ≠ i ∧ s.threads[j]? = some x ∨
      j = i ∧ x = th' := by
    intro j x hx
    by_cases hij : j = i
    · subst hij
      rw [List.getElem?_set_self', hth] at hx
      cases hx
      exact Or.inr ⟨rfl, rfl⟩
    · rw [List.getElem?_set_ne (Ne.symm hij)] at hx
      exact Or.inl ⟨hij, hx⟩
  have hother : ∀ j x, j ≠ i → s.threads[j]? = some x → ∀ ts, th'.Pending b ts →
      ¬ x.Pending b ts := by
    intro j x hj hx ts hts hpx
    rcases hpending ts hts with hold | hnew
    · exact h.single i j th x hth hx (Ne.symm hj) ts hold hpx
    · have hle := (h.works x (List.mem_of_getElem? hx)).pending_le hpx
      omega
  constructor
  · intro x hx
    rcases List.mem_or_eq_of_mem_set hx with hx | rfl
    · exact h.confined x hx
    · exact hwithin
  · exact hshelf
  · intro x hx
    obtain ⟨j, hj⟩ := List.getElem?_of_mem hx
    rcases hget j x hj with ⟨hij, hj⟩ | ⟨_, rfl⟩
    · have hmem := List.mem_of_getElem? hj
      refine hrest x hmem (h.works x hmem) ?_
      exact fun ts hp hpth => h.single j i x th hj hth hij ts hp hpth
    · exact hworks
  · intro j j' x x' hj hj' hne ts hp hp'
    rcases hget j x hj with ⟨hji, hold⟩ | ⟨rfl, rfl⟩
    · rcases hget j' x' hj' with ⟨_, hold'⟩ | ⟨rfl, rfl⟩
      · exact h.single j j' x x' hold hold' hne ts hp hp'
      · exact hother j x hji hold ts hp' hp
    · rcases hget j' x' hj' with ⟨hji', hold'⟩ | ⟨rfl, rfl⟩
      · exact hother j' x' hji' hold' ts hp hp'
      · exact hne rfl

/-! ### Calls that are no recording -/

/-- Keys of two families, or of two agents with separate names. -/
theorem not_ep_of_ownedElse
    {agent b : Str} {k k' : Key} (h : OwnedElse agent k') (hk : agentPrefix .ep b <+: k) :
    k' ≠ k := by
  rintro rfl
  obtain ⟨f, hf, hpre⟩ := h
  exact hf (family_unique (tag_begins hpre) (tag_begins hk))

theorem note_of_ne
    {b : Str} {th : Thread} (h : th.op.agent ≠ b) (c : EngineCall) (rest : MemProg MemAnswer)
    (till : Nat) (recs : List Rec) :
    ofAgent b (note th c rest till recs) = ofAgent b recs := by
  unfold note
  split
  · split
    · rw [ofAgent, ofAgent, List.filter_filter]
      refine List.filter_congr ?_
      intro r _
      by_cases hr : r.agent = b
      · simp [hr, Ne.symm h]
      · simp [hr]
    · rfl
  · split
    · next agent kind payload s hop =>
        rw [hop] at h
        have hne : agent ≠ b := h
        simp [ofAgent, hne]
    · rfl

theorem note_delete
    {b : Str} {th : Thread} (h : th.op.agent = b) (hforgets : th.op.forgets = true) (k : Key)
    (rest : MemProg MemAnswer) (till : Nat) (recs : List Rec) :
    ofAgent b (note th (.delete k) rest till recs) =
      (ofAgent b recs).filter fun r => ep_key b r.seq ≠ k := by
  rw [note, if_pos hforgets, ofAgent, ofAgent, List.filter_filter, List.filter_filter]
  refine List.filter_congr ?_
  intro r _
  by_cases hr : r.agent = b
  · simp [hr, h]
  · simp [hr]

theorem note_other
    {th : Thread} (hop : ∀ kind payload, th.op ≠ .episode th.op.agent kind payload) {c : EngineCall}
    (hc : ∀ k, c = .delete k → th.op.forgets = false) (rest : MemProg MemAnswer) (till : Nat)
    (recs : List Rec) :
    note th c rest till recs = recs := by
  unfold note
  split
  · next k => rw [hc k rfl, if_neg Bool.false_ne_true]
  · split
    · next agent kind payload s heq => exact absurd (by rw [heq]; rfl) (hop kind payload)
    · rfl

/-- Operations that neither record nor forget write no key of an episode. -/
theorem not_written_ep
    {op : Op} {c : EngineCall} (hmay : op.May c)
    (hop : ∀ kind payload, op ≠ .episode op.agent kind payload)
    (hc : ∀ k, c = .delete k → op.forgets = false) {b : Str} {k : Key}
    (hk : agentPrefix .ep b <+: k) :
    k ∉ Sys.written c := by
  intro hwritten
  cases c with
  | put_batch kvs =>
      obtain ⟨kv, hkv, rfl⟩ := List.mem_map.mp hwritten
      cases op with
      | episode agent kind payload => exact hop kind payload rfl
      | _ => exact not_ep_of_ownedElse (hmay kv hkv) hk rfl
  | delete k' =>
      rw [List.mem_singleton.mp hwritten] at hk
      rw [Op.May, hc k' rfl] at hmay
      exact not_ep_of_ownedElse hmay hk rfl
  | _ => cases hwritten

/-- What the call of an operation that records no episode of `b` leaves in the store and in
the history. -/
theorem Shelf.call
    {b : Str} {s : Sys} (h : Shelf b s.mem (ofAgent b s.recorded)) {th : Thread}
    (hapart : th.op.agent ≠ b → Separate b th.op.agent) {c : EngineCall} (hmay : th.op.May c)
    {ok : Bool} (hok : ∀ k, c = .delete k → th.op.agent = b → th.op.forgets = true → ok = true)
    (hop : ∀ kind payload, th.op ≠ .episode b kind payload) (rest : MemProg MemAnswer) (till : Nat) :
    Shelf b (s.mem.answer ok c).1 (ofAgent b (note th c rest till s.recorded)) ∧
      ∀ r ∈ ofAgent b (note th c rest till s.recorded), r ∈ ofAgent b s.recorded := by
  by_cases hagent : th.op.agent = b
  · by_cases hdelete : ∃ k, c = .delete k ∧ th.op.forgets = true
    · obtain ⟨k, rfl, hforgets⟩ := hdelete
      rw [note_delete hagent hforgets, hok k rfl hagent hforgets]
      exact ⟨h.forget k, fun r hr => (List.mem_filter.mp hr).1⟩
    · have hc : ∀ k, c = .delete k → th.op.forgets = false := by
        intro k hk
        by_contra hforgets
        exact hdelete ⟨k, hk, by simpa using hforgets⟩
      have hop' : ∀ kind payload, th.op ≠ .episode th.op.agent kind payload := by
        rw [hagent]
        exact hop
      rw [note_other hop' hc]
      refine ⟨h.frame ?_ (clock_le_answer s.mem ok c), fun r hr => hr⟩
      intro k hk
      exact Sys.getElem?_answer (not_written_ep hmay hop' hc hk) s.mem ok
  · rw [note_of_ne hagent]
    refine ⟨h.frame ?_ (clock_le_answer s.mem ok c), fun r hr => hr⟩
    intro k hk
    refine Sys.getElem?_answer ?_ s.mem ok
    intro hwritten
    exact (hapart hagent).not_owned (Ne.symm hagent) ⟨.ep, hk⟩
      (Sys.owned_of_written hmay hwritten)

/-- A thread that records no episode of `b` makes its next call. -/
theorem Kept.other
    {b : Str} {s : Sys} (h : Kept b s) {i : Nat} {ok : Bool} (hok : Clean b s (.call i ok))
    {th : Thread} {c : EngineCall} {next : c.Reply → MemProg MemAnswer}
    (hth : s.threads[i]? = some th) (hprog : th.prog = .call c next)
    (hop : ∀ kind payload, th.op ≠ .episode b kind payload) :
    Kept b
      { mem := (s.mem.answer ok c).1
        threads := s.threads.set i
          { th with stamp := th.stampAfter c (s.mem.answer ok c).2,
                    prog := next (s.mem.answer ok c).2 }
        recorded := note th c (next (s.mem.answer ok c).2) (s.mem.answer ok c).1.clock
          s.recorded } := by
  have hmem := List.mem_of_getElem? hth
  have hworks := h.works th hmem
  have hwithin := h.confined th hmem
  rw [hprog] at hwithin
  have hdelete : ∀ k, c = .delete k → th.op.agent = b → th.op.forgets = true → ok = true :=
    fun k hk hagent hforgets => (hok th.op c (next_eq hth hprog) hagent).2 k hk hforgets
  obtain ⟨hshelf, hrecs⟩ := h.shelf.call hworks.apart hwithin.1 hdelete hop
    (next (s.mem.answer ok c).2) (s.mem.answer ok c).1.clock
  have hle := clock_le_answer s.mem ok c
  have hnot : ∀ ts, ¬ Thread.Pending b ts
      { th with stamp := th.stampAfter c (s.mem.answer ok c).2,
                prog := next (s.mem.answer ok c).2 } := by
    intro ts hp
    obtain ⟨kind, payload, heq⟩ := hp.records
    exact hop kind payload heq
  refine h.goOn hth (hwithin.2 _ (found_answer s.mem ok c)) hshelf
    (fun x _ hx _ => hx.mono hle hrecs) ?_ (fun ts hp => absurd hp (hnot ts))
  exact
    { apart := hworks.apart
      kind := fun kind payload heq => absurd heq (hop kind payload)
      since := hworks.since.trans hle
      stage := fun kind payload heq => absurd heq (hop kind payload)
      fresh := fun ts hp => absurd hp (hnot ts) }

/-- A thread that records an episode of `b` makes its next call. -/
theorem Kept.recording
    {b : Str} {s : Sys} (h : Kept b s) {i : Nat} {ok : Bool} (hok : Clean b s (.call i ok))
    {th : Thread} {c : EngineCall} {next : c.Reply → MemProg MemAnswer}
    (hth : s.threads[i]? = some th) (hprog : th.prog = .call c next)
    {kind : Str} {payload : Bytes} (hop : th.op = .episode b kind payload) :
    Kept b
      { mem := (s.mem.answer ok c).1
        threads := s.threads.set i
          { th with stamp := th.stampAfter c (s.mem.answer ok c).2,
                    prog := next (s.mem.answer ok c).2 }
        recorded := note th c (next (s.mem.answer ok c).2) (s.mem.answer ok c).1.clock
          s.recorded } := by
  have hmem := List.mem_of_getElem? hth
  have hworks := h.works th hmem
  have hwithin := h.confined th hmem
  have hkind := hworks.kind kind payload hop
  have hnow : c = .now → s.mem.clock + 1 < 2 ^ 42 :=
    (hok th.op c (next_eq hth hprog) (by rw [hop]; rfl)).1
  rw [hprog] at hwithin
  have hrest := hwithin.2 _ (found_answer s.mem ok c)
  have hle := clock_le_answer s.mem ok c
  obtain ⟨op, since, stamp, prog⟩ := th
  subst hop
  have hsame : ∀ kind' payload', Op.episode b kind payload = .episode b kind' payload' →
      kind' = kind ∧ payload' = payload := by
    intro kind' payload' heq
    cases heq
    exact ⟨rfl, rfl⟩
  cases hworks.stage kind payload rfl with
  | begun hstamp hp =>
      have hstart : (Op.episode b kind payload).prog = .call c next := hp.symm.trans hprog
      cases hstart
      refine h.goOn hth hrest (h.shelf.frame (fun _ _ => rfl) hle)
        (fun x _ hx _ => hx.mono hle fun r hr => hr) ?_ ?_
      · constructor
        · exact hworks.apart
        · exact hworks.kind
        · exact hworks.since.trans hle
        · intro kind' payload' heq
          obtain ⟨rfl, rfl⟩ := hsame kind' payload' heq
          exact .timed (s.mem.clock + 1) rfl (Nat.lt_succ_of_le hworks.since) le_rfl (hnow rfl) rfl
        · intro ts hpending r hr
          have hts : s.mem.clock + 1 = ts := Option.some.inj hpending.stamp
          have hkept := h.shelf.kept r hr
          have htill := hkept.till
          have hclock := hkept.clock
          omega
      · intro ts hpending
        have hts : s.mem.clock + 1 = ts := Option.some.inj hpending.stamp
        exact Or.inr (by omega)
  | timed ts hstamp hsince hclock hlt hp =>
      have hstart : afterNow b kind payload ts = .call c next := hp.symm.trans hprog
      cases hstart
      have hgoing : ∀ ts', Thread.Pending b ts'
          { op := .episode b kind payload, since := since, stamp := stamp,
            prog := afterCount b kind payload ts s.mem.ep_seq } →
          Thread.Pending b ts'
            { op := .episode b kind payload, since := since, stamp := stamp, prog := prog } := by
        intro ts' hpending
        refine ⟨hpending.records, hpending.stamp, ?_⟩
        intro a ha
        exact absurd (ha.symm.trans hprog) (by simp)
      refine h.goOn hth hrest (h.shelf.frame (fun _ _ => rfl) hle)
        (fun x _ hx _ => hx.mono hle fun r hr => hr) ?_ (fun ts' hpending =>
          Or.inl (hgoing ts' hpending))
      constructor
      · exact hworks.apart
      · exact hworks.kind
      · exact hworks.since
      · intro kind' payload' heq
        obtain ⟨rfl, rfl⟩ := hsame kind' payload' heq
        exact .counted ts s.mem.ep_seq hstamp hsince hclock hlt rfl
      · exact fun ts' hpending => hworks.fresh ts' (hgoing ts' hpending)
  | counted ts n hstamp hsince hclock hlt hp =>
      have hstart : afterCount b kind payload ts n = .call c next := hp.symm.trans hprog
      cases hstart
      have hpending : Thread.Pending b ts
          { op := .episode b kind payload, since := since, stamp := stamp, prog := prog } := by
        refine ⟨⟨kind, payload, rfl⟩, hstamp, ?_⟩
        intro a ha
        exact absurd (ha.symm.trans hprog) (by simp)
      have htime : timeOf (seqOf ts n) = ts := timeOf_seqOf hlt n
      cases ok with
      | false =>
          refine h.goOn hth hrest (h.shelf.frame (fun _ _ => rfl) hle)
            (fun x _ hx _ => hx.mono hle fun r hr => hr) ?_
            (fun ts' hp' => absurd rfl (hp'.going (.seq none)))
          exact
            { apart := hworks.apart
              kind := hworks.kind
              since := hworks.since.trans hle
              stage := fun _ _ _ => .returned (.seq none) rfl
              fresh := fun ts' hp' => absurd rfl (hp'.going (.seq none)) }
      | true =>
          have hadd : ofAgent b (s.recorded ++
              [⟨seqOf ts n, b, kind, payload, since, s.mem.clock + 1⟩]) =
              ofAgent b s.recorded ++ [⟨seqOf ts n, b, kind, payload, since, s.mem.clock + 1⟩] := by
            simp [ofAgent]
          have hfresh := hworks.fresh ts hpending
          have hshelf := h.shelf.record
            (r := ⟨seqOf ts n, b, kind, payload, since, s.mem.clock + 1⟩) rfl hkind
            (by rw [htime]; exact hsince) (by rw [htime]; exact hclock) rfl
            (by rw [htime]; exact hfresh)
          rw [← hadd] at hshelf
          refine h.goOn hth hrest hshelf ?_ ?_
            (fun ts' hp' => absurd rfl (hp'.going (.seq (some (seqOf ts n)))))
          · intro x _ hx hapart
            refine { hx.mono hle fun r hr => hr with fresh := ?_ }
            intro ts' hp' r hr
            have hr' : r ∈ ofAgent b s.recorded ++
                [⟨seqOf ts n, b, kind, payload, since, s.mem.clock + 1⟩] := hadd ▸ hr
            rcases List.mem_append.mp hr' with hr' | hr'
            · exact hx.fresh ts' hp' r hr'
            · rw [List.mem_singleton.mp hr', htime]
              rintro rfl
              exact hapart ts hp' hpending
          · exact
              { apart := hworks.apart
                kind := hworks.kind
                since := hworks.since.trans hle
                stage := fun _ _ _ => .returned (.seq (some (seqOf ts n))) rfl
                fresh := fun ts' hp' => absurd rfl (hp'.going (.seq (some (seqOf ts n)))) }
  | returned a hp => exact absurd (hp.symm.trans hprog) (by simp)

theorem Kept.step {b : Str} {s s' : Sys} {act : Act} (h : Kept b s) (hok : Clean b s act)
    (hst : s.step act = some s') : Kept b s' := by
  have hconfined := Sys.confined_step h.confined hst
  cases act with
  | invoke op =>
      cases hst
      have hnew : ∀ ts, ¬ Thread.Pending b ts
          { op := op, since := s.mem.clock, stamp := none, prog := op.prog } := by
        intro ts hp
        cases hp.stamp
      refine ⟨hconfined, h.shelf, ?_, ?_⟩
      · intro th hth
        rcases List.mem_append.mp hth with hth | hth
        · exact h.works th hth
        · rw [List.mem_singleton.mp hth]
          exact
            { apart := hok.1
              kind := hok.2
              since := le_rfl
              stage := fun kind payload hop => .begun rfl (congrArg Op.prog hop)
              fresh := fun ts hp => absurd hp (hnew ts) }
      · intro i j th th' hi hj hne ts hp hp'
        have hold : ∀ (k : Nat) (x : Thread), (s.threads ++
            [{ op := op, since := s.mem.clock, stamp := none, prog := op.prog }])[k]? = some x →
            x.Pending b ts → s.threads[k]? = some x := by
          intro k x hx hpx
          rw [List.getElem?_append] at hx
          split at hx
          · exact hx
          · have hx := List.mem_singleton.mp (List.mem_of_getElem? hx)
            exact absurd (hx ▸ hpx) (hnew ts)
        exact h.single i j th th' (hold i th hi hp) (hold j th' hj hp') hne ts hp hp'
  | call i ok =>
      obtain ⟨th, c, next, hth, hprog, rfl⟩ := Sys.call_cases hst
      by_cases hop : ∃ kind payload, th.op = .episode b kind payload
      · obtain ⟨kind, payload, hop⟩ := hop
        exact h.recording hok hth hprog hop
      · exact h.other hok hth hprog fun kind payload heq => hop ⟨kind, payload, heq⟩
  | elsewhere kvs =>
      simp only [Sys.step] at hst
      split at hst
      · next hkvs =>
          cases hst
          refine ⟨hconfined, h.shelf.frame ?_ (Nat.le_succ _), ?_, h.single⟩
          · intro k hk
            refine Sys.getElem?_put_batch ?_ s.mem true
            rintro kv hkv rfl
            have hno := List.all_eq_true.mp (List.all_eq_true.mp hkvs kv hkv) .ep (by simp)
            have hpre := List.isPrefixOf_iff_prefix.mpr (tag_begins hk)
            rw [hpre] at hno
            cases hno
          · exact fun th hth => (h.works th hth).mono (Nat.le_succ _) fun r hr => hr
      · cases hst
  | flush_all =>
      cases hst
      refine ⟨hconfined, ?_, ?_, h.single⟩
      · constructor
        · intro k _ v hv
          simp [Keyspace.value] at hv
        · intro r hr
          cases hr
        · exact List.Pairwise.nil
      · exact fun th hth => (h.works th hth).mono (Nat.le_succ _) fun r hr => by cases hr
  | reset_volatile =>
      cases hst
      exact ⟨hconfined, h.shelf.frame (fun _ _ => rfl) le_rfl, h.works, h.single⟩
  | reopen clock =>
      simp only [Sys.step] at hst
      split at hst
      · next hlive =>
          cases hst
          refine ⟨hconfined, { h.shelf with kept := ?_ }, ?_, ?_⟩
          · intro r hr
            have hkept := h.shelf.kept r hr
            refine { hkept with clock := ?_ }
            have hmem := Std.ExtTreeMap.mem_toList_iff_getElem?_eq_some.mpr hkept.written
            have hnew := List.all_eq_true.mp hlive _ hmem
            simpa [Rec.stored, Value.isLive] using hnew
          · intro th hth
            cases hth
          · intro i j th th' hi
            cases hi
      · cases hst

theorem kept_start (b : Str) : Kept b Sys.start := by
  refine ⟨fun th hth => (by cases hth), ⟨?_, fun r hr => (by cases hr), List.Pairwise.nil⟩,
    fun th hth => (by cases hth), fun i j th th' hi => (by cases hi)⟩
  intro k _ v hv
  simp [Sys.start, Keyspace.value] at hv

/-! ## What is shown -/

/-- In the order of the recordings: of two episodes the first does not begin when the second
is over. -/
def InOrder (l : List Rec) : Prop := l.Pairwise fun r r' => r.seq < r'.seq ∧ r.since < r'.till

/-- `episodes` returns what the agent has recorded and not forgotten, in the order of the
recordings, with kinds and payloads as they were given. -/
def EpisodesExact (b : Str) (s : Sys) : Prop :=
  ∃ l : List Rec, l.Perm (ofAgent b s.recorded) ∧ InOrder l ∧
    ∀ limit, (Op.episodes b limit).result s.mem = .episodes ((l.take limit).map Rec.shown)

/-- The scan finds the episodes of the history, each under its key. -/
theorem Shelf.mem_scan
    {b : Str} {s : State} {recs : List Rec} (h : Shelf b s recs) (kv : Key × Value) :
    kv ∈ s.scanPrefix (agentPrefix .ep b) ↔ ∃ r ∈ recs, kv = (ep_key b r.seq, r.stored) := by
  rw [mem_scanPrefix]
  constructor
  · rintro ⟨hpre, hval⟩
    obtain ⟨r, hr, hkey, hstored⟩ := h.stored kv.1 hpre kv.2 hval
    exact ⟨r, hr, Prod.ext hkey hstored⟩
  · rintro ⟨r, hr, rfl⟩
    refine ⟨List.prefix_append _ _, ?_⟩
    rw [Keyspace.value, (h.kept r hr).written]
    rfl

theorem readEpisode_stored
    {b : Str} {s : State} {r : Rec} (h : r.Kept b s) :
    readEpisode b (ep_key b r.seq, r.stored) = some r.shown := by
  rw [Rec.stored, readEpisode_ep_key h.kind, ← h.agent]
  rfl

theorem timeOf_le_of_lt {s s' : UInt64} (h : s < s') : timeOf s ≤ timeOf s' :=
  Nat.div_le_div_right (UInt64.lt_iff_toNat_lt.mp h).le

/-- Lists in strict order of their sequence numbers with the same members are equal. -/
theorem eq_of_seq_sorted
    {l l' : List Episode} (h : l.Pairwise fun e e' => e.seq < e'.seq)
    (h' : l'.Pairwise fun e e' => e.seq < e'.seq) (hmem : ∀ e, e ∈ l ↔ e ∈ l') : l = l' := by
  have hirrefl : Std.Irrefl fun e e' : Episode => e.seq < e'.seq := ⟨fun e => UInt64.lt_irrefl e.seq⟩
  have hantisymm : Std.Antisymm fun e e' : Episode => e.seq < e'.seq :=
    ⟨fun e e' hlt hgt => absurd hgt (UInt64.lt_asymm hlt)⟩
  exact List.Pairwise.eq_of_mem_iff h h' hmem

/-- Sorting by sequence numbers that differ gives a strict order. -/
theorem pairwise_lt_mergeSort
    {α : Type} (f : α → UInt64) {l : List α} (h : l.Pairwise fun e e' => f e ≠ f e') :
    (l.mergeSort fun e e' => f e ≤ f e').Pairwise fun e e' => f e < f e' := by
  have hsorted := @List.pairwise_mergeSort α (fun e e' : α => decide (f e ≤ f e'))
    (fun a b c hab hbc => by
      simp only [decide_eq_true_eq] at hab hbc ⊢
      exact UInt64.le_trans hab hbc)
    (fun a b => by
      simp only [Bool.or_eq_true, decide_eq_true_eq]
      exact UInt64.le_total (f a) (f b)) l
  have hne := (List.mergeSort_perm l fun e e' => decide (f e ≤ f e')).symm.pairwise h
    fun hab => Ne.symm hab
  refine (hsorted.and hne).imp ?_
  rintro e e' ⟨hle, hne⟩
  exact UInt64.lt_of_le_of_ne (by simpa using hle) hne

/-- The sequence numbers that a scan reads differ. -/
theorem Shelf.scan_distinct
    {b : Str} {s : State} {recs : List Rec} (h : Shelf b s recs) :
    ((s.scanPrefix (agentPrefix .ep b)).filterMap (readEpisode b)).Pairwise
      fun e e' => e.seq ≠ e'.seq := by
  rw [List.pairwise_filterMap]
  refine (keySorted_scanPrefix s (agentPrefix .ep b)).imp_of_mem ?_
  intro kv kv' hkv hkv' hlt e he e' he' heq
  obtain ⟨r, hr, rfl⟩ := (h.mem_scan kv).mp hkv
  obtain ⟨r', hr', rfl⟩ := (h.mem_scan kv').mp hkv'
  rw [readEpisode_stored (h.kept r hr), Option.some.injEq] at he
  rw [readEpisode_stored (h.kept r' hr'), Option.some.injEq] at he'
  have hseq : r.seq = r'.seq := by
    rw [← he, ← he'] at heq
    exact heq
  rw [hseq] at hlt
  have hself : compare (ep_key b r'.seq) (ep_key b r'.seq) = .lt := hlt
  simp at hself

theorem Shelf.mem_read
    {b : Str} {s : State} {recs : List Rec} (h : Shelf b s recs) (e : Episode) :
    e ∈ (s.scanPrefix (agentPrefix .ep b)).filterMap (readEpisode b) ↔ ∃ r ∈ recs, r.shown = e := by
  rw [List.mem_filterMap]
  constructor
  · rintro ⟨kv, hkv, he⟩
    obtain ⟨r, hr, rfl⟩ := (h.mem_scan kv).mp hkv
    rw [readEpisode_stored (h.kept r hr), Option.some.injEq] at he
    exact ⟨r, hr, he⟩
  · rintro ⟨r, hr, rfl⟩
    exact ⟨_, (h.mem_scan _).mpr ⟨r, hr, rfl⟩, readEpisode_stored (h.kept r hr)⟩

theorem Kept.exact {b : Str} {s : Sys} (h : Kept b s) : EpisodesExact b s := by
  have hperm := List.mergeSort_perm (ofAgent b s.recorded) fun r r' => decide (r.seq ≤ r'.seq)
  have hsorted := pairwise_lt_mergeSort Rec.seq (h.shelf.distinct.imp fun hne heq =>
    hne (congrArg timeOf heq))
  refine ⟨_, hperm, ?_, ?_⟩
  · refine hsorted.imp_of_mem ?_
    intro r r' hr hr' hlt
    have hkept := h.shelf.kept r (hperm.mem_iff.mp hr)
    have hkept' := h.shelf.kept r' (hperm.mem_iff.mp hr')
    exact ⟨hlt, hkept.since.trans_le ((timeOf_le_of_lt hlt).trans hkept'.till.le)⟩
  · intro limit
    have hread : ((s.mem.scanPrefix (agentPrefix .ep b)).filterMap (readEpisode b)).mergeSort
        (fun e e' => e.seq ≤ e'.seq) =
        ((ofAgent b s.recorded).mergeSort fun r r' => r.seq ≤ r'.seq).map Rec.shown := by
      refine eq_of_seq_sorted (pairwise_lt_mergeSort Episode.seq h.shelf.scan_distinct) ?_ ?_
      · rw [List.pairwise_map]
        exact hsorted
      · intro e
        rw [List.mem_mergeSort, h.shelf.mem_read, List.mem_map]
        simp only [List.mem_mergeSort]
    have hresult : (Op.episodes b limit).result s.mem =
        .episodes (readEpisodes b limit (s.mem.scanPrefix (agentPrefix .ep b))) := rfl
    rw [hresult, readEpisodes, hread, List.map_take]

/-! ## Names that are not separate -/

def emptyStr : Str := ⟨[], by rw [Text.from_utf8_lossy]⟩

/-- A state in which an episode of `b` is about to be written. -/
def recordingState (b : Str) : Sys :=
  { mem := { ks := ∅, clock := 1, ep_seq := 1 }
    threads := [{ op := .episode b emptyStr [], since := 0, stamp := some 1,
                  prog := afterCount b emptyStr [] 1 0 }]
    recorded := [] }

theorem run_recordingState (b : Str) :
    Run Sys.step (fun _ _ => True) Sys.start (recordingState b) := by
  have hstart : Run Sys.step (fun _ _ => True) Sys.start Sys.start := .refl _
  have hinvoke := hstart.tail (a := Act.invoke (.episode b emptyStr [])) trivial rfl
  have hnow := hinvoke.tail (a := Act.call 0 true) trivial rfl
  exact hnow.tail (a := Act.call 0 true) trivial rfl

theorem readEpisodes_ne_nil
    {a : Str} {kvs : List (Key × Value)} {kv : Key × Value} (hkv : kv ∈ kvs)
    (hread : (readEpisode a kv).isSome = true) :
    readEpisodes a 1 kvs ≠ [] := by
  obtain ⟨e, he⟩ := Option.isSome_iff_exists.mp hread
  have hmem : e ∈ (kvs.filterMap (readEpisode a)).mergeSort fun e e' => e.seq ≤ e'.seq :=
    List.mem_mergeSort.mpr (List.mem_filterMap.mpr ⟨kv, hkv, he⟩)
  obtain ⟨x, l, hl⟩ := List.exists_cons_of_ne_nil (List.ne_nil_of_mem hmem)
  rw [readEpisodes, hl]
  simp

/-- An agent sees the episodes of every agent whose name begins with its own and a colon. -/
theorem not_untouched {a b : Str} (h : a.bytes ++ [COLON] <+: b.bytes) : ¬ Sys.Untouched b a := by
  intro huntouched
  have hst : (recordingState b).step (.call 0 true) =
      some
        { mem := (recordingState b).mem.write true
            [(ep_key b (seqOf 1 0), .bytes (encodeEpisode emptyStr []))]
          threads := [{ op := .episode b emptyStr [], since := 0, stamp := some 1,
                        prog := .ret (.seq (some (seqOf 1 0))) }]
          recorded := [⟨seqOf 1 0, b, emptyStr, [], 0, 2⟩] } := rfl
  have hsame := huntouched _ _ (.call 0 true) (run_recordingState b) ⟨_, rfl, rfl⟩ hst
    (.episodes a 1) rfl rfl
  have hbefore : (recordingState b).mem.scanPrefix (agentPrefix .ep a) = [] := by
    rw [List.eq_nil_iff_forall_not_mem]
    intro kv hkv
    have hval := ((mem_scanPrefix _ _ _).mp hkv).2
    simp [recordingState, Keyspace.value] at hval
  have hresult : ∀ s : State, (Op.episodes a 1).result s =
      .episodes (readEpisodes a 1 (s.scanPrefix (agentPrefix .ep a))) := fun _ => rfl
  rw [hresult, hresult, hbefore, MemAnswer.episodes.injEq] at hsame
  have hnil : readEpisodes a 1 [] = [] := by simp [readEpisodes]
  rw [hnil] at hsame
  refine @readEpisodes_ne_nil a _ (ep_key b (seqOf 1 0), .bytes (encodeEpisode emptyStr [])) ?_
    ?_ hsame
  · rw [mem_scanPrefix]
    constructor
    · refine List.IsPrefix.trans ?_ (List.prefix_append _ _)
      rw [agentPrefix, agentPrefix, List.prefix_append_right_inj]
      exact h.trans (List.prefix_append _ _)
    · rw [Keyspace.value, Shelf.getElem?_write_one, if_pos rfl]
      rfl
  · have hlen : (agentPrefix .ep a).length + 8 ≤ (ep_key b (seqOf 1 0)).length := by
      have hle := h.length_le
      simp only [ep_key, agentPrefix, List.length_append, beBytes_length, List.length_singleton]
        at hle ⊢
      omega
    rw [readEpisode, if_neg (by omega)]
    rfl

/-- Two agents are isolated exactly when neither name begins with the other and a colon; and the
episodes of an agent are those that it has recorded and not forgotten, in the order of their
recording, in every run in which every other agent has a name separate from its own. -/
theorem memories_isolated (a b : Str) (s : Sys) :
    (a ≠ b → (Sys.Isolated a b ↔ Separate a b)) ∧
      (Run Sys.step (Clean b) Sys.start s → EpisodesExact b s) := by
  constructor
  · intro hne
    constructor
    · intro h
      exact ⟨fun hpre => not_untouched hpre h.2, fun hpre => not_untouched hpre h.1⟩
    · exact Sys.isolated_of_separate hne
  · intro hrun
    exact (hrun.invariant (fun _ _ _ h hok hst => h.step hok hst) (kept_start b)).exact

/-! ## Runs -/

def alice : Str := ⟨utf8 "alice", Text.lossy_of_ascii (by decide +kernel)⟩
def bob : Str := ⟨utf8 "bob", Text.lossy_of_ascii (by decide +kernel)⟩

/-- A name that begins with another and a colon. -/
def aliceTools : Str := ⟨utf8 "alice:tools", Text.lossy_of_ascii (by decide +kernel)⟩

theorem colon_name_interferes : alice ≠ aliceTools ∧ ¬ Sys.Isolated alice aliceTools := by
  constructor
  · decide +kernel
  · exact fun h => not_untouched (by decide +kernel) h.2

/-- Does the kind fit its length field? -/
def Op.kindFits : Op → Bool
  | .episode _ kind _ => decide (kind.bytes.length < 65536)
  | _ => true

/-- A test that only steps meet that are `Clean`. -/
def cleanStep (b : Str) (s : Sys) : Act → Bool
  | .invoke op => (op.agent = b || decide (Separate b op.agent)) && op.kindFits
  | .call i ok =>
      match s.next i with
      | some (_, .now) => decide (s.mem.clock + 1 < 2 ^ 42)
      | some (_, .delete _) => ok
      | _ => true
  | _ => true

theorem clean_of_step {b : Str} {s : Sys} {act : Act} (h : cleanStep b s act = true) :
    Clean b s act := by
  cases act with
  | invoke op =>
      rw [cleanStep, Bool.and_eq_true, Bool.or_eq_true, decide_eq_true_eq, decide_eq_true_eq] at h
      refine ⟨fun hne => h.1.resolve_left hne, ?_⟩
      rintro kind payload rfl
      exact of_decide_eq_true h.2
  | call i ok =>
      intro op c hnext _
      rw [cleanStep, hnext] at h
      constructor
      · rintro rfl
        exact of_decide_eq_true h
      · rintro k rfl _
        exact h
  | _ => trivial

/-- Two episodes of one agent and one of another; the first is forgotten. -/
def remember : List Act :=
  [.invoke (.episode alice bob [1]), .invoke (.episode bob bob [2]), .call 1 true, .call 0 true,
    .call 1 true, .call 0 true, .call 0 true, .call 1 true,
    .invoke (.episode alice alice [3]), .call 2 true, .call 2 true, .call 2 true,
    .invoke (.episode_forget alice (seqOf 2 1)), .call 3 true]

/-- The agents are isolated, and the second episode is what is left. -/
theorem memories_isolated_alice_bob :
    Sys.Isolated alice bob ∧
      ∃ s : Sys, ofAgent alice s.recorded =
        [⟨seqOf 5 2, alice, alice, [3], 4, 6⟩] ∧ EpisodesExact alice s := by
  refine ⟨((memories_isolated alice bob Sys.start).1 (by decide +kernel)).mpr (by decide +kernel), ?_⟩
  have hrun : (exec Sys.step (cleanStep alice) Sys.start remember).any (fun s =>
      decide (ofAgent alice s.recorded = [⟨seqOf 5 2, alice, alice, [3], 4, 6⟩])) = true := by
    decide +kernel
  obtain ⟨hs, hprop⟩ := (Option.any_eq_true_iff_get _ _).mp hrun
  rw [decide_eq_true_eq] at hprop
  exact ⟨_, hprop, (memories_isolated bob alice _).2
    (.of_exec (fun _ _ => clean_of_step) (Option.some_get hs).symm)⟩

end Memory
end StrikeDB
