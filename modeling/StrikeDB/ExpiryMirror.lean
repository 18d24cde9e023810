import StrikeDB.Clients
import StrikeDB.ExpiryCommands

/-!
# StrikeDB: the expiry index follows the store

Every client hands its command to the commit path, waits for the answer and then
applies the notes it carries back to the index, one change at a time
(`after_commit`).  Nothing orders the notes of two clients, so the index is right
in the end if nobody applies a change of a key after that of a later commit.

The reaper takes the keys whose deadline has passed, purges each on the commit
path and then drops an index entry that is still there.  The check and the drop
are two steps of the source, and the durable state may change between them.

Commands that write no `exp:` key, and the transactions of other parts of the
server, are steps of the engine.

**Results.**
* `Mirrored.step`: what the steps in question preserve.
* `mirror_exact`: in the runs in question the index is exact whenever nothing is
  outstanding, and the reaper finds exactly the keys whose deadline has passed.
-/

namespace StrikeDB

/-! ## The system -/

/-- What a client handed to the engine. -/
inductive Sent where
  | command
  /-- The reaper purges a key; others wait. -/
  | purge (now : UInt64) (key : Bytes) (rest : List Bytes)
  /-- A batch of SETs that deletes the deadlines of these keys. -/
  | clear (keys : List Bytes)

/-- What a thread does when its changes are applied. -/
inductive Next where
  | done
  | check (now : UInt64) (key : Bytes) (rest : List Bytes)

/-- Where the thread of a client or of the reaper stands. -/
inductive Task where
  | idle
  /-- A batch of SETs is put together, pair by pair. -/
  | building (kvs : List (Bytes × Bytes)) (cleared : List Bytes) (entries : ValueMap)
  | waiting (ts : Nat) (sent : Sent)
  | applying (ts : Nat) (exp : List Change) (next : Next)
  | reaping (now : UInt64) (due : List Bytes)
  | checking (now : UInt64) (key : Bytes) (rest : List Bytes)
  | dropping (now : UInt64) (key : Bytes) (rest : List Bytes)

namespace Sent

/-- The changes that the index is due after the commit. -/
def changes (sent : Sent) (out : Option Outcome) : List Change :=
  match sent with
  | command | purge _ _ _ => (out.map Outcome.exp).getD []
  | clear keys => keys.map fun key => (key, none)

def next : Sent → Next
  | command | clear _ => .done
  | purge now key rest => .check now key rest

end Sent

def Next.task : Next → Task
  | done => .idle
  | check now key rest => .checking now key rest

/-- The changes of a commit that failed are forgotten. -/
def Task.received (ts : Nat) (sent : Sent) : Reply Outcome → Task
  | .ok _ out => .applying ts (sent.changes out) sent.next
  | _ => .applying ts [] sent.next

/-- The engine, the index and the threads that use both. -/
structure Mirror (n : Nat) where
  engine : Engine Outcome
  expiry : ExpiryIndex
  tasks : Fin n → Task

inductive MirrorAct (n : Nat) where
  | engine (act : Act Outcome)
  | command (i : Fin n) (op : ClientOp)
  /-- A pipelined run of SETs of keys to values. -/
  | set_batch (i : Fin n) (kvs : List (Bytes × Bytes))
  | build (i : Fin n)
  | reap (i : Fin n) (now : UInt64) (limit : Nat)
  | reap_if_expired (i : Fin n) (now : UInt64) (key : Bytes)
  /-- `now` is the time when the operation runs. -/
  | purge (i : Fin n) (now : UInt64)
  | receive (i : Fin n)
  | apply (i : Fin n)
  | check (i : Fin n)
  | drop (i : Fin n)

namespace ExpiryIndex

/-- One entry that the scan of `reload` finds. -/
def reloadStep (e : ExpiryIndex) (x : Key × Nat × Value) : ExpiryIndex :=
  if expPrefix <+: x.1 then
    match live x.2.2 with
    | some (.int d) => e.set (x.1.drop 4) (some d.toUInt64)
    | _ => e
  else e

/-- `Keyspace::reload`: the index of the live deadlines in the store. -/
def reload (ks : Keyspace) : ExpiryIndex := ks.toList.foldl reloadStep empty

/-- One SET of a batch: a deadline of the key is deleted with it. -/
def entry (e : ExpiryIndex) (key val : Bytes) (cleared : List Bytes) (entries : ValueMap) :
    List Bytes × ValueMap :=
  if (e.get key).isSome then
    (cleared ++ [key], (entries.insert (expk key) .tombstone).insert (kv key) (.bytes val))
  else (cleared, entries.insert (kv key) (.bytes val))

end ExpiryIndex

namespace Mirror

variable {n : Nat}

def setTask (s : Mirror n) (i : Fin n) (t : Task) : Mirror n :=
  { s with tasks := Function.update s.tasks i t }

/-- Hand a request to the engine and wait. -/
def hand (s : Mirror n) (i : Fin n) (r : Request Outcome) (sent : Sent) : Option (Mirror n) :=
  (s.engine.step (.submit r)).map fun e =>
    { s with engine := e }.setTask i (.waiting (s.engine.clock + 1) sent)

def step (s : Mirror n) : MirrorAct n → Option (Mirror n)
  | .engine act => (s.engine.step act).map fun e => { s with engine := e }
  | .command i op => match s.tasks i with
    | .idle => s.hand i (.op op.op) .command
    | _ => none
  | .set_batch i kvs => match s.tasks i with
    | .idle => some (s.setTask i (.building kvs [] ∅))
    | _ => none
  | .build i => match s.tasks i with
    | .building [] cleared entries => s.hand i (.write entries) (.clear cleared)
    | .building (p :: kvs) cleared entries =>
        let r := s.expiry.entry p.1 p.2 cleared entries
        some (s.setTask i (.building kvs r.1 r.2))
    | _ => none
  | .reap i now limit => match s.tasks i with
    | .idle => some (s.setTask i (.reaping now (s.expiry.due now limit)))
    | _ => none
  | .reap_if_expired i now key => match s.tasks i with
    | .idle => some (s.setTask i (.reaping now (if s.expiry.is_expired key now then [key] else [])))
    | _ => none
  | .purge i now' => match s.tasks i with
    | .reaping _ [] => some (s.setTask i .idle)
    | .reaping now (key :: rest) =>
        s.hand i (.op (ClientOp.purge now' key (2 ^ 64 - 1)).op) (.purge now key rest)
    | _ => none
  | .receive i => match s.tasks i with
    | .waiting ts sent =>
        (s.engine.replies.find? fun r => r.1 = ts).map fun r =>
          s.setTask i (.received ts sent r.2)
    | _ => none
  | .apply i => match s.tasks i with
    | .applying _ [] next => some (s.setTask i next.task)
    | .applying ts (c :: exp) next =>
        some ({ s with expiry := s.expiry.set c.1 c.2 }.setTask i (.applying ts exp next))
    | _ => none
  | .check i => match s.tasks i with
    | .checking now key rest =>
        some (s.setTask i
          (if s.expiry.is_expired key now then .dropping now key rest else .reaping now rest))
    | _ => none
  | .drop i => match s.tasks i with
    | .dropping now key rest =>
        some ({ s with expiry := s.expiry.set key none }.setTask i (.reaping now rest))
    | _ => none

/-- The server right after its start. -/
def start (n : Nat) (o : Opened) (sync_writes : Bool) : Mirror n :=
  { engine := Engine.start o sync_writes
    expiry := .reload o.keyspace
    tasks := fun _ => .idle }

/-! ## What is claimed of it -/

/-- The durable deadline of a user key. -/
def durable (s : Mirror n) (key : Bytes) : Option UInt64 :=
  deadlineOf (s.engine.keyspace.value (expk key))

end Mirror

/-- The thread waits for a commit or has changes to apply. -/
def Task.outstanding : Task → Bool
  | .waiting _ _ | .applying _ _ _ => true
  | _ => false

namespace Mirror

variable {n : Nat}

/-- No commit and no `after_commit` is outstanding. -/
def Quiet (s : Mirror n) : Prop :=
  s.engine.pending = [] ∧ ∀ i, (s.tasks i).outstanding = false

/-- The index holds the durable deadlines, so the reaper finds exactly the keys
whose deadline has passed. -/
structure Exact (s : Mirror n) : Prop where
  deadlines : ∀ key, s.expiry.get key = s.durable key
  reaped : ∀ now limit key, s.expiry.order.toList.length ≤ limit →
    (key ∈ s.expiry.due now limit ↔ ∃ d, s.durable key = some d ∧ d ≤ now)

/-- The commit at `ts` is the last one that wrote the deadline of the key. -/
def LastTouch (s : Mirror n) (key : Bytes) (ts : Nat) : Prop :=
  ∃ ms, Event.commit ts ms ∈ s.engine.history ∧ (∃ m ∈ ms, m.key = expk key) ∧
    ∀ ev ∈ s.engine.history, ev.Writes (expk key) → ev.ts ≤ ts

/-- The thread of the last commit that wrote the deadline of the key has not yet
applied its last change of the key. -/
def Owes (s : Mirror n) (i : Fin n) (key : Bytes) : Prop :=
  match s.tasks i with
  | .waiting ts _ => s.LastTouch key ts
  | .applying ts exp _ => s.LastTouch key ts ∧ ∃ c ∈ exp, c.1 = key
  | _ => False

/-- The steps of all runs. -/
def Scope (_ : Mirror n) : MirrorAct n → Prop
  | .engine act => act.Elsewhere (expPrefix <+: ·)
  | _ => True

/-- The steps of the runs in question.  Who applies a change belongs to the last
commit that wrote the deadline, or changes nothing, or is followed by who does; and
so is a reaper that drops the entry of a key with a deadline. -/
def InOrder (s : Mirror n) : MirrorAct n → Prop
  | .engine act => act.Elsewhere (expPrefix <+: ·)
  | .apply i => match s.tasks i with
    | .applying ts (c :: _) _ =>
        s.LastTouch c.1 ts ∨ s.durable c.1 = c.2 ∨ ∃ i', s.Owes i' c.1
    | _ => True
  | .drop i => match s.tasks i with
    | .dropping _ key _ => s.durable key = none ∨ ∃ i', s.Owes i' key
    | _ => True
  | _ => True

/-! ## Notes and events -/

end Mirror

/-- The changes are what the mutations do to the deadlines. -/
def Notes (exp : List Change) (ms : List Mutation) : Prop :=
  ∀ user, ((∃ m ∈ ms, m.key = expk user) → lastChange exp user ≠ none) ∧
    ∀ d, lastChange exp user = some d →
      (∃ m ∈ ms, m.key = expk user) ∧
        ∀ ks : Keyspace, deadlineOf ((ks.commit ms).value (expk user)) = d

theorem Recorded.notes {exp : List Change} {writes : ValueMap} (h : Recorded exp writes)
    (ts : Nat) : Notes exp (opMuts ts writes) := by
  intro user
  have hmem : ∀ v, writes[expk user]? = some v ↔
      ({ key := expk user, value := v, ts := ts } : Mutation) ∈ opMuts ts writes := by
    intro v
    rw [opMuts, List.mem_map]
    constructor
    · intro hv
      exact ⟨(expk user, v), Std.ExtTreeMap.mem_toList_iff_getElem?_eq_some.mpr hv, rfl⟩
    · rintro ⟨e, he, heq⟩
      obtain ⟨hkey, hvalue, _⟩ := Mutation.mk.inj heq
      rw [Std.ExtTreeMap.mem_toList_iff_getElem?_eq_some] at he
      rw [← hkey, ← hvalue]
      exact he
  constructor
  · rintro ⟨m, hm, hkey⟩ hnone
    obtain ⟨e, he, rfl⟩ := List.mem_map.mp hm
    have hv := Std.ExtTreeMap.mem_toList_iff_getElem?_eq_some.mp he
    have hkey' : e.1 = expk user := hkey
    rw [hkey', h user, hnone] at hv
    cases hv
  · intro d hd
    have hv : writes[expk user]? = some (deadlineValue d) := by rw [h user, hd]; rfl
    refine ⟨⟨_, (hmem _).mp hv, rfl⟩, ?_⟩
    intro ks
    rw [Keyspace.value_commit_opMuts, hv]
    exact deadlineOf_live d

theorem lastChange_isSome_iff (exp : List Change) (user : Bytes) :
    lastChange exp user ≠ none ↔ ∃ c ∈ exp, c.1 = user := by
  induction exp using List.reverseRecOn with
  | nil => simp [lastChange]
  | append_singleton exp c ih =>
      rw [lastChange_append]
      by_cases hc : c.1 = user
      · simp [hc]
      · rw [if_neg hc, ih]
        simp [hc]

theorem lastChange_append_of_not_mem
    {exp later : List Change} {user : Bytes} (h : ¬ ∃ c ∈ later, c.1 = user) :
    lastChange (exp ++ later) user = lastChange exp user := by
  induction later using List.reverseRecOn with
  | nil => rw [List.append_nil]
  | append_singleton later c ih =>
      have hc : c.1 ≠ user := fun hc => h ⟨c, by simp, hc⟩
      rw [← List.append_assoc, lastChange_append, if_neg hc]
      exact ih fun ⟨c', hc', hkey⟩ => h ⟨c', by simp [hc'], hkey⟩

/-- The commit of a request writes what the thread is due to apply. -/
def Sent.Writes (sent : Sent) (ms : List Mutation) (out : Option Outcome) : Prop :=
  Notes (sent.changes out) ms

/-- An operation that records its changes writes them, whenever it runs. -/
theorem always_op {op : Op Outcome} (h : Tracks op) (ts : Nat) (sent : Sent)
    (hsent : ∀ out, sent.changes out = (out.map Outcome.exp).getD []) :
    ((Request.op op).pending ts).Always sent.Writes := by
  intro core overlay m v out ms hr hms
  obtain ⟨rfl, _, rfl⟩ := Resolved.apply.inj hr
  obtain rfl := Option.some.inj hms
  rw [Sent.Writes, hsent]
  exact (h core overlay).notes ts

theorem always_write {writes : ValueMap} {exp : List Change} (h : Recorded exp writes) (ts : Nat)
    (sent : Sent) (hsent : ∀ out, sent.changes out = exp) :
    ((Request.write writes).pending ts).Always sent.Writes := by
  intro core overlay m v out ms hr hms
  obtain ⟨rfl, _, rfl⟩ := Resolved.apply.inj hr
  obtain rfl := Option.some.inj hms
  rw [Sent.Writes, hsent]
  exact h.notes ts

namespace Mirror

variable {n : Nat}

/-- Who waits for the commit of which timestamp, and for what. -/
def waits (s : Mirror n) (i : Fin n) (ts : Nat) (sent : Sent) : Prop := s.tasks i = .waiting ts sent

/-- What the runs in question keep. -/
structure Mirrored (s : Mirror n) : Prop where
  clients : Clients (expPrefix <+: ·) Sent.Writes s.engine s.waits none
  built : ∀ i kvs cleared entries, s.tasks i = .building kvs cleared entries →
    Recorded (cleared.map fun key => (key, none)) entries
  noted : ∀ i ts exp next, s.tasks i = .applying ts exp next → exp = [] ∨
    ∃ before ms, Event.commit ts ms ∈ s.engine.history ∧ Notes (before ++ exp) ms
  agrees : ∀ key, s.expiry.get key = s.durable key ∨ ∃ i, s.Owes i key

/-! ### Steps of the engine -/

/-- Without events on the deadline of a key it stays what it is, and so does the
last commit that wrote it. -/
theorem durable_congr {s : Mirror n} {e : Engine Outcome} {es : List Event}
    (hbase : e.base = s.engine.base) (hhistory : e.history = s.engine.history ++ es)
    (hflush : ∀ ev ∈ es, ev.isFlush = false) {key : Bytes}
    (hno : ∀ ev ∈ es, ¬ ev.Writes (expk key)) :
    ({ s with engine := e } : Mirror n).durable key = s.durable key ∧
      ∀ ts, s.LastTouch key ts → ({ s with engine := e } : Mirror n).LastTouch key ts := by
  constructor
  · have hsame : (e.keyspace)[expk key]? = s.engine.keyspace[expk key]? := by
      rw [Engine.keyspace, hbase, hhistory, Keyspace.after_append,
        Keyspace.getElem?_after_of_not_writes hno hflush]
      rfl
    exact congrArg deadlineOf (Keyspace.value_congr hsame)
  · rintro ts ⟨ms, hmem, hm, hlast⟩
    refine ⟨ms, ?_, hm, ?_⟩
    · show _ ∈ e.history
      rw [hhistory]
      exact List.mem_append_left _ hmem
    · intro ev hev hw
      have hev : ev ∈ s.engine.history ++ es := hhistory ▸ hev
      rcases List.mem_append.mp hev with hev | hev
      · exact hlast ev hev hw
      · exact absurd hw (hno ev hev)

/-- Whatever the engine publishes, the index agrees or somebody owes the change. -/
theorem Mirrored.agrees_engine
    {s : Mirror n} (h : s.Mirrored) {act : Act Outcome} {e : Engine Outcome}
    (hflush : s.engine.NoFlush act) (hst : s.engine.Step act e) (key : Bytes) :
    s.expiry.get key = ({ s with engine := e } : Mirror n).durable key ∨
      ∃ i, ({ s with engine := e } : Mirror n).Owes i key := by
  obtain ⟨es, hbase, hhistory, hes, hnew, howner⟩ := h.clients.events hflush hst
  by_cases hw : ∃ ev ∈ es, ev.Writes (expk key)
  · -- the last event on the key belongs to a thread that waits for its commit
    obtain ⟨ev, ⟨hev, hevw⟩, hmax⟩ :=
      Set.exists_max_image {ev | ev ∈ es ∧ ev.Writes (expk key)} Event.ts
        ((List.finite_toSet es).subset fun ev hev => hev.1) hw
    obtain ⟨i, sent, ms, _, hi, heq, _⟩ := howner ev hev _ (expPrefix_expk key) hevw
    refine Or.inr ⟨i, ?_⟩
    have hlast : ({ s with engine := e } : Mirror n).LastTouch key ev.ts := by
      refine ⟨ms, ?_, ?_, ?_⟩
      · show _ ∈ e.history
        rw [hhistory, ← heq]
        exact List.mem_append_right _ hev
      · rw [heq] at hevw
        exact hevw
      · intro ev' hev' hw'
        have hev' : ev' ∈ s.engine.history ++ es := hhistory ▸ hev'
        rcases List.mem_append.mp hev' with hold | hev'
        · exact ((h.clients.ledger.history_le ev' hold).trans_lt (hnew _ hev)).le
        · exact hmax ev' ⟨hev', hw'⟩
    have hi : s.tasks i = .waiting ev.ts sent := hi
    simp only [Owes, hi]
    exact hlast
  · have hno : ∀ ev ∈ es, ¬ ev.Writes (expk key) := fun ev hev hwr => hw ⟨ev, hev, hwr⟩
    obtain ⟨hdurable, hlast⟩ := durable_congr hbase hhistory hes hno
    rcases h.agrees key with heq | ⟨i, howes⟩
    · exact Or.inl (heq.trans hdurable.symm)
    · refine Or.inr ⟨i, ?_⟩
      simp only [Owes] at howes ⊢
      split at howes
      · exact hlast _ howes
      · exact ⟨hlast _ howes.1, howes.2⟩
      · exact howes

/-- What a step of the engine keeps, apart from who waits for what. -/
theorem Mirrored.engine_frame
    {s : Mirror n} (h : s.Mirrored) {act : Act Outcome} {e : Engine Outcome}
    (hflush : s.engine.NoFlush act) (hst : s.engine.Step act e) :
    ∀ i ts exp next, s.tasks i = .applying ts exp next → exp = [] ∨
      ∃ before ms, Event.commit ts ms ∈ e.history ∧ Notes (before ++ exp) ms := by
  intro i ts exp next hi
  obtain ⟨es, _, hhistory, _⟩ := h.clients.events hflush hst
  rcases h.noted i ts exp next hi with hnil | ⟨before, ms, hmem, hnotes⟩
  · exact Or.inl hnil
  · refine Or.inr ⟨before, ms, ?_, hnotes⟩
    rw [hhistory]
    exact List.mem_append_left _ hmem

/-- A step of the engine that is none of the threads'. -/
theorem Mirrored.engine
    {s : Mirror n} (h : s.Mirrored) {act : Act Outcome} {e : Engine Outcome}
    (helse : act.Elsewhere (expPrefix <+: ·)) (hst : s.engine.step act = some e) :
    ({ s with engine := e } : Mirror n).Mirrored := by
  have hflush : s.engine.NoFlush act := by
    rintro bak rfl
    exact helse
  exact
    { clients := h.clients.elsewhere helse hst
      built := h.built
      noted := h.engine_frame hflush (Engine.step_cases hst)
      agrees := h.agrees_engine hflush (Engine.step_cases hst) }

/-! ### Steps of the threads -/

@[simp] theorem setTask_tasks_self (s : Mirror n) (i : Fin n) (t : Task) :
    (s.setTask i t).tasks i = t := by
  simp [setTask]

theorem setTask_tasks_of_ne (s : Mirror n) {i j : Fin n} (h : j ≠ i) (t : Task) :
    (s.setTask i t).tasks j = s.tasks j := by
  simp [setTask, h]

/-- A thread goes on: it forgets no commit that is on its way, and no change that it
owes. -/
theorem Mirrored.setTask
    {s : Mirror n} (h : s.Mirrored) {i : Fin n} {t : Task}
    (hclients : Clients (expPrefix <+: ·) Sent.Writes s.engine (s.setTask i t).waits none)
    (hbuilt : ∀ kvs cleared entries, t = .building kvs cleared entries →
      Recorded (cleared.map fun key => (key, none)) entries)
    (hnoted : ∀ ts exp next, t = .applying ts exp next → exp = [] ∨
      ∃ before ms, Event.commit ts ms ∈ s.engine.history ∧ Notes (before ++ exp) ms)
    (howes : ∀ key, s.Owes i key →
      s.expiry.get key = s.durable key ∨ (s.setTask i t).Owes i key) :
    (s.setTask i t).Mirrored := by
  have hself := setTask_tasks_self s i t
  have hother : ∀ j, j ≠ i → (s.setTask i t).tasks j = s.tasks j :=
    fun j hj => setTask_tasks_of_ne s hj t
  refine { clients := hclients, built := ?_, noted := ?_, agrees := ?_ }
  · intro j kvs cleared entries hj
    by_cases hji : j = i
    · subst hji
      exact hbuilt kvs cleared entries (hself.symm.trans hj)
    · exact h.built j kvs cleared entries ((hother j hji).symm.trans hj)
  · intro j ts exp next hj
    by_cases hji : j = i
    · subst hji
      exact hnoted ts exp next (hself.symm.trans hj)
    · exact h.noted j ts exp next ((hother j hji).symm.trans hj)
  · intro key
    rcases h.agrees key with heq | ⟨j, hj⟩
    · exact Or.inl heq
    · by_cases hji : j = i
      · subst hji
        exact (howes key hj).imp_right fun hj => ⟨j, hj⟩
      · refine Or.inr ⟨j, ?_⟩
        simp only [Owes, hother j hji]
        exact hj

/-- A thread that waits for nothing goes on. -/
theorem Mirrored.clients_setTask
    {s : Mirror n} (h : s.Mirrored) {i : Fin n} {t : Task}
    (ht : ∀ ts sent, t ≠ .waiting ts sent)
    (hfree : ∀ pw ∈ s.engine.pending, ∀ sent, s.tasks i ≠ .waiting pw.ts sent) :
    Clients (expPrefix <+: ·) Sent.Writes s.engine (s.setTask i t).waits none := by
  refine h.clients.goes_on ?_ ?_
  · intro j ts sent hj
    by_cases hji : j = i
    · subst hji
      exact absurd ((setTask_tasks_self s j t).symm.trans hj) (ht ts sent)
    · exact (setTask_tasks_of_ne s hji t).symm.trans hj
  · intro pw hpw j sent hj
    by_cases hji : j = i
    · subst hji
      exact absurd hj (hfree pw hpw sent)
    · exact (setTask_tasks_of_ne s hji t).trans hj

theorem not_owes_of_not_outstanding
    {s : Mirror n} {i : Fin n} (h : (s.tasks i).outstanding = false) (key : Bytes) :
    ¬ s.Owes i key := by
  unfold Owes
  cases hi : s.tasks i <;> simp_all [Task.outstanding]

theorem not_waiting_of_not_outstanding {t : Task} (h : t.outstanding = false) (ts : Nat)
    (sent : Sent) : t ≠ .waiting ts sent := by
  rintro rfl
  cases h

/-- A thread without anything outstanding goes on without its commits. -/
theorem Mirrored.setTask_free
    {s : Mirror n} (h : s.Mirrored) {i : Fin n} {t : Task}
    (hfree : (s.tasks i).outstanding = false) (ht : t.outstanding = false)
    (hbuilt : ∀ kvs cleared entries, t = .building kvs cleared entries →
      Recorded (cleared.map fun key => (key, none)) entries) :
    (s.setTask i t).Mirrored := by
  refine h.setTask ?_ hbuilt ?_ ?_
  · exact h.clients_setTask (not_waiting_of_not_outstanding ht)
      fun pw _ => not_waiting_of_not_outstanding hfree pw.ts
  · rintro ts exp next rfl
    cases ht
  · intro key howes
    exact absurd howes (not_owes_of_not_outstanding hfree key)

/-- A thread hands over a request and waits. -/
theorem Mirrored.hand
    {s s' : Mirror n} (h : s.Mirrored) {i : Fin n} {r : Request Outcome} {sent : Sent}
    (hfree : (s.tasks i).outstanding = false) (hplain : ∀ bak, r ≠ .flush_all bak)
    (halways : ∀ ts, (r.pending ts).Always sent.Writes) (hst : s.hand i r sent = some s') :
    s'.Mirrored := by
  obtain ⟨e, he, rfl⟩ := Option.map_eq_some_iff.mp hst
  have hflush : s.engine.NoFlush (.submit r) := by
    rintro bak hact
    cases hact
    exact hplain bak rfl
  have hcases := Engine.step_cases he
  have hself : ∀ j, j ≠ i → ({ s with engine := e }.setTask i
      (.waiting (s.engine.clock + 1) sent)).tasks j = s.tasks j :=
    fun j hj => setTask_tasks_of_ne { s with engine := e } hj _
  refine { clients := ?_, built := ?_, noted := ?_, agrees := ?_ }
  · refine h.clients.hand (i := i) hplain halways he ?_
    intro j ts sent'
    simp only [waits]
    by_cases hji : j = i
    · subst hji
      have hnot := not_waiting_of_not_outstanding hfree ts sent'
      simp [hnot, eq_comm]
    · rw [hself j hji]
      simp [hji]
  · intro j kvs cleared entries hj
    by_cases hji : j = i
    · subst hji
      simp at hj
    · exact h.built j kvs cleared entries ((hself j hji).symm.trans hj)
  · intro j ts exp next hj
    by_cases hji : j = i
    · subst hji
      simp at hj
    · exact h.engine_frame hflush hcases j ts exp next ((hself j hji).symm.trans hj)
  · intro key
    rcases h.agrees_engine hflush hcases key with heq | ⟨j, hj⟩
    · exact Or.inl heq
    · by_cases hji : j = i
      · subst hji
        have hfree' : (({ s with engine := e } : Mirror n).tasks j).outstanding = false := hfree
        exact absurd hj (not_owes_of_not_outstanding hfree' key)
      · refine Or.inr ⟨j, ?_⟩
        simp only [Owes, hself j hji]
        exact hj

/-- A change of the index that is right, or that somebody is due to correct. -/
theorem Mirrored.set
    {s : Mirror n} (h : s.Mirrored) {key : Bytes} {d : Option UInt64}
    (hd : s.durable key = d ∨ ∃ i, s.Owes i key) :
    ({ s with expiry := s.expiry.set key d } : Mirror n).Mirrored := by
  refine { clients := h.clients, built := h.built, noted := h.noted, agrees := ?_ }
  intro k
  show (s.expiry.set key d).get k = s.durable k ∨ _
  rw [ExpiryIndex.get_eq, ExpiryIndex.getElem?_set]
  by_cases hk : key = k
  · subst hk
    rw [if_pos rfl]
    exact hd.imp_left Eq.symm
  · rw [if_neg hk, ← ExpiryIndex.get_eq]
    exact h.agrees k

/-- The last commit that wrote the deadline of a key decides it. -/
theorem Mirrored.durable_of_lastTouch
    {s : Mirror n} (h : s.Mirrored) {key : Bytes} {ts : Nat} (hlast : s.LastTouch key ts)
    {exp : List Change} {ms : List Mutation} (hmem : Event.commit ts ms ∈ s.engine.history)
    (hnotes : Notes exp ms) :
    lastChange exp key = some (s.durable key) := by
  obtain ⟨ms', hmem', hm, hlatest⟩ := hlast
  obtain ⟨_, rfl⟩ := Event.commit.inj (Engine.Ledger.eq_of_ts h.clients.ledger hmem' hmem rfl)
  obtain ⟨d, hd⟩ := Option.ne_none_iff_exists'.mp ((hnotes key).1 hm)
  obtain ⟨pre, post, hhistory⟩ := List.append_of_mem hmem
  have hpost : ∀ ev ∈ post, ¬ ev.Writes (expk key) := by
    intro ev hev hw
    have hsorted := h.clients.ledger.sorted
    rw [hhistory, List.pairwise_append, List.pairwise_cons] at hsorted
    have hlt : ts < ev.ts := hsorted.2.1.1 ev hev
    have hle := hlatest ev (by rw [hhistory]; simp [hev]) hw
    omega
  have hflush : ∀ ev ∈ post, ev.isFlush = false :=
    fun ev hev => h.clients.unflushed ev (by rw [hhistory]; simp [hev])
  have hkey : s.engine.keyspace[expk key]? =
      ((s.engine.base.after pre).commit ms')[expk key]? := by
    rw [Engine.keyspace, hhistory, Keyspace.after_append, Keyspace.after_cons,
      Keyspace.getElem?_after_of_not_writes hpost hflush]
    rfl
  rw [hd, durable, Keyspace.value_congr hkey, ((hnotes key).2 d hd).2]

/-- A thread takes the answer to its commit. -/
theorem Mirrored.receive
    {s : Mirror n} (h : s.Mirrored) {i : Fin n} {ts : Nat} {sent : Sent}
    (hi : s.tasks i = .waiting ts sent) {rep : Reply Outcome}
    (hrep : (ts, rep) ∈ s.engine.replies) :
    (s.setTask i (.received ts sent rep)).Mirrored := by
  have hreceived : ∃ exp, Task.received ts sent rep = .applying ts exp sent.next ∧
      (exp = [] ∨ ∃ ms, Event.commit ts ms ∈ s.engine.history ∧ Notes exp ms) ∧
      ∀ key, s.LastTouch key ts → ∃ c ∈ exp, c.1 = key := by
    rcases h.clients.answer hi hrep with ⟨v, out, ms, rfl, hmem, hnotes⟩ | ⟨hno, hev⟩
    · refine ⟨_, rfl, Or.inr ⟨ms, hmem, hnotes⟩, ?_⟩
      rintro key ⟨ms', hmem', hm, _⟩
      obtain ⟨_, rfl⟩ := Event.commit.inj (Engine.Ledger.eq_of_ts h.clients.ledger hmem' hmem rfl)
      exact (lastChange_isSome_iff _ key).mp ((hnotes key).1 hm)
    · refine ⟨[], ?_, Or.inl rfl, ?_⟩
      · cases rep with
        | ok v out => exact absurd trivial hno
        | _ => rfl
      · rintro key ⟨ms', hmem', _⟩
        exact absurd rfl (hev _ hmem')
  obtain ⟨exp, hreceived, hnotes, htouch⟩ := hreceived
  rw [hreceived]
  refine h.setTask ?_ (by simp) ?_ ?_
  · refine h.clients_setTask (by simp) ?_
    intro pw hpw sent' hi'
    rw [hi] at hi'
    exact h.clients.not_pending hrep hpw (Task.waiting.inj hi').1.symm
  · rintro ts' exp' next heq
    obtain ⟨rfl, rfl, _⟩ := Task.applying.inj heq
    exact hnotes.imp_right fun ⟨ms, hmem, hn⟩ => ⟨[], ms, hmem, hn⟩
  · intro key howes
    simp only [Owes, hi] at howes
    refine Or.inr ?_
    simp only [Owes, setTask_tasks_self]
    exact ⟨howes, htouch key howes⟩

/-- A thread applies a change. -/
theorem Mirrored.apply
    {s : Mirror n} (h : s.Mirrored) {i : Fin n} {ts : Nat} {c : Change} {exp : List Change}
    {next : Next} (hi : s.tasks i = .applying ts (c :: exp) next)
    (hok : s.LastTouch c.1 ts ∨ s.durable c.1 = c.2 ∨ ∃ i', s.Owes i' c.1) :
    ({ s with expiry := s.expiry.set c.1 c.2 }.setTask i (.applying ts exp next)).Mirrored := by
  have hright : s.durable c.1 = c.2 ∨ ∃ i', s.Owes i' c.1 := by
    rcases hok with hlast | hd
    · refine Or.inr ⟨i, ?_⟩
      simp only [Owes, hi]
      exact ⟨hlast, c, List.mem_cons_self, rfl⟩
    · exact hd
  have h₁ := h.set hright
  have hi₁ : ({ s with expiry := s.expiry.set c.1 c.2 } : Mirror n).tasks i =
      .applying ts (c :: exp) next := hi
  refine h₁.setTask (h₁.clients_setTask (by simp) (by simp [hi])) (by simp) ?_ ?_
  · rintro ts' exp' next' heq
    obtain ⟨rfl, rfl, _⟩ := Task.applying.inj heq
    rcases h₁.noted i _ _ _ hi₁ with hnil | ⟨before, ms, hmem, hn⟩
    · cases hnil
    · refine Or.inr ⟨before ++ [c], ms, hmem, ?_⟩
      rw [List.append_assoc]
      exact hn
  · intro key howes
    simp only [Owes, hi] at howes
    obtain ⟨hlast, c', hc', hkey⟩ := howes
    by_cases hlater : ∃ c' ∈ exp, c'.1 = key
    · refine Or.inr ?_
      simp only [Owes, setTask_tasks_self]
      exact ⟨hlast, hlater⟩
    · -- it was the last change of the key by its last commit
      obtain rfl : c' = c := by
        rcases List.mem_cons.mp hc' with heq | hc'
        · exact heq
        · exact absurd ⟨c', hc', hkey⟩ hlater
      left
      rcases h₁.noted i _ _ _ hi₁ with hnil | ⟨before, ms, hmem, hn⟩
      · cases hnil
      · have hdurable := h₁.durable_of_lastTouch hlast hmem hn
        have hchange : lastChange (before ++ c' :: exp) key = some c'.2 := by
          rw [List.append_cons, lastChange_append_of_not_mem hlater, lastChange_append,
            if_pos hkey]
        rw [hdurable] at hchange
        show (s.expiry.set c'.1 c'.2).get key = _
        rw [ExpiryIndex.get_eq, ExpiryIndex.getElem?_set, if_pos hkey]
        exact (Option.some.inj hchange).symm

/-- What one SET of a batch adds. -/
theorem recorded_entry
    (e : ExpiryIndex) {key val : Bytes} {cleared : List Bytes} {entries : ValueMap}
    (h : Recorded (cleared.map fun key => (key, none)) entries) :
    Recorded ((e.entry key val cleared entries).1.map fun key => (key, none))
      (e.entry key val cleared entries).2 := by
  unfold ExpiryIndex.entry
  split
  · rw [List.map_append]
    exact (h.change key none).plain (.kv key) (.bytes val)
  · exact h.plain (.kv key) (.bytes val)

/-- Every step of the runs in question keeps all of it. -/
theorem Mirrored.step
    {s s' : Mirror n} {act : MirrorAct n} (h : s.Mirrored) (hok : s.InOrder act)
    (hst : s.step act = some s') :
    s'.Mirrored := by
  cases act with
  | engine act =>
      obtain ⟨e, he, rfl⟩ := Option.map_eq_some_iff.mp hst
      exact h.engine hok he
  | command i op =>
      simp only [Mirror.step] at hst
      split at hst
      · next hi =>
          exact h.hand (by rw [hi]; rfl) (by simp)
            (fun ts => always_op op.tracks ts .command fun _ => rfl) hst
      · cases hst
  | set_batch i kvs =>
      simp only [Mirror.step] at hst
      split at hst
      · next hi =>
          cases hst
          refine h.setTask_free (by rw [hi]; rfl) (by rfl) ?_
          rintro kvs cleared entries heq
          cases heq
          exact recorded_empty
      · cases hst
  | build i =>
      simp only [Mirror.step] at hst
      split at hst
      · next cleared entries hi =>
          have hrec := h.built i [] cleared entries hi
          exact h.hand (by rw [hi]; rfl) (by simp)
            (fun ts => always_write hrec ts (.clear cleared) fun _ => rfl) hst
      · next p kvs cleared entries hi =>
          cases hst
          refine h.setTask_free (by rw [hi]; rfl) (by rfl) ?_
          rintro kvs' cleared' entries' heq
          cases heq
          exact recorded_entry s.expiry (h.built i _ cleared entries hi)
      · cases hst
  | reap i now limit =>
      simp only [Mirror.step] at hst
      split at hst
      · next hi =>
          cases hst
          exact h.setTask_free (by rw [hi]; rfl) (by rfl) (by simp)
      · cases hst
  | reap_if_expired i now key =>
      simp only [Mirror.step] at hst
      split at hst
      · next hi =>
          cases hst
          exact h.setTask_free (by rw [hi]; rfl) (by rfl) (by simp)
      · cases hst
  | purge i now' =>
      simp only [Mirror.step] at hst
      split at hst
      · next hi =>
          cases hst
          exact h.setTask_free (by rw [hi]; rfl) (by rfl) (by simp)
      · next now key rest hi =>
          exact h.hand (by rw [hi]; rfl) (by simp)
            (fun ts => always_op (ClientOp.tracks _) ts (.purge now key rest) fun _ => rfl) hst
      · cases hst
  | receive i =>
      simp only [Mirror.step] at hst
      split at hst
      · next ts sent hi =>
          obtain ⟨⟨ts', rep⟩, hfind, rfl⟩ := Option.map_eq_some_iff.mp hst
          have hts : ts' = ts := by simpa using List.find?_some hfind
          exact h.receive hi (hts ▸ List.mem_of_find?_eq_some hfind)
      · cases hst
  | apply i =>
      simp only [Mirror.step] at hst
      split at hst
      · next ts next hi =>
          cases hst
          refine h.setTask (h.clients_setTask ?_ (by simp [hi])) ?_ ?_ ?_
          · intro ts' sent heq
            cases next <;> cases heq
          · intro kvs cleared entries heq
            cases next <;> cases heq
          · intro ts' exp' next' heq
            cases next <;> cases heq
          · intro key howes
            simp [Owes, hi] at howes
      · next ts c exp next hi =>
          cases hst
          simp only [InOrder, hi] at hok
          exact h.apply hi hok
      · cases hst
  | check i =>
      simp only [Mirror.step] at hst
      split at hst
      · next now key rest hi =>
          cases hst
          refine h.setTask_free (by rw [hi]; rfl) ?_ ?_
          · split <;> rfl
          · intro kvs cleared entries heq
            split at heq <;> cases heq
      · cases hst
  | drop i =>
      simp only [Mirror.step] at hst
      split at hst
      · next now key rest hi =>
          cases hst
          simp only [InOrder, hi] at hok
          have hfree : (({ s with expiry := s.expiry.set key none } : Mirror n).tasks
              i).outstanding = false := by
            show (s.tasks i).outstanding = false
            rw [hi]
            rfl
          exact (h.set hok).setTask_free hfree (by rfl) (by simp)
      · cases hst

end Mirror

namespace ExpiryIndex

/-- What one entry of the scan does to the deadlines. -/
theorem getElem?_reloadStep (e : ExpiryIndex) (x : Key × Nat × Value) (key : Bytes) :
    (reloadStep e x).at_[key]? =
      if x.1 = expk key then (deadlineOf (live x.2.2)).or e.at_[key]? else e.at_[key]? := by
  unfold reloadStep
  by_cases hx : expPrefix <+: x.1
  · obtain ⟨user, huser⟩ := hx
    have hkey : x.1 = expk user := huser.symm
    have hdrop : x.1.drop 4 = user := by rw [hkey]; rfl
    rw [if_pos ⟨user, huser⟩, hdrop, hkey]
    have hiff : expk user = expk key ↔ user = key := ⟨expk_injective, congrArg expk⟩
    split
    · next d hd =>
        rw [getElem?_set, hd]
        simp only [hiff]
        rfl
    · next hnot =>
        have hnone : deadlineOf (live x.2.2) = none := by
          unfold deadlineOf
          split
          · next d hd => exact absurd hd (hnot d)
          · rfl
        rw [hnone, Option.none_or, ite_self]
  · have hne : x.1 ≠ expk key := fun heq => hx (heq ▸ expPrefix_expk key)
    rw [if_neg hx, if_neg hne]

/-- The index of an opened store holds its deadlines. -/
theorem getElem?_reload (ks : Keyspace) (key : Bytes) :
    (reload ks).at_[key]? = deadlineOf (ks.value (expk key)) := by
  have hgen : ∀ (l : List (Key × Nat × Value)) (e : ExpiryIndex) (r : Option UInt64),
      (∀ x ∈ l, x.1 = expk key → deadlineOf (live x.2.2) = r) →
      (e.at_[key]? = r ∨ e.at_[key]? = none ∧ ∃ x ∈ l, x.1 = expk key) →
      (l.foldl reloadStep e).at_[key]? = r := by
    intro l
    induction l with
    | nil =>
        rintro e r _ (he | ⟨_, x, hx, _⟩)
        · exact he
        · cases hx
    | cons x l ih =>
        intro e r hr he
        refine ih _ r (fun y hy => hr y (List.mem_cons_of_mem _ hy)) ?_
        rw [getElem?_reloadStep]
        by_cases hx : x.1 = expk key
        · left
          rw [if_pos hx, hr x List.mem_cons_self hx]
          rcases he with he | ⟨hnone, _⟩
          · rw [he]
            cases r <;> rfl
          · rw [hnone, Option.or_none]
        · rw [if_neg hx]
          refine he.imp_right fun ⟨hnone, y, hy, hykey⟩ => ⟨hnone, y, ?_, hykey⟩
          rcases List.mem_cons.mp hy with rfl | hy
          · exact absurd hykey hx
          · exact hy
  refine hgen ks.toList empty _ ?_ ?_
  · rintro ⟨k, w⟩ hx hkey
    rw [Std.ExtTreeMap.mem_toList_iff_getElem?_eq_some] at hx
    have hkey : k = expk key := hkey
    rw [Keyspace.value, ← hkey, hx]
    rfl
  · cases hw : ks[expk key]? with
    | none =>
        left
        rw [Keyspace.value, hw]
        exact Std.ExtTreeMap.getElem?_empty
    | some w =>
        exact Or.inr ⟨Std.ExtTreeMap.getElem?_empty, (expk key, w),
          Std.ExtTreeMap.mem_toList_iff_getElem?_eq_some.mpr hw, rfl⟩

end ExpiryIndex

namespace Mirror

variable {n : Nat}

theorem mirrored_start (n : Nat) (o : Opened) (sync_writes : Bool) :
    (start n o sync_writes).Mirrored where
  clients := .start o sync_writes (by simp [waits, start])
  built := by simp [start]
  noted := by simp [start]
  agrees := by
    intro key
    rw [ExpiryIndex.get_eq]
    exact Or.inl (ExpiryIndex.getElem?_reload o.keyspace key)

theorem Mirrored.exact {s : Mirror n} (h : s.Mirrored) (hquiet : s.Quiet) : s.Exact := by
  have hdeadlines : ∀ key, s.expiry.get key = s.durable key := by
    intro key
    rcases h.agrees key with heq | ⟨i, howes⟩
    · exact heq
    · exact absurd howes (not_owes_of_not_outstanding (hquiet.2 i) key)
  refine ⟨hdeadlines, ?_⟩
  intro now limit key hlimit
  rw [ExpiryIndex.mem_due s.expiry now hlimit, ← ExpiryIndex.get_eq, hdeadlines]

/-- In every run in which nobody applies a change of a key after that of a later
commit, the index is exact whenever nothing is outstanding. -/
theorem mirror_exact
    (n : Nat) (o : Opened) (sync_writes : Bool) {s : Mirror n}
    (hrun : Run step InOrder (start n o sync_writes) s) :
    s.Quiet → s.Exact := by
  refine Mirrored.exact (hrun.invariant (P := fun s => s.Mirrored) ?_
    (mirrored_start n o sync_writes))
  intro s act s' h hok hst
  exact h.step hok hst

/-! ## Two clients -/

/-- A client runs a command, and the flusher publishes its commit in `n` steps. -/
def commits (i : Fin 2) (op : ClientOp) (n : Nat) : List (MirrorAct 2) :=
  [.command i op, .engine .drain] ++ (Engine.flusherWorks n).map .engine

/-- A client takes its answer and applies its change. -/
def after_commit (i : Fin 2) : List (MirrorAct 2) := [.receive i, .apply i, .apply i]

/-- A client sets the key to a value with a deadline. -/
def setsDeadline : List (MirrorAct 2) :=
  commits 0 (.run (StrikeDB.set 10 [0x6b] [0x76] false false false (some 500) (2 ^ 64 - 1))) 40 ++
    after_commit 0

/-- The first client removes the deadline. -/
def persistsKey : List (MirrorAct 2) := commits 0 (.run (persist 20 [0x6b] (2 ^ 64 - 1))) 39

/-- The second client sets a new one. -/
def expiresKey : List (MirrorAct 2) :=
  commits 1 (.run (expire 30 [0x6b] 600 ⟨false, false, false, false⟩ (2 ^ 64 - 1))) 41

def quiet (s : Mirror 2) : Bool :=
  s.engine.pending.isEmpty && !(s.tasks 0).outstanding && !(s.tasks 1).outstanding

theorem quiet_sound {s : Mirror 2} (h : s.quiet = true) : s.Quiet := by
  simp only [quiet, Bool.and_eq_true, List.isEmpty_iff, Bool.not_eq_true'] at h
  refine ⟨h.1.1, ?_⟩
  intro i
  match i with
  | 0 => exact h.1.2
  | 1 => exact h.2

/-- Steps of the flusher and of the threads. -/
def scope (_ : Mirror 2) : MirrorAct 2 → Bool
  | .engine (.work _ _) | .engine .drain => true
  | .engine _ => false
  | _ => true

theorem scope_sound {s : Mirror 2} {act : MirrorAct 2} (h : s.scope act = true) : s.Scope act := by
  unfold scope at h
  split at h
  · trivial
  · trivial
  · cases h
  · next hne =>
      cases act with
      | engine act => exact absurd rfl (hne act)
      | _ => trivial

/-- The change of the second client reaches the index before that of the first, and
the key keeps a deadline that the reaper does not know. -/
theorem deadline_lost :
    ∃ s : Mirror 2, Run step Scope (start 2 Opened.fresh true) s ∧ s.Quiet ∧ ¬ s.Exact := by
  have hrun : (exec step scope (start 2 Opened.fresh true)
      (setsDeadline ++ persistsKey ++ expiresKey ++ after_commit 1 ++ after_commit 0)).any
      (fun s => s.quiet && s.expiry.get [0x6b] = none && s.durable [0x6b] = some 600) = true := by
    decide +kernel
  obtain ⟨hs, hprop⟩ := (Option.any_eq_true_iff_get _ _).mp hrun
  simp only [Bool.and_eq_true, decide_eq_true_eq] at hprop
  refine ⟨_, .of_exec (fun _ _ => scope_sound) (Option.some_get hs).symm,
    quiet_sound hprop.1.1, ?_⟩
  intro hexact
  have hd := hexact.deadlines [0x6b]
  rw [hprop.1.2, hprop.2] at hd
  cases hd

/-- Every change that is applied is the durable deadline, and nothing is dropped. -/
def inOrder (s : Mirror 2) : MirrorAct 2 → Bool
  | .apply i => match s.tasks i with
    | .applying _ (c :: _) _ => s.durable c.1 = c.2
    | _ => true
  | .drop _ => false
  | act => s.scope act

theorem inOrder_sound {s : Mirror 2} {act : MirrorAct 2} (h : s.inOrder act = true) :
    s.InOrder act := by
  cases act with
  | engine act =>
      have hscope : s.Scope (.engine act) := scope_sound h
      exact hscope
  | apply i =>
      simp only [inOrder] at h
      simp only [InOrder]
      split
      · next hi =>
          rw [hi] at h
          exact Or.inr (Or.inl (of_decide_eq_true h))
      · trivial
  | drop i => cases h
  | _ => trivial

theorem mirror_exact_in_order :
    ∃ s : Mirror 2, s.Quiet ∧ s.expiry.get [0x6b] = some 600 ∧ s.Exact := by
  have hrun : (exec step inOrder (start 2 Opened.fresh true)
      (setsDeadline ++ persistsKey ++ after_commit 0 ++ expiresKey ++ after_commit 1)).any
      (fun s => s.quiet && s.expiry.get [0x6b] = some 600) = true := by
    decide +kernel
  obtain ⟨hs, hprop⟩ := (Option.any_eq_true_iff_get _ _).mp hrun
  simp only [Bool.and_eq_true, decide_eq_true_eq] at hprop
  exact ⟨_, quiet_sound hprop.1, hprop.2, mirror_exact 2 Opened.fresh true
    (.of_exec (fun _ _ => inOrder_sound) (Option.some_get hs).symm) (quiet_sound hprop.1)⟩

end Mirror
end StrikeDB
