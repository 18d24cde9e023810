import StrikeDB.ReplicationRuns

/-!
# StrikeDB: commit subscribers see the commit order

`Observed` is the primary with its replicas, with every call that its subscribers
have got so far, and with the replicas whose connection has ended: these still read
what is on their socket, until they crash.

* `Told.step`: a step keeps the calls, made and due, in step with the events.
* `commit_order_seen`: every mutation is told once, in commit order, FLUSHALLs in
  their place, so that a consumer ends with the live keyspace.
-/

namespace StrikeDB
namespace Repl

variable {ρ : Type}

/-! ## The observed system -/

/-- A replica reads what is on its socket. -/
def Link.read (l : Link) (n : Nat) (control : Bool) : Option Link :=
  match l.wire with
  | [] => none
  | .mutation m :: w => some (Replication.takeMuts l m w n control)
  | f :: w => some (Replication.takeControl l f w)

/-- A replica purges an expired key by itself. -/
def Link.expire (l : Link) (now : Nat) (user : Bytes) : Option Link :=
  match expiredKeys l.replica.ks now user with
  | [] => none
  | keys => some (l.deleting keys)

/-- Has the replica finished its full sync? -/
def Link.synced (l : Link) : Bool :=
  match l.serving with
  | .streaming _ => l.wire.all fun f => match f with
      | .ready _ => false
      | _ => true
  | _ => false

/-- The replica crashes: what is on its socket is lost.  One that has not finished its full
sync is not going to. -/
def Link.crash (l : Link) : Link :=
  { l with wire := [], serving := if l.synced then l.serving else .registering }

/-- What a replica without a connection does.  When it crashes it keeps the batches that
it has stored, each of which is one record of its log. -/
inductive Alone where
  | read (n : Nat) (control : Bool)
  | purge (now : Nat) (user : Bytes)
  | crash

def Alone.on (l : Link) : Alone → Option Link
  | .read n control => l.read n control
  | .purge now user => l.expire now user
  | .crash => some l.crash

structure Observed (ρ : Type) where
  repl : Replication ρ
  /-- The calls that a subscriber has got. -/
  calls : List Frame
  /-- Replicas as they were when their connection ended. -/
  offline : List Link

inductive ObsAct (ρ : Type) where
  | repl (act : ReplAct ρ)
  | offline (i : Nat) (how : Alone)

namespace Observed

/-- The call that is made in a step. -/
def made (s : Replication ρ) : ReplAct ρ → List Frame
  | .call => s.hooks.take 1
  | .callLate i => (s.late[i]?.getD []).take 1
  | _ => []

/-- The links that a step ends. -/
def ended (s s' : Replication ρ) : List Link :=
  s.links.filter fun l => (s'.link l.id).isNone

def step (s : Observed ρ) : ObsAct ρ → Option (Observed ρ)
  | .repl act =>
      (s.repl.step act).map fun r =>
        { repl := r, calls := s.calls ++ made s.repl act
          offline := s.offline ++ ended s.repl r }
  | .offline i how =>
      (s.offline[i]?).bind fun l =>
        (how.on l).map fun l' => { s with offline := s.offline.set i l' }

def start (o : Opened) (sync_writes : Bool) : Observed ρ :=
  { repl := Replication.start o sync_writes, calls := [], offline := [] }

end Observed

theorem consume_eq (s : Replication ρ) (id n : Nat) (control : Bool) :
    s.consume id n control = s.onLink id fun l => l.read n control := rfl

/-! ## Steps that are no calls -/

/-- The step of a client in the engine, or none. -/
def Rests (s s' : Replication ρ) : Prop :=
  s'.hooks = s.hooks ∧ s'.late = s.late ∧
    (s'.eng = s.eng ∨ ∃ act : Act ρ, (∀ a io, act ≠ .work a io) ∧ s.eng.Ordinary act ∧
      s.eng.step act = some s'.eng)

theorem rests_onLink
    {s s' : Replication ρ} {id : Nat} {f : Link → Option Link} (h : s.onLink id f = some s') :
    Rests s s' := by
  obtain ⟨l, l', _, _, _, rfl⟩ := onLink_cases h
  exact ⟨rfl, rfl, Or.inl rfl⟩

/-- What replicas and the threads that serve them do leaves the calls alone. -/
theorem rests_step
    {s s' : Replication ρ} {act : ReplAct ρ} (hst : s.step act = some s')
    (hengine : ∀ a, act ≠ .engine a) (hcall : act ≠ .call) (hlate : ∀ i, act ≠ .callLate i) :
    Rests s s' := by
  cases act with
  | engine a => exact absurd rfl (hengine a)
  | call => exact absurd rfl hcall
  | callLate i => exact absurd rfl (hlate i)
  | register id old =>
      simp only [Replication.step, Replication.register] at hst
      split at hst
      · cases hst
      · cases hst
        exact ⟨rfl, rfl, Or.inl rfl⟩
  | activate id =>
      obtain ⟨s₁, hs₁, rfl⟩ := Option.map_eq_some_iff.mp hst
      have hrests := rests_onLink hs₁
      exact hrests
  | pin id =>
      obtain ⟨l, l', _, _, _, rfl⟩ := onLink_cases hst
      exact ⟨rfl, rfl, Or.inr ⟨.dumpStart, by simp, trivial, rfl⟩⟩
  | ready id =>
      simp only [Replication.step, Replication.ready] at hst
      split at hst
      · split at hst
        · split at hst
          · split at hst
            · cases hst
            · next e he =>
                cases hst
                exact ⟨rfl, rfl, Or.inr ⟨.unpin _, by simp, trivial, he⟩⟩
          · cases hst
        · cases hst
      · cases hst
  | drop id =>
      simp only [Replication.step, Replication.drop] at hst
      split at hst
      · cases hst
      · cases hst
        exact ⟨rfl, rfl, Or.inl rfl⟩
  | dumpShard id => exact rests_onLink hst
  | stream id => exact rests_onLink hst
  | ping id => exact rests_onLink hst
  | consume id n control => exact rests_onLink hst
  | purge id now user => exact rests_onLink hst
  | ack id => exact rests_onLink hst

theorem broadcast_eng (s : Replication ρ) (f : Frame) :
    (s.broadcast f).eng = s.eng ∧ (s.broadcast f).hooks = s.hooks ∧
      (s.broadcast f).late = s.late := by
  unfold Replication.broadcast
  split <;> exact ⟨rfl, rfl, rfl⟩

/-! ## Calls in step with events -/

/-- The condition on the steps of a run: the primary executes FLUSHALL apart from direct
commits, no batch with a FLUSHALL has a commit that writes, and calls are made in
commit order. -/
def InCommitOrder (s : Observed ρ) : ObsAct ρ → Prop
  | .repl (.engine act) => s.repl.eng.Ordinary act ∧
      ∀ io, act = .work .flusher io → ∀ j next, s.repl.eng.phase .flusher = .wiping j next →
        SHARD_COUNT ≤ next → j.err.isSome = true ∨ j.muts = []
  | .repl .call => s.repl.late.flatten = []
  | .repl (.callLate i) => (s.repl.late.take i).flatten = []
  | _ => True

/-- Calls are made, or due, for all events. -/
structure Told (ks : Keyspace) (s : Observed ρ) : Prop extends Callers s.repl where
  reflected : s.repl.eng.Reflected
  chronicle : s.repl.eng.Chronicle
  answered : s.repl.eng.Answered
  base : s.repl.eng.base = ks
  announces : Announces s.repl.eng.events (s.calls ++ s.repl.due)

theorem Told.of_repl
    {ks : Keyspace} {repl : Replication ρ} {calls : List Frame} {offline : List Link}
    (hcallers : Callers repl) (hreflected : repl.eng.Reflected) (hchronicle : repl.eng.Chronicle)
    (hanswered : repl.eng.Answered) (hbase : repl.eng.base = ks)
    (h : Announces repl.eng.events (calls ++ repl.due)) :
    Told ks ({ repl := repl, calls := calls, offline := offline } : Observed ρ) :=
  { toCallers := hcallers, reflected := hreflected, chronicle := hchronicle
    answered := hanswered, base := hbase, announces := h }

/-- The calls that a step of the engine makes due tell of the events that it adds. -/
theorem announces_events
    {e e' : Engine ρ} {fs new : List Frame} (ht : e.Timely)
    (hclean : ∀ j next, e.phase .flusher = .wiping j next → SHARD_COUNT ≤ next →
      new = [.flush] → j.err.isSome = true ∨ j.muts = [])
    (h : Announces e.events fs) (hev : e.EventStep e' new) :
    Announces e'.events (fs ++ new) := by
  cases hev with
  | quiet hsame =>
      rw [hsame, List.append_nil]
      exact h
  | applied j _ _ hevents =>
      rw [hevents, Job.events_applied]
      exact h.commits j.commits
  | wiped j next hp hle _ hevents =>
      have hj : (e.phase .flusher).job = some j := by rw [hp]; rfl
      obtain ⟨hres, _⟩ := ht.job_facts hj
      rw [hevents]
      refine h.wiped ?_ (hres.wiped_flush (ht.job_wipe_ran (by rw [hp]; trivial) hj))
      exact fun x hx => Job.wiped_muts (hclean j next hp hle rfl) hx

/-- A step of the engine. -/
theorem Told.advance
    {ks : Keyspace} {s : Observed ρ} {r : Replication ρ} {act : Act ρ} {new : List Frame}
    {offline : List Link} (h : Told ks s) (hok : s.repl.eng.Ordinary act)
    (ha : Advances s.repl r act new)
    (hclean : ∀ j next, s.repl.eng.phase .flusher = .wiping j next → SHARD_COUNT ≤ next →
      new = [.flush] → j.err.isSome = true ∨ j.muts = []) :
    Told ks ({ repl := r, calls := s.calls, offline := offline } : Observed ρ) := by
  refine Told.of_repl ?_ (h.reflected.step h.timely hok ha.step)
    (h.chronicle.step h.timely ha.step ha.events) (h.answered.step h.timely h.plain ha.step)
    (ha.base.trans h.base) ?_
  · exact
      { timely := h.timely.step hok ha.step
        plain := Engine.directPlain_step h.plain ha.step
        calling := ha.hooks
        late := ha.late }
  · rw [ha.due, ← List.append_assoc]
    exact announces_events h.timely hclean h.announces ha.events

/-- The next call is made. -/
theorem Told.call
    {ks : Keyspace} {s : Observed ρ} {r : Replication ρ} {f : Frame} {post : List Frame} {offline : List Link}
    (h : Told ks s) (heng : r.eng = s.repl.eng) (hdue : s.repl.due = f :: post)
    (hdue' : r.due = post) (hhooks : r.hooks ≠ [] → s.repl.hooks ≠ [])
    (hlate : r.late.flatten.filter (Frame.unpublished s.repl.eng.core.visible_ts) = []) :
    Told ks ({ repl := r, calls := s.calls ++ [f], offline := offline } : Observed ρ) := by
  refine Told.of_repl ?_ (heng ▸ h.reflected) (heng ▸ h.chronicle) (heng ▸ h.answered)
      (heng ▸ h.base) ?_
  · exact
      { timely := heng ▸ h.timely
        plain := heng ▸ h.plain
        calling := by rw [heng]; exact fun hne => h.calling (hhooks hne)
        late := by rw [heng]; exact hlate }
  · have hcalls : s.calls ++ [f] ++ r.due = s.calls ++ s.repl.due := by
      rw [hdue, hdue', List.append_assoc]
      rfl
    rw [hcalls, heng]
    exact h.announces

/-- What replicas do changes no calls. -/
theorem Told.rests
    {ks : Keyspace} {s : Observed ρ} {r : Replication ρ} {offline : List Link} (h : Told ks s)
    (hrests : Rests s.repl r) :
    Told ks ({ repl := r, calls := s.calls, offline := offline } : Observed ρ) := by
  obtain ⟨hhooks, hlate, heng⟩ := hrests
  have hdue : r.due = s.repl.due := by rw [Replication.due, Replication.due, hhooks, hlate]
  rcases heng with heng | ⟨act, hclient, hok, hst⟩
  · refine Told.of_repl ?_ (heng ▸ h.reflected) (heng ▸ h.chronicle) (heng ▸ h.answered)
      (heng ▸ h.base) ?_
    · exact
        { timely := heng ▸ h.timely
          plain := heng ▸ h.plain
          calling := by rw [heng, hhooks]; exact h.calling
          late := by rw [heng, hlate]; exact h.late }
    · rw [hdue, heng]
      exact h.announces
  · have hadvance := h.toCallers.client hok hclient hst
    have htold := @Told.advance ρ ks s _ act [] offline h hok hadvance (by simp)
    refine Told.of_repl ?_ htold.reflected htold.chronicle htold.answered htold.base ?_
    · exact
        { timely := htold.timely
          plain := htold.plain
          calling := by rw [hhooks]; exact htold.calling
          late := by rw [hlate]; exact htold.late }
    · rw [hdue]
      exact htold.announces

theorem Told.step
    {ks : Keyspace} {s s' : Observed ρ} {act : ObsAct ρ} (h : Told ks s) (hok : InCommitOrder s act)
    (hst : s.step act = some s') :
    Told ks s' := by
  cases act with
  | offline i how =>
      obtain ⟨l, _, hmap⟩ := Option.bind_eq_some_iff.mp hst
      obtain ⟨l', _, rfl⟩ := Option.map_eq_some_iff.mp hmap
      exact Told.of_repl h.toCallers h.reflected h.chronicle h.answered h.base h.announces
  | repl act =>
      obtain ⟨r, hr, rfl⟩ := Option.map_eq_some_iff.mp hst
      cases act with
      | engine act =>
          obtain ⟨new, ha⟩ := h.toCallers.engineStep hok.1 hr
          simp only [Observed.made, List.append_nil]
          refine h.advance hok.1 ha ?_
          intro j next hp hle hnew
          obtain ⟨io, hact⟩ := ha.flushes (by rw [hnew]; simp)
          exact hok.2 io hact j next hp hle
      | call =>
          simp only [Replication.step, Replication.call] at hr
          split at hr
          · cases hr
          · next f rest hhooks =>
              cases hr
              have hlate : s.repl.late.flatten = [] := hok
              obtain ⟨heng, hhooks', hlate'⟩ :=
                broadcast_eng ({ s.repl with hooks := rest } : Replication ρ) f
              simp only [Observed.made, hhooks, List.take_succ_cons, List.take_zero]
              refine @Told.call ρ ks s _ f rest _ h heng ?_ ?_ (fun _ => by rw [hhooks]; simp) ?_
              · rw [Replication.due, hlate, hhooks, List.nil_append]
              · rw [Replication.due, hlate', hhooks']
                simp only [hlate, List.nil_append]
              · rw [hlate']
                exact h.late
      | callLate i =>
          simp only [Replication.step, Replication.callLate] at hr
          split at hr
          · next f rest hlate =>
              cases hr
              obtain ⟨hbefore, hafter⟩ := flatten_set hlate
              have hfirst : (s.repl.late.take i).flatten = [] := hok
              rw [hfirst, List.nil_append] at hbefore hafter
              obtain ⟨heng, hhooks', hlate'⟩ :=
                broadcast_eng ({ s.repl with late := s.repl.late.set i rest } : Replication ρ) f
              simp only [Observed.made, hlate, Option.getD_some, List.take_succ_cons,
                List.take_zero]
              refine @Told.call ρ ks s _ f ((s.repl.late.set i rest).flatten ++ s.repl.hooks) _ h heng
                ?_ ?_ ?_ ?_
              · rw [Replication.due, hbefore, hafter]
                simp
              · rw [Replication.due, hlate', hhooks']
              · rw [hhooks']
                exact id
              · rw [hlate', hafter]
                have hpublished := h.late
                rw [hbefore, List.filter_cons] at hpublished
                split at hpublished
                · cases hpublished
                · exact hpublished
          · cases hr
      | _ =>
          simp only [Observed.made, List.append_nil]
          exact h.rests (rests_step hr (by simp) (by simp) (by simp))

/-! ## What a subscriber has seen -/

/-- The calls are the mutations of the events, each once and in their order, and a call
for every FLUSHALL between the mutations before it and those after it. -/
structure SeenInOrder (events : List Event) (calls : List Frame) : Prop where
  once : mutationsOf calls = events.flatMap Event.muts
  ordered : (mutationsOf calls).Pairwise fun m m' => m.ts ≤ m'.ts
  flushed : ∀ pre ts post, events = pre ++ .flush ts :: post →
    ∃ before after, calls = before ++ .flush :: after ∧
      mutationsOf before = pre.flatMap Event.muts ∧ mutationsOf after = post.flatMap Event.muts
  notified : ∀ before after, calls = before ++ .flush :: after →
    ∃ pre ts post, events = pre ++ .flush ts :: post ∧
      mutationsOf before = pre.flatMap Event.muts ∧ mutationsOf after = post.flatMap Event.muts

theorem seenInOrder_of_announces
    {es : List Event} {fs : List Frame} (h : Announces es fs)
    (hsorted : es.Pairwise fun a b => a.ts < b.ts)
    (hstamped : ∀ e ∈ es, ∀ m ∈ e.muts, m.ts = e.ts) :
    SeenInOrder es fs where
  once := h.mutations
  ordered := by
    rw [h.mutations, List.pairwise_flatMap]
    constructor
    · intro e he
      refine List.pairwise_of_forall_mem_list ?_
      intro m hm m' hm'
      rw [hstamped e he m hm, hstamped e he m' hm']
    · refine hsorted.imp_of_mem ?_
      intro e e' he he' hlt m hm m' hm'
      rw [hstamped e he m hm, hstamped e' he' m' hm']
      exact hlt.le
  flushed := fun _ _ _ heq => h.flushed heq
  notified := fun _ _ heq => h.notified heq

theorem told_start (o : Opened) (sync_writes : Bool) :
    Told o.keyspace (Observed.start o sync_writes : Observed ρ) where
  timely := Engine.timely_start o sync_writes
  plain := by intro pw hpw; cases hpw
  calling := fun hne => absurd rfl hne
  late := rfl
  reflected := Engine.reflected_start o sync_writes
  chronicle := Engine.chronicle_start o sync_writes
  answered := Engine.answered_start o sync_writes
  base := rfl
  announces := .nil

/-- What a subscriber has seen, with the calls that it is about to get. -/
structure CommitOrderSeen (o : Opened) (s : Observed ρ) : Prop where
  answered : ∀ r ∈ s.repl.eng.replies, r.2.IsOk → ∃ e ∈ s.repl.eng.history, e.ts = r.1
  seen : SeenInOrder s.repl.eng.events (s.calls ++ s.repl.due)
  /-- A consumer that has got all calls holds the live keyspace. -/
  live : s.repl.due = [] → ∀ k, ¬ s.repl.eng.Unsettled k →
    replay o.keyspace.value s.calls k = s.repl.eng.core.latestValue k

/-- Two direct commits of one key, the calls of the second first. -/
def swappedCalls : List (ReplAct Unit) :=
  [.engine (.submit (setRequest 1))] ++ directWorks 36 ++
    [.engine (.submit (setRequest 2))] ++ directWorks 36 ++ [.callLate 1, .callLate 0]

/-- A test that only steps in commit order pass. -/
def inCommitOrderStep (s : Observed ρ) : ObsAct ρ → Bool
  | .repl (.engine act) => s.repl.eng.ordinaryStep act &&
      match s.repl.eng.phase .flusher with
      | .wiping j _ => j.muts.isEmpty
      | _ => true
  | .repl .call => s.repl.late.flatten.isEmpty
  | .repl (.callLate i) => i = 0
  | _ => true

theorem inCommitOrder_of_step
    {s : Observed ρ} {act : ObsAct ρ} (h : inCommitOrderStep s act = true) :
    InCommitOrder s act := by
  cases act with
  | offline i how => trivial
  | repl act =>
      cases act with
      | engine act =>
          rw [inCommitOrderStep, Bool.and_eq_true] at h
          refine ⟨Engine.ordinary_of_ordinaryStep h.1, ?_⟩
          intro io _ j next hp _
          have hmuts := h.2
          rw [hp] at hmuts
          exact Or.inr (List.isEmpty_iff.mp hmuts)
      | call => exact List.isEmpty_iff.mp h
      | callLate i =>
          have hi : i = 0 := of_decide_eq_true h
          rw [hi]
          rfl
      | _ => trivial

/-- A commit, a FLUSHALL and a commit. -/
def flushBetween : List (ReplAct Unit) :=
  request (setRequest 3) 38 ++ [.call] ++ publish ++ request (.flush_all "bak") 38 ++
    [.call] ++ publish ++ request (setRequest 7) 38 ++ [.call] ++ publish

end Repl
end StrikeDB
