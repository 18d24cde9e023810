import StrikeDB.Subscribers

/-!
# StrikeDB: events and the calls for them

`Engine.events` is the published history with the batch whose calls are due.

* `EventStep`: a step of the engine adds no event, or makes due the calls for the
  events that it adds (`event_step_flusher`, `event_step_direct`,
  `event_step_client`).
* `Announces`: calls tell of events, in order.
* `Chronicle`: events stand in timestamp order.
-/

namespace StrikeDB

open Repl

def Repl.Frame.mutation? : Frame → Option Mutation
  | .mutation m => some m
  | .flush => none

/-- The mutations among calls. -/
def Repl.mutationsOf (fs : List Frame) : List Mutation := fs.filterMap Frame.mutation?

namespace Event

def muts : Event → List Mutation
  | commit _ ms => ms
  | flush _ => []

end Event

/-! ## Calls that tell of events -/

/-- The calls tell of the events, in order.  FLUSHALLs with nothing written between them may
share one call. -/
inductive Announces : List Event → List Frame → Prop
  | nil : Announces [] []
  | commit {es : List Event} {fs : List Frame} (h : Announces es fs) (ts : Nat)
      (ms : List Mutation) : Announces (es ++ [.commit ts ms]) (fs ++ ms.map .mutation)
  | flush {es : List Event} {fs : List Frame} (h : Announces es fs) (ts : Nat) :
      Announces (es ++ [.flush ts]) (fs ++ [.flush])
  | again {es : List Event} {fs : List Frame} (h : Announces es (fs ++ [.flush])) (ts : Nat) :
      Announces (es ++ [.flush ts]) (fs ++ [.flush])

@[simp] theorem mutationsOf_nil : mutationsOf [] = [] := rfl

@[simp] theorem mutationsOf_append (fs fs' : List Frame) :
    mutationsOf (fs ++ fs') = mutationsOf fs ++ mutationsOf fs' := List.filterMap_append

@[simp] theorem mutationsOf_flush (fs : List Frame) :
    mutationsOf (.flush :: fs) = mutationsOf fs := rfl

@[simp] theorem mutationsOf_map (ms : List Mutation) :
    mutationsOf (ms.map .mutation) = ms := by
  rw [mutationsOf, List.filterMap_map]
  exact List.filterMap_some

theorem flush_not_mem_map (ms : List Mutation) : Frame.flush ∉ ms.map .mutation := by
  simp

namespace Announces

variable {es : List Event} {fs : List Frame}

/-- Every mutation is told exactly once. -/
theorem mutations (h : Announces es fs) : mutationsOf fs = es.flatMap Event.muts := by
  induction h with
  | nil => rfl
  | commit _ ts ms ih => simp [ih, Event.muts]
  | flush _ ts ih => simp [ih, Event.muts]
  | again _ ts ih =>
      rw [ih]
      simp [Event.muts]

/-- A consumer ends with the keyspace that the events make. -/
theorem replay_value (h : Announces es fs) (ks : Keyspace) :
    replay ks.value fs = (ks.after es).value := by
  have hempty : (∅ : Keyspace).value = fun _ => none := by
    funext k
    simp [Keyspace.value]
  induction h with
  | nil => rfl
  | commit _ ts ms ih =>
      rw [replay_append, ih, Keyspace.after_append, replay_muts]
      rfl
  | flush _ ts ih =>
      rw [replay_append, Keyspace.after_append]
      exact hempty.symm
  | again _ ts ih =>
      rw [replay_append, Keyspace.after_append]
      exact hempty.symm

/-- Where the list splits before its last part. -/
theorem split_snoc
    {α : Type} {xs ys zs : List α} {y z : α} (h : xs ++ [z] = ys ++ y :: zs) :
    (zs = [] ∧ y = z ∧ ys = xs) ∨ ∃ zs', zs = zs' ++ [z] ∧ xs = ys ++ y :: zs' := by
  rcases List.eq_nil_or_concat zs with rfl | ⟨zs', z', rfl⟩
  · obtain ⟨rfl, hz⟩ := List.append_inj' h rfl
    exact Or.inl ⟨rfl, by simpa using hz.symm, rfl⟩
  · rw [List.concat_eq_append] at h ⊢
    have hcons : xs ++ [z] = (ys ++ y :: zs') ++ [z'] := by simpa using h
    obtain ⟨rfl, hz⟩ := List.append_inj' hcons rfl
    exact Or.inr ⟨zs', by simpa using hz.symm, rfl⟩

/-- A FLUSHALL is told of between the commits before it and those after it. -/
theorem flushed
    (h : Announces es fs) {pre post : List Event} {ts : Nat} (hes : es = pre ++ .flush ts :: post) :
    ∃ before after, fs = before ++ .flush :: after ∧
      mutationsOf before = pre.flatMap Event.muts ∧
      mutationsOf after = post.flatMap Event.muts := by
  induction h generalizing post with
  | nil => simp at hes
  | @commit es fs _ ts' ms ih =>
      rcases split_snoc hes with ⟨_, heq, _⟩ | ⟨post', rfl, heq⟩
      · cases heq
      · obtain ⟨before, after, rfl, hbefore, hafter⟩ := ih heq
        exact ⟨before, after ++ ms.map .mutation, by simp, hbefore, by simp [hafter, Event.muts]⟩
  | @flush es fs h ts' ih =>
      rcases split_snoc hes with ⟨rfl, _, rfl⟩ | ⟨post', rfl, heq⟩
      · exact ⟨fs, [], rfl, h.mutations, rfl⟩
      · obtain ⟨before, after, rfl, hbefore, hafter⟩ := ih heq
        exact ⟨before, after ++ [.flush], by simp, hbefore, by simp [hafter, Event.muts]⟩
  | @again es fs h ts' ih =>
      rcases split_snoc hes with ⟨rfl, _, rfl⟩ | ⟨post', rfl, heq⟩
      · refine ⟨fs, [], rfl, ?_, rfl⟩
        rw [← h.mutations]
        simp
      · obtain ⟨before, after, hfs, hbefore, hafter⟩ := ih heq
        exact ⟨before, after, hfs, hbefore, by simp [hafter, Event.muts]⟩

/-- There is no call for a FLUSHALL without one. -/
theorem notified
    (h : Announces es fs) {before after : List Frame} (hfs : fs = before ++ .flush :: after) :
    ∃ pre ts post, es = pre ++ .flush ts :: post ∧
      mutationsOf before = pre.flatMap Event.muts ∧
      mutationsOf after = post.flatMap Event.muts := by
  induction h generalizing after with
  | nil => simp at hfs
  | @commit es fs _ ts' ms ih =>
      rw [List.append_eq_append_iff] at hfs
      rcases hfs with ⟨l, hl, hms⟩ | ⟨l, hl, hms⟩
      · exact absurd (by rw [hms]; simp) (flush_not_mem_map ms)
      · cases l with
        | nil => exact absurd (by rw [← List.nil_append (ms.map _), ← hms]; simp) (flush_not_mem_map ms)
        | cons f l =>
            rw [List.cons_append, List.cons.injEq] at hms
            obtain ⟨rfl, rfl⟩ := hms
            obtain ⟨pre, ts, post, rfl, hbefore, hafter⟩ := ih hl
            exact ⟨pre, ts, post ++ [.commit ts' ms], by simp, hbefore,
              by simp [hafter, Event.muts]⟩
  | @flush es fs h ts' ih =>
      rcases split_snoc hfs with ⟨rfl, _, rfl⟩ | ⟨after', rfl, heq⟩
      · exact ⟨es, ts', [], rfl, h.mutations, rfl⟩
      · obtain ⟨pre, ts, post, rfl, hbefore, hafter⟩ := ih heq
        exact ⟨pre, ts, post ++ [.flush ts'], by simp, hbefore, by simp [hafter, Event.muts]⟩
  | @again es fs h ts' ih =>
      obtain ⟨pre, ts, post, rfl, hbefore, hafter⟩ := ih hfs
      exact ⟨pre, ts, post ++ [.flush ts'], by simp, hbefore, by simp [hafter, Event.muts]⟩

/-- The commits of a batch. -/
theorem commits (h : Announces es fs) (cs : List (Nat × List Mutation)) :
    Announces (es ++ cs.map fun c => .commit c.1 c.2)
      (fs ++ (cs.flatMap Prod.snd).map .mutation) := by
  induction cs generalizing es fs with
  | nil => simpa using h
  | cons c cs ih => simpa using ih (h.commit c.1 c.2)

/-- FLUSHALLs, and commits that write nothing, behind a FLUSHALL. -/
theorem quiet
    (h : Announces es (fs ++ [.flush])) {new : List Event} (hnew : ∀ e ∈ new, e.muts = []) :
    Announces (es ++ new) (fs ++ [.flush]) := by
  induction new generalizing es with
  | nil => simpa using h
  | cons e new ih =>
      rw [List.forall_mem_cons] at hnew
      obtain ⟨he, hnew⟩ := hnew
      have hone : Announces (es ++ [e]) (fs ++ [.flush]) := by
        cases e with
        | commit ts ms =>
            have hms : ms = [] := he
            simpa [hms] using h.commit ts ms
        | flush ts => exact h.again ts
      simpa using ih hone hnew

/-- A batch with a FLUSHALL in which nothing is written. -/
theorem wiped
    (h : Announces es fs) {new : List Event} (hnew : ∀ e ∈ new, e.muts = [])
    (hflush : ∃ e ∈ new, e.isFlush = true) :
    Announces (es ++ new) (fs ++ [.flush]) := by
  induction new generalizing es with
  | nil => simp at hflush
  | cons e new ih =>
      rw [List.forall_mem_cons] at hnew
      obtain ⟨he, hnew⟩ := hnew
      cases e with
      | commit ts ms =>
          have hms : ms = [] := he
          have hone : Announces (es ++ [.commit ts ms]) fs := by simpa [hms] using h.commit ts ms
          have hrest : ∃ e ∈ new, e.isFlush = true := by simpa [Event.isFlush] using hflush
          simpa using ih hone hnew hrest
      | flush ts => simpa using (h.flush ts).quiet hnew

end Announces

/-! ## The events of a batch -/

namespace Job

variable {ρ : Type} {j : Job ρ}

/-- In a batch with a FLUSHALL nothing is written, unless a commit has done it. -/
theorem wiped_muts
    (h : j.err.isSome = true ∨ j.muts = []) {e : Event} (he : e ∈ j.events .wiped) :
    e.muts = [] := by
  obtain ⟨x, hx, hev⟩ := List.mem_filterMap.mp he
  simp only [event] at hev
  split at hev
  · cases hev
    rfl
  · split at hev
    · cases hev
    · next herr =>
        obtain ⟨ms, hms, rfl⟩ := Option.map_eq_some_iff.mp hev
        obtain ⟨r, hr, hrms⟩ := Option.bind_eq_some_iff.mp hms
        have hmem : (x.1.ts, ms) ∈ j.commits := mem_commits.mpr ⟨x, hx, ⟨r, hr, hrms⟩, rfl⟩
        rcases h with h | h
        · exact absurd h herr
        · exact List.flatMap_eq_nil_iff.mp h _ hmem

/-- A batch with a FLUSHALL has an event for it. -/
theorem IsResolved.wiped_flush
    (h : j.IsResolved) (hw : j.wipe_ran = true) :
    ∃ e ∈ j.events .wiped, e.isFlush = true := by
  obtain ⟨pw, hpw, hf⟩ := List.any_eq_true.mp hw
  rw [← h.map_fst] at hpw
  obtain ⟨x, hx, rfl⟩ := List.mem_map.mp hpw
  exact ⟨.flush x.1.ts, List.mem_filterMap.mpr ⟨x, hx, if_pos hf⟩, rfl⟩

/-- What an event of a job writes carries its timestamp. -/
theorem IsResolved.event_stamped
    (h : j.IsResolved) (hpw : ∀ pw ∈ j.batch, ∀ m ∈ pw.muts, m.ts = pw.ts) {effect : Effect}
    {e : Event} (he : e ∈ j.events effect) :
    ∀ m ∈ e.muts, m.ts = e.ts := by
  have hcommit : ∀ x ∈ j.batch.zip j.outcomes, ∀ ms, (x.2.bind fun r => r.muts x.1) = some ms →
      ∀ m ∈ ms, m.ts = x.1.ts := by
    intro x hx ms hms
    obtain ⟨r, hr, hrms⟩ := Option.bind_eq_some_iff.mp hms
    have hmem : (x.1.ts, ms) ∈ j.commits := mem_commits.mpr ⟨x, hx, ⟨r, hr, hrms⟩, rfl⟩
    exact h.commits_ts hpw hmem
  obtain ⟨x, hx, hev⟩ := List.mem_filterMap.mp he
  cases effect with
  | nothing => cases hev
  | applied =>
      obtain ⟨ms, hms, rfl⟩ := Option.map_eq_some_iff.mp hev
      exact hcommit x hx ms hms
  | wiped =>
      simp only [event] at hev
      split at hev
      · cases hev
        intro m hm
        cases hm
      · split at hev
        · cases hev
        · obtain ⟨ms, hms, rfl⟩ := Option.map_eq_some_iff.mp hev
          exact hcommit x hx ms hms

end Job

/-! ## The events of a running engine -/

section Events

variable {ρ : Type}

/-- The events of the batch that the thread has made the calls due for. -/
def Phase.announcing : Phase ρ → List Event
  | .publishing j effect => j.events effect
  | _ => []

namespace Engine

/-- What has happened, and what the flusher has made the calls due for. -/
def events (s : Engine ρ) : List Event := s.history ++ (s.phase .flusher).announcing

theorem told_eq (s : Engine ρ) : s.told = s.base.after s.events := by
  rw [told, events, Keyspace.after_append]
  cases s.phase .flusher <;> rfl

/-- The events that a step adds, and the calls that it makes due. -/
inductive EventStep (s s' : Engine ρ) : List Frame → Prop
  | quiet (h : s'.events = s.events) : EventStep s s' []
  | applied {a : Actor} (j : Job ρ) (hj : (s.phase a).job = some j) (hold : s.events = s.history)
      (h : s'.events = s.events ++ j.events .applied) :
      EventStep s s' (Job.calls j)
  | wiped (j : Job ρ) (next : Nat) (hp : s.phase .flusher = .wiping j next)
      (hle : SHARD_COUNT ≤ next) (hold : s.events = s.history)
      (h : s'.events = s.events ++ j.events .wiped) :
      EventStep s s' [.flush]

theorem EventStep.cast
    {s s' : Engine ρ} {fs fs' : List Frame} (h : EventStep s s' fs) (heq : fs = fs') :
    EventStep s s' fs' := heq ▸ h

/-- A step of the flusher. -/
theorem event_step_flusher {s s' : Engine ρ} {io : Io} (hw : Works s .flusher io s') :
    EventStep s s' (flusherCalls (s.phase .flusher) (s'.phase .flusher)) := by
  have hquiet : ∀ (s₁ : Engine ρ) (q p : Phase ρ), s.phase .flusher = q →
      s₁.history = s.history → p.announcing = q.announcing → flusherCalls q p = [] →
      EventStep s (s₁.setPhase .flusher p)
        (flusherCalls (s.phase .flusher) ((s₁.setPhase .flusher p).phase .flusher)) := by
    intro s₁ q p hq hhist hsame hcalls
    rw [setPhase_phase_self, hq, hcalls]
    refine .quiet ?_
    rw [events, events, setPhase_phase_self, hq, hsame, ← hhist]
    rfl
  cases hw with
  | horizon hp => exact hquiet _ _ _ hp rfl rfl rfl
  | noSweep hp _ => exact hquiet _ _ _ hp rfl rfl rfl
  | ready hp => exact hquiet _ _ _ hp rfl rfl rfl
  | @sweep batch e ready n n' hp =>
      exact hquiet { s with core := s.core.sweep_remove e } _ _ hp rfl rfl rfl
  | @swept batch n hp =>
      exact hquiet { s with core := { s.core with gc_horizon := max s.core.gc_horizon n } } _ _ hp
        rfl rfl rfl
  | resolve hp => exact hquiet _ _ _ hp rfl rfl rfl
  | @log j wal core result hp hlog =>
      obtain ⟨err, ⟨heq, _⟩ | ⟨heq, _⟩ | heq⟩ := afterLog_cases j result <;> rw [heq]
      · exact hquiet _ _ _ hp rfl rfl rfl
      · exact hquiet _ _ _ hp rfl rfl rfl
      · exact hquiet _ _ _ hp rfl Job.events_nothing rfl
  | flushFailed wal e hp => exact hquiet _ _ _ hp rfl Job.events_nothing rfl
  | flushFiles hp => exact hquiet _ _ _ hp rfl rfl rfl
  | @wipe j next hp hlt =>
      exact hquiet { s with core := s.core.clear_shard ⟨next, hlt⟩ } _ _ hp rfl rfl rfl
  | @wiped j next hp hle =>
      have hold : s.events = s.history := by rw [events, hp]; exact List.append_nil _
      refine EventStep.cast (.wiped j next hp hle hold ?_) (by rw [setPhase_phase_self, hp]; rfl)
      rw [hold, events, setPhase_phase_self]
      rfl
  | skip hp _ _ => exact hquiet _ _ _ hp rfl rfl rfl
  | lock hp _ => exact hquiet _ _ _ hp rfl rfl rfl
  | @push j next active hp hlt =>
      exact hquiet { s with core := s.core.apply_shard ⟨next, hlt⟩ j.muts active } _ _ hp rfl rfl
        rfl
  | @applied j next hp _ =>
      have hold : s.events = s.history := by rw [events, hp]; exact List.append_nil _
      refine EventStep.cast (.applied (a := .flusher) j (by rw [hp]; rfl) hold ?_)
        (by rw [setPhase_phase_self, hp]; rfl)
      rw [hold, events, setPhase_phase_self]
      rfl
  | @publish j effect hp =>
      have hnext : afterPublish .flusher j effect = .idle := rfl
      rw [hnext, setPhase_phase_self, hp]
      refine .quiet ?_
      rw [events, events, setPhase_phase_self, hp]
      exact List.append_nil _

/-- A step of the client that commits directly, while the flusher has nothing to do. -/
theorem event_step_direct
    {s s' : Engine ρ} {io : Io} (ht : s.Timely) (hplain : s.DirectPlain)
    (hw : Works s .direct io s') :
    EventStep s s' (directCalls (s.phase .direct)).flatten := by
  have hidle : s.phase .flusher = .idle := by
    refine ht.other_idle (a := .direct) ?_
    intro hidle
    cases hw <;> simp_all
  have hevents : ∀ (s₁ : Engine ρ) (p : Phase ρ), s₁.phase = s.phase →
      (s₁.setPhase .direct p).events = s₁.history := by
    intro s₁ p hphase
    have hf : (s₁.setPhase .direct p).phase .flusher = .idle := by
      rw [← hidle, ← hphase]
      exact setPhase_phase_other s₁ .direct p
    rw [events, hf]
    exact List.append_nil _
  have hbefore : s.events = s.history := by
    rw [events, hidle]
    exact List.append_nil _
  have hquiet : ∀ (s₁ : Engine ρ) (p : Phase ρ), s₁.phase = s.phase → s₁.history = s.history →
      directCalls (s.phase .direct) = [] →
      EventStep s (s₁.setPhase .direct p) (directCalls (s.phase .direct)).flatten := by
    intro s₁ p hphase hhist hcalls
    rw [hcalls]
    refine .quiet ?_
    rw [hevents s₁ p hphase, hbefore, hhist]
  cases hw with
  | @publish j effect hp =>
      cases effect with
      | applied =>
          refine EventStep.cast (.applied (a := .direct) j (by rw [hp]; rfl) hbefore ?_)
            (by rw [hp]; simp [directCalls])
          rw [hevents _ _ (by rfl), hbefore]
      | wiped => exact absurd (by rw [hp]; trivial) (ht.direct_not_wipes hplain)
      | nothing =>
          refine EventStep.cast (.quiet ?_) (by rw [hp]; rfl)
          rw [hevents _ _ (by rfl), hbefore, Job.events_nothing]
          exact List.append_nil _
  | @sweep batch e ready n n' hp =>
      exact hquiet { s with core := s.core.sweep_remove e } _ rfl rfl (by rw [hp]; rfl)
  | @swept batch n hp =>
      exact hquiet { s with core := { s.core with gc_horizon := max s.core.gc_horizon n } } _ rfl
        rfl (by rw [hp]; rfl)
  | wipe hp _ => exact absurd (by rw [hp]; trivial) (ht.direct_not_wipes hplain)
  | wiped hp _ => exact absurd (by rw [hp]; trivial) (ht.direct_not_wipes hplain)
  | @push j next active hp hlt =>
      exact hquiet { s with core := s.core.apply_shard ⟨next, hlt⟩ j.muts active } _ rfl rfl
        (by rw [hp]; rfl)
  | horizon hp | noSweep hp _ | ready hp | resolve hp | log hp _ | flushFailed _ _ hp
  | flushFiles hp | skip hp _ _ | lock hp _ | applied hp _ =>
      exact hquiet _ _ rfl rfl (by rw [hp]; rfl)

theorem base_works {s s' : Engine ρ} {a : Actor} {io : Io} (hw : Works s a io s') :
    s'.base = s.base := by
  cases hw <;> rfl

/-- Clients add no event. -/
theorem event_step_client
    {s s' : Engine ρ} {act : Act ρ} (hclient : ∀ a io, act ≠ .work a io) (hst : Step s act s') :
    s'.events = s.events ∧ s'.base = s.base := by
  have hhist : s'.history = s.history ∧ s'.base = s.base := by
    cases hst with
    | txnCommit _ _ hs => cases hs <;> exact ⟨rfl, rfl⟩
    | submit hs => cases hs <;> exact ⟨rfl, rfl⟩
    | work hw => exact absurd rfl (hclient _ _)
    | _ => exact ⟨rfl, rfl⟩
  refine ⟨?_, hhist.2⟩
  rw [events, events, hhist.1]
  rcases flusher_client hclient hst with heq | ⟨hidle, heq⟩
  · rw [heq]
  · rw [heq, hidle]
    rfl

/-! ### The order of events -/

/-- Events stand in timestamp order, and what they write carries their timestamps. -/
structure Chronicle (s : Engine ρ) : Prop where
  sorted : s.events.Pairwise fun a b => a.ts < b.ts
  bound : ∀ e ∈ s.history, e.ts ≤ s.core.visible_ts
  stamped : ∀ e ∈ s.events, ∀ m ∈ e.muts, m.ts = e.ts

theorem Chronicle.append
    {s s' : Engine ρ} (h : s.Chronicle) (ht : s.Timely) {a : Actor} {j : Job ρ} {effect : Effect}
    (hj : (s.phase a).job = some j) (hold : s.events = s.history)
    (hevents : s'.events = s.events ++ j.events effect) :
    s'.events.Pairwise (fun a b => a.ts < b.ts) ∧ ∀ e ∈ s'.events, ∀ m ∈ e.muts, m.ts = e.ts := by
  obtain ⟨hres, hsorted, hfresh, hpw, _⟩ := ht.job_facts hj
  rw [hevents]
  constructor
  · refine List.pairwise_append.mpr ⟨h.sorted, hres.events_sorted hsorted effect, ?_⟩
    intro e he e' he'
    obtain ⟨pw, hpw', hts⟩ := Job.event_ts_mem he'
    rw [hold] at he
    rw [← hts]
    exact (h.bound e he).trans_lt (hfresh pw hpw')
  · intro e he
    rcases List.mem_append.mp he with he | he
    · exact h.stamped e he
    · exact hres.event_stamped hpw he

theorem Chronicle.step
    {s s' : Engine ρ} {act : Act ρ} {new : List Frame} (h : s.Chronicle) (ht : s.Timely)
    (hst : Step s act s') (hev : EventStep s s' new) :
    s'.Chronicle := by
  have hbound : ∀ e ∈ s'.history, e.ts ≤ s'.core.visible_ts := by
    have hmono := visible_ts_mono hst
    intro e he
    rcases keyspace_step hst with ⟨_, hhist, _⟩ | ⟨a, j, effect, _, hhist, _, _, hvis, _⟩
    · rw [hhist] at he
      exact (h.bound e he).trans hmono
    · rw [hhist] at he
      rcases List.mem_append.mp he with he | he
      · exact (h.bound e he).trans hmono
      · obtain ⟨pw, hpw, hts⟩ := Job.event_ts_mem he
        rw [hvis, ← hts]
        exact (le_batchMaxTs hpw).trans (Nat.le_max_right _ _)
  have happend : s'.events.Pairwise (fun a b => a.ts < b.ts) ∧
      ∀ e ∈ s'.events, ∀ m ∈ e.muts, m.ts = e.ts := by
    cases hev with
    | quiet hsame =>
        rw [hsame]
        exact ⟨h.sorted, h.stamped⟩
    | applied j hj hold hevents => exact h.append ht hj hold hevents
    | wiped j next hp _ hold hevents => exact h.append ht (a := .flusher) (by rw [hp]; rfl) hold hevents
  exact ⟨happend.1, hbound, happend.2⟩

/-! ### Answers -/

end Engine

/-- A batch that is applied has no FLUSHALL. -/
def Phase.Unwiped : Phase ρ → Prop
  | .applying j _ _ => j.wipe_ran = false
  | .publishing j .applied => j.wipe_ran = false
  | _ => True

namespace Engine

theorem unwiped_works
    {s s' : Engine ρ} {a : Actor} {io : Io} (h : ∀ a, (s.phase a).Unwiped)
    (hplain : s.DirectPlain) (hw : Works s a io s') :
    ∀ a, (s'.phase a).Unwiped := by
  have hset : ∀ (s₁ : Engine ρ) (p : Phase ρ), s₁.phase = s.phase → p.Unwiped →
      ∀ b, ((s₁.setPhase a p).phase b).Unwiped := by
    intro s₁ p hphase hp b
    by_cases hb : b = a
    · rw [hb, setPhase_phase_self]
      exact hp
    · have hother : b = a.other := by cases a <;> cases b <;> simp_all [Actor.other]
      rw [hother, setPhase_phase_other, hphase]
      exact h a.other
  have ha := h a
  cases hw with
  | horizon _ => exact hset _ _ rfl trivial
  | @noSweep batch _ _ _ =>
      rcases afterSweep_cases a batch with heq | heq <;> rw [heq] <;> exact hset _ _ rfl trivial
  | ready _ => exact hset _ _ rfl trivial
  | @sweep batch e ready n n' hp =>
      exact hset { s with core := s.core.sweep_remove e } _ rfl trivial
  | @swept batch n hp =>
      rcases afterSweep_cases a batch with heq | heq <;> rw [heq] <;> exact hset _ _ rfl trivial
  | @resolve batch hp =>
      cases a with
      | flusher => exact hset _ _ rfl trivial
      | direct =>
          rcases afterResolve_cases .direct
            { batch := batch, outcomes := resolveBatch s.core batch, err := none } with
            heq | heq | heq <;> rw [heq]
          · exact hset _ _ rfl trivial
          · refine hset _ _ rfl ?_
            rw [Phase.Unwiped, Job.wipe_ran, List.any_eq_false]
            intro pw hpw
            rw [hplain pw (by rw [hp]; exact hpw)]
            simp
          · exact hset _ _ rfl trivial
  | @log j wal core result hp _ =>
      obtain ⟨err, ⟨heq, _⟩ | ⟨heq, hwr⟩ | heq⟩ := afterLog_cases j result <;> rw [heq]
      · exact hset _ _ rfl trivial
      · exact hset _ _ rfl hwr
      · exact hset _ _ rfl trivial
  | flushFailed _ _ _ => exact hset _ _ rfl trivial
  | flushFiles _ => exact hset _ _ rfl trivial
  | @wipe j next hp hlt =>
      exact hset { s with core := s.core.clear_shard ⟨next, hlt⟩ } _ rfl trivial
  | wiped _ _ => exact hset _ _ rfl trivial
  | skip hp _ _ =>
      rw [hp] at ha
      exact hset _ _ rfl ha
  | lock hp _ =>
      rw [hp] at ha
      exact hset _ _ rfl ha
  | @push j next active hp hlt =>
      rw [hp] at ha
      exact hset { s with core := s.core.apply_shard ⟨next, hlt⟩ j.muts active } _ rfl ha
  | applied hp _ =>
      rw [hp] at ha
      exact hset _ _ rfl ha
  | @publish j effect hp =>
      rcases afterPublish_cases a j effect with heq | heq <;> rw [heq] <;> exact hset _ _ rfl trivial

theorem unwiped_step
    {s s' : Engine ρ} {act : Act ρ} (h : ∀ a, (s.phase a).Unwiped) (hplain : s.DirectPlain)
    (hst : Step s act s') :
    ∀ a, (s'.phase a).Unwiped := by
  have hset : ∀ (s₁ : Engine ρ) (a : Actor) (p : Phase ρ), s₁.phase = s.phase → p.Unwiped →
      ∀ b, ((s₁.setPhase a p).phase b).Unwiped := by
    intro s₁ a p hphase hp b
    by_cases hb : b = a
    · rw [hb, setPhase_phase_self]
      exact hp
    · have hother : b = a.other := by cases a <;> cases b <;> simp_all [Actor.other]
      rw [hother, setPhase_phase_other, hphase]
      exact h a.other
  have hsub : ∀ {mk s₁}, Submits s mk s₁ → ∀ a, (s₁.phase a).Unwiped := by
    intro mk s₁ hsub
    cases hsub with
    | queued _ _ => exact h
    | direct _ _ _ _ => exact hset { s with clock := s.clock + 1 } _ _ rfl trivial
  cases hst with
  | @txnCommit _ _ s₁ _ _ hs =>
      have h₁ := hsub hs
      exact h₁
  | submit hs => exact hsub hs
  | drain _ _ => exact hset { s with write_queue := [] } _ _ rfl trivial
  | work hw => exact unwiped_works h hplain hw
  | _ => exact h

/-- A success in a batch that has an effect is an event. -/
theorem event_of_reply
    {j : Job ρ} {effect : Effect} (hres : j.IsResolved) (hne : effect ≠ .nothing)
    (happlied : effect = .applied → j.wipe_ran = false)
    {r : Nat × Reply ρ} (hr : r ∈ j.replies) (hok : r.2.IsOk) :
    ∃ e ∈ j.events effect, e.ts = r.1 := by
  obtain ⟨⟨pw, out⟩, hx, rfl⟩ := List.mem_map.mp hr
  obtain ⟨herr, hout⟩ := Job.reply_isOk hok
  rcases hout with hnone | ⟨m, v, o, happ⟩
  · have hflush : pw.flush_all.isSome = true := (hres.none_iff hx).mp hnone
    cases effect with
    | nothing => exact absurd rfl hne
    | applied =>
        have hnot := List.any_eq_false.mp (happlied rfl) pw (Job.fst_mem_batch hx)
        exact absurd hflush hnot
    | wiped => exact ⟨.flush pw.ts, List.mem_filterMap.mpr ⟨_, hx, if_pos hflush⟩, rfl⟩
  · have hout : out = some (.apply m v o) := happ
    have hplain : pw.flush_all = none := by
      rw [← Option.not_isSome_iff_eq_none]
      intro hsome
      have hnone : out = none := (hres.none_iff hx).mpr hsome
      rw [hnone] at hout
      cases hout
    have hms : ∃ ms, (Resolved.apply m v o).muts pw = some ms := by
      cases m with
      | none => exact ⟨_, rfl⟩
      | some ms => exact ⟨ms, rfl⟩
    obtain ⟨ms, hms⟩ := hms
    rw [hout] at hx
    exact ⟨_, commit_mem_events hne herr hx hplain hms, rfl⟩

/-- Every success that was answered is in the history. -/
structure Answered (s : Engine ρ) : Prop where
  shaped : s.Shaped
  unwiped : ∀ a, (s.phase a).Unwiped
  answered : ∀ r ∈ s.replies, r.2.IsOk → ∃ e ∈ s.history, e.ts = r.1

theorem Answered.step
    {s s' : Engine ρ} {act : Act ρ} (h : s.Answered) (ht : s.Timely) (hplain : s.DirectPlain)
    (hst : Step s act s') :
    s'.Answered := by
  refine ⟨h.shaped.step hst, unwiped_step h.unwiped hplain hst, ?_⟩
  intro r hr hok
  rcases keyspace_step hst with ⟨_, hhist, hreplies⟩ | ⟨a, j, effect, hp, hhist, hreplies, _⟩
  · rw [hreplies] at hr
    rw [hhist]
    exact h.answered r hr hok
  · rw [hreplies] at hr
    rw [hhist]
    rcases List.mem_append.mp hr with hr | hr
    · obtain ⟨e, he, hts⟩ := h.answered r hr hok
      exact ⟨e, List.mem_append_left _ he, hts⟩
    · have hbusy := ht.busy_eq (a := a) (by simp [hp])
      rw [hp] at hbusy
      obtain ⟨hres, _⟩ := ht.job_facts (a := a) (j := j) (by rw [hp]; rfl)
      have happlied : effect = .applied → j.wipe_ran = false := by
        rintro rfl
        have hun := h.unwiped a
        rw [hp] at hun
        exact hun
      obtain ⟨e, he, hts⟩ := event_of_reply hres (h.shaped.effect_ne_nothing hbusy hr hok)
        happlied hr hok
      exact ⟨e, List.mem_append_right _ he, hts⟩

theorem answered_start (o : Opened) (sync_writes : Bool) :
    (start o sync_writes : Engine ρ).Answered where
  shaped := shaped_start o sync_writes
  unwiped := fun _ => trivial
  answered := by simp [start]

theorem chronicle_start (o : Opened) (sync_writes : Bool) :
    (start o sync_writes : Engine ρ).Chronicle where
  sorted := List.Pairwise.nil
  bound := by simp [start]
  stamped := by simp [start, events, Phase.announcing]

end Engine
end Events
end StrikeDB
