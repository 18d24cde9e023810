import StrikeDB.ReplicaFrames
import StrikeDB.SnapshotReads

/-!
# StrikeDB: what the subscribers of an engine are told

`told` is the keyspace that all calls made or due so far amount to.  It runs ahead
of the published keyspace while the flusher makes its calls, and it says nothing
about a key as long as a batch has changed it and its calls are not due
(`Unsettled`).

* `Tells`: a step leaves `told` alone, or makes due the calls for everything by
  which it changes (`tells_flusher`, `tells_direct`, `tells_client`).
* `calling`: the calls for the batch that is not published yet.
* `Reflected.told`: the chain of a settled key ends in what was told of it.
-/

namespace StrikeDB

open Repl

section Subscribers

variable {ρ : Type}

/-- The keyspace with the batch that its thread has made the calls due for. -/
def Phase.announced (ks : Keyspace) : Phase ρ → Keyspace
  | .publishing j effect => ks.after (j.events effect)
  | _ => ks

/-- Has the thread changed this key, or may it have, with calls not yet due? -/
def Phase.Hides (a : Actor) (k : Key) : Phase ρ → Prop
  | .applying j _ _ => ∃ m ∈ j.muts, m.key = k
  | .publishing j .applied => a = .direct ∧ ∃ m ∈ j.muts, m.key = k
  | .wiping _ _ => True
  | _ => False

/-- All calls for the batch that the flusher publishes in this phase. -/
def Phase.calling : Phase ρ → List Frame
  | .publishing j .applied => Job.calls j
  | _ => []

/-- Is this the call for a mutation that is newer than what is published? -/
def Repl.Frame.unpublished (visible : Nat) : Frame → Bool
  | .mutation m => visible < m.ts
  | .flush => false

namespace Engine

/-- What the subscribers know once they got all calls that are due. -/
def told (s : Engine ρ) : Keyspace := (s.phase .flusher).announced s.keyspace

def Unsettled (s : Engine ρ) (k : Key) : Prop := ∃ a, (s.phase a).Hides a k

/-- The client that commits directly has no FLUSHALL. -/
def DirectPlain (s : Engine ρ) : Prop :=
  ∀ pw ∈ (s.phase .direct).batch, pw.flush_all = none

/-- What a step that makes the calls `calls` due does to what was told. -/
inductive Tells (s s' : Engine ρ) : List Frame → Prop
  | quiet (htold : s'.told = s.told) (hgrow : ∀ k, s.Unsettled k → s'.Unsettled k) :
      Tells s s' []
  | muts (j : Job ρ) (htold : s'.told = s.told.commit j.muts)
      (hfresh : ∀ m ∈ j.muts, s.core.visible_ts < m.ts)
      (hsettles : ∀ k, s.Unsettled k → ∃ m ∈ j.muts, m.key = k) :
      Tells s s' (Job.calls j)
  | flush (htold : s'.told = ∅) : Tells s s' [.flush]

/-! ### One step -/

theorem told_of_idle {s : Engine ρ} (h : s.phase .flusher = .idle) : s.told = s.keyspace := by
  rw [told, h]
  rfl

theorem unsettled_iff
    {s : Engine ρ} {a : Actor} (hother : s.phase a.other = .idle) (k : Key) :
    s.Unsettled k ↔ (s.phase a).Hides a k := by
  constructor
  · rintro ⟨b, hb⟩
    have hcases : b = a ∨ b = a.other := by cases a <;> cases b <;> simp [Actor.other]
    rcases hcases with rfl | rfl
    · exact hb
    · rw [hother] at hb
      exact hb.elim
  · exact fun h => ⟨a, h⟩

theorem unsettled_setPhase
    {s : Engine ρ} {a : Actor} (hother : s.phase a.other = .idle) (p : Phase ρ) (k : Key) :
    (s.setPhase a p).Unsettled k ↔ p.Hides a k := by
  rw [unsettled_iff (a := a) (by simpa using hother), setPhase_phase_self]

theorem told_setPhase (s : Engine ρ) (p : Phase ρ) :
    (s.setPhase .flusher p).told = p.announced s.keyspace := by
  rw [told, setPhase_phase_self]
  rfl

/-- Of the thread's next phase, only what it announces and hides matters. -/
theorem Tells.of_phase
    {s s₁ : Engine ρ} {a : Actor} (hother : s.phase a.other = .idle)
    (hphase : s₁.phase = s.phase) (hks : s₁.keyspace = s.keyspace) {p : Phase ρ}
    (htold : a = .flusher → p.announced s.keyspace = (s.phase a).announced s.keyspace)
    (hgrow : ∀ k, (s.phase a).Hides a k → p.Hides a k) :
    Tells s (s₁.setPhase a p) [] := by
  refine .quiet ?_ ?_
  · cases a with
    | flusher => rw [told_setPhase, hks, htold rfl, told]
    | direct =>
        have hf : (s₁.setPhase .direct p).phase .flusher = .idle := by
          rw [← hother, ← hphase]
          exact setPhase_phase_other s₁ .direct p
        rw [told_of_idle hother, told_of_idle hf, ← hks]
        rfl
  · intro k hk
    rw [unsettled_setPhase (by rw [hphase]; exact hother)]
    exact hgrow k ((unsettled_iff hother k).mp hk)

theorem Tells.cast {s s' : Engine ρ} {fs fs' : List Frame} (h : Tells s s' fs) (heq : fs = fs') :
    Tells s s' fs' := heq ▸ h

/-- Only the phases and the keyspace matter. -/
theorem Tells.congr
    {s s' s₁ : Engine ρ} {fs : List Frame} (h : Tells s s₁ fs) (hphase : s'.phase = s₁.phase)
    (hks : s'.keyspace = s₁.keyspace) :
    Tells s s' fs := by
  have htold : s'.told = s₁.told := by rw [told, told, hphase, hks]
  cases h with
  | quiet h hgrow =>
      refine .quiet (htold.trans h) ?_
      intro k hk
      rw [Unsettled, hphase]
      exact hgrow k hk
  | muts j h hfresh hsettles => exact .muts j (htold.trans h) hfresh hsettles
  | flush h => exact .flush (htold.trans h)

/-- A step of the flusher. -/
theorem tells_flusher
    {s s' : Engine ρ} {io : Io} (ht : s.Timely) (hw : Works s .flusher io s') :
    Tells s s' (flusherCalls (s.phase .flusher) (s'.phase .flusher)) := by
  have hother : s.phase Actor.flusher.other = .idle := by
    refine ht.other_idle ?_
    intro hidle
    cases hw <;> simp_all
  have hquiet : ∀ (s₁ : Engine ρ) (q p : Phase ρ), s.phase .flusher = q →
      s₁.phase = s.phase → s₁.keyspace = s.keyspace →
      p.announced s.keyspace = q.announced s.keyspace →
      (∀ k, q.Hides .flusher k → p.Hides .flusher k) →
      flusherCalls q p = [] →
      Tells s (s₁.setPhase .flusher p)
        (flusherCalls (s.phase .flusher) ((s₁.setPhase .flusher p).phase .flusher)) := by
    intro s₁ q p hq hphase hks htold hgrow hcalls
    rw [setPhase_phase_self, hq, hcalls]
    exact .of_phase hother hphase hks (fun _ => by rw [hq]; exact htold) (by rw [hq]; exact hgrow)
  cases hw with
  | horizon hp => exact hquiet _ _ _ hp rfl rfl rfl (fun _ h => h) rfl
  | noSweep hp _ => exact hquiet _ _ _ hp rfl rfl rfl (fun _ h => h) rfl
  | ready hp => exact hquiet _ _ _ hp rfl rfl rfl (fun _ h => h) rfl
  | @sweep batch e ready n n' hp =>
      exact hquiet { s with core := s.core.sweep_remove e } _ _ hp rfl rfl rfl (fun _ h => h) rfl
  | @swept batch n hp =>
      exact hquiet { s with core := { s.core with gc_horizon := max s.core.gc_horizon n } } _ _ hp
        rfl rfl rfl (fun _ h => h) rfl
  | resolve hp => exact hquiet _ _ _ hp rfl rfl rfl (fun _ h => h) rfl
  | @log j wal core result hp hlog =>
      obtain ⟨err, ⟨heq, _⟩ | ⟨heq, _⟩ | heq⟩ := afterLog_cases j result <;> rw [heq]
      · exact hquiet _ _ _ hp rfl rfl rfl (fun _ h => h.elim) rfl
      · exact hquiet _ _ _ hp rfl rfl rfl (fun _ h => h.elim) rfl
      · refine hquiet _ _ _ hp rfl rfl ?_ (fun _ h => h.elim) rfl
        rw [Phase.announced, Job.events_nothing]
        rfl
  | flushFailed wal e hp =>
      refine hquiet _ _ _ hp rfl rfl ?_ (fun _ h => h.elim) rfl
      rw [Engine.flushFailed, Phase.announced, Job.events_nothing]
      rfl
  | flushFiles hp => exact hquiet _ _ _ hp rfl rfl rfl (fun _ h => h.elim) rfl
  | @wipe j next hp hlt =>
      exact hquiet { s with core := s.core.clear_shard ⟨next, hlt⟩ } _ _ hp rfl rfl rfl
        (fun _ h => h) rfl
  | @wiped j next hp _ =>
      have hj : (s.phase .flusher).job = some j := by rw [hp]; rfl
      obtain ⟨hres, _, _, _, hlast⟩ := ht.job_facts hj
      have hwr := ht.job_wipe_ran (by rw [hp]; trivial) hj
      refine Tells.cast (.flush ?_) (by rw [setPhase_phase_self, hp]; rfl)
      rw [told_setPhase, Phase.announced]
      exact hres.after_wiped hlast hwr _
  | skip hp _ _ => exact hquiet _ _ _ hp rfl rfl rfl (fun _ h => h) rfl
  | lock hp _ => exact hquiet _ _ _ hp rfl rfl rfl (fun _ h => h) rfl
  | @push j next active hp hlt =>
      exact hquiet { s with core := s.core.apply_shard ⟨next, hlt⟩ j.muts active } _ _ hp rfl rfl
        rfl (fun _ h => h) rfl
  | @applied j next hp _ =>
      have hj : (s.phase .flusher).job = some j := by rw [hp]; rfl
      refine Tells.cast (.muts j ?_ (ht.job_muts_fresh hj) ?_)
        (by rw [setPhase_phase_self, hp]; rfl)
      · rw [told_setPhase, Phase.announced, Job.after_applied, told, hp]
        rfl
      · intro k hk
        rw [unsettled_iff hother, hp] at hk
        exact hk
  | @publish j effect hp =>
      have hnext : afterPublish .flusher j effect = .idle := rfl
      rw [hnext, setPhase_phase_self, hp]
      refine .quiet ?_ ?_
      · rw [told_setPhase, told, hp]
        exact Keyspace.after_append _ _ _
      · intro k hk
        rw [unsettled_iff hother, hp] at hk
        cases effect with
        | applied => exact absurd hk.1 (by simp)
        | nothing | wiped => exact hk.elim

/-- FLUSHALL is left to the flusher. -/
theorem Timely.direct_not_wipes
    {s : Engine ρ} (ht : s.Timely) (hplain : s.DirectPlain) :
    ¬ (s.phase .direct).Wipes := by
  intro hwipes
  have hj : ∃ j, (s.phase .direct).job = some j := by
    cases hp : s.phase .direct <;> simp_all [Phase.Wipes, Phase.job]
  obtain ⟨j, hj⟩ := hj
  obtain ⟨pw, hpw, hf⟩ := List.any_eq_true.mp (ht.job_wipe_ran hwipes hj)
  rw [hplain pw (by rw [Phase.batch_of_job hj]; exact hpw)] at hf
  simp at hf

/-- A step of the client that commits directly. -/
theorem tells_direct
    {s s' : Engine ρ} {io : Io} (ht : s.Timely) (hplain : s.DirectPlain)
    (hw : Works s .direct io s') :
    Tells s s' (directCalls (s.phase .direct)).flatten := by
  have hother : s.phase Actor.direct.other = .idle := by
    refine ht.other_idle ?_
    intro hidle
    cases hw <;> simp_all
  have hnowipe := ht.direct_not_wipes hplain
  have hquiet : ∀ (s₁ : Engine ρ) (q p : Phase ρ), s.phase .direct = q →
      s₁.phase = s.phase → s₁.keyspace = s.keyspace →
      (∀ k, q.Hides .direct k → p.Hides .direct k) →
      directCalls q = [] →
      Tells s (s₁.setPhase .direct p) (directCalls (s.phase .direct)).flatten := by
    intro s₁ q p hq hphase hks hgrow hcalls
    rw [hq, hcalls]
    exact .of_phase hother hphase hks (by simp) (by rw [hq]; exact hgrow)
  cases hw with
  | horizon hp => exact hquiet _ _ _ hp rfl rfl (fun _ h => h) rfl
  | noSweep hp _ => exact hquiet _ _ _ hp rfl rfl (fun _ h => h) rfl
  | ready hp => exact hquiet _ _ _ hp rfl rfl (fun _ h => h) rfl
  | @sweep batch e ready n n' hp =>
      exact hquiet { s with core := s.core.sweep_remove e } _ _ hp rfl rfl (fun _ h => h) rfl
  | @swept batch n hp =>
      exact hquiet { s with core := { s.core with gc_horizon := max s.core.gc_horizon n } } _ _ hp
        rfl rfl (fun _ h => h) rfl
  | resolve hp => exact hquiet _ _ _ hp rfl rfl (fun _ h => h.elim) rfl
  | log hp _ => exact hquiet _ _ _ hp rfl rfl (fun _ h => h.elim) rfl
  | flushFailed wal e hp => exact hquiet _ _ _ hp rfl rfl (fun _ h => h.elim) rfl
  | flushFiles hp => exact hquiet _ _ _ hp rfl rfl (fun _ h => h.elim) rfl
  | wipe hp _ => exact absurd (by rw [hp]; trivial) hnowipe
  | wiped hp _ => exact absurd (by rw [hp]; trivial) hnowipe
  | skip hp _ _ => exact hquiet _ _ _ hp rfl rfl (fun _ h => h) rfl
  | lock hp _ => exact hquiet _ _ _ hp rfl rfl (fun _ h => h) rfl
  | @push j next active hp hlt =>
      exact hquiet { s with core := s.core.apply_shard ⟨next, hlt⟩ j.muts active } _ _ hp rfl rfl
        (fun _ h => h) rfl
  | applied hp _ => exact hquiet _ _ _ hp rfl rfl (fun _ h => ⟨rfl, h⟩) rfl
  | @publish j effect hp =>
      have hj : (s.phase .direct).job = some j := by rw [hp]; rfl
      have hf : ∀ s₁ : Engine ρ, s₁.phase = s.phase → ∀ p,
          (s₁.setPhase .direct p).told = s₁.keyspace := by
        intro s₁ hphase p
        refine told_of_idle ?_
        rw [← hother, ← hphase]
        exact setPhase_phase_other s₁ .direct p
      cases effect with
      | applied =>
          refine Tells.cast (.muts j ?_ (ht.job_muts_fresh hj) ?_) (by rw [hp]; simp [directCalls])
          · refine (hf _ (by rfl) _).trans ?_
            rw [told_of_idle hother, ← Job.after_applied]
            exact Keyspace.after_append _ _ _
          · intro k hk
            rw [unsettled_iff hother, hp] at hk
            exact hk.2
      | wiped => exact absurd (by rw [hp]; trivial) hnowipe
      | nothing =>
          refine Tells.cast (.quiet ?_ ?_) (by rw [hp]; rfl)
          · refine (hf _ (by rfl) _).trans ((Keyspace.after_append _ _ _).trans ?_)
            rw [told_of_idle hother, Job.events_nothing]
            rfl
          · intro k hk
            rw [unsettled_iff hother, hp] at hk
            exact hk.elim

theorem tells_submits
    {s s' : Engine ρ} {mk : Nat → PendingWrite ρ} (hsub : Submits s mk s')
    (hplain : (mk (s.clock + 1)).flush_all = none →
      s.sync_writes = true ∨ (s.phase .flusher = .idle ∧ s.write_queue = [])) :
    Tells s s' [] := by
  cases hsub with
  | queued _ _ => exact .quiet rfl fun _ h => h
  | direct _ hmode hnone hidle =>
      have hf : s.phase .flusher = .idle := by
        rcases hplain hnone with hm | hf
        · simp [hmode] at hm
        · exact hf.1
      exact @Tells.of_phase ρ s { s with clock := s.clock + 1 } .direct hf rfl rfl _ (by simp)
        (by rw [hidle]; exact fun _ h => h.elim)

/-- What a client does changes nothing yet. -/
theorem tells_client
    {s s' : Engine ρ} {act : Act ρ} (ht : s.Timely) (hok : s.Ordinary act)
    (hclient : ∀ a io, act ≠ .work a io) (hst : Step s act s') :
    Tells s s' [] := by
  cases hst with
  | txnCommit _ _ hsub => exact (tells_submits hsub fun _ => hok).congr rfl rfl
  | @submit r _ hsub =>
      refine tells_submits hsub ?_
      intro hnone
      cases r with
      | flush_all bak => simp [Request.pending] at hnone
      | write writes => exact hok
      | incr key by_ => exact hok
      | op o => exact hok
  | drain hidle hne =>
      exact @Tells.of_phase ρ s { s with write_queue := [] } .flusher (ht.direct_idle hne) rfl
        rfl _ (fun _ => by rw [hidle]; rfl) (by rw [hidle]; exact fun _ h => h.elim)
  | work hw => exact absurd rfl (hclient _ _)
  | _ => exact .quiet rfl fun _ h => h

theorem directPlain_step
    {s s' : Engine ρ} {act : Act ρ} (h : s.DirectPlain) (hst : Step s act s') :
    s'.DirectPlain := by
  have hsub : ∀ {mk s₁}, Submits s mk s₁ → s₁.DirectPlain := by
    intro mk s₁ hsub
    cases hsub with
    | queued _ _ => exact h
    | direct _ _ hnone _ =>
        intro pw hpw
        simp only [setPhase_phase_self, Phase.batch, List.mem_singleton] at hpw
        rw [hpw]
        exact hnone
  have hset : ∀ (s₁ : Engine ρ) (a : Actor) (p : Phase ρ), s₁.phase = s.phase →
      (p.batch = (s.phase a).batch ∨ p.batch = []) → (s₁.setPhase a p).DirectPlain := by
    intro s₁ a p hphase hbatch pw hpw
    cases a with
    | flusher =>
        have heq : (s₁.setPhase .flusher p).phase .direct = s₁.phase .direct :=
          setPhase_phase_other s₁ .flusher p
        rw [heq, hphase] at hpw
        exact h pw hpw
    | direct =>
        rw [setPhase_phase_self] at hpw
        rcases hbatch with heq | heq
        · rw [heq] at hpw
          exact h pw hpw
        · rw [heq] at hpw
          cases hpw
  cases hst with
  | @txnCommit _ _ s₁ _ _ hs =>
      have h₁ : s₁.DirectPlain := hsub hs
      exact h₁
  | submit hs => exact hsub hs
  | drain hidle _ =>
      intro pw hpw
      exact h pw hpw
  | @work a io _ hw =>
      cases hw with
      | horizon hp => exact hset _ _ _ rfl (Or.inl (by rw [hp]; rfl))
      | @noSweep batch _ hp _ =>
          rcases afterSweep_cases a batch with heq | heq <;> rw [heq]
          · exact hset _ _ _ rfl (Or.inl (by rw [hp]; rfl))
          · exact hset _ _ _ rfl (Or.inr rfl)
      | ready hp => exact hset _ _ _ rfl (Or.inl (by rw [hp]; rfl))
      | @sweep batch e ready n n' hp =>
          exact hset { s with core := s.core.sweep_remove e } _ _ rfl (Or.inl (by rw [hp]; rfl))
      | @swept batch n hp =>
          rcases afterSweep_cases a batch with heq | heq <;> rw [heq]
          · exact hset _ _ _ rfl (Or.inl (by rw [hp]; rfl))
          · exact hset _ _ _ rfl (Or.inr rfl)
      | @resolve batch hp =>
          rcases afterResolve_cases a
            { batch := batch, outcomes := resolveBatch s.core batch, err := none } with
            heq | heq | heq <;> rw [heq] <;> exact hset _ _ _ rfl (Or.inl (by rw [hp]; rfl))
      | @log j wal core result hp _ =>
          obtain ⟨err, ⟨heq, _⟩ | ⟨heq, _⟩ | heq⟩ := afterLog_cases j result <;> rw [heq] <;>
            exact hset _ _ _ rfl (Or.inl (by rw [hp]; rfl))
      | flushFailed wal e hp => exact hset _ _ _ rfl (Or.inl (by rw [hp]; rfl))
      | flushFiles hp => exact hset _ _ _ rfl (Or.inl (by rw [hp]; rfl))
      | @wipe j next hp hlt =>
          exact hset { s with core := s.core.clear_shard ⟨next, hlt⟩ } _ _ rfl
            (Or.inl (by rw [hp]; rfl))
      | wiped hp _ => exact hset _ _ _ rfl (Or.inl (by rw [hp]; rfl))
      | skip hp _ _ => exact hset _ _ _ rfl (Or.inl (by rw [hp]; rfl))
      | lock hp _ => exact hset _ _ _ rfl (Or.inl (by rw [hp]; rfl))
      | @push j next active hp hlt =>
          exact hset { s with core := s.core.apply_shard ⟨next, hlt⟩ j.muts active } _ _ rfl
            (Or.inl (by rw [hp]; rfl))
      | applied hp _ => exact hset _ _ _ rfl (Or.inl (by rw [hp]; rfl))
      | @publish j effect hp =>
          rcases afterPublish_cases a j effect with heq | heq <;> rw [heq] <;>
            exact hset _ _ _ rfl (Or.inr rfl)
  | _ => exact h

/-! ### The calls of a batch that is not published yet -/

/-- All calls for the batch that the flusher is about to publish. -/
def calling (s : Engine ρ) : List Frame := (s.phase .flusher).calling

theorem calling_cases {s : Engine ρ} {f : Frame} (hf : f ∈ s.calling) :
    ∃ j, s.phase .flusher = .publishing j .applied ∧ s.calling = Job.calls j := by
  rw [calling] at hf ⊢
  cases hp : s.phase .flusher with
  | publishing j effect =>
      cases effect with
      | applied => exact ⟨j, rfl, rfl⟩
      | nothing | wiped => simp [hp, Phase.calling] at hf
  | _ => simp [hp, Phase.calling] at hf

theorem Timely.calling_fresh
    {s : Engine ρ} (ht : s.Timely) :
    ∀ f ∈ s.calling, f.unpublished s.core.visible_ts = true := by
  intro f hf
  obtain ⟨j, hp, hcalls⟩ := calling_cases hf
  rw [hcalls, Job.calls, List.mem_map] at hf
  obtain ⟨m, hm, rfl⟩ := hf
  exact decide_eq_true (ht.job_muts_fresh (by rw [hp]; rfl) m hm)

/-- Nothing of a published batch is unpublished. -/
theorem Timely.calls_published
    {s : Engine ρ} (ht : s.Timely) {a : Actor} {j : Job ρ} (hj : (s.phase a).job = some j)
    {v : Nat} (hv : batchMaxTs j.batch ≤ v) :
    (Job.calls j).filter (Frame.unpublished v) = [] := by
  obtain ⟨hres, _, _, hpw, _⟩ := ht.job_facts hj
  rw [List.filter_eq_nil_iff, Job.calls, List.forall_mem_map]
  intro m hm
  obtain ⟨pw, hpwm, hts⟩ := hres.mem_muts hpw hm
  have := le_batchMaxTs hpwm
  simp only [Frame.unpublished, decide_eq_true_eq]
  omega

theorem calling_flusher
    {s s' : Engine ρ} {io : Io} (ht : s.Timely) (hw : Works s .flusher io s') :
    s'.calling = (s.calling ++ flusherCalls (s.phase .flusher) (s'.phase .flusher)).filter
      (Frame.unpublished s'.core.visible_ts) := by
  have hset : ∀ (s₁ : Engine ρ) (q p : Phase ρ), s.phase .flusher = q → q.calling = [] →
      (flusherCalls q p).filter (Frame.unpublished s₁.core.visible_ts) = p.calling →
      (s₁.setPhase .flusher p).calling =
        (s.calling ++ flusherCalls (s.phase .flusher)
          ((s₁.setPhase .flusher p).phase .flusher)).filter
            (Frame.unpublished (s₁.setPhase .flusher p).core.visible_ts) := by
    intro s₁ q p hq hnone hcalls
    rw [calling, calling, setPhase_phase_self, hq, hnone]
    exact hcalls.symm
  cases hw with
  | horizon hp => exact hset _ _ _ hp rfl rfl
  | noSweep hp _ => exact hset _ _ _ hp rfl rfl
  | ready hp => exact hset _ _ _ hp rfl rfl
  | @sweep batch e ready n n' hp =>
      exact hset { s with core := s.core.sweep_remove e } _ _ hp rfl rfl
  | @swept batch n hp =>
      exact hset { s with core := { s.core with gc_horizon := max s.core.gc_horizon n } } _ _ hp
        rfl rfl
  | resolve hp => exact hset _ _ _ hp rfl rfl
  | @log j wal core result hp _ =>
      obtain ⟨err, ⟨heq, _⟩ | ⟨heq, _⟩ | heq⟩ := afterLog_cases j result <;> rw [heq] <;>
        exact hset _ _ _ hp rfl rfl
  | flushFailed wal e hp => exact hset _ _ _ hp rfl rfl
  | flushFiles hp => exact hset _ _ _ hp rfl rfl
  | @wipe j next hp hlt =>
      exact hset { s with core := s.core.clear_shard ⟨next, hlt⟩ } _ _ hp rfl rfl
  | wiped hp _ => exact hset _ _ _ hp rfl rfl
  | skip hp _ _ => exact hset _ _ _ hp rfl rfl
  | lock hp _ => exact hset _ _ _ hp rfl rfl
  | @push j next active hp hlt =>
      exact hset { s with core := s.core.apply_shard ⟨next, hlt⟩ j.muts active } _ _ hp rfl rfl
  | @applied j next hp _ =>
      refine hset _ _ _ hp rfl ?_
      rw [flusherCalls, Phase.calling, Job.calls, List.filter_eq_self, List.forall_mem_map]
      intro m hm
      exact decide_eq_true (ht.job_muts_fresh (by rw [hp]; rfl) m hm)
  | @publish j effect hp =>
      have hj : (s.phase .flusher).job = some j := by rw [hp]; rfl
      rw [calling, calling, setPhase_phase_self, hp]
      cases effect with
      | applied =>
          refine Eq.symm ?_
          simp only [flusherCalls, List.append_nil]
          exact ht.calls_published hj (Nat.le_max_right _ _)
      | nothing | wiped => rfl

/-- A direct commit is published before its calls are due. -/
theorem direct_published
    {s s' : Engine ρ} {io : Io} (ht : s.Timely) (hw : Works s .direct io s') :
    (directCalls (s.phase .direct)).flatten.filter
      (Frame.unpublished s'.core.visible_ts) = [] := by
  cases hw with
  | @publish j effect hp =>
      rw [hp]
      cases effect with
      | applied =>
          rw [directCalls, List.flatten_singleton]
          exact ht.calls_published (a := .direct) (by rw [hp]; rfl) (Nat.le_max_right _ _)
      | nothing | wiped => rfl
  | _ => simp only [directCalls, *, List.flatten_nil, List.filter_nil]

theorem calling_direct
    {s s' : Engine ρ} {io : Io} (ht : s.Timely) (hw : Works s .direct io s') :
    s'.calling = (s.calling ++ (directCalls (s.phase .direct)).flatten).filter
      (Frame.unpublished s'.core.visible_ts) := by
  have hf : s.phase .flusher = .idle := by
    refine ht.other_idle (a := .direct) ?_
    intro hidle
    cases hw <;> simp_all
  have hf' : s'.phase .flusher = .idle := by
    have hkeep : ∀ (s₁ : Engine ρ) (p : Phase ρ), s₁.phase = s.phase →
        (s₁.setPhase .direct p).phase .flusher = .idle := by
      intro s₁ p hphase
      rw [← hf, ← hphase]
      exact setPhase_phase_other s₁ .direct p
    cases hw with
    | _ => exact hkeep _ _ (by rfl)
  rw [calling, calling, hf, hf']
  exact (direct_published ht hw).symm

/-- Clients leave the flusher alone, unless it has nothing to do. -/
theorem flusher_client
    {s s' : Engine ρ} {act : Act ρ} (hclient : ∀ a io, act ≠ .work a io) (hst : Step s act s') :
    s'.phase .flusher = s.phase .flusher ∨
      s.phase .flusher = .idle ∧ s'.phase .flusher = .drained s.write_queue := by
  have hsub : ∀ {mk s₁}, Submits s mk s₁ → s₁.phase .flusher = s.phase .flusher := by
    intro mk s₁ hsub
    cases hsub with
    | queued _ _ => rfl
    | direct _ _ _ _ =>
        exact setPhase_phase_other { s with clock := s.clock + 1 } .direct
          (.resolving [mk (s.clock + 1)])
  cases hst with
  | txnCommit _ _ hs =>
      have hkeep := hsub hs
      exact Or.inl hkeep
  | submit hs => exact Or.inl (hsub hs)
  | drain hidle _ => exact Or.inr ⟨hidle, setPhase_phase_self _ _ _⟩
  | work hw => exact absurd rfl (hclient _ _)
  | _ => exact Or.inl rfl

theorem visible_ts_client
    {s s' : Engine ρ} {act : Act ρ} (hclient : ∀ a io, act ≠ .work a io) (hst : Step s act s') :
    s'.core.visible_ts = s.core.visible_ts := by
  cases hst with
  | txnCommit _ _ hs => cases hs <;> rfl
  | submit hs => cases hs <;> rfl
  | txnDrop _ _ => exact unregister_visible_ts _ _
  | unpin _ => exact unregister_visible_ts _ _
  | work hw => exact absurd rfl (hclient _ _)
  | _ => rfl

theorem calling_client
    {s s' : Engine ρ} {act : Act ρ} (ht : s.Timely)
    (hclient : ∀ a io, act ≠ .work a io) (hst : Step s act s') :
    s'.calling = s.calling.filter (Frame.unpublished s'.core.visible_ts) := by
  have hsame : s'.calling = s.calling := by
    rw [calling, calling]
    rcases flusher_client hclient hst with heq | ⟨hidle, heq⟩
    · rw [heq]
    · rw [heq, hidle]
      rfl
  rw [hsame, visible_ts_client hclient hst, eq_comm, List.filter_eq_self]
  exact ht.calling_fresh

/-! ### What the shards hold of it -/

theorem seen_applying
    {j : Job ρ} {k : Key} (h : ∀ m ∈ j.muts, m.key ≠ k) (ks : Keyspace) (next : Nat)
    (locked : Option (List Nat)) :
    (Phase.applying j next locked).seen ks k = ks[k]? := by
  rw [Phase.seen, Keyspace.getElem?_commit_of_not_mem h, ite_self]

/-- A settled key is in the shards as it was told. -/
theorem Timely.seen_eq_told
    {s : Engine ρ} (ht : s.Timely) (hplain : s.DirectPlain) {k : Key} (hk : ¬ s.Unsettled k) :
    s.seen k = s.told[k]? := by
  rcases ht.alone with hd | ⟨hf, _⟩
  · have hbusy : s.busy = s.phase .flusher := Engine.busy_eq (a := .flusher) hd
    have hk' : ¬ (s.phase .flusher).Hides .flusher k := fun h => hk ⟨_, h⟩
    rw [seen, hbusy, told]
    cases hp : s.phase .flusher with
    | applying j next locked =>
        rw [hp] at hk'
        exact seen_applying (fun m hm hkey => hk' ⟨m, hm, hkey⟩) _ _ _
    | wiping j next =>
        rw [hp] at hk'
        exact absurd trivial hk'
    | publishing j effect =>
        rw [Phase.announced, ht.keyspace_publish hp, seen, hbusy, hp]
    | _ => rfl
  · have hbusy : s.busy = s.phase .direct := Engine.busy_eq (a := .direct) hf
    have hk' : ¬ (s.phase .direct).Hides .direct k := fun h => hk ⟨_, h⟩
    have hnowipe := ht.direct_not_wipes hplain
    rw [seen, hbusy, told_of_idle hf]
    cases hp : s.phase .direct with
    | applying j next locked =>
        rw [hp] at hk'
        exact seen_applying (fun m hm hkey => hk' ⟨m, hm, hkey⟩) _ _ _
    | publishing j effect =>
        rw [hp] at hk' hnowipe
        cases effect with
        | nothing => rfl
        | applied =>
            exact Keyspace.getElem?_commit_of_not_mem (fun m hm hkey => hk' ⟨rfl, m, hm, hkey⟩) _
        | wiped => exact absurd trivial hnowipe
    | wiping j next =>
        rw [hp] at hk'
        exact absurd trivial hk'
    | _ => rfl

/-- The chain of a settled key ends in what was told of it. -/
theorem Reflected.told
    {s : Engine ρ} (h : s.Reflected) (ht : s.Timely) (hplain : s.DirectPlain) {k : Key}
    (hk : ¬ s.Unsettled k) :
    Reflects (s.core.chain k) s.told[k]? := by
  rw [← ht.seen_eq_told hplain hk]
  exact h.chains k

/-- What a snapshot shows of a settled key that it is recent enough for. -/
theorem Reflected.get_at
    {s : Engine ρ} (h : s.Reflected) (ht : s.Timely) (hplain : s.DirectPlain) {k : Key}
    (hk : ¬ s.Unsettled k) {snap : Nat} (hle : ∀ w, s.told[k]? = some w → w.1 ≤ snap) :
    s.core.get_at k snap = s.told.value k := by
  have hr := h.told ht hplain hk
  rw [FlushCore.get_at, Keyspace.value, ← hr.value]
  cases hc : s.core.chain k with
  | none => rfl
  | some c =>
      rw [hc] at hr
      obtain ⟨v, hv⟩ := hr.latest_ts
      exact hr.visible (hle _ hv)

/-- What was told is published, or from the batch that the flusher publishes. -/
theorem Reflected.told_le
    {s : Engine ρ} (h : s.Reflected) (ht : s.Timely) {k : Key} {w : Nat × Value}
    (hw : s.told[k]? = some w) :
    w.1 ≤ s.core.visible_ts ∨
      ∃ j, s.phase .flusher = .publishing j .applied ∧ ∃ m ∈ j.muts, m.key = k := by
  rw [Engine.told] at hw
  cases hp : s.phase .flusher with
  | publishing j effect =>
      rw [hp, Phase.announced] at hw
      cases effect with
      | nothing =>
          rw [Job.events_nothing] at hw
          exact Or.inl (h.bound k w hw)
      | wiped =>
          have hj : (s.phase .flusher).job = some j := by rw [hp]; rfl
          obtain ⟨hres, _, _, _, hlast⟩ := ht.job_facts hj
          rw [hres.after_wiped hlast (ht.job_wipe_ran (by rw [hp]; trivial) hj)] at hw
          simp at hw
      | applied =>
          rw [Job.after_applied] at hw
          by_cases hwr : ∃ m ∈ j.muts, m.key = k
          · exact Or.inr ⟨j, rfl, hwr⟩
          · rw [Keyspace.getElem?_commit_of_not_mem fun m hm hk => hwr ⟨m, hm, hk⟩] at hw
            exact Or.inl (h.bound k w hw)
  | _ =>
      rw [hp] at hw
      exact Or.inl (h.bound k w hw)

end Engine
end Subscribers
end StrikeDB
