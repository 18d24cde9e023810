import StrikeDB.Engine

/-!
# StrikeDB: the invariants of a running engine

* `Timely`: timestamps grow from what is published over the batch in work to
  the queue, and only one thread at a time works on the shards.
* `Reflected`: the chains hold the published keyspace, up to the shards that
  the batch in work has already changed.

Both hold in every run whose steps are `Ordinary`: in `SYNC=0` mode no direct
commit runs while a FLUSHALL is queued or executed, and no commit stands behind
a FLUSHALL in its batch.  Runs without FLUSHALL are ordinary by themselves
(`run_ordinary_of_no_flush`).
-/

namespace StrikeDB

section Phases

variable {ρ : Type}

namespace Phase

/-- The batch that a thread works on. -/
def batch : Phase ρ → List (PendingWrite ρ)
  | .idle => []
  | .drained b | .horizon b _ | .sweeping b _ _ | .resolving b => b
  | .logging j | .flushing j | .wiping j _ | .applying j _ _ | .publishing j _ => j.batch

/-- The batch once it is resolved. -/
def job : Phase ρ → Option (Job ρ)
  | .idle | .drained _ | .horizon _ _ | .sweeping _ _ _ | .resolving _ => none
  | .logging j | .flushing j | .wiping j _ | .applying j _ _ | .publishing j _ => some j

/-- Is the thread on the way to wipe the shards, or has it done so? -/
def Wipes : Phase ρ → Prop
  | .flushing _ | .wiping _ _ | .publishing _ .wiped => True
  | _ => False

/-- What the shards hold at a key while a thread is in this phase. -/
def seen (ks : Keyspace) (k : Key) : Phase ρ → Option (Nat × Value)
  | .applying j next _ => if (shard_of k).val < next then (ks.commit j.muts)[k]? else ks[k]?
  | .publishing j .applied => (ks.commit j.muts)[k]?
  | .wiping _ next => if (shard_of k).val < next then none else ks[k]?
  | .publishing _ .wiped => none
  | _ => ks[k]?

theorem batch_of_job {p : Phase ρ} {j : Job ρ} (h : p.job = some j) : p.batch = j.batch := by
  cases p <;> simp_all [job, batch]

end Phase

/-- No commit stands behind a FLUSHALL. -/
def FlushLast (batch : List (PendingWrite ρ)) : Prop :=
  batch.Pairwise fun p q => p.flush_all.isSome = true → q.flush_all.isSome = true

/-- The outcomes are those of `resolveBatch`, for some state of the shards. -/
def Job.IsResolved (j : Job ρ) : Prop :=
  ∃ core, j.outcomes = resolveBatch core j.batch

namespace Job

variable {j : Job ρ}

theorem IsResolved.length_eq (h : j.IsResolved) : j.outcomes.length = j.batch.length := by
  obtain ⟨core, hout⟩ := h
  rw [hout, resolveBatch, resolveLoop_length]

theorem IsResolved.map_fst (h : j.IsResolved) :
    (j.batch.zip j.outcomes).map Prod.fst = j.batch :=
  List.map_fst_zip h.length_eq.ge

theorem IsResolved.none_iff
    (h : j.IsResolved) {e : PendingWrite ρ × Option (Resolved ρ)}
    (he : e ∈ j.batch.zip j.outcomes) :
    e.2 = none ↔ e.1.flush_all.isSome = true := by
  obtain ⟨core, hout⟩ := h
  rw [hout] at he
  exact resolveLoop_none_iff _ _ _ _ e he

theorem fst_mem_batch
    {e : PendingWrite ρ × Option (Resolved ρ)} (he : e ∈ j.batch.zip j.outcomes) :
    e.1 ∈ j.batch :=
  (List.of_mem_zip he).1

/-- A commit of the job comes from a pending write with its timestamp. -/
theorem mem_commits {c : Nat × List Mutation} :
    c ∈ j.commits ↔ ∃ e ∈ j.batch.zip j.outcomes,
      (∃ r, e.2 = some r ∧ r.muts e.1 = some c.2) ∧ e.1.ts = c.1 :=
  mem_commitsOf

/-- What the commits write carries their timestamps. -/
theorem IsResolved.commits_ts
    (h : j.IsResolved) (hpw : ∀ pw ∈ j.batch, ∀ m ∈ pw.muts, m.ts = pw.ts)
    {c : Nat × List Mutation} (hc : c ∈ j.commits) :
    ∀ m ∈ c.2, m.ts = c.1 := by
  obtain ⟨e, he, ⟨r, hr, hms⟩, hts⟩ := mem_commits.mp hc
  obtain ⟨core, hout⟩ := h
  rw [hout] at he
  intro m hm
  rw [resolveLoop_muts_ts hpw _ e he r c.2 hr hms m hm, hts]

/-- The commits of a job keep the order of the batch. -/
theorem IsResolved.commits_sorted
    (h : j.IsResolved) (hs : j.batch.Pairwise fun p q => p.ts < q.ts) :
    j.commits.Pairwise fun c d => c.1 < d.1 := by
  have hzip : (j.batch.zip j.outcomes).Pairwise fun e f => e.1.ts < f.1.ts := by
    rw [← h.map_fst, List.pairwise_map] at hs
    exact hs
  unfold commits commitsOf
  rw [List.pairwise_filterMap]
  refine hzip.imp ?_
  intro e f hef c hc d hd
  obtain ⟨ms, _, rfl⟩ := Option.map_eq_some_iff.mp hc
  obtain ⟨ms', _, rfl⟩ := Option.map_eq_some_iff.mp hd
  exact hef

/-- The mutations of a job stand in timestamp order. -/
theorem IsResolved.muts_sorted
    (h : j.IsResolved) (hs : j.batch.Pairwise fun p q => p.ts < q.ts)
    (hpw : ∀ pw ∈ j.batch, ∀ m ∈ pw.muts, m.ts = pw.ts) :
    j.muts.Pairwise fun a b => a.ts ≤ b.ts := by
  unfold muts
  rw [List.pairwise_flatMap]
  constructor
  · intro c hc
    refine List.pairwise_of_forall_mem_list ?_
    intro a ha b hb
    rw [h.commits_ts hpw hc a ha, h.commits_ts hpw hc b hb]
  · refine List.Pairwise.imp_of_mem ?_ (h.commits_sorted hs)
    intro c d hc hd hcd a ha b hb
    rw [h.commits_ts hpw hc a ha, h.commits_ts hpw hd b hb]
    exact hcd.le

/-- Every mutation of a job belongs to a commit of its batch. -/
theorem IsResolved.mem_muts
    (h : j.IsResolved) (hpw : ∀ pw ∈ j.batch, ∀ m ∈ pw.muts, m.ts = pw.ts)
    {m : Mutation} (hm : m ∈ j.muts) :
    ∃ pw ∈ j.batch, m.ts = pw.ts := by
  obtain ⟨c, hc, hmc⟩ := List.mem_flatMap.mp hm
  obtain ⟨e, he, _, hts⟩ := mem_commits.mp hc
  exact ⟨e.1, fst_mem_batch he, (h.commits_ts hpw hc m hmc).trans hts.symm⟩

/-- The durable step touches `last_appended` only. -/
theorem log_core
    {core core' : FlushCore} {wal wal' : Wal} {io : Io} {result : Except IoError Unit}
    (h : j.log core wal io = (wal', core', result)) :
    ∃ n, core' = { core with last_appended := n } := by
  unfold log at h
  simp only at h
  split at h
  · cases h; exact ⟨_, rfl⟩
  · split at h
    · cases h; exact ⟨_, rfl⟩
    · cases h; exact ⟨_, rfl⟩

end Job

namespace Engine

/-- The phase of the thread that works on the shards. -/
def busy (s : Engine ρ) : Phase ρ :=
  match s.phase .direct with
  | .idle => s.phase .flusher
  | p => p

/-- The commits without an answer, in timestamp order. -/
def pending (s : Engine ρ) : List (PendingWrite ρ) := s.busy.batch ++ s.write_queue

/-- Runs of this kind execute FLUSHALL apart from the commits around it. -/
def Ordinary (s : Engine ρ) : Act ρ → Prop
  | .submit (.flush_all _) => s.phase .direct = .idle
  | .submit _ | .txnCommit _ =>
      s.sync_writes = true ∨ (s.phase .flusher = .idle ∧ s.write_queue = [])
  | .drain => FlushLast s.write_queue
  | _ => True

structure Timely (s : Engine ρ) : Prop where
  alone : s.phase .direct = .idle ∨ (s.phase .flusher = .idle ∧ s.write_queue = [])
  mode : s.sync_writes = true → s.phase .direct = .idle
  sorted : s.pending.Pairwise fun p q => p.ts < q.ts
  fresh : ∀ pw ∈ s.pending, s.core.visible_ts < pw.ts ∧ pw.ts ≤ s.clock
  muts_ts : ∀ pw ∈ s.pending, ∀ m ∈ pw.muts, m.ts = pw.ts
  visible_le : s.core.visible_ts ≤ s.clock
  clock_lt : s.clock < 2 ^ 64 - 1
  resolved : ∀ j, s.busy.job = some j → j.IsResolved
  flushLast : FlushLast s.busy.batch
  wipe_ran : s.busy.Wipes → ∀ j, s.busy.job = some j → j.wipe_ran = true

/-! ### One thread at a time -/

theorem busy_eq
    {s : Engine ρ} {a : Actor} (hother : s.phase a.other = .idle) :
    s.busy = s.phase a := by
  unfold busy
  cases a with
  | flusher =>
      rw [show s.phase .direct = .idle from hother]
  | direct =>
      cases hd : s.phase .direct <;> simp_all [Actor.other]

theorem busy_setPhase
    {s : Engine ρ} {a : Actor} (hother : s.phase a.other = .idle) (p : Phase ρ) :
    (s.setPhase a p).busy = p := by
  rw [busy_eq (a := a) (by simpa using hother)]
  simp

theorem Timely.other_idle
    {s : Engine ρ} (h : s.Timely) {a : Actor} (hp : s.phase a ≠ .idle) :
    s.phase a.other = .idle := by
  rcases h.alone with hd | ⟨hf, _⟩
  · cases a with
    | flusher => exact hd
    | direct => exact absurd hd hp
  · cases a with
    | flusher => exact absurd hf hp
    | direct => exact hf

theorem Timely.busy_eq
    {s : Engine ρ} (h : s.Timely) {a : Actor} (hp : s.phase a ≠ .idle) :
    s.busy = s.phase a :=
  Engine.busy_eq (h.other_idle hp)

theorem Timely.batch_mem
    {s : Engine ρ} {pw : PendingWrite ρ} (hpw : pw ∈ s.busy.batch) :
    pw ∈ s.pending :=
  List.mem_append_left _ hpw

/-! ### The next phase -/

theorem afterSweep_cases (a : Actor) (batch : List (PendingWrite ρ)) :
    afterSweep a batch = .resolving batch ∨ afterSweep a batch = .idle := by
  cases a with
  | flusher => exact Or.inl rfl
  | direct => exact Or.inr rfl

theorem afterResolve_cases (a : Actor) (j : Job ρ) :
    afterResolve a j = .logging j ∨ afterResolve a j = .applying j 0 none ∨
      afterResolve a j = .publishing j .nothing := by
  cases a with
  | flusher => exact Or.inl rfl
  | direct =>
      unfold afterResolve
      split
      · next heq => cases heq
      · split
        · exact Or.inr (Or.inl rfl)
        · exact Or.inr (Or.inr rfl)

/-- `j'` is the job with what became of the durable step. -/
theorem afterLog_cases (j : Job ρ) (result : Except IoError Unit) :
    ∃ err, let j' : Job ρ := { j with err := err }
      afterLog j result = .flushing j' ∧ j.wipe_ran = true ∨
      afterLog j result = .applying j 0 none ∧ j.wipe_ran = false ∨
      afterLog j result = .publishing j' .nothing := by
  cases result with
  | ok =>
      refine ⟨j.err, ?_⟩
      cases hw : j.wipe_ran with
      | true => exact Or.inl ⟨by simp [afterLog, hw], rfl⟩
      | false => exact Or.inr (Or.inl ⟨by simp [afterLog, hw], rfl⟩)
  | error e =>
      refine ⟨some e.text, ?_⟩
      cases hw : j.wipe_ran with
      | true => exact Or.inl ⟨by simp [afterLog, hw], rfl⟩
      | false => exact Or.inr (Or.inr (by simp [afterLog, hw]))

theorem afterPublish_cases (a : Actor) (j : Job ρ) (effect : Effect) :
    afterPublish a j effect = .idle ∨ afterPublish a j effect = .drained [] := by
  cases a with
  | flusher => exact Or.inl rfl
  | direct =>
      by_cases h : effect = .applied ∧ batchMaxTs j.batch % 64 = 0
      · exact Or.inr (if_pos h)
      · exact Or.inl (if_neg h)

/-! ### Steps that keep the batch in work -/

/-- The states differ at most in the shards, the log, the transactions and what
is kept for the statements. -/
structure SameTimes (s s' : Engine ρ) : Prop where
  phase : s'.phase = s.phase := by rfl
  write_queue : s'.write_queue = s.write_queue := by rfl
  sync_writes : s'.sync_writes = s.sync_writes := by rfl
  clock : s'.clock = s.clock := by rfl
  visible_ts : s'.core.visible_ts = s.core.visible_ts := by rfl

/-- A client step that leaves the queue, the phases and `visible_ts` alone. -/
theorem Timely.congr
    {s s' : Engine ρ} (h : s.Timely)
    (hphase : s'.phase = s.phase) (hqueue : s'.write_queue = s.write_queue)
    (hmode : s'.sync_writes = s.sync_writes)
    (hvis : s'.core.visible_ts = s.core.visible_ts)
    (hle : s.clock ≤ s'.clock) (hlt : s'.clock < 2 ^ 64 - 1) :
    s'.Timely := by
  have hbusy : s'.busy = s.busy := by
    unfold busy
    rw [hphase]
  have hpend : s'.pending = s.pending := by
    unfold pending
    rw [hbusy, hqueue]
  exact
    { alone := by rw [hphase, hqueue]; exact h.alone
      mode := by rw [hphase, hmode]; exact h.mode
      sorted := by rw [hpend]; exact h.sorted
      fresh := by
        rw [hpend, hvis]
        intro pw hpw
        have := h.fresh pw hpw
        omega
      muts_ts := by rw [hpend]; exact h.muts_ts
      visible_le := by
        have := h.visible_le
        omega
      clock_lt := hlt
      resolved := by rw [hbusy]; exact h.resolved
      flushLast := by rw [hbusy]; exact h.flushLast
      wipe_ran := by rw [hbusy]; exact h.wipe_ran }

/-- A step of the thread that works on the shards, before it publishes. -/
theorem Timely.setPhase
    {s s₁ : Engine ρ} (h : s.Timely) {a : Actor} (hp : s.phase a ≠ .idle)
    (hs : SameTimes s s₁) {p : Phase ρ} (hbatch : p.batch.Sublist (s.phase a).batch)
    (hres : ∀ j, p.job = some j → j.IsResolved)
    (hwipe : p.Wipes → ∀ j, p.job = some j → j.wipe_ran = true) :
    (s₁.setPhase a p).Timely := by
  have hother := h.other_idle hp
  have hbusy : (s₁.setPhase a p).busy = p := busy_setPhase (by rw [hs.phase]; exact hother) p
  have hother' : (s₁.setPhase a p).phase a.other = .idle := by
    rw [setPhase_phase_other, hs.phase]
    exact hother
  have hsub : (s₁.setPhase a p).pending.Sublist s.pending := by
    unfold pending
    rw [hbusy, Engine.busy_eq hother]
    exact hbatch.append (by rw [Engine.setPhase, hs.write_queue])
  have hvis : (s₁.setPhase a p).core.visible_ts = s.core.visible_ts := hs.visible_ts
  have hclock : (s₁.setPhase a p).clock = s.clock := hs.clock
  refine
    { alone := ?_
      mode := ?_
      sorted := h.sorted.sublist hsub
      fresh := by
        rw [hvis, hclock]
        exact fun pw hpw => h.fresh pw (hsub.subset hpw)
      muts_ts := fun pw hpw => h.muts_ts pw (hsub.subset hpw)
      visible_le := by rw [hvis, hclock]; exact h.visible_le
      clock_lt := by rw [hclock]; exact h.clock_lt
      resolved := by rw [hbusy]; exact hres
      flushLast := ?_
      wipe_ran := by rw [hbusy]; exact hwipe }
  · cases a with
    | flusher => exact Or.inl hother'
    | direct =>
        refine Or.inr ⟨hother', ?_⟩
        rcases h.alone with hd | ⟨_, hq⟩
        · exact absurd hd hp
        · exact hs.write_queue.trans hq
  · intro hsync
    have hd := h.mode (hs.sync_writes ▸ hsync)
    cases a with
    | flusher => exact hother'
    | direct => exact absurd hd hp
  · rw [hbusy]
    have := h.flushLast
    rw [Engine.busy_eq hother] at this
    exact List.Pairwise.sublist hbatch this

/-- The thread has a batch that is not resolved yet, and keeps it or drops it. -/
theorem Timely.setUnresolved
    {s s₁ : Engine ρ} (h : s.Timely) {a : Actor} (hp : s.phase a ≠ .idle)
    (hs : SameTimes s s₁) {p : Phase ρ} (hbatch : p.batch.Sublist (s.phase a).batch)
    (hjob : p.job = none) :
    (s₁.setPhase a p).Timely :=
  h.setPhase hp hs hbatch (by simp [hjob]) (by simp [hjob])

/-- The thread goes on with its resolved batch. -/
theorem Timely.setJob
    {s s₁ : Engine ρ} (h : s.Timely) {a : Actor} {j : Job ρ} (hj : (s.phase a).job = some j)
    (hs : SameTimes s s₁) {p : Phase ρ} (err : Option String)
    (hpj : p.job = some { j with err := err }) (hwipe : p.Wipes → j.wipe_ran = true) :
    (s₁.setPhase a p).Timely := by
  have hne : s.phase a ≠ .idle := by
    intro hidle
    simp [hidle, Phase.job] at hj
  have hres : j.IsResolved := h.resolved j (by rw [h.busy_eq hne, hj])
  refine h.setPhase hne hs ?_ ?_ ?_
  · rw [Phase.batch_of_job hj, Phase.batch_of_job hpj]
  · intro j' hj'
    rw [hpj, Option.some.injEq] at hj'
    exact hj' ▸ hres
  · intro hw j' hj'
    rw [hpj, Option.some.injEq] at hj'
    exact hj' ▸ hwipe hw

theorem Timely.job_wipe_ran
    {s : Engine ρ} (h : s.Timely) {a : Actor} (hw : (s.phase a).Wipes)
    {j : Job ρ} (hj : (s.phase a).job = some j) :
    j.wipe_ran = true := by
  have hne : s.phase a ≠ .idle := by
    intro hidle
    simp [hidle, Phase.job] at hj
  rw [← h.busy_eq hne] at hw hj
  exact h.wipe_ran hw j hj

/-- A new commit gets a timestamp above all others. -/
theorem Timely.submits
    {s s' : Engine ρ} (h : s.Timely) {mk : Nat → PendingWrite ρ} (hsub : Submits s mk s')
    (hts : (mk (s.clock + 1)).ts = s.clock + 1)
    (hmuts : ∀ m ∈ (mk (s.clock + 1)).muts, m.ts = s.clock + 1)
    (hflush : (mk (s.clock + 1)).flush_all.isSome = true → s.phase .direct = .idle)
    (hplain : (mk (s.clock + 1)).flush_all = none →
      s.sync_writes = true ∨ (s.phase .flusher = .idle ∧ s.write_queue = [])) :
    s'.Timely := by
  have hlast : ∀ l : List (PendingWrite ρ), l = s.pending →
      (l ++ [mk (s.clock + 1)]).Pairwise (fun p q => p.ts < q.ts) := by
    rintro l rfl
    rw [List.pairwise_append]
    refine ⟨h.sorted, List.pairwise_singleton _ _, ?_⟩
    intro p hp q hq
    rw [List.mem_singleton] at hq
    have := (h.fresh p hp).2
    rw [hq, hts]
    omega
  have hmem : ∀ pw, pw ∈ s.pending ++ [mk (s.clock + 1)] →
      (s.core.visible_ts < pw.ts ∧ pw.ts ≤ s.clock + 1) ∧ ∀ m ∈ pw.muts, m.ts = pw.ts := by
    intro pw hpw
    rcases List.mem_append.mp hpw with hpw | hpw
    · have := h.fresh pw hpw
      exact ⟨by omega, h.muts_ts pw hpw⟩
    · rw [List.mem_singleton] at hpw
      have := h.visible_le
      rw [hpw, hts]
      exact ⟨by omega, hmuts⟩
  cases hsub with
  | queued hclock hmode =>
      have hidle : s.phase .direct = .idle := by
        rcases hmode with hm | hf
        · exact h.mode hm
        · exact hflush hf
      set s' : Engine ρ :=
        { s with clock := s.clock + 1, write_queue := s.write_queue ++ [mk (s.clock + 1)] }
      have hbusy : s'.busy = s.busy := rfl
      have hpend : s'.pending = s.pending ++ [mk (s.clock + 1)] := by
        simp [s', pending, hbusy]
      exact
        { alone := Or.inl hidle
          mode := h.mode
          sorted := by rw [hpend]; exact hlast _ rfl
          fresh := by rw [hpend]; exact fun pw hpw => (hmem pw hpw).1
          muts_ts := by rw [hpend]; exact fun pw hpw => (hmem pw hpw).2
          visible_le := h.visible_le.trans (Nat.le_succ _)
          clock_lt := hclock
          resolved := h.resolved
          flushLast := h.flushLast
          wipe_ran := h.wipe_ran }
  | direct hclock hmode hnone hidle =>
      have hf : s.phase .flusher = .idle ∧ s.write_queue = [] := by
        rcases hplain hnone with hm | hf
        · simp [hmode] at hm
        · exact hf
      have hbusy := busy_setPhase (s := { s with clock := s.clock + 1 }) (a := .direct) hf.1
        (.resolving [mk (s.clock + 1)])
      set s' : Engine ρ :=
        { s with clock := s.clock + 1 }.setPhase .direct (.resolving [mk (s.clock + 1)])
      have hpend : s'.pending = [] ++ [mk (s.clock + 1)] := by
        unfold pending
        rw [hbusy]
        simp [Phase.batch, s', Engine.setPhase, hf.2]
      have hsub : ∀ pw ∈ s'.pending, pw ∈ s.pending ++ [mk (s.clock + 1)] := by
        intro pw hpw
        rw [hpend, List.nil_append] at hpw
        exact List.mem_append_right _ hpw
      exact
        { alone := Or.inr ⟨hf.1, hf.2⟩
          mode := by
            intro hm
            rw [show s'.sync_writes = false from hmode] at hm
            simp at hm
          sorted := by
            rw [hpend]
            exact List.pairwise_singleton _ _
          fresh := fun pw hpw => (hmem pw (hsub pw hpw)).1
          muts_ts := fun pw hpw => (hmem pw (hsub pw hpw)).2
          visible_le := h.visible_le.trans (Nat.le_succ _)
          clock_lt := hclock
          resolved := by rw [hbusy]; intro j hj; simp [Phase.job] at hj
          flushLast := by rw [hbusy]; exact List.pairwise_singleton _ _
          wipe_ran := by rw [hbusy]; intro hw; simp [Phase.Wipes] at hw }

/-- The thread publishes: its batch is no longer pending. -/
theorem Timely.publish
    {s : Engine ρ} (h : s.Timely) {a : Actor} {j : Job ρ} {effect : Effect}
    (hp : s.phase a = .publishing j effect) (history : List Event)
    (replies : List (Nat × Reply ρ)) :
    ({ s with
        core := { s.core with visible_ts := max s.core.visible_ts (batchMaxTs j.batch) }
        history := history
        replies := replies }.setPhase a (afterPublish a j effect)).Timely := by
  have hne : s.phase a ≠ .idle := by rw [hp]; simp
  have hother := h.other_idle hne
  have hbusy := h.busy_eq hne
  have hpend : s.pending = j.batch ++ s.write_queue := by
    rw [pending, hbusy, hp]
    rfl
  set p := afterPublish a j effect with hpdef
  have hbatch : p.batch = [] := by
    rcases afterPublish_cases a j effect with heq | heq <;> rw [hpdef, heq] <;> rfl
  have hjob : p.job = none := by
    rcases afterPublish_cases a j effect with heq | heq <;> rw [hpdef, heq] <;> rfl
  set s' : Engine ρ :=
    { s with
      core := { s.core with visible_ts := max s.core.visible_ts (batchMaxTs j.batch) }
      history := history
      replies := replies }.setPhase a p with hs'
  have hother' : s'.phase a.other = .idle := by
    rw [hs', setPhase_phase_other]
    exact hother
  have hbusy' : s'.busy = p := busy_setPhase hother p
  have hpend' : s'.pending = s.write_queue := by
    rw [pending, hbusy', hbatch]
    rfl
  have hmax : batchMaxTs j.batch ≤ s.clock := by
    rw [batchMaxTs_le_iff]
    intro pw hpw
    exact (h.fresh pw (by rw [hpend]; exact List.mem_append_left _ hpw)).2
  have hqueue : ∀ pw ∈ s.write_queue, pw ∈ s.pending := by
    intro pw hpw
    rw [hpend]
    exact List.mem_append_right _ hpw
  have hsorted := h.sorted
  rw [hpend, List.pairwise_append] at hsorted
  refine
    { alone := ?_
      mode := ?_
      sorted := by rw [hpend']; exact hsorted.2.1
      fresh := ?_
      muts_ts := by rw [hpend']; exact fun pw hpw => h.muts_ts pw (hqueue pw hpw)
      visible_le := Nat.max_le.mpr ⟨h.visible_le, hmax⟩
      clock_lt := h.clock_lt
      resolved := by rw [hbusy', hjob]; simp
      flushLast := by rw [hbusy', hbatch]; exact List.Pairwise.nil
      wipe_ran := by rw [hbusy', hjob]; simp }
  · cases a with
    | flusher => exact Or.inl hother'
    | direct =>
        refine Or.inr ⟨hother', ?_⟩
        rcases h.alone with hd | ⟨_, hq⟩
        · exact absurd hd hne
        · exact hq
  · intro hsync
    have hd := h.mode hsync
    cases a with
    | flusher => exact hother'
    | direct => exact absurd hd hne
  · rw [hpend']
    intro pw hpw
    have hq := h.fresh pw (hqueue pw hpw)
    refine ⟨Nat.max_lt.mpr ⟨hq.1, ?_⟩, hq.2⟩
    have hpos : 0 < pw.ts := by omega
    have : batchMaxTs j.batch ≤ pw.ts - 1 := by
      rw [batchMaxTs_le_iff]
      intro p hp
      have := hsorted.2.2 p hp pw hpw
      omega
    omega

theorem Timely.works
    {s s' : Engine ρ} (h : s.Timely) {a : Actor} {io : Io} (hw : Works s a io s') :
    s'.Timely := by
  cases hw with
  | horizon hp =>
      exact h.setUnresolved (by simp [hp]) {} (by rw [hp]; exact .refl _) rfl
  | @noSweep batch _ hp _ =>
      rcases afterSweep_cases a batch with heq | heq <;> rw [heq]
      · exact h.setUnresolved (by simp [hp]) {} (by rw [hp]; exact .refl _) rfl
      · exact h.setUnresolved (by simp [hp]) {} (List.nil_sublist _) rfl
  | ready hp =>
      exact h.setUnresolved (by simp [hp]) {} (by rw [hp]; exact .refl _) rfl
  | sweep n hp =>
      exact h.setUnresolved (by simp [hp])
        { visible_ts := FlushCore.sweep_remove_visible_ts _ _ }
        (by rw [hp]; exact .refl _) rfl
  | @swept batch _ hp =>
      rcases afterSweep_cases a batch with heq | heq <;> rw [heq]
      · exact h.setUnresolved (by simp [hp]) {} (by rw [hp]; exact .refl _) rfl
      · exact h.setUnresolved (by simp [hp]) {} (List.nil_sublist _) rfl
  | @resolve batch hp =>
      set j : Job ρ :=
        { batch := batch, outcomes := resolveBatch s.core batch, err := none } with hjdef
      have hres : j.IsResolved := ⟨s.core, rfl⟩
      have hgoes : ∀ p : Phase ρ, p.job = some j → ¬ p.Wipes → (s.setPhase a p).Timely := by
        intro p hpj hnw
        refine h.setPhase (by simp [hp]) {} ?_ ?_ (fun hw => absurd hw hnw)
        · rw [Phase.batch_of_job hpj, hp]
          exact .refl _
        · intro j' hj'
          rw [hpj, Option.some.injEq] at hj'
          exact hj' ▸ hres
      rcases afterResolve_cases a j with heq | heq | heq <;> rw [heq]
      · exact hgoes _ rfl (by simp [Phase.Wipes])
      · exact hgoes _ rfl (by simp [Phase.Wipes])
      · exact hgoes _ rfl (by simp [Phase.Wipes])
  | @log j wal core result hp hlog =>
      have hj : (s.phase a).job = some j := by rw [hp]; rfl
      obtain ⟨n, rfl⟩ := Job.log_core hlog
      obtain ⟨err, ⟨heq, hwr⟩ | ⟨heq, _⟩ | heq⟩ := afterLog_cases j result <;> rw [heq]
      · exact h.setJob hj {} err rfl fun _ => hwr
      · exact h.setJob hj {} j.err rfl (by simp [Phase.Wipes])
      · exact h.setJob hj {} err rfl (by simp [Phase.Wipes])
  | @flushFailed j wal e hp =>
      exact h.setJob (by rw [hp]; rfl) {} (some (j.err.getD e.text)) rfl
        (by simp [Engine.flushFailed, Phase.Wipes])
  | @flushFiles j hp =>
      have hj : (s.phase a).job = some j := by rw [hp]; rfl
      exact h.setJob hj {} j.err rfl fun _ => h.job_wipe_ran (by rw [hp]; trivial) hj
  | @wipe j next hp _ =>
      have hj : (s.phase a).job = some j := by rw [hp]; rfl
      exact h.setJob hj {} j.err rfl fun _ => h.job_wipe_ran (by rw [hp]; trivial) hj
  | @wiped j next hp _ =>
      have hj : (s.phase a).job = some j := by rw [hp]; rfl
      exact h.setJob hj {} j.err rfl fun _ => h.job_wipe_ran (by rw [hp]; trivial) hj
  | @skip j next hp _ _ => exact h.setJob (by rw [hp]; rfl) {} j.err rfl (by simp [Phase.Wipes])
  | @lock j next hp _ => exact h.setJob (by rw [hp]; rfl) {} j.err rfl (by simp [Phase.Wipes])
  | @push j next active hp _ =>
      exact h.setJob (by rw [hp]; rfl) {} j.err rfl (by simp [Phase.Wipes])
  | @applied j next hp _ =>
      exact h.setJob (by rw [hp]; rfl) {} j.err rfl (by simp [Phase.Wipes])
  | publish hp => exact h.publish hp _ _

@[simp] theorem unregister_visible_ts (core : FlushCore) (t : Nat) :
    (core.unregister t).visible_ts = core.visible_ts := by
  unfold FlushCore.unregister
  split
  · rfl
  · split <;> rfl

/-- Every ordinary step keeps the timestamps in order. -/
theorem Timely.step
    {s s' : Engine ρ} {act : Act ρ} (h : s.Timely) (hok : s.Ordinary act)
    (hst : Step s act s') :
    s'.Timely := by
  have hlt := h.clock_lt
  cases hst with
  | begin_ _ => exact h.congr rfl rfl rfl rfl le_rfl hlt
  | ownRead => exact h
  | txnGet _ _ _ => exact h.congr rfl rfl rfl rfl le_rfl hlt
  | txnPut _ _ _ => exact h.congr rfl rfl rfl rfl le_rfl hlt
  | txnCommit _ _ hsub =>
      have h₁ := h.submits hsub rfl (fun m hm => opMuts_ts hm)
        (by simp [Txn.pending]) (fun _ => hok)
      exact h₁.congr rfl rfl rfl rfl le_rfl h₁.clock_lt
  | txnDrop _ _ => exact h.congr rfl rfl rfl (unregister_visible_ts _ _) le_rfl hlt
  | dumpStart => exact h.congr rfl rfl rfl rfl le_rfl hlt
  | ckptPin _ => exact h.congr rfl rfl rfl rfl le_rfl hlt
  | unpin _ => exact h.congr rfl rfl rfl (unregister_visible_ts _ _) le_rfl hlt
  | now hclock => exact h.congr rfl rfl rfl rfl (Nat.le_succ _) hclock
  | @submit r _ hsub =>
      cases r with
      | write writes =>
          exact h.submits hsub rfl (fun m hm => opMuts_ts hm) (by simp [Request.pending])
            (fun _ => hok)
      | incr key by_ =>
          exact h.submits hsub rfl (by simp [Request.pending]) (by simp [Request.pending])
            (fun _ => hok)
      | op o =>
          exact h.submits hsub rfl (by simp [Request.pending]) (by simp [Request.pending])
            (fun _ => hok)
      | flush_all bak =>
          exact h.submits hsub rfl (by simp [Request.pending]) (fun _ => hok)
            (by simp [Request.pending])
  | drain hidle hne =>
      have hd : s.phase .direct = .idle := by
        rcases h.alone with hd | ⟨_, hq⟩
        · exact hd
        · exact absurd hq hne
      have hpend : s.pending = s.write_queue := by
        rw [pending, Engine.busy_eq (a := .flusher) hd, hidle]
        rfl
      have hbusy := busy_setPhase (s := { s with write_queue := [] }) (a := .flusher) hd
        (.drained s.write_queue)
      set s' : Engine ρ :=
        { s with write_queue := [] }.setPhase .flusher (.drained s.write_queue) with hs'
      have hpend' : s'.pending = s.pending := by
        rw [pending, hbusy, hpend]
        simp [Phase.batch, hs', Engine.setPhase]
      exact
        { alone := Or.inl hd
          mode := fun _ => hd
          sorted := by rw [hpend']; exact h.sorted
          fresh := by rw [hpend']; exact h.fresh
          muts_ts := by rw [hpend']; exact h.muts_ts
          visible_le := h.visible_le
          clock_lt := h.clock_lt
          resolved := by rw [hbusy]; simp [Phase.job]
          flushLast := by rw [hbusy]; exact hok
          wipe_ran := by rw [hbusy]; simp [Phase.Wipes] }
  | work hw => exact h.works hw

end Engine
end Phases
end StrikeDB
