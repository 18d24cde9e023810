import StrikeDB.Opening

/-!
# StrikeDB: snapshots are stable

Clients read a shard only while nobody holds its write lock.  `settled s` is the
store with the push finished that is under way in `s`; what it shows at a
registered snapshot is what every later read at that snapshot shows.

* `settled_view`: no step changes what `settled` shows at a registered snapshot.
* `snapshots_stable`: no version at or below a snapshot that was taken is ever
  added, and all reads at a registered snapshot agree with one fixed store.
-/

namespace StrikeDB

section SnapshotReads

variable {ρ : Type}

namespace Engine

theorem guarded_start (o : Opened) (sync_writes : Bool) :
    Guarded (start o sync_writes : Engine ρ).core.visible_ts (start o sync_writes : Engine ρ) :=
  .of_busy le_rfl (by simp [start, busy]) (by simp [start, busy])

/-! ### Runs without FLUSHALL -/

/-- The step is not the submission of a FLUSHALL. -/
def NoFlush (_ : Engine ρ) (act : Act ρ) : Prop := ∀ bak, act ≠ .submit (.flush_all bak)

/-- No FLUSHALL is pending; in `SYNC=0` mode the flusher has nothing to do. -/
structure Flushless (s : Engine ρ) : Prop where
  queue : ∀ pw ∈ s.write_queue, pw.flush_all = none
  batch : ∀ a, ∀ pw ∈ (s.phase a).batch, pw.flush_all = none
  mode : s.sync_writes = false → s.phase .flusher = .idle ∧ s.write_queue = []

/-- Work on a batch leaves the queue and the other thread alone. -/
theorem works_frame
    {s s' : Engine ρ} {a : Actor} {io : Io} (hw : Works s a io s') :
    (s'.phase a).batch.Sublist (s.phase a).batch ∧ s'.phase a.other = s.phase a.other ∧
      s'.write_queue = s.write_queue ∧ s'.sync_writes = s.sync_writes := by
  have hset : ∀ (s₁ : Engine ρ) (p : Phase ρ), s₁.phase = s.phase →
      s₁.write_queue = s.write_queue → s₁.sync_writes = s.sync_writes →
      p.batch.Sublist (s.phase a).batch →
      ((s₁.setPhase a p).phase a).batch.Sublist (s.phase a).batch ∧
        (s₁.setPhase a p).phase a.other = s.phase a.other ∧
        (s₁.setPhase a p).write_queue = s.write_queue ∧
        (s₁.setPhase a p).sync_writes = s.sync_writes := by
    intro s₁ p hphase hqueue hmode hsub
    rw [setPhase_phase_self, setPhase_phase_other, hphase]
    exact ⟨hsub, rfl, hqueue, hmode⟩
  cases hw with
  | horizon hp => exact hset _ _ rfl rfl rfl (by rw [hp]; exact .refl _)
  | @noSweep batch _ hp _ =>
      rcases afterSweep_cases a batch with heq | heq <;> rw [heq]
      · exact hset _ _ rfl rfl rfl (by rw [hp]; exact .refl _)
      · exact hset _ _ rfl rfl rfl (List.nil_sublist _)
  | ready hp => exact hset _ _ rfl rfl rfl (by rw [hp]; exact .refl _)
  | sweep _ hp => exact hset _ _ rfl rfl rfl (by rw [hp]; exact .refl _)
  | @swept batch _ hp =>
      rcases afterSweep_cases a batch with heq | heq <;> rw [heq]
      · exact hset _ _ rfl rfl rfl (by rw [hp]; exact .refl _)
      · exact hset _ _ rfl rfl rfl (List.nil_sublist _)
  | @resolve batch hp =>
      rcases afterResolve_cases a
        { batch := batch, outcomes := resolveBatch s.core batch, err := none } with
        heq | heq | heq <;> rw [heq] <;>
        exact hset _ _ rfl rfl rfl (by rw [hp]; exact .refl _)
  | @log j wal core result hp hlog =>
      obtain ⟨err, ⟨heq, _⟩ | ⟨heq, _⟩ | heq⟩ := afterLog_cases j result <;> rw [heq] <;>
        exact hset _ _ rfl rfl rfl (by rw [hp]; exact .refl _)
  | flushFailed _ _ hp => exact hset _ _ rfl rfl rfl (by rw [hp]; exact .refl _)
  | flushFiles hp => exact hset _ _ rfl rfl rfl (by rw [hp]; exact .refl _)
  | wipe hp _ => exact hset _ _ rfl rfl rfl (by rw [hp]; exact .refl _)
  | wiped hp _ => exact hset _ _ rfl rfl rfl (by rw [hp]; exact .refl _)
  | skip hp _ _ => exact hset _ _ rfl rfl rfl (by rw [hp]; exact .refl _)
  | lock hp _ => exact hset _ _ rfl rfl rfl (by rw [hp]; exact .refl _)
  | push hp _ => exact hset _ _ rfl rfl rfl (by rw [hp]; exact .refl _)
  | applied hp _ => exact hset _ _ rfl rfl rfl (by rw [hp]; exact .refl _)
  | @publish j effect hp =>
      rcases afterPublish_cases a j effect with heq | heq <;> rw [heq] <;>
        exact hset _ _ rfl rfl rfl (List.nil_sublist _)

theorem Flushless.submits
    {s s' : Engine ρ} (h : s.Flushless) {mk : Nat → PendingWrite ρ} (hsub : Submits s mk s')
    (hnone : (mk (s.clock + 1)).flush_all = none) :
    s'.Flushless := by
  cases hsub with
  | queued _ hmode =>
      rw [hnone] at hmode
      have hsync : s.sync_writes = true := by simpa using hmode
      refine ⟨?_, h.batch, by simp [hsync]⟩
      intro pw hpw
      rcases List.mem_append.mp hpw with hpw | hpw
      · exact h.queue pw hpw
      · rw [List.mem_singleton] at hpw
        rw [hpw]
        exact hnone
  | direct _ hmode _ _ =>
      refine ⟨h.queue, ?_, fun _ => h.mode hmode⟩
      intro a pw hpw
      cases a with
      | flusher => exact h.batch .flusher pw hpw
      | direct =>
          simp only [setPhase_phase_self, Phase.batch, List.mem_singleton] at hpw
          rw [hpw]
          exact hnone

theorem Flushless.step
    {s s' : Engine ρ} {act : Act ρ} (h : s.Flushless) (hok : s.NoFlush act)
    (hst : Step s act s') :
    s'.Flushless := by
  cases hst with
  | begin_ _ => exact ⟨h.queue, h.batch, h.mode⟩
  | ownRead => exact h
  | txnGet _ _ _ => exact ⟨h.queue, h.batch, h.mode⟩
  | txnPut _ _ _ => exact ⟨h.queue, h.batch, h.mode⟩
  | txnCommit _ _ hsub =>
      have h₁ := h.submits hsub rfl
      exact ⟨h₁.queue, h₁.batch, h₁.mode⟩
  | txnDrop _ _ => exact ⟨h.queue, h.batch, h.mode⟩
  | dumpStart => exact ⟨h.queue, h.batch, h.mode⟩
  | ckptPin _ => exact ⟨h.queue, h.batch, h.mode⟩
  | unpin _ => exact ⟨h.queue, h.batch, h.mode⟩
  | now _ => exact ⟨h.queue, h.batch, h.mode⟩
  | @submit r _ hsub =>
      refine h.submits hsub ?_
      cases r with
      | flush_all bak => exact absurd rfl (hok bak)
      | write _ => rfl
      | incr _ _ => rfl
      | op _ => rfl
  | drain hidle hne =>
      refine ⟨by simp [Engine.setPhase], ?_, ?_⟩
      · intro a pw hpw
        cases a with
        | flusher =>
            simp only [setPhase_phase_self, Phase.batch] at hpw
            exact h.queue pw hpw
        | direct => exact h.batch .direct pw hpw
      · intro hsync
        exact absurd (h.mode hsync).2 hne
  | @work a _ _ hw =>
      obtain ⟨hsub, hother, hqueue, hmode⟩ := works_frame hw
      refine ⟨by rw [hqueue]; exact h.queue, ?_, ?_⟩
      · intro b pw hpw
        by_cases hb : b = a
        · subst hb
          exact h.batch b pw (hsub.subset hpw)
        · have hba : b = a.other := by cases a <;> cases b <;> simp_all [Actor.other]
          rw [hba, hother] at hpw
          exact h.batch _ pw hpw
      · intro hsync
        rw [hmode] at hsync
        obtain ⟨hidle, hq⟩ := h.mode hsync
        refine ⟨?_, hqueue.trans hq⟩
        cases a with
        | flusher => cases hw <;> simp_all
        | direct => exact hother.trans hidle

/-- Without FLUSHALL every step is ordinary. -/
theorem Flushless.ordinary
    {s : Engine ρ} (h : s.Flushless) {act : Act ρ} (hok : s.NoFlush act) :
    s.Ordinary act := by
  have hmode : s.sync_writes = true ∨ (s.phase .flusher = .idle ∧ s.write_queue = []) := by
    cases hs : s.sync_writes with
    | true => exact Or.inl rfl
    | false => exact Or.inr (h.mode hs)
  cases act with
  | submit r =>
      cases r with
      | flush_all bak => exact absurd rfl (hok bak)
      | write _ => exact hmode
      | incr _ _ => exact hmode
      | op _ => exact hmode
  | txnCommit id => exact hmode
  | drain =>
      refine List.pairwise_of_forall_mem_list ?_
      intro p hp q _ hf
      rw [h.queue p hp] at hf
      simp at hf
  | _ => trivial

/-- Without FLUSHALL nothing is ever wiped. -/
theorem Flushless.not_wipes
    {s : Engine ρ} (h : s.Flushless) (ht : s.Timely) {a : Actor} {j : Job ρ}
    (hj : (s.phase a).job = some j) :
    ¬ (s.phase a).Wipes := by
  intro hw
  have := ht.job_wipe_ran hw hj
  obtain ⟨pw, hpw, hf⟩ := List.any_eq_true.mp this
  rw [h.batch a pw (by rw [Phase.batch_of_job hj]; exact hpw)] at hf
  simp at hf

/-! ### Old versions -/

/-- A version was there before the step, or its push is under way. -/
theorem versions_step
    {s s' : Engine ρ} {act : Act ρ} (hst : Step s act s')
    {k : Key} {c : Chain} (hc : s'.core.chain k = some c) {v : Version}
    (hv : v ∈ c.versions) :
    (∃ c₀, s.core.chain k = some c₀ ∧ v ∈ c₀.versions) ∨
      ∃ a j active m, s.phase a = .applying j (shard_of k).val (some active) ∧ m ∈ j.muts ∧
        shard_of m.key = shard_of k ∧ v.ts = m.ts := by
  have hsame : s'.core.chain k = s.core.chain k → (∃ c₀, s.core.chain k = some c₀ ∧
      v ∈ c₀.versions) ∨ ∃ a j active m, s.phase a = .applying j (shard_of k).val (some active) ∧
        m ∈ j.muts ∧ shard_of m.key = shard_of k ∧ v.ts = m.ts :=
    fun heq => Or.inl ⟨c, heq ▸ hc, hv⟩
  cases hst with
  | txnCommit _ _ hsub => cases hsub <;> exact hsame rfl
  | submit hsub => cases hsub <;> exact hsame rfl
  | txnDrop _ _ => exact hsame (chain_unregister _ _ _)
  | unpin _ => exact hsame (chain_unregister _ _ _)
  | @work a io _ hw =>
      cases hw with
      | @sweep batch e ready n n' hp =>
          change (s.core.sweep_remove e).chain k = some c at hc
          rw [FlushCore.chain_sweep_remove] at hc
          split at hc
          · cases hc
          · exact Or.inl ⟨c, hc, hv⟩
      | @log j wal core result hp hlog =>
          obtain ⟨n, rfl⟩ := Job.log_core hlog
          exact hsame rfl
      | @wipe j next hp hlt =>
          change (s.core.clear_shard _).chain k = some c at hc
          rw [FlushCore.chain_clear_shard] at hc
          split at hc
          · cases hc
          · exact Or.inl ⟨c, hc, hv⟩
      | @push j next active hp hlt =>
          change (s.core.apply_shard _ j.muts active).chain k = some c at hc
          rw [FlushCore.chain_apply_shard] at hc
          split at hc
          · next heq =>
              rw [← FlushCore.pushAll_itemsOf] at hc
              rcases FlushCore.mem_pushAll hc hv with ⟨m, hm, rfl⟩ | hold
              · obtain ⟨hm, hshard⟩ := List.mem_filter.mp hm
                refine Or.inr ⟨a, j, active, m, ?_, hm, by simpa using hshard, rfl⟩
                rw [hp, heq]
              · exact Or.inl hold
          · exact Or.inl ⟨c, hc, hv⟩
      | _ => exact hsame rfl
  | _ => exact hsame rfl

/-- No step adds a version at or below what is published. -/
theorem old_versions_step
    {s s' : Engine ρ} {act : Act ρ} (ht : s.Timely) (hst : Step s act s')
    {k : Key} {c : Chain} (hc : s'.core.chain k = some c) {v : Version}
    (hv : v ∈ c.versions) (hle : v.ts ≤ s.core.visible_ts) :
    ∃ c₀, s.core.chain k = some c₀ ∧ v ∈ c₀.versions := by
  rcases versions_step hst hc hv with hold | ⟨a, j, active, m, hp, hm, _, hts⟩
  · exact hold
  · have := ht.job_muts_fresh (a := a) (by rw [hp]; rfl) m hm
    omega

/-! ### The settled store -/

/-- The store with the push finished that is under way. -/
def settled (s : Engine ρ) : FlushCore :=
  match s.busy with
  | .applying j next (some active) =>
      if h : next < SHARD_COUNT then s.core.apply_shard ⟨next, h⟩ j.muts active else s.core
  | _ => s.core

theorem settled_eq
    {s : Engine ρ} (h : ∀ j next active, s.busy ≠ .applying j next (some active)) :
    s.settled = s.core := by
  unfold settled
  split
  · next hb => exact absurd hb (h _ _ _)
  · rfl

theorem settled_view_congr
    {s s' : Engine ρ} (hbusy : s'.busy = s.busy) (hshards : s'.core.shards = s.core.shards)
    (i : Fin SHARD_COUNT) (k : Key) (t : Nat) :
    s'.settled.view i k t = s.settled.view i k t := by
  unfold settled
  rw [hbusy]
  split
  · split
    · simp [FlushCore.view, FlushCore.apply_shard, hshards]
    · simp [FlushCore.view, hshards]
  · simp [FlushCore.view, hshards]

/-- A shard that nobody holds is settled. -/
theorem settled_shards
    {s : Engine ρ} {i : Fin SHARD_COUNT} (hun : s.unlocked i = true) :
    s.settled.shards i = s.core.shards i := by
  unfold settled
  split
  · next j next active hb =>
      have hne : (i : Nat) ≠ next := by
        rintro rfl
        simp only [unlocked, Bool.and_eq_true, Bool.not_eq_eq_eq_not, Bool.not_true] at hun
        unfold busy at hb
        split at hb
        · rw [hb] at hun
          simp [Phase.holds] at hun
        · rw [hb] at hun
          simp [Phase.holds] at hun
      split
      · next hlt =>
          have : i ≠ ⟨next, hlt⟩ := fun heq => hne (by rw [heq])
          simp [FlushCore.apply_shard, Function.update_of_ne this]
      · rfl
  · rfl

/-- What the stability of snapshot `t` rests on. -/
structure Stable (t : Nat) (s : Engine ρ) : Prop where
  timely : s.Timely
  placed : s.core.Placed
  flushless : s.Flushless
  guarded : Guarded t s

theorem placed_step
    {s s' : Engine ρ} {act : Act ρ} (h : s.core.Placed) (hst : Step s act s') :
    s'.core.Placed := by
  have hunregister : ∀ t, (s.core.unregister t).Placed := by
    intro t
    unfold FlushCore.unregister
    split
    · exact h
    · split <;> exact h
  cases hst with
  | txnCommit _ _ hsub => cases hsub <;> exact h
  | submit hsub => cases hsub <;> exact h
  | txnDrop _ _ => exact hunregister _
  | unpin _ => exact hunregister _
  | work hw =>
      cases hw with
      | sweep _ _ => exact h.sweep_remove _
      | log _ hlog =>
          obtain ⟨n, rfl⟩ := Job.log_core hlog
          exact h
      | wipe _ _ => exact h.clear_shard _
      | push _ _ => exact h.apply_shard _ _ _
      | _ => exact h
  | _ => exact h

theorem Stable.step
    {s s' : Engine ρ} {t : Nat} {act : Act ρ} (h : Stable t s) (hok : s.NoFlush act)
    (hopen : t ∈ s.core.active ∨ t = s.core.visible_ts) (hst : Step s act s') :
    Stable t s' where
  timely := h.timely.step (h.flushless.ordinary hok) hst
  placed := placed_step h.placed hst
  flushless := h.flushless.step hok hst
  guarded := h.guarded.step h.timely hopen hst

/-- Work on a batch shows a registered snapshot the same settled store, unless it is the
clearing of the shard by FLUSHALL. -/
theorem settled_view_works
    {s s' : Engine ρ} {t : Nat} (ht : s.Timely) (hplaced : s.core.Placed) (hguard : Guarded t s)
    (hopen : t ∈ s.core.active) {a : Actor} {io : Io} (hw : Works s a io s')
    (i : Fin SHARD_COUNT) (k : Key)
    (hclear : ∀ j, s.phase a = .wiping j i → s.core.view i k t = none) :
    s'.settled.view i k t = s.settled.view i k t := by
  have hother : s.phase a.other = .idle := by
    refine ht.other_idle ?_
    intro hidle
    cases hw <;> simp_all
  have hbusy := Engine.busy_eq hother
  have hset : ∀ (s₁ : Engine ρ) (p : Phase ρ), s₁.phase = s.phase →
      (s₁.setPhase a p).busy = p := by
    intro s₁ p hphase
    exact busy_setPhase (by rw [hphase]; exact hother) p
  have hfresh : ∀ j, (s.phase a).job = some j → ∀ m ∈ j.muts, t < m.ts := by
    intro j hj m hm
    exact lt_of_le_of_lt hguard.visible (ht.job_muts_fresh hj m hm)
  -- most phases hold no lock before or after the step
  have hplain : ∀ (s₁ : Engine ρ) (p : Phase ρ), s₁.phase = s.phase →
      (∀ j n act, p ≠ .applying j n (some act)) →
      (∀ j n act, s.phase a ≠ .applying j n (some act)) →
      s₁.core.view i k t = s.core.view i k t →
      (s₁.setPhase a p).settled.view i k t = s.settled.view i k t := by
    intro s₁ p hphase hp hp₀ hview
    rw [settled_eq (s := s₁.setPhase a p) (by rw [hset s₁ p hphase]; exact hp),
      settled_eq (s := s) (by rw [hbusy]; exact hp₀)]
    exact hview
  cases hw with
  | horizon hp => exact hplain _ _ rfl (by simp) (by simp [hp]) rfl
  | @noSweep batch _ hp _ =>
      rcases afterSweep_cases a batch with heq | heq <;> rw [heq] <;>
        exact hplain _ _ rfl (by simp) (by simp [hp]) rfl
  | ready hp => exact hplain _ _ rfl (by simp) (by simp [hp]) rfl
  | @sweep batch e ready n n' hp =>
      refine hplain { s with core := s.core.sweep_remove e } _ rfl (by simp) (by simp [hp]) ?_
      exact FlushCore.view_sweep_remove hplaced
        (hguard.ready batch (e :: ready) n (by rw [hbusy, hp]) e (by simp)) i k
  | @swept batch _ hp =>
      rcases afterSweep_cases a batch with heq | heq <;> rw [heq] <;>
        exact hplain _ _ rfl (by simp) (by simp [hp]) rfl
  | @resolve batch hp =>
      rcases afterResolve_cases a
        { batch := batch, outcomes := resolveBatch s.core batch, err := none } with
        heq | heq | heq <;> rw [heq] <;> exact hplain _ _ rfl (by simp) (by simp [hp]) rfl
  | @log j wal core result hp hlog =>
      obtain ⟨n, rfl⟩ := Job.log_core hlog
      obtain ⟨err, ⟨heq, _⟩ | ⟨heq, _⟩ | heq⟩ := afterLog_cases j result <;> rw [heq] <;>
        exact hplain _ _ rfl (by simp) (by simp [hp]) rfl
  | flushFailed wal e hp =>
      exact hplain _ _ rfl (by simp [Engine.flushFailed]) (by simp [hp]) rfl
  | flushFiles hp => exact hplain _ _ rfl (by simp) (by simp [hp]) rfl
  | @wipe j next hp hlt =>
      refine hplain { s with core := s.core.clear_shard ⟨next, hlt⟩ } _ rfl (by simp) (by simp [hp]) ?_
      by_cases hi : i = ⟨next, hlt⟩
      · rw [hclear j (by rw [hp, hi])]
        simp [FlushCore.view, FlushCore.clear_shard, hi]
      · simp [FlushCore.view, FlushCore.clear_shard, Function.update_of_ne hi]
  | wiped hp _ => exact hplain _ _ rfl (by simp) (by simp [hp]) rfl
  | skip hp _ _ => exact hplain _ _ rfl (by simp) (by simp [hp]) rfl
  | @lock j next hp hlt =>
      -- the push that is now under way keeps what `t` reads
      rw [settled_eq (s := s) (by rw [hbusy, hp]; simp)]
      unfold settled
      rw [hset s _ rfl]
      simp only [hlt, dif_pos]
      exact FlushCore.view_apply_shard hplaced s.core.openSnapshots_sorted
        ((FlushCore.mem_openSnapshots _ _).mpr hopen) (hfresh j (by rw [hp]; rfl)) _ i k
  | @push j next active hp hlt =>
      rw [settled_eq (s := Engine.setPhase { s with core := s.core.apply_shard _ _ _ } a _)
        (by rw [hset { s with core := s.core.apply_shard _ _ _ } _ rfl]; simp)]
      unfold settled
      rw [hbusy, hp]
      simp only [hlt, dif_pos]
      rfl
  | applied hp _ => exact hplain _ _ rfl (by simp) (by simp [hp]) rfl
  | @publish j effect hp =>
      rcases afterPublish_cases a j effect with heq | heq <;> rw [heq] <;>
        exact hplain _ _ rfl (by simp) (by simp [hp]) rfl

theorem settled_view_submits
    {s s' : Engine ρ} {mk : Nat → PendingWrite ρ}
    (hplain : (mk (s.clock + 1)).flush_all = none →
      s.sync_writes = true ∨ (s.phase .flusher = .idle ∧ s.write_queue = []))
    (hsub : Submits s mk s') (i : Fin SHARD_COUNT) (k : Key) (t : Nat) :
    s'.settled.view i k t = s.settled.view i k t := by
  cases hsub with
  | queued _ _ => exact settled_view_congr (by rfl) (by rfl) i k t
  | direct _ hmode hnone hidle =>
      have hf : s.phase .flusher = .idle := by
        rcases hplain hnone with hm | hf
        · simp [hmode] at hm
        · exact hf.1
      have hbusy : s.busy = .idle := by rw [Engine.busy_eq (a := .direct) hf, hidle]
      rw [settled_eq (s := s) (by rw [hbusy]; simp),
        settled_eq (s := Engine.setPhase _ _ _) (by rw [busy_setPhase hf]; simp)]
      rfl

/-- Only the clearing of the shard changes what the settled store shows at a registered
snapshot. -/
theorem settled_view_ordinary
    {s s' : Engine ρ} {t : Nat} {act : Act ρ} (ht : s.Timely) (hplaced : s.core.Placed)
    (hguard : Guarded t s) (hok : s.Ordinary act) (hopen : t ∈ s.core.active)
    (hst : Step s act s') (i : Fin SHARD_COUNT) (k : Key)
    (hclear : ∀ a j, s.phase a = .wiping j i → s.core.view i k t = none) :
    s'.settled.view i k t = s.settled.view i k t := by
  have hunregister : ∀ u, (s.core.unregister u).shards = s.core.shards := by
    intro u
    unfold FlushCore.unregister
    split
    · rfl
    · split <;> rfl
  cases hst with
  | begin_ _ => exact settled_view_congr (by rfl) (by rfl) i k t
  | ownRead => rfl
  | txnGet _ _ _ => exact settled_view_congr (by rfl) (by rfl) i k t
  | txnPut _ _ _ => exact settled_view_congr (by rfl) (by rfl) i k t
  | txnCommit _ _ hsub =>
      refine Eq.trans ?_ (settled_view_submits (fun _ => hok) hsub i k t)
      exact settled_view_congr (by rfl) (by rfl) i k t
  | txnDrop _ _ => exact settled_view_congr (by rfl) (by exact hunregister _) i k t
  | dumpStart => exact settled_view_congr (by rfl) (by rfl) i k t
  | ckptPin _ => exact settled_view_congr (by rfl) (by rfl) i k t
  | unpin _ => exact settled_view_congr (by rfl) (by exact hunregister _) i k t
  | now _ => exact settled_view_congr (by rfl) (by rfl) i k t
  | @submit r _ hsub =>
      refine settled_view_submits ?_ hsub i k t
      intro hnone
      cases r with
      | flush_all bak => simp [Request.pending] at hnone
      | write _ => exact hok
      | incr _ _ => exact hok
      | op _ => exact hok
  | drain hidle hne =>
      have hd := ht.direct_idle hne
      have hbusy : s.busy = .idle := by rw [Engine.busy_eq (a := .flusher) hd, hidle]
      rw [settled_eq (s := s) (by rw [hbusy]; simp),
        settled_eq (s := Engine.setPhase _ _ _) (by rw [busy_setPhase hd]; simp)]
      rfl
  | work hw => exact settled_view_works ht hplaced hguard hopen hw i k fun j hp => hclear _ j hp

/-- No step changes what the settled store shows at a registered snapshot. -/
theorem settled_view
    {s s' : Engine ρ} {t : Nat} {act : Act ρ} (h : Stable t s) (hok : s.NoFlush act)
    (hopen : t ∈ s.core.active) (hst : Step s act s') (i : Fin SHARD_COUNT) (k : Key) :
    s'.settled.view i k t = s.settled.view i k t := by
  refine settled_view_ordinary h.timely h.placed h.guarded (h.flushless.ordinary hok) hopen hst i k
    ?_
  intro a j hp
  exact absurd (by rw [hp]; trivial) (h.flushless.not_wipes h.timely (a := a) (by rw [hp]; rfl))

/-! ### Reads at a registered snapshot -/

/-- Every read at `t` that a client can make in `s` answers as `frozen` does. -/
structure ReadsAs (t : Nat) (frozen : FlushCore) (s : Engine ρ) : Prop where
  get_at : ∀ k, s.unlocked (shard_of k) = true → s.core.get_at k t = frozen.get_at k t
  scanShard : ∀ (i : Fin SHARD_COUNT), s.unlocked i = true → ∀ start stop,
    s.core.scanShard i start stop t = frozen.scanShard i start stop t
  txn_get : ∀ txn : Txn, txn.snapshot = t → ∀ k, s.unlocked (shard_of k) = true →
    txn.get s.core k = txn.get frozen k
  txn_scan : ∀ txn : Txn, txn.snapshot = t → ∀ hint, s.unlocked (shard_of hint) = true →
    ∀ start stop limit reverse, txn.scan_range s.core hint start stop limit reverse =
      txn.scan_range frozen hint start stop limit reverse

theorem readsAs_of_view
    {s : Engine ρ} {t : Nat} {frozen : FlushCore}
    (h : ∀ (i : Fin SHARD_COUNT) k, s.unlocked i = true →
      s.core.view i k t = frozen.view i k t) :
    ReadsAs t frozen s := by
  have hget : ∀ k, s.unlocked (shard_of k) = true → s.core.get_at k t = frozen.get_at k t :=
    fun k hun => h (shard_of k) k hun
  have hscan : ∀ (i : Fin SHARD_COUNT), s.unlocked i = true → ∀ start stop,
      s.core.scanShard i start stop t = frozen.scanShard i start stop t :=
    fun i hun start stop => FlushCore.scanShard_congr (fun k => h i k hun) start stop
  refine ⟨hget, hscan, ?_, ?_⟩
  · rintro txn rfl k hun
    unfold Txn.get
    rw [hget k hun]
  · rintro txn rfl hint hun start stop limit reverse
    unfold Txn.scan_range FlushCore.scan_pinned_limit FlushCore.scan_pinned_reverse
    rw [hscan _ hun]

/-- A run as long as `t` stays registered. -/
def WhileOpen (t : Nat) (s : Engine ρ) (act : Act ρ) : Prop :=
  s.NoFlush act ∧ t ∈ s.core.active

theorem settled_view_run
    {s s' : Engine ρ} {t : Nat} (h : Stable t s) (hrun : Run step (WhileOpen t) s s') :
    Stable t s' ∧ ∀ i k, s'.settled.view i k t = s.settled.view i k t := by
  induction hrun with
  | refl => exact ⟨h, fun _ _ => rfl⟩
  | tail _ hok hst ih =>
      obtain ⟨hstable, hview⟩ := ih
      have hcase := step_cases hst
      refine ⟨hstable.step hok.1 (Or.inl hok.2) hcase, ?_⟩
      intro i k
      rw [settled_view hstable hok.1 hok.2 hcase, hview]

/-- What is promised about the snapshot that `snapshot()` or `begin()` returns in
`s₀`: no version at or below it is added later; and from the step that registers
it, for as long as it is registered, one fixed store answers every read at it,
also of a scan that reads each shard at a moment of its own. -/
structure SnapshotsStable (s₀ : Engine ρ) : Prop where
  no_older_version : ∀ s, Run step NoFlush s₀ s → ∀ k c v, s.core.chain k = some c →
    v ∈ c.versions → v.ts ≤ s₀.core.visible_ts →
    ∃ c₀, s₀.core.chain k = some c₀ ∧ v ∈ c₀.versions
  same_answers : ∀ act s₁, act = .dumpStart ∨ (∃ id, act = .begin_ id) →
    s₀.step act = some s₁ →
    ∃ frozen : FlushCore,
      (∀ s, Run step (WhileOpen s₀.core.visible_ts) s₁ s →
        ReadsAs s₀.core.visible_ts frozen s) ∧
      ∀ at_ : Fin SHARD_COUNT → Engine ρ,
        (∀ i, Run step (WhileOpen s₀.core.visible_ts) s₁ (at_ i) ∧
          (at_ i).unlocked i = true) →
        ∀ start stop,
          FlushCore.scanOver (fun i => (at_ i).core) start stop s₀.core.visible_ts =
            frozen.scan start stop s₀.core.visible_ts

/-- Snapshots are stable in every run without FLUSHALL, in both modes. -/
theorem snapshots_stable
    (o : Opened) (sync_writes : Bool) {s₀ : Engine ρ}
    (h₀ : Run step NoFlush (start o sync_writes) s₀) :
    SnapshotsStable s₀ := by
  have hinv : ∀ s s' : Engine ρ, ∀ act, (Stable s.core.visible_ts s) → s.NoFlush act →
      s.step act = some s' → Stable s'.core.visible_ts s' := by
    intro s s' act h hok hst
    have hcase := step_cases hst
    have hs' := h.step hok (Or.inr rfl) hcase
    exact { hs' with guarded := h.guarded.visible_step h.timely hcase }
  have hstart : Stable (start o sync_writes : Engine ρ).core.visible_ts
      (start o sync_writes : Engine ρ) :=
    { timely := timely_start o sync_writes
      placed := o.placed
      flushless := ⟨by simp [start], by simp [start, Phase.batch], fun _ => ⟨rfl, rfl⟩⟩
      guarded := guarded_start o sync_writes }
  have hs₀ : Stable s₀.core.visible_ts s₀ :=
    Run.invariant (P := fun s => Stable s.core.visible_ts s)
      (fun s act s' h hok hst => hinv s s' act h hok hst) h₀ hstart
  constructor
  · intro s hrun
    -- what is published only grows, so `visible_ts` of `s₀` stays a bound
    have hgen : Stable s.core.visible_ts s ∧ s₀.core.visible_ts ≤ s.core.visible_ts ∧
        ∀ k c v, s.core.chain k = some c → v ∈ c.versions → v.ts ≤ s₀.core.visible_ts →
          ∃ c₀, s₀.core.chain k = some c₀ ∧ v ∈ c₀.versions := by
      induction hrun with
      | refl => exact ⟨hs₀, le_rfl, fun k c v hc hv _ => ⟨c, hc, hv⟩⟩
      | tail _ hok hst ih =>
          obtain ⟨hstable, hle, hold⟩ := ih
          have hcase := step_cases hst
          refine ⟨hinv _ _ _ hstable hok hst, hle.trans (visible_ts_mono hcase), ?_⟩
          intro k c v hc hv hvt
          obtain ⟨c', hc', hv'⟩ :=
            old_versions_step hstable.timely hcase hc hv (hvt.trans hle)
          exact hold k c' v hc' hv' hvt
    exact hgen.2.2
  · intro act s₁ hact hst
    have hcase := step_cases hst
    have hok : s₀.NoFlush act := by
      intro bak
      rcases hact with rfl | ⟨id, rfl⟩ <;> simp
    have hs₁ : Stable s₀.core.visible_ts s₁ := hs₀.step hok (Or.inr rfl) hcase
    have hviews : ∀ s, Run step (WhileOpen s₀.core.visible_ts) s₁ s → ∀ (i : Fin SHARD_COUNT) k,
        s.unlocked i = true → s.core.view i k s₀.core.visible_ts =
          s₁.settled.view i k s₀.core.visible_ts := by
      intro s hrun i k hun
      rw [← (settled_view_run hs₁ hrun).2 i k, FlushCore.view, FlushCore.view,
        settled_shards hun]
    refine ⟨s₁.settled, fun s hrun => readsAs_of_view (hviews s hrun), ?_⟩
    intro at_ hat start stop
    rw [FlushCore.scan_eq_scanOver]
    exact FlushCore.scanOver_congr (fun i k => hviews (at_ i) (hat i).1 i k (hat i).2) start stop

theorem snapshots_stable_after_write :
    ∃ s₀ : Engine Unit, s₀.write_queue.length = 1 ∧ SnapshotsStable s₀ := by
  refine ⟨_, ?_, snapshots_stable Opened.fresh true
    (.tail (a := .submit (.write ∅)) (.refl _) (by simp [NoFlush]) rfl)⟩
  rfl

end Engine
end SnapshotReads
end StrikeDB
