import StrikeDB.EngineInv

/-!
# StrikeDB: what the chains of a running engine hold

* `Reflected`: the chain of every key ends in the newest write of the published
  keyspace, or of the batch in work where its shard has been changed already.
* `Guarded t`: the sweep in work removes no tombstone newer than `t`.
* `Held`: the snapshot of every open transaction is registered.
-/

namespace StrikeDB

section Chains

variable {ρ : Type}

/-! ### Events of a job -/

theorem Keyspace.after_commits (ks : Keyspace) (cs : List (Nat × List Mutation)) :
    ks.after (cs.map fun c => Event.commit c.1 c.2) = ks.commit (cs.flatMap Prod.snd) := by
  induction cs generalizing ks with
  | nil => rfl
  | cons c cs ih =>
      rw [List.map_cons, after_cons, ih, List.flatMap_cons, commit_append]
      rfl

namespace Job

variable {j : Job ρ}

theorem events_applied : j.events .applied = j.commits.map fun c => Event.commit c.1 c.2 := by
  unfold events commits commitsOf
  rw [List.map_filterMap]
  congr 1
  funext e
  simp only [event, Option.map_map]
  rfl

@[simp] theorem events_nothing : j.events .nothing = [] := by
  unfold events
  rw [List.filterMap_eq_nil_iff]
  intro e _
  rfl

theorem after_applied (ks : Keyspace) : ks.after (j.events .applied) = ks.commit j.muts := by
  rw [events_applied, Keyspace.after_commits]
  rfl

/-- A FLUSHALL behind all commits of its batch empties the keyspace. -/
theorem IsResolved.after_wiped
    (h : j.IsResolved) (hlast : FlushLast j.batch) (hw : j.wipe_ran = true) (ks : Keyspace) :
    ks.after (j.events .wiped) = ∅ := by
  have hflush : ∀ e ∈ j.batch.zip j.outcomes, e.1.flush_all.isSome = true →
      j.event .wiped e = some (.flush e.1.ts) := by
    intro e _ hf
    simp [event, hf]
  have hall : ∀ l : List (PendingWrite ρ × Option (Resolved ρ)),
      (∀ e ∈ l, j.event .wiped e = some (.flush e.1.ts)) →
      (∅ : Keyspace).after (l.filterMap (j.event .wiped)) = ∅ := by
    intro l hl
    induction l with
    | nil => rfl
    | cons e l ih =>
        rw [List.filterMap_cons_some (hl e (by simp)), Keyspace.after_cons]
        exact ih fun x hx => hl x (List.mem_cons_of_mem _ hx)
  -- behind the first FLUSHALL there are only FLUSHALLs
  have hgen : ∀ l : List (PendingWrite ρ × Option (Resolved ρ)),
      l.Sublist (j.batch.zip j.outcomes) → (∃ e ∈ l, e.1.flush_all.isSome = true) →
      l.Pairwise (fun e f => e.1.flush_all.isSome = true → f.1.flush_all.isSome = true) →
      ∀ ks : Keyspace, ks.after (l.filterMap (j.event .wiped)) = ∅ := by
    intro l
    induction l with
    | nil => intro _ hex; simp at hex
    | cons e l ih =>
        intro hsub hex hpw ks
        rw [List.pairwise_cons] at hpw
        have hl : l.Sublist (j.batch.zip j.outcomes) := (List.sublist_cons_self e l).trans hsub
        by_cases hf : e.1.flush_all.isSome = true
        · rw [List.filterMap_cons_some (hflush e (hsub.subset (by simp)) hf),
            Keyspace.after_cons]
          exact hall l fun x hx => hflush x (hl.subset hx) (hpw.1 x hx hf)
        · have hrest : ∃ x ∈ l, x.1.flush_all.isSome = true := by
            obtain ⟨x, hx, hxf⟩ := hex
            rcases List.mem_cons.mp hx with rfl | hx
            · exact absurd hxf hf
            · exact ⟨x, hx, hxf⟩
          cases hev : j.event .wiped e with
          | none =>
              rw [List.filterMap_cons_none hev]
              exact ih hl hrest hpw.2 ks
          | some ev =>
              rw [List.filterMap_cons_some hev, Keyspace.after_cons]
              exact ih hl hrest hpw.2 _
  refine hgen _ (List.Sublist.refl _) ?_ ?_ ks
  · obtain ⟨pw, hpw, hf⟩ := List.any_eq_true.mp hw
    rw [← h.map_fst] at hpw
    obtain ⟨e, he, rfl⟩ := List.mem_map.mp hpw
    exact ⟨e, he, hf⟩
  · have := hlast
    rw [FlushLast, ← h.map_fst, List.pairwise_map] at this
    exact this

end Job

namespace Engine

/-- What the shards hold at a key. -/
def seen (s : Engine ρ) (k : Key) : Option (Nat × Value) := s.busy.seen s.keyspace k

theorem Timely.job_facts
    {s : Engine ρ} (h : s.Timely) {a : Actor} {j : Job ρ} (hj : (s.phase a).job = some j) :
    j.IsResolved ∧ j.batch.Pairwise (fun p q => p.ts < q.ts) ∧
      (∀ pw ∈ j.batch, s.core.visible_ts < pw.ts) ∧
      (∀ pw ∈ j.batch, ∀ m ∈ pw.muts, m.ts = pw.ts) ∧ FlushLast j.batch := by
  have hne : s.phase a ≠ .idle := by
    intro hidle
    simp [hidle, Phase.job] at hj
  have hbusy := h.busy_eq hne
  have hb : s.busy.batch = j.batch := by rw [hbusy, Phase.batch_of_job hj]
  have hmem : ∀ pw ∈ j.batch, pw ∈ s.pending := by
    intro pw hpw
    exact List.mem_append_left _ (by rw [hb]; exact hpw)
  refine ⟨h.resolved j (by rw [hbusy, hj]), ?_, fun pw hpw => (h.fresh pw (hmem pw hpw)).1,
    fun pw hpw => h.muts_ts pw (hmem pw hpw), by rw [← hb]; exact h.flushLast⟩
  have := h.sorted
  rw [pending, hb, List.pairwise_append] at this
  exact this.1

/-- Everything a job writes is newer than what is published. -/
theorem Timely.job_muts_fresh
    {s : Engine ρ} (h : s.Timely) {a : Actor} {j : Job ρ} (hj : (s.phase a).job = some j) :
    ∀ m ∈ j.muts, s.core.visible_ts < m.ts := by
  obtain ⟨hres, _, hfresh, hpw, _⟩ := h.job_facts hj
  intro m hm
  obtain ⟨pw, hpwm, hts⟩ := hres.mem_muts hpw hm
  rw [hts]
  exact hfresh pw hpwm

@[simp] theorem chain_unregister (core : FlushCore) (t : Nat) (k : Key) :
    (core.unregister t).chain k = core.chain k := by
  unfold FlushCore.unregister
  split
  · rfl
  · split <;> rfl

/-- Nothing to drain while a direct commit runs. -/
theorem Timely.direct_idle
    {s : Engine ρ} (ht : s.Timely) (hne : s.write_queue ≠ []) :
    s.phase .direct = .idle := by
  rcases ht.alone with hd | ⟨_, hq⟩
  · exact hd
  · exact absurd hq hne

/-! ### What a step does to one key -/

/-- What a step can do to the chain of a key and to what it should hold. -/
inductive KeyStep (s s' : Engine ρ) (k : Key) : Prop
  | same (hchain : s'.core.chain k = s.core.chain k) (hseen : s'.seen k = s.seen k)
  | collected {e : Key × Nat} {c : Chain} (hkey : e.1 = k)
      (hready : ∃ batch ready n, s.busy = .sweeping batch (e :: ready) n)
      (hc : s.core.chain k = some c) (hdead : c.latest = none) (hts : c.latest_ts = e.2)
      (hchain : s'.core.chain k = none) (hseen : s'.seen k = s.seen k)
  | wiped {j : Job ρ} (hbusy : s.busy = .wiping j (shard_of k))
      (hchain : s'.core.chain k = none) (hseen : s'.seen k = none)
  | pushed {j : Job ρ} {active : List Nat} (hj : s.busy.job = some j)
      (hold : s.seen k = s.keyspace[k]?)
      (hchain : s'.core.chain k = FlushCore.pushAll active k (s.core.chain k) j.muts)
      (hseen : s'.seen k = (s.keyspace.commit j.muts)[k]?)

theorem KeyStep.of_congr
    {s s' : Engine ρ} {k : Key} (hchain : s'.core.chain k = s.core.chain k)
    (hbusy : s'.busy = s.busy) (hks : s'.keyspace = s.keyspace) :
    KeyStep s s' k :=
  .same hchain (by simp only [seen, hbusy, hks])

theorem KeyStep.setSlot {s s' : Engine ρ} {k : Key} (h : KeyStep s s' k) (t : TxnSlot) :
    KeyStep s (s'.setSlot t) k := by
  cases h with
  | same hchain hseen => exact .same hchain hseen
  | collected hkey hready hc hdead hts hchain hseen =>
      exact .collected hkey hready hc hdead hts hchain hseen
  | wiped hbusy hchain hseen => exact .wiped hbusy hchain hseen
  | pushed hj hold hchain hseen => exact .pushed hj hold hchain hseen

theorem seen_setPhase
    {s : Engine ρ} {a : Actor} (hother : s.phase a.other = .idle) (p : Phase ρ) (k : Key) :
    (s.setPhase a p).seen k = p.seen s.keyspace k := by
  rw [seen, busy_setPhase hother]
  rfl

/-- Publishing leaves the shards alone and makes the keyspace what they hold. -/
theorem Timely.keyspace_publish
    {s : Engine ρ} (ht : s.Timely) {a : Actor} {j : Job ρ} {effect : Effect}
    (hp : s.phase a = .publishing j effect) (k : Key) :
    (s.keyspace.after (j.events effect))[k]? = s.seen k := by
  have hj : (s.phase a).job = some j := by rw [hp]; rfl
  obtain ⟨hres, _, _, _, hlast⟩ := ht.job_facts hj
  have hseen : s.seen k = (Phase.publishing j effect).seen s.keyspace k := by
    rw [seen, ht.busy_eq (a := a) (by simp [hp]), hp]
  cases effect with
  | nothing => simp [hseen, Phase.seen]
  | applied => rw [hseen, Job.after_applied, Phase.seen]
  | wiped =>
      have hwr := ht.job_wipe_ran (by rw [hp]; trivial) hj
      rw [hseen, hres.after_wiped hlast hwr]
      simp [Phase.seen]

/-- Keys of other shards do not notice that work on shard `next` is done. -/
theorem ite_lt_succ {α : Type} {i next : Nat} (hne : i ≠ next) (x y : α) :
    (if i < next + 1 then x else y) = if i < next then x else y := by
  have : i < next + 1 ↔ i < next := by omega
  simp only [this]

theorem works_key
    {s s' : Engine ρ} (ht : s.Timely) {a : Actor} {io : Io} (hw : Works s a io s') (k : Key) :
    KeyStep s s' k := by
  have hother : s.phase a.other = .idle := by
    refine ht.other_idle ?_
    intro hidle
    cases hw <;> simp_all
  have hbusy : s.busy = s.phase a := Engine.busy_eq hother
  have hset : ∀ (s₁ : Engine ρ) (p : Phase ρ), s₁.phase = s.phase →
      s₁.keyspace = s.keyspace → (s₁.setPhase a p).seen k = p.seen s.keyspace k := by
    intro s₁ p hphase hks
    rw [seen_setPhase (by rw [hphase]; exact hother), hks]
  have hsame : ∀ (s₁ : Engine ρ) (p : Phase ρ), s₁.phase = s.phase →
      s₁.keyspace = s.keyspace → s₁.core.chain k = s.core.chain k →
      p.seen s.keyspace k = (s.phase a).seen s.keyspace k → KeyStep s (s₁.setPhase a p) k := by
    intro s₁ p hphase hks hchain hseen
    refine .same hchain ?_
    rw [hset s₁ p hphase hks, hseen, seen, hbusy]
  cases hw with
  | horizon hp => exact hsame _ _ rfl rfl rfl (by rw [hp]; rfl)
  | @noSweep batch _ hp _ =>
      rcases afterSweep_cases a batch with heq | heq <;> rw [heq] <;>
        exact hsame _ _ rfl rfl rfl (by rw [hp]; rfl)
  | ready hp => exact hsame _ _ rfl rfl rfl (by rw [hp]; rfl)
  | @sweep batch e ready n n' hp =>
      by_cases hdead : e.1 = k ∧ s.core.isDead e.1 e.2 = true
      · obtain ⟨c, hc, hnone, hts⟩ := (FlushCore.isDead_iff _ _ _).mp hdead.2
        refine .collected (e := e) (c := c) hdead.1 ⟨batch, ready, n, by rw [hbusy, hp]⟩
          (hdead.1 ▸ hc) hnone hts ?_ ?_
        · exact (FlushCore.chain_sweep_remove _ _ _).trans (if_pos hdead)
        · rw [hset { s with core := s.core.sweep_remove e } _ rfl rfl, seen, hbusy, hp]
          rfl
      · exact hsame { s with core := s.core.sweep_remove e } _ rfl rfl
          ((FlushCore.chain_sweep_remove _ _ _).trans (if_neg hdead)) (by rw [hp]; rfl)
  | @swept batch _ hp =>
      rcases afterSweep_cases a batch with heq | heq <;> rw [heq] <;>
        exact hsame _ _ rfl rfl rfl (by rw [hp]; rfl)
  | @resolve batch hp =>
      rcases afterResolve_cases a
        { batch := batch, outcomes := resolveBatch s.core batch, err := none } with
        heq | heq | heq <;> rw [heq] <;> exact hsame _ _ rfl rfl rfl (by rw [hp]; rfl)
  | @log j wal core result hp hlog =>
      obtain ⟨n, rfl⟩ := Job.log_core hlog
      obtain ⟨err, ⟨heq, _⟩ | ⟨heq, _⟩ | heq⟩ := afterLog_cases j result <;> rw [heq] <;>
        exact hsame _ _ rfl rfl rfl (by rw [hp]; rfl)
  | flushFailed wal e hp => exact hsame _ _ rfl rfl rfl (by rw [hp]; rfl)
  | flushFiles hp => exact hsame _ _ rfl rfl rfl (by rw [hp]; rfl)
  | @wipe j next hp hlt =>
      have hchain := FlushCore.chain_clear_shard s.core ⟨next, hlt⟩ k
      by_cases heq : shard_of k = ⟨next, hlt⟩
      · refine .wiped (j := j) (by rw [hbusy, hp, heq]) (hchain.trans (if_pos heq)) ?_
        rw [hset { s with core := s.core.clear_shard _ } _ rfl rfl]
        simp [Phase.seen, heq]
      · have hne : (shard_of k).val ≠ next := fun hv => heq (Fin.ext hv)
        refine hsame { s with core := s.core.clear_shard _ } _ rfl rfl
          (hchain.trans (if_neg heq)) ?_
        rw [hp]
        exact ite_lt_succ hne _ _
  | @wiped j next hp hle =>
      refine hsame _ _ rfl rfl rfl ?_
      rw [hp]
      exact (if_pos (lt_of_lt_of_le (shard_of k).isLt hle)).symm
  | @skip j next hp hlt hitems =>
      refine hsame _ _ rfl rfl rfl ?_
      rw [hp]
      by_cases heq : shard_of k = ⟨next, hlt⟩
      · have hnone : ∀ m ∈ j.muts, m.key ≠ k := by
          intro m hm hmk
          have hmem : m ∈ FlushCore.itemsOf ⟨next, hlt⟩ j.muts := by
            simp only [FlushCore.itemsOf, List.mem_filter, decide_eq_true_eq]
            exact ⟨hm, by rw [hmk]; exact heq⟩
          rw [hitems] at hmem
          simp at hmem
        simp [Phase.seen, Keyspace.getElem?_commit_of_not_mem hnone]
      · have hne : (shard_of k).val ≠ next := fun hv => heq (Fin.ext hv)
        exact ite_lt_succ hne _ _
  | lock hp _ => exact hsame _ _ rfl rfl rfl (by rw [hp]; rfl)
  | @push j next active hp hlt =>
      have hchain := FlushCore.chain_apply_shard s.core ⟨next, hlt⟩ j.muts active k
      by_cases heq : shard_of k = ⟨next, hlt⟩
      · refine .pushed (j := j) (by rw [hbusy, hp]; rfl) ?_ (hchain.trans (if_pos heq)) ?_
        · rw [seen, hbusy, hp]
          simp [Phase.seen, heq]
        · rw [hset { s with core := s.core.apply_shard _ _ _ } _ rfl rfl]
          simp [Phase.seen, heq]
      · have hne : (shard_of k).val ≠ next := fun hv => heq (Fin.ext hv)
        refine hsame { s with core := s.core.apply_shard _ _ _ } _ rfl rfl
          (hchain.trans (if_neg heq)) ?_
        rw [hp]
        exact ite_lt_succ hne _ _
  | @applied j next hp hle =>
      refine hsame _ _ rfl rfl rfl ?_
      rw [hp]
      exact (if_pos (lt_of_lt_of_le (shard_of k).isLt hle)).symm
  | @publish j effect hp =>
      refine .same rfl ?_
      rw [← ht.keyspace_publish hp k]
      refine (seen_setPhase (by exact hother) _ k).trans ?_
      rcases afterPublish_cases a j effect with heq | heq <;> rw [heq] <;>
        exact congrArg (fun ks : Keyspace => ks[k]?) (Keyspace.after_append _ _ _)

theorem submits_key
    {s s' : Engine ρ} {mk : Nat → PendingWrite ρ} (hsub : Submits s mk s')
    (hplain : (mk (s.clock + 1)).flush_all = none →
      s.sync_writes = true ∨ (s.phase .flusher = .idle ∧ s.write_queue = []))
    (k : Key) :
    KeyStep s s' k ∧ s'.keyspace = s.keyspace := by
  cases hsub with
  | queued _ _ => exact ⟨.of_congr rfl rfl rfl, rfl⟩
  | direct _ hmode hnone hidle =>
      have hf : s.phase .flusher = .idle := by
        rcases hplain hnone with hm | hf
        · simp [hmode] at hm
        · exact hf.1
      have hbusy : s.busy = .idle := by rw [Engine.busy_eq (a := .direct) hf, hidle]
      refine ⟨.same rfl ?_, rfl⟩
      rw [seen_setPhase hf, seen, hbusy]
      rfl

/-- Every ordinary step treats every key in one of the four ways. -/
theorem key_step
    {s s' : Engine ρ} {act : Act ρ} (ht : s.Timely) (hok : s.Ordinary act)
    (hst : Step s act s') (k : Key) :
    KeyStep s s' k := by
  cases hst with
  | begin_ _ => exact .of_congr rfl rfl rfl
  | ownRead => exact .of_congr rfl rfl rfl
  | txnGet _ _ _ => exact .of_congr rfl rfl rfl
  | txnPut _ _ _ => exact .of_congr rfl rfl rfl
  | txnCommit _ _ hsub => exact (submits_key hsub (fun _ => hok) k).1.setSlot _
  | txnDrop _ _ => exact .of_congr (chain_unregister _ _ k) rfl rfl
  | dumpStart => exact .of_congr rfl rfl rfl
  | ckptPin _ => exact .of_congr rfl rfl rfl
  | unpin _ => exact .of_congr (chain_unregister _ _ k) rfl rfl
  | now _ => exact .of_congr rfl rfl rfl
  | @submit r _ hsub =>
      refine (submits_key hsub ?_ k).1
      intro hnone
      cases r with
      | flush_all bak => simp [Request.pending] at hnone
      | write writes => exact hok
      | incr key by_ => exact hok
      | op o => exact hok
  | drain hidle hne =>
      have hd := ht.direct_idle hne
      have hbusy : s.busy = .idle := by rw [Engine.busy_eq (a := .flusher) hd, hidle]
      refine .same rfl ?_
      rw [seen_setPhase hd, seen, hbusy]
      rfl
  | work hw => exact works_key ht hw k

/-- Only publishing changes the keyspace. -/
theorem keyspace_step
    {s s' : Engine ρ} {act : Act ρ} (hst : Step s act s') :
    (s'.keyspace = s.keyspace ∧ s'.history = s.history ∧ s'.replies = s.replies) ∨
      ∃ a j effect, s.phase a = .publishing j effect ∧
        s'.history = s.history ++ j.events effect ∧ s'.replies = s.replies ++ j.replies ∧
        s'.keyspace = s.keyspace.after (j.events effect) ∧
        s'.core.visible_ts = max s.core.visible_ts (batchMaxTs j.batch) ∧
        (s'.phase a = .idle ∨ s'.phase a = .drained []) := by
  cases hst with
  | txnCommit _ _ hsub => cases hsub <;> exact Or.inl ⟨rfl, rfl, rfl⟩
  | submit hsub => cases hsub <;> exact Or.inl ⟨rfl, rfl, rfl⟩
  | @work a io _ hw =>
      cases hw with
      | @publish j effect hp =>
          refine Or.inr ⟨a, j, effect, hp, rfl, rfl, Keyspace.after_append _ _ _, rfl, ?_⟩
          rw [setPhase_phase_self]
          exact afterPublish_cases a j effect
      | _ => exact Or.inl ⟨rfl, rfl, rfl⟩
  | _ => exact Or.inl ⟨rfl, rfl, rfl⟩

/-! ### The chains hold the keyspace -/

structure Reflected (s : Engine ρ) : Prop where
  chains : ∀ k, Reflects (s.core.chain k) (s.seen k)
  bound : ∀ (k : Key) (w : Nat × Value), s.keyspace[k]? = some w → w.1 ≤ s.core.visible_ts

/-- What the shards hold beyond the keyspace is from the job in work. -/
theorem Timely.seen_le
    {s : Engine ρ} (ht : s.Timely) {a : Actor} {j : Job ρ} {effect : Effect}
    (hp : s.phase a = .publishing j effect) {k : Key} {w : Nat × Value}
    (hw : s.seen k = some w) :
    s.keyspace[k]? = some w ∨ w.1 ≤ batchMaxTs j.batch := by
  obtain ⟨hres, _, _, hpw, _⟩ := ht.job_facts (a := a) (j := j) (by rw [hp]; rfl)
  rw [seen, ht.busy_eq (a := a) (by simp [hp]), hp] at hw
  cases effect with
  | nothing => exact Or.inl hw
  | wiped => simp [Phase.seen] at hw
  | applied =>
      simp only [Phase.seen] at hw
      by_cases hwr : ∃ m ∈ j.muts, m.key = k
      · obtain ⟨m, hm, _, heq⟩ := Keyspace.getElem?_commit_of_mem hwr s.keyspace
        rw [heq, Option.some.injEq] at hw
        obtain ⟨pw, hpwm, hts⟩ := hres.mem_muts hpw hm
        refine Or.inr ?_
        simp only [← hw, hts]
        exact le_batchMaxTs hpwm
      · rw [Keyspace.getElem?_commit_of_not_mem fun m hm hk => hwr ⟨m, hm, hk⟩] at hw
        exact Or.inl hw

theorem visible_ts_mono
    {s s' : Engine ρ} {act : Act ρ} (hst : Step s act s') :
    s.core.visible_ts ≤ s'.core.visible_ts := by
  cases hst with
  | txnCommit _ _ hsub => cases hsub <;> exact le_rfl
  | submit hsub => cases hsub <;> exact le_rfl
  | txnDrop _ _ => exact (unregister_visible_ts _ _).ge
  | unpin _ => exact (unregister_visible_ts _ _).ge
  | work hw =>
      cases hw with
      | sweep _ _ => exact (FlushCore.sweep_remove_visible_ts _ _).ge
      | log _ hlog =>
          obtain ⟨n, rfl⟩ := Job.log_core hlog
          exact le_rfl
      | publish _ => exact Nat.le_max_left _ _
      | _ => exact le_rfl
  | _ => exact le_rfl

/-- Some thread stands where the engine is busy. -/
theorem exists_phase_eq_busy (s : Engine ρ) : ∃ a, s.phase a = s.busy := by
  unfold busy
  split
  · exact ⟨.flusher, rfl⟩
  · exact ⟨.direct, rfl⟩

theorem Timely.busy_job_facts
    {s : Engine ρ} (h : s.Timely) {j : Job ρ} (hj : s.busy.job = some j) :
    (j.muts.Pairwise fun a b => a.ts ≤ b.ts) ∧ ∀ m ∈ j.muts, s.core.visible_ts < m.ts := by
  obtain ⟨a, ha⟩ := exists_phase_eq_busy s
  rw [← ha] at hj
  obtain ⟨hres, hsorted, _, hpw, _⟩ := h.job_facts hj
  exact ⟨hres.muts_sorted hsorted hpw, h.job_muts_fresh hj⟩

theorem Reflected.step
    {s s' : Engine ρ} {act : Act ρ} (h : s.Reflected) (ht : s.Timely)
    (hok : s.Ordinary act) (hst : Step s act s') :
    s'.Reflected where
  chains := by
    intro k
    cases key_step ht hok hst k with
    | same hchain hseen =>
        rw [hchain, hseen]
        exact h.chains k
    | collected hkey hready hc hdead hts hchain hseen =>
        have hk := h.chains k
        rw [hc] at hk
        rw [hchain, hseen]
        exact hk.collect hdead
    | wiped _ hchain hseen =>
        rw [hchain, hseen]
        exact .never
    | pushed hj hold hchain hseen =>
        obtain ⟨hsorted, hfresh⟩ := ht.busy_job_facts hj
        have hk := h.chains k
        rw [hold] at hk
        rw [hchain, hseen]
        refine hk.pushAll hsorted ?_
        intro m hm w hw
        exact (h.bound k w hw).trans (hfresh m hm).le
  bound := by
    intro k w hw
    rcases keyspace_step hst with ⟨hks, _⟩ | ⟨a, j, effect, hp, _, _, hks, hvis, _⟩
    · rw [hks] at hw
      exact (h.bound k w hw).trans (visible_ts_mono hst)
    · rw [hks, ht.keyspace_publish hp] at hw
      rw [hvis]
      rcases ht.seen_le hp hw with hold | hnew
      · exact (h.bound k w hold).trans (Nat.le_max_left _ _)
      · exact hnew.trans (Nat.le_max_right _ _)

/-! ### Sweeps and registered snapshots -/

/-- The sweep in work, if there is one, removes no tombstone newer than `t`. -/
structure Guarded (t : Nat) (s : Engine ρ) : Prop where
  visible : t ≤ s.core.visible_ts
  horizon : ∀ batch h, s.busy = .horizon batch h → h ≤ t
  ready : ∀ batch ready n, s.busy = .sweeping batch ready n → ∀ e ∈ ready, e.2 ≤ t

theorem Guarded.mono
    {s : Engine ρ} {t t' : Nat} (h : Guarded t s) (hle : t ≤ t')
    (hvis : t' ≤ s.core.visible_ts) :
    Guarded t' s where
  visible := hvis
  horizon := fun batch n hb => (h.horizon batch n hb).trans hle
  ready := fun batch ready n hb e he => (h.ready batch ready n hb e he).trans hle

theorem Guarded.congr
    {s s' : Engine ρ} {t : Nat} (h : Guarded t s) (hbusy : s'.busy = s.busy)
    (hvis : s.core.visible_ts ≤ s'.core.visible_ts) :
    Guarded t s' where
  visible := h.visible.trans hvis
  horizon := by rw [hbusy]; exact h.horizon
  ready := by rw [hbusy]; exact h.ready

/-- Phases without a sweep guard everything published. -/
theorem Guarded.of_busy
    {s : Engine ρ} {t : Nat} (hvis : t ≤ s.core.visible_ts)
    (hh : ∀ batch h, s.busy ≠ .horizon batch h)
    (hr : ∀ batch ready n, s.busy ≠ .sweeping batch ready n) :
    Guarded t s where
  visible := hvis
  horizon := fun batch h hb => absurd hb (hh batch h)
  ready := fun batch ready n hb => absurd hb (hr batch ready n)

theorem Guarded.works
    {s s' : Engine ρ} {t : Nat} (h : Guarded t s) (ht : s.Timely)
    (hopen : t ∈ s.core.active ∨ t = s.core.visible_ts)
    {a : Actor} {io : Io} (hw : Works s a io s') :
    Guarded t s' := by
  have hother : s.phase a.other = .idle := by
    refine ht.other_idle ?_
    intro hidle
    cases hw <;> simp_all
  have hbusy := Engine.busy_eq hother
  have hset : ∀ (s₁ : Engine ρ) (p : Phase ρ), s₁.phase = s.phase →
      (s₁.setPhase a p).busy = p := by
    intro s₁ p hphase
    exact busy_setPhase (by rw [hphase]; exact hother) p
  have hplain : ∀ (s₁ : Engine ρ) (p : Phase ρ), s₁.phase = s.phase →
      s.core.visible_ts ≤ s₁.core.visible_ts → (∀ batch h, p ≠ .horizon batch h) →
      (∀ batch ready n, p ≠ .sweeping batch ready n) → Guarded t (s₁.setPhase a p) := by
    intro s₁ p hphase hvis hh hr
    refine .of_busy (h.visible.trans hvis) ?_ ?_
    · rw [hset s₁ p hphase]; exact hh
    · rw [hset s₁ p hphase]; exact hr
  have hle : s.core.sweepHorizon ≤ t := by
    rcases hopen with hmem | rfl
    · exact FlushCore.sweepHorizon_le_of_mem ((FlushCore.mem_openSnapshots _ _).mpr hmem)
    · exact FlushCore.sweepHorizon_le_visible_ts _
  cases hw with
  | @horizon batch hp =>
      have hb := hset s (.horizon batch s.core.sweepHorizon) rfl
      refine ⟨h.visible, ?_, ?_⟩
      · intro batch' n hn
        rw [hb] at hn
        cases hn
        exact hle
      · intro batch' ready n hn
        rw [hb] at hn
        cases hn
  | @noSweep batch _ hp _ =>
      rcases afterSweep_cases a batch with heq | heq <;> rw [heq] <;>
        exact hplain _ _ rfl le_rfl (by simp) (by simp)
  | @ready batch n hp =>
      have hn := h.horizon batch n (by rw [hbusy, hp])
      have hb := hset { s with core := s.core.sweepKeep n }
        (.sweeping batch (s.core.sweepReady n) 0) rfl
      refine ⟨h.visible, ?_, ?_⟩
      · intro batch' n' hn'
        rw [hb] at hn'
        cases hn'
      · intro batch' ready n' hn' e he
        rw [hb] at hn'
        cases hn'
        simp only [FlushCore.sweepReady, List.mem_filter, decide_eq_true_eq] at he
        exact he.2.trans hn
  | @sweep batch e ready n n' hp =>
      have hr := h.ready batch (e :: ready) n (by rw [hbusy, hp])
      have hb := hset { s with core := s.core.sweep_remove e } (.sweeping batch ready n') rfl
      refine ⟨h.visible.trans (FlushCore.sweep_remove_visible_ts s.core e).ge, ?_, ?_⟩
      · intro batch' n' hn'
        rw [hb] at hn'
        cases hn'
      · intro batch' ready' n'' hn' x hx
        rw [hb] at hn'
        cases hn'
        exact hr x (List.mem_cons_of_mem _ hx)
  | @swept batch _ hp =>
      rcases afterSweep_cases a batch with heq | heq <;> rw [heq] <;>
        exact hplain _ _ rfl le_rfl (by simp) (by simp)
  | @resolve batch hp =>
      rcases afterResolve_cases a
        { batch := batch, outcomes := resolveBatch s.core batch, err := none } with
        heq | heq | heq <;> rw [heq] <;> exact hplain _ _ rfl le_rfl (by simp) (by simp)
  | @log j wal core result hp hlog =>
      obtain ⟨n, rfl⟩ := Job.log_core hlog
      obtain ⟨err, ⟨heq, _⟩ | ⟨heq, _⟩ | heq⟩ := afterLog_cases j result <;> rw [heq] <;>
        exact hplain _ _ rfl le_rfl (by simp) (by simp)
  | flushFailed wal e hp =>
      exact hplain _ _ rfl le_rfl (by simp [Engine.flushFailed]) (by simp [Engine.flushFailed])
  | flushFiles hp => exact hplain _ _ rfl le_rfl (by simp) (by simp)
  | wipe hp _ => exact hplain _ _ rfl le_rfl (by simp) (by simp)
  | wiped hp _ => exact hplain _ _ rfl le_rfl (by simp) (by simp)
  | skip hp _ _ => exact hplain _ _ rfl le_rfl (by simp) (by simp)
  | lock hp _ => exact hplain _ _ rfl le_rfl (by simp) (by simp)
  | push hp _ => exact hplain _ _ rfl le_rfl (by simp) (by simp)
  | applied hp _ => exact hplain _ _ rfl le_rfl (by simp) (by simp)
  | @publish j effect hp =>
      rcases afterPublish_cases a j effect with heq | heq <;> rw [heq] <;>
        exact hplain _ _ rfl (Nat.le_max_left _ _) (by simp) (by simp)

theorem Guarded.submits
    {s s' : Engine ρ} {t : Nat} (h : Guarded t s) {mk : Nat → PendingWrite ρ}
    (hsub : Submits s mk s') :
    Guarded t s' := by
  cases hsub with
  | queued _ _ => exact h.congr rfl le_rfl
  | direct _ _ _ hidle =>
      refine .of_busy h.visible ?_ ?_ <;> simp [busy, Engine.setPhase]

/-- While `t` is registered, sweeps keep what it reads. -/
theorem Guarded.step
    {s s' : Engine ρ} {t : Nat} {act : Act ρ} (h : Guarded t s) (ht : s.Timely)
    (hopen : t ∈ s.core.active ∨ t = s.core.visible_ts) (hst : Step s act s') :
    Guarded t s' := by
  cases hst with
  | begin_ _ => exact h.congr rfl le_rfl
  | ownRead => exact h
  | txnGet _ _ _ => exact h.congr rfl le_rfl
  | txnPut _ _ _ => exact h.congr rfl le_rfl
  | txnCommit _ _ hsub => exact (h.submits hsub).congr rfl le_rfl
  | txnDrop _ _ => exact h.congr rfl (unregister_visible_ts _ _).ge
  | dumpStart => exact h.congr rfl le_rfl
  | ckptPin _ => exact h.congr rfl le_rfl
  | unpin _ => exact h.congr rfl (unregister_visible_ts _ _).ge
  | now _ => exact h.congr rfl le_rfl
  | submit hsub => exact h.submits hsub
  | drain hidle hne =>
      have hbusy := busy_setPhase (s := { s with write_queue := [] }) (a := .flusher)
        (ht.direct_idle hne) (.drained s.write_queue)
      refine .of_busy h.visible ?_ ?_ <;> rw [hbusy] <;> simp
  | work hw => exact h.works ht hopen hw

/-- What is published is guarded in every state. -/
theorem Guarded.visible_step
    {s s' : Engine ρ} {act : Act ρ} (h : Guarded s.core.visible_ts s) (ht : s.Timely)
    (hst : Step s act s') :
    Guarded s'.core.visible_ts s' :=
  (h.step ht (Or.inr rfl) hst).mono (visible_ts_mono hst) le_rfl

end Engine
end Chains
end StrikeDB
