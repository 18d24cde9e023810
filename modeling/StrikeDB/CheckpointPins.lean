import StrikeDB.Checkpoint
import StrikeDB.SnapshotReads
import StrikeDB.Transactions

/-!
# StrikeDB: what a registered snapshot keeps

* `Counted`: the table of open snapshots counts every dump, checkpoint and open
  transaction, so that a snapshot stays registered until its owner gives it back.
* `Old t`: nothing newer than `t` has been applied; `Trails` and `Logged` say that
  the log runs ahead of the shards.
* `KeptAt t`: the store shows at `t` the published commits up to `t`
  (`KeptAt.of_old`), and every step keeps it so while `t` is registered
  (`KeptAt.step`).
-/

namespace StrikeDB

section Pins

variable {ρ : Type}

namespace FlushCore

theorem getD_active_register (core : FlushCore) (s t : Nat) :
    (core.register s).active[t]?.getD 0 =
      core.active[t]?.getD 0 + if s = t then 1 else 0 := by
  unfold register
  simp only [Std.ExtTreeMap.getElem?_insert, Std.LawfulEqCmp.compare_eq_iff_eq]
  by_cases h : s = t
  · rw [if_pos h, if_pos h, h]
    rfl
  · rw [if_neg h, if_neg h]
    rfl

theorem getD_active_unregister (core : FlushCore) (s t : Nat) :
    core.active[t]?.getD 0 ≤
      (core.unregister s).active[t]?.getD 0 + if s = t then 1 else 0 := by
  unfold unregister
  split
  · omega
  · next c hc =>
      split
      · simp only [Std.ExtTreeMap.getElem?_erase, Std.LawfulEqCmp.compare_eq_iff_eq]
        by_cases h : s = t
        · rw [if_pos h, if_pos h, ← h, hc]
          simp only [Option.getD_some, Option.getD_none]
          omega
        · rw [if_neg h, if_neg h]
          omega
      · simp only [Std.ExtTreeMap.getElem?_insert, Std.LawfulEqCmp.compare_eq_iff_eq]
        by_cases h : s = t
        · rw [if_pos h, if_pos h, ← h, hc]
          simp only [Option.getD_some]
          omega
        · rw [if_neg h, if_neg h]
          omega

end FlushCore

namespace Engine

/-! ### The table of open snapshots -/

/-- The snapshots of the open transactions. -/
def openTxns (s : Engine ρ) : List Nat := s.txns.map fun u => u.txn.snapshot

/-- Every owner of a snapshot is counted. -/
structure Counted (s : Engine ρ) : Prop where
  ids : (s.txns.map TxnSlot.id).Nodup
  counts : ∀ t, s.pins.count t + s.openTxns.count t ≤ s.core.active[t]?.getD 0

theorem Counted.registered
    {s : Engine ρ} (h : s.Counted) {t : Nat} (ht : t ∈ s.pins) :
    t ∈ s.core.active := by
  have hcount := h.counts t
  have hpos := List.count_pos_iff.mpr ht
  rw [Std.ExtTreeMap.mem_iff_isSome_getElem?]
  cases hc : s.core.active[t]? with
  | none =>
      rw [hc, Option.getD_none] at hcount
      omega
  | some c => rfl

theorem Counted.congr
    {s s' : Engine ρ} (h : s.Counted)
    (htxns : s'.txns.map (fun u => (u.id, u.txn.snapshot)) =
      s.txns.map fun u => (u.id, u.txn.snapshot))
    (hpins : s'.pins = s.pins) (hactive : s'.core.active = s.core.active) :
    s'.Counted := by
  have hids : s'.txns.map TxnSlot.id = s.txns.map TxnSlot.id := by
    have := congrArg (List.map Prod.fst) htxns
    simpa [List.map_map, Function.comp_def] using this
  have hopen : s'.openTxns = s.openTxns := by
    have := congrArg (List.map Prod.snd) htxns
    simpa [openTxns, List.map_map, Function.comp_def] using this
  exact ⟨by rw [hids]; exact h.ids, by rw [hpins, hopen, hactive]; exact h.counts⟩

/-- Work on a transaction leaves its snapshot alone. -/
theorem Counted.setSlot
    {s : Engine ρ} (h : s.Counted) {t t' : TxnSlot} (ht : t ∈ s.txns) (hid : t'.id = t.id)
    (hsnap : t'.txn.snapshot = t.txn.snapshot) :
    (s.setSlot t').Counted := by
  refine h.congr ?_ rfl rfl
  simp only [Engine.setSlot, List.map_map]
  refine List.map_congr_left ?_
  intro u hu
  simp only [Function.comp_apply]
  by_cases heq : u.id = t'.id
  · have hsame : u = t := List.inj_on_of_nodup_map h.ids hu ht (heq.trans hid)
    rw [if_pos heq, hsame, hid, hsnap]
  · rw [if_neg heq]

theorem works_registered
    {s s' : Engine ρ} {a : Actor} {io : Io} (hw : Works s a io s') :
    s'.txns = s.txns ∧ s'.pins = s.pins ∧ s'.core.active = s.core.active := by
  cases hw with
  | sweep _ _ => exact ⟨rfl, rfl, FlushCore.sweep_remove_active _ _⟩
  | log _ hlog =>
      obtain ⟨n, rfl⟩ := Job.log_core hlog
      exact ⟨rfl, rfl, rfl⟩
  | push _ _ => exact ⟨rfl, rfl, FlushCore.apply_shard_active _ _ _ _⟩
  | _ => exact ⟨rfl, rfl, rfl⟩

theorem Counted.step
    {s s' : Engine ρ} {act : Act ρ} (h : s.Counted) (hst : Step s act s') :
    s'.Counted := by
  have hpin : ∀ snap, (s.pin snap).Counted := by
    intro snap
    refine ⟨h.ids, ?_⟩
    intro t
    have := h.counts t
    have hreg := FlushCore.getD_active_register s.core snap t
    simp only [Engine.pin, List.count_cons, beq_iff_eq] at *
    change _ + s.openTxns.count t ≤ _
    omega
  have hsubmits : ∀ {mk s₁}, Submits s mk s₁ → s₁.Counted ∧ s₁.txns = s.txns := by
    intro mk s₁ hsub
    cases hsub <;> exact ⟨h.congr rfl rfl rfl, rfl⟩
  cases hst with
  | @begin_ id hid =>
      have hnone := List.find?_eq_none.mp hid
      refine ⟨?_, ?_⟩
      · refine List.nodup_cons.mpr ⟨?_, h.ids⟩
        intro hmem
        obtain ⟨u, hu, hui⟩ := List.mem_map.mp hmem
        exact hnone u hu (by simpa using hui)
      · intro t
        have := h.counts t
        have hreg := FlushCore.getD_active_register s.core s.core.visible_ts t
        simp only [openTxns, List.map_cons, List.count_cons, beq_iff_eq] at *
        omega
  | ownRead => exact h
  | txnGet ht _ _ => exact h.setSlot (slot_mem ht).1 rfl rfl
  | txnPut _ ht _ => exact h.setSlot (slot_mem ht).1 rfl rfl
  | @txnCommit id t s₁ ht _ hsub =>
      obtain ⟨h₁, htxns⟩ := hsubmits hsub
      exact h₁.setSlot (t := t) (by rw [htxns]; exact (slot_mem ht).1) rfl rfl
  | @txnDrop id t ht _ =>
      obtain ⟨hp, as, bs, heq, has⟩ := List.find?_eq_some_iff_append.mp ht
      have herase : s.txns.eraseP (fun u => u.id = id) = as ++ bs := by
        rw [heq, List.eraseP_append_right _ fun u hu => by simpa using has u hu]
        exact congrArg (as ++ ·) (List.eraseP_cons_of_pos hp)
      refine ⟨h.ids.sublist (List.Sublist.map _ (List.eraseP_sublist)), ?_⟩
      intro snap
      have hcount := h.counts snap
      have hunreg := FlushCore.getD_active_unregister s.core t.txn.snapshot snap
      simp only [openTxns] at *
      rw [herase]
      rw [heq] at hcount
      simp only [List.map_append, List.map_cons, List.count_append, List.count_cons,
        beq_iff_eq] at *
      omega
  | dumpStart => exact hpin _
  | ckptPin _ => exact hpin _
  | @unpin snap hmem =>
      refine ⟨h.ids, ?_⟩
      intro t
      have hcount := h.counts t
      have hunreg := FlushCore.getD_active_unregister s.core snap t
      have hpos := List.count_pos_iff.mpr hmem
      simp only [List.count_erase, beq_iff_eq]
      change _ + s.openTxns.count t ≤ _
      by_cases heq : snap = t
      · subst heq
        rw [if_pos rfl] at *
        omega
      · rw [if_neg heq] at *
        omega
  | now _ => exact h.congr rfl rfl rfl
  | submit hsub => exact (hsubmits hsub).1
  | drain _ _ => exact h.congr rfl rfl rfl
  | work hw =>
      obtain ⟨htxns, hpins, hactive⟩ := works_registered hw
      exact h.congr (by rw [htxns]) hpins hactive

end Engine
/-! ### Nothing newer than `t` -/

/-- No version is newer than `t`. -/
def FlushCore.Old (t : Nat) (core : FlushCore) : Prop :=
  ∀ k c, core.chain k = some c → ∀ v ∈ c.versions, v.ts ≤ t

/-- What the thread has pushed, or is about to push under its lock, is not newer
than `t`. -/
def Phase.Old (t : Nat) : Phase ρ → Prop
  | .applying j next locked =>
      ∀ m ∈ j.muts, (shard_of m.key).val < next ∨
        ((shard_of m.key).val = next ∧ locked.isSome = true) → m.ts ≤ t
  | .publishing j .applied => ∀ m ∈ j.muts, m.ts ≤ t
  | _ => True

namespace Engine

/-- No commit newer than `t` has changed the shards. -/
structure Old (t : Nat) (s : Engine ρ) : Prop where
  chains : s.core.Old t
  phase : s.busy.Old t
  history : ∀ e ∈ s.history, t < e.ts → e.isFlush = false ∧ ∀ k, ¬ e.Writes k

theorem Old.mono {s : Engine ρ} {t t' : Nat} (h : s.Old t) (hle : t ≤ t') : s.Old t' where
  chains := fun k c hc v hv => (h.chains k c hc v hv).trans hle
  phase := by
    have hp := h.phase
    unfold Phase.Old at hp ⊢
    split at hp
    · exact fun m hm hw => (hp m hm hw).trans hle
    · exact fun m hm => (hp m hm).trans hle
    · trivial
  history := fun e he hlt => h.history e he (by omega)

/-- The step locks a shard only for commits that are not newer than `t`. -/
def LocksOld (t : Nat) (s : Engine ρ) (act : Act ρ) : Prop :=
  ∀ a io j next, act = .work a io → s.phase a = .applying j next none →
    ∀ m ∈ j.muts, (shard_of m.key).val = next → m.ts ≤ t

/-- Where a thread goes keeps what it has pushed old. -/
theorem works_phase_old
    {s s' : Engine ρ} {t : Nat} {a : Actor} {io : Io} (hw : Works s a io s')
    (hold : (s.phase a).Old t) (hlock : s.LocksOld t (.work a io)) :
    (s'.phase a).Old t := by
  cases hw with
  | horizon _ => simp [Phase.Old]
  | @noSweep batch _ _ _ =>
      rcases afterSweep_cases a batch with heq | heq <;> simp [heq, Phase.Old]
  | ready _ => simp [Phase.Old]
  | sweep _ _ => simp [Phase.Old]
  | @swept batch _ _ =>
      rcases afterSweep_cases a batch with heq | heq <;> simp [heq, Phase.Old]
  | @resolve batch _ =>
      rcases afterResolve_cases a
        { batch := batch, outcomes := resolveBatch s.core batch, err := none } with
        heq | heq | heq <;> simp [heq, Phase.Old]
  | @log j wal core result _ _ =>
      obtain ⟨err, ⟨heq, _⟩ | ⟨heq, _⟩ | heq⟩ := afterLog_cases j result <;>
        simp [heq, Phase.Old]
  | flushFailed _ _ _ => simp [Engine.flushFailed, Phase.Old]
  | flushFiles _ => simp [Phase.Old]
  | wipe _ _ => simp [Phase.Old]
  | wiped _ _ => simp [Phase.Old]
  | @skip j next hp hlt hitems =>
      rw [hp] at hold
      rw [setPhase_phase_self]
      intro m hm hwhere
      refine hold m hm (Or.inl ?_)
      -- no mutation of the job belongs to the skipped shard
      have hne : (shard_of m.key).val ≠ next := by
        intro heq
        have hmem : m ∈ FlushCore.itemsOf ⟨next, hlt⟩ j.muts := by
          simp only [FlushCore.itemsOf, List.mem_filter, decide_eq_true_eq]
          exact ⟨hm, Fin.ext heq⟩
        rw [hitems] at hmem
        cases hmem
      rcases hwhere with hlt' | ⟨_, hsome⟩
      · omega
      · cases hsome
  | @lock j next hp _ =>
      rw [hp] at hold
      rw [setPhase_phase_self]
      rintro m hm (hlt | ⟨heq, _⟩)
      · exact hold m hm (Or.inl hlt)
      · exact hlock a io j next rfl hp m hm heq
  | @push j next active hp _ =>
      rw [hp] at hold
      rw [setPhase_phase_self]
      rintro m hm (hlt | ⟨_, hsome⟩)
      · refine hold m hm ?_
        rcases Nat.lt_succ_iff_lt_or_eq.mp hlt with hlt | heq
        · exact Or.inl hlt
        · exact Or.inr ⟨heq, rfl⟩
      · cases hsome
  | @applied j next hp hle =>
      rw [hp] at hold
      rw [setPhase_phase_self]
      exact fun m hm => hold m hm (Or.inl (lt_of_lt_of_le (shard_of m.key).isLt hle))
  | @publish j effect _ =>
      rcases afterPublish_cases a j effect with heq | heq <;> simp [heq, Phase.Old]

/-- Steps of the clients leave the work on the shards alone, or start it. -/
theorem busy_step
    {s s' : Engine ρ} {act : Act ρ} (ht : s.Timely) (hok : s.Ordinary act)
    (hst : Step s act s') :
    ((∀ a io, act ≠ .work a io) ∧
      (s'.busy = s.busy ∨
        s.busy = .idle ∧ ∃ batch, s'.busy = .drained batch ∨ s'.busy = .resolving batch)) ∨
      ∃ a io, act = .work a io ∧ Works s a io s' ∧ s.busy = s.phase a ∧ s'.busy = s'.phase a := by
  have hsubmits : ∀ {mk s₁}, Submits s mk s₁ → ((mk (s.clock + 1)).flush_all = none →
      s.sync_writes = true ∨ (s.phase .flusher = .idle ∧ s.write_queue = [])) →
      s₁.busy = s.busy ∨
        s.busy = .idle ∧ ∃ batch, s₁.busy = .drained batch ∨ s₁.busy = .resolving batch := by
    intro mk s₁ hsub hplain
    cases hsub with
    | queued _ _ => exact Or.inl rfl
    | direct _ hmode hnone hidle =>
        have hf : s.phase .flusher = .idle := by
          rcases hplain hnone with hm | hf
          · simp [hmode] at hm
          · exact hf.1
        exact Or.inr ⟨(busy_eq (a := .direct) hf).trans hidle, _,
          Or.inr (busy_setPhase (by exact hf) _)⟩
  cases hst with
  | txnCommit _ _ hsub =>
      have hs₁ := hsubmits hsub fun _ => hok
      exact Or.inl ⟨by simp, hs₁⟩
  | @submit r _ hsub =>
      have hplain : (r.pending (s.clock + 1)).flush_all = none →
          s.sync_writes = true ∨ (s.phase .flusher = .idle ∧ s.write_queue = []) := by
        intro hnone
        cases r with
        | flush_all bak => simp [Request.pending] at hnone
        | write _ => exact hok
        | incr _ _ => exact hok
        | op _ => exact hok
      exact Or.inl ⟨by simp, hsubmits hsub hplain⟩
  | drain hidle hne =>
      have hd := ht.direct_idle hne
      refine Or.inl ⟨by simp, Or.inr ⟨(busy_eq (a := .flusher) hd).trans hidle, s.write_queue,
        Or.inl ?_⟩⟩
      exact busy_setPhase (a := .flusher) (by exact hd) _
  | @work a io _ hw =>
      have hother : s.phase a.other = .idle := by
        refine ht.other_idle ?_
        intro hidle
        cases hw <;> simp_all
      have hother' : s'.phase a.other = .idle := by
        rw [(works_frame hw).2.1]
        exact hother
      exact Or.inr ⟨a, io, rfl, hw, busy_eq hother, busy_eq hother'⟩
  | _ => exact Or.inl ⟨by simp, Or.inl rfl⟩

/-- Old engines stay old as long as no newer commit locks a shard. -/
theorem Old.step
    {s s' : Engine ρ} {t : Nat} {act : Act ρ} (h : s.Old t) (ht : s.Timely)
    (hf : s.Flushless) (hok : s.NoFlush act) (hlock : s.LocksOld t act) (hst : Step s act s') :
    s'.Old t where
  chains := by
    intro k c hc v hv
    rcases versions_step hst hc hv with ⟨c₀, hc₀, hv₀⟩ | ⟨a, j, active, m, hp, hm, hshard, hts⟩
    · exact h.chains k c₀ hc₀ v hv₀
    · have hphase := h.phase
      rw [ht.busy_eq (a := a) (by simp [hp]), hp] at hphase
      rw [hts]
      exact hphase m hm (Or.inr ⟨by rw [hshard], rfl⟩)
  phase := by
    rcases busy_step ht (hf.ordinary hok) hst with ⟨_, heq | ⟨_, _, heq | heq⟩⟩ |
      ⟨a, io, rfl, hw, hb, hb'⟩
    · rw [heq]
      exact h.phase
    · simp [heq, Phase.Old]
    · simp [heq, Phase.Old]
    · rw [hb']
      exact works_phase_old hw (hb ▸ h.phase) hlock
  history := by
    intro e he hlt
    rcases keyspace_step hst with ⟨_, hhist, _⟩ | ⟨a, j, effect, hp, hhist, _⟩
    · rw [hhist] at he
      exact h.history e he hlt
    · rw [hhist] at he
      rcases List.mem_append.mp he with he | he
      · exact h.history e he hlt
      have hj : (s.phase a).job = some j := by rw [hp]; rfl
      cases effect with
      | nothing => simp at he
      | wiped => exact absurd (by rw [hp]; trivial) (hf.not_wipes ht hj)
      | applied =>
          have hphase := h.phase
          rw [ht.busy_eq (a := a) (by simp [hp]), hp] at hphase
          obtain ⟨hres, _, _, hpw, _⟩ := ht.job_facts hj
          rw [Job.events_applied, List.mem_map] at he
          obtain ⟨c, hc, rfl⟩ := he
          refine ⟨rfl, ?_⟩
          rintro k ⟨m, hm, _⟩
          have hold := hphase m (List.mem_flatMap.mpr ⟨c, hc, hm⟩)
          rw [hres.commits_ts hpw hc m hm] at hold
          simp only [Event.ts] at hlt
          omega

end Engine
/-! ### The log runs ahead -/

/-- The newest timestamp of a batch on its way from the log to being published. -/
def Phase.loggedTs : Phase ρ → Nat
  | .flushing j | .wiping j _ | .applying j _ _ | .publishing j _ => batchMaxTs j.batch
  | _ => 0

theorem batchMuts_eq_nil
    {batch : List (PendingWrite ρ)} {outcomes : List (Option (Resolved ρ))}
    (h : batchFrames batch outcomes = []) : ∀ ms ∈ batchMuts batch outcomes, ms = [] := by
  intro ms hms
  rw [batchFrames, List.map_eq_nil_iff, List.filter_eq_nil_iff] at h
  simpa using h ms hms

namespace Job

variable {j : Job ρ}

theorem muts_eq_flatten : j.muts = (batchMuts j.batch j.outcomes).flatten := by
  unfold muts commits commitsOf batchMuts
  rw [List.flatMap_def, List.map_filterMap]
  congr 2
  funext e
  cases e.2.bind fun r => r.muts e.1 <;> simp

/-- The durable step moves `last_appended` to the newest commit of the batch at most, and
that far if it succeeds with anything to write. -/
theorem log_last_appended
    {core core' : FlushCore} {wal wal' : Wal} {io : Io} {result : Except IoError Unit}
    (h : j.log core wal io = (wal', core', result)) :
    core.last_appended ≤ core'.last_appended ∧
      core'.last_appended ≤ max core.last_appended (batchMaxTs j.batch) ∧
      (result = .ok () → j.muts = [] ∨ batchMaxTs j.batch ≤ core'.last_appended) := by
  unfold log at h
  simp only at h
  split at h
  · next hframes =>
      cases h
      refine ⟨le_rfl, Nat.le_max_left _ _, fun _ => Or.inl ?_⟩
      rw [muts_eq_flatten, List.flatten_eq_nil_iff]
      exact batchMuts_eq_nil hframes
  · split at h
    · cases h
      exact ⟨le_rfl, Nat.le_max_left _ _, by simp⟩
    · cases h
      exact ⟨Nat.le_max_left _ _, le_rfl, fun _ => Or.inr (Nat.le_max_right _ _)⟩

theorem IsResolved.le_batchMaxTs
    (h : j.IsResolved) (hpw : ∀ pw ∈ j.batch, ∀ m ∈ pw.muts, m.ts = pw.ts)
    {m : Mutation} (hm : m ∈ j.muts) :
    m.ts ≤ batchMaxTs j.batch := by
  obtain ⟨pw, hmem, hts⟩ := h.mem_muts hpw hm
  rw [hts]
  exact StrikeDB.le_batchMaxTs hmem

end Job

namespace Engine

/-- The log is not behind what is published and what is on its way there.  In `SYNC=1`
mode everything that reaches a shard is in the log before; in any mode it belongs to the
batch in work or is published. -/
structure Trails (s : Engine ρ) : Prop where
  bound : s.core.last_appended ≤ max s.core.visible_ts s.busy.loggedTs
  applying : s.sync_writes = true → ∀ j next locked, s.busy = .applying j next locked →
    ∀ m ∈ j.muts, m.ts ≤ s.core.last_appended
  old : s.sync_writes = true → s.Old s.core.last_appended
  reached : s.Old (max s.core.visible_ts s.busy.loggedTs)

/-- Work that leaves the log and `visible_ts` alone. -/
structure SameTrail (s s' : Engine ρ) : Prop where
  last_appended : s'.core.last_appended = s.core.last_appended
  visible_ts : s'.core.visible_ts = s.core.visible_ts

/-- What work on a batch does to the log, to `visible_ts` and to the job applied. -/
theorem works_trail
    {s s' : Engine ρ} {a : Actor} {io : Io} (hw : Works s a io s') :
    (SameTrail s s' ∧ (s.phase a).loggedTs ≤ (s'.phase a).loggedTs ∧
      ∀ j next locked, s'.phase a = .applying j next locked →
        (∃ next' locked', s.phase a = .applying j next' locked') ∨ a = .direct) ∨
    (∃ j wal core result, s.phase a = .logging j ∧ j.log s.core s.wal io = (wal, core, result) ∧
      s'.core = core ∧ s'.phase a = afterLog j result) ∨
    ∃ j effect, s.phase a = .publishing j effect ∧
      s'.core.last_appended = s.core.last_appended ∧
      s'.core.visible_ts = max s.core.visible_ts (batchMaxTs j.batch) ∧
      (s'.phase a).job = none := by
  cases hw with
  | horizon hp => exact Or.inl ⟨⟨rfl, rfl⟩, by simp [hp, Phase.loggedTs], by simp⟩
  | @noSweep batch _ hp _ =>
      refine Or.inl ⟨⟨rfl, rfl⟩, by simp [hp, Phase.loggedTs], ?_⟩
      rcases afterSweep_cases a batch with heq | heq <;> simp [heq]
  | ready hp => exact Or.inl ⟨⟨rfl, rfl⟩, by simp [hp, Phase.loggedTs], by simp⟩
  | @sweep batch e ready n n' hp =>
      refine Or.inl ⟨⟨?_, FlushCore.sweep_remove_visible_ts _ _⟩, by simp [hp, Phase.loggedTs],
        by simp⟩
      change (s.core.sweep_remove e).last_appended = _
      unfold FlushCore.sweep_remove
      split <;> rfl
  | @swept batch _ hp =>
      refine Or.inl ⟨⟨rfl, rfl⟩, by simp [hp, Phase.loggedTs], ?_⟩
      rcases afterSweep_cases a batch with heq | heq <;> simp [heq]
  | @resolve batch hp =>
      refine Or.inl ⟨⟨rfl, rfl⟩, by simp [hp, Phase.loggedTs], ?_⟩
      intro j next locked hnext
      rw [setPhase_phase_self] at hnext
      cases a with
      | flusher => cases hnext
      | direct => exact Or.inr rfl
  | @log j wal core result hp hlog =>
      exact Or.inr (Or.inl ⟨j, wal, core, result, hp, hlog, rfl, setPhase_phase_self _ _ _⟩)
  | @flushFailed j wal e hp =>
      exact Or.inl ⟨⟨rfl, rfl⟩, by simp [hp, Engine.flushFailed, Phase.loggedTs],
        by simp [Engine.flushFailed]⟩
  | flushFiles hp => exact Or.inl ⟨⟨rfl, rfl⟩, by simp [hp, Phase.loggedTs], by simp⟩
  | wipe hp _ => exact Or.inl ⟨⟨rfl, rfl⟩, by simp [hp, Phase.loggedTs], by simp⟩
  | wiped hp _ => exact Or.inl ⟨⟨rfl, rfl⟩, by simp [hp, Phase.loggedTs], by simp⟩
  | @skip j next hp _ _ =>
      refine Or.inl ⟨⟨rfl, rfl⟩, by simp [hp, Phase.loggedTs], ?_⟩
      intro j' next' locked hnext
      rw [setPhase_phase_self] at hnext
      cases hnext
      exact Or.inl ⟨_, _, hp⟩
  | @lock j next hp _ =>
      refine Or.inl ⟨⟨rfl, rfl⟩, by simp [hp, Phase.loggedTs], ?_⟩
      intro j' next' locked hnext
      rw [setPhase_phase_self] at hnext
      cases hnext
      exact Or.inl ⟨_, _, hp⟩
  | @push j next active hp _ =>
      refine Or.inl ⟨⟨rfl, rfl⟩, by simp [hp, Phase.loggedTs], ?_⟩
      intro j' next' locked hnext
      rw [setPhase_phase_self] at hnext
      cases hnext
      exact Or.inl ⟨_, _, hp⟩
  | applied hp _ => exact Or.inl ⟨⟨rfl, rfl⟩, by simp [hp, Phase.loggedTs], by simp⟩
  | @publish j effect hp =>
      refine Or.inr (Or.inr ⟨j, effect, hp, rfl, rfl, ?_⟩)
      rcases afterPublish_cases a j effect with heq | heq <;> simp [heq, Phase.job]

theorem sameTrail_of_not_work
    {s s' : Engine ρ} {act : Act ρ} (hst : Step s act s')
    (hnot : ∀ a io, act ≠ .work a io) :
    SameTrail s s' := by
  cases hst with
  | txnCommit _ _ hsub => cases hsub <;> exact ⟨rfl, rfl⟩
  | submit hsub => cases hsub <;> exact ⟨rfl, rfl⟩
  | txnDrop _ _ =>
      refine ⟨?_, unregister_visible_ts _ _⟩
      change (FlushCore.unregister _ _).last_appended = _
      unfold FlushCore.unregister
      split
      · rfl
      · split <;> rfl
  | unpin _ =>
      refine ⟨?_, unregister_visible_ts _ _⟩
      change (FlushCore.unregister _ _).last_appended = _
      unfold FlushCore.unregister
      split
      · rfl
      · split <;> rfl
  | work _ => exact absurd rfl (hnot _ _)
  | _ => exact ⟨rfl, rfl⟩

theorem loggedTs_afterLog (j : Job ρ) (result : Except IoError Unit) :
    (afterLog j result).loggedTs = batchMaxTs j.batch := by
  obtain ⟨err, ⟨heq, _⟩ | ⟨heq, _⟩ | heq⟩ := afterLog_cases j result <;> rw [heq] <;> rfl

theorem afterLog_applying
    {j j' : Job ρ} {result : Except IoError Unit} {next : Nat} {locked : Option (List Nat)}
    (h : afterLog j result = .applying j' next locked) :
    j' = j ∧ result = .ok () := by
  cases result with
  | ok =>
      simp only [afterLog] at h
      split at h
      · cases h
      · cases h
        exact ⟨rfl, rfl⟩
  | error e =>
      simp only [afterLog] at h
      split at h <;> cases h

theorem sync_writes_step
    {s s' : Engine ρ} {act : Act ρ} (hst : Step s act s') :
    s'.sync_writes = s.sync_writes := by
  cases hst with
  | txnCommit _ _ hsub => cases hsub <;> rfl
  | submit hsub => cases hsub <;> rfl
  | work hw => exact (works_frame hw).2.2.2
  | _ => rfl

theorem last_appended_mono
    {s s' : Engine ρ} {act : Act ρ} (hst : Step s act s') :
    s.core.last_appended ≤ s'.core.last_appended := by
  by_cases hwork : ∃ a io, act = .work a io
  · obtain ⟨a, io, rfl⟩ := hwork
    cases hst with
    | work hw =>
      rcases works_trail hw with ⟨hsame, _⟩ | ⟨j, wal, core, result, _, hlog, hcore, _⟩ |
        ⟨j, effect, _, hlast, _⟩
      · exact hsame.last_appended.ge
      · rw [hcore]
        exact (Job.log_last_appended hlog).1
      · exact hlast.ge
  · exact (sameTrail_of_not_work hst fun a io heq => hwork ⟨a, io, heq⟩).last_appended.ge

theorem Trails.step
    {s s' : Engine ρ} {act : Act ρ} (h : s.Trails) (ht : s.Timely) (hf : s.Flushless)
    (hok : s.NoFlush act) (hst : Step s act s') :
    s'.Trails where
  bound := by
    have hb := h.bound
    rcases busy_step ht (hf.ordinary hok) hst with ⟨hnot, hbusy⟩ | ⟨a, io, rfl, hw, hbusy, hbusy'⟩
    · have hsame := sameTrail_of_not_work hst hnot
      rw [hsame.last_appended, hsame.visible_ts]
      rcases hbusy with heq | ⟨hidle, _⟩
      · rw [heq]
        exact hb
      · rw [hidle] at hb
        simp only [Phase.loggedTs] at hb
        omega
    · rw [hbusy] at hb
      rw [hbusy']
      rcases works_trail hw with ⟨hsame, hle, _⟩ | ⟨j, wal, core, result, hp, hlog, hcore, hp'⟩ |
        ⟨j, effect, hp, hlast, hvis, _⟩
      · rw [hsame.last_appended, hsame.visible_ts]
        omega
      · have hbound := (Job.log_last_appended hlog).2.1
        obtain ⟨n, rfl⟩ := Job.log_core hlog
        rw [hp] at hb
        rw [hcore, hp', loggedTs_afterLog]
        simp only [Phase.loggedTs] at hb hbound ⊢
        omega
      · rw [hp] at hb
        rw [hlast, hvis]
        simp only [Phase.loggedTs] at hb
        omega
  applying := by
    intro hsync j next locked hj m hm
    have hsync₀ : s.sync_writes = true := (sync_writes_step hst) ▸ hsync
    have hmono := last_appended_mono hst
    rcases busy_step ht (hf.ordinary hok) hst with ⟨_, heq | ⟨_, batch, heq | heq⟩⟩ |
      ⟨a, io, rfl, hw, hbusy, hbusy'⟩
    · rw [heq] at hj
      exact (h.applying hsync₀ j next locked hj m hm).trans hmono
    · rw [heq] at hj
      cases hj
    · rw [heq] at hj
      cases hj
    · rw [hbusy'] at hj
      rcases works_trail hw with ⟨_, _, hsame⟩ | ⟨j', wal, core, result, hp, hlog, hcore, hp'⟩ |
        ⟨j', effect, _, _, _, hnone⟩
      · rcases hsame j next locked hj with ⟨next', locked', hp⟩ | rfl
        · exact (h.applying hsync₀ j next' locked' (hbusy.trans hp) m hm).trans hmono
        · have hidle := ht.mode hsync₀
          cases hw <;> simp_all
      · rw [hp'] at hj
        obtain ⟨rfl, hok⟩ := afterLog_applying hj
        obtain ⟨hres, _, _, hpw, _⟩ := ht.job_facts (a := a) (by rw [hp]; rfl)
        rw [hcore]
        rcases (Job.log_last_appended hlog).2.2 hok with hnil | hle
        · rw [hnil] at hm
          cases hm
        · exact (hres.le_batchMaxTs hpw hm).trans hle
      · rw [hj] at hnone
        cases hnone
  old := by
    intro hsync
    have hsync₀ : s.sync_writes = true := (sync_writes_step hst) ▸ hsync
    refine ((h.old hsync₀).step ht hf hok ?_ hst).mono (last_appended_mono hst)
    intro a io j next _ hp m hm _
    exact h.applying hsync₀ j next none (by rw [ht.busy_eq (a := a) (by simp [hp]), hp]) m hm
  reached := by
    refine (h.reached.step ht hf hok ?_ hst).mono ?_
    · intro a io j next _ hp m hm _
      obtain ⟨hres, _, _, hpw, _⟩ := ht.job_facts (a := a) (by rw [hp]; rfl)
      rw [ht.busy_eq (a := a) (by simp [hp]), hp]
      exact (hres.le_batchMaxTs hpw hm).trans (Nat.le_max_right _ _)
    · have hvis := visible_ts_mono hst
      rcases busy_step ht (hf.ordinary hok) hst with ⟨_, heq | ⟨hidle, _⟩⟩ |
        ⟨a, io, rfl, hw, hbusy, hbusy'⟩
      · rw [heq]
        omega
      · rw [hidle]
        simp only [Phase.loggedTs]
        omega
      · rw [hbusy, hbusy']
        rcases works_trail hw with ⟨_, hle, _⟩ | ⟨j, _, _, _, hp, _⟩ | ⟨j, effect, hp, _, hmax, _⟩
        · omega
        · rw [hp]
          simp only [Phase.loggedTs]
          omega
        · rw [hp, hmax]
          simp only [Phase.loggedTs]
          omega

end Engine
/-! ### What an open snapshot shows -/

theorem Event.getElem?_apply_congr
    {ks ks' : Keyspace} {k : Key} (h : ks[k]? = ks'[k]?) (e : Event) :
    (e.apply ks)[k]? = (e.apply ks')[k]? := by
  cases e with
  | commit ts muts => exact Keyspace.getElem?_commit_congr h muts
  | flush ts => rfl

/-- Events that leave a key alone may be dropped. -/
theorem Keyspace.getElem?_after_filter
    {es : List Event} {p : Event → Bool} {k : Key}
    (hp : ∀ e ∈ es, p e = false → e.isFlush = false ∧ ¬ e.Writes k)
    {ks ks' : Keyspace} (h : ks[k]? = ks'[k]?) :
    (ks.after es)[k]? = (ks'.after (es.filter p))[k]? := by
  induction es generalizing ks ks' with
  | nil => exact h
  | cons e es ih =>
      have hrest : ∀ x ∈ es, p x = false → x.isFlush = false ∧ ¬ x.Writes k :=
        fun x hx => hp x (List.mem_cons_of_mem _ hx)
      rw [Keyspace.after_cons, List.filter_cons]
      cases hpe : p e with
      | true =>
          rw [if_pos rfl, Keyspace.after_cons]
          exact ih hrest (Event.getElem?_apply_congr h e)
      | false =>
          rw [if_neg (by simp)]
          obtain ⟨hflush, hwrites⟩ := hp e List.mem_cons_self hpe
          exact ih hrest ((Event.getElem?_apply_of_not_writes hwrites hflush ks).trans h)

theorem Chain.entry_eq (c : Chain) (snap : Nat) :
    c.entry snap =
      (c.visibleVersion snap).bind fun v => (live v.value).map fun x => (v.ts, x) := by
  unfold Chain.entry Chain.visible
  cases c.visibleVersion snap <;> rfl

/-- A chain without versions newer than `t` shows its newest write there. -/
theorem Reflects.entry
    {c : Option Chain} {n : Option (Nat × Value)} (h : Reflects c n) {t : Nat}
    (hold : ∀ d, c = some d → ∀ v ∈ d.versions, v.ts ≤ t) :
    c.bind (fun d => d.entry t) = n.filter fun w => w.2.isLive := by
  cases h with
  | @chain d v wf hlast =>
      have hup : upTo t d.versions = d.versions := by
        simp only [upTo, List.filter_eq_self, decide_eq_true_eq]
        exact hold d rfl
      rw [Option.bind_some, Chain.entry_eq, Chain.visibleVersion_eq, hup, hlast, Option.bind_some,
        live, Option.filter_some]
      cases v.value.isLive <;> rfl
  | never => rfl
  | collected ts => rfl

namespace FlushCore

theorem Shows.of_entry
    {core core' : FlushCore} {t : Nat} {ks : Keyspace} (h : core.Shows t ks)
    (heq : ∀ k, (core'.chain k).bind (fun c => c.entry t) =
      (core.chain k).bind fun c => c.entry t) :
    core'.Shows t ks :=
  fun k => (heq k).trans (h k)

/-- A collected tombstone that is not newer than `t` shows nothing there. -/
theorem Shows.sweep_remove
    {core : FlushCore} {t : Nat} {ks : Keyspace} (h : core.Shows t ks) (hplaced : core.Placed)
    {e : Key × Nat} (hle : core.isDead e.1 e.2 = true → e.2 ≤ t) :
    (core.sweep_remove e).Shows t ks := by
  refine h.of_entry fun k => ?_
  rw [chain_sweep_remove]
  split
  · next hdead =>
      have hview := view_sweep_remove hplaced (hle hdead.2) (shard_of k) k
      have hgone : (core.sweep_remove e).chain k = none := by
        rw [chain_sweep_remove, if_pos hdead]
      have hold : (core.chain k).bind (fun c => c.visible t) = none := by
        have hnone : (core.sweep_remove e).view (shard_of k) k t = none := by
          rw [← get_at_eq_view, get_at, hgone]
          rfl
        rw [hview] at hnone
        exact hnone
      cases hc : core.chain k with
      | none => rfl
      | some c =>
          rw [hc, Option.bind_some] at hold
          simp [Chain.entry, hold]
  · rfl

/-- A push with `t` among the open snapshots leaves alone what it shows. -/
theorem Shows.apply_shard
    {core : FlushCore} {t : Nat} {ks : Keyspace} (h : core.Shows t ks) (hplaced : core.Placed)
    {active : List Nat} (ha : active.Pairwise (· < ·)) (hmem : t ∈ active)
    {muts : List Mutation} (hlt : ∀ m ∈ muts, t < m.ts) (i : Fin SHARD_COUNT) :
    (core.apply_shard i muts active).Shows t ks := by
  refine h.of_entry fun k => ?_
  rw [chain_apply_shard]
  split
  · have hversion := pushAll_visibleVersion ha hmem hlt k
      (c := core.chain k) fun d hd => (hplaced _ k d hd).2
    have hentry := congrArg
      (fun v : Option Version => v.bind fun v => (live v.value).map fun x => (v.ts, x)) hversion
    simpa only [Option.bind_assoc, ← Chain.entry_eq] using hentry
  · rfl

/-- A push of nothing leaves everything alone. -/
theorem Shows.apply_nothing
    {core : FlushCore} {t : Nat} {ks : Keyspace} (h : core.Shows t ks) (active : List Nat)
    {muts : List Mutation} (i : Fin SHARD_COUNT) (hnone : ∀ m ∈ muts, shard_of m.key ≠ i) :
    (core.apply_shard i muts active).Shows t ks := by
  refine h.of_entry fun k => ?_
  rw [chain_apply_shard]
  split
  · next heq =>
      rw [pushAll_of_not_mem]
      rintro m hm rfl
      exact hnone m hm heq
  · rfl

end FlushCore

namespace Engine

/-- The keyspace after the published commits up to `t`. -/
def keyspaceAt (s : Engine ρ) (t : Nat) : Keyspace :=
  s.base.after (s.history.filter fun e => e.ts ≤ t)

/-- The store shows at `t` the published commits up to `t`, and what is under way
leaves that alone: a sweep or a push started before `t` was registered has nothing newer
to work on. -/
structure KeptAt (t : Nat) (s : Engine ρ) : Prop where
  visible : t ≤ s.core.visible_ts
  horizon : ∀ batch h, s.busy = .horizon batch h → h ≤ t ∨ s.core.Old t
  ready : ∀ batch ready n, s.busy = .sweeping batch ready n →
    (∀ e ∈ ready, e.2 ≤ t) ∨ s.core.Old t
  locked : ∀ j next active, s.busy = .applying j next (some active) →
    (t ∈ active ∧ active.Pairwise (· < ·)) ∨ ∀ m ∈ j.muts, (shard_of m.key).val ≠ next
  shows : s.core.Shows t (s.keyspaceAt t)

theorem Old.seen_eq
    {s : Engine ρ} {t : Nat} (h : s.Old t) (ht : s.Timely) (hf : s.Flushless)
    (hvis : t ≤ s.core.visible_ts) (k : Key) :
    s.seen k = s.keyspace[k]? := by
  obtain ⟨a, ha⟩ := exists_phase_eq_busy s
  have hphase := h.phase
  have hfresh : ∀ j, s.busy.job = some j → ∀ m ∈ j.muts, t < m.ts :=
    fun j hj m hm => lt_of_le_of_lt hvis (ht.job_muts_fresh (a := a) (ha ▸ hj) m hm)
  have hwipe : ∀ j, s.busy.job = some j → ¬ s.busy.Wipes := by
    intro j hj
    rw [← ha] at hj ⊢
    exact hf.not_wipes ht hj
  rw [seen]
  cases hb : s.busy with
  | applying j next locked =>
      rw [hb] at hphase hfresh
      rw [Phase.seen]
      split
      · next hlt =>
          refine Keyspace.getElem?_commit_of_not_mem ?_ _
          rintro m hm rfl
          have := hphase m hm (Or.inl hlt)
          have := hfresh j rfl m hm
          omega
      · rfl
  | publishing j effect =>
      rw [hb] at hphase hfresh
      cases effect with
      | nothing => rfl
      | wiped => exact absurd (by rw [hb]; trivial) (hwipe j (by rw [hb]; rfl))
      | applied =>
          refine Keyspace.getElem?_commit_of_not_mem ?_ _
          rintro m hm rfl
          have := hphase m hm
          have := hfresh j rfl m hm
          omega
  | wiping j next => exact absurd (by rw [hb]; trivial) (hwipe j (by rw [hb]; rfl))
  | _ => rfl

/-- Where nothing newer than `t` has been applied, everything is kept. -/
theorem KeptAt.of_old
    {s : Engine ρ} {t : Nat} (h : s.Old t) (ht : s.Timely) (hf : s.Flushless)
    (hr : s.Reflected) (hvis : t ≤ s.core.visible_ts) :
    s.KeptAt t where
  visible := hvis
  horizon := fun _ _ _ => Or.inr h.chains
  ready := fun _ _ _ _ => Or.inr h.chains
  locked := by
    intro j next active hb
    refine Or.inr fun m hm heq => ?_
    obtain ⟨a, ha⟩ := exists_phase_eq_busy s
    have hphase := h.phase
    rw [hb] at hphase
    have := hphase m hm (Or.inr ⟨heq, rfl⟩)
    have := ht.job_muts_fresh (a := a) (by rw [ha, hb]; rfl) m hm
    omega
  shows := by
    intro k
    have hks : s.keyspace[k]? = (s.keyspaceAt t)[k]? := by
      refine Keyspace.getElem?_after_filter ?_ rfl
      intro e he hlt
      obtain ⟨hflush, hwrites⟩ := h.history e he (by simpa using hlt)
      exact ⟨hflush, hwrites k⟩
    rw [← hks, ← h.seen_eq ht hf hvis k]
    exact (hr.chains k).entry fun d hd v hv => h.chains k d hd v hv

/-- What is published later is newer. -/
theorem keyspaceAt_step
    {s s' : Engine ρ} {t : Nat} {act : Act ρ} (ht : s.Timely) (hvis : t ≤ s.core.visible_ts)
    (hst : Step s act s') :
    s'.keyspaceAt t = s.keyspaceAt t := by
  have hbase : s'.base = s.base := by
    cases hst with
    | txnCommit _ _ hsub => cases hsub <;> rfl
    | submit hsub => cases hsub <;> rfl
    | work hw => cases hw <;> rfl
    | _ => rfl
  rw [keyspaceAt, keyspaceAt, hbase]
  rcases keyspace_step hst with ⟨_, hhist, _⟩ | ⟨a, j, effect, hp, hhist, _⟩
  · rw [hhist]
  · obtain ⟨_, _, hfresh, _, _⟩ := ht.job_facts (a := a) (j := j) (by rw [hp]; rfl)
    have hnone : (j.events effect).filter (fun e => e.ts ≤ t) = [] := by
      rw [List.filter_eq_nil_iff]
      intro e he
      obtain ⟨pw, hpw, hts⟩ := Job.event_ts_mem he
      have := hfresh pw hpw
      simp only [decide_eq_true_eq]
      omega
    rw [hhist, List.filter_append, hnone, List.append_nil]

end Engine
namespace Engine

theorem chain_of_not_work
    {s s' : Engine ρ} {act : Act ρ} (hst : Step s act s')
    (hnot : ∀ a io, act ≠ .work a io) (k : Key) :
    s'.core.chain k = s.core.chain k := by
  cases hst with
  | txnCommit _ _ hsub => cases hsub <;> rfl
  | submit hsub => cases hsub <;> rfl
  | txnDrop _ _ => exact chain_unregister _ _ _
  | unpin _ => exact chain_unregister _ _ _
  | work _ => exact absurd rfl (hnot _ _)
  | _ => rfl

/-- Work of a thread keeps what an open snapshot shows. -/
theorem KeptAt.works
    {s s' : Engine ρ} {t : Nat} (h : s.KeptAt t) (ht : s.Timely) (hplaced : s.core.Placed)
    (hf : s.Flushless) (hopen : t ∈ s.core.active) {a : Actor} {io : Io}
    (hw : Works s a io s') (hbusy : s.busy = s.phase a) (hbusy' : s'.busy = s'.phase a) :
    s'.KeptAt t := by
  have hvis : t ≤ s'.core.visible_ts := h.visible.trans (visible_ts_mono (.work hw))
  have hat : s'.keyspaceAt t = s.keyspaceAt t := keyspaceAt_step ht h.visible (.work hw)
  have hfresh : ∀ j, (s.phase a).job = some j → ∀ m ∈ j.muts, t < m.ts :=
    fun j hj m hm => lt_of_le_of_lt h.visible (ht.job_muts_fresh hj m hm)
  -- most phases hold neither a horizon nor a list of open snapshots
  have hplain : (∀ batch n, s'.phase a ≠ .horizon batch n) →
      (∀ batch ready n, s'.phase a ≠ .sweeping batch ready n) →
      (∀ j next active, s'.phase a ≠ .applying j next (some active)) →
      s'.core.Shows t (s.keyspaceAt t) → s'.KeptAt t := by
    intro hh hr hl hshows
    refine ⟨hvis, ?_, ?_, ?_, by rw [hat]; exact hshows⟩
    · intro batch n hb
      exact absurd (hbusy' ▸ hb) (hh batch n)
    · intro batch ready n hb
      exact absurd (hbusy' ▸ hb) (hr batch ready n)
    · intro j next active hb
      exact absurd (hbusy' ▸ hb) (hl j next active)
  cases hw with
  | @horizon batch hp =>
      refine ⟨hvis, ?_, ?_, ?_, by rw [hat]; exact h.shows⟩ <;>
        rw [hbusy', setPhase_phase_self]
      · intro batch' n hn
        cases hn
        exact Or.inl (FlushCore.sweepHorizon_le_of_mem
          ((FlushCore.mem_openSnapshots _ _).mpr hopen))
      · intro batch' ready n hn
        cases hn
      · intro j next active hn
        cases hn
  | @noSweep batch _ hp _ =>
      refine hplain ?_ ?_ ?_ h.shows <;>
        rcases afterSweep_cases a batch with heq | heq <;> simp [heq]
  | @ready batch n hp =>
      refine ⟨hvis, ?_, ?_, ?_, by rw [hat]; exact h.shows⟩ <;>
        rw [hbusy', setPhase_phase_self]
      · intro batch' n' hn
        cases hn
      · intro batch' ready n' hn
        cases hn
        rcases h.horizon batch n (hbusy.trans hp) with hle | hold
        · refine Or.inl fun e he => ?_
          simp only [FlushCore.sweepReady, List.mem_filter, decide_eq_true_eq] at he
          exact he.2.trans hle
        · exact Or.inr hold
      · intro j next active hn
        cases hn
  | @sweep batch e ready n n' hp =>
      have hdead : s.core.isDead e.1 e.2 = true → e.2 ≤ t := by
        intro hd
        rcases h.ready batch (e :: ready) n (hbusy.trans hp) with hle | hold
        · exact hle e List.mem_cons_self
        · obtain ⟨c, hc, _, hts⟩ := (FlushCore.isDead_iff _ _ _).mp hd
          have hwf := (hplaced _ _ c hc).2
          have hlast := List.getLast?_eq_some_getLast hwf.ne_nil
          rw [← hts, hwf.latest_ts_eq _ hlast]
          exact hold _ c hc _ (List.getLast_mem hwf.ne_nil)
      refine ⟨hvis, ?_, ?_, ?_, by rw [hat]; exact h.shows.sweep_remove hplaced hdead⟩ <;>
        rw [hbusy', setPhase_phase_self]
      · intro batch' n' hn
        cases hn
      · intro batch' ready' n'' hn
        cases hn
        rcases h.ready batch (e :: ready) n (hbusy.trans hp) with hle | hold
        · exact Or.inl fun x hx => hle x (List.mem_cons_of_mem _ hx)
        · refine Or.inr fun k c hc v hv => ?_
          change (s.core.sweep_remove e).chain k = some c at hc
          rw [FlushCore.chain_sweep_remove] at hc
          split at hc
          · cases hc
          · exact hold k c hc v hv
      · intro j next active hn
        cases hn
  | @swept batch _ hp =>
      refine hplain ?_ ?_ ?_ h.shows <;>
        rcases afterSweep_cases a batch with heq | heq <;> simp [heq]
  | @resolve batch hp =>
      refine hplain ?_ ?_ ?_ h.shows <;>
        rcases afterResolve_cases a
          { batch := batch, outcomes := resolveBatch s.core batch, err := none } with
          heq | heq | heq <;> simp [heq]
  | @log j wal core result hp hlog =>
      obtain ⟨n, rfl⟩ := Job.log_core hlog
      refine hplain ?_ ?_ ?_ h.shows <;>
        obtain ⟨err, ⟨heq, _⟩ | ⟨heq, _⟩ | heq⟩ := afterLog_cases j result <;> simp [heq]
  | flushFailed wal e hp =>
      refine hplain ?_ ?_ ?_ h.shows <;> simp [Engine.flushFailed]
  | flushFiles hp => exact hplain (by simp) (by simp) (by simp) h.shows
  | @wipe j next hp _ =>
      exact absurd (by rw [hp]; trivial) (hf.not_wipes ht (a := a) (j := j) (by rw [hp]; rfl))
  | wiped hp _ => exact hplain (by simp) (by simp) (by simp) h.shows
  | skip hp _ _ => exact hplain (by simp) (by simp) (by simp) h.shows
  | @lock j next hp _ =>
      refine ⟨hvis, ?_, ?_, ?_, by rw [hat]; exact h.shows⟩ <;>
        rw [hbusy', setPhase_phase_self]
      · intro batch n hn
        cases hn
      · intro batch ready n hn
        cases hn
      · intro j' next' active hn
        cases hn
        exact Or.inl ⟨(FlushCore.mem_openSnapshots _ _).mpr hopen, s.core.openSnapshots_sorted⟩
  | @push j next active hp hlt =>
      refine hplain (by simp) (by simp) (by simp) ?_
      rcases h.locked j next active (hbusy.trans hp) with ⟨hmem, hsorted⟩ | hnone
      · exact h.shows.apply_shard hplaced hsorted hmem (hfresh j (by rw [hp]; rfl)) _
      · exact h.shows.apply_nothing active _ fun m hm heq => hnone m hm (by rw [heq])
  | applied hp _ => exact hplain (by simp) (by simp) (by simp) h.shows
  | @publish j effect hp =>
      refine hplain ?_ ?_ ?_ h.shows <;>
        rcases afterPublish_cases a j effect with heq | heq <;> simp [heq]

/-- While `t` is registered, every step keeps what it shows. -/
theorem KeptAt.step
    {s s' : Engine ρ} {t : Nat} {act : Act ρ} (h : s.KeptAt t) (ht : s.Timely)
    (hplaced : s.core.Placed) (hf : s.Flushless) (hok : s.NoFlush act)
    (hopen : t ∈ s.core.active) (hst : Step s act s') :
    s'.KeptAt t := by
  rcases busy_step ht (hf.ordinary hok) hst with ⟨hnot, hbusy⟩ | ⟨a, io, rfl, hw, hb, hb'⟩
  · have hchain := chain_of_not_work hst hnot
    have hold : s.core.Old t → s'.core.Old t :=
      fun hold k c hc v hv => hold k c (hchain k ▸ hc) v hv
    have hvis := h.visible.trans (visible_ts_mono hst)
    have hshows : s'.core.Shows t (s'.keyspaceAt t) := by
      rw [keyspaceAt_step ht h.visible hst]
      exact h.shows.of_entry fun k => by rw [hchain k]
    rcases hbusy with heq | ⟨_, batch, heq | heq⟩
    · exact
        { visible := hvis
          horizon := fun batch n hb => (h.horizon batch n (heq ▸ hb)).imp id hold
          ready := fun batch ready n hb => (h.ready batch ready n (heq ▸ hb)).imp id hold
          locked := fun j next active hb => h.locked j next active (heq ▸ hb)
          shows := hshows }
    · refine ⟨hvis, ?_, ?_, ?_, hshows⟩ <;> rw [heq] <;> simp
    · refine ⟨hvis, ?_, ?_, ?_, hshows⟩ <;> rw [heq] <;> simp
  · cases hst with
    | work hw => exact h.works ht hplaced hf hopen hw hb hb'

end Engine
end Pins
end StrikeDB
