import StrikeDB.DurableInv

/-!
# StrikeDB: recovery from a crash at any moment

Runs in durable mode with checkpoints, failing system calls, crashes and restarts, in
any order.

* `crash_recovery_exact`: whatever a crash leaves on the disk, the next start finds the
  published commits of the run so far, in their order, and behind them at most some first
  commits of one batch that nobody was told about.  No acknowledged commit is lost, no
  deleted key comes back, and a commit is there as a whole or not at all.

The condition on the runs is needed for a fold that fails in the middle of a frame: what is
folded behind it later cannot be read.
-/

namespace StrikeDB

section DurableRuns

variable {ρ : Type}

namespace Durable

/-! ## What a crash leaves -/

/-- The files can be read, and hold these records. -/
structure Found (left : Files) (c : Stored) : Prop where
  snap : (left.snap = none ∧ c.snap = []) ∨ left.snap = some (snapshotFile c.snap)
  small : c.snap.length < 256 ^ 8
  fits : ∀ m ∈ c.snap, m.Fits ∧ m.value.isLive = true
  seg : (left.seg = none ∧ c.seg = []) ∨ ∃ b, left.seg = some b ∧
    logRecords b = c.seg.flatten ∧ replayed b = Wal.open (commitFrames c.seg)
  wal : logRecords left.wal = c.live.flatten ∧ replayed left.wal = Wal.open (commitFrames c.live)
  moved : c.moved = []
  framed : ∀ ms ∈ c.seg ++ c.live, Framed ms

/-- Commits that were handed to the log since its last `fsync`, or are being appended. -/
def Tried (d : Durable ρ) (job : Job ρ) : Prop :=
  job ∈ d.handed ∨ d.system.engine.phase .flusher = .logging job

/-- The first commits of one such batch. -/
def Stray (d : Durable ρ) (cs : List (List Mutation)) : Prop :=
  (∀ ms ∈ cs, Framed ms) ∧ (cs = [] ∨ ∃ job, d.Tried job ∧ cs <+: job.writes)

theorem Found.records {left : Files} {c : Stored} (h : Found left c) :
    left.records = c.records := by
  have hsnap : left.snapshot = c.snap := by
    unfold Files.snapshot
    rcases h.snap with ⟨hnone, hnil⟩ | hsome
    · rw [hnone, hnil]
    · rw [hsome]
      simp only [load_snapshot_snapshotFile h.small fun m hm => (h.fits m hm).1]
  have hlogs : left.logs = c.seg.flatten ++ c.live.flatten := by
    unfold Files.logs
    rw [h.wal.1]
    rcases h.seg with ⟨hnone, hnil⟩ | ⟨b, hsome, hrec, _⟩
    · rw [hnone, hnil]
      rfl
    · rw [hsome, Option.map_some, Option.getD_some, hrec]
  rw [Files.records, hsnap, hlogs, Stored.records, List.append_assoc]

/-- Some bytes of commit frames behind others. -/
theorem logRecords_between
    (cs ds : List (List Mutation)) (hframed : ∀ ms ∈ cs ++ ds, Framed ms) {b : Bytes}
    (hge : commitFrames cs <+: b) (hle : b <+: commitFrames (cs ++ ds)) :
    ∃ n, logRecords b = (cs ++ ds.take n).flatten ∧
      replayed b = Wal.open (commitFrames (cs ++ ds.take n)) := by
  obtain ⟨t, rfl⟩ := hge
  rw [commitFrames_append] at hle
  exact readable_image hframed ((List.prefix_append_right_inj _).mp hle)

theorem mem_take_flatten {cs : List (List Mutation)} {n : Nat} {m : Mutation}
    (h : m ∈ (cs.take n).flatten) : m ∈ cs.flatten := by
  obtain ⟨ms, hms, hm⟩ := List.mem_flatten.mp h
  exact List.mem_flatten_of_mem (List.mem_of_mem_take hms) hm

/-- What is left of a segment. -/
theorem seg_left
    {seg more : List (List Mutation)} (hframed : ∀ ms ∈ seg ++ more, Framed ms)
    {b : Option Bytes}
    (h : leavesSeg (some { data := commitFrames (seg ++ more), synced := commitFrames seg }) b =
      true) :
    ∃ n b', b = some b' ∧ logRecords b' = (seg ++ more.take n).flatten ∧
      replayed b' = Wal.open (commitFrames (seg ++ more.take n)) := by
  cases b with
  | none => simp [leavesSeg] at h
  | some b' =>
      simp only [leavesSeg, Bool.and_eq_true, List.isPrefixOf_iff_prefix] at h
      obtain ⟨n, hrec, hcut⟩ := logRecords_between _ _ hframed h.1 h.2
      exact ⟨n, b', rfl, hrec, hcut⟩

theorem reaches_done (w : Wal) (job : Job ρ) :
    w.reaches (job.writes.map commit_record) .done = [] ∨
      w.poisoned = false ∧ (∀ p ∈ job.writes.map commit_record, Framing.Fits p) ∧
        w.reaches (job.writes.map commit_record) .done = commitFrames job.writes := by
  unfold Wal.reaches
  cases hp : w.poisoned with
  | true => simp [Wal.check_poisoned, hp]
  | false =>
      simp only [Wal.check_poisoned, hp, Bool.false_eq_true, if_false]
      cases hb : frames_buf (job.writes.map commit_record) with
      | error e => exact Or.inl rfl
      | ok buf =>
          obtain ⟨hfits, hbuf⟩ := (frames_buf_eq_ok_iff _ _).mp hb
          exact Or.inr ⟨trivial, hfits, hbuf⟩

/-- Whatever the live log has held since its last `fsync` is the log with some bytes of one
batch, or a truncated log. -/
theorem contents_explained
    {d : Durable ρ} {c : Stored} (hdisk : d.OnDisk c) (hs : d.system.engine.Booked) {b : Bytes}
    (hb : b ∈ d.contents) :
    d.Retired c b ∨ ∃ t, b = commitFrames c.live ++ t ∧ (t = [] ∨
      ∃ job, d.Tried job ∧ (∀ ms ∈ job.writes, Framed ms) ∧ t <+: commitFrames job.writes) := by
  have hold : ∀ b ∈ d.system.engine.wal.file :: d.since,
      d.Retired c b ∨ ∃ t, b = commitFrames c.live ++ t ∧ (t = [] ∨
        ∃ job, d.Tried job ∧ (∀ ms ∈ job.writes, Framed ms) ∧ t <+: commitFrames job.writes) := by
    intro b hb
    rcases hdisk.since b hb with ⟨t, ht, hcase⟩ | hret
    · refine Or.inr ⟨t, ht, hcase.imp_right ?_⟩
      rintro ⟨job, hjob, hframed⟩
      exact ⟨job, Or.inl hjob, hframed⟩
    · exact Or.inl hret
  unfold contents at hb
  simp only at hb
  split at hb
  · next job hp =>
      rcases List.mem_append.mp hb with hb | hb
      · exact hold b (List.mem_cons_of_mem _ hb)
      · have hb := List.mem_singleton.mp hb
        subst hb
        rcases reaches_done d.system.engine.wal job with hnil | ⟨hclean, hfits, heq⟩
        · rw [hnil, List.append_nil]
          exact hold _ List.mem_cons_self
        · rw [heq, (hdisk.intact hclean).1]
          refine Or.inr ⟨_, rfl, Or.inr ⟨job, Or.inr hp, ?_, List.prefix_refl _⟩⟩
          refine Job.framed_writes hfits fun m hm => ?_
          have ht := hs.steady.timely
          obtain ⟨hres, _, _, hpw, _⟩ := ht.job_facts (a := .flusher) (j := job) (by rw [hp]; rfl)
          obtain ⟨pw, hpwm, hts⟩ := hres.mem_muts hpw hm
          have hfresh := (ht.fresh pw (Engine.Timely.batch_mem (by
            rw [ht.busy_eq (a := .flusher) (by rw [hp]; simp), hp]
            exact hpwm))).2
          have hclock := ht.clock_lt
          norm_num at hclock ⊢
          omega
  · exact hold b (List.mem_cons_of_mem _ hb)

/-- What is left of the live log. -/
theorem wal_left
    {d : Durable ρ} {c : Stored} (hdisk : d.OnDisk c) (hs : d.system.engine.Booked) {b : Bytes}
    (h : d.leavesWal b = true) :
    ∃ live cs, d.Stray cs ∧ (∀ ms ∈ live, Framed ms) ∧ logRecords b = live.flatten ∧
      replayed b = Wal.open (commitFrames live) ∧
      ((live = c.live ++ cs) ∨ live = [] ∧ cs = [] ∧ c.live.flatten ⊆ c.seg.flatten) := by
  have hlive : ∀ ms ∈ c.live, Framed ms := fun ms hms =>
    hdisk.framed ms (List.mem_append_right _ hms)
  have hretired : ∀ b, d.Retired c b → ∃ live cs, d.Stray cs ∧ (∀ ms ∈ live, Framed ms) ∧
      logRecords b = live.flatten ∧ replayed b = Wal.open (commitFrames live) ∧
      ((live = c.live ++ cs) ∨ live = [] ∧ cs = [] ∧ c.live.flatten ⊆ c.seg.flatten) := by
    intro b hret
    obtain ⟨n, hrec, hcut⟩ := logRecords_between [] [] (b := b) (by simp)
      List.nil_prefix (by rw [hret.nil]; exact List.prefix_refl _)
    refine ⟨[], [], ⟨by simp, Or.inl rfl⟩, by simp, ?_, ?_, Or.inr ⟨rfl, rfl, hret.copied⟩⟩
    · simpa using hrec
    · simpa using hcut
  have hbehind : ∀ x, commitFrames c.live <+: b → b <+: x →
      (∃ t, x = commitFrames c.live ++ t ∧ (t = [] ∨ ∃ job, d.Tried job ∧
        (∀ ms ∈ job.writes, Framed ms) ∧ t <+: commitFrames job.writes)) →
      ∃ live cs, d.Stray cs ∧ (∀ ms ∈ live, Framed ms) ∧ logRecords b = live.flatten ∧
        replayed b = Wal.open (commitFrames live) ∧
        ((live = c.live ++ cs) ∨ live = [] ∧ cs = [] ∧ c.live.flatten ⊆ c.seg.flatten) := by
    rintro x hge hle ⟨t, rfl, rfl | ⟨job, htried, hframed, ht⟩⟩
    · obtain ⟨n, hrec, hcut⟩ := logRecords_between _ [] (by simpa using hlive) hge
        (by simpa using hle)
      exact ⟨c.live, [], ⟨by simp, Or.inl rfl⟩, hlive, by simpa using hrec, by simpa using hcut,
        Or.inl (by simp)⟩
    · have hall : ∀ ms ∈ c.live ++ job.writes, Framed ms := by
        intro ms hms
        exact (List.mem_append.mp hms).elim (hlive ms) (hframed ms)
      obtain ⟨n, hrec, hcut⟩ := logRecords_between _ _ hall hge (hle.trans (by
        rw [commitFrames_append]
        exact (List.prefix_append_right_inj _).mpr ht))
      have hstray : ∀ ms ∈ job.writes.take n, Framed ms := fun ms hms =>
        hframed ms (List.mem_of_mem_take hms)
      refine ⟨_, job.writes.take n, ⟨hstray, Or.inr ⟨job, htried, List.take_prefix _ _⟩⟩, ?_, hrec,
        hcut, Or.inl rfl⟩
      intro ms hms
      exact (List.mem_append.mp hms).elim (hlive ms) (hstray ms)
  rw [leavesWal, Bool.or_eq_true, Bool.and_eq_true, List.any_eq_true] at h
  rcases h with ⟨hsynced, x, hx, hle⟩ | hsince
  · rw [hdisk.synced, List.isPrefixOf_iff_prefix] at hsynced
    rw [List.isPrefixOf_iff_prefix] at hle
    rcases contents_explained hdisk hs hx with hret | hexpl
    · have hb : b = [] := by
        rw [hret.nil] at hle
        exact List.prefix_nil.mp hle
      exact hretired b ⟨hb, hret.idle, hret.poisoned, hret.copied⟩
    · exact hbehind x hsynced hle hexpl
  · have hmem : b ∈ d.since := by simpa using hsince
    rcases hdisk.since b (List.mem_cons_of_mem _ hmem) with ⟨t, hbt, hcase⟩ | hret
    · refine hbehind b ⟨t, hbt.symm⟩ (List.prefix_refl _) ⟨t, hbt, hcase.imp_right ?_⟩
      rintro ⟨job, hjob, hframed⟩
      exact ⟨job, Or.inl hjob, hframed⟩
    · exact hretired b hret

/-- Everything that a commit in work writes is as old as the clock. -/
theorem last_appended_le {s : Engine ρ} (h : s.Booked) : s.core.last_appended ≤ s.clock := by
  have ht := h.steady.timely
  refine h.steady.trails.bound.trans (Nat.max_le.mpr ⟨ht.visible_le, ?_⟩)
  have hbatch : ∀ j : Job ρ, s.busy.batch = j.batch → batchMaxTs j.batch ≤ s.clock := by
    intro j hj
    refine (batchMaxTs_le_iff _ _).mpr fun pw hpw => ?_
    exact (ht.fresh pw (Engine.Timely.batch_mem (hj ▸ hpw))).2
  cases hb : s.busy with
  | flushing j => exact hbatch j (by rw [hb]; rfl)
  | wiping j _ => exact hbatch j (by rw [hb]; rfl)
  | applying j _ _ => exact hbatch j (by rw [hb]; rfl)
  | publishing j _ => exact hbatch j (by rw [hb]; rfl)
  | _ => exact Nat.zero_le _

theorem Tried.late
    {d : Durable ρ} {records : List Mutation} {job : Job ρ} (h : d.Tried job)
    (hs : d.system.engine.Booked) (howes : d.system.engine.Owes d.handed records) :
    d.system.engine.Late job := by
  rcases h with hmem | hp
  · exact howes.late job hmem
  · exact howes.late_logging hs hp

/-- Stray commits may be added to the records. -/
theorem Stray.covers
    {d : Durable ρ} {records : List Mutation} {cs : List (List Mutation)} (h : d.Stray cs)
    (hs : d.system.engine.Booked) (howes : d.system.engine.Owes d.handed records) :
    Compaction.Covers (d.system.engine.lasting.commit cs.flatten).newest
      (records ++ cs.flatten) [] := by
  rcases h.2 with rfl | ⟨job, htried, hpre⟩
  · rw [List.flatten_nil, List.append_nil, Keyspace.commit_nil]
    exact howes.covers
  · refine howes.add (htried.late hs howes) ?_
    obtain ⟨ds, hds⟩ := hpre
    rw [← Job.flatten_writes, ← hds, List.flatten_append]
    exact List.prefix_append _ _

/-- Nothing on the disk is newer than the clock. -/
theorem Stray.ts_lt
    {d : Durable ρ} {records found : List Mutation} {cs : List (List Mutation)} (h : d.Stray cs)
    (hs : d.system.engine.Booked) (howes : d.system.engine.Owes d.handed records)
    (hle : found ⊆ records ++ cs.flatten) :
    ∀ m ∈ found, m.ts < 2 ^ 64 - 1 := by
  intro m hm
  have hclock := hs.steady.timely.clock_lt
  rcases List.mem_append.mp (hle hm) with hm | hm
  · obtain ⟨w, hw, hmw⟩ := howes.covers.old m (by simpa using hm)
    have hbound := howes.bound _ _ (Keyspace.newest_eq_some.mp hw).2
    have happ := last_appended_le hs
    have hmw : m.ts ≤ w.ts := by
      rcases hmw with rfl | hlt
      · exact le_rfl
      · exact Nat.le_of_lt hlt
    simp only at hbound
    omega
  · rcases h.2 with rfl | ⟨job, htried, hpre⟩
    · simp at hm
    · obtain ⟨ms, hms, hm⟩ := List.mem_flatten.mp hm
      have hmem : m ∈ job.muts := by
        rw [← Job.flatten_writes]
        exact List.mem_flatten_of_mem (hpre.subset hms) hm
      exact lt_of_le_of_lt ((htried.late hs howes).clock m hmem) hclock

/-- What a crash leaves: the records of the files cover what lasts and the stray commits. -/
structure Explains (d : Durable ρ) (left : Files) (c : Stored) (cs : List (List Mutation)) :
    Prop where
  found : Found left c
  stray : d.Stray cs
  covers : Compaction.Covers (d.system.engine.lasting.commit cs.flatten).newest c.records []
  ts_lt : ∀ m ∈ c.records, m.ts < 2 ^ 64 - 1

/-- Copies and their loss do not matter. -/
theorem explains_of_same
    {d : Durable ρ} {left : Files} {c : Stored} {cs : List (List Mutation)}
    {records : List Mutation} (hs : d.system.engine.Booked)
    (howes : d.system.engine.Owes d.handed records) (hfound : Found left c) (hstray : d.Stray cs)
    (hsub : records ++ cs.flatten ⊆ c.records) (hle : c.records ⊆ records ++ cs.flatten) :
    d.Explains left c cs where
  found := hfound
  stray := hstray
  covers := (hstray.covers hs howes).between hsub (by simpa using hle)
  ts_lt := hstray.ts_lt hs howes hle

/-- The snapshot that a crash leaves is the one before, or the one of a checkpoint that
was about to remove the segment. -/
theorem Sound.snap_left
    {d : Durable ρ} (h : d.Sound) {left : Files}
    (hleft : left.snap = d.snap ∨ left.snap.isSome ∧ left.snap = d.system.complete) :
    ∃ c found, d.OnDisk c ∧
      ((left.snap = none ∧ found = []) ∨ left.snap = some (snapshotFile found)) ∧
      found.length < 256 ^ 8 ∧ (∀ m ∈ found, m.Fits ∧ m.value.isLive = true) ∧
      d.system.engine.Owes d.handed (Stored.records { c with snap := found }) := by
  rcases hleft with heq | ⟨hsome, heq⟩
  · obtain ⟨c, hdisk, howes, _⟩ := h.stored
    exact ⟨c, c.snap, hdisk, heq ▸ hdisk.snap, hdisk.small, hdisk.fits, howes⟩
  · obtain ⟨file, hfile⟩ := Option.isSome_iff_exists.mp hsome
    obtain ⟨found, rfl, hsmall, hfits, c, hdisk, howes, _⟩ := h.complete (heq.symm.trans hfile)
    exact ⟨c, found, hdisk, Or.inr hfile, hsmall, hfits, howes⟩

theorem Sound.crash
    {d : Durable ρ} (h : d.Sound) {left : Files} (hleft : d.leaves left = true) :
    ∃ c cs, d.Explains left c cs := by
  rw [leaves, Bool.or_eq_true] at hleft
  rcases hleft with hleft | hfold
  · simp only [Bool.and_eq_true, Bool.or_eq_true, decide_eq_true_eq] at hleft
    obtain ⟨⟨hwal, hseg⟩, hsnap⟩ := hleft
    obtain ⟨c, found, hdisk, hfound, hsmall, hfits, howes⟩ := h.snap_left hsnap
    obtain ⟨live, cs, hstray, hlive, hrec, hcut, hcase⟩ := wal_left hdisk h.booked hwal
    -- some of the copies behind the segment are left
    have hsegLeft : ∃ n, (∀ ms ∈ c.seg ++ c.moved.take n, Framed ms) ∧
        ((left.seg = none ∧ c.seg ++ c.moved.take n = []) ∨ ∃ b, left.seg = some b ∧
          logRecords b = (c.seg ++ c.moved.take n).flatten ∧
          replayed b = Wal.open (commitFrames (c.seg ++ c.moved.take n))) := by
      have hframed : ∀ ms ∈ c.seg ++ c.moved, Framed ms := fun ms hms =>
        hdisk.framed ms (List.mem_append_left _ hms)
      rcases hdisk.seg with ⟨hnone, hnil, hmoved⟩ | hsome
      · refine ⟨0, by simp [hnil], Or.inl ⟨?_, by simp [hnil]⟩⟩
        rw [hnone] at hseg
        cases hl : left.seg with
        | none => rfl
        | some b => simp [hl, leavesSeg] at hseg
      · rw [hsome] at hseg
        obtain ⟨n, b, hb, hrec, hcut⟩ := seg_left hframed hseg
        refine ⟨n, ?_, Or.inr ⟨b, hb, hrec, hcut⟩⟩
        intro ms hms
        refine hframed ms ?_
        rcases List.mem_append.mp hms with hms | hms
        · exact List.mem_append_left _ hms
        · exact List.mem_append_right _ (List.mem_of_mem_take hms)
    obtain ⟨n, hframed, hsegLeft⟩ := hsegLeft
    have hcopies : (c.moved.take n).flatten ⊆ c.live.flatten := fun m hm =>
      hdisk.moved (mem_take_flatten hm)
    refine ⟨{ snap := found, seg := c.seg ++ c.moved.take n, moved := [], live := live }, cs,
      explains_of_same h.booked howes ?_ hstray ?_ ?_⟩
    · exact
        { snap := hfound
          small := hsmall
          fits := hfits
          seg := hsegLeft
          wal := ⟨hrec, hcut⟩
          moved := rfl
          framed := fun ms hms => (List.mem_append.mp hms).elim (hframed ms) (hlive ms) }
    · intro m hm
      simp only [Stored.records, List.flatten_append, List.mem_append] at hm ⊢
      rcases hcase with rfl | ⟨rfl, rfl, hcopied⟩
      · rw [List.flatten_append, List.mem_append]
        tauto
      · have hmem := @hcopied m
        simp only [List.flatten_nil, List.not_mem_nil, or_false] at hm ⊢
        tauto
    · intro m hm
      have hmem := @hcopies m
      simp only [Stored.records, List.flatten_append, List.mem_append] at hm ⊢
      rcases hcase with rfl | ⟨rfl, rfl, _⟩
      · rw [List.flatten_append, List.mem_append] at hm
        tauto
      · simp only [List.flatten_nil, List.not_mem_nil, or_false] at hm ⊢
        tauto
  · unfold leavesFold at hfold
    simp only at hfold
    obtain ⟨c, hdisk, howes, _⟩ := h.stored
    split at hfold
    · next f _ hidle hf hsync =>
        simp only [Bool.and_eq_true, decide_eq_true_eq] at hfold
        obtain ⟨⟨hsnap, hwal⟩, hseg⟩ := hfold
        have hclean : d.system.engine.wal.poisoned = false := by
          rcases d.system.engine.wal.sync_cases true with ⟨_, hs⟩ | ⟨hclean, _, _⟩ | ⟨_, htrue, _⟩
          · rw [hs] at hsync
            cases hsync
          · exact hclean
          · cases htrue
        obtain ⟨hlive, _⟩ := hdisk.intact hclean
        have hfile : f =
            { data := commitFrames (c.seg ++ c.moved), synced := commitFrames c.seg } := by
          rcases hdisk.seg with ⟨hnone, _⟩ | hsome
          · rw [hf] at hnone
            cases hnone
          · rw [hf, Option.some.injEq] at hsome
            exact hsome
        have hframed : ∀ ms ∈ c.seg ++ (c.moved ++ c.live), Framed ms := by
          rw [← List.append_assoc]
          exact hdisk.framed
        rw [hfile, hlive] at hseg
        simp only [← commitFrames_append, List.append_assoc] at hseg
        obtain ⟨n, b, hb, hrec, hcut⟩ := seg_left hframed hseg
        have hliveFramed : ∀ ms ∈ c.live, Framed ms := fun ms hms =>
          hdisk.framed ms (List.mem_append_right _ hms)
        have hwhole := logRecords_between c.live [] (by simpa using hliveFramed)
          (List.prefix_refl _) (by simp)
        obtain ⟨_, hlrec, hlcut⟩ := hwhole
        have hcopies : ((c.moved ++ c.live).take n).flatten ⊆ c.live.flatten := by
          intro m hm
          have hm := mem_take_flatten hm
          rw [List.flatten_append, List.mem_append] at hm
          exact hm.elim (@hdisk.moved m) id
        refine ⟨{ snap := c.snap, seg := c.seg ++ (c.moved ++ c.live).take n, moved := []
                  live := c.live }, [],
          explains_of_same h.booked howes ?_ ⟨by simp, Or.inl rfl⟩ ?_ ?_⟩
        · exact
            { snap := hsnap ▸ hdisk.snap
              small := hdisk.small
              fits := hdisk.fits
              seg := Or.inr ⟨b, hb, hrec, hcut⟩
              wal := by
                rw [hwal, hlive]
                exact ⟨by simpa using hlrec, by simpa using hlcut⟩
              moved := rfl
              framed := by
                intro ms hms
                rcases List.mem_append.mp hms with hms | hms
                · refine hframed ms ?_
                  rcases List.mem_append.mp hms with hms | hms
                  · exact List.mem_append_left _ hms
                  · exact List.mem_append_right _ (List.mem_of_mem_take hms)
                · exact hliveFramed ms hms }
        · intro m hm
          simp only [Stored.records, List.flatten_append, List.mem_append] at hm ⊢
          simp only [List.flatten_nil, List.not_mem_nil, or_false] at hm
          tauto
        · intro m hm
          have hmem := @hcopies m
          simp only [Stored.records, List.flatten_append, List.mem_append] at hm ⊢
          tauto
    · cases hfold

/-! ## The next start -/

theorem Found.records_fit {left : Files} {c : Stored} (h : Found left c) :
    ∀ m ∈ c.records, m.Fits := by
  intro m hm
  rcases List.mem_append.mp hm with hm | hm
  · rcases List.mem_append.mp hm with hm | hm
    · exact (h.fits m hm).1
    · obtain ⟨ms, hms, hm⟩ := List.mem_flatten.mp hm
      exact (h.framed ms (List.mem_append_left _ hms)).fits m hm
  · obtain ⟨ms, hms, hm⟩ := List.mem_flatten.mp hm
    exact (h.framed ms (List.mem_append_right _ hms)).fits m hm

/-- The files are left as they are found, but for the ends of the logs. -/
theorem Found.onDisk {left : Files} {c : Stored} (h : Found left c) :
    (reopen left : Durable ρ).OnDisk c := by
  have hwal : (replayed left.wal).file = commitFrames c.live := by
    rw [h.wal.2]
    rfl
  refine
    { snap := h.snap
      small := h.small
      fits := h.fits
      seg := ?_
      moved := by rw [h.moved]; simp
      framed := by
        rw [h.moved, List.append_nil]
        exact h.framed
      synced := hwal
      intact := fun _ => ⟨hwal, ?_⟩
      since := ?_
      pending := by simp [reopen] }
  · rcases h.seg with ⟨hnone, hnil⟩ | ⟨b, hsome, _, hcut⟩
    · exact Or.inl ⟨by simp [reopen, hnone], hnil, h.moved⟩
    · refine Or.inr ?_
      simp only [reopen, hsome, Option.map_some, hcut, h.moved, List.append_nil]
      rfl
  · change (replayed left.wal).good_len = (replayed left.wal).file.length
    rw [h.wal.2]
    rfl
  · intro b hb
    have hb : b = (replayed left.wal).file := by simpa [reopen, Files.engine] using hb
    rw [hb, hwal]
    exact Or.inl (explained_live _ _)

section Opened

variable {left : Files} {c : Stored} {ks : Keyspace}

theorem Found.owes
    (h : Found left c) (hcovers : Compaction.Covers ks.newest c.records [])
    (hts : ∀ m ∈ left.records, m.ts < 2 ^ 64 - 1) :
    (reopen left : Durable ρ).system.engine.Owes [] c.records := by
  have hbound : ∀ (k : Key) (w : Nat × Value), (Keyspace.merged left.records)[k]? = some w →
      w.1 ≤ left.core.visible_ts := (left.opened hts).bound
  refine
    { covers := ?_
      bound := hbound
      based := hbound
      baseFits := ?_
      historyFits := by simp [reopen, Files.engine]
      landingFits := by simp [reopen, Files.engine, Engine.busy, Phase.landing]
      alone := Or.inr rfl
      late := by simp
      refused := by simp }
  · have hmerged := (Keyspace.merged_of_covers hcovers (List.Subset.refl _)
      (List.Subset.refl _)).2
    rw [← h.records] at hmerged ⊢
    exact hmerged
  · intro k m hm
    refine h.records_fit m ?_
    rw [← h.records]
    exact (Keyspace.mergedFrom_merged left.records).mem k m hm

/-- The engine that is opened on files whose records cover a keyspace. -/
theorem Found.sound
    (h : Found left c) (hcovers : Compaction.Covers ks.newest c.records [])
    (hts : ∀ m ∈ c.records, m.ts < 2 ^ 64 - 1) : (reopen left : Durable ρ).Sound := by
  have hts : ∀ m ∈ left.records, m.ts < 2 ^ 64 - 1 := by
    rw [h.records]
    exact hts
  exact
    { system :=
        { steady := Engine.steady_start (left.opened hts) true
          right := trivial
          results := by simp [reopen] }
      booked := Engine.booked_start (left.opened hts)
      count := fun _ _ _ _ hck => by cases hck
      stored := ⟨c, h.onDisk, h.owes hcovers hts, fun _ ht => by cases ht⟩ }

end Opened

theorem sound_start : (start : Durable ρ).Sound := by
  obtain ⟨_, hrec, hcut⟩ := logRecords_between [] [] (b := []) (by simp)
    (List.prefix_refl _) (by simp)
  have hfound : Found { snap := none, seg := none, wal := [] }
      { snap := [], seg := [], moved := [], live := [] } :=
    { snap := Or.inl ⟨rfl, rfl⟩
      small := by simp
      fits := by simp
      seg := Or.inl ⟨rfl, rfl⟩
      wal := ⟨by simpa using hrec, by simpa using hcut⟩
      moved := rfl
      framed := by simp }
  have hcovers : Compaction.Covers (∅ : Keyspace).newest [] [] := by
    rw [show (∅ : Keyspace).newest = fun _ => none from funext fun k => by simp [Keyspace.newest]]
    exact Compaction.Covers.empty
  exact hfound.sound hcovers (by simp [Stored.records])

theorem Sound.step
    {d d' : Durable ρ} {act : DurableAct ρ} (h : d.Sound) (hok : d.Ok act)
    (hst : d.step act = some d') : d'.Sound := by
  cases act with
  | system act =>
      cases act with
      | engine act => exact h.engine hok hst
      | rotate => exact h.rotate hok hst
      | register => exact h.register hst
      | published => exact h.published hst
      | chunk => exact h.chunk hst
      | counted => exact h.counted hst
      | finish => exact h.finish hst
  | syncFails => exact h.syncFails hst
  | foldFails copied segSynced emptied => exact h.foldFails hok hst
  | abandon => exact h.abandon hst
  | keepSegment => exact h.keepSegment hst
  | crash left =>
      simp only [Durable.step] at hst
      split at hst
      · next hleft =>
          cases hst
          obtain ⟨c, cs, hexplains⟩ := h.crash hleft
          exact hexplains.found.sound hexplains.covers hexplains.ts_lt
      · cases hst

/-! ## What is found -/

/-- What the disk may have beside the published commits: the first commits of one batch
that was in work or handed to the log in vain, and whose clients were not told that they
succeeded. -/
def MaySurvive (d : Durable ρ) (cs : List (List Mutation)) : Prop :=
  cs = [] ∨ ∃ job, (d.system.engine.busy.job = some job ∨ job ∈ d.handed) ∧
    cs <+: job.writes ∧ d.system.engine.Unanswered job

/-- The engine that is opened on these files reads every key as it is in `ks`. -/
def Recovers (left : Files) (ks : Keyspace) : Prop :=
  ∀ k, left.core.latestValue k = ks.value k

/-- The batch that is in the log but not published has its commits there as well. -/
theorem Sound.landing
    {d : Durable ρ} (h : d.Sound) {cs : List (List Mutation)} (hstray : d.Stray cs) :
    ∃ ds, d.MaySurvive ds ∧ d.system.engine.lasting.commit cs.flatten =
      d.system.engine.keyspace.commit ds.flatten := by
  obtain ⟨c, _, howes, _⟩ := h.stored
  have ht := h.booked.steady.timely
  by_cases hland : d.system.engine.busy.landing = []
  · refine ⟨cs, ?_, by rw [Engine.lasting, hland, Keyspace.commit_nil]⟩
    refine hstray.2.imp_right ?_
    rintro ⟨job, hmem | hp, hpre⟩
    · exact ⟨job, Or.inr hmem, hpre, (howes.refused job hmem).unanswered h.booked⟩
    · have hbusy : d.system.engine.busy = .logging job := by
        rw [ht.busy_eq (a := .flusher) (by rw [hp]; simp), hp]
      refine ⟨job, Or.inl (by rw [hbusy]; rfl), hpre, h.booked.unanswered fun pw hpw => ?_⟩
      rw [hbusy]
      exact hpw
  · have hcs : cs = [] := by
      refine hstray.2.resolve_right ?_
      rintro ⟨job, hmem | hp, _⟩
      · rw [howes.alone.resolve_left hland] at hmem
        cases hmem
      · rw [ht.busy_eq (a := .flusher) (by rw [hp]; simp), hp] at hland
        exact hland rfl
    have hjob : ∃ job, d.system.engine.busy.job = some job ∧
        d.system.engine.busy.batch = job.batch ∧ d.system.engine.busy.landing = job.muts := by
      cases hb : d.system.engine.busy with
      | applying j _ _ => exact ⟨j, rfl, rfl, rfl⟩
      | publishing j effect =>
          rw [hb] at hland
          cases effect with
          | applied => exact ⟨j, rfl, rfl, rfl⟩
          | nothing => exact absurd rfl hland
          | wiped => exact absurd rfl hland
      | _ =>
          rw [hb] at hland
          exact absurd rfl hland
    obtain ⟨job, hbusy, hbatch, hmuts⟩ := hjob
    refine ⟨job.writes, Or.inr ⟨job, Or.inl hbusy, List.prefix_refl _,
      h.booked.unanswered fun pw hpw => hbatch ▸ hpw⟩, ?_⟩
    rw [hcs, List.flatten_nil, Keyspace.commit_nil, Engine.lasting, hmuts, Job.flatten_writes]

/-- Whatever a crash leaves, the next start finds the published commits in their order, and
behind them at most some first commits of one batch that nobody was told about. -/
theorem crash_recovery_exact
    {d : Durable ρ} (hrun : Run step Ok start d) {left : Files} (hleft : d.leaves left = true) :
    ∃ cs, d.MaySurvive cs ∧ Recovers left (d.system.engine.keyspace.commit cs.flatten) := by
  have hsound : d.Sound := hrun.invariant (fun _ _ _ h hok hst => h.step hok hst) sound_start
  obtain ⟨c, cs, hexplains⟩ := hsound.crash hleft
  obtain ⟨ds, hds, heq⟩ := hsound.landing hexplains.stray
  refine ⟨ds, hds, fun k => ?_⟩
  have hmerged := (Keyspace.merged_of_covers hexplains.covers (List.Subset.refl _)
    (List.Subset.refl _)).1 k
  rw [← heq, ← hmerged, ← hexplains.found.records]
  exact (FlushCore.reflects_openCore left.snapshot left.logs k).value

/-! ### A run with a torn append -/

/-- A test that only permitted steps pass. -/
def okStep (d : Durable Unit) : DurableAct Unit → Bool
  | .system act => d.system.onTimeStep act
  | .foldFails copied _ _ =>
      (Framing.scan Crc.crcNat (d.system.engine.wal.file.take copied)).2.isEmpty
  | _ => true

theorem ok_of_okStep {d : Durable Unit} {act : DurableAct Unit} (h : d.okStep act = true) :
    d.Ok act := by
  cases act with
  | system act => exact Checkpointed.onTime_of_onTimeStep h
  | foldFails copied segSynced emptied => exact List.isEmpty_iff.mp h
  | _ => trivial

/-- One key is written, and a checkpoint has copied it. -/
def copied : List (CkptAct Unit) :=
  Checkpointed.oneKey (.bytes []) ++ Checkpointed.works 39 ++ [.rotate, .register, .published] ++
    List.replicate 33 .chunk ++ [.counted] ++ List.replicate 33 .chunk

/-- The segment cannot be removed; the key is deleted, and the fold of the log fails behind
the copy; a third commit is on its way to the log. -/
def tornRun : List (DurableAct Unit) :=
  copied.map .system ++ [.keepSegment] ++
    (Checkpointed.oneKey .tombstone ++ Checkpointed.works 39).map .system ++
    [.foldFails 23 true false] ++
    (Checkpointed.oneKey (.bytes []) ++ Checkpointed.works 5).map .system

/-- The crash keeps these bytes of the live log. -/
def torn (d : Durable Unit) (n : Nat) : Files :=
  { snap := d.snap, seg := d.seg.map File.data, wal := (d.contents.getLast?.getD []).take n }

theorem crash_recovery_exact_torn :
    ∃ (d : Durable Unit) (left : Files), left.snap.isSome = true ∧ left.seg.isSome = true ∧
      left.wal.length = 49 ∧
      ∃ cs, d.MaySurvive cs ∧ Recovers left (d.system.engine.keyspace.commit cs.flatten) := by
  have hsome : (exec step okStep start tornRun).any (fun d =>
      d.leaves (d.torn 49) && (d.torn 49).snap.isSome && (d.torn 49).seg.isSome &&
        (d.torn 49).wal.length == 49) = true := by
    decide +kernel
  obtain ⟨hs, hleft⟩ := (Option.any_eq_true_iff_get _ _).mp hsome
  simp only [Bool.and_eq_true, beq_iff_eq] at hleft
  exact ⟨_, _, hleft.1.1.2, hleft.1.2, hleft.2, crash_recovery_exact
    (.of_exec (fun _ _ => ok_of_okStep) (Option.some_get hs).symm) hleft.1.1.1⟩

end Durable
end DurableRuns
end StrikeDB
