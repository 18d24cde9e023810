import StrikeDB.Durable
import StrikeDB.OwedCommits

/-!
# StrikeDB: what the files hold beside a running engine

`OnDisk` reads the files of a running engine as lists of commits; `Sound` adds that
these commits cover the lasting keyspace, and that a checkpoint in work has everything
newer than its snapshot in the live log.

**Results.**
* `Sound.engine`: the steps of the engine, its appends and their failures among them.
* `Sound.rotate`, `Sound.foldFails`: commits move to the segment, in whole or in part.
* `Sound.finish`, `Sound.keepSegment`: a finished snapshot takes their place.
-/

namespace StrikeDB

section DurableInv

variable {ρ : Type}

/-- The records that the files hold: those of the snapshot, the commits of the segment,
those of the live log, and those of the live log that a failed fold has copied behind
the segment. -/
structure Stored where
  snap : List Mutation
  seg : List (List Mutation)
  moved : List (List Mutation)
  live : List (List Mutation)

def Stored.records (c : Stored) : List Mutation := c.snap ++ c.seg.flatten ++ c.live.flatten

/-- The snapshot that a checkpoint in work has read. -/
def Ckpt.snap? : Ckpt → Option Nat
  | .idle => none
  | .rotated snap | .waiting snap | .counting snap _ _ | .writing snap _ _ _ => some snap

/-- The live log, with some bytes of a batch that was handed to it. -/
def Explained (live : List (List Mutation)) (handed : List (Job ρ)) (b : Bytes) : Prop :=
  ∃ t, b = commitFrames live ++ t ∧ (t = [] ∨
    ∃ job ∈ handed, (∀ ms ∈ job.writes, Framed ms) ∧ t <+: commitFrames job.writes)

theorem explained_live (live : List (List Mutation)) (handed : List (Job ρ)) :
    Explained live handed (commitFrames live) :=
  ⟨[], by simp, Or.inl rfl⟩

theorem Explained.mono
    {live : List (List Mutation)} {handed : List (Job ρ)} {b : Bytes}
    (h : Explained live handed b) (more : List (Job ρ)) : Explained live (handed ++ more) b := by
  obtain ⟨t, ht, hcase⟩ := h
  refine ⟨t, ht, hcase.imp_right ?_⟩
  rintro ⟨job, hjob, hframed⟩
  exact ⟨job, List.mem_append_left _ hjob, hframed⟩

namespace Durable

/-- The live log was truncated behind a fold, and the truncation not synced. -/
structure Retired (d : Durable ρ) (c : Stored) (b : Bytes) : Prop where
  nil : b = []
  idle : d.system.ckpt = .idle
  poisoned : d.system.engine.wal.poisoned = true
  copied : c.live.flatten ⊆ c.seg.flatten

structure OnDisk (d : Durable ρ) (c : Stored) : Prop where
  snap : (d.snap = none ∧ c.snap = []) ∨ d.snap = some (snapshotFile c.snap)
  small : c.snap.length < 256 ^ 8
  fits : ∀ m ∈ c.snap, m.Fits ∧ m.value.isLive = true
  seg : (d.seg = none ∧ c.seg = [] ∧ c.moved = []) ∨
    d.seg = some { data := commitFrames (c.seg ++ c.moved), synced := commitFrames c.seg }
  moved : c.moved.flatten ⊆ c.live.flatten
  framed : ∀ ms ∈ c.seg ++ c.moved ++ c.live, Framed ms
  synced : d.synced = commitFrames c.live
  intact : d.system.engine.wal.poisoned = false →
    d.system.engine.wal.file = commitFrames c.live ∧
      d.system.engine.wal.good_len = d.system.engine.wal.file.length
  since : ∀ b ∈ d.system.engine.wal.file :: d.since,
    Explained c.live d.handed b ∨ d.Retired c b
  pending : d.system.pending = d.seg.isSome

/-- The invariant of a durable engine with its files. -/
structure Sound (d : Durable ρ) : Prop where
  system : d.system.Inv
  booked : d.system.engine.Booked
  count : ∀ snap count p written, d.system.ckpt = .writing snap count p written → count < 2 ^ 64
  stored : ∃ c, d.OnDisk c ∧ d.system.engine.Owes d.handed c.records ∧
    ∀ t, d.system.ckpt.snap? = some t → d.system.engine.Behind t c.live.flatten

/-- The engine and its checkpoint take a step that leaves the log alone. -/
theorem OnDisk.congr
    {d : Durable ρ} {c : Stored} (h : d.OnDisk c) {w : Checkpointed ρ}
    (hwal : w.engine.wal = d.system.engine.wal) (hpending : w.pending = d.system.pending)
    (hidle : d.system.ckpt = .idle → w.ckpt = .idle) :
    ({ d with system := w } : Durable ρ).OnDisk c where
  snap := h.snap
  small := h.small
  fits := h.fits
  seg := h.seg
  moved := h.moved
  framed := h.framed
  synced := h.synced
  intact := by
    change w.engine.wal.poisoned = false → _
    rw [hwal]
    exact h.intact
  since := by
    change ∀ b ∈ w.engine.wal.file :: d.since, _
    rw [hwal]
    intro b hb
    refine (h.since b hb).imp_right ?_
    rintro ⟨hnil, hck, hpois, hcopied⟩
    exact ⟨hnil, hidle hck, by rw [hwal]; exact hpois, hcopied⟩
  pending := hpending.trans h.pending

/-! ## The steps of the engine -/

theorem follow_of_not_logging
    {d : Durable ρ} {act : Act ρ} {w : Checkpointed ρ}
    (hnot : ∀ a io, act = .work a io → ∀ job, d.system.engine.phase a ≠ .logging job) :
    d.follow act w = { d with system := w } := by
  unfold follow
  simp only
  split
  · next a io =>
      split
      · next job hp => exact absurd hp (hnot a io rfl job)
      · rfl
  · rfl

section Logging

variable {d : Durable ρ} {io : Io} {job : Job ρ} {w : Checkpointed ρ}

theorem follow_nothing
    (hp : d.system.engine.phase .flusher = .logging job) (hnil : job.writes = []) :
    d.follow (.work .flusher io) w = { d with system := w } := by
  unfold follow
  simp only [hp, if_pos hnil]

theorem follow_synced
    (hp : d.system.engine.phase .flusher = .logging job) (hne : job.writes ≠ [])
    (hok : (job.log d.system.engine.core d.system.engine.wal io).2.2 = .ok ()) :
    d.follow (.work .flusher io) w =
      { d with
        system := w
        synced := w.engine.wal.file
        since := [w.engine.wal.file]
        handed := [] } := by
  unfold follow
  simp only [hp, if_neg hne, hok]

theorem follow_failed
    (hp : d.system.engine.phase .flusher = .logging job) (hne : job.writes ≠ []) {e : IoError}
    (herr : (job.log d.system.engine.core d.system.engine.wal io).2.2 = .error e) :
    d.follow (.work .flusher io) w =
      { d with
        system := w
        since := d.since ++ [d.system.engine.wal.file ++
          d.system.engine.wal.reaches (job.writes.map commit_record) io.write, w.engine.wal.file]
        handed := d.handed ++ [job] } := by
  unfold follow
  simp only [hp, if_neg hne, herr]

end Logging

/-- The frames of the batch are in the log and synced. -/
theorem OnDisk.synced_append
    {d : Durable ρ} {c : Stored} (h : d.OnDisk c) {w : Checkpointed ρ} {job : Job ρ}
    (hclean : d.system.engine.wal.poisoned = false)
    (hwal : w.engine.wal = { d.system.engine.wal with
      file := d.system.engine.wal.file ++ commitFrames job.writes
      good_len := d.system.engine.wal.good_len + (commitFrames job.writes).length })
    (hframed : ∀ ms ∈ job.writes, Framed ms)
    (hpending : w.pending = d.system.pending) :
    ({ d with
      system := w
      synced := w.engine.wal.file
      since := [w.engine.wal.file]
      handed := [] } : Durable ρ).OnDisk { c with live := c.live ++ job.writes } := by
  obtain ⟨hfile, hgood⟩ := h.intact hclean
  have hfile' : w.engine.wal.file = commitFrames (c.live ++ job.writes) := by
    rw [hwal, commitFrames_append, ← hfile]
  refine
    { snap := h.snap
      small := h.small
      fits := h.fits
      seg := h.seg
      moved := ?_
      framed := ?_
      synced := hfile'
      intact := fun _ => ⟨hfile', ?_⟩
      since := ?_
      pending := hpending.trans h.pending }
  · rw [List.flatten_append]
    exact List.Subset.trans h.moved (List.subset_append_left _ _)
  · intro ms hms
    rcases List.mem_append.mp hms with hms | hms
    · exact h.framed ms (List.mem_append_left _ hms)
    · rcases List.mem_append.mp hms with hms | hms
      · exact h.framed ms (List.mem_append_right _ hms)
      · exact hframed ms hms
  · change w.engine.wal.good_len = w.engine.wal.file.length
    rw [hwal]
    simp only [List.length_append, hgood]
  · intro b hb
    have hb : b = w.engine.wal.file := by simpa using hb
    rw [hb, hfile']
    exact Or.inl (explained_live _ _)

/-- The append or its `fsync` failed. -/
theorem OnDisk.failed_append
    {d : Durable ρ} {c : Stored} (h : d.OnDisk c) {w : Checkpointed ρ} {job : Job ρ} {io : Io}
    (hend : Job.LogFailed d.system.engine.wal job io w.engine.wal)
    (hts : ∀ m ∈ job.muts, m.ts < 256 ^ 8)
    (hpending : w.pending = d.system.pending) (hckpt : w.ckpt = d.system.ckpt) :
    ({ d with
      system := w
      since := d.since ++ [d.system.engine.wal.file ++
        d.system.engine.wal.reaches (job.writes.map commit_record) io.write, w.engine.wal.file]
      handed := d.handed ++ [job] } : Durable ρ).OnDisk c := by
  have hreached : d.system.engine.wal.poisoned = false →
      Explained c.live (d.handed ++ [job]) (d.system.engine.wal.file ++
        d.system.engine.wal.reaches (job.writes.map commit_record) io.write) := by
    intro hclean
    obtain ⟨hfile, _⟩ := h.intact hclean
    refine ⟨_, by rw [hfile], ?_⟩
    by_cases hnil : d.system.engine.wal.reaches (job.writes.map commit_record) io.write = []
    · exact Or.inl hnil
    · exact Or.inr ⟨job, List.mem_append_right _ (List.mem_singleton_self job),
        Job.framed_writes (hend.fits hnil) hts, hend.reach⟩
  generalize hd : ({ d with
      system := w
      since := d.since ++ [d.system.engine.wal.file ++
        d.system.engine.wal.reaches (job.writes.map commit_record) io.write, w.engine.wal.file]
      handed := d.handed ++ [job] } : Durable ρ) = d'
  have hsystem : d'.system = w := by rw [← hd]
  have hold : ∀ b, Explained c.live d.handed b ∨ d.Retired c b →
      Explained c.live (d.handed ++ [job]) b ∨ d'.Retired c b := by
    intro b hb
    refine hb.imp (fun h => h.mono [job]) ?_
    rintro ⟨hnil, hidle, hpois, hcopied⟩
    refine ⟨hnil, by rw [hsystem, hckpt, hidle], ?_, hcopied⟩
    rw [hsystem, (hend.poisoned hpois).1]
    exact hpois
  have hnew : ∀ b, b = d.system.engine.wal.file ++
        d.system.engine.wal.reaches (job.writes.map commit_record) io.write ∨
        b = w.engine.wal.file →
      Explained c.live (d.handed ++ [job]) b ∨ d'.Retired c b := by
    intro b hb
    have hsame := hold _ (h.since d.system.engine.wal.file List.mem_cons_self)
    cases hp : d.system.engine.wal.poisoned with
    | true =>
        obtain ⟨hwal, hnil⟩ := hend.poisoned hp
        rw [hnil, List.append_nil, hwal, or_self] at hb
        rw [hb]
        exact hsame
    | false =>
        rcases hb with rfl | rfl
        · exact Or.inl (hreached hp)
        · rcases hend.file (h.intact hp).2 with heq | heq
          · rw [heq]
            exact hsame
          · rw [heq]
            exact Or.inl (hreached hp)
  subst hd
  refine
    { snap := h.snap
      small := h.small
      fits := h.fits
      seg := h.seg
      moved := h.moved
      framed := h.framed
      synced := h.synced
      intact := ?_
      since := ?_
      pending := hpending.trans h.pending }
  · intro hclean
    cases hp : d.system.engine.wal.poisoned with
    | true =>
        rw [(hend.poisoned hp).1, hp] at hclean
        cases hclean
    | false =>
        have hwal := hend.clean hclean (h.intact hp).2
        change w.engine.wal.file = _ ∧ w.engine.wal.good_len = w.engine.wal.file.length
        rw [hwal]
        exact h.intact hp
  · intro b hb
    have hb : b = w.engine.wal.file ∨ b ∈ d.since ∨ b = d.system.engine.wal.file ++
        d.system.engine.wal.reaches (job.writes.map commit_record) io.write ∨
        b = w.engine.wal.file := by simpa using hb
    rcases hb with hb | hb | hb
    · exact hnew b (Or.inr hb)
    · exact hold b (h.since b (List.mem_cons_of_mem _ hb))
    · exact hnew b hb

theorem Sound.engine
    {d d' : Durable ρ} {act : Act ρ} (h : d.Sound) (hok : d.system.OnTime (.engine act))
    (hst : d.step (.system (.engine act)) = some d') :
    d'.Sound := by
  obtain ⟨w, hw, rfl⟩ := Option.map_eq_some_iff.mp hst
  have hsystem := h.system.step hok hw
  obtain ⟨s, hs, rfl, _⟩ := Checkpointed.other_cases hw
  obtain ⟨c, hdisk, howes, hbehind⟩ := h.stored
  have hbooked : s.Booked := h.booked.step hok.1 hs
  cases Engine.lasting_step h.booked hok.1 hs with
  | same hlast hwal hland hnot =>
      rw [follow_of_not_logging hnot]
      exact ⟨hsystem, hbooked, h.count, c, hdisk.congr hwal rfl id,
        howes.step h.booked hok.1 hs hlast hland, fun t ht => (hbehind t ht).step hs hlast⟩
  | @logged io job wal core result hact hp hlog hwal hcore hhist hend =>
      subst hact
      have hlate := howes.late_logging h.booked hp
      have hts : ∀ m ∈ job.muts, m.ts < 256 ^ 8 := by
        intro m hm
        have hle := hlate.clock m hm
        have hlt := h.booked.steady.timely.clock_lt
        norm_num at hlt ⊢
        omega
      rcases Job.log_cases hlog with ⟨hnil, hsame, _, rfl⟩ | ⟨hne, ⟨rfl, hsync⟩ | ⟨e, rfl, hfail⟩⟩
      · -- nothing to write
        obtain ⟨_, hbusy, hlast⟩ := hend.resolve_right (by rintro ⟨e, he, _⟩; cases he)
        have hmuts := Job.muts_eq_nil hnil
        rw [hmuts, Keyspace.commit_nil] at hlast
        have hland : s.busy.landing = [] := by
          rw [hbusy]
          exact hmuts
        rw [follow_nothing hp hnil]
        exact ⟨hsystem, hbooked, h.count, c, hdisk.congr (hwal.trans hsame) rfl id,
          howes.step h.booked hok.1 hs hlast (Or.inr hland),
          fun t ht => (hbehind t ht).step hs hlast⟩
      · obtain ⟨_, hbusy, hlast⟩ := hend.resolve_right (by rintro ⟨e, he, _⟩; cases he)
        have hframed := Job.framed_writes hsync.fits hts
        have hfits : ∀ m ∈ job.muts, m.Fits := by
          intro m hm
          rw [← Job.flatten_writes] at hm
          obtain ⟨ms, hms, hm⟩ := List.mem_flatten.mp hm
          exact (hframed ms hms).fits m hm
        have hrecords : c.records ++ job.muts =
            Stored.records { c with live := c.live ++ job.writes } := by
          simp only [Stored.records, List.flatten_append, Job.flatten_writes, List.append_assoc]
        rw [follow_synced hp hne (by rw [hlog])]
        refine ⟨hsystem, hbooked, h.count, { c with live := c.live ++ job.writes },
          hdisk.synced_append hsync.clean (hwal.trans hsync.eq) hframed rfl, ?_, ?_⟩
        · rw [← hrecords]
          exact howes.succeeded h.booked hs hp (hcore ▸ hlog) hbusy hlast hfits hhist
        · intro t ht
          have hb := (hbehind t ht).succeeded h.booked hs hp hlast
          rw [← Job.flatten_writes, ← List.flatten_append] at hb
          exact hb
      · obtain ⟨e', he', hlast, hbusy⟩ := hend.resolve_left (by rintro ⟨he, _⟩; cases he)
        rw [follow_failed hp hne (e := e) (by rw [hlog])]
        have hfail' : Job.LogFailed d.system.engine.wal job io s.wal := hwal ▸ hfail
        exact ⟨hsystem, hbooked, h.count, c, hdisk.failed_append hfail' hts rfl rfl,
          howes.failed h.booked hok.1 hs hp hbusy rfl hlast,
          fun t ht => (hbehind t ht).step hs hlast⟩

/-! ## Rotations -/

/-- The log was synced before it is rotated. -/
theorem rotate_cases {w w' : Checkpointed ρ} (h : w.rotate = some w') :
    w.ckpt = .idle ∧ w.engine.wal.poisoned = false ∧
      ∃ wal : Wal, wal.file = [] ∧ wal.good_len = 0 ∧ wal.poisoned = false ∧
        w' = { w with
          engine := { w.engine with wal := wal }
          ckpt := .rotated w.engine.core.last_appended
          pending := true } := by
  unfold Checkpointed.rotate at h
  rcases w.engine.wal.sync_cases true with ⟨_, hs⟩ | ⟨hclean, _, hs⟩ | ⟨_, htrue, _⟩
  · rw [hs] at h
    cases hck : w.ckpt <;> simp [hck] at h
  · rw [hs] at h
    cases hck : w.ckpt with
    | idle =>
        simp only [hck, Option.some.injEq] at h
        refine ⟨rfl, hclean, _, ?_, ?_, ?_, h.symm⟩
        · split <;> simp [Wal.truncate, Wal.check_poisoned, Wal.sync, hclean, Wal.open, set_len]
        · split <;> simp [Wal.truncate, Wal.check_poisoned, Wal.sync, hclean, Wal.open]
        · split <;> simp [Wal.truncate, Wal.check_poisoned, Wal.sync, hclean, Wal.open]
    | rotated _ => simp [hck] at h
    | waiting _ => simp [hck] at h
    | counting _ _ _ => simp [hck] at h
    | writing _ _ _ _ => simp [hck] at h
  · cases htrue

/-- The segment and the live log behind it. -/
theorem OnDisk.seg_data {d : Durable ρ} {c : Stored} (h : d.OnDisk c) :
    (d.seg.map File.data).getD [] = commitFrames (c.seg ++ c.moved) := by
  rcases h.seg with ⟨hnone, hseg, hmoved⟩ | hsome
  · rw [hnone, hseg, hmoved]
    rfl
  · rw [hsome]
    rfl

/-- The commits behind the segment are copies. -/
theorem records_fold {c : Stored} (h : c.moved.flatten ⊆ c.live.flatten) :
    c.records ⊆ c.snap ++ (c.seg ++ c.moved ++ c.live).flatten ∧
      c.snap ++ (c.seg ++ c.moved ++ c.live).flatten ⊆ c.records := by
  simp only [Stored.records, List.flatten_append]
  constructor
  · intro m hm
    simp only [List.mem_append] at hm ⊢
    tauto
  · intro m hm
    simp only [List.mem_append] at hm ⊢
    rcases hm with hm | (hm | hm) | hm
    · exact Or.inl (Or.inl hm)
    · exact Or.inl (Or.inr hm)
    · exact Or.inr (h hm)
    · exact Or.inr hm

theorem Sound.rotate
    {d d' : Durable ρ} (h : d.Sound) (hok : d.system.OnTime .rotate)
    (hst : d.step (.system .rotate) = some d') :
    d'.Sound := by
  obtain ⟨w, hw, rfl⟩ := Option.map_eq_some_iff.mp hst
  have hsystem := h.system.step hok hw
  obtain ⟨c, hdisk, howes, _⟩ := h.stored
  obtain ⟨_, hclean, wal, hfile, hgood, hpois, rfl⟩ := rotate_cases hw
  obtain ⟨hlive, _⟩ := hdisk.intact hclean
  obtain ⟨hsub, hle⟩ := records_fold hdisk.moved
  have hdata : ((d.seg.map File.data).getD []) ++ d.system.engine.wal.file =
      commitFrames (c.seg ++ c.moved ++ c.live) := by
    rw [hdisk.seg_data, hlive, ← commitFrames_append]
  refine ⟨hsystem, h.booked.rewal wal, (fun _ _ _ _ hck => by cases hck),
    { snap := c.snap, seg := c.seg ++ c.moved ++ c.live, moved := [], live := [] }, ?_, ?_, ?_⟩
  · exact
      { snap := hdisk.snap
        small := hdisk.small
        fits := hdisk.fits
        seg := Or.inr (by simp only [rotated, hdata, File.safe, List.append_nil])
        moved := by simp
        framed := by simpa using hdisk.framed
        synced := rfl
        intact := fun _ => ⟨hfile, hgood.trans (congrArg List.length hfile).symm⟩
        since := by
          intro b hb
          have hb : b = [] := by simpa [rotated, hfile] using hb
          exact Or.inl ⟨[], by rw [hb]; rfl, Or.inl rfl⟩
        pending := rfl }
  · refine (howes.rewal ?_ ?_ wal).forget
    · simpa [Stored.records] using hsub
    · simpa [Stored.records] using hle
  · intro t ht
    cases ht
    exact howes.behind wal

/-- A fold that fails leaves the engine alone, but for its log. -/
theorem Sound.rewal
    {d : Durable ρ} (h : d.Sound) (wal : Wal) :
    ({ d.system with engine := { d.system.engine with wal := wal } } : Checkpointed ρ).Inv where
  steady := h.system.steady.rotate wal
  right := by
    have hright := h.system.right
    change Checkpointed.Right { d.system.engine with wal := wal } d.system.ckpt
    cases hck : d.system.ckpt with
    | idle => trivial
    | rotated snap =>
        rw [hck] at hright
        obtain ⟨hold, hahead⟩ := hright
        exact ⟨⟨hold.chains, hold.phase, hold.history⟩, ⟨hahead.le, hahead.waits⟩⟩
    | waiting snap =>
        rw [hck] at hright
        obtain ⟨hpin, hahead, hold, hkept⟩ := hright
        exact ⟨hpin, ⟨hahead.le, hahead.waits⟩,
          fun hlt => ⟨(hold hlt).chains, (hold hlt).phase, (hold hlt).history⟩,
          fun hle => ⟨(hkept hle).visible, (hkept hle).horizon, (hkept hle).ready,
            (hkept hle).locked, (hkept hle).shows⟩⟩
    | counting snap p count =>
        rw [hck] at hright
        obtain ⟨hpin, hkept, hrest⟩ := hright
        exact ⟨hpin, ⟨hkept.visible, hkept.horizon, hkept.ready, hkept.locked, hkept.shows⟩, hrest⟩
    | writing snap count p written =>
        rw [hck] at hright
        obtain ⟨hpin, hkept, hrest⟩ := hright
        exact ⟨hpin, ⟨hkept.visible, hkept.horizon, hkept.ready, hkept.locked, hkept.shows⟩, hrest⟩
  results := h.system.results

/-- What a failed fold has copied, if it did not stop inside a frame. -/
theorem copied_frames
    {live : List (List Mutation)} (hframed : ∀ ms ∈ live, Framed ms) {t : Bytes}
    (ht : t <+: commitFrames live) (hend : (Framing.scan Crc.crcNat t).2 = []) :
    ∃ n, t = commitFrames (live.take n) := by
  have hframed' : ∀ ms ∈ [] ++ live, Framed ms := by simpa using hframed
  obtain ⟨n, _, hsplit⟩ := scan_commitFrames hframed' ht
  refine ⟨n, ?_⟩
  simpa [hend] using hsplit

theorem foldFails_cases
    {d d' : Durable ρ} {copied : Nat} {segSynced emptied : Bool}
    (h : d.foldFails copied segSynced emptied = some d') :
    d.system.ckpt = .idle ∧ d.system.engine.wal.poisoned = false ∧
      (segSynced = true → copied = d.system.engine.wal.file.length) ∧
      (emptied = true → segSynced = true) ∧
      ∃ f wal', d.seg = some f ∧
        (emptied = false ∧ wal' = d.system.engine.wal ∨
          emptied = true ∧ wal'.file = [] ∧ wal'.poisoned = true) ∧
        d' = { d with
          system := { d.system with engine := { d.system.engine with wal := wal' } }
          synced := d.system.engine.wal.file
          since := [d.system.engine.wal.file, wal'.file]
          seg := some
            { data := f.data ++ d.system.engine.wal.file.take copied
              synced := if segSynced then f.data ++ d.system.engine.wal.file.take copied
                else f.synced }
          handed := [] } := by
  unfold Durable.foldFails at h
  simp only at h
  rcases d.system.engine.wal.sync_cases true with ⟨_, hs⟩ | ⟨hclean, _, hs⟩ | ⟨_, htrue, _⟩
  · rw [hs] at h
    split at h
    · next heq => cases heq
    · cases h
  · rw [hs] at h
    split at h
    · next f _ hck hseg _ =>
        split at h
        · cases h
        · next hguard =>
            simp only [not_or, not_and, Bool.not_eq_true', Bool.not_eq_false] at hguard
            obtain ⟨_, hall, hempty⟩ := hguard
            refine ⟨hck, hclean, ?_, hempty, f, _, hseg, ?_, (Option.some.inj h).symm⟩
            · intro hsync
              exact Decidable.not_not.mp (hall hsync)
            · cases emptied with
              | false => exact Or.inl ⟨rfl, rfl⟩
              | true =>
                  refine Or.inr ⟨rfl, ?_, ?_⟩
                  · simp [Wal.truncate, Wal.check_poisoned, Wal.sync, hclean, set_len]
                  · simp [Wal.truncate, Wal.check_poisoned, Wal.sync, hclean]
    · cases h
  · cases htrue

theorem Sound.foldFails
    {d d' : Durable ρ} {copied : Nat} {segSynced emptied : Bool} (h : d.Sound)
    (hok : d.Ok (.foldFails copied segSynced emptied))
    (hst : d.step (.foldFails copied segSynced emptied) = some d') :
    d'.Sound := by
  obtain ⟨c, hdisk, howes, hbehind⟩ := h.stored
  obtain ⟨hidle, hclean, hall, hempty, f, wal', hseg, hwal', rfl⟩ := foldFails_cases hst
  obtain ⟨hlive, hgood⟩ := hdisk.intact hclean
  have hf : f = { data := commitFrames (c.seg ++ c.moved), synced := commitFrames c.seg } := by
    rcases hdisk.seg with ⟨hnone, _⟩ | hsome
    · rw [hseg] at hnone
      cases hnone
    · rw [hseg, Option.some.injEq] at hsome
      exact hsome
  -- the commits that are in the segment now, synced or not
  have hnew : ∃ c' : Stored, c'.snap = c.snap ∧ c'.live = c.live ∧
      f.data ++ d.system.engine.wal.file.take copied = commitFrames (c'.seg ++ c'.moved) ∧
      (if segSynced then f.data ++ d.system.engine.wal.file.take copied else f.synced) =
        commitFrames c'.seg ∧
      c'.moved.flatten ⊆ c.live.flatten ∧ (∀ ms ∈ c'.seg ++ c'.moved ++ c'.live, Framed ms) ∧
      c.records ⊆ c'.records ∧ c'.records ⊆ c.records ∧
      (segSynced = true → c.live.flatten ⊆ c'.seg.flatten) := by
    have hdata : ∀ cs, d.system.engine.wal.file.take copied = commitFrames cs →
        f.data ++ d.system.engine.wal.file.take copied =
          commitFrames (c.seg ++ (c.moved ++ cs)) := by
      intro cs hcs
      rw [hcs, hf, ← commitFrames_append, List.append_assoc]
    have hframed : ∀ ms, ms ∈ c.seg ∨ ms ∈ c.moved ∨ ms ∈ c.live → Framed ms := by
      intro ms hms
      refine hdisk.framed ms ?_
      simp only [List.mem_append]
      tauto
    cases segSynced with
    | true =>
        have htake : d.system.engine.wal.file.take copied = commitFrames c.live := by
          rw [hall rfl, List.take_length, hlive]
        obtain ⟨hsub, hle⟩ := records_fold hdisk.moved
        refine ⟨{ c with seg := c.seg ++ c.moved ++ c.live, moved := [] }, rfl, rfl, ?_, ?_,
          by simp, ?_, ?_, ?_, fun _ => ?_⟩
        · rw [hdata _ htake, List.append_nil, List.append_assoc]
        · rw [if_pos rfl, hdata _ htake, List.append_assoc]
        · intro ms hms
          refine hframed ms ?_
          simp only [List.append_nil, List.mem_append] at hms
          tauto
        · exact List.Subset.trans hsub (List.subset_append_left _ _)
        · intro m hm
          simp only [Stored.records, List.mem_append] at hm
          rcases hm with hm | hm
          · exact hle (List.mem_append.mpr hm)
          · exact List.mem_append_right _ hm
        · simp
    | false =>
        have hpre : d.system.engine.wal.file.take copied <+: commitFrames c.live := by
          rw [hlive]
          exact List.take_prefix _ _
        obtain ⟨n, htake⟩ := copied_frames (fun ms hms => hframed ms (Or.inr (Or.inr hms))) hpre hok
        have hcopy : (c.live.take n).flatten ⊆ c.live.flatten := by
          intro m hm
          obtain ⟨ms, hms, hm⟩ := List.mem_flatten.mp hm
          exact List.mem_flatten_of_mem (List.mem_of_mem_take hms) hm
        refine ⟨{ c with moved := c.moved ++ c.live.take n }, rfl, rfl, hdata _ htake, ?_, ?_, ?_,
          List.Subset.refl _, List.Subset.refl _, by simp⟩
        · rw [if_neg (by simp), hf]
        · rw [List.flatten_append]
          exact List.append_subset.mpr ⟨hdisk.moved, hcopy⟩
        · intro ms hms
          refine hframed ms ?_
          simp only [List.mem_append] at hms
          rcases hms with (hms | hms | hms) | hms
          · exact Or.inl hms
          · exact Or.inr (Or.inl hms)
          · exact Or.inr (Or.inr (List.mem_of_mem_take hms))
          · exact Or.inr (Or.inr hms)
  obtain ⟨c', hsnap, hlive', hdata, hsynced, hmoved, hframed, hsub, hle, hcopied⟩ := hnew
  refine ⟨h.rewal wal', h.booked.rewal wal', h.count, c', ?_,
    (howes.rewal hsub hle wal').forget, ?_⟩
  · exact
      { snap := hsnap ▸ hdisk.snap
        small := hsnap ▸ hdisk.small
        fits := hsnap ▸ hdisk.fits
        seg := Or.inr (by rw [hsynced, hdata])
        moved := hlive' ▸ hmoved
        framed := hframed
        synced := hlive' ▸ hlive
        intact := by
          intro hclean'
          rcases hwal' with ⟨_, rfl⟩ | ⟨_, _, hpois⟩
          · exact ⟨hlive' ▸ hlive, hgood⟩
          · have hclean' : wal'.poisoned = false := hclean'
            rw [hpois] at hclean'
            cases hclean'
        since := by
          intro b hb
          have hb : b = wal'.file ∨ b = d.system.engine.wal.file := by
            simp only [List.mem_cons, List.not_mem_nil, or_false] at hb
            tauto
          have hold : Explained c'.live ([] : List (Job ρ)) d.system.engine.wal.file := by
            rw [hlive, hlive']
            exact explained_live _ _
          rcases hb with rfl | rfl
          · rcases hwal' with ⟨_, rfl⟩ | ⟨hemp, hnil, hpois⟩
            · exact Or.inl hold
            · exact Or.inr ⟨hnil, hidle, hpois, hlive' ▸ hcopied (hempty hemp)⟩
          · exact Or.inl hold
        pending := hdisk.pending.trans (by rw [hseg]; rfl) }
  · intro t ht
    change d.system.ckpt.snap? = some t at ht
    rw [hidle] at ht
    cases ht

/-! ## The steps of a checkpoint -/

/-- The engine takes at most one step that is not work on a batch. -/
def Idles (s s' : Engine ρ) : Prop :=
  s' = s ∨ ∃ act, (∀ a io, act ≠ .work a io) ∧ s.NoFlush act ∧ Engine.Step s act s'

theorem idles_pin {s : Engine ρ} {t : Nat} (h : t ≤ s.core.last_appended) : Idles s (s.pin t) :=
  Or.inr ⟨.ckptPin t, by simp, by simp [Engine.NoFlush], .ckptPin h⟩

theorem idles_unpin {s s' : Engine ρ} {t : Nat} (h : s.unpin t = some s') : Idles s s' :=
  Or.inr ⟨.unpin t, by simp, by simp [Engine.NoFlush], Engine.step_cases h⟩

/-- Such a step changes neither the log nor what lasts. -/
theorem Idles.sound
    {d : Durable ρ} {s' : Engine ρ} (h : Idles d.system.engine s') (hs : d.system.engine.Booked) :
    s'.Booked ∧ s'.wal = d.system.engine.wal ∧
      (∀ handed records, d.system.engine.Owes handed records → s'.Owes handed records) ∧
      (∀ t live, d.system.engine.Behind t live → s'.Behind t live) := by
  rcases h with rfl | ⟨act, hnot, hok, hst⟩
  · exact ⟨hs, rfl, fun _ _ h => h, fun _ _ h => h⟩
  · cases Engine.lasting_step hs hok hst with
    | same hlast hwal hland _ =>
        exact ⟨hs.step hok hst, hwal, fun _ _ h => h.step hs hok hst hlast hland,
          fun _ _ h => h.step hst hlast⟩
    | logged hact _ _ _ _ _ _ => exact absurd hact (hnot _ _)

theorem Sound.quiet
    {d : Durable ρ} (h : d.Sound) {w : Checkpointed ρ} (hsystem : w.Inv)
    (hidles : Idles d.system.engine w.engine) (hpending : w.pending = d.system.pending)
    (hidle : d.system.ckpt = .idle → w.ckpt = .idle)
    (hsnap : ∀ t, w.ckpt.snap? = some t → d.system.ckpt.snap? = some t)
    (hcount : ∀ snap count p written, w.ckpt = .writing snap count p written → count < 2 ^ 64) :
    ({ d with system := w } : Durable ρ).Sound := by
  obtain ⟨c, hdisk, howes, hbehind⟩ := h.stored
  obtain ⟨hbooked, hwal, howes', hbehind'⟩ := hidles.sound h.booked
  exact ⟨hsystem, hbooked, hcount, c, hdisk.congr hwal hpending hidle, howes' _ _ howes,
    fun t ht => hbehind' _ _ (hbehind t (hsnap t ht))⟩

theorem Sound.register
    {d d' : Durable ρ} (h : d.Sound) (hst : d.step (.system .register) = some d') : d'.Sound := by
  obtain ⟨w, hw, rfl⟩ := Option.map_eq_some_iff.mp hst
  have hsystem := h.system.step (by exact trivial) hw
  simp only [Checkpointed.step] at hw
  split at hw
  · next snap hck =>
      cases hw
      obtain ⟨_, _, _, hbehind⟩ := h.stored
      have hle := (hbehind snap (by rw [hck]; rfl)).le
      refine h.quiet hsystem (idles_pin hle) rfl (by simp [hck]) ?_ (by simp)
      intro t ht
      rw [hck]
      exact ht
  · cases hw

theorem Sound.published
    {d d' : Durable ρ} (h : d.Sound) (hst : d.step (.system .published) = some d') : d'.Sound := by
  obtain ⟨w, hw, rfl⟩ := Option.map_eq_some_iff.mp hst
  have hsystem := h.system.step (by exact trivial) hw
  simp only [Checkpointed.step] at hw
  split at hw
  · next snap hck =>
      split at hw
      · cases hw
      · cases hw
        refine h.quiet hsystem (Or.inl rfl) rfl (by simp [hck]) ?_ (by simp)
        intro t ht
        rw [hck]
        exact ht
  · cases hw

theorem Sound.chunk
    {d d' : Durable ρ} (h : d.Sound) (hst : d.step (.system .chunk) = some d') : d'.Sound := by
  obtain ⟨w, hw, rfl⟩ := Option.map_eq_some_iff.mp hst
  have hsystem := h.system.step (by exact trivial) hw
  simp only [Checkpointed.step] at hw
  split at hw
  · next snap p count hck =>
      obtain ⟨chunk, _, rfl⟩ := Option.map_eq_some_iff.mp hw
      refine h.quiet hsystem (Or.inl rfl) rfl (by simp [hck]) ?_ (by simp)
      intro t ht
      rw [hck]
      exact ht
  · next snap count p written hck =>
      obtain ⟨chunk, _, rfl⟩ := Option.map_eq_some_iff.mp hw
      refine h.quiet hsystem (Or.inl rfl) rfl (by simp [hck]) ?_ ?_
      · intro t ht
        rw [hck]
        exact ht
      · intro _ _ _ _ heq
        cases heq
        exact h.count _ _ _ _ hck
  · cases hw

theorem Sound.counted
    {d d' : Durable ρ} (h : d.Sound) (hst : d.step (.system .counted) = some d') : d'.Sound := by
  simp only [step] at hst
  split at hst
  · next snap p count hck =>
      split at hst
      · cases hst
      · next hlt =>
          obtain ⟨w, hw, rfl⟩ := Option.map_eq_some_iff.mp hst
          have hsystem := h.system.step (by exact trivial) hw
          simp only [Checkpointed.step, hck] at hw
          split at hw
          · cases hw
          · cases hw
            refine h.quiet hsystem (Or.inl rfl) rfl (by simp [hck]) ?_ ?_
            · intro t ht
              rw [hck]
              exact ht
            · intro _ _ _ _ heq
              cases heq
              omega
  · cases hst

theorem Sound.syncFails
    {d d' : Durable ρ} (h : d.Sound) (hst : d.step .syncFails = some d') : d'.Sound := by
  simp only [step] at hst
  split at hst
  · next hck =>
      cases hst
      obtain ⟨c, hdisk, howes, _⟩ := h.stored
      have hwal : ((d.system.engine.wal.sync false).1).file = d.system.engine.wal.file ∧
          ((d.system.engine.wal.sync false).1).poisoned = true := by
        rcases d.system.engine.wal.sync_cases false with ⟨hp, hs⟩ | ⟨_, hfalse, _⟩ | ⟨_, _, hs⟩
        · rw [hs]
          exact ⟨rfl, hp⟩
        · cases hfalse
        · rw [hs]
          exact ⟨rfl, rfl⟩
      refine ⟨h.rewal _, h.booked.rewal _, h.count, c, ?_,
        howes.rewal (List.Subset.refl _) (List.Subset.refl _) _, ?_⟩
      · exact
          { hdisk with
            intact := fun hclean => absurd (hwal.2.symm.trans hclean) (by simp)
            since := by
              intro b hb
              have hb : b ∈ d.system.engine.wal.file :: d.since := by
                rw [← hwal.1]
                exact hb
              refine (hdisk.since b hb).imp_right ?_
              rintro ⟨hnil, hidle, _, hcopied⟩
              exact ⟨hnil, hidle, hwal.2, hcopied⟩ }
      · intro t ht
        change d.system.ckpt.snap? = some t at ht
        rw [hck] at ht
        cases ht
  · cases hst

/-! ## The end of a checkpoint -/

/-- Once its passes are over, a checkpoint has the live keys at its snapshot. -/
theorem complete_writing
    {w : Checkpointed ρ} (h : w.Inv) {t count : Nat} {p : Place} {written : List Mutation}
    (hck : w.ckpt = .writing t count p written) (hend : ¬ p.shard < SHARD_COUNT) :
    t ≤ w.engine.core.visible_ts ∧ Checkpointed.outcome count written = .ok (snapshotFile written) ∧
      written.length = count ∧ w.engine.LiveAt t written := by
  have hright := h.right
  rw [hck] at hright
  obtain ⟨_, hkept, hshard, hcount, hwritten⟩ := hright
  rw [Keyspace.passed_end (by omega)] at hwritten
  have hlen : written.length = count := by rw [hwritten, hcount, List.length_map]
  refine ⟨hkept.visible, ?_, hlen, ?_⟩
  · rw [Checkpointed.outcome, if_pos hlen, checkpointFile, ← hlen]
    rfl
  · intro m
    rw [hwritten, List.mem_map, Keyspace.newest_eq_some]
    constructor
    · rintro ⟨e, he, rfl⟩
      obtain ⟨hks, hlive⟩ := Keyspace.mem_lives.mp he
      exact ⟨⟨rfl, hks⟩, hlive⟩
    · rintro ⟨⟨_, hks⟩, hlive⟩
      exact ⟨(m.key, m.ts, m.value), Keyspace.mem_lives.mpr ⟨hks, hlive⟩, rfl⟩

theorem complete_cases {w : Checkpointed ρ} {file : Bytes} (h : w.complete = some file) :
    ∃ t count p written, w.ckpt = .writing t count p written ∧ ¬ p.shard < SHARD_COUNT ∧
      Checkpointed.outcome count written = .ok file := by
  unfold Checkpointed.complete at h
  split at h
  · next t count p written hck =>
      split at h
      · cases h
      · next hend =>
          refine ⟨t, count, p, written, hck, hend, ?_⟩
          cases hout : Checkpointed.outcome count written with
          | ok f =>
              rw [hout] at h
              rw [Option.some.inj h]
          | error e =>
              rw [hout] at h
              cases h
  · cases h

/-- A finished snapshot takes the place of the one before, with the segment or without. -/
theorem Sound.complete
    {d : Durable ρ} (h : d.Sound) {file : Bytes} (hfile : d.system.complete = some file) :
    ∃ found, file = snapshotFile found ∧ found.length < 256 ^ 8 ∧
      (∀ m ∈ found, m.Fits ∧ m.value.isLive = true) ∧
      ∃ c, d.OnDisk c ∧
        d.system.engine.Owes d.handed (Stored.records { c with snap := found }) ∧
        d.system.engine.Owes d.handed
          (Stored.records { snap := found, seg := [], moved := [], live := c.live }) := by
  obtain ⟨t, count, p, written, hck, hend, hout⟩ := complete_cases hfile
  obtain ⟨hvis, hout', hlen, hlive⟩ := complete_writing h.system hck hend
  rw [hout', Except.ok.injEq] at hout
  obtain ⟨c, hdisk, howes, hbehind⟩ := h.stored
  have hb := hbehind t (by rw [hck]; rfl)
  obtain ⟨hkeep, hdrop⟩ := howes.install (fun m hm => (hdisk.fits m hm).2) h.booked hvis hb hlive
  refine ⟨written, hout.symm, ?_, ?_, c, hdisk, hkeep, ?_⟩
  · have hcount := h.count _ _ _ _ hck
    rw [hlen]
    norm_num at hcount ⊢
    exact hcount
  · intro m hm
    obtain ⟨hnewest, hlive'⟩ := (hlive m).mp hm
    exact ⟨h.booked.keyspaceAt_holds (P := Mutation.Fits) howes.baseFits
      (fun ts ms hmem _ => howes.historyFits ts ms hmem) hnewest, hlive'⟩
  · simpa [Stored.records] using hdrop

theorem giveUp_cases {w w' : Checkpointed ρ} (h : w.giveUp = some w') :
    ∃ s t, w.engine.unpin t = some s ∧ (∃ count p written, w.ckpt = .writing t count p written) ∧
      w' = { w with engine := s, ckpt := .idle } := by
  unfold Checkpointed.giveUp at h
  split at h
  · next t count p written hck =>
      obtain ⟨s, hs, rfl⟩ := Option.map_eq_some_iff.mp h
      exact ⟨s, t, hs, ⟨count, p, written, hck⟩, rfl⟩
  · cases h

/-- The checkpoint lets go of its snapshot. -/
theorem inv_released
    {w : Checkpointed ρ} (h : w.Inv) {s : Engine ρ} {t : Nat} (hs : w.engine.unpin t = some s)
    (pending : Bool) :
    ({ w with engine := s, ckpt := .idle, pending := pending } : Checkpointed ρ).Inv := by
  have hst : Engine.Step w.engine (.unpin t) s := Engine.step_cases hs
  exact
    { steady := h.steady.step (by simp [Engine.NoFlush]) hst
      right := trivial
      results := Checkpointed.results_step h.steady hst h.results }

theorem Sound.abandon
    {d d' : Durable ρ} (h : d.Sound) (hst : d.step .abandon = some d') : d'.Sound := by
  obtain ⟨w, hw, rfl⟩ := Option.map_eq_some_iff.mp hst
  obtain ⟨s, t, hs, _, rfl⟩ := giveUp_cases hw
  exact h.quiet (inv_released h.system hs _) (idles_unpin hs) rfl (fun _ => rfl)
    (fun _ ht => by cases ht) (fun _ _ _ _ hck => by cases hck)

theorem Sound.keepSegment
    {d d' : Durable ρ} (h : d.Sound) (hst : d.step .keepSegment = some d') : d'.Sound := by
  simp only [step] at hst
  split at hst
  · next file hfile =>
      obtain ⟨w, hw, rfl⟩ := Option.map_eq_some_iff.mp hst
      obtain ⟨s, t, hs, _, rfl⟩ := giveUp_cases hw
      obtain ⟨found, rfl, hsmall, hfits, c, hdisk, howes, _⟩ := h.complete hfile
      obtain ⟨hbooked, hwal, howes', _⟩ := (idles_unpin hs).sound h.booked
      have hdisk' := hdisk.congr (w := { d.system with engine := s, ckpt := .idle }) hwal rfl
        fun _ => rfl
      refine ⟨inv_released h.system hs _, hbooked, (fun _ _ _ _ hck => by cases hck),
        { c with snap := found }, ?_, howes' _ _ howes, (fun _ ht => by cases ht)⟩
      exact
        { snap := Or.inr rfl
          small := hsmall
          fits := hfits
          seg := hdisk'.seg
          moved := hdisk'.moved
          framed := hdisk'.framed
          synced := hdisk'.synced
          intact := hdisk'.intact
          since := fun b hb => (hdisk'.since b hb).imp_right fun hr =>
            ⟨hr.nil, hr.idle, hr.poisoned, hr.copied⟩
          pending := hdisk'.pending }
  · cases hst

theorem Sound.finish
    {d d' : Durable ρ} (h : d.Sound) (hst : d.step (.system .finish) = some d') : d'.Sound := by
  obtain ⟨w, hw, rfl⟩ := Option.map_eq_some_iff.mp hst
  have hsystem := h.system.step (by exact trivial) hw
  simp only [Checkpointed.step] at hw
  split at hw
  · next t count p written hck =>
      split at hw
      · cases hw
      · next hend =>
          obtain ⟨s, hs, rfl⟩ := Option.map_eq_some_iff.mp hw
          obtain ⟨_, hout, _, _⟩ := complete_writing h.system hck hend
          have hfile : d.system.complete = some (snapshotFile written) := by
            simp only [Checkpointed.complete, hck, if_neg hend, hout]
            rfl
          obtain ⟨found, hfound, hsmall, hfits, c, hdisk, _, howes⟩ := h.complete hfile
          obtain ⟨hbooked, hwal, howes', _⟩ := (idles_unpin hs).sound h.booked
          simp only [hfile]
          refine ⟨hsystem, hbooked, (fun _ _ _ _ hck => by cases hck),
            { snap := found, seg := [], moved := [], live := c.live }, ?_, howes' _ _ howes,
            (fun _ ht => by cases ht)⟩
          exact
            { snap := Or.inr (by rw [hfound])
              small := hsmall
              fits := hfits
              seg := Or.inl ⟨rfl, rfl, rfl⟩
              moved := by simp
              framed := fun ms hms => hdisk.framed ms (by simpa using Or.inr (Or.inr hms))
              synced := hdisk.synced
              intact := by
                change s.wal.poisoned = false → _
                rw [hwal]
                exact hdisk.intact
              since := by
                change ∀ b ∈ s.wal.file :: d.since, _
                rw [hwal]
                intro b hb
                refine (hdisk.since b hb).imp_right ?_
                rintro ⟨_, hidle, _, _⟩
                rw [hck] at hidle
                cases hidle
              pending := by rw [hout]; rfl }
  · cases hw

end Durable
end DurableInv
end StrikeDB
