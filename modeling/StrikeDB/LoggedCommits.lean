import StrikeDB.CheckpointRuns
import StrikeDB.CommitProgress
import StrikeDB.Disk

/-!
# StrikeDB: commits on their way through the log

What the flusher hands to the log is a list of commits, each with its own timestamp
and no key twice.  In durable mode a batch is in the log before any of it is applied,
so the keyspace that a restart owes the clients, `lasting`, is the published one with
the batch that the flusher applies.

**Results.**
* `Job.IsResolved.muts_ordered`: of two writes of one key the later one is newer.
* `Job.log_cases`: what one append with its `fsync` does to the file.
* `lasting_step`: only a successful append changes the lasting keyspace.
-/

namespace StrikeDB

section LoggedCommits

variable {ρ : Type}

/-! ## The commits of a batch -/

/-- What the frames of a batch write, a list for every commit that writes at all. -/
def Job.writes (job : Job ρ) : List (List Mutation) :=
  (batchMuts job.batch job.outcomes).filter fun m => !m.isEmpty

/-- The bytes of an append that reach the file, whether or not they are cut off again. -/
def Wal.reaches (w : Wal) (payloads : List Bytes) (io : WriteIo) : Bytes :=
  match w.check_poisoned, frames_buf payloads with
  | .ok (), .ok buf =>
      match io with
      | .done => buf
      | .short n _ => buf.take n
  | _, _ => []

/-- No key is written twice. -/
def OnceEach (ms : List Mutation) : Prop := (ms.map Mutation.key).Nodup

theorem onceEach_opMuts (ts : Nat) (writes : ValueMap) : OnceEach (opMuts ts writes) := by
  rw [OnceEach, opMuts, List.map_map, List.Nodup, List.pairwise_map]
  exact (keySorted_toList writes).imp fun hlt => KeyLt.key_ne hlt

theorem onceEach_resolve
    {core : FlushCore} {pw : PendingWrite ρ} {overlay : ValueMap} {ms : List Mutation}
    (hpw : OnceEach pw.muts) (h : (resolve core pw overlay).muts pw = some ms) :
    OnceEach ms := by
  unfold resolve at h
  cases hop : pw.op with
  | some op =>
      simp only [hop, Resolved.muts, Option.some.injEq] at h
      exact h ▸ onceEach_opMuts _ _
  | none =>
      simp only [hop] at h
      split at h
      · simp [Resolved.muts] at h
      · cases hincr : pw.incr with
        | none =>
            simp only [hincr, Resolved.muts, Option.some.injEq] at h
            exact h ▸ hpw
        | some e =>
            simp only [hincr] at h
            split at h
            · simp only [Resolved.muts, Option.some.injEq] at h
              rw [← h]
              exact List.nodup_singleton _
            · simp [Resolved.muts] at h

theorem onceEach_resolveLoop
    {core : FlushCore} {need : Bool} {batch : List (PendingWrite ρ)}
    (hpw : ∀ pw ∈ batch, OnceEach pw.muts) :
    ∀ overlay, ∀ e ∈ batch.zip (resolveLoop core need overlay batch), ∀ r ms,
      e.2 = some r → r.muts e.1 = some ms → OnceEach ms := by
  induction batch with
  | nil =>
      intro overlay e he
      simp [resolveLoop] at he
  | cons pw rest ih =>
      intro overlay e he r ms hr hms
      have ih := ih fun p hp => hpw p (List.mem_cons_of_mem _ hp)
      rw [resolveLoop] at he
      split at he
      · rw [List.zip_cons_cons, List.mem_cons] at he
        rcases he with rfl | he
        · simp at hr
        · exact ih overlay e he r ms hr hms
      · rw [List.zip_cons_cons, List.mem_cons] at he
        rcases he with rfl | he
        · simp only [Option.some.injEq] at hr
          subst hr
          exact onceEach_resolve (hpw pw List.mem_cons_self) hms
        · exact ih _ e he r ms hr hms

namespace Job

variable {j : Job ρ}

theorem batchFrames_eq (j : Job ρ) :
    batchFrames j.batch j.outcomes = j.writes.map commit_record := rfl

theorem writes_ne_nil {ms : List Mutation} (h : ms ∈ j.writes) : ms ≠ [] := by
  simpa using (List.mem_filter.mp h).2

/-- The commits without mutations have no frame. -/
theorem flatten_writes (j : Job ρ) : j.writes.flatten = j.muts := by
  rw [muts_eq_flatten, writes]
  generalize batchMuts j.batch j.outcomes = l
  induction l with
  | nil => rfl
  | cons ms l ih =>
      cases ms with
      | nil => simpa using ih
      | cons m ms => simp [ih]

theorem muts_eq_nil (h : j.writes = []) : j.muts = [] := by
  rw [← flatten_writes, h]
  rfl

/-- Of two writes of one key the later one is newer. -/
theorem IsResolved.muts_ordered
    (h : j.IsResolved) (hs : j.batch.Pairwise fun p q => p.ts < q.ts)
    (hts : ∀ pw ∈ j.batch, ∀ m ∈ pw.muts, m.ts = pw.ts)
    (honce : ∀ pw ∈ j.batch, OnceEach pw.muts) :
    j.muts.Pairwise fun x y => x.key = y.key → x.ts < y.ts := by
  have hcommit : ∀ c ∈ j.commits, OnceEach c.2 := by
    intro c hc
    obtain ⟨e, he, ⟨r, hr, hms⟩, _⟩ := mem_commits.mp hc
    obtain ⟨core, hout⟩ := h
    rw [hout] at he
    exact onceEach_resolveLoop honce _ e he r c.2 hr hms
  rw [muts, List.pairwise_flatMap]
  constructor
  · intro c hc
    have hnodup := hcommit c hc
    rw [OnceEach, List.Nodup, List.pairwise_map] at hnodup
    exact hnodup.imp fun hne heq => absurd heq hne
  · refine List.Pairwise.imp_of_mem ?_ (h.commits_sorted hs)
    intro c d hc hd hcd x hx y hy _
    rw [h.commits_ts hts hc x hx, h.commits_ts hts hd y hy]
    exact hcd

/-! ## The durable step -/

theorem framed_writes (hfits : ∀ p ∈ j.writes.map commit_record, Framing.Fits p)
    (hts : ∀ m ∈ j.muts, m.ts < 256 ^ 8) : ∀ ms ∈ j.writes, Framed ms := by
  intro ms hms
  refine ⟨writes_ne_nil hms, hfits _ (List.mem_map_of_mem hms), fun m hm => hts m ?_⟩
  rw [← flatten_writes]
  exact List.mem_flatten_of_mem hms hm

/-- The frames of the batch are in the log, and synced. -/
structure LogSynced (wal : Wal) (j : Job ρ) (wal' : Wal) : Prop where
  clean : wal.poisoned = false
  fits : ∀ p ∈ j.writes.map commit_record, Framing.Fits p
  eq : wal' = { wal with
    file := wal.file ++ commitFrames j.writes
    good_len := wal.good_len + (commitFrames j.writes).length }

/-- The append or its `fsync` failed: some bytes were written at most, and they are cut
off again or the log is disabled. -/
structure LogFailed (wal : Wal) (j : Job ρ) (io : Io) (wal' : Wal) : Prop where
  reach : wal.reaches (j.writes.map commit_record) io.write <+: commitFrames j.writes
  fits : wal.reaches (j.writes.map commit_record) io.write ≠ [] →
    ∀ p ∈ j.writes.map commit_record, Framing.Fits p
  clean : wal'.poisoned = false → wal.good_len = wal.file.length → wal' = wal
  file : wal.good_len = wal.file.length → wal'.file = wal.file ∨
    wal'.file = wal.file ++ wal.reaches (j.writes.map commit_record) io.write
  poisoned : wal.poisoned = true →
    wal' = wal ∧ wal.reaches (j.writes.map commit_record) io.write = []

theorem logFailed_refused
    {wal : Wal} {j : Job ρ} {io : Io}
    (h : wal.reaches (j.writes.map commit_record) io.write = []) : LogFailed wal j io wal where
  reach := by
    rw [h]
    exact List.nil_prefix
  fits := fun hne => absurd h hne
  clean := fun _ _ => rfl
  file := fun _ => Or.inl rfl
  poisoned := fun _ => ⟨rfl, h⟩

theorem set_len_append (f t : Bytes) : set_len f.length (f ++ t) = f := by
  rw [set_len, List.take_left, List.length_append, Nat.sub_eq_zero_of_le (Nat.le_add_right _ _)]
  simp

theorem commitFrames_ne_nil {cs : List (List Mutation)} (h : cs ≠ []) : commitFrames cs ≠ [] := by
  cases cs with
  | nil => exact absurd rfl h
  | cons c cs =>
      intro hnil
      have hlen := congrArg List.length hnil
      simp [commitFrames, encodeFrames, Framing.frame] at hlen

theorem log_cases
    {core core' : FlushCore} {wal wal' : Wal} {io : Io} {result : Except IoError Unit}
    (h : j.log core wal io = (wal', core', result)) :
    (j.writes = [] ∧ wal' = wal ∧ core' = core ∧ result = .ok ()) ∨
      (j.writes ≠ [] ∧ ((result = .ok () ∧ LogSynced wal j wal') ∨
        ∃ e, result = .error e ∧ LogFailed wal j io wal')) := by
  rw [log, batchFrames_eq] at h
  simp only at h
  split at h
  · next hnil =>
      cases h
      exact Or.inl ⟨List.map_eq_nil_iff.mp hnil, rfl, rfl, rfl⟩
  · next hne =>
      have hwrites : j.writes ≠ [] := fun hnil => hne (by rw [hnil]; rfl)
      refine Or.inr ⟨hwrites, ?_⟩
      cases hp : wal.poisoned with
      | true =>
          have happ : wal.append_frames (j.writes.map commit_record) io.write =
              (wal, .error .walDisabled) := by
            simp [Wal.append_frames, Wal.check_poisoned, hp]
          rw [happ] at h
          cases h
          exact Or.inr ⟨_, rfl, logFailed_refused (by simp [Wal.reaches, Wal.check_poisoned, hp])⟩
      | false =>
          have hcheck : wal.check_poisoned = .ok () := by simp [Wal.check_poisoned, hp]
          cases hb : frames_buf (j.writes.map commit_record) with
          | error e =>
              have happ : wal.append_frames (j.writes.map commit_record) io.write =
                  (wal, .error e) := by
                simp only [Wal.append_frames, hcheck, hb]
              rw [happ] at h
              cases h
              exact Or.inr ⟨_, rfl, logFailed_refused (by simp only [Wal.reaches, hcheck, hb])⟩
          | ok buf =>
              obtain ⟨hfits, hbuf⟩ := (frames_buf_eq_ok_iff _ _).mp hb
              have hframes : buf = commitFrames j.writes := hbuf
              cases hio : io.write with
              | done =>
                  have happ : wal.append_frames (j.writes.map commit_record) .done =
                      ({ wal with file := wal.file ++ buf, good_len := wal.good_len + buf.length },
                        .ok ()) := by
                    simp only [Wal.append_frames, hcheck, hb]
                  rw [hio, happ, hframes] at h
                  have hreach : wal.reaches (j.writes.map commit_record) io.write =
                      commitFrames j.writes := by
                    simp only [Wal.reaches, hcheck, hb, hio, hframes]
                  cases hs : io.syncOk with
                  | true =>
                      simp only [Wal.sync, Wal.check_poisoned, hp, hs] at h
                      cases h
                      have hsynced : LogSynced wal j { wal with
                          file := wal.file ++ commitFrames j.writes
                          good_len := wal.good_len + (commitFrames j.writes).length } :=
                        ⟨hp, hfits, rfl⟩
                      rw [hp] at hsynced
                      exact Or.inl ⟨rfl, hsynced⟩
                  | false =>
                      simp only [Wal.sync, Wal.check_poisoned, hp, hs] at h
                      cases h
                      refine Or.inr ⟨_, rfl, ?_, fun _ => hfits,
                        fun hclean => absurd hclean (by simp),
                        fun _ => Or.inr (by rw [hreach]; rfl),
                        fun hpois => absurd hpois (by simp [hp])⟩
                      rw [hreach]
              | short n ok =>
                  have hne' : buf ≠ [] := by
                    rw [hframes]
                    exact commitFrames_ne_nil hwrites
                  have happ : wal.append_frames (j.writes.map commit_record) (.short n ok) =
                      (({ wal with file := wal.file ++ buf.take n } : Wal).rollback ok,
                        .error .os) := by
                    simp only [Wal.append_frames, hcheck, hb, if_neg hne']
                  rw [hio, happ, hframes] at h
                  cases h
                  have hreach : wal.reaches (j.writes.map commit_record) io.write =
                      (commitFrames j.writes).take n := by
                    simp only [Wal.reaches, hcheck, hb, hio, hframes]
                  refine Or.inr ⟨_, rfl, ?_, fun _ => hfits, ?_, ?_,
                    fun hpois => absurd hpois (by simp [hp])⟩
                  · rw [hreach]
                    exact List.take_prefix _ _
                  · intro hclean hlen
                    cases ok with
                    | true =>
                        simp only [Wal.rollback, if_true, hlen, set_len_append]
                        rw [← hlen]
                    | false => simp [Wal.rollback] at hclean
                  · intro hlen
                    cases ok with
                    | true =>
                        exact Or.inl (by
                          simp only [Wal.rollback, if_true, hlen, set_len_append])
                    | false => exact Or.inr (by rw [hreach]; rfl)

end Job

/-- What a batch in work writes, once it is in the log. -/
def Phase.landing : Phase ρ → List Mutation
  | .applying j _ _ | .publishing j .applied => j.muts
  | _ => []

namespace Engine

/-! ## An engine in durable mode -/

/-- The commits on their way write no key twice. -/
def Distinct (s : Engine ρ) : Prop := ∀ pw ∈ s.pending, OnceEach pw.muts

theorem Distinct.step
    {s s' : Engine ρ} {act : Act ρ} (h : s.Distinct) (ht : s.Timely)
    (hplain : s.sync_writes = false → s.phase .flusher = .idle) (hst : Step s act s') :
    s'.Distinct := by
  intro pw hpw
  rcases pending_step ht hplain hst hpw with hold | ⟨r, _, rfl⟩ | ⟨_, t, _, _, rfl⟩
  · exact h pw hold
  · cases r with
    | write writes => exact onceEach_opMuts _ _
    | incr key by_ => exact List.nodup_nil
    | op o => exact List.nodup_nil
    | flush_all bak => exact List.nodup_nil
  · exact onceEach_opMuts _ _

/-- Without FLUSHALL what is published are the commits of an applied batch. -/
theorem Steady.event_cases
    {s : Engine ρ} (h : s.Steady) {a : Actor} {j : Job ρ} {effect : Effect}
    (hp : s.phase a = .publishing j effect) {ev : Event} (hev : ev ∈ j.events effect) :
    ∃ ms, effect = .applied ∧ ev = .commit ev.ts ms ∧ (∀ m ∈ ms, m.ts = ev.ts) ∧
      ∀ m ∈ ms, m ∈ j.muts := by
  have hj : (s.phase a).job = some j := by
    rw [hp]
    rfl
  cases effect with
  | nothing => simp [Job.events, Job.event] at hev
  | wiped =>
      exact absurd (by rw [hp]; trivial) (h.flushless.not_wipes h.timely hj)
  | applied =>
      obtain ⟨hres, _, _, hpw, _⟩ := h.timely.job_facts hj
      rw [Job.events_applied] at hev
      obtain ⟨c, hc, rfl⟩ := List.mem_map.mp hev
      exact ⟨c.2, rfl, rfl, hres.commits_ts hpw hc, fun m hm => List.mem_flatMap.mpr ⟨c, hc, hm⟩⟩

/-- The invariants of an engine in durable mode without FLUSHALL. -/
structure Booked (s : Engine ρ) : Prop where
  steady : s.Steady
  shaped : s.Shaped
  ledger : s.Ledger
  durable : s.sync_writes = true
  distinct : s.Distinct
  dated : ∀ e ∈ s.history, ∃ ms, e = .commit e.ts ms ∧ ∀ m ∈ ms, m.ts = e.ts

theorem Booked.step
    {s s' : Engine ρ} {act : Act ρ} (h : s.Booked) (hok : s.NoFlush act) (hst : Step s act s') :
    s'.Booked where
  steady := h.steady.step hok hst
  shaped := h.shaped.step hst
  ledger := h.ledger.step h.steady.timely h.shaped (h.steady.flushless.ordinary hok) hst
  durable := (sync_writes_step hst).trans h.durable
  distinct := h.distinct.step h.steady.timely (by simp [h.durable]) hst
  dated := by
    intro ev hev
    rcases keyspace_step hst with ⟨_, hhist, _⟩ | ⟨a, j, effect, hp, hhist, _⟩
    · exact h.dated ev (hhist ▸ hev)
    · rw [hhist] at hev
      rcases List.mem_append.mp hev with hev | hev
      · exact h.dated ev hev
      · obtain ⟨ms, _, heq, hts, _⟩ := h.steady.event_cases hp hev
        exact ⟨ms, heq, hts⟩

/-- The log is not part of the invariants. -/
theorem Booked.rewal {s : Engine ρ} (h : s.Booked) (wal : Wal) : { s with wal := wal }.Booked where
  steady := h.steady.rotate wal
  shaped := h.shaped
  ledger := ⟨h.ledger.sorted, h.ledger.history_le, h.ledger.replies_le, h.ledger.versions,
    h.ledger.logged⟩
  durable := h.durable
  distinct := h.distinct
  dated := h.dated

theorem booked_start (o : Opened) : (start o.appended true : Engine ρ).Booked where
  steady := steady_start o true
  shaped := shaped_start o.appended true
  ledger := ledger_start o.appended true
  durable := rfl
  distinct := by simp [Distinct, start, pending, busy, Phase.batch]
  dated := by simp [start]

/-! ## What a restart owes the clients -/

/-- The published commits and those of the batch that is in the log. -/
def lasting (s : Engine ρ) : Keyspace := s.keyspace.commit s.busy.landing

/-- What a step does to the log and to the lasting keyspace. -/
inductive LastStep (s s' : Engine ρ) (act : Act ρ) : Prop
  | same (hlast : s'.lasting = s.lasting) (hwal : s'.wal = s.wal)
      (hland : s'.busy.landing = s.busy.landing ∨ s'.busy.landing = [])
      (hnot : ∀ a io, act = .work a io → ∀ job, s.phase a ≠ .logging job)
  | logged {io : Io} {job : Job ρ} {wal : Wal} {core : FlushCore} {result : Except IoError Unit}
      (hact : act = .work .flusher io) (hp : s.phase .flusher = .logging job)
      (hlog : job.log s.core s.wal io = (wal, core, result)) (hwal : s'.wal = wal)
      (hcore : s'.core = core) (hhist : s'.history = s.history)
      (hend : (result = .ok () ∧ s'.busy = .applying job 0 none ∧
          s'.lasting = s.lasting.commit job.muts) ∨
        ∃ e, result = .error e ∧ s'.lasting = s.lasting ∧
          s'.busy = .publishing { job with err := some e.text } .nothing)

theorem lasting_of_landing
    {s s' : Engine ρ} (hbusy : s'.busy.landing = s.busy.landing)
    (hks : s'.keyspace = s.keyspace) :
    s'.lasting = s.lasting := by
  rw [lasting, lasting, hbusy, hks]

theorem lasting_step
    {s s' : Engine ρ} {act : Act ρ} (h : s.Booked) (hok : s.NoFlush act) (hst : Step s act s') :
    LastStep s s' act := by
  have ht := h.steady.timely
  have hf := h.steady.flushless
  rcases busy_step ht (hf.ordinary hok) hst with ⟨hnot, hbusy⟩ | ⟨a, io, rfl, hw, hbusy, hbusy'⟩
  · have hks : s'.keyspace = s.keyspace := by
      rcases keyspace_step hst with ⟨hks, _⟩ | ⟨a, j, effect, hp, hhist, _⟩
      · exact hks
      · cases hst with
        | txnCommit _ _ hsub => cases hsub <;> rfl
        | submit hsub => cases hsub <;> rfl
        | work _ => exact absurd rfl (hnot _ _)
        | _ => rfl
    have hwal : s'.wal = s.wal := by
      cases hst with
      | txnCommit _ _ hsub => cases hsub <;> rfl
      | submit hsub => cases hsub <;> rfl
      | work _ => exact absurd rfl (hnot _ _)
      | _ => rfl
    have hland : s'.busy.landing = s.busy.landing := by
      rcases hbusy with heq | ⟨hidle, batch, heq | heq⟩
      · rw [heq]
      · rw [heq, hidle]
        rfl
      · rw [heq, hidle]
        rfl
    exact .same (lasting_of_landing hland hks) hwal (Or.inl hland) fun a io hact =>
      absurd hact (hnot a io)
  · have ha : a = .flusher := by
      cases a with
      | flusher => rfl
      | direct =>
          have hidle := ht.mode h.durable
          cases hw <;> simp_all
    subst ha
    have hnotwipe : ∀ j, (s.phase .flusher).job = some j → ¬ (s.phase .flusher).Wipes :=
      fun j hj => hf.not_wipes ht hj
    have hplain : ∀ {p q : Phase ρ}, s.phase .flusher = p → s'.phase .flusher = q →
        s'.keyspace = s.keyspace → s'.wal = s.wal → (∀ job, p ≠ .logging job) →
        q.landing = p.landing → LastStep s s' (.work .flusher io) := by
      intro p q hp hq hks hwal hlog hland
      have hland' : s'.busy.landing = s.busy.landing := by
        rw [hbusy', hbusy, hp, hq]
        exact hland
      refine .same (lasting_of_landing hland' hks) hwal (Or.inl hland') ?_
      intro a' io' hact job hjob
      cases hact
      exact hlog job (hp ▸ hjob)
    cases hw with
    | horizon hp => exact hplain hp (setPhase_phase_self _ _ _) rfl rfl (by simp) rfl
    | @noSweep batch _ hp _ => exact hplain hp (setPhase_phase_self _ _ _) rfl rfl (by simp) rfl
    | ready hp => exact hplain hp (setPhase_phase_self _ _ _) rfl rfl (by simp) rfl
    | sweep _ hp => exact hplain hp (setPhase_phase_self _ _ _) rfl rfl (by simp) rfl
    | swept hp => exact hplain hp (setPhase_phase_self _ _ _) rfl rfl (by simp) rfl
    | resolve hp => exact hplain hp (setPhase_phase_self _ _ _) rfl rfl (by simp) rfl
    | @log job wal core result hp hlog =>
        have hlast : s.lasting = s.keyspace := by
          rw [lasting, hbusy, hp]
          rfl
        rw [setPhase_phase_self] at hbusy'
        have hwipe : job.wipe_ran = false := by
          have hnone := hf.batch .flusher
          rw [hp] at hnone
          rw [Job.wipe_ran, List.any_eq_false]
          intro pw hpw
          rw [hnone pw hpw]
          simp
        refine .logged rfl hp hlog rfl rfl rfl ?_
        cases result with
        | ok =>
            have hafter : afterLog job (.ok ()) = .applying job 0 none := by
              simp [afterLog, hwipe]
            refine Or.inl ⟨rfl, hbusy'.trans hafter, ?_⟩
            rw [hlast, lasting, hbusy', hafter]
            rfl
        | error e =>
            have hafter : afterLog job (.error e) =
                .publishing { job with err := some e.text } .nothing := by
              simp [afterLog, hwipe]
            refine Or.inr ⟨e, rfl, ?_, hbusy'.trans hafter⟩
            rw [hlast, lasting, hbusy', hafter]
            rfl
    | flushFailed _ _ hp => exact absurd (by rw [hp]; trivial) (hnotwipe _ (by rw [hp]; rfl))
    | flushFiles hp => exact absurd (by rw [hp]; trivial) (hnotwipe _ (by rw [hp]; rfl))
    | wipe hp _ => exact absurd (by rw [hp]; trivial) (hnotwipe _ (by rw [hp]; rfl))
    | wiped hp _ => exact absurd (by rw [hp]; trivial) (hnotwipe _ (by rw [hp]; rfl))
    | skip hp _ _ => exact hplain hp (setPhase_phase_self _ _ _) rfl rfl (by simp) rfl
    | lock hp _ => exact hplain hp (setPhase_phase_self _ _ _) rfl rfl (by simp) rfl
    | push hp _ => exact hplain hp (setPhase_phase_self _ _ _) rfl rfl (by simp) rfl
    | applied hp _ => exact hplain hp (setPhase_phase_self _ _ _) rfl rfl (by simp) rfl
    | @publish j effect hp =>
        refine .same ?_ rfl (Or.inr ?_) ?_
        · rw [setPhase_phase_self] at hbusy'
          rw [lasting, lasting, hbusy, hbusy', hp]
          have hks : ({ s with
              core := { s.core with visible_ts := max s.core.visible_ts (batchMaxTs j.batch) }
              history := s.history ++ j.events effect
              replies := s.replies ++ j.replies }.setPhase .flusher
                (afterPublish .flusher j effect)).keyspace = s.keyspace.after (j.events effect) :=
            Keyspace.after_append _ _ _
          rw [hks]
          cases effect with
          | nothing =>
              have hnil : j.events .nothing = [] := by simp [Job.events, Job.event]
              rw [hnil]
              rfl
          | applied => exact Job.after_applied _
          | wiped => exact absurd (by rw [hp]; trivial) (hnotwipe j (by rw [hp]; rfl))
        · rw [hbusy', setPhase_phase_self]
          rfl
        · intro a' io' hact job hjob
          cases hact
          rw [hp] at hjob
          cases hjob

end Engine
end LoggedCommits
end StrikeDB
