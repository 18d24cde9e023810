import StrikeDB.LoggedCommits
import StrikeDB.Recovery

/-!
# StrikeDB: what the records on the disk owe the keyspace

`Owes` connects the records that the files hold with the lasting keyspace of a running
engine: they cover its newest writes.  The batches that were handed to the log in vain
stand apart; what they write is newer than everything that lasts, and nobody was told
that they succeeded.

**Results.**
* `Owes.step`, `Owes.succeeded`, `Owes.failed`: the steps of the engine keep this.
* `lasting_or_newer`: a key lasts as it was at a snapshot, or newer.
* `Owes.install`: the live keys at a snapshot take the place of the records up to it.
-/

namespace StrikeDB

section Owed

variable {ρ : Type}

namespace Engine

/-! ## Frames of the steps -/

theorem base_step {s s' : Engine ρ} {act : Act ρ} (hst : Step s act s') : s'.base = s.base := by
  cases hst with
  | txnCommit _ _ hsub => cases hsub <;> rfl
  | submit hsub => cases hsub <;> rfl
  | work hw => cases hw <;> rfl
  | _ => rfl

theorem clock_le_step {s s' : Engine ρ} {act : Act ρ} (hst : Step s act s') :
    s.clock ≤ s'.clock := by
  cases hst with
  | txnCommit _ _ hsub => cases hsub <;> exact Nat.le_succ _
  | submit hsub => cases hsub <;> exact Nat.le_succ _
  | now _ => exact Nat.le_succ _
  | work hw => cases hw <;> exact le_rfl
  | _ => exact le_rfl

/-! ## Batches that were handed to the log in vain -/

/-- What a batch writes is newer than what lasts. -/
structure Late (s : Engine ρ) (job : Job ρ) : Prop where
  ordered : job.muts.Pairwise fun x y => x.key = y.key → x.ts < y.ts
  newer : ∀ m ∈ job.muts, ∀ w, s.lasting[m.key]? = some w → w.1 < m.ts
  clock : ∀ m ∈ job.muts, m.ts ≤ s.clock

/-- No client was told that a commit of the batch succeeded. -/
def Unanswered (s : Engine ρ) (job : Job ρ) : Prop :=
  ∀ pw ∈ job.batch, ∀ r ∈ s.replies, r.1 = pw.ts → ¬ r.2.IsOk

/-- Nor will one be. -/
def Refused (s : Engine ρ) (job : Job ρ) : Prop :=
  (∃ j, s.busy = .publishing j .nothing ∧ j.batch = job.batch) ∨
    (∀ pw ∈ job.batch, pw.ts ≤ s.core.visible_ts) ∧ s.Unanswered job

theorem Late.step
    {s s' : Engine ρ} {job : Job ρ} (h : s.Late job) (hlast : s'.lasting = s.lasting)
    (hclock : s.clock ≤ s'.clock) :
    s'.Late job where
  ordered := h.ordered
  newer := by
    rw [hlast]
    exact h.newer
  clock := fun m hm => (h.clock m hm).trans hclock

/-- The batch in work has not been answered. -/
theorem Booked.unanswered
    {s : Engine ρ} (h : s.Booked) {job : Job ρ} (hjob : ∀ pw ∈ job.batch, pw ∈ s.busy.batch) :
    s.Unanswered job := by
  intro pw hpw r hr hts
  have hfresh := (h.steady.timely.fresh pw (Timely.batch_mem (hjob pw hpw))).1
  have hle := h.ledger.replies_le r hr
  omega

theorem Refused.unanswered {s : Engine ρ} {job : Job ρ} (h : s.Refused job) (hs : s.Booked) :
    s.Unanswered job := by
  rcases h with ⟨j, hbusy, hbatch⟩ | ⟨_, hnone⟩
  · refine hs.unanswered fun pw hpw => ?_
    rw [hbusy]
    exact (congrArg (pw ∈ ·) hbatch).mpr hpw
  · exact hnone

theorem Refused.step
    {s s' : Engine ρ} {job : Job ρ} {act : Act ρ} (h : s.Refused job) (hs : s.Booked)
    (hok : s.NoFlush act) (hst : Step s act s') :
    s'.Refused job := by
  have ht := hs.steady.timely
  rcases h with ⟨j, hbusy, hbatch⟩ | ⟨hle, hnone⟩
  · have hanswer := Refused.unanswered (Or.inl ⟨j, hbusy, hbatch⟩) hs
    rcases busy_step ht (hs.steady.flushless.ordinary hok) hst with
      ⟨_, heq | ⟨hidle, _⟩⟩ | ⟨a, io, rfl, hw, hphase, _⟩
    · exact Or.inl ⟨j, heq.trans hbusy, hbatch⟩
    · rw [hbusy] at hidle
      cases hidle
    · -- the next step of the batch publishes it
      have hp : s.phase a = .publishing j .nothing := hphase.symm.trans hbusy
      have hshaped : ∀ r ∈ j.replies, ¬ r.2.IsOk := by
        have := hs.shaped a
        rw [hp] at this
        cases a <;> exact this
      right
      cases hw with
      | @publish j' effect hp' =>
          rw [hp] at hp'
          cases hp'
          refine ⟨fun pw hpw => ?_, fun pw hpw r hr hts => ?_⟩
          · rw [← hbatch] at hpw
            exact (le_batchMaxTs hpw).trans (Nat.le_max_right _ _)
          · rcases List.mem_append.mp hr with hr | hr
            · exact hanswer pw hpw r hr hts
            · exact hshaped r hr
      | _ => simp_all
  · right
    refine ⟨fun pw hpw => (hle pw hpw).trans (visible_ts_mono hst), fun pw hpw r hr hts => ?_⟩
    rcases keyspace_step hst with ⟨_, _, hreplies⟩ | ⟨a, j, effect, hp, _, hreplies, _⟩
    · exact hnone pw hpw r (hreplies ▸ hr) hts
    · rw [hreplies] at hr
      rcases List.mem_append.mp hr with hr | hr
      · exact hnone pw hpw r hr hts
      · obtain ⟨_, _, hfresh, _, _⟩ := ht.job_facts (a := a) (j := j) (by rw [hp]; rfl)
        obtain ⟨q, hq, hqts⟩ := Job.reply_ts_mem hr
        have hnew := hfresh q hq
        have hold := hle pw hpw
        omega

/-! ## The records and the lasting keyspace -/

/-- The records on the disk cover what lasts. -/
structure Owes (s : Engine ρ) (handed : List (Job ρ)) (records : List Mutation) : Prop where
  covers : Compaction.Covers s.lasting.newest records []
  bound : ∀ (k : Key) (w : Nat × Value), s.lasting[k]? = some w → w.1 ≤ s.core.last_appended
  based : ∀ (k : Key) (w : Nat × Value), s.base[k]? = some w → w.1 ≤ s.core.last_appended
  baseFits : ∀ k m, s.base.newest k = some m → m.Fits
  historyFits : ∀ ts ms, Event.commit ts ms ∈ s.history → ∀ m ∈ ms, m.Fits
  landingFits : ∀ m ∈ s.busy.landing, m.Fits
  alone : s.busy.landing = [] ∨ handed = []
  late : ∀ job ∈ handed, s.Late job
  refused : ∀ job ∈ handed, s.Refused job

/-- A step that leaves the log alone. -/
theorem Owes.step
    {s s' : Engine ρ} {handed : List (Job ρ)} {records : List Mutation} {act : Act ρ}
    (h : s.Owes handed records) (hs : s.Booked) (hok : s.NoFlush act) (hst : Step s act s')
    (hlast : s'.lasting = s.lasting)
    (hland : s'.busy.landing = s.busy.landing ∨ s'.busy.landing = []) :
    s'.Owes handed records where
  covers := by
    rw [hlast]
    exact h.covers
  bound := by
    intro k w hw
    rw [hlast] at hw
    exact (h.bound k w hw).trans (last_appended_mono hst)
  based := by
    intro k w hw
    rw [base_step hst] at hw
    exact (h.based k w hw).trans (last_appended_mono hst)
  baseFits := by
    rw [base_step hst]
    exact h.baseFits
  historyFits := by
    intro ts ms hmem
    rcases keyspace_step hst with ⟨_, hhist, _⟩ | ⟨a, j, effect, hp, hhist, _⟩
    · exact h.historyFits ts ms (hhist ▸ hmem)
    · rw [hhist] at hmem
      rcases List.mem_append.mp hmem with hmem | hmem
      · exact h.historyFits ts ms hmem
      · obtain ⟨ms', heff, heq, _, hmuts⟩ := hs.steady.event_cases hp hmem
        cases heq
        intro m hm
        refine h.landingFits m ?_
        rw [hs.steady.timely.busy_eq (a := a) (by rw [hp]; simp), hp, heff]
        exact hmuts m hm
  landingFits := by
    rcases hland with heq | hnil
    · rw [heq]
      exact h.landingFits
    · rw [hnil]
      simp
  alone := by
    rcases hland with heq | hnil
    · rw [heq]
      exact h.alone
    · exact Or.inl hnil
  late := fun job hjob => (h.late job hjob).step hlast (clock_le_step hst)
  refused := fun job hjob => (h.refused job hjob).step hs hok hst

/-- What the batch in front of the log writes is newer than what lasts. -/
theorem Owes.late_logging
    {s : Engine ρ} {handed : List (Job ρ)} {records : List Mutation} {job : Job ρ}
    (h : s.Owes handed records) (hs : s.Booked) (hp : s.phase .flusher = .logging job) :
    s.Late job := by
  have ht := hs.steady.timely
  have hj : (s.phase .flusher).job = some job := by
    rw [hp]
    rfl
  have hbusy : s.busy = .logging job := by
    rw [ht.busy_eq (a := .flusher) (by rw [hp]; simp), hp]
  obtain ⟨hres, hsorted, hfresh, hpw, _⟩ := ht.job_facts hj
  have hpending : ∀ pw ∈ job.batch, pw ∈ s.pending := fun pw hpw' =>
    Timely.batch_mem (by rw [hbusy]; exact hpw')
  refine ⟨hres.muts_ordered hsorted hpw fun pw hpw' => hs.distinct pw (hpending pw hpw'), ?_, ?_⟩
  · intro m hm w hw
    have hbound := hs.steady.trails.bound
    rw [hbusy] at hbound
    have hle := h.bound m.key w hw
    have hnew := ht.job_muts_fresh hj m hm
    simp only [Phase.loggedTs] at hbound
    omega
  · intro m hm
    obtain ⟨pw, hpwm, hts⟩ := hres.mem_muts hpw hm
    rw [hts]
    exact (ht.fresh pw (hpending pw hpwm)).2

/-- What is newer than everything that lasts may be added to the records. -/
theorem Owes.add
    {s : Engine ρ} {handed : List (Job ρ)} {records : List Mutation} {job : Job ρ}
    (h : s.Owes handed records) (hjob : s.Late job) {ms : List Mutation} (hms : ms <+: job.muts) :
    Compaction.Covers (s.lasting.commit ms).newest (records ++ ms) [] := by
  have hpre : ms.Sublist job.muts := hms.sublist
  rw [Keyspace.newest_commit]
  refine h.covers.writes (hjob.ordered.sublist hpre) ?_
  intro m hm r hr hkey
  obtain ⟨w, hw, hle⟩ := h.covers.old r hr
  have hkey : r.key = m.key := hkey
  obtain ⟨hwkey, hwlast⟩ := Keyspace.newest_eq_some.mp hw
  have hnew := hjob.newer m (hpre.subset hm) (w.ts, w.value) (hkey ▸ hwlast)
  rcases hle with rfl | hlt
  · exact hnew
  · exact lt_trans hlt hnew

/-- The batch is in the log. -/
theorem Owes.succeeded
    {s s' : Engine ρ} {handed : List (Job ρ)} {records : List Mutation} {act : Act ρ}
    {job : Job ρ} {io : Io} {wal : Wal}
    (h : s.Owes handed records) (hs : s.Booked) (hst : Step s act s')
    (hp : s.phase .flusher = .logging job)
    (hlog : job.log s.core s.wal io = (wal, s'.core, .ok ()))
    (hbusy : s'.busy = .applying job 0 none)
    (hlast : s'.lasting = s.lasting.commit job.muts) (hfits : ∀ m ∈ job.muts, m.Fits)
    (hhist : s'.history = s.history) :
    s'.Owes [] (records ++ job.muts) where
  covers := by
    rw [hlast]
    exact h.add (h.late_logging hs hp) (List.prefix_refl _)
  bound := by
    intro k w hw
    rw [hlast] at hw
    by_cases hmem : ∃ m ∈ job.muts, m.key = k
    · obtain ⟨m, hm, _, heq⟩ := Keyspace.getElem?_commit_of_mem hmem s.lasting
      rw [hw, Option.some.injEq] at heq
      rw [heq]
      obtain ⟨hres, _, _, hpw, _⟩ := hs.steady.timely.job_facts (a := .flusher) (j := job)
        (by rw [hp]; rfl)
      rcases (Job.log_last_appended hlog).2.2 rfl with hnil | hle
      · rw [hnil] at hm
        cases hm
      · exact (hres.le_batchMaxTs hpw hm).trans hle
    · rw [Keyspace.getElem?_commit_of_not_mem (fun m hm hk => hmem ⟨m, hm, hk⟩)] at hw
      exact (h.bound k w hw).trans (last_appended_mono hst)
  based := by
    intro k w hw
    rw [base_step hst] at hw
    exact (h.based k w hw).trans (last_appended_mono hst)
  baseFits := by
    rw [base_step hst]
    exact h.baseFits
  historyFits := by
    rw [hhist]
    exact h.historyFits
  landingFits := by
    rw [hbusy]
    exact hfits
  alone := Or.inr rfl
  late := by simp
  refused := by simp

/-- The batch was handed to the log in vain. -/
theorem Owes.failed
    {s s' : Engine ρ} {handed : List (Job ρ)} {records : List Mutation} {act : Act ρ}
    {job j : Job ρ} (h : s.Owes handed records) (hs : s.Booked) (hok : s.NoFlush act)
    (hst : Step s act s') (hp : s.phase .flusher = .logging job)
    (hbusy : s'.busy = .publishing j .nothing) (hbatch : j.batch = job.batch)
    (hlast : s'.lasting = s.lasting) :
    s'.Owes (handed ++ [job]) records := by
  have hland : s'.busy.landing = [] := by
    rw [hbusy]
    rfl
  have hold := h.step hs hok hst hlast (Or.inr hland)
  have hlate := (h.late_logging hs hp).step hlast (clock_le_step hst)
  refine { hold with alone := Or.inl hland, late := ?_, refused := ?_ }
  · intro x hx
    rcases List.mem_append.mp hx with hx | hx
    · exact hold.late x hx
    · rw [List.mem_singleton.mp hx]
      exact hlate
  · intro x hx
    rcases List.mem_append.mp hx with hx | hx
    · exact hold.refused x hx
    · rw [List.mem_singleton.mp hx]
      exact Or.inl ⟨j, hbusy, hbatch⟩

/-- The log was synced, and what was handed to it in vain is forgotten. -/
theorem Owes.forget
    {s : Engine ρ} {handed : List (Job ρ)} {records : List Mutation} (h : s.Owes handed records) :
    s.Owes [] records :=
  { h with alone := Or.inr rfl, late := by simp, refused := by simp }

/-- Copies of records do not matter, nor does the log itself. -/
theorem Owes.rewal
    {s : Engine ρ} {handed : List (Job ρ)} {records records' : List Mutation}
    (h : s.Owes handed records) (hsub : records ⊆ records') (hle : records' ⊆ records) (wal : Wal) :
    ({ s with wal := wal } : Engine ρ).Owes handed records' where
  covers := h.covers.between hsub (by simpa using hle)
  bound := h.bound
  based := h.based
  baseFits := h.baseFits
  historyFits := h.historyFits
  landingFits := h.landingFits
  alone := h.alone
  late := fun job hjob =>
    ⟨(h.late job hjob).ordered, (h.late job hjob).newer, (h.late job hjob).clock⟩
  refused := h.refused

end Engine

/-! ## The keyspace at a snapshot -/

namespace Keyspace

/-- Commits newer than `t` leave a key alone, or what it holds is newer. -/
theorem after_late
    {t : Nat} {es : List Event}
    (hes : ∀ e ∈ es, t < e.ts ∧ ∃ ms, e = .commit e.ts ms ∧ ∀ m ∈ ms, m.ts = e.ts)
    (ks : Keyspace) (k : Key) :
    (ks.after es)[k]? = ks[k]? ∨ ∃ w, (ks.after es)[k]? = some w ∧ t < w.1 := by
  induction es generalizing ks with
  | nil => exact Or.inl rfl
  | cons e es ih =>
      rw [after_cons]
      rcases ih (fun x hx => hes x (List.mem_cons_of_mem _ hx)) (e.apply ks) with heq | hnew
      · obtain ⟨hlt, ms, he, hts⟩ := hes e List.mem_cons_self
        rw [heq, he]
        by_cases hmem : ∃ m ∈ ms, m.key = k
        · obtain ⟨m, hm, _, hval⟩ := getElem?_commit_of_mem hmem ks
          refine Or.inr ⟨_, hval, ?_⟩
          rw [hts m hm]
          exact hlt
        · exact Or.inl (getElem?_commit_of_not_mem (fun m hm hk => hmem ⟨m, hm, hk⟩) ks)
      · exact Or.inr hnew

/-- A key holds what it held after the commits up to `t`, or something newer. -/
theorem after_upTo
    {t : Nat} {es : List Event} (hsorted : es.Pairwise fun a b => a.ts < b.ts)
    (hes : ∀ e ∈ es, ∃ ms, e = .commit e.ts ms ∧ ∀ m ∈ ms, m.ts = e.ts)
    (ks : Keyspace) (k : Key) :
    (ks.after es)[k]? = (ks.after (es.filter fun e => e.ts ≤ t))[k]? ∨
      ∃ w, (ks.after es)[k]? = some w ∧ t < w.1 := by
  induction es generalizing ks with
  | nil => exact Or.inl rfl
  | cons e es ih =>
      have hrest := List.pairwise_cons.mp hsorted
      by_cases hle : e.ts ≤ t
      · rw [List.filter_cons_of_pos (by simpa using hle), after_cons, after_cons]
        exact ih hrest.2 (fun x hx => hes x (List.mem_cons_of_mem _ hx)) _
      · have hall : ∀ x ∈ e :: es, t < x.ts := by
          intro x hx
          rcases List.mem_cons.mp hx with rfl | hx
          · omega
          · have := hrest.1 x hx
            omega
        have hnil : (e :: es).filter (fun e => e.ts ≤ t) = [] := by
          rw [List.filter_eq_nil_iff]
          intro x hx
          have := hall x hx
          simpa using this
        rw [hnil]
        exact after_late (fun x hx => ⟨hall x hx, hes x hx⟩) ks k

end Keyspace

namespace Engine

theorem Booked.landing_fresh
    {s : Engine ρ} (h : s.Booked) : ∀ m ∈ s.busy.landing, s.core.visible_ts < m.ts := by
  have ht := h.steady.timely
  obtain ⟨a, ha⟩ := exists_phase_eq_busy s
  intro m hm
  have hmuts : ∃ j, s.busy.job = some j ∧ m ∈ j.muts := by
    cases hb : s.busy with
    | applying j next locked =>
        rw [hb] at hm
        exact ⟨j, rfl, hm⟩
    | publishing j effect =>
        rw [hb] at hm
        cases effect with
        | applied => exact ⟨j, rfl, hm⟩
        | nothing => simp [Phase.landing] at hm
        | wiped => simp [Phase.landing] at hm
    | _ =>
        rw [hb] at hm
        simp [Phase.landing] at hm
  obtain ⟨j, hj, hm⟩ := hmuts
  exact ht.job_muts_fresh (a := a) (ha ▸ hj) m hm

/-- A key lasts as it was at a published timestamp, or newer. -/
theorem Booked.lasting_or_newer
    {s : Engine ρ} (h : s.Booked) {t : Nat} (hle : t ≤ s.core.visible_ts) (k : Key) :
    s.lasting[k]? = (s.keyspaceAt t)[k]? ∨ ∃ w, s.lasting[k]? = some w ∧ t < w.1 := by
  rw [lasting]
  by_cases hmem : ∃ m ∈ s.busy.landing, m.key = k
  · obtain ⟨m, hm, _, hval⟩ := Keyspace.getElem?_commit_of_mem hmem s.keyspace
    exact Or.inr ⟨_, hval, lt_of_le_of_lt hle (h.landing_fresh m hm)⟩
  · rw [Keyspace.getElem?_commit_of_not_mem fun m hm hk => hmem ⟨m, hm, hk⟩]
    exact Keyspace.after_upTo h.ledger.sorted h.dated s.base k

theorem Booked.keyspaceAt_holds
    {s : Engine ρ} (h : s.Booked) {t : Nat} {P : Mutation → Prop}
    (hbase : ∀ k m, s.base.newest k = some m → P m)
    (hhist : ∀ ts ms, Event.commit ts ms ∈ s.history → ts ≤ t → ∀ m ∈ ms, P m)
    {k : Key} {m : Mutation} (hm : (s.keyspaceAt t).newest k = some m) : P m := by
  obtain ⟨rfl, hw⟩ := Keyspace.newest_eq_some.mp hm
  have hafter : (s.base.after (s.history.filter fun e => e.ts ≤ t))[m.key]? =
      some (m.ts, m.value) := hw
  have hholds := (Keyspace.after_holds (k := m.key)
    (P := fun w => P { key := m.key, value := w.2, ts := w.1 }) ?_ ?_ ?_).1 _ hafter
  · exact hholds
  · rintro ts ms hmem x hx hkey
    obtain ⟨hmem, hle⟩ := List.mem_filter.mp hmem
    have hx' := hhist ts ms hmem (of_decide_eq_true hle) x hx
    rw [← hkey]
    exact hx'
  · intro e he
    obtain ⟨ms, heq, _⟩ := h.dated e (List.mem_filter.mp he).1
    rw [heq]
    rfl
  · intro w hw
    exact hbase m.key _ (Keyspace.newest_eq_some.mpr ⟨rfl, hw⟩)

/-! ## Behind a rotation -/

/-- What is newer than the snapshot of a rotation is in the live log, and nothing else is
there. -/
structure Behind (s : Engine ρ) (t : Nat) (live : List Mutation) : Prop where
  later : ∀ m ∈ live, t < m.ts
  kept : ∀ k m, s.lasting.newest k = some m → t < m.ts → m ∈ live
  based : ∀ (k : Key) (w : Nat × Value), s.base[k]? = some w → w.1 ≤ t
  le : t ≤ s.core.last_appended

theorem Behind.step
    {s s' : Engine ρ} {t : Nat} {live : List Mutation} {act : Act ρ} (h : s.Behind t live)
    (hst : Step s act s') (hlast : s'.lasting = s.lasting) :
    s'.Behind t live where
  later := h.later
  kept := by
    rw [hlast]
    exact h.kept
  based := by
    rw [base_step hst]
    exact h.based
  le := h.le.trans (last_appended_mono hst)

theorem Behind.succeeded
    {s s' : Engine ρ} {t : Nat} {live : List Mutation} {act : Act ρ} {job : Job ρ}
    (h : s.Behind t live) (hs : s.Booked) (hst : Step s act s')
    (hp : s.phase .flusher = .logging job) (hlast : s'.lasting = s.lasting.commit job.muts) :
    s'.Behind t (live ++ job.muts) where
  later := by
    have ht := hs.steady.timely
    have hbusy : s.busy = .logging job := by
      rw [ht.busy_eq (a := .flusher) (by rw [hp]; simp), hp]
    have hbound := hs.steady.trails.bound
    rw [hbusy] at hbound
    simp only [Phase.loggedTs] at hbound
    intro m hm
    rcases List.mem_append.mp hm with hm | hm
    · exact h.later m hm
    · have hnew := ht.job_muts_fresh (a := .flusher) (j := job) (by rw [hp]; rfl) m hm
      have hle := h.le
      omega
  kept := by
    intro k m hm hlt
    rw [hlast] at hm
    obtain ⟨rfl, hw⟩ := Keyspace.newest_eq_some.mp hm
    by_cases hmem : ∃ x ∈ job.muts, x.key = m.key
    · obtain ⟨x, hx, hkey, hval⟩ := Keyspace.getElem?_commit_of_mem hmem s.lasting
      rw [hw, Option.some.injEq, Prod.mk.injEq] at hval
      have hxm : m = x := by
        obtain ⟨k, v, ts⟩ := m
        obtain ⟨k', v', ts'⟩ := x
        simp only at hkey hval
        rw [hkey, hval.1, hval.2]
      rw [hxm]
      exact List.mem_append_right _ hx
    · rw [Keyspace.getElem?_commit_of_not_mem fun x hx hk => hmem ⟨x, hx, hk⟩] at hw
      exact List.mem_append_left _ (h.kept m.key m (Keyspace.newest_eq_some.mpr ⟨rfl, hw⟩) hlt)
  based := by
    rw [base_step hst]
    exact h.based
  le := h.le.trans (last_appended_mono hst)

/-- Right after a rotation the live log is empty. -/
theorem Owes.behind
    {s : Engine ρ} {handed : List (Job ρ)} {records : List Mutation} (h : s.Owes handed records)
    (wal : Wal) :
    ({ s with wal := wal } : Engine ρ).Behind s.core.last_appended [] where
  later := by simp
  kept := by
    intro k m hm hlt
    have hle := h.bound k (m.ts, m.value) (Keyspace.newest_eq_some.mp hm).2
    exact absurd hle (Nat.not_le_of_lt hlt)
  based := h.based
  le := le_rfl

/-- The live keys at a snapshot. -/
def LiveAt (s : Engine ρ) (t : Nat) (found : List Mutation) : Prop :=
  ∀ m, m ∈ found ↔ (s.keyspaceAt t).newest m.key = some m ∧ m.value.isLive = true

theorem Owes.compacts
    {s : Engine ρ} {handed : List (Job ρ)} {records : List Mutation} (h : s.Owes handed records)
    (hs : s.Booked) {t : Nat} (hle : t ≤ s.core.visible_ts) {live found : List Mutation}
    (hsub : live ⊆ records) (hb : s.Behind t live) (hfound : s.LiveAt t found) :
    Compaction.Compacts s.lasting.newest live found ∧
      Compaction.Current s.lasting.newest live := by
  have hupTo : ∀ k m, (s.keyspaceAt t).newest k = some m → m.ts ≤ t := by
    intro k m hm
    refine hs.keyspaceAt_holds (P := fun m => m.ts ≤ t) ?_ ?_ hm
    · intro k m hm
      exact hb.based k (m.ts, m.value) (Keyspace.newest_eq_some.mp hm).2
    · intro ts ms hmem hts m hm
      obtain ⟨ms', heq, hdate⟩ := hs.dated _ hmem
      cases heq
      rw [hdate m hm]
      exact hts
  have hnewest : ∀ k, s.lasting.newest k = (s.keyspaceAt t).newest k ∨
      ∃ m, s.lasting.newest k = some m ∧ t < m.ts := by
    intro k
    rcases hs.lasting_or_newer hle k with heq | ⟨w, hw, hlt⟩
    · exact Or.inl (by rw [Keyspace.newest, Keyspace.newest, heq])
    · exact Or.inr ⟨{ key := k, value := w.2, ts := w.1 },
        Keyspace.newest_eq_some.mpr ⟨rfl, hw⟩, hlt⟩
  refine ⟨⟨?_, ?_⟩, ?_⟩
  · intro r hr
    obtain ⟨hrk, _⟩ := (hfound r).mp hr
    rcases hnewest r.key with heq | ⟨m, hm, hlt⟩
    · exact ⟨r, heq.trans hrk, Or.inl rfl⟩
    · exact ⟨m, hm, Or.inr (lt_of_le_of_lt (hupTo _ _ hrk) hlt)⟩
  · intro k w hw
    have hwkey : w.key = k := (Keyspace.newest_eq_some.mp hw).1
    rcases hnewest k with heq | ⟨m, hm, hlt⟩
    · rw [hw] at heq
      cases hlive : w.value.isLive with
      | true =>
          refine Or.inr (Or.inl ⟨by simp [Compaction.Stamped.Gone, hlive], ?_⟩)
          exact (hfound w).mpr ⟨hwkey ▸ heq.symm, hlive⟩
      | false =>
          refine Or.inr (Or.inr ⟨hlive, ?_⟩)
          intro r hr hk
          obtain ⟨hrk, hrlive⟩ := (hfound r).mp hr
          have hk : r.key = k := hk
          rw [hk, ← heq, Option.some.injEq] at hrk
          rw [← hrk, hlive] at hrlive
          cases hrlive
    · rw [hw, Option.some.injEq] at hm
      subst hm
      exact Or.inl (hb.kept k w hw hlt)
  · intro r hr
    obtain ⟨w, hw, hrw⟩ := h.covers.old r (by simpa using hsub hr)
    refine ⟨w, hb.kept _ w hw ?_, hw⟩
    have hlt := hb.later r hr
    rcases hrw with rfl | hlt'
    · exact hlt
    · exact lt_trans hlt hlt'

/-- The live keys at a snapshot take the place of an older snapshot, and then of the
segment. -/
theorem Owes.install
    {s : Engine ρ} {handed : List (Job ρ)} {before seg live found : List Mutation}
    (h : s.Owes handed (before ++ seg ++ live)) (hbefore : ∀ m ∈ before, m.value.isLive = true)
    (hs : s.Booked) {t : Nat} (hle : t ≤ s.core.visible_ts) (hb : s.Behind t live)
    (hfound : s.LiveAt t found) :
    s.Owes handed (found ++ seg ++ live) ∧ s.Owes handed (found ++ live) := by
  obtain ⟨hscan, hcurrent⟩ := h.compacts hs hle (List.subset_append_right _ _) hb hfound
  have hinstall := h.covers.install hscan fun r hr hgone => by
    have hgone : r.value.isLive = false := hgone
    rw [hbefore r hr] at hgone
    cases hgone
  exact ⟨{ h with covers := hinstall }, { h with covers := hinstall.drop hscan hcurrent }⟩

end Engine
end Owed
end StrikeDB
