import StrikeDB.SnapshotReads

/-!
# StrikeDB: how far a commit has come

A client that hands a commit to the engine waits for its answer.  `Progress`
follows one commit from the queue to the answer, together with a property of what
it writes and answers that holds whenever it is resolved.

**Results.**
* `Progress.step`: every step takes a commit further.  When it is answered, a
  success stands in the history with the property, and an error left no event.
* `pending_step`: what is on its way was there before or has just been submitted.
-/

namespace StrikeDB

section Progress

variable {ρ : Type}

/-- A batch on its way into the shards has had no error. -/
def Phase.Clean : Phase ρ → Prop
  | .logging j | .applying j _ _ | .publishing j .applied => j.err = none
  | _ => True

/-- Whatever the commit is resolved to, its mutations and its answer have the
property. -/
def PendingWrite.Always (pw : PendingWrite ρ) (P : List Mutation → Option ρ → Prop) : Prop :=
  ∀ core overlay m v out ms, resolve core pw overlay = .apply m v out →
    (Resolved.apply m v out).muts pw = some ms → P ms out

namespace Engine

def Clean (s : Engine ρ) : Prop := ∀ a, (s.phase a).Clean

theorem clean_start (o : Opened) (sync_writes : Bool) :
    (start o sync_writes : Engine ρ).Clean :=
  fun _ => trivial

theorem Clean.set
    {s s₁ : Engine ρ} (h : s.Clean) {a : Actor} {p : Phase ρ} (hphase : s₁.phase = s.phase)
    (hp : p.Clean) :
    (s₁.setPhase a p).Clean := by
  intro b
  by_cases hb : b = a
  · subst hb
    rw [setPhase_phase_self]
    exact hp
  · have hother : b = a.other := by cases a <;> cases b <;> simp_all [Actor.other]
    rw [hother, setPhase_phase_other, hphase]
    exact h a.other

theorem Clean.works
    {s s' : Engine ρ} (h : s.Clean) {a : Actor} {io : Io} (hw : Works s a io s') :
    s'.Clean := by
  have ha := h a
  cases hw with
  | noSweep _ _ => exact h.set rfl (by cases a <;> trivial)
  | swept _ => exact h.set rfl (by cases a <;> trivial)
  | @resolve batch _ =>
      refine h.set rfl ?_
      rcases afterResolve_cases a
        { batch := batch, outcomes := resolveBatch s.core batch, err := none }
        with heq | heq | heq
      · rw [heq]
        exact Eq.refl none
      · rw [heq]
        exact Eq.refl none
      · rw [heq]
        trivial
  | @log j _ _ result hp _ =>
      rw [hp] at ha
      refine h.set rfl ?_
      cases result with
      | error e =>
          rw [afterLog]
          split <;> trivial
      | ok =>
          rw [afterLog]
          split
          · trivial
          · exact ha
  | skip hp _ _ =>
      rw [hp] at ha
      exact h.set rfl ha
  | lock hp _ =>
      rw [hp] at ha
      exact h.set rfl ha
  | push hp _ =>
      rw [hp] at ha
      exact h.set rfl ha
  | applied hp _ =>
      rw [hp] at ha
      exact h.set rfl ha
  | publish hp =>
      refine h.set rfl ?_
      rcases afterPublish_cases a _ _ with heq | heq
      · rw [heq]
        trivial
      · rw [heq]
        trivial
  | _ => exact h.set rfl trivial

theorem Clean.submits
    {s s' : Engine ρ} (h : s.Clean) {mk : Nat → PendingWrite ρ} (hsub : Submits s mk s') :
    s'.Clean := by
  cases hsub with
  | queued _ _ => exact h
  | direct _ _ _ _ => exact h.set rfl trivial

theorem Clean.step
    {s s' : Engine ρ} {act : Act ρ} (h : s.Clean) (hst : Step s act s') :
    s'.Clean := by
  cases hst with
  | txnCommit _ _ hsub =>
      have h₁ := h.submits hsub
      exact h₁
  | submit hsub => exact h.submits hsub
  | drain _ _ => exact h.set rfl trivial
  | work hw => exact h.works hw
  | _ => exact h

/-- After an error no commit of the batch is an event. -/
theorem Clean.event_flush
    {s : Engine ρ} (h : s.Clean) {j : Job ρ} {effect : Effect}
    (hbusy : s.busy = .publishing j effect) (herr : j.err ≠ none) {ev : Event}
    (hev : ev ∈ j.events effect) :
    ev.isFlush = true := by
  obtain ⟨a, ha⟩ := exists_phase_eq_busy s
  have hclean := h a
  rw [ha, hbusy] at hclean
  obtain ⟨x, _, hx⟩ := List.mem_filterMap.mp hev
  cases effect with
  | nothing => cases hx
  | applied => exact absurd hclean herr
  | wiped =>
      simp only [Job.event] at hx
      split at hx
      · cases hx
        rfl
      · rw [if_pos (Option.isSome_iff_ne_none.mpr herr)] at hx
        cases hx

/-! ### What is on its way -/

theorem pending_submits
    {s s' : Engine ρ} (hplain : s.sync_writes = false → s.phase .flusher = .idle)
    {mk : Nat → PendingWrite ρ} (hsub : Submits s mk s') {pw : PendingWrite ρ}
    (hpw : pw ∈ s'.pending) :
    pw ∈ s.pending ∨ pw = mk (s.clock + 1) := by
  cases hsub with
  | queued _ _ =>
      rcases List.mem_append.mp hpw with hpw | hpw
      · exact Or.inl (List.mem_append_left _ hpw)
      · rcases List.mem_append.mp hpw with hpw | hpw
        · exact Or.inl (List.mem_append_right _ hpw)
        · exact Or.inr (List.mem_singleton.mp hpw)
  | direct _ hmode _ _ =>
      have hidle : ({ s with clock := s.clock + 1 } : Engine ρ).phase Actor.direct.other = .idle :=
        hplain hmode
      rw [pending, busy_setPhase hidle] at hpw
      rcases List.mem_append.mp hpw with hpw | hpw
      · exact Or.inr (List.mem_singleton.mp hpw)
      · exact Or.inl (List.mem_append_right _ hpw)

/-- A commit on its way was there before, or it has just been submitted. -/
theorem pending_step
    {s s' : Engine ρ} {act : Act ρ} (ht : s.Timely)
    (hplain : s.sync_writes = false → s.phase .flusher = .idle) (hst : Step s act s')
    {pw : PendingWrite ρ} (hpw : pw ∈ s'.pending) :
    pw ∈ s.pending ∨ (∃ r, act = .submit r ∧ pw = r.pending (s.clock + 1)) ∨
      ∃ id t, act = .txnCommit id ∧ s.slot id = some t ∧ pw = t.txn.pending (s.clock + 1) := by
  cases hst with
  | @txnCommit id t _ hslot _ hsub =>
      rcases pending_submits hplain hsub hpw with hold | rfl
      · exact Or.inl hold
      · exact Or.inr (Or.inr ⟨id, t, rfl, hslot, rfl⟩)
  | @submit r _ hsub =>
      rcases pending_submits hplain hsub hpw with hold | rfl
      · exact Or.inl hold
      · exact Or.inr (Or.inl ⟨r, rfl, rfl⟩)
  | drain hidle hne =>
      have hd : ({ s with write_queue := [] } : Engine ρ).phase Actor.flusher.other = .idle :=
        ht.direct_idle hne
      rw [pending, busy_setPhase hd] at hpw
      rcases List.mem_append.mp hpw with hpw | hpw
      · exact Or.inl (List.mem_append_right _ hpw)
      · cases hpw
  | @work a io _ hw =>
      obtain ⟨hbatch, hother', hqueue, _⟩ := works_frame hw
      have hne : s.phase a ≠ .idle := by
        intro hidle
        cases hw <;> simp_all
      have hother : s.phase a.other = .idle := ht.other_idle hne
      rw [pending, Engine.busy_eq (hother'.trans hother), hqueue] at hpw
      rcases List.mem_append.mp hpw with hpw | hpw
      · refine Or.inl (List.mem_append_left _ ?_)
        rw [Engine.busy_eq hother]
        exact hbatch.subset hpw
      · exact Or.inl (List.mem_append_right _ hpw)
  | _ => exact Or.inl hpw

/-! ### One commit -/

/-- How far a commit has come. -/
inductive Progress (e : Engine ρ) (pw : PendingWrite ρ) (P : List Mutation → Option ρ → Prop) :
    Prop
  | waiting (hmem : pw ∈ e.unresolved)
  | resolved {j r} (hj : e.busy.job = some j) (hmem : (pw, some r) ∈ j.batch.zip j.outcomes)
      (hP : ∀ m v out ms, r = .apply m v out → r.muts pw = some ms → P ms out)
  | answered (hle : pw.ts ≤ e.core.visible_ts)
      (hevent : ∀ ev ∈ e.history, ev.ts = pw.ts → ∃ ms out, ev = .commit pw.ts ms ∧ P ms out)
      (hrep : ∀ rep, (pw.ts, rep) ∈ e.replies →
        (∃ v out ms, rep = .ok v out ∧ Event.commit pw.ts ms ∈ e.history ∧ P ms out) ∨
          ¬ rep.IsOk ∧ ∀ ev ∈ e.history, ev.ts ≠ pw.ts)

/-- When its batch is resolved, a commit has the property. -/
theorem Progress.resolve
    {e e' : Engine ρ} {pw : PendingWrite ρ} {P : List Mutation → Option ρ → Prop}
    {batch : List (PendingWrite ρ)}
    (hjob : e'.busy.job =
      some { batch := batch, outcomes := resolveBatch e.core batch, err := none })
    (hplain : pw.flush_all = none) (hP : pw.Always P) (hmem : pw ∈ batch) :
    Progress e' pw P := by
  have hres : ({ batch := batch, outcomes := resolveBatch e.core batch, err := none } :
      Job ρ).IsResolved := ⟨e.core, rfl⟩
  have hzip : pw ∈ (batch.zip (resolveBatch e.core batch)).map Prod.fst := by
    rw [hres.map_fst]
    exact hmem
  obtain ⟨⟨pw', out⟩, he, heq⟩ := List.mem_map.mp hzip
  obtain rfl : pw' = pw := heq
  cases out with
  | none => simpa [hplain] using (hres.none_iff he).mp rfl
  | some r =>
      refine .resolved hjob he ?_
      intro m v out ms hr hms
      obtain ⟨_, _, _, hresolve, _⟩ := resolveLoop_split he
      exact hP _ _ m v out ms (hresolve.symm.trans hr) (hr ▸ hms)

/-- The event of a published commit is what it was resolved to, and its batch had
no error. -/
theorem Clean.event_of_ts
    {e : Engine ρ} (hcl : e.Clean) (ht : e.Timely) {pw : PendingWrite ρ}
    {j : Job ρ} {effect : Effect} (hbusy : e.busy = .publishing j effect)
    (hplain : pw.flush_all = none) {r : Resolved ρ}
    (hmem : (pw, some r) ∈ j.batch.zip j.outcomes) {ev : Event} (hev : ev ∈ j.events effect)
    (hts : ev.ts = pw.ts) :
    j.err = none ∧ ∃ m v out ms, r = .apply m v out ∧ r.muts pw = some ms ∧
      ev = .commit pw.ts ms := by
  obtain ⟨hres, hsorted, _, _, _⟩ := ht.busy_facts (j := j) (by rw [hbusy]; rfl)
  obtain ⟨x, hx, hxev⟩ := List.mem_filterMap.mp hev
  obtain rfl : x = (pw, some r) :=
    hres.eq_of_ts hsorted hx hmem ((Job.event_ts hxev).symm.trans hts)
  have hcommit : ∃ ms, r.muts pw = some ms ∧ ev = .commit pw.ts ms := by
    cases effect with
    | nothing => cases hxev
    | applied =>
        obtain ⟨ms, hms, rfl⟩ := Option.map_eq_some_iff.mp hxev
        exact ⟨ms, hms, rfl⟩
    | wiped =>
        simp only [Job.event, hplain, Option.isSome_none, Bool.false_eq_true, if_false] at hxev
        split at hxev
        · cases hxev
        · obtain ⟨ms, hms, rfl⟩ := Option.map_eq_some_iff.mp hxev
          exact ⟨ms, hms, rfl⟩
  obtain ⟨ms, hms, rfl⟩ := hcommit
  refine ⟨?_, ?_⟩
  · by_contra herr
    have hflush := hcl.event_flush hbusy herr hev
    cases hflush
  · cases r with
    | apply m v out => exact ⟨m, v, out, ms, rfl, hms, rfl⟩
    | _ => cases hms

/-- When its batch is published, a commit is answered. -/
theorem Progress.publish
    {e e' : Engine ρ} {pw : PendingWrite ρ} {P : List Mutation → Option ρ → Prop}
    (ht : e.Timely) (hsh : e.Shaped) (hcl : e.Clean) (hl : e.Ledger)
    {j : Job ρ} {effect : Effect} (hbusy : e.busy = .publishing j effect)
    (hhistory : e'.history = e.history ++ j.events effect)
    (hreplies : e'.replies = e.replies ++ j.replies)
    (hvisible : e'.core.visible_ts = max e.core.visible_ts (batchMaxTs j.batch))
    (hplain : pw.flush_all = none) {r : Resolved ρ}
    (hmem : (pw, some r) ∈ j.batch.zip j.outcomes)
    (hP : ∀ m v out ms, r = .apply m v out → r.muts pw = some ms → P ms out) :
    Progress e' pw P := by
  obtain ⟨_, _, hfresh, _, _⟩ := ht.busy_facts (j := j) (by rw [hbusy]; rfl)
  have hpw := Job.fst_mem_batch hmem
  -- an event at this timestamp is one of the batch
  have hnew : ∀ ev ∈ e'.history, ev.ts = pw.ts → ev ∈ j.events effect := by
    intro ev hev hts
    rw [hhistory] at hev
    rcases List.mem_append.mp hev with hev | hev
    · have := hl.history_le ev hev
      have := hfresh pw hpw
      omega
    · exact hev
  refine .answered ?_ ?_ ?_
  · rw [hvisible]
    exact (le_batchMaxTs hpw).trans (Nat.le_max_right _ _)
  · intro ev hev hts
    obtain ⟨_, m, v, out, ms, hr, hms, rfl⟩ :=
      hcl.event_of_ts ht hbusy hplain hmem (hnew ev hev hts) hts
    exact ⟨ms, out, rfl, hP m v out ms hr hms⟩
  · intro rep hrep
    obtain ⟨_, heq⟩ := reply_published ht hl hbusy hreplies hmem hrep
    by_cases hok : rep.IsOk
    · left
      cases rep with
      | ok v out =>
          obtain ⟨herr, hne, m, rfl⟩ := hsh.effect_of_reply ht hl hbusy hreplies hmem hrep
          have hms : ∃ ms, (Resolved.apply m v out).muts pw = some ms := by
            cases m with
            | none => exact ⟨_, rfl⟩
            | some m => exact ⟨_, rfl⟩
          obtain ⟨ms, hms⟩ := hms
          refine ⟨v, out, ms, rfl, ?_, hP m v out ms rfl hms⟩
          rw [hhistory]
          exact List.mem_append_right _ (commit_mem_events hne herr hmem hplain hms)
      | _ => exact hok.elim
    · refine Or.inr ⟨hok, ?_⟩
      intro ev hev hts
      obtain ⟨herr, m, v, out, ms, rfl, _, _⟩ :=
        hcl.event_of_ts ht hbusy hplain hmem (hnew ev hev hts) hts
      apply hok
      simp only [heq, Job.reply, herr]
      trivial

/-- Every step takes a commit further. -/
theorem Progress.step
    {e e' : Engine ρ} {pw : PendingWrite ρ} {P : List Mutation → Option ρ → Prop}
    (h : Progress e pw P) (ht : e.Timely) (hsh : e.Shaped) (hcl : e.Clean) (hl : e.Ledger)
    {act : Act ρ} (hok : e.Ordinary act) (hst : Step e act e')
    (hplain : pw.flush_all = none) (hP : pw.Always P) :
    Progress e' pw P := by
  have hb := batch_step ht hsh hok hst
  cases h with
  | waiting hmem =>
      cases hb with
      | quiet _ _ hun _ => exact .waiting (hun hmem)
      | resolved _ _ hjob hun _ _ =>
          rw [hun] at hmem
          rcases List.mem_append.mp hmem with hmem | hmem
          · exact .resolve hjob hplain hP hmem
          · exact .waiting hmem
      | published _ _ _ _ _ _ hun _ _ =>
          rw [← hun] at hmem
          exact .waiting hmem
  | resolved hj hmem hPr =>
      cases hb with
      | quiet _ hout _ _ =>
          obtain ⟨j', hj', hbatch, houts⟩ := job_of_outcomes hout hj
          exact .resolved hj' (by rw [hbatch, houts]; exact hmem) hPr
      | resolved _ hbusy _ _ _ _ =>
          rw [hbusy] at hj
          cases hj
      | published hbusy _ hhistory hreplies hvisible _ _ _ _ =>
          rw [hbusy] at hj
          cases hj
          exact .publish ht hsh hcl hl hbusy hhistory hreplies hvisible hplain hmem hPr
  | answered hle hevent hrep =>
      have hold : ∀ ev ∈ e'.history, ev.ts = pw.ts → ev ∈ e.history :=
        fun ev hev hts => event_step ht hb (hts ▸ hle) hev
      refine .answered (hle.trans (visible_ts_mono hst)) ?_ ?_
      · intro ev hev hts
        exact hevent ev (hold ev hev hts) hts
      · intro rep hin
        rcases hrep rep (reply_step ht hb hle hin) with
          ⟨v, out, ms, hrep, hev, hms⟩ | ⟨hno, hev⟩
        · exact Or.inl ⟨v, out, ms, hrep, hb.history_subset hev, hms⟩
        · exact Or.inr ⟨hno, fun ev hmem hts => hev ev (hold ev hmem hts) hts⟩

end Engine
end Progress
end StrikeDB
