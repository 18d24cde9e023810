import StrikeDB.EngineChains

/-!
# StrikeDB: batches, answers and the published history

* `batch_step`: a step leaves the commits where they are, or resolves a batch,
  or publishes one.
* `Shaped`: what a `SYNC=0` commit works on, and that a batch published without
  an effect answers nobody with success.
* `Ledger`: the history stands in timestamp order, and whatever is stored or
  logged is published or belongs to the batch in work.
-/

namespace StrikeDB

section Ledger

variable {ρ : Type}

/-- What a key holds after the commit of buffered writes. -/
theorem Keyspace.value_commit_opMuts (ks : Keyspace) (ts : Nat) (writes : ValueMap) (k : Key) :
    (ks.commit (opMuts ts writes)).value k =
      match writes[k]? with
      | some v => live v
      | none => ks.value k := by
  cases hk : writes[k]? with
  | none =>
      refine Keyspace.value_congr (Keyspace.getElem?_commit_of_not_mem ?_ ks)
      intro m hm hkey
      rw [opMuts, List.mem_map] at hm
      obtain ⟨e, he, rfl⟩ := hm
      have hkey' : e.1 = k := hkey
      rw [Std.ExtTreeMap.mem_toList_iff_getElem?_eq_some, hkey', hk] at he
      cases he
  | some v =>
      have hwritten : ∃ m ∈ opMuts ts writes, m.key = k := by
        refine ⟨{ key := k, value := v, ts := ts }, ?_, rfl⟩
        rw [opMuts, List.mem_map]
        exact ⟨(k, v), Std.ExtTreeMap.mem_toList_iff_getElem?_eq_some.mpr hk, rfl⟩
      obtain ⟨m, hm, hkey, heq⟩ := Keyspace.getElem?_commit_of_mem hwritten ks
      rw [opMuts, List.mem_map] at hm
      obtain ⟨e, he, rfl⟩ := hm
      have hkey' : e.1 = k := hkey
      rw [Std.ExtTreeMap.mem_toList_iff_getElem?_eq_some, hkey', hk] at he
      cases he
      rw [Keyspace.value, heq]
      rfl

/-- A commit was answered with success. -/
def Reply.IsOk : Reply ρ → Prop
  | .ok _ _ => True
  | _ => False

/-- The forms that the work of a thread takes. -/
def Phase.Shaped : Actor → Phase ρ → Prop
  | .direct, .drained b | .direct, .horizon b _ | .direct, .sweeping b _ _ => b = []
  | .direct, .resolving b => ∃ pw, b = [pw] ∧ pw.flush_all = none
  | _, .publishing j .nothing => ∀ r ∈ j.replies, ¬ r.2.IsOk
  | _, _ => True

namespace Job

variable {j : Job ρ}

/-- After an error nobody is told that the commit succeeded. -/
theorem not_isOk_of_err {e : String} (h : j.err = some e) : ∀ r ∈ j.replies, ¬ r.2.IsOk := by
  intro r hr
  obtain ⟨x, _, rfl⟩ := List.mem_map.mp hr
  simp only [reply, h]
  exact id

theorem reply_ts_mem {r : Nat × Reply ρ} (hr : r ∈ j.replies) : ∃ pw ∈ j.batch, pw.ts = r.1 := by
  obtain ⟨e, he, rfl⟩ := List.mem_map.mp hr
  exact ⟨e.1, fst_mem_batch he, rfl⟩

theorem event_ts
    {effect : Effect} {e : PendingWrite ρ × Option (Resolved ρ)} {ev : Event}
    (h : j.event effect e = some ev) :
    ev.ts = e.1.ts := by
  cases effect with
  | nothing => cases h
  | applied =>
      obtain ⟨ms, _, rfl⟩ := Option.map_eq_some_iff.mp h
      rfl
  | wiped =>
      simp only [event] at h
      split at h
      · cases h
        rfl
      · split at h
        · cases h
        · obtain ⟨ms, _, rfl⟩ := Option.map_eq_some_iff.mp h
          rfl

theorem event_ts_mem
    {effect : Effect} {ev : Event} (h : ev ∈ j.events effect) :
    ∃ pw ∈ j.batch, pw.ts = ev.ts := by
  obtain ⟨e, he, hev⟩ := List.mem_filterMap.mp h
  exact ⟨e.1, fst_mem_batch he, (event_ts hev).symm⟩

/-- The events of a job keep the order of the batch. -/
theorem IsResolved.events_sorted
    (h : j.IsResolved) (hs : j.batch.Pairwise fun p q => p.ts < q.ts) (effect : Effect) :
    (j.events effect).Pairwise fun a b => a.ts < b.ts := by
  have hzip : (j.batch.zip j.outcomes).Pairwise fun e f => e.1.ts < f.1.ts := by
    rw [← h.map_fst, List.pairwise_map] at hs
    exact hs
  simp only [events, List.pairwise_filterMap]
  refine hzip.imp ?_
  intro e f hef a ha b hb
  rw [event_ts ha, event_ts hb]
  exact hef

end Job

namespace Engine

/-- The commits whose outcome is still open. -/
def unresolved (s : Engine ρ) : List (PendingWrite ρ) :=
  (if s.busy.job.isNone then s.busy.batch else []) ++ s.write_queue

/-- The batch in work with its outcomes. -/
def outcomes (s : Engine ρ) : Option (List (PendingWrite ρ) × List (Option (Resolved ρ))) :=
  s.busy.job.map fun j => (j.batch, j.outcomes)

/-- Both states show clients the same. -/
structure SameView (s s' : Engine ρ) : Prop where
  base : s'.base = s.base := by rfl
  history : s'.history = s.history := by rfl
  replies : s'.replies = s.replies := by rfl
  visible : s'.core.visible_ts = s.core.visible_ts := by rfl

/-- What a step can do to the commits on their way. -/
inductive BatchStep (s s' : Engine ρ) : Prop
  | quiet (view : SameView s s') (hout : s'.outcomes = s.outcomes)
      (hun : s.unresolved ⊆ s'.unresolved)
      (hlog : s'.logged = s.logged ∨
        ∃ j, s.busy.job = some j ∧ s'.logged = s.logged ++ j.muts)
  | resolved {batch : List (PendingWrite ρ)} (view : SameView s s')
      (hbusy : s.busy = .resolving batch)
      (hjob : s'.busy.job = some { batch := batch, outcomes := resolveBatch s.core batch, err := none })
      (hun : s.unresolved = batch ++ s'.unresolved) (hcore : s'.core = s.core)
      (hlog : s'.logged = s.logged)
  | published {j : Job ρ} {effect : Effect} (hbusy : s.busy = .publishing j effect)
      (hbase : s'.base = s.base) (hhistory : s'.history = s.history ++ j.events effect)
      (hreplies : s'.replies = s.replies ++ j.replies)
      (hvisible : s'.core.visible_ts = max s.core.visible_ts (batchMaxTs j.batch))
      (hjob : s'.busy.job = none) (hun : s'.unresolved = s.unresolved)
      (hchain : ∀ k, s'.core.chain k = s.core.chain k) (hlog : s'.logged = s.logged)

/-- Both threads work in the expected forms. -/
def Shaped (s : Engine ρ) : Prop := ∀ a, (s.phase a).Shaped a

theorem SameView.keyspace {s s' : Engine ρ} (h : SameView s s') : s'.keyspace = s.keyspace := by
  simp only [Engine.keyspace, h.base, h.history]

theorem outcomes_eq_of_job {s : Engine ρ} {j : Job ρ} (h : s.busy.job = some j) :
    s.outcomes = some (j.batch, j.outcomes) := by
  simp only [outcomes, h, Option.map_some]

/-! ### The forms of the work -/

theorem Shaped.set
    {s s₁ : Engine ρ} (h : s.Shaped) {a : Actor} {p : Phase ρ} (hphase : s₁.phase = s.phase)
    (hp : p.Shaped a) :
    (s₁.setPhase a p).Shaped := by
  intro b
  by_cases hb : b = a
  · subst hb
    rw [setPhase_phase_self]
    exact hp
  · have : b = a.other := by cases a <;> cases b <;> simp_all [Actor.other]
    rw [this, setPhase_phase_other, hphase]
    exact h a.other

theorem afterSweep_shaped {a : Actor} {batch : List (PendingWrite ρ)} :
    (afterSweep a batch).Shaped a := by
  cases a with
  | flusher => trivial
  | direct => trivial

/-- A direct commit that is not applied was refused. -/
theorem afterResolve_shaped
    {a : Actor} {s : Engine ρ} {batch : List (PendingWrite ρ)}
    (h : (Phase.resolving batch).Shaped a) :
    (afterResolve a
      { batch := batch, outcomes := resolveBatch s.core batch, err := none } : Phase ρ).Shaped
        a := by
  cases a with
  | flusher => trivial
  | direct =>
      obtain ⟨pw, rfl, hnone⟩ := h
      have hout : resolveBatch s.core [pw] = [some (resolve s.core pw ∅)] := by
        simp [resolveBatch, resolveLoop, hnone]
      rw [hout]
      cases hr : resolve s.core pw ∅ with
      | apply m v o => trivial
      | conflict =>
          intro r hrm
          simp only [Job.replies, List.zip_cons_cons, List.zip_nil_right, List.map_cons,
            List.map_nil, List.mem_singleton] at hrm
          rw [hrm]
          exact id
      | opErr msg =>
          intro r hrm
          simp only [Job.replies, List.zip_cons_cons, List.zip_nil_right, List.map_cons,
            List.map_nil, List.mem_singleton] at hrm
          rw [hrm]
          exact id

theorem failed_shaped {a : Actor} {j : Job ρ} {e : String} (h : j.err = some e) :
    (Phase.publishing j .nothing).Shaped a := by
  cases a <;> exact Job.not_isOk_of_err h

theorem afterLog_shaped {a : Actor} {j : Job ρ} {result : Except IoError Unit} :
    (afterLog j result).Shaped a := by
  cases result with
  | ok =>
      by_cases hw : j.wipe_ran = true
      · cases a <;> simp [afterLog, hw, Phase.Shaped]
      · cases a <;> simp [afterLog, hw, Phase.Shaped]
  | error e =>
      by_cases hw : j.wipe_ran = true
      · cases a <;> simp [afterLog, hw, Phase.Shaped]
      · simp only [afterLog, hw]
        exact failed_shaped rfl

theorem afterPublish_shaped {a : Actor} {j : Job ρ} {effect : Effect} :
    (afterPublish a j effect).Shaped a := by
  rcases afterPublish_cases a j effect with heq | heq
  · rw [heq]
    cases a <;> trivial
  · rw [heq]
    cases a with
    | flusher => trivial
    | direct => rfl

theorem Shaped.works
    {s s' : Engine ρ} (h : s.Shaped) {a : Actor} {io : Io} (hw : Works s a io s') :
    s'.Shaped := by
  have ha := h a
  cases hw with
  | horizon hp =>
      rw [hp] at ha
      refine h.set rfl ?_
      cases a <;> exact ha
  | noSweep hp _ => exact h.set rfl afterSweep_shaped
  | ready hp =>
      rw [hp] at ha
      refine h.set rfl ?_
      cases a <;> exact ha
  | sweep n hp =>
      rw [hp] at ha
      refine h.set rfl ?_
      cases a <;> exact ha
  | swept hp => exact h.set rfl afterSweep_shaped
  | resolve hp =>
      rw [hp] at ha
      exact h.set rfl (afterResolve_shaped ha)
  | log hp hlog => exact h.set rfl afterLog_shaped
  | flushFailed wal e hp => exact h.set rfl (failed_shaped rfl)
  | flushFiles hp => exact h.set rfl (by cases a <;> trivial)
  | wipe hp _ => exact h.set rfl (by cases a <;> trivial)
  | wiped hp _ => exact h.set rfl (by cases a <;> trivial)
  | skip hp _ _ => exact h.set rfl (by cases a <;> trivial)
  | lock hp _ => exact h.set rfl (by cases a <;> trivial)
  | push hp _ => exact h.set rfl (by cases a <;> trivial)
  | applied hp _ => exact h.set rfl (by cases a <;> trivial)
  | publish hp => exact h.set rfl afterPublish_shaped

theorem Shaped.submits
    {s s' : Engine ρ} (h : s.Shaped) {mk : Nat → PendingWrite ρ} (hsub : Submits s mk s') :
    s'.Shaped := by
  cases hsub with
  | queued _ _ => exact h
  | direct _ _ hflush _ => exact h.set rfl ⟨_, rfl, hflush⟩

/-- Every step keeps the forms. -/
theorem Shaped.step
    {s s' : Engine ρ} {act : Act ρ} (h : s.Shaped) (hst : Step s act s') :
    s'.Shaped := by
  cases hst with
  | txnCommit _ _ hsub =>
      have h₁ := h.submits hsub
      exact h₁
  | submit hsub => exact h.submits hsub
  | drain _ _ => exact h.set rfl trivial
  | work hw => exact h.works hw
  | _ => exact h

/-! ### Batches, step by step -/

theorem SameView.setPhase
    {s s₁ : Engine ρ} (h : SameView s s₁) (a : Actor) (p : Phase ρ) :
    SameView s (s₁.setPhase a p) :=
  ⟨h.base, h.history, h.replies, h.visible⟩

theorem unresolved_setPhase
    {s : Engine ρ} {a : Actor} (hother : s.phase a.other = .idle) (p : Phase ρ) :
    (s.setPhase a p).unresolved =
      (if p.job.isNone then p.batch else []) ++ s.write_queue := by
  simp only [unresolved, busy_setPhase hother]
  rfl

theorem batch_step_works
    {s s' : Engine ρ} (ht : s.Timely) (hsh : s.Shaped) {a : Actor} {io : Io}
    (hw : Works s a io s') :
    BatchStep s s' := by
  have hother : s.phase a.other = .idle := by
    refine ht.other_idle ?_
    intro hidle
    cases hw <;> simp_all
  have hbusy : s.busy = s.phase a := Engine.busy_eq hother
  -- the thread keeps an open batch, or goes on with its resolved one
  have hopen : ∀ (s₁ : Engine ρ) (p : Phase ρ), s₁.phase = s.phase → SameView s s₁ →
      s₁.write_queue = s.write_queue → s₁.logged = s.logged → (s.phase a).job = none →
      p.job = none → (s.phase a).batch ⊆ p.batch → BatchStep s (s₁.setPhase a p) := by
    intro s₁ p hphase hview hqueue hlog hj hpj hbatch
    have hother₁ : s₁.phase a.other = .idle := by rw [hphase]; exact hother
    refine .quiet (hview.setPhase a p) ?_ ?_ (Or.inl hlog)
    · simp only [outcomes, busy_setPhase hother₁, hbusy, hj, hpj]
    · rw [unresolved_setPhase hother₁, unresolved, hbusy, hqueue]
      simp only [hj, hpj, Option.isNone_none, if_true]
      exact List.append_subset.mpr ⟨List.subset_append_of_subset_left _ hbatch,
        List.subset_append_right _ _⟩
  have hgoes : ∀ (s₁ : Engine ρ) (p : Phase ρ) (j : Job ρ) (err : Option String),
      s₁.phase = s.phase → SameView s s₁ → s₁.write_queue = s.write_queue →
      (s₁.logged = s.logged ∨ s₁.logged = s.logged ++ j.muts) → (s.phase a).job = some j →
      p.job = some { j with err := err } → BatchStep s (s₁.setPhase a p) := by
    intro s₁ p j err hphase hview hqueue hlog hj hpj
    have hother₁ : s₁.phase a.other = .idle := by rw [hphase]; exact hother
    refine .quiet (hview.setPhase a p) ?_ ?_ ?_
    · simp only [outcomes, busy_setPhase hother₁, hbusy, hj, hpj, Option.map_some]
    · rw [unresolved_setPhase hother₁, unresolved, hbusy, hqueue]
      simp [hj, hpj]
    · rcases hlog with hlog | hlog
      · exact Or.inl hlog
      · exact Or.inr ⟨j, by rw [hbusy, hj], hlog⟩
  have hsweep : ∀ (s₁ : Engine ρ) (batch : List (PendingWrite ρ)), s₁.phase = s.phase →
      SameView s s₁ → s₁.write_queue = s.write_queue → s₁.logged = s.logged →
      (s.phase a).job = none → (s.phase a).batch = batch → (a = .direct → batch = []) →
      BatchStep s (s₁.setPhase a (afterSweep a batch)) := by
    intro s₁ batch hphase hview hqueue hlog hj hbatch hdirect
    cases a with
    | flusher => exact hopen s₁ _ hphase hview hqueue hlog hj rfl (by rw [hbatch]; exact fun _ h => h)
    | direct =>
        refine hopen s₁ _ hphase hview hqueue hlog hj rfl ?_
        rw [hbatch, hdirect rfl]
        exact List.nil_subset _
  have hshape := hsh a
  cases hw with
  | horizon hp =>
      exact hopen _ _ rfl {} rfl rfl (by rw [hp]; rfl) rfl (by rw [hp]; exact fun _ h => h)
  | noSweep hp _ =>
      refine hsweep _ _ rfl {} rfl rfl (by rw [hp]; rfl) (by rw [hp]; rfl) ?_
      rintro rfl
      rw [hp] at hshape
      exact hshape
  | ready hp =>
      exact hopen _ _ rfl {} rfl rfl (by rw [hp]; rfl) rfl (by rw [hp]; exact fun _ h => h)
  | @sweep batch e ready n n' hp =>
      exact hopen { s with core := s.core.sweep_remove e } _ rfl
        { visible := FlushCore.sweep_remove_visible_ts _ _ } rfl rfl (by rw [hp]; rfl) rfl
        (by rw [hp]; exact fun _ h => h)
  | swept hp =>
      refine hsweep { s with core := { s.core with gc_horizon := _ } } _ rfl {} rfl rfl
        (by rw [hp]; rfl) (by rw [hp]; rfl) ?_
      rintro rfl
      rw [hp] at hshape
      exact hshape
  | @resolve batch hp =>
      set j : Job ρ :=
        { batch := batch, outcomes := resolveBatch s.core batch, err := none } with hj
      have hpj : (afterResolve a j).job = some j := by
        rcases afterResolve_cases a j with heq | heq | heq <;> rw [heq] <;> rfl
      have hres : s.busy = .resolving batch := by rw [hbusy, hp]
      refine .resolved ⟨rfl, rfl, rfl, rfl⟩ hres ?_ ?_ rfl rfl
      · rw [busy_setPhase hother, hpj]
      · rw [unresolved_setPhase hother, unresolved, hbusy, hp, hpj]
        rfl
  | @log j wal core result hp hlog =>
      obtain ⟨n, rfl⟩ := Job.log_core hlog
      have hj : (s.phase a).job = some j := by rw [hp]; rfl
      obtain ⟨err, ⟨heq, _⟩ | ⟨heq, _⟩ | heq⟩ := afterLog_cases j result <;> rw [heq]
      · exact hgoes _ _ j err rfl {} rfl (Or.inr rfl) hj rfl
      · exact hgoes _ _ j j.err rfl {} rfl (Or.inr rfl) hj rfl
      · exact hgoes _ _ j err rfl {} rfl (Or.inr rfl) hj rfl
  | @flushFailed j wal e hp =>
      exact hgoes { s with wal := wal } _ j _ rfl {} rfl (Or.inl rfl) (by rw [hp]; rfl) rfl
  | @flushFiles j hp =>
      exact hgoes { s with wal := Wal.open [] } _ j j.err rfl {} rfl (Or.inl rfl)
        (by rw [hp]; rfl) rfl
  | @wipe j next hp hlt =>
      exact hgoes { s with core := s.core.clear_shard ⟨next, hlt⟩ } _ j j.err rfl {} rfl
        (Or.inl rfl) (by rw [hp]; rfl) rfl
  | @wiped j next hp _ =>
      exact hgoes { s with core := { s.core with kv_live := 0, graveyard := [] } } _ j j.err rfl
        {} rfl (Or.inl rfl) (by rw [hp]; rfl) rfl
  | @skip j next hp _ _ =>
      exact hgoes _ _ j j.err rfl {} rfl (Or.inl rfl) (by rw [hp]; rfl) rfl
  | @lock j next hp _ =>
      exact hgoes _ _ j j.err rfl {} rfl (Or.inl rfl) (by rw [hp]; rfl) rfl
  | @push j next active hp hlt =>
      exact hgoes { s with core := s.core.apply_shard ⟨next, hlt⟩ j.muts active } _ j j.err rfl
        {} rfl (Or.inl rfl) (by rw [hp]; rfl) rfl
  | @applied j next hp _ =>
      exact hgoes _ _ j j.err rfl {} rfl (Or.inl rfl) (by rw [hp]; rfl) rfl
  | @publish j effect hp =>
      have hpub : ∀ p : Phase ρ, p.job = none → p.batch = [] → ∀ s₁ : Engine ρ,
          s₁.phase = s.phase → s₁.write_queue = s.write_queue →
          (s₁.setPhase a p).busy.job = none ∧
            (s₁.setPhase a p).unresolved = s.unresolved := by
        intro p hpj hpb s₁ hphase hqueue
        have hother₁ : s₁.phase a.other = .idle := by rw [hphase]; exact hother
        refine ⟨by rw [busy_setPhase hother₁, hpj], ?_⟩
        rw [unresolved_setPhase hother₁, unresolved, hbusy, hp, hqueue]
        simp [hpb, Phase.job]
      obtain ⟨hj', hun'⟩ := hpub (afterPublish a j effect)
        (by rcases afterPublish_cases a j effect with heq | heq <;> rw [heq] <;> rfl)
        (by rcases afterPublish_cases a j effect with heq | heq <;> rw [heq] <;> rfl)
        { s with
          core := { s.core with visible_ts := max s.core.visible_ts (batchMaxTs j.batch) }
          history := s.history ++ j.events effect
          replies := s.replies ++ j.replies } rfl rfl
      exact .published (by rw [hbusy, hp]) rfl rfl rfl rfl hj' hun' (fun k => rfl) rfl

theorem BatchStep.of_congr
    {s s' : Engine ρ} (view : SameView s s') (hbusy : s'.busy = s.busy)
    (hqueue : s'.write_queue = s.write_queue) (hlog : s'.logged = s.logged) :
    BatchStep s s' :=
  .quiet view (by rw [outcomes, hbusy]; rfl) (by rw [unresolved, unresolved, hbusy, hqueue]; exact fun _ h => h)
    (Or.inl hlog)

theorem batch_step_submits
    {s s' : Engine ρ} {mk : Nat → PendingWrite ρ} (hsub : Submits s mk s')
    (hplain : (mk (s.clock + 1)).flush_all = none →
      s.sync_writes = true ∨ (s.phase .flusher = .idle ∧ s.write_queue = [])) :
    BatchStep s s' ∧ mk (s.clock + 1) ∈ s'.unresolved := by
  cases hsub with
  | queued _ _ =>
      refine ⟨.quiet {} rfl ?_ (Or.inl rfl), ?_⟩
      · exact List.append_subset.mpr ⟨List.subset_append_of_subset_left _ (fun _ h => h),
          List.subset_append_of_subset_right _ (List.subset_append_left _ _)⟩
      · exact List.mem_append_right _ (by simp)
  | direct _ hmode hnone hidle =>
      have hf : s.phase .flusher = .idle ∧ s.write_queue = [] := by
        rcases hplain hnone with hm | hf
        · simp [hmode] at hm
        · exact hf
      have hbusy : s.busy = .idle := by rw [Engine.busy_eq (a := .direct) hf.1, hidle]
      have hun : ({ s with clock := s.clock + 1 }.setPhase .direct
          (.resolving [mk (s.clock + 1)])).unresolved = [mk (s.clock + 1)] := by
        rw [unresolved_setPhase (by exact hf.1)]
        simp [Phase.job, Phase.batch, hf.2]
      refine ⟨.quiet ⟨rfl, rfl, rfl, rfl⟩ ?_ ?_ (Or.inl rfl), by rw [hun]; simp⟩
      · simp only [outcomes, busy_setPhase (s := { s with clock := s.clock + 1 })
          (a := .direct) hf.1, hbusy]
        rfl
      · rw [unresolved, hbusy, hf.2]
        exact List.nil_subset _

/-- Every ordinary step treats the commits on their way in one of the three ways. -/
theorem batch_step
    {s s' : Engine ρ} {act : Act ρ} (ht : s.Timely) (hsh : s.Shaped) (hok : s.Ordinary act)
    (hst : Step s act s') :
    BatchStep s s' := by
  cases hst with
  | begin_ _ => exact .of_congr {} rfl rfl rfl
  | ownRead => exact .of_congr {} rfl rfl rfl
  | txnGet _ _ _ => exact .of_congr {} rfl rfl rfl
  | txnPut _ _ _ => exact .of_congr {} rfl rfl rfl
  | txnCommit _ _ hsub =>
      cases (batch_step_submits hsub (fun _ => hok)).1 with
      | quiet view hout hun hlog => exact .quiet ⟨view.1, view.2, view.3, view.4⟩ hout hun hlog
      | resolved view hbusy hjob hun hcore hlog =>
          exact .resolved ⟨view.1, view.2, view.3, view.4⟩ hbusy hjob hun hcore hlog
      | published hbusy hbase hhistory hreplies hvisible hjob hun hchain hlog =>
          exact .published hbusy hbase hhistory hreplies hvisible hjob hun hchain hlog
  | txnDrop _ _ => exact .of_congr { visible := unregister_visible_ts _ _ } rfl rfl rfl
  | dumpStart => exact .of_congr {} rfl rfl rfl
  | ckptPin _ => exact .of_congr {} rfl rfl rfl
  | unpin _ => exact .of_congr { visible := unregister_visible_ts _ _ } rfl rfl rfl
  | now _ => exact .of_congr {} rfl rfl rfl
  | @submit r _ hsub =>
      refine (batch_step_submits hsub ?_).1
      intro hnone
      cases r with
      | flush_all bak => simp [Request.pending] at hnone
      | write writes => exact hok
      | incr key by_ => exact hok
      | op o => exact hok
  | drain hidle hne =>
      have hd := ht.direct_idle hne
      have hbusy : s.busy = .idle := by rw [Engine.busy_eq (a := .flusher) hd, hidle]
      have hd' : ({ s with write_queue := [] } : Engine ρ).phase Actor.flusher.other = .idle := hd
      refine .quiet ⟨rfl, rfl, rfl, rfl⟩ ?_ ?_ (Or.inl rfl)
      · simp only [outcomes, busy_setPhase hd', hbusy]
        rfl
      · rw [unresolved_setPhase hd', unresolved, hbusy]
        simp [Phase.job, Phase.batch]
  | work hw => exact batch_step_works ht hsh hw

/-! ### The ledger -/

/-- The timestamp is published, or the batch in work writes at it. -/
def Accounted (s : Engine ρ) (ts : Nat) : Prop :=
  ts ≤ s.core.visible_ts ∨ ∃ j, s.busy.job = some j ∧ ∃ m ∈ j.muts, m.ts = ts

/-- What is stored, logged or answered is accounted for. -/
structure Ledger (s : Engine ρ) : Prop where
  sorted : s.history.Pairwise fun a b => a.ts < b.ts
  history_le : ∀ e ∈ s.history, e.ts ≤ s.core.visible_ts
  replies_le : ∀ r ∈ s.replies, r.1 ≤ s.core.visible_ts
  versions : ∀ k c, s.core.chain k = some c → ∀ v ∈ c.versions, s.Accounted v.ts
  logged : ∀ m ∈ s.logged, s.Accounted m.ts

theorem Timely.busy_facts
    {s : Engine ρ} (h : s.Timely) {j : Job ρ} (hj : s.busy.job = some j) :
    j.IsResolved ∧ j.batch.Pairwise (fun p q => p.ts < q.ts) ∧
      (∀ pw ∈ j.batch, s.core.visible_ts < pw.ts) ∧
      (∀ pw ∈ j.batch, ∀ m ∈ pw.muts, m.ts = pw.ts) ∧ FlushLast j.batch := by
  obtain ⟨a, ha⟩ := exists_phase_eq_busy s
  rw [← ha] at hj
  exact h.job_facts hj

/-- The same batch with the same outcomes. -/
theorem job_of_outcomes
    {s s' : Engine ρ} (hout : s'.outcomes = s.outcomes) {j : Job ρ}
    (hj : s.busy.job = some j) :
    ∃ j', s'.busy.job = some j' ∧ j'.batch = j.batch ∧ j'.outcomes = j.outcomes := by
  rw [outcomes_eq_of_job hj] at hout
  obtain ⟨j', hj', heq⟩ := Option.map_eq_some_iff.mp hout
  rw [Prod.mk.injEq] at heq
  exact ⟨j', hj', heq.1, heq.2⟩

theorem Accounted.step
    {s s' : Engine ρ} {ts : Nat} (h : s.Accounted ts) (ht : s.Timely) (hb : BatchStep s s') :
    s'.Accounted ts := by
  cases hb with
  | quiet view hout _ _ =>
      rcases h with hle | ⟨j, hj, m, hm, hts⟩
      · exact Or.inl (by rw [view.visible]; exact hle)
      · obtain ⟨j', hj', hbatch, houts⟩ := job_of_outcomes hout hj
        have hmuts : j'.muts = j.muts := by
          simp only [Job.muts, Job.commits, hbatch, houts]
        exact Or.inr ⟨j', hj', m, by rw [hmuts]; exact hm, hts⟩
  | resolved view hbusy _ _ _ _ =>
      rcases h with hle | ⟨j, hj, _⟩
      · exact Or.inl (by rw [view.visible]; exact hle)
      · rw [hbusy] at hj
        cases hj
  | @published j effect hbusy _ _ _ hvisible _ _ _ _ =>
      refine Or.inl ?_
      rw [hvisible]
      rcases h with hle | ⟨j', hj', m, hm, hts⟩
      · exact hle.trans (Nat.le_max_left _ _)
      · have hj : s.busy.job = some j := by rw [hbusy]; rfl
        rw [hj, Option.some.injEq] at hj'
        subst hj'
        obtain ⟨hres, _, _, hpw, _⟩ := ht.busy_facts hj
        obtain ⟨pw, hpwm, hmts⟩ := hres.mem_muts hpw hm
        rw [← hts, hmts]
        exact (le_batchMaxTs hpwm).trans (Nat.le_max_right _ _)

/-- The chain of `k` has a version newer than `t`. -/
def Stale (s : Engine ρ) (t : Nat) (k : Key) : Prop :=
  ∃ c, s.core.chain k = some c ∧ t < c.latest_ts

/-- A key that the batch in work has written has a newer version than any
published one. -/
theorem Reflected.stale_of_written
    {s : Engine ρ} (h : s.Reflected) {t : Nat} {k : Key} {ks : Keyspace}
    {ms : List Mutation} (hseen : s.seen k = (ks.commit ms)[k]?) (hwr : ∃ m ∈ ms, m.key = k)
    (hnew : ∀ m ∈ ms, t < m.ts) (hchain : s.core.chain k ≠ none) :
    s.Stale t k := by
  obtain ⟨m, hm, _, heq⟩ := Keyspace.getElem?_commit_of_mem hwr ks
  have hk := h.chains k
  rw [hseen, heq] at hk
  obtain ⟨c, hc⟩ := Option.ne_none_iff_exists'.mp hchain
  rw [hc] at hk
  obtain ⟨v, hv⟩ := hk.latest_ts
  have hts : m.ts = c.latest_ts := congrArg Prod.fst (Option.some.inj hv)
  exact ⟨c, hc, hts ▸ hnew m hm⟩

theorem Ledger.step
    {s s' : Engine ρ} {act : Act ρ} (h : s.Ledger) (ht : s.Timely) (hsh : s.Shaped)
    (hok : s.Ordinary act) (hst : Step s act s') :
    s'.Ledger := by
  have hb := batch_step ht hsh hok hst
  have hmono := visible_ts_mono hst
  have hversions : ∀ k c, s'.core.chain k = some c → ∀ v ∈ c.versions, s'.Accounted v.ts := by
    intro k c hc v hv
    refine Accounted.step ?_ ht hb
    cases key_step ht hok hst k with
    | same hchain _ => exact h.versions k c (hchain ▸ hc) v hv
    | collected _ _ _ _ _ hchain _ => simp [hchain] at hc
    | wiped _ hchain _ => simp [hchain] at hc
    | @pushed j active hj _ hchain _ =>
        rw [hchain] at hc
        rcases FlushCore.mem_pushAll hc hv with ⟨m, hm, rfl⟩ | ⟨c', hc', hv'⟩
        · exact Or.inr ⟨j, hj, m, hm, rfl⟩
        · exact h.versions k c' hc' v hv'
  cases hb with
  | quiet view hout hun hlog =>
      refine ⟨by rw [view.history]; exact h.sorted, ?_, ?_, hversions, ?_⟩
      · rw [view.history, view.visible]
        exact h.history_le
      · rw [view.replies, view.visible]
        exact h.replies_le
      · intro m hm
        refine Accounted.step ?_ ht (.quiet view hout hun hlog)
        rcases hlog with hlog | ⟨j, hj, hlog⟩
        · exact h.logged m (hlog ▸ hm)
        · rw [hlog] at hm
          rcases List.mem_append.mp hm with hm | hm
          · exact h.logged m hm
          · exact Or.inr ⟨j, hj, m, hm, rfl⟩
  | resolved view hbusy hjob hun hcore hlog =>
      refine ⟨by rw [view.history]; exact h.sorted, ?_, ?_, hversions, ?_⟩
      · rw [view.history, view.visible]
        exact h.history_le
      · rw [view.replies, view.visible]
        exact h.replies_le
      · intro m hm
        exact (h.logged m (hlog ▸ hm)).step ht (.resolved view hbusy hjob hun hcore hlog)
  | @published j effect hbusy hbase hhistory hreplies hvisible hjob hun hchain hlog =>
      obtain ⟨hres, hsorted, hfresh, _, _⟩ := ht.busy_facts (j := j) (by rw [hbusy]; rfl)
      have hle : ∀ pw ∈ j.batch, pw.ts ≤ s'.core.visible_ts := by
        intro pw hpw
        rw [hvisible]
        exact (le_batchMaxTs hpw).trans (Nat.le_max_right _ _)
      refine ⟨?_, ?_, ?_, hversions, ?_⟩
      · rw [hhistory, List.pairwise_append]
        refine ⟨h.sorted, hres.events_sorted hsorted effect, ?_⟩
        intro e he ev hev
        obtain ⟨pw, hpw, hts⟩ := Job.event_ts_mem hev
        have := h.history_le e he
        have := hfresh pw hpw
        omega
      · intro e he
        rw [hhistory] at he
        rcases List.mem_append.mp he with he | he
        · exact (h.history_le e he).trans hmono
        · obtain ⟨pw, hpw, hts⟩ := Job.event_ts_mem he
          exact hts ▸ hle pw hpw
      · intro r hr
        rw [hreplies] at hr
        rcases List.mem_append.mp hr with hr | hr
        · exact (h.replies_le r hr).trans hmono
        · obtain ⟨pw, hpw, hts⟩ := Job.reply_ts_mem hr
          exact hts ▸ hle pw hpw
      · intro m hm
        exact (h.logged m (hlog ▸ hm)).step ht
          (.published hbusy hbase hhistory hreplies hvisible hjob hun hchain hlog)

/-- The timestamp of an event tells it apart. -/
theorem Ledger.eq_of_ts
    {s : Engine ρ} (h : s.Ledger) {e f : Event} (he : e ∈ s.history) (hf : f ∈ s.history)
    (hts : e.ts = f.ts) :
    e = f := by
  have hnodup : (s.history.map Event.ts).Nodup := by
    rw [List.Nodup, List.pairwise_map]
    exact h.sorted.imp fun hlt => hlt.ne
  exact List.inj_on_of_nodup_map hnodup he hf hts

theorem unresolved_subset_pending (s : Engine ρ) : s.unresolved ⊆ s.pending := by
  intro pw hpw
  rcases List.mem_append.mp hpw with hpw | hpw
  · split at hpw
    · exact List.mem_append_left _ hpw
    · simp at hpw
  · exact List.mem_append_right _ hpw

/-! ### The history before a commit -/

/-- The keyspace of the sequential history before a timestamp. -/
def before (s : Engine ρ) (ts : Nat) : Keyspace :=
  s.base.after (s.history.filter fun e => e.ts < ts)

/-- Nothing was written at this timestamp. -/
structure Unwritten (s : Engine ρ) (ts : Nat) : Prop where
  history : ∀ e ∈ s.history, e.ts ≠ ts
  versions : ∀ k c, s.core.chain k = some c → ∀ v ∈ c.versions, v.ts ≠ ts
  logged : ∀ m ∈ s.logged, m.ts ≠ ts

end Engine

/-- What the commits of a batch before a timestamp write. -/
def Job.mutsBefore (j : Job ρ) (ts : Nat) : List Mutation :=
  (j.commits.filter fun c => c.1 < ts).flatMap Prod.snd

/-- The entry with a given timestamp is the only one. -/
theorem Job.IsResolved.eq_of_ts
    {j : Job ρ} (h : j.IsResolved) (hs : j.batch.Pairwise fun p q => p.ts < q.ts)
    {e f : PendingWrite ρ × Option (Resolved ρ)} (he : e ∈ j.batch.zip j.outcomes)
    (hf : f ∈ j.batch.zip j.outcomes) (hts : e.1.ts = f.1.ts) :
    e = f := by
  have hzip : (j.batch.zip j.outcomes).Pairwise fun e f => e.1.ts < f.1.ts := by
    rw [← h.map_fst, List.pairwise_map] at hs
    exact hs
  obtain ⟨i, hi, rfl⟩ := List.mem_iff_getElem.mp he
  obtain ⟨k, hk, rfl⟩ := List.mem_iff_getElem.mp hf
  have hp := List.pairwise_iff_getElem.mp hzip
  rcases Nat.lt_trichotomy i k with hlt | rfl | hlt
  · have := hp i k hi hk hlt
    omega
  · rfl
  · have := hp k i hk hi hlt
    omega

/-- Before a commit of its batch that is not a FLUSHALL, a successful job has
made exactly its earlier commits. -/
theorem Job.events_before
    {j : Job ρ} (hs : j.batch.Pairwise fun p q => p.ts < q.ts)
    (hlast : FlushLast j.batch) {effect : Effect} (hne : effect ≠ .nothing)
    (herr : j.err = none) {pw : PendingWrite ρ} (hpw : pw ∈ j.batch)
    (hplain : pw.flush_all = none) :
    (j.events effect).filter (fun e => e.ts < pw.ts) =
      (j.commits.filter fun c => c.1 < pw.ts).map fun c => Event.commit c.1 c.2 := by
  have hnoflush : ∀ e ∈ j.batch.zip j.outcomes, e.1.ts < pw.ts → e.1.flush_all = none := by
    intro e he hlt
    obtain ⟨pre, post, hbatch⟩ := List.append_of_mem (Job.fst_mem_batch he)
    rw [hbatch] at hs hlast hpw
    simp only [FlushLast, List.pairwise_append, List.pairwise_cons] at hs hlast
    have hlater : pw ∈ post := by
      simp only [List.mem_append, List.mem_cons] at hpw
      rcases hpw with hpw | rfl | hpw
      · have := hs.2.2 pw hpw e.1 (by simp)
        omega
      · omega
      · exact hpw
    by_contra hf
    have := hlast.2.1.1 pw hlater (Option.isSome_iff_ne_none.mpr hf)
    simp [hplain] at this
  have hevent : ∀ e ∈ j.batch.zip j.outcomes, e.1.ts < pw.ts →
      j.event effect e = j.event .applied e := by
    intro e he hlt
    cases effect with
    | nothing => exact absurd rfl hne
    | applied => rfl
    | wiped => simp [Job.event, hnoflush e he hlt, herr]
  have hgen : ∀ l : List (PendingWrite ρ × Option (Resolved ρ)),
      (∀ e ∈ l, e.1.ts < pw.ts → j.event effect e = j.event .applied e) →
      (l.filterMap (j.event effect)).filter (fun e => e.ts < pw.ts) =
        (l.filterMap (j.event .applied)).filter fun e => e.ts < pw.ts := by
    intro l hl
    induction l with
    | nil => rfl
    | cons e l ih =>
        have ih := ih fun x hx => hl x (List.mem_cons_of_mem _ hx)
        by_cases hlt : e.1.ts < pw.ts
        · rw [List.filterMap_cons, List.filterMap_cons, hl e (by simp) hlt]
          cases j.event .applied e with
          | none => exact ih
          | some ev => simp only [List.filter_cons, ih]
        · have hdrop : ∀ eff, ((e :: l).filterMap (j.event eff)).filter
              (fun e => e.ts < pw.ts) =
                (l.filterMap (j.event eff)).filter fun e => e.ts < pw.ts := by
            intro eff
            rw [List.filterMap_cons]
            cases hev : j.event eff e with
            | none => rfl
            | some ev => simp [Job.event_ts hev, hlt]
          rw [hdrop, hdrop, ih]
  rw [Job.events, hgen _ hevent, ← Job.events, Job.events_applied, List.filter_map]
  rfl

/-- The answer to a commit of the batch. -/
theorem Job.IsResolved.reply_eq
    {j : Job ρ} (h : j.IsResolved) (hs : j.batch.Pairwise fun p q => p.ts < q.ts)
    {pw : PendingWrite ρ} {out : Option (Resolved ρ)} (he : (pw, out) ∈ j.batch.zip j.outcomes)
    {rep : Reply ρ} (hrep : (pw.ts, rep) ∈ j.replies) :
    rep = j.reply out := by
  obtain ⟨f, hf, heq⟩ := List.mem_map.mp hrep
  obtain ⟨hts, rfl⟩ := Prod.mk.inj heq
  rw [h.eq_of_ts hs hf he hts]

theorem Job.reply_isOk {j : Job ρ} {out : Option (Resolved ρ)} (h : (j.reply out).IsOk) :
    j.err = none ∧ (out = none ∨ ∃ m v o, out = some (.apply m v o)) := by
  cases herr : j.err with
  | some e =>
      simp only [Job.reply, herr] at h
      exact h.elim
  | none =>
      refine ⟨rfl, ?_⟩
      cases out with
      | none => exact Or.inl rfl
      | some r =>
          cases r with
          | apply m v o => exact Or.inr ⟨m, v, o, rfl⟩
          | conflict =>
              simp only [Job.reply, herr] at h
              exact h.elim
          | opErr msg =>
              simp only [Job.reply, herr] at h
              exact h.elim

namespace Engine

/-- A batch whose success is answered has an effect. -/
theorem Shaped.effect_ne_nothing
    {s : Engine ρ} (h : s.Shaped) {j : Job ρ} {effect : Effect}
    (hbusy : s.busy = .publishing j effect) {r : Nat × Reply ρ} (hr : r ∈ j.replies)
    (hok : r.2.IsOk) :
    effect ≠ .nothing := by
  rintro rfl
  obtain ⟨a, ha⟩ := exists_phase_eq_busy s
  have hshape := h a
  rw [ha, hbusy] at hshape
  cases a <;> exact hshape r hr hok

/-- Steps leave the history before a published timestamp alone. -/
theorem before_step
    {s s' : Engine ρ} (ht : s.Timely) (hb : BatchStep s s') {ts : Nat}
    (hle : ts ≤ s.core.visible_ts) :
    s'.before ts = s.before ts := by
  cases hb with
  | quiet view _ _ _ => simp only [before, view.base, view.history]
  | resolved view _ _ _ _ _ => simp only [before, view.base, view.history]
  | @published j effect hbusy hbase hhistory _ _ _ _ _ _ =>
      obtain ⟨_, _, hfresh, _, _⟩ := ht.busy_facts (j := j) (by rw [hbusy]; rfl)
      have hnone : (j.events effect).filter (fun e => e.ts < ts) = [] := by
        rw [List.filter_eq_nil_iff]
        intro e he
        obtain ⟨pw, hpw, hts⟩ := Job.event_ts_mem he
        have := hfresh pw hpw
        simp only [decide_eq_true_eq]
        omega
      simp only [before, hbase, hhistory, List.filter_append, hnone, List.append_nil]

/-- The history before a commit of the batch that is published. -/
theorem before_published
    {s s' : Engine ρ} (ht : s.Timely) (hl : s.Ledger) {j : Job ρ} {effect : Effect}
    (hbusy : s.busy = .publishing j effect) (hbase : s'.base = s.base)
    (hhistory : s'.history = s.history ++ j.events effect) (hne : effect ≠ .nothing)
    (herr : j.err = none) {pw : PendingWrite ρ} (hpw : pw ∈ j.batch)
    (hplain : pw.flush_all = none) :
    s'.before pw.ts = s.keyspace.commit (j.mutsBefore pw.ts) := by
  obtain ⟨_, hsorted, hfresh, _, hlast⟩ := ht.busy_facts (j := j) (by rw [hbusy]; rfl)
  have hall : s.history.filter (fun e => e.ts < pw.ts) = s.history := by
    rw [List.filter_eq_self]
    intro e he
    have := hl.history_le e he
    have := hfresh pw hpw
    simp only [decide_eq_true_eq]
    omega
  rw [before, hbase, hhistory, List.filter_append, hall,
    Job.events_before hsorted hlast hne herr hpw hplain, Keyspace.after_append,
    Keyspace.after_commits]
  rfl

/-- Answers with a published timestamp are old. -/
theorem reply_step
    {s s' : Engine ρ} (ht : s.Timely) (hb : BatchStep s s') {ts : Nat}
    (hle : ts ≤ s.core.visible_ts) {rep : Reply ρ} (h : (ts, rep) ∈ s'.replies) :
    (ts, rep) ∈ s.replies := by
  cases hb with
  | quiet view _ _ _ => exact view.replies ▸ h
  | resolved view _ _ _ _ _ => exact view.replies ▸ h
  | @published j _ hbusy _ _ hreplies _ _ _ _ _ =>
      rw [hreplies] at h
      rcases List.mem_append.mp h with h | h
      · exact h
      · obtain ⟨_, _, hfresh, _, _⟩ := ht.busy_facts (j := j) (by rw [hbusy]; rfl)
        obtain ⟨pw, hpw, hpts⟩ := Job.reply_ts_mem h
        have := hfresh pw hpw
        simp only at hpts
        omega

/-- Events with a published timestamp are old. -/
theorem event_step
    {s s' : Engine ρ} (ht : s.Timely) (hb : BatchStep s s') {ev : Event}
    (hle : ev.ts ≤ s.core.visible_ts) (h : ev ∈ s'.history) :
    ev ∈ s.history := by
  cases hb with
  | quiet view _ _ _ => exact view.history ▸ h
  | resolved view _ _ _ _ _ => exact view.history ▸ h
  | @published j _ hbusy _ hhistory _ _ _ _ _ _ =>
      rw [hhistory] at h
      rcases List.mem_append.mp h with h | h
      · exact h
      · obtain ⟨_, _, hfresh, _, _⟩ := ht.busy_facts (j := j) (by rw [hbusy]; rfl)
        obtain ⟨pw, hpw, hpts⟩ := Job.event_ts_mem h
        have := hfresh pw hpw
        omega

theorem BatchStep.history_subset {s s' : Engine ρ} (hb : BatchStep s s') :
    s.history ⊆ s'.history := by
  cases hb with
  | quiet view _ _ _ => exact view.history ▸ fun _ h => h
  | resolved view _ _ _ _ _ => exact view.history ▸ fun _ h => h
  | published _ _ hhistory _ _ _ _ _ _ =>
      rw [hhistory]
      exact List.subset_append_left _ _

/-- The answer to a commit of the batch that is published. -/
theorem reply_published
    {s s' : Engine ρ} (ht : s.Timely) (hl : s.Ledger) {j : Job ρ} {effect : Effect}
    (hbusy : s.busy = .publishing j effect) (hreplies : s'.replies = s.replies ++ j.replies)
    {pw : PendingWrite ρ} {out : Option (Resolved ρ)} (he : (pw, out) ∈ j.batch.zip j.outcomes)
    {rep : Reply ρ} (hrep : (pw.ts, rep) ∈ s'.replies) :
    (pw.ts, rep) ∈ j.replies ∧ rep = j.reply out := by
  obtain ⟨hres, hsorted, hfresh, _, _⟩ := ht.busy_facts (j := j) (by rw [hbusy]; rfl)
  rw [hreplies] at hrep
  rcases List.mem_append.mp hrep with hrep | hrep
  · have := hl.replies_le _ hrep
    have := hfresh pw (Job.fst_mem_batch he)
    omega
  · exact ⟨hrep, hres.reply_eq hsorted he hrep⟩

/-- A success that is published comes from a batch that has an effect. -/
theorem Shaped.effect_of_reply
    {s s' : Engine ρ} (h : s.Shaped) (ht : s.Timely) (hl : s.Ledger) {j : Job ρ}
    {effect : Effect} (hbusy : s.busy = .publishing j effect)
    (hreplies : s'.replies = s.replies ++ j.replies) {pw : PendingWrite ρ} {r : Resolved ρ}
    (he : (pw, some r) ∈ j.batch.zip j.outcomes) {v : Option Int64} {out : Option ρ}
    (hrep : (pw.ts, .ok v out) ∈ s'.replies) :
    j.err = none ∧ effect ≠ .nothing ∧ ∃ m, r = .apply m v out := by
  obtain ⟨hin, heq⟩ := reply_published ht hl hbusy hreplies he hrep
  have hok : (j.reply (some r)).IsOk := by rw [← heq]; trivial
  obtain ⟨herr, hnone | ⟨m, v', o, happ⟩⟩ := Job.reply_isOk hok
  · cases hnone
  · refine ⟨herr, h.effect_ne_nothing hbusy hin trivial, m, ?_⟩
    cases happ
    simp only [Job.reply, herr, Reply.ok.injEq] at heq
    rw [heq.1, heq.2]

/-- A commit with mutations is an event of its job. -/
theorem commit_mem_events
    {j : Job ρ} {effect : Effect} (hne : effect ≠ .nothing) (herr : j.err = none)
    {pw : PendingWrite ρ} {r : Resolved ρ} (he : (pw, some r) ∈ j.batch.zip j.outcomes)
    (hplain : pw.flush_all = none) {ms : List Mutation} (hms : r.muts pw = some ms) :
    Event.commit pw.ts ms ∈ j.events effect := by
  refine List.mem_filterMap.mpr ⟨_, he, ?_⟩
  cases effect with
  | nothing => exact absurd rfl hne
  | applied => simp [Job.event, hms]
  | wiped => simp [Job.event, hms, hplain, herr]

/-- What is not written once it is published is never written. -/
theorem Unwritten.step
    {s s' : Engine ρ} {act : Act ρ} {ts : Nat} (h : s.Unwritten ts) (ht : s.Timely)
    (hb : BatchStep s s') (hok : s.Ordinary act) (hst : Step s act s')
    (hle : ts ≤ s.core.visible_ts) :
    s'.Unwritten ts := by
  refine ⟨?_, ?_, ?_⟩
  · intro e he
    cases hb with
    | quiet view _ _ _ => exact h.history e (view.history ▸ he)
    | resolved view _ _ _ _ _ => exact h.history e (view.history ▸ he)
    | @published j effect hbusy _ hhistory _ _ _ _ _ _ =>
        rw [hhistory] at he
        rcases List.mem_append.mp he with he | he
        · exact h.history e he
        · obtain ⟨_, _, hfresh, _, _⟩ := ht.busy_facts (j := j) (by rw [hbusy]; rfl)
          obtain ⟨pw, hpw, hts⟩ := Job.event_ts_mem he
          have := hfresh pw hpw
          omega
  · intro k c hc v hv
    cases key_step ht hok hst k with
    | same hchain _ => exact h.versions k c (hchain ▸ hc) v hv
    | collected _ _ _ _ _ hchain _ => simp [hchain] at hc
    | wiped _ hchain _ => simp [hchain] at hc
    | pushed hj _ hchain _ =>
        rw [hchain] at hc
        rcases FlushCore.mem_pushAll hc hv with ⟨m, hm, rfl⟩ | ⟨c', hc', hv'⟩
        · have := (ht.busy_job_facts hj).2 m hm
          simp only
          omega
        · exact h.versions k c' hc' v hv'
  · intro m hm
    cases hb with
    | quiet _ _ _ hlog =>
        rcases hlog with hlog | ⟨j, hj, hlog⟩
        · exact h.logged m (hlog ▸ hm)
        · rw [hlog] at hm
          rcases List.mem_append.mp hm with hm | hm
          · exact h.logged m hm
          · have := (ht.busy_job_facts hj).2 m hm
            omega
    | resolved _ _ _ _ _ hlog => exact h.logged m (hlog ▸ hm)
    | published _ _ _ _ _ _ _ _ hlog => exact h.logged m (hlog ▸ hm)

/-- A commit that was refused has written nothing when its batch is published. -/
theorem unwritten_published
    {s s' : Engine ρ} (ht : s.Timely) (hl : s.Ledger) {j : Job ρ} {effect : Effect}
    (hbusy : s.busy = .publishing j effect)
    (hhistory : s'.history = s.history ++ j.events effect)
    (hchain : ∀ k, s'.core.chain k = s.core.chain k) (hlog : s'.logged = s.logged)
    {pw : PendingWrite ρ} {r : Resolved ρ} (he : (pw, some r) ∈ j.batch.zip j.outcomes)
    (hplain : pw.flush_all = none) (hms : r.muts pw = none) :
    s'.Unwritten pw.ts := by
  have hj : s.busy.job = some j := by rw [hbusy]; rfl
  obtain ⟨hres, hsorted, hfresh, hpw, _⟩ := ht.busy_facts hj
  have hfresh := hfresh pw (Job.fst_mem_batch he)
  -- the batch writes nothing at this timestamp
  have hno : ∀ m ∈ j.muts, m.ts ≠ pw.ts := by
    intro m hm hts
    obtain ⟨c, hc, hmc⟩ := List.mem_flatMap.mp hm
    have hcts := hres.commits_ts hpw hc m hmc
    obtain ⟨f, hf, ⟨r', hr', hms'⟩, hfts⟩ := Job.mem_commits.mp hc
    have heq := hres.eq_of_ts hsorted hf he (by rw [hfts, ← hcts, hts])
    rw [heq] at hr' hms'
    cases hr'
    simp [hms] at hms'
  have hacc : ∀ ts, s.Accounted ts → ts ≠ pw.ts := by
    rintro ts (hle | ⟨j', hj', m, hm, hts⟩) rfl
    · omega
    · rw [hj, Option.some.injEq] at hj'
      subst hj'
      exact hno m hm hts
  refine ⟨?_, ?_, ?_⟩
  · intro e hmem hts
    rw [hhistory] at hmem
    rcases List.mem_append.mp hmem with hmem | hmem
    · have := hl.history_le e hmem
      omega
    · obtain ⟨f, hf, hev⟩ := List.mem_filterMap.mp hmem
      have heq := hres.eq_of_ts hsorted hf he (by rw [← Job.event_ts hev, hts])
      rw [heq] at hev
      cases effect <;> simp [Job.event, hms, hplain] at hev
  · intro k c hc v hv
    rw [hchain] at hc
    exact hacc _ (hl.versions k c hc v hv)
  · intro m hm
    rw [hlog] at hm
    exact hacc _ (hl.logged m hm)

end Engine
end Ledger
end StrikeDB
