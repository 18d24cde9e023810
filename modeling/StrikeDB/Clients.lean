import StrikeDB.CommitProgress
import StrikeDB.Transactions

/-!
# StrikeDB: threads that wait for their commits

Parts of the server keep something of their own next to the keys of one family: an
index, a counter.  Their threads hand commits to the engine and wait; nobody else
writes a key of the family, and there is no FLUSHALL.  `Clients` is what such a
system keeps, whatever the threads do between their commits.

**Results.**
* `Clients.engine`, `Clients.hand`: steps of the engine, and a thread that submits.
* `Clients.events`: the events on the family that a step publishes are the commits
  of threads that wait for them.
* `Clients.muts`: so is what the batch in work writes to the family.
* `Clients.answer`: what an answer means to the thread that gets it.
-/

namespace StrikeDB

/-- Two threads are some threads. -/
instance neZero_two : NeZero 2 := ⟨two_ne_zero⟩

section Clients

variable {ρ ι τ : Type}

/-- Nothing this commit is resolved to writes a key of the family. -/
def PendingWrite.Silent (F : Key → Prop) (pw : PendingWrite ρ) : Prop :=
  pw.Always fun ms _ => ∀ m ∈ ms, ¬ F m.key

/-- Steps of others: they write no key of the family and wipe nothing. -/
def Act.Elsewhere (F : Key → Prop) : Act ρ → Prop
  | .txnPut _ key _ => ¬ F key
  | .submit (.write writes) => ∀ k, F k → writes[k]? = none
  | .submit (.incr key _) => ¬ F key
  | .submit (.op op) => ∀ core overlay k, F k → (runOp core overlay op .init).2.writes[k]? = none
  | .submit (.flush_all _) => False
  | _ => True

theorem silent_opMuts {F : Key → Prop} {writes : ValueMap} (h : ∀ k, F k → writes[k]? = none)
    (ts : Nat) : ∀ m ∈ opMuts ts writes, ¬ F m.key := by
  intro m hm hF
  obtain ⟨e, he, rfl⟩ := List.mem_map.mp hm
  have hv := Std.ExtTreeMap.mem_toList_iff_getElem?_eq_some.mp he
  rw [h e.1 hF] at hv
  cases hv

theorem silent_request {F : Key → Prop} {r : Request ρ} (h : (Act.submit r).Elsewhere F)
    (ts : Nat) : (r.pending ts).Silent F := by
  intro core overlay m v out ms hr hms
  cases r with
  | write writes =>
      obtain ⟨rfl, _, rfl⟩ := Resolved.apply.inj hr
      obtain rfl := Option.some.inj hms
      exact silent_opMuts h ts
  | op op =>
      obtain ⟨rfl, _, rfl⟩ := Resolved.apply.inj hr
      obtain rfl := Option.some.inj hms
      exact silent_opMuts (h core overlay) ts
  | incr key by_ =>
      simp only [Request.pending, resolve, List.any_nil, Bool.false_eq_true, if_false] at hr
      split at hr
      · obtain ⟨rfl, _, rfl⟩ := Resolved.apply.inj hr
        obtain rfl := Option.some.inj hms
        intro m hm
        obtain rfl := List.mem_singleton.mp hm
        exact h
      · cases hr
  | flush_all bak => exact h.elim

theorem silent_txn {F : Key → Prop} {t : Txn} (h : ∀ k, F k → t.writes[k]? = none) (ts : Nat) :
    (t.pending ts : PendingWrite ρ).Silent F := by
  intro core overlay m v out ms hr hms
  change (if (t.pending ts : PendingWrite ρ).reads.any (readConflicts core overlay) then
    Resolved.conflict else Resolved.apply none none none) = _ at hr
  split at hr
  · cases hr
  · obtain ⟨rfl, _, rfl⟩ := Resolved.apply.inj hr
    obtain rfl := Option.some.inj hms
    exact silent_opMuts h ts

namespace Engine

/-- What a transaction has buffered was put there. -/
theorem writes_step
    {s s' : Engine ρ} {act : Act ρ} {P : ValueMap → Prop} (hempty : P ∅)
    (hput : ∀ id key value, act = .txnPut id key value → ∀ w, P w → ∀ v, P (w.insert key v))
    (h : ∀ t ∈ s.txns, P t.txn.writes) (hst : s.step act = some s') :
    ∀ t ∈ s'.txns, P t.txn.writes := by
  intro u hu
  by_cases hact : ∃ id key value, act = .txnPut id key value
  · obtain ⟨id, key, value, rfl⟩ := hact
    have hst : s.txnPut id key value = some s' := hst
    unfold txnPut at hst
    split at hst
    · cases hst
    · next t ht =>
        have hins : ∀ v, P (t.txn.writes.insert key v) :=
          hput id key value rfl _ (h t (slot_mem ht).1)
        split at hst
        · cases hst
        · split at hst
          · cases hst
            rcases mem_setSlot hu with ⟨rfl, _⟩ | ⟨hu, _⟩
            · exact hins _
            · exact h u hu
          · cases hst
            rcases mem_setSlot hu with ⟨rfl, _⟩ | ⟨hu, _⟩
            · exact hins _
            · exact h u hu
  · cases step_cases hst with
    | begin_ _ =>
        rcases List.mem_cons.mp hu with rfl | hu
        · exact hempty
        · exact h u hu
    | @txnGet _ _ t ht _ _ =>
        rcases mem_setSlot hu with ⟨rfl, _⟩ | ⟨hu, _⟩
        · exact h t (slot_mem ht).1
        · exact h u hu
    | txnPut _ _ _ => exact absurd ⟨_, _, _, rfl⟩ hact
    | @txnCommit _ t _ ht _ hsub =>
        rcases mem_setSlot hu with ⟨rfl, _⟩ | ⟨hu, _⟩
        · exact h t (slot_mem ht).1
        · exact h u ((submits_txns hsub).1 ▸ hu)
    | txnDrop _ _ => exact h u (List.mem_of_mem_eraseP hu)
    | submit hsub => exact h u ((submits_txns hsub).1 ▸ hu)
    | work hw => exact h u ((works_txns hw).1 ▸ hu)
    | _ => exact h u hu

/-- A step appends the events of the batch it publishes. -/
theorem BatchStep.history_append {s s' : Engine ρ} (hb : s.BatchStep s') :
    ∃ es, s'.base = s.base ∧ s'.history = s.history ++ es ∧
      (es = [] ∨ ∃ j effect, s.busy = .publishing j effect ∧ es = j.events effect) := by
  cases hb with
  | quiet view _ _ _ => exact ⟨[], view.base, by rw [view.history, List.append_nil], Or.inl rfl⟩
  | resolved view _ _ _ _ _ =>
      exact ⟨[], view.base, by rw [view.history, List.append_nil], Or.inl rfl⟩
  | published hbusy hbase hhistory _ _ _ _ _ _ =>
      exact ⟨_, hbase, hhistory, Or.inr ⟨_, _, hbusy, rfl⟩⟩

end Engine

theorem Job.events_unflushed
    {j : Job ρ} (h : ∀ pw ∈ j.batch, pw.flush_all = none) {effect : Effect} {ev : Event}
    (hev : ev ∈ j.events effect) :
    ev.isFlush = false := by
  obtain ⟨x, hx, hxev⟩ := List.mem_filterMap.mp hev
  have hplain := h x.1 (Job.fst_mem_batch hx)
  cases effect with
  | nothing => cases hxev
  | applied =>
      obtain ⟨ms, _, rfl⟩ := Option.map_eq_some_iff.mp hxev
      rfl
  | wiped =>
      simp only [Job.event, hplain, Option.isSome_none, Bool.false_eq_true, if_false] at hxev
      split at hxev
      · cases hxev
      · obtain ⟨ms, _, rfl⟩ := Option.map_eq_some_iff.mp hxev
        rfl

/-- What a resolved commit of a batch writes is what it can be resolved to. -/
theorem Job.IsResolved.always
    {j : Job ρ} (h : j.IsResolved) {pw : PendingWrite ρ} {r : Resolved ρ}
    (he : (pw, some r) ∈ j.batch.zip j.outcomes) {ms : List Mutation}
    (hms : r.muts pw = some ms) {P : List Mutation → Option ρ → Prop} (hP : pw.Always P) :
    ∃ out, P ms out := by
  obtain ⟨core, hcore⟩ := h
  rw [hcore] at he
  obtain ⟨_, _, _, hres, _⟩ := resolveLoop_split he
  cases r with
  | apply m v out => exact ⟨out, hP _ _ m v out ms hres.symm hms⟩
  | _ => cases hms

/-- A published event on the family comes from a commit that is not silent. -/
theorem Job.IsResolved.not_silent
    {j : Job ρ} (h : j.IsResolved) {effect : Effect} {ev : Event} (hev : ev ∈ j.events effect)
    {F : Key → Prop} {k : Key} (hF : F k) (hw : ev.Writes k) :
    ∃ pw ∈ j.batch, pw.ts = ev.ts ∧ ¬ pw.Silent F := by
  obtain ⟨⟨pw, out⟩, he, hx⟩ := List.mem_filterMap.mp hev
  refine ⟨pw, Job.fst_mem_batch he, (Job.event_ts hx).symm, ?_⟩
  intro hsilent
  have hsome : (out.bind fun r => r.muts pw).map (Event.commit pw.ts) = some ev := by
    cases effect with
    | nothing => cases hx
    | applied => exact hx
    | wiped =>
        simp only [Job.event] at hx
        split at hx
        · cases hx
          exact hw.elim
        · split at hx
          · cases hx
          · exact hx
  obtain ⟨ms, hms, rfl⟩ := Option.map_eq_some_iff.mp hsome
  obtain ⟨r, rfl, hms⟩ := Option.bind_eq_some_iff.mp hms
  obtain ⟨_, hno⟩ := h.always he hms hsilent
  obtain ⟨m, hm, hkey⟩ := hw
  exact hno m hm (hkey ▸ hF)

/-- What the engine and the threads that wait for it keep.  `waits` says who waits
for the commit of which timestamp, and what for; `handed` is a commit that is just
being handed over and that nobody waits for yet. -/
structure Clients (F : Key → Prop) (W : τ → List Mutation → Option ρ → Prop) (e : Engine ρ)
    (waits : ι → Nat → τ → Prop) (handed : Option (PendingWrite ρ)) : Prop where
  timely : e.Timely
  shaped : e.Shaped
  clean : e.Clean
  ledger : e.Ledger
  flushless : e.Flushless
  unflushed : ∀ ev ∈ e.history, ev.isFlush = false
  plain : ∀ t ∈ e.txns, ∀ k, F k → t.txn.writes[k]? = none
  owned : ∀ pw ∈ e.pending, pw.Silent F ∨ handed = some pw ∨ ∃ i x, waits i pw.ts x
  sent : ∀ i ts x, waits i ts x → ∃ pw : PendingWrite ρ,
    pw.ts = ts ∧ pw.flush_all = none ∧ pw.Always (W x) ∧ e.Progress pw (W x)

namespace Clients

variable {F : Key → Prop} {W : τ → List Mutation → Option ρ → Prop} {e e' : Engine ρ}
  {waits waits' : ι → Nat → τ → Prop} {handed : Option (PendingWrite ρ)}

/-- An engine that was just opened. -/
theorem start (o : Opened) (sync_writes : Bool) (hnone : ∀ i ts x, ¬ waits i ts x) :
    Clients F W (Engine.start o sync_writes) waits none where
  timely := Engine.timely_start o sync_writes
  shaped := Engine.shaped_start o sync_writes
  clean := Engine.clean_start o sync_writes
  ledger := Engine.ledger_start o sync_writes
  flushless := ⟨by simp [Engine.start], by simp [Engine.start, Phase.batch], fun _ => ⟨rfl, rfl⟩⟩
  unflushed := by simp [Engine.start]
  plain := by simp [Engine.start]
  owned := by simp [Engine.start, Engine.pending, Engine.busy, Phase.batch]
  sent := fun i ts x h => absurd h (hnone i ts x)

theorem ordinary (h : Clients F W e waits handed) {act : Act ρ} (hflush : e.NoFlush act) :
    e.Ordinary act :=
  h.flushless.ordinary hflush

/-- A step of the engine; what it submits is being handed over. -/
theorem engine
    (h : Clients F W e waits none) {act : Act ρ} (hflush : e.NoFlush act)
    (hput : ∀ id key value, act = .txnPut id key value → ¬ F key)
    (hst : e.step act = some e')
    (hnew : ∀ r, act = .submit r → (r.pending (e.clock + 1)).Silent F ∨
      handed = some (r.pending (e.clock + 1))) :
    Clients F W e' waits handed := by
  have hok := h.ordinary hflush
  have hcases := Engine.step_cases hst
  have hb := Engine.batch_step h.timely h.shaped hok hcases
  refine
    { timely := h.timely.step hok hcases
      shaped := h.shaped.step hcases
      clean := h.clean.step hcases
      ledger := h.ledger.step h.timely h.shaped hok hcases
      flushless := h.flushless.step hflush hcases
      unflushed := ?_
      plain := ?_
      owned := ?_
      sent := ?_ }
  · obtain ⟨es, _, hhistory, rfl | ⟨j, effect, hbusy, rfl⟩⟩ := hb.history_append
    · rw [hhistory, List.append_nil]
      exact h.unflushed
    · intro ev hev
      rw [hhistory] at hev
      rcases List.mem_append.mp hev with hev | hev
      · exact h.unflushed ev hev
      · obtain ⟨a, ha⟩ := Engine.exists_phase_eq_busy e
        refine Job.events_unflushed (fun pw hpw => h.flushless.batch a pw ?_) hev
        rw [ha, hbusy]
        exact hpw
  · refine Engine.writes_step (P := fun w => ∀ k, F k → w[k]? = none) (by simp) ?_ h.plain hst
    intro id key value hact w hw v k hF
    have hne : key ≠ k := by
      rintro rfl
      exact hput id key value hact hF
    rw [FlushCore.map_getElem?_insert, if_neg hne, hw k hF]
  · intro pw hpw
    have hmode : e.sync_writes = false → e.phase .flusher = .idle :=
      fun hs => (h.flushless.mode hs).1
    rcases Engine.pending_step h.timely hmode hcases hpw with
      hold | ⟨r, hact, rfl⟩ | ⟨id, t, _, hslot, rfl⟩
    · rcases h.owned pw hold with hsilent | hhanded | hown
      · exact Or.inl hsilent
      · cases hhanded
      · exact Or.inr (Or.inr hown)
    · rcases hnew r hact with hsilent | hhanded
      · exact Or.inl hsilent
      · exact Or.inr (Or.inl hhanded)
    · exact Or.inl (silent_txn (h.plain t (Engine.slot_mem hslot).1) _)
  · intro i ts x hi
    obtain ⟨pw, hts, hplain, halways, hprogress⟩ := h.sent i ts x hi
    exact ⟨pw, hts, hplain, halways,
      hprogress.step h.timely h.shaped h.clean h.ledger hok hcases hplain halways⟩

/-- A step that is none of the threads'. -/
theorem elsewhere
    (h : Clients F W e waits none) {act : Act ρ} (helse : act.Elsewhere F)
    (hst : e.step act = some e') :
    Clients F W e' waits none := by
  refine h.engine ?_ ?_ hst ?_
  · rintro bak rfl
    exact helse
  · rintro id key value rfl
    exact helse
  · rintro r rfl
    exact Or.inl (silent_request helse _)

/-- A commit that a thread has an answer to is no longer on its way. -/
theorem not_pending (h : Clients F W e waits handed) {ts : Nat} {rep : Reply ρ}
    (hrep : (ts, rep) ∈ e.replies) {pw : PendingWrite ρ} (hpw : pw ∈ e.pending) :
    pw.ts ≠ ts := by
  have := h.ledger.replies_le _ hrep
  have := (h.timely.fresh pw hpw).1
  omega

/-- Threads go on: whoever waits now waited before, and nobody forgets a commit that
is on its way. -/
theorem goes_on
    (h : Clients F W e waits handed)
    (hold : ∀ i ts x, waits' i ts x → waits i ts x)
    (hkeep : ∀ pw ∈ e.pending, ∀ i x, waits i pw.ts x → waits' i pw.ts x) :
    Clients F W e waits' handed where
  timely := h.timely
  shaped := h.shaped
  clean := h.clean
  ledger := h.ledger
  flushless := h.flushless
  unflushed := h.unflushed
  plain := h.plain
  owned := by
    intro pw hpw
    rcases h.owned pw hpw with hsilent | hhanded | ⟨i, x, hi⟩
    · exact Or.inl hsilent
    · exact Or.inr (Or.inl hhanded)
    · exact Or.inr (Or.inr ⟨i, x, hkeep pw hpw i x hi⟩)
  sent := fun i ts x hi => h.sent i ts x (hold i ts x hi)

/-- A thread hands over a request and waits for it. -/
theorem hand
    (h : Clients F W e waits none) {r : Request ρ} {x : τ} {i : ι}
    (hplain : ∀ bak, r ≠ .flush_all bak) (halways : ∀ ts, (r.pending ts).Always (W x))
    (hst : e.step (.submit r) = some e')
    (hwaits' : ∀ i' ts x', waits' i' ts x' ↔
      waits i' ts x' ∨ (i' = i ∧ ts = e.clock + 1 ∧ x' = x)) :
    Clients F W e' waits' none := by
  have hflush : e.NoFlush (.submit r) := by
    rintro bak hact
    cases hact
    exact hplain bak rfl
  have hts : ∀ ts, ((r.pending ts).ts = ts ∧ (r.pending ts).flush_all = none) := by
    intro ts
    cases r with
    | flush_all bak => exact absurd rfl (hplain bak)
    | _ => exact ⟨rfl, rfl⟩
  have h₁ : Clients F W e' waits (some (r.pending (e.clock + 1))) := by
    refine h.engine hflush (by simp) hst ?_
    rintro r' hact
    cases hact
    exact Or.inr rfl
  refine
    { timely := h₁.timely, shaped := h₁.shaped, clean := h₁.clean, ledger := h₁.ledger
      flushless := h₁.flushless, unflushed := h₁.unflushed, plain := h₁.plain
      owned := ?_, sent := ?_ }
  · intro pw hpw
    rcases h₁.owned pw hpw with hsilent | hhanded | ⟨i', x', hi⟩
    · exact Or.inl hsilent
    · cases hhanded
      refine Or.inr (Or.inr ⟨i, x, (hwaits' _ _ _).mpr (Or.inr ⟨rfl, ?_, rfl⟩)⟩)
      exact (hts _).1
    · exact Or.inr (Or.inr ⟨i', x', (hwaits' _ _ _).mpr (Or.inl hi)⟩)
  · intro i' ts x' hi
    rcases (hwaits' i' ts x').mp hi with hi | ⟨rfl, rfl, rfl⟩
    · exact h₁.sent i' ts x' hi
    · refine ⟨_, (hts _).1, (hts _).2, halways _, .waiting ?_⟩
      cases Engine.step_cases hst with
      | submit hsub =>
          refine (Engine.batch_step_submits hsub ?_).2
          intro _
          have hok := h.ordinary hflush
          cases r with
          | flush_all bak => exact absurd rfl (hplain bak)
          | _ => exact hok

/-- The events on the family that a step publishes are newer than all others, and
they are commits that threads wait for. -/
theorem events
    (h : Clients F W e waits none) {act : Act ρ} (hflush : e.NoFlush act)
    (hst : e.Step act e') :
    ∃ es, e'.base = e.base ∧ e'.history = e.history ++ es ∧
      (∀ ev ∈ es, ev.isFlush = false) ∧ (∀ ev ∈ es, e.core.visible_ts < ev.ts) ∧
      ∀ ev ∈ es, ∀ k, F k → ev.Writes k →
        ∃ i x ms out, waits i ev.ts x ∧ ev = .commit ev.ts ms ∧ W x ms out := by
  have hok := h.ordinary hflush
  have hb := Engine.batch_step h.timely h.shaped hok hst
  obtain ⟨es, hbase, hhistory, rfl | ⟨j, effect, hbusy, rfl⟩⟩ := hb.history_append
  · exact ⟨[], hbase, hhistory, by simp, by simp, by simp⟩
  · have hj : e.busy.job = some j := by rw [hbusy]; rfl
    obtain ⟨hres, _, hfresh, _, _⟩ := h.timely.busy_facts hj
    have hbatch : e.busy.batch = j.batch := by rw [hbusy]; rfl
    refine ⟨_, hbase, hhistory, ?_, ?_, ?_⟩
    · intro ev hev
      refine Job.events_unflushed ?_ hev
      intro pw hpw
      obtain ⟨a, ha⟩ := Engine.exists_phase_eq_busy e
      refine h.flushless.batch a pw ?_
      rw [ha, hbatch]
      exact hpw
    · intro ev hev
      obtain ⟨pw, hpw, hts⟩ := Job.event_ts_mem hev
      exact hts ▸ hfresh pw hpw
    · intro ev hev k hF hw
      obtain ⟨pw, hpw, hts, hloud⟩ := hres.not_silent hev hF hw
      have hpending : pw ∈ e.pending := List.mem_append_left _ (by rw [hbatch]; exact hpw)
      rcases h.owned pw hpending with hsilent | hhanded | ⟨i, x, hi⟩
      · exact absurd hsilent hloud
      · cases hhanded
      · obtain ⟨pw', hts', hplain, halways, hprogress⟩ := h.sent i _ x hi
        have hmem : ev ∈ e'.history := by
          rw [hhistory]
          exact List.mem_append_right _ hev
        have hevts : ev.ts = pw'.ts := hts.symm.trans hts'.symm
        cases hprogress.step h.timely h.shaped h.clean h.ledger hok hst hplain halways with
        | waiting hun =>
            have hle := (h.ledger.step h.timely h.shaped hok hst).history_le ev hmem
            have hlt := ((h.timely.step hok hst).fresh pw'
              (Engine.unresolved_subset_pending e' hun)).1
            omega
        | resolved hj' hmem' _ =>
            have hle := (h.ledger.step h.timely h.shaped hok hst).history_le ev hmem
            have hlt := ((h.timely.step hok hst).busy_facts hj').2.2.1 pw'
              (Job.fst_mem_batch hmem')
            omega
        | answered _ hevent _ =>
            obtain ⟨ms, out, heq, hW⟩ := hevent ev hmem hevts
            refine ⟨i, x, ms, out, hts ▸ hi, ?_, hW⟩
            rw [hevts]
            exact heq

/-- What the batch in work writes to the family is what a thread waits for. -/
theorem muts
    (h : Clients F W e waits none) {j : Job ρ} (hj : e.busy.job = some j) {m : Mutation}
    (hm : m ∈ j.muts) (hF : F m.key) :
    ∃ i ts x ms out, waits i ts x ∧ e.core.visible_ts < ts ∧ m ∈ ms ∧ W x ms out := by
  obtain ⟨hres, hsorted, hfresh, _, _⟩ := h.timely.busy_facts hj
  obtain ⟨c, hc, hmc⟩ := List.mem_flatMap.mp hm
  obtain ⟨⟨pw, out⟩, he, ⟨r, hr, hmuts⟩, _⟩ := Job.mem_commits.mp hc
  obtain rfl : out = some r := hr
  have hpw : pw ∈ j.batch := Job.fst_mem_batch he
  have hpending : pw ∈ e.pending :=
    List.mem_append_left _ (by rw [Phase.batch_of_job hj]; exact hpw)
  rcases h.owned pw hpending with hsilent | hhanded | ⟨i, x, hi⟩
  · obtain ⟨_, hno⟩ := hres.always he hmuts hsilent
    exact absurd hF (hno m hmc)
  · cases hhanded
  · obtain ⟨pw', hts, _, halways, hprogress⟩ := h.sent i _ x hi
    suffices hsame : pw' = pw by
      subst hsame
      obtain ⟨out, hW⟩ := hres.always he hmuts halways
      exact ⟨i, _, x, c.2, out, hi, hfresh _ hpw, hmc, hW⟩
    cases hprogress with
    | waiting hun =>
        -- what is not resolved stands behind the batch in work
        simp only [Engine.unresolved, hj, Option.isNone_some, Bool.false_eq_true, if_false,
          List.nil_append] at hun
        have horder := h.timely.sorted
        rw [Engine.pending, Phase.batch_of_job hj, List.pairwise_append] at horder
        have hlt := horder.2.2 pw hpw pw' hun
        omega
    | resolved hj' hmem _ =>
        rw [hj] at hj'
        cases hj'
        exact congrArg Prod.fst (hres.eq_of_ts hsorted hmem he hts)
    | answered hle _ _ =>
        have hlt := hfresh pw hpw
        omega

/-- An answer means a commit in the history, or that nothing happened. -/
theorem answer
    (h : Clients F W e waits handed) {i : ι} {ts : Nat} {x : τ} (hi : waits i ts x)
    {rep : Reply ρ} (hrep : (ts, rep) ∈ e.replies) :
    (∃ v out ms, rep = .ok v out ∧ Event.commit ts ms ∈ e.history ∧ W x ms out) ∨
      ¬ rep.IsOk ∧ ∀ ev ∈ e.history, ev.ts ≠ ts := by
  have hle : ts ≤ e.core.visible_ts := h.ledger.replies_le _ hrep
  obtain ⟨pw, rfl, _, _, hprogress⟩ := h.sent i ts x hi
  cases hprogress with
  | waiting hmem => exact absurd rfl (h.not_pending hrep (Engine.unresolved_subset_pending e hmem))
  | resolved hj hmem _ =>
      have := (h.timely.busy_facts hj).2.2.1 pw (Job.fst_mem_batch hmem)
      omega
  | answered _ _ hans => exact hans rep hrep

end Clients
end Clients
end StrikeDB
