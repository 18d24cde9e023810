import StrikeDB.EngineLedger
import StrikeDB.SnapshotReads
import StrikeDB.Transactions

/-!
# StrikeDB: transactions are serializable on their point reads

A read of an open transaction is `Valid` as long as it is still the newest value
of its key, or the chain of the key has a version newer than the snapshot, so
that `resolve` will refuse the commit.  Every step keeps it valid, except that
FLUSHALL removes the chain that would tell: then a transaction that had read a
live value commits although the value is gone.

* `Valid.works`: what one step keeps.
* `Stage`: how far a transaction has come, and what is known about its reads.
* `transactions_serializable`: all runs in which no FLUSHALL wipes a value that an unfinished
  transaction has read.
-/

namespace StrikeDB

section Serializability

variable {ρ : Type}

namespace Engine

/-! ### Reads that still hold -/

/-- A read at `t` still holds, or its commit will be refused. -/
def Valid (s : Engine ρ) (t : Nat) (kv : Key × Option Value) : Prop :=
  s.Stale t kv.1 ∨ s.core.latestValue kv.1 = kv.2

theorem Valid.congr
    {s s' : Engine ρ} {t : Nat} {kv : Key × Option Value} (h : s.Valid t kv)
    (hchain : s'.core.chain kv.1 = s.core.chain kv.1) :
    s'.Valid t kv := by
  simp only [Valid, Stale, FlushCore.latestValue, hchain]
  exact h

/-- A read at the moment it is made. -/
theorem valid_get
    {s : Engine ρ} (hr : s.Reflected) (t : Nat) (k : Key) :
    s.Valid t (k, s.core.get_at k t) := by
  have hk := hr.chains k
  cases hc : s.core.chain k with
  | none =>
      refine Or.inr ?_
      simp only [FlushCore.latestValue, FlushCore.get_at, hc, Option.bind_none]
  | some c =>
      by_cases hlt : t < c.latest_ts
      · exact Or.inl ⟨c, hc, hlt⟩
      · refine Or.inr ?_
        rw [hc] at hk
        simp only [FlushCore.latestValue, FlushCore.get_at, hc, Option.bind_some]
        exact (hk.visible (Nat.le_of_not_lt hlt)).symm

/-- Work on a batch keeps a read valid, unless it wipes the value that was read. -/
theorem Valid.works
    {s s' : Engine ρ} {t : Nat} {kv : Key × Option Value} (h : s.Valid t kv)
    (ht : s.Timely) (hr' : s'.Reflected) (hkept : Kept t s)
    {a : Actor} {io : Io} (hw : Works s a io s')
    (hwipe : ∀ j, s.busy = .wiping j (shard_of kv.1) → kv.2 = none) :
    s'.Valid t kv := by
  cases works_key ht hw kv.1 with
  | same hchain _ => exact h.congr hchain
  | @collected e c hkey hready hc hdead hts hchain _ =>
      -- a collected tombstone is one that the snapshot already saw
      obtain ⟨batch, ready, n, hbusy⟩ := hready
      have hle : c.latest_ts ≤ t := by
        rw [hts]
        exact hkept.guarded.ready batch (e :: ready) n hbusy e (by simp)
      refine Or.inr ?_
      rcases h with ⟨d, hd, hlt⟩ | hval
      · rw [hc, Option.some.injEq] at hd
        subst hd
        omega
      · rw [← hval]
        simp only [FlushCore.latestValue, hchain, hc, Option.bind_none, Option.bind_some, hdead]
  | @wiped j hbusy hchain _ =>
      refine Or.inr ?_
      rw [hwipe j hbusy]
      simp only [FlushCore.latestValue, hchain, Option.bind_none]
  | @pushed j active hj _ hchain hseen =>
      by_cases hwr : ∃ m ∈ j.muts, m.key = kv.1
      · -- what the batch writes is newer than anything published
        refine Or.inl (hr'.stale_of_written hseen hwr ?_ ?_)
        · intro m hm
          exact hkept.guarded.visible.trans_lt ((ht.busy_job_facts hj).2 m hm)
        · intro hnone
          rw [hchain] at hnone
          obtain ⟨_, hno⟩ := FlushCore.pushAll_eq_none hnone
          obtain ⟨m', hm', hkey⟩ := hwr
          exact hno m' hm' hkey
      · refine h.congr ?_
        rw [hchain]
        exact FlushCore.pushAll_of_not_mem _ _ fun m hm hkey => hwr ⟨m, hm, hkey⟩

/-! ### How far a transaction has come -/

/-- The outcome of a commit that writes what its transaction buffered. -/
theorem resolve_txn (core : FlushCore) (ts : Nat) (t : Txn) (overlay : ValueMap) :
    resolve core (t.pending ts : PendingWrite ρ) overlay = .conflict ∨
      resolve core (t.pending ts : PendingWrite ρ) overlay = .apply none none none := by
  by_cases h : (t.reads.map fun k => (k, t.snapshot)).any (readConflicts core overlay) = true
  · exact Or.inl (if_pos h)
  · exact Or.inr (if_neg h)

/-- How far a transaction has come, and what is known about its reads. -/
inductive Stage (s : Engine ρ) (u : TxnSlot) : Prop
  | unfinished
      (hwait : ∀ ts, u.committing = some ts → u.txn.pending ts ∈ s.unresolved)
      (hvalid : ∀ kv ∈ u.obtained, s.Valid u.txn.snapshot kv)
  | refused {ts j} (hts : u.committing = some ts) (hj : s.busy.job = some j)
      (hmem : (u.txn.pending ts, some .conflict) ∈ j.batch.zip j.outcomes)
  | passed {ts j} (hts : u.committing = some ts) (hj : s.busy.job = some j)
      (hmem : (u.txn.pending ts, some (.apply none none none)) ∈ j.batch.zip j.outcomes)
      (hread : ∀ kv ∈ u.obtained, (s.keyspace.commit (j.mutsBefore ts)).value kv.1 = kv.2)
  | answered {ts} (hts : u.committing = some ts) (hle : ts ≤ s.core.visible_ts)
      (hread : ∀ v out, (ts, .ok v out) ∈ s.replies →
        (∀ kv ∈ u.obtained, (s.before ts).value kv.1 = kv.2) ∧
          Event.commit ts (opMuts ts u.txn.writes) ∈ s.history)
      (hrefused : (ts, .conflict) ∈ s.replies → s.Unwritten ts)

/-- The commit of the transaction is not resolved yet. -/
def Unfinished (s : Engine ρ) (u : TxnSlot) : Prop :=
  ∀ ts, u.committing = some ts → u.txn.pending ts ∈ s.write_queue

/-- FLUSHALL takes no value away that an unfinished transaction has read. -/
def WipeSafe (s : Engine ρ) (act : Act ρ) : Prop :=
  ∀ a io j next, act = .work a io → s.phase a = .wiping j next →
    ∀ u ∈ s.txns, s.Unfinished u → ∀ kv ∈ u.obtained, (shard_of kv.1).val = next → kv.2 = none

/-- The step takes nothing away that this transaction has read, if it is unfinished. -/
def Spares (s : Engine ρ) (act : Act ρ) (u : TxnSlot) : Prop :=
  ∀ a io j next, act = .work a io → s.phase a = .wiping j next → s.Unfinished u →
    ∀ kv ∈ u.obtained, (shard_of kv.1).val = next → kv.2 = none

/-- The steps of the runs in question. -/
def Serial (s : Engine ρ) (act : Act ρ) : Prop := s.Ordinary act ∧ s.WipeSafe act

/-- What is known about a transaction: its reads are validated when it commits, and how
far it has come. -/
structure Followed (s : Engine ρ) (u : TxnSlot) : Prop where
  recorded : ∀ kv ∈ u.obtained, kv.1 ∈ u.txn.reads
  stage : s.Stage u

/-- What the runs keep. -/
structure Tracked (s : Engine ρ) : Prop where
  sound : s.Sound
  shaped : s.Shaped
  ledger : s.Ledger
  followed : ∀ u ∈ s.txns, s.Followed u

/-- When its batch is resolved, a commit that is not refused has valid reads. -/
theorem Stage.resolved
    {s s' : Engine ρ} {u : TxnSlot} (ht : s.Timely) (hr : s.Reflected) (hview : SameView s s')
    {batch : List (PendingWrite ρ)} (hbusy : s.busy = .resolving batch)
    (hjob : s'.busy.job =
      some { batch := batch, outcomes := resolveBatch s.core batch, err := none })
    (hrec : ∀ kv ∈ u.obtained, kv.1 ∈ u.txn.reads)
    (hvalid : ∀ kv ∈ u.obtained, s.Valid u.txn.snapshot kv) {ts : Nat}
    (hts : u.committing = some ts) (hmem : u.txn.pending ts ∈ batch) :
    s'.Stage u := by
  set j : Job ρ :=
    { batch := batch, outcomes := resolveBatch s.core batch, err := none } with hjdef
  have hres : j.IsResolved := ⟨s.core, rfl⟩
  have hsorted : batch.Pairwise fun p q => p.ts < q.ts := by
    have := ht.sorted
    rw [pending, hbusy, List.pairwise_append] at this
    exact this.1
  obtain ⟨e, he, heq⟩ : ∃ e ∈ j.batch.zip j.outcomes, e.1 = u.txn.pending ts := by
    have : u.txn.pending ts ∈ (j.batch.zip j.outcomes).map Prod.fst := by
      rw [hres.map_fst]
      exact hmem
    exact List.mem_map.mp this
  obtain ⟨pw, out⟩ := e
  simp only at heq
  subst heq
  cases out with
  | none => simpa [Txn.pending] using (hres.none_iff he).mp rfl
  | some r =>
      obtain ⟨pre, _, _, hrdef, _⟩ := resolveLoop_split he
      rcases resolve_txn s.core ts u.txn (overlayAt s.core (needOverlay batch) ∅ pre) with
        hr' | hr' <;> rw [hr'] at hrdef <;> subst hrdef
      · exact .refused hts hjob he
      · refine .passed hts hjob he ?_
        intro kv hkv
        obtain ⟨hchain, hno⟩ := reads_of_apply hsorted rfl he (kv.1, u.txn.snapshot)
          (List.mem_map.mpr ⟨kv.1, hrec kv hkv, rfl⟩)
        have hnever : ∀ m ∈ j.mutsBefore ts, m.key ≠ kv.1 := by
          intro m hm
          obtain ⟨c, hc, hmc⟩ := List.mem_flatMap.mp hm
          simp only [List.mem_filter, decide_eq_true_eq] at hc
          exact hno c hc.1 hc.2 m hmc
        rw [hview.keyspace,
          Keyspace.value_congr (Keyspace.getElem?_commit_of_not_mem hnever _)]
        -- the shards hold the published keyspace while the batch is resolved
        have hk := (hr.chains kv.1).value
        rw [seen, hbusy] at hk
        rcases hvalid kv hkv with ⟨c, hc, hlt⟩ | hval
        · exact absurd (hchain c hc) (Nat.not_le_of_lt hlt)
        · rw [← hval]
          exact hk.symm

/-- When its batch is published, a transaction gets the answer it deserves. -/
theorem Stage.published
    {s s' : Engine ρ} {u : TxnSlot} (ht : s.Timely) (hsh : s.Shaped) (hl : s.Ledger)
    {j : Job ρ} {effect : Effect}
    (hbusy : s.busy = .publishing j effect) (hbase : s'.base = s.base)
    (hhistory : s'.history = s.history ++ j.events effect)
    (hreplies : s'.replies = s.replies ++ j.replies)
    (hvisible : s'.core.visible_ts = max s.core.visible_ts (batchMaxTs j.batch))
    (hchain : ∀ k, s'.core.chain k = s.core.chain k) (hlog : s'.logged = s.logged)
    {ts : Nat} (hts : u.committing = some ts) {r : Resolved ρ}
    (hmem : (u.txn.pending ts, some r) ∈ j.batch.zip j.outcomes)
    (hr : r = .conflict ∨ (r = .apply none none none ∧
      ∀ kv ∈ u.obtained, (s.keyspace.commit (j.mutsBefore ts)).value kv.1 = kv.2)) :
    s'.Stage u := by
  have hpw := Job.fst_mem_batch hmem
  refine .answered hts ?_ ?_ ?_
  · rw [hvisible]
    exact (le_batchMaxTs hpw).trans (Nat.le_max_right _ _)
  · intro v out hin
    obtain ⟨herr, hne, m, happ⟩ :=
      hsh.effect_of_reply ht hl hbusy hreplies hmem hin
    rcases hr with rfl | ⟨rfl, hread⟩
    · cases happ
    · have hbefore := before_published ht hl hbusy hbase hhistory hne herr hpw rfl
      refine ⟨?_, ?_⟩
      · intro kv hkv
        rw [show ts = (u.txn.pending ts : PendingWrite ρ).ts from rfl, hbefore]
        exact hread kv hkv
      · rw [hhistory]
        exact List.mem_append_right _ (commit_mem_events hne herr hmem rfl rfl)
  · intro hin
    obtain ⟨_, heq⟩ := reply_published ht hl hbusy hreplies hmem hin
    rcases hr with rfl | ⟨rfl, _⟩
    · exact unwritten_published ht hl hbusy hhistory hchain hlog hmem rfl rfl
    · cases herr : j.err <;> simp [Job.reply, herr] at heq

/-- One step of the engine takes a transaction that it leaves alone further. -/
theorem Stage.step
    {s s' : Engine ρ} {act : Act ρ} {u : TxnSlot} (hs : s.Sound) (hsh : s.Shaped)
    (hl : s.Ledger) (hu : u ∈ s.txns) (h : s.Followed u) (hok : s.Ordinary act)
    (hspares : s.Spares act u) (hst : Step s act s') :
    s'.Stage u := by
  have ht := hs.timely
  have hb := batch_step ht hsh hok hst
  have hr' := hs.reflected.step ht hok hst
  have hvalid : (∀ ts, u.committing = some ts → u.txn.pending ts ∈ s.unresolved) →
      (∀ kv ∈ u.obtained, s.Valid u.txn.snapshot kv) →
      ∀ kv ∈ u.obtained, s'.Valid u.txn.snapshot kv := by
    intro hwait hv kv hkv
    by_cases hact : ∃ a io, act = .work a io
    · obtain ⟨a, io, rfl⟩ := hact
      cases hst with
      | work hw =>
          refine (hv kv hkv).works ht hr' (hs.kept u hu) hw ?_
          intro j hbusy
          have hphase : s.phase a = .wiping j (shard_of kv.1) := by
            rw [← hbusy, ht.busy_of_works hw]
          refine hspares a io j _ rfl hphase ?_ kv hkv rfl
          intro ts hts
          have := hwait ts hts
          simpa [unresolved, hbusy, Phase.job] using this
    · refine (hv kv hkv).congr ((client_step hst ?_).1 kv.1)
      intro a io hact'
      exact hact ⟨a, io, hact'⟩
  cases h.stage with
  | unfinished hwait hv =>
      have hv' := hvalid hwait hv
      cases hb with
      | quiet _ _ hun _ => exact .unfinished (fun ts hts => hun (hwait ts hts)) hv'
      | @resolved batch view hbusy hjob hun _ _ =>
          cases hc : u.committing with
          | none => exact .unfinished (by simp [hc]) hv'
          | some ts =>
              have hmem := hwait ts hc
              rw [hun] at hmem
              rcases List.mem_append.mp hmem with hmem | hmem
              · exact .resolved ht hs.reflected view hbusy hjob h.recorded hv hc hmem
              · refine .unfinished ?_ hv'
                intro ts' hts'
                rw [hc, Option.some.injEq] at hts'
                exact hts' ▸ hmem
      | published _ _ _ _ _ _ hun _ _ =>
          exact .unfinished (fun ts hts => by rw [hun]; exact hwait ts hts) hv'
  | @refused ts j hts hj hmem =>
      cases hb with
      | quiet _ hout _ _ =>
          obtain ⟨j', hj', hbatch, houts⟩ := job_of_outcomes hout hj
          exact .refused hts hj' (by rw [hbatch, houts]; exact hmem)
      | resolved _ hbusy _ _ _ _ =>
          rw [hbusy] at hj
          cases hj
      | published hbusy hbase hhistory hreplies hvisible _ _ hchain hlog =>
          rw [hbusy] at hj
          cases hj
          exact .published ht hsh hl hbusy hbase hhistory hreplies hvisible hchain hlog hts hmem
            (Or.inl rfl)
  | @passed ts j hts hj hmem hread =>
      cases hb with
      | quiet view hout _ _ =>
          obtain ⟨j', hj', hbatch, houts⟩ := job_of_outcomes hout hj
          refine .passed hts hj' (by rw [hbatch, houts]; exact hmem) ?_
          have hmuts : j'.mutsBefore ts = j.mutsBefore ts := by
            simp only [Job.mutsBefore, Job.commits, hbatch, houts]
          rw [view.keyspace, hmuts]
          exact hread
      | resolved _ hbusy _ _ _ _ =>
          rw [hbusy] at hj
          cases hj
      | published hbusy hbase hhistory hreplies hvisible _ _ hchain hlog =>
          rw [hbusy] at hj
          cases hj
          exact .published ht hsh hl hbusy hbase hhistory hreplies hvisible hchain hlog hts hmem
            (Or.inr ⟨rfl, hread⟩)
  | @answered ts hts hle hread hrefused =>
      refine .answered hts (hle.trans (visible_ts_mono hst)) ?_ ?_
      · intro v out hin
        obtain ⟨hread, hev⟩ := hread v out (reply_step ht hb hle hin)
        rw [before_step ht hb hle]
        exact ⟨hread, hb.history_subset hev⟩
      · intro hin
        exact (hrefused (reply_step ht hb hle hin)).step ht hb hok hst hle

/-- The reads of an open transaction are valid. -/
theorem Stage.valid
    {s : Engine ρ} {u : TxnSlot} (h : s.Stage u) (hopen : u.committing = none) :
    ∀ kv ∈ u.obtained, s.Valid u.txn.snapshot kv := by
  cases h with
  | unfinished _ hvalid => exact hvalid
  | refused hts _ _ => simp [hopen] at hts
  | passed hts _ _ _ => simp [hopen] at hts
  | answered hts _ _ _ => simp [hopen] at hts

/-- Every step keeps what is known about the transactions with these ids, if it spares
them. -/
theorem followed_step
    {s s' : Engine ρ} {act : Act ρ} {I : Nat → Prop} (hs : s.Sound) (hsh : s.Shaped)
    (hl : s.Ledger) (h : ∀ u ∈ s.txns, I u.id → s.Followed u) (hok : s.Ordinary act)
    (hspares : ∀ u ∈ s.txns, I u.id → s.Spares act u) (hst : Step s act s') :
    ∀ u ∈ s'.txns, I u.id → s'.Followed u := by
  have hold : ∀ u ∈ s.txns, I u.id → s'.Followed u := fun u hu hi =>
    ⟨(h u hu hi).recorded, Stage.step hs hsh hl hu (h u hu hi) hok (hspares u hu hi) hst⟩
  intro u hu hi
  cases hst with
  | begin_ _ =>
      rcases List.mem_cons.mp hu with rfl | hu
      · exact ⟨by simp, .unfinished (by simp) (by simp)⟩
      · exact hold u hu hi
  | @txnGet id key t hslot hopen hun =>
      obtain ⟨htm, _⟩ := slot_mem hslot
      rcases mem_setSlot hu with ⟨rfl, _⟩ | ⟨hu, _⟩
      · have hf := h t htm hi
        refine ⟨?_, .unfinished (by simp [hopen]) ?_⟩
        · intro kv hkv
          rcases List.mem_append.mp hkv with hkv | hkv
          · exact List.mem_append_left _ (hf.recorded kv hkv)
          · rw [List.mem_singleton] at hkv
            rw [hkv]
            simp
        · intro kv hkv
          rcases List.mem_append.mp hkv with hkv | hkv
          · exact (hf.stage.valid hopen kv hkv).congr rfl
          · rw [List.mem_singleton] at hkv
            rw [hkv]
            exact (valid_get hs.reflected t.txn.snapshot key).congr rfl
      · exact hold u hu hi
  | @txnPut id key value t writes hslot hopen =>
      obtain ⟨htm, _⟩ := slot_mem hslot
      rcases mem_setSlot hu with ⟨rfl, _⟩ | ⟨hu, _⟩
      · have hf := h t htm hi
        refine ⟨hf.recorded, .unfinished (by simp [hopen]) ?_⟩
        intro kv hkv
        exact (hf.stage.valid hopen kv hkv).congr rfl
      · exact hold u hu hi
  | @txnCommit id t s₁ hslot hopen hsub =>
      obtain ⟨htm, _⟩ := slot_mem hslot
      obtain ⟨htxns, _, hcore⟩ := submits_txns hsub
      rcases mem_setSlot hu with ⟨rfl, _⟩ | ⟨hu, _⟩
      · have hf := h t htm hi
        refine ⟨hf.recorded, .unfinished ?_ ?_⟩
        · intro ts hts
          rw [Option.some.injEq] at hts
          subst hts
          exact (batch_step_submits hsub fun _ => hok).2
        · intro kv hkv
          refine (hf.stage.valid hopen kv hkv).congr ?_
          show s₁.core.chain kv.1 = _
          rw [hcore]
      · exact hold u (htxns ▸ hu) hi
  | txnDrop _ _ => exact hold u (List.mem_of_mem_eraseP hu) hi
  | submit hsub => exact hold u ((submits_txns hsub).1 ▸ hu) hi
  | work hw => exact hold u ((works_txns hw).1 ▸ hu) hi
  | _ => exact hold u hu hi

/-- Every step of the runs in question keeps all of it. -/
theorem Tracked.step
    {s s' : Engine ρ} {act : Act ρ} (h : s.Tracked) (hok : s.Serial act)
    (hst : Step s act s') :
    s'.Tracked where
  sound := h.sound.step hok.1 hst
  shaped := h.shaped.step hst
  ledger := h.ledger.step h.sound.timely h.shaped hok.1 hst
  followed := fun u hu =>
    followed_step (I := fun _ => True) h.sound h.shaped h.ledger
      (fun v hv _ => h.followed v hv) hok.1
      (fun v hv _ a io j next hact hp => hok.2 a io j next hact hp v hv) hst u hu trivial

theorem sound_start (o : Opened) (sync_writes : Bool) :
    (start o sync_writes : Engine ρ).Sound where
  timely := timely_start o sync_writes
  reflected := reflected_start o sync_writes
  held := ⟨by simp [start], by simp [start]⟩
  published := ⟨guarded_start o sync_writes, fun k w _ hw => o.bound k w hw⟩
  kept := by simp [start]

theorem tracked_start (o : Opened) (sync_writes : Bool) :
    (start o sync_writes : Engine ρ).Tracked where
  sound := sound_start o sync_writes
  shaped := shaped_start o sync_writes
  ledger := ledger_start o sync_writes
  followed := by simp [start]

/-! ### The theorem -/

/-- The transactions that were answered fit the sequential history: a successful
one read what its keys held immediately before it and wrote what it had
buffered, a refused one wrote nothing. -/
structure Serializable (s : Engine ρ) : Prop where
  ordered : s.history.Pairwise fun a b => a.ts < b.ts
  committed : ∀ u ∈ s.txns, ∀ ts v out, u.committing = some ts → (ts, .ok v out) ∈ s.replies →
    (∀ kv ∈ u.obtained, (s.before ts).value kv.1 = kv.2) ∧
      Event.commit ts (opMuts ts u.txn.writes) ∈ s.history
  refused : ∀ u ∈ s.txns, ∀ ts, u.committing = some ts → (ts, .conflict) ∈ s.replies →
    s.Unwritten ts

/-- Whoever has an answer is in the last stage. -/
theorem Stage.last
    {s : Engine ρ} {u : TxnSlot} (h : s.Stage u) (ht : s.Timely) (hl : s.Ledger) {ts : Nat}
    {rep : Reply ρ} (hts : u.committing = some ts) (hrep : (ts, rep) ∈ s.replies) :
    (∀ v out, (ts, .ok v out) ∈ s.replies →
      (∀ kv ∈ u.obtained, (s.before ts).value kv.1 = kv.2) ∧
        Event.commit ts (opMuts ts u.txn.writes) ∈ s.history) ∧
    ((ts, .conflict) ∈ s.replies → s.Unwritten ts) := by
  have hle : ts ≤ s.core.visible_ts := hl.replies_le _ hrep
  have hjob : ∀ j out, s.busy.job = some j →
      (u.txn.pending ts, out) ∈ j.batch.zip j.outcomes → s.core.visible_ts < ts := by
    intro j out hj hmem
    have := (ht.busy_facts hj).2.2.1 _ (Job.fst_mem_batch hmem)
    exact this
  cases h with
  | unfinished hwait _ =>
      have hlt : s.core.visible_ts < ts :=
        (ht.fresh _ (unresolved_subset_pending s (hwait ts hts))).1
      omega
  | refused hts' hj hmem =>
      rw [hts, Option.some.injEq] at hts'
      subst hts'
      have := hjob _ _ hj hmem
      omega
  | passed hts' hj hmem _ =>
      rw [hts, Option.some.injEq] at hts'
      subst hts'
      have := hjob _ _ hj hmem
      omega
  | answered hts' _ hread hrefused =>
      rw [hts, Option.some.injEq] at hts'
      subst hts'
      exact ⟨hread, hrefused⟩

theorem Tracked.serializable {s : Engine ρ} (h : s.Tracked) : s.Serializable where
  ordered := h.ledger.sorted
  committed := fun u hu _ v out hts hrep =>
    ((h.followed u hu).stage.last h.sound.timely h.ledger hts hrep).1 v out hrep
  refused := fun u hu _ hts hrep =>
    ((h.followed u hu).stage.last h.sound.timely h.ledger hts hrep).2 hrep

/-- Transactions are serializable on their point reads in every run in which no
FLUSHALL takes away a value that an unfinished transaction has read. -/
theorem transactions_serializable
    (o : Opened) (sync_writes : Bool) {s : Engine ρ}
    (hrun : Run step Serial (start o sync_writes) s) :
    s.Serializable := by
  refine Tracked.serializable (hrun.invariant ?_ (tracked_start o sync_writes))
  intro s act s' h hok hst
  exact h.step hok (step_cases hst)

/-! ### Runs that execute -/

/-- Nothing is wiped in this step. -/
def wipelessStep (s : Engine ρ) : Act ρ → Bool
  | .work a _ => match s.phase a with
    | .wiping _ _ => false
    | _ => true
  | _ => true

theorem serial_of_steps
    {s : Engine ρ} {act : Act ρ} (h : (s.ordinaryStep act && s.wipelessStep act) = true) :
    s.Serial act := by
  rw [Bool.and_eq_true] at h
  refine ⟨ordinary_of_ordinaryStep h.1, ?_⟩
  rintro a io j next rfl hp
  simp [wipelessStep, hp] at h

/-- A transaction reads a key that was written before. -/
def readWritten : List (Act Unit) :=
  [.submit (.write (Std.ExtTreeMap.ofList [(([1] : Key), Value.int 7)])), .drain] ++ flusherWorks 39 ++
    [.begin_ 0, .txnGet 0 [1]]

/-- It writes another key and commits. -/
def commitOther : List (Act Unit) :=
  [.txnPut 0 [2] (some (.int 1)), .txnCommit 0, .drain] ++ flusherWorks 39

/-- Was a transaction told of success although a read of it does not hold? -/
def misread (s : Engine Unit) : Bool :=
  s.txns.any fun u => match u.committing with
    | none => false
    | some ts =>
        s.replies.any (fun r => match r with
          | (t, .ok _ _) => t = ts
          | _ => false) &&
          u.obtained.any fun kv => decide ((s.before ts).value kv.1 ≠ kv.2)

theorem not_serializable_of_misread {s : Engine Unit} (h : s.misread = true) :
    ¬ s.Serializable := by
  intro hs
  obtain ⟨u, hu, hmis⟩ := List.any_eq_true.mp h
  cases hts : u.committing with
  | none => simp [hts] at hmis
  | some ts =>
      simp only [hts, Bool.and_eq_true, List.any_eq_true, decide_eq_true_eq] at hmis
      obtain ⟨⟨r, hr, hok⟩, kv, hkv, hne⟩ := hmis
      obtain ⟨t, rep⟩ := r
      cases rep with
      | ok v out =>
          simp only [decide_eq_true_eq] at hok
          exact hne ((hs.committed u hu ts v out hts (hok ▸ hr)).1 kv hkv)
      | _ => simp at hok

/-- A FLUSHALL between the read and the commit goes unnoticed. -/
theorem flush_between_read_and_commit :
    ∃ s : Engine Unit, Run step Ordinary (start Opened.fresh true) s ∧ ¬ s.Serializable := by
  have hrun : (exec step ordinaryStep (start Opened.fresh true)
      (readWritten ++ [.submit (.flush_all "bak"), .drain] ++ flusherWorks 39 ++
        commitOther)).any misread = true := by
    decide +kernel
  obtain ⟨hs, hmis⟩ := (Option.any_eq_true_iff_get _ _).mp hrun
  exact ⟨_, .of_exec (fun _ _ => ordinary_of_ordinaryStep) (Option.some_get hs).symm,
    not_serializable_of_misread hmis⟩

theorem transactions_serializable_after_commit :
    ∃ s : Engine Unit, (∃ u ∈ s.txns, u.obtained = [([1], some (.int 7))]) ∧
      s.replies.length = 2 ∧ s.Serializable := by
  have hrun : (exec step (fun s act => ordinaryStep s act && wipelessStep s act)
      (start Opened.fresh true) (readWritten ++ commitOther)).any (fun s =>
        s.txns.any (fun u => u.obtained = [([1], some (.int 7))]) && s.replies.length = 2) =
      true := by
    decide +kernel
  obtain ⟨hs, hprop⟩ := (Option.any_eq_true_iff_get _ _).mp hrun
  simp only [Bool.and_eq_true, List.any_eq_true, decide_eq_true_eq] at hprop
  exact ⟨_, hprop.1, hprop.2, transactions_serializable Opened.fresh true
    (.of_exec (fun _ _ => serial_of_steps) (Option.some_get hs).symm)⟩

end Engine
end Serializability
end StrikeDB
