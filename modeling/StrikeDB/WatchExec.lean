import StrikeDB.Server
import StrikeDB.Serializability

/-!
# StrikeDB: EXEC notices what happened to the watched keys

A watch of an entry at a snapshot is `Noted` if the chain of the entry has a
newer version, so that EXEC will answer nil, or if nothing in the history after
the snapshot has changed the entry.  Collecting the tombstone of a watched entry
and wiping its shard remove the chain, and EXEC then takes the entry for one
that was never written.

* `Noted.works`: every other step keeps a watch noted.
* `exec_sound`: all runs in which no watched entry loses its trace.
-/

namespace StrikeDB

namespace Engine

section Traces

variable {ρ : Type}

/-- The event changed the entry: a commit wrote it, or a FLUSHALL removed it. -/
def Changed (s : Engine ρ) (x : Key) : Event → Prop
  | .commit _ muts => ∃ m ∈ muts, m.key = x
  | .flush ts => (s.before ts).value x ≠ none

/-- No event after the snapshot has changed the entry. -/
def Undisturbed (s : Engine ρ) (snap : Nat) (x : Key) : Prop :=
  ∀ ev ∈ s.history, snap < ev.ts → ¬ s.Changed x ev

def Noted (s : Engine ρ) (snap : Nat) (x : Key) : Prop :=
  s.Stale snap x ∨ s.Undisturbed snap x

/-- The next step of thread `a` does not remove the trace of a change: no sweep
takes a tombstone newer than the snapshot, no FLUSHALL a chain with a newer
version or a live entry, and none has a batch that writes the entry. -/
def KeepsTrace (s : Engine ρ) (a : Actor) (snap : Nat) (x : Key) : Prop :=
  match s.phase a with
  | .sweeping _ (e :: _) _ => e.1 = x → s.core.isDead e.1 e.2 = true → e.2 ≤ snap
  | .wiping _ next => (shard_of x).val = next → ¬ s.Stale snap x
  | .publishing j .wiped => s.keyspace.value x = none ∧ ∀ ev ∈ j.events .wiped, ¬ ev.Writes x
  | _ => True

theorem value_after_of_not_writes
    {es : List Event} {x : Key} (hw : ∀ e ∈ es, ¬ e.Writes x) {ks : Keyspace}
    (h : ks.value x = none) :
    (ks.after es).value x = none := by
  induction es generalizing ks with
  | nil => exact h
  | cons e es ih =>
      rw [Keyspace.after_cons]
      refine ih (fun e' he' => hw e' (List.mem_cons_of_mem _ he')) ?_
      cases e with
      | commit ts muts =>
          have hno : ∀ m ∈ muts, m.key ≠ x := fun m hm hkey =>
            hw (.commit ts muts) (by simp) ⟨m, hm, hkey⟩
          rw [← h]
          exact Keyspace.value_congr (Keyspace.getElem?_commit_of_not_mem hno ks)
      | flush ts => simp [Event.apply, Keyspace.value]

/-- What an event has changed does not depend on later ones. -/
theorem changed_step
    {s s' : Engine ρ} (ht : s.Timely) (hb : BatchStep s s') {ev : Event}
    (hle : ev.ts ≤ s.core.visible_ts) (x : Key) :
    s'.Changed x ev ↔ s.Changed x ev := by
  cases ev with
  | commit ts muts => exact Iff.rfl
  | flush ts =>
      have hts : ts ≤ s.core.visible_ts := hle
      simp only [Changed, before_step ht hb hts]

theorem Undisturbed.step
    {s s' : Engine ρ} {snap : Nat} {x : Key} (h : s.Undisturbed snap x) (ht : s.Timely)
    (hl : s.Ledger) (hb : BatchStep s s')
    (hnew : ∀ ev ∈ s'.history, ev ∉ s.history → ¬ s'.Changed x ev) :
    s'.Undisturbed snap x := by
  intro ev hev hlt
  by_cases hold : ev ∈ s.history
  · rw [changed_step ht hb (hl.history_le ev hold)]
    exact h ev hold hlt
  · exact hnew ev hev hold

theorem Noted.congr
    {s s' : Engine ρ} {snap : Nat} {x : Key} (h : s.Noted snap x)
    (hchain : s'.core.chain x = s.core.chain x) (hhistory : s'.history = s.history)
    (hbase : s'.base = s.base) :
    s'.Noted snap x := by
  rcases h with ⟨c, hc, hlt⟩ | hun
  · exact Or.inl ⟨c, hchain ▸ hc, hlt⟩
  · refine Or.inr ?_
    intro ev hev hlt
    have := hun ev (hhistory ▸ hev) hlt
    cases ev with
    | commit ts muts => exact this
    | flush ts =>
        simp only [Changed, before, hhistory, hbase] at this ⊢
        exact this

/-- A published FLUSHALL that found nothing leaves the entry undisturbed. -/
theorem Undisturbed.wiped
    {s s' : Engine ρ} {snap : Nat} {x : Key} (h : s.Undisturbed snap x) (ht : s.Timely)
    (hl : s.Ledger) (hb : BatchStep s s') {j : Job ρ}
    (hbusy : s.busy = .publishing j .wiped) (hbase : s'.base = s.base)
    (hhistory : s'.history = s.history ++ j.events .wiped)
    (hnone : s.keyspace.value x = none) (hno : ∀ ev ∈ j.events .wiped, ¬ ev.Writes x) :
    s'.Undisturbed snap x := by
  refine h.step ht hl hb ?_
  intro ev hev hold
  rw [hhistory] at hev
  have hev : ev ∈ j.events .wiped := (List.mem_append.mp hev).resolve_left hold
  cases ev with
  | commit ts muts => exact hno _ hev
  | flush ts =>
      -- before this FLUSHALL there are the old history and events that leave the entry alone
      obtain ⟨_, _, hfresh, _, _⟩ := ht.busy_facts (j := j) (by rw [hbusy]; rfl)
      obtain ⟨pw, hpw, hts⟩ := Job.event_ts_mem hev
      have hall : s.history.filter (fun e => e.ts < ts) = s.history := by
        rw [List.filter_eq_self]
        intro e he
        have := hl.history_le e he
        have := hfresh pw hpw
        simp only [Event.ts] at hts
        simp only [decide_eq_true_eq]
        omega
      simp only [Changed, ne_eq, not_not]
      rw [before, hbase, hhistory, List.filter_append, hall, Keyspace.after_append]
      exact value_after_of_not_writes (fun e he => hno e (List.mem_filter.mp he).1) hnone

/-- Work on a batch keeps a watch noted, unless it removes its trace. -/
theorem Noted.works
    {s s' : Engine ρ} {snap : Nat} {x : Key} (h : s.Noted snap x) (hs : s.Sound)
    (hsh : s.Shaped) (hl : s.Ledger) (hsnap : snap ≤ s.core.visible_ts)
    {a : Actor} {io : Io} (hw : Works s a io s') (hr' : s'.Reflected)
    (hkeep : s.KeepsTrace a snap x) :
    s'.Noted snap x := by
  have ht := hs.timely
  have hphase := ht.busy_of_works hw
  have hb := batch_step_works ht hsh hw
  -- a change in the history comes with the end of a batch
  have hundisturbed : s.Undisturbed snap x → s'.Noted snap x := by
    intro hun
    cases hb with
    | quiet view hout hlist hlog =>
        refine Or.inr (hun.step ht hl (.quiet view hout hlist hlog) ?_)
        intro ev hev hold
        exact absurd (view.history ▸ hev) hold
    | resolved view hbusy hjob hlist hcore hlog =>
        refine Or.inr (hun.step ht hl (.resolved view hbusy hjob hlist hcore hlog) ?_)
        intro ev hev hold
        exact absurd (view.history ▸ hev) hold
    | @published j effect hbusy hbase hhistory hreplies hvisible hjob hlist hchain hlog =>
        have hb' : BatchStep s s' :=
          .published hbusy hbase hhistory hreplies hvisible hjob hlist hchain hlog
        cases effect with
        | nothing =>
            refine Or.inr (hun.step ht hl hb' ?_)
            intro ev hev hold
            rw [hhistory, Job.events_nothing, List.append_nil] at hev
            exact absurd hev hold
        | wiped =>
            rw [KeepsTrace, ← hphase, hbusy] at hkeep
            exact Or.inr (hun.wiped ht hl hb' hbusy hbase hhistory hkeep.1 hkeep.2)
        | applied =>
            by_cases hwr : ∃ m ∈ j.muts, m.key = x
            · obtain ⟨hsorted, hfresh⟩ := ht.busy_job_facts (j := j) (by rw [hbusy]; rfl)
              have hseen : s.seen x = (s.keyspace.commit j.muts)[x]? := by
                rw [seen, hbusy]
                rfl
              -- the newest write is not published, so its chain was not collected
              have hchainx : s.core.chain x ≠ none := by
                intro hnone
                obtain ⟨m, hm, _, heq⟩ := Keyspace.getElem?_commit_of_mem hwr s.keyspace
                have := hs.published.swept x _ hnone (hseen.trans heq)
                have := hfresh m hm
                simp only at *
                omega
              obtain ⟨c, hc, hlt⟩ := hs.reflected.stale_of_written hseen hwr
                (fun m hm => hsnap.trans_lt (hfresh m hm)) hchainx
              exact Or.inl ⟨c, by rw [hchain, hc], hlt⟩
            · refine Or.inr (hun.step ht hl hb' ?_)
              intro ev hev hold
              rw [hhistory, Job.events_applied] at hev
              obtain ⟨c, hc, rfl⟩ :=
                List.mem_map.mp ((List.mem_append.mp hev).resolve_left hold)
              rintro ⟨m, hm, hkey⟩
              exact hwr ⟨m, List.mem_flatMap.mpr ⟨c, hc, hm⟩, hkey⟩
  rcases h with hstale | hun
  · obtain ⟨c, hc, hlt⟩ := hstale
    cases works_key ht hw x with
    | same hchain _ => exact Or.inl ⟨c, by rw [hchain, hc], hlt⟩
    | @collected e d hkey hready hd hdead hts hchain _ =>
        obtain ⟨batch, ready, n, hbusy⟩ := hready
        rw [hc, Option.some.injEq] at hd
        subst hd
        rw [KeepsTrace, ← hphase, hbusy] at hkeep
        have := hkeep hkey ((FlushCore.isDead_iff _ _ _).mpr ⟨c, hkey ▸ hc, hdead, hts⟩)
        omega
    | @wiped j hbusy hchain _ =>
        rw [KeepsTrace, ← hphase, hbusy] at hkeep
        exact absurd ⟨c, hc, hlt⟩ (hkeep rfl)
    | @pushed j active hj hold hchain hseen =>
        by_cases hwr : ∃ m ∈ j.muts, m.key = x
        · refine Or.inl (hr'.stale_of_written hseen hwr ?_ ?_)
          · intro m hm
            exact hsnap.trans_lt ((ht.busy_job_facts hj).2 m hm)
          · intro hnone
            rw [hchain] at hnone
            exact absurd (FlushCore.pushAll_eq_none hnone).1 (by simp [hc])
        · refine Or.inl ⟨c, ?_, hlt⟩
          rw [hchain, hc]
          exact FlushCore.pushAll_of_not_mem _ _ fun m hm hkey => hwr ⟨m, hm, hkey⟩
  · exact hundisturbed hun

end Traces

end Engine

namespace Server

/-- A connection watches this key since this snapshot, or a queued EXEC does. -/
def Watching (s : Server) (w : Bytes × Nat) : Prop :=
  (∃ c, w ∈ (s.conns c).watches) ∨
    ∃ x ∈ s.execs, x.pending ∈ s.engine.unresolved ∧ w ∈ x.watches

/-- The steps of the runs in question: FLUSHALL runs apart from the commits
around it, and no watched entry loses the trace of a change. -/
def Traced (s : Server) : ServerAct → Prop
  | .engine act => s.engine.Ordinary act ∧ ∀ a io, act = .work a io →
      ∀ w, s.Watching w → ∀ x ∈ watchKeys w.1, s.engine.KeepsTrace a w.2 x
  | .conn _ (.exec _) => s.engine.Ordinary (.submit (.op (.ret .nil)))
  | .conn _ _ => True

/-- How far an EXEC has come, and what is known about its watches. -/
inductive Stage (e : Engine Resp) (x : Exec) : Prop
  | waiting (hmem : x.pending ∈ e.unresolved)
      (hnoted : ∀ w ∈ x.watches, ∀ k ∈ watchKeys w.1, e.Noted w.2 k)
  | aborted {j} (hj : e.busy.job = some j)
      (hmem : (x.pending, some (.apply (some []) none (some .nil))) ∈ j.batch.zip j.outcomes)
  | passed {j ms l} (hj : e.busy.job = some j)
      (hmem : (x.pending, some (.apply (some ms) none (some (.array l)))) ∈
        j.batch.zip j.outcomes)
      (hun : ∀ w ∈ x.watches, ∀ k ∈ watchKeys w.1, e.Undisturbed w.2 k)
      (hno : ∀ w ∈ x.watches, ∀ k ∈ watchKeys w.1, ∀ m ∈ j.mutsBefore x.ts, m.key ≠ k)
  | answered (hle : x.ts ≤ e.core.visible_ts)
      (hrep : ∀ v out, (x.ts, .ok v out) ∈ e.replies →
        (out = some .nil ∧ Event.commit x.ts [] ∈ e.history) ∨
          (∃ l, out = some (.array l)) ∧ ∀ w ∈ x.watches, ∀ k ∈ watchKeys w.1,
            ∀ ev ∈ e.history, w.2 < ev.ts → ev.ts < x.ts → ¬ e.Changed k ev)

/-- What the runs keep. -/
structure Tracked (s : Server) : Prop where
  sound : s.engine.Sound
  shaped : s.engine.Shaped
  ledger : s.engine.Ledger
  conns : ∀ c, ∀ w ∈ (s.conns c).watches, w.2 ≤ s.engine.core.visible_ts ∧
    ∀ k ∈ watchKeys w.1, s.engine.Noted w.2 k
  snaps : ∀ x ∈ s.execs, ∀ w ∈ x.watches, w.2 ≤ s.engine.core.visible_ts
  stage : ∀ x ∈ s.execs, Stage s.engine x

/-- An entry with a version up to the snapshot, read before the commits of its
batch, has not changed. -/
theorem undisturbed_of_version
    {e : Engine Resp} {overlay : ValueMap} {snap : Nat} {k : Key} (hnoted : e.Noted snap k)
    (hsnap : snap < 2 ^ 64 - 1)
    (hver : OpStore.version e.core overlay OpState.init k ≤ snap) :
    e.Undisturbed snap k ∧ k ∉ overlay := by
  have hover : k ∉ overlay := by
    intro hmem
    rw [OpStore.version, if_pos (Or.inr hmem)] at hver
    omega
  refine ⟨?_, hover⟩
  rcases hnoted with ⟨c, hc, hlt⟩ | hun
  · have hempty : k ∉ OpState.init.writes := by simp [OpState.init]
    rw [OpStore.version, if_neg (by tauto), FlushCore.key_version, hc] at hver
    simp only at hver
    omega
  · exact hun

/-- When its batch is resolved, an EXEC that runs its queue has watches that
nothing has disturbed. -/
theorem Stage.resolved
    {e e' : Engine Resp} {x : Exec} (ht : e.Timely) (hb : e.BatchStep e')
    (hview : e.SameView e') (hl : e.Ledger) {batch : List (PendingWrite Resp)}
    (hbusy : e.busy = .resolving batch)
    (hjob : e'.busy.job =
      some { batch := batch, outcomes := resolveBatch e.core batch, err := none })
    (hnoted : ∀ w ∈ x.watches, ∀ k ∈ watchKeys w.1, e.Noted w.2 k)
    (hsnap : ∀ w ∈ x.watches, w.2 ≤ e.core.visible_ts) (hmem : x.pending ∈ batch) :
    Stage e' x := by
  set j : Job Resp :=
    { batch := batch, outcomes := resolveBatch e.core batch, err := none } with hjdef
  have hres : j.IsResolved := ⟨e.core, rfl⟩
  have hsorted : batch.Pairwise fun p q => p.ts < q.ts := by
    have := ht.sorted
    rw [Engine.pending, hbusy, List.pairwise_append] at this
    exact this.1
  obtain ⟨⟨pw, out⟩, he, heq⟩ : ∃ e ∈ j.batch.zip j.outcomes, e.1 = x.pending := by
    have : x.pending ∈ (j.batch.zip j.outcomes).map Prod.fst := by
      rw [hres.map_fst]
      exact hmem
    exact List.mem_map.mp this
  simp only at heq
  subst heq
  cases out with
  | none => simpa [Exec.pending, Request.pending] using (hres.none_iff he).mp rfl
  | some r =>
      obtain ⟨pre, post, hbatch, hr, later, hzip, hlater⟩ := resolveLoop_split he
      have hneed : needOverlay batch = true :=
        List.any_eq_true.mpr ⟨x.pending, hmem, by simp [Exec.pending, Request.pending]⟩
      set overlay := overlayAt e.core (needOverlay batch) ∅ pre with hover
      have hresolve : r = .apply
          (some (opMuts x.ts (runOp e.core overlay x.op OpState.init).2.writes)) none
          (some (runOp e.core overlay x.op OpState.init).1) := hr
      rcases runOp_exec_multi e.core overlay x.now x.cmds x.watches with hnil | ⟨⟨l, hl'⟩, hver⟩
      · have hout : r = .apply (some []) none (some .nil) := by
          rw [hresolve, Exec.op, hnil]
          rfl
        exact .aborted hjob (hout ▸ he)
      · have hfacts : ∀ w ∈ x.watches, ∀ k ∈ watchKeys w.1,
            e.Undisturbed w.2 k ∧ k ∉ overlay := by
          intro w hw k hk
          refine undisturbed_of_version (hnoted w hw k hk) ?_ (hver w hw k hk)
          have := hsnap w hw
          have := ht.visible_le
          have := ht.clock_lt
          omega
        rw [Exec.op, hl'] at hresolve
        refine .passed hjob (hresolve ▸ he) ?_ ?_
        · intro w hw k hk
          refine (hfacts w hw k hk).1.step ht hl hb ?_
          intro ev hev hold
          exact absurd (hview.history ▸ hev) hold
        · intro w hw k hk m hm
          obtain ⟨c, hc, hmc⟩ := List.mem_flatMap.mp hm
          simp only [List.mem_filter, decide_eq_true_eq] at hc
          exact not_written_before hsorted hneed hbatch hzip hlater (hfacts w hw k hk).2 c hc.1
            hc.2 m hmc

/-- When its batch is published, an EXEC gets the answer it deserves. -/
theorem Stage.published
    {e e' : Engine Resp} {x : Exec} (ht : e.Timely) (hsh : e.Shaped) (hl : e.Ledger)
    (hb : e.BatchStep e') {j : Job Resp} {effect : Effect}
    (hbusy : e.busy = .publishing j effect)
    (hhistory : e'.history = e.history ++ j.events effect)
    (hreplies : e'.replies = e.replies ++ j.replies)
    (hvisible : e'.core.visible_ts = max e.core.visible_ts (batchMaxTs j.batch))
    {ms : List Mutation} {out : Resp}
    (hmem : (x.pending, some (.apply (some ms) none (some out))) ∈ j.batch.zip j.outcomes)
    (hfacts : (out = .nil ∧ ms = []) ∨ (∃ l, out = .array l) ∧
      ∀ w ∈ x.watches, ∀ k ∈ watchKeys w.1, e.Undisturbed w.2 k ∧
        ∀ m ∈ j.mutsBefore x.ts, m.key ≠ k) :
    Stage e' x := by
  have hpw := Job.fst_mem_batch hmem
  obtain ⟨_, hsorted, _, _, hlast⟩ := ht.busy_facts (j := j) (by rw [hbusy]; rfl)
  refine .answered ?_ ?_
  · rw [hvisible]
    exact (le_batchMaxTs hpw).trans (Nat.le_max_right _ _)
  · intro v o hin
    obtain ⟨herr, hne, m, happ⟩ := hsh.effect_of_reply ht hl hbusy hreplies hmem hin
    cases happ
    rcases hfacts with ⟨rfl, rfl⟩ | ⟨⟨l, rfl⟩, hwatch⟩
    · refine Or.inl ⟨rfl, ?_⟩
      rw [hhistory]
      exact List.mem_append_right _ (Engine.commit_mem_events hne herr hmem rfl rfl)
    · refine Or.inr ⟨⟨l, rfl⟩, ?_⟩
      intro w hw k hk ev hev hlt hbefore
      obtain ⟨hun, hno⟩ := hwatch w hw k hk
      by_cases hold : ev ∈ e.history
      · rw [Engine.changed_step ht hb (hl.history_le ev hold)]
        exact hun ev hold hlt
      · -- an event of the same batch, which is one of its earlier commits
        rw [hhistory] at hev
        have hev : ev ∈ (j.events effect).filter fun e => e.ts < x.pending.ts := by
          refine List.mem_filter.mpr ⟨(List.mem_append.mp hev).resolve_left hold, ?_⟩
          exact decide_eq_true hbefore
        rw [Job.events_before hsorted hlast hne herr hpw rfl] at hev
        obtain ⟨c, hc, rfl⟩ := List.mem_map.mp hev
        rintro ⟨m, hm, hkey⟩
        exact hno m (List.mem_flatMap.mpr ⟨c, hc, hm⟩) hkey

/-- One step of the engine takes an EXEC further. -/
theorem Stage.step
    {e e' : Engine Resp} {x : Exec} {act : Act Resp} (h : Stage e x) (hs : e.Sound)
    (hsh : e.Shaped) (hl : e.Ledger) (hok : e.Ordinary act) (hst : e.Step act e')
    (hsnap : ∀ w ∈ x.watches, w.2 ≤ e.core.visible_ts)
    (hnoted : x.pending ∈ e.unresolved → ∀ w ∈ x.watches, ∀ k ∈ watchKeys w.1,
      e.Noted w.2 k → e'.Noted w.2 k) :
    Stage e' x := by
  have ht := hs.timely
  have hb := Engine.batch_step ht hsh hok hst
  cases h with
  | waiting hmem hn =>
      have hn' : ∀ w ∈ x.watches, ∀ k ∈ watchKeys w.1, e'.Noted w.2 k :=
        fun w hw k hk => hnoted hmem w hw k hk (hn w hw k hk)
      cases hb with
      | quiet _ _ hun _ => exact .waiting (hun hmem) hn'
      | resolved view hbusy hjob hun hcore hlog =>
          rw [hun] at hmem
          rcases List.mem_append.mp hmem with hmem | hmem
          · exact .resolved ht (.resolved view hbusy hjob hun hcore hlog) view hl hbusy hjob hn
              hsnap hmem
          · exact .waiting hmem hn'
      | published _ _ _ _ _ _ hun _ _ => exact .waiting (by rw [hun]; exact hmem) hn'
  | aborted hj hmem =>
      cases hb with
      | quiet _ hout _ _ =>
          obtain ⟨j', hj', hbatch, houts⟩ := Engine.job_of_outcomes hout hj
          exact .aborted hj' (by rw [hbatch, houts]; exact hmem)
      | resolved _ hbusy _ _ _ _ =>
          rw [hbusy] at hj
          cases hj
      | published hbusy hbase hhistory hreplies hvisible hjob hun hchain hlog =>
          rw [hbusy] at hj
          cases hj
          exact .published ht hsh hl
            (.published hbusy hbase hhistory hreplies hvisible hjob hun hchain hlog) hbusy
            hhistory hreplies hvisible hmem (Or.inl ⟨rfl, rfl⟩)
  | @passed j ms l hj hmem hun hno =>
      cases hb with
      | quiet view hout hlist hlog =>
          obtain ⟨j', hj', hbatch, houts⟩ := Engine.job_of_outcomes hout hj
          have hmuts : j'.mutsBefore x.ts = j.mutsBefore x.ts := by
            simp only [Job.mutsBefore, Job.commits, hbatch, houts]
          refine .passed hj' (by rw [hbatch, houts]; exact hmem) ?_ (by rw [hmuts]; exact hno)
          intro w hw k hk
          refine (hun w hw k hk).step ht hl (.quiet view hout hlist hlog) ?_
          intro ev hev hold
          exact absurd (view.history ▸ hev) hold
      | resolved _ hbusy _ _ _ _ =>
          rw [hbusy] at hj
          cases hj
      | published hbusy hbase hhistory hreplies hvisible hjob hlist hchain hlog =>
          rw [hbusy] at hj
          cases hj
          exact .published ht hsh hl
            (.published hbusy hbase hhistory hreplies hvisible hjob hlist hchain hlog) hbusy
            hhistory hreplies hvisible hmem
            (Or.inr ⟨⟨l, rfl⟩, fun w hw k hk => ⟨hun w hw k hk, hno w hw k hk⟩⟩)
  | answered hle hrep =>
      refine .answered (hle.trans (Engine.visible_ts_mono hst)) ?_
      intro v out hin
      rcases hrep v out (Engine.reply_step ht hb hle hin) with ⟨rfl, hev⟩ | ⟨hout, hwatch⟩
      · exact Or.inl ⟨rfl, hb.history_subset hev⟩
      · refine Or.inr ⟨hout, ?_⟩
        intro w hw k hk ev hev hlt hbefore
        have hevle : ev.ts ≤ e.core.visible_ts := hbefore.le.trans hle
        rw [Engine.changed_step ht hb hevle]
        exact hwatch w hw k hk ev (Engine.event_step ht hb hevle hev) hlt hbefore

/-- A step of the engine keeps the watches that are still of use noted. -/
theorem Tracked.noted
    {s : Server} (h : s.Tracked) {act : Act Resp} {e : Engine Resp}
    (hok : s.engine.Ordinary act) (hst : s.engine.Step act e)
    {w : Bytes × Nat} (hsnap : w.2 ≤ s.engine.core.visible_ts)
    (hkeep : ∀ a io, act = .work a io → ∀ x ∈ watchKeys w.1, s.engine.KeepsTrace a w.2 x)
    {k : Key} (hk : k ∈ watchKeys w.1) (hnoted : s.engine.Noted w.2 k) :
    e.Noted w.2 k := by
  by_cases hact : ∃ a io, act = .work a io
  · obtain ⟨a, io, rfl⟩ := hact
    have hr' := h.sound.reflected.step h.sound.timely hok hst
    cases hst with
    | work hw =>
        exact hnoted.works h.sound h.shaped h.ledger hsnap hw hr' (hkeep a io rfl k hk)
  · obtain ⟨hchain, hhistory, hbase⟩ := Engine.client_step hst fun a io heq => hact ⟨a, io, heq⟩
    exact hnoted.congr (hchain k) hhistory hbase

/-- A step of the engine keeps all of it, whatever the connections do. -/
theorem Tracked.engine
    {s : Server} (h : s.Tracked) {act : Act Resp} {e : Engine Resp}
    (hok : s.engine.Ordinary act) (hst : s.engine.Step act e)
    (hkeep : ∀ a io, act = .work a io → ∀ w, s.Watching w → ∀ x ∈ watchKeys w.1,
      s.engine.KeepsTrace a w.2 x) :
    ({ s with engine := e } : Server).Tracked where
  sound := h.sound.step hok hst
  shaped := h.shaped.step hst
  ledger := h.ledger.step h.sound.timely h.shaped hok hst
  conns := by
    intro c w hw
    obtain ⟨hsnap, hnoted⟩ := h.conns c w hw
    refine ⟨hsnap.trans (Engine.visible_ts_mono hst), ?_⟩
    intro k hk
    exact h.noted hok hst hsnap (fun a io heq => hkeep a io heq w (Or.inl ⟨c, hw⟩)) hk
      (hnoted k hk)
  snaps := fun x hx w hw => (h.snaps x hx w hw).trans (Engine.visible_ts_mono hst)
  stage := by
    intro x hx
    refine (h.stage x hx).step h.sound h.shaped h.ledger hok hst (h.snaps x hx) ?_
    intro hmem w hw k hk hnoted
    exact h.noted hok hst (h.snaps x hx w hw)
      (fun a io heq => hkeep a io heq w (Or.inr ⟨x, hx, hmem, hw⟩)) hk hnoted

/-- Every step of the runs in question keeps all of it. -/
theorem Tracked.step
    {s s' : Server} {act : ServerAct} (h : s.Tracked) (hok : s.Traced act)
    (hst : s.Step act s') :
    s'.Tracked := by
  cases hst with
  | engine hst => exact h.engine hok.1 hst hok.2
  | @exec c now cmds e hst =>
      have hplain : s.engine.Ordinary (.submit (.op (exec_multi now cmds (s.conns c).watches))) :=
        hok
      have h₁ := h.engine hplain hst (by simp)
      refine
        { sound := h₁.sound, shaped := h₁.shaped, ledger := h₁.ledger
          conns := ?_, snaps := ?_, stage := ?_ }
      · intro c' w hw
        by_cases hc : c' = c
        · subst hc
          simp [setConn] at hw
        · simp only [setConn, Function.update_of_ne hc] at hw
          exact h₁.conns c' w hw
      · intro x hx w hw
        rcases List.mem_cons.mp hx with rfl | hx
        · exact (h₁.conns c w hw).1
        · exact h₁.snaps x hx w hw
      · intro x hx
        rcases List.mem_cons.mp hx with rfl | hx
        · refine .waiting ?_ fun w hw => (h₁.conns c w hw).2
          cases hst with
          | submit hsub => exact (Engine.batch_step_submits hsub fun _ => hplain).2
        · exact h₁.stage x hx
  | @conn c cmd st hwatch =>
      refine
        { sound := h.sound, shaped := h.shaped, ledger := h.ledger
          conns := ?_, snaps := h.snaps, stage := h.stage }
      intro c' w hw
      by_cases hc : c' = c
      · subst hc
        simp only [setConn, Function.update_self] at hw
        rcases hwatch w hw with hw | hsnap
        · exact h.conns c' w hw
        · -- nothing that is published is newer than a fresh snapshot
          refine ⟨hsnap.le, fun k hk => Or.inr ?_⟩
          intro ev hev hlt
          have := h.ledger.history_le ev hev
          omega
      · simp only [setConn, Function.update_of_ne hc] at hw
        exact h.conns c' w hw

/-- A server right after its engine was opened. -/
def start (o : Opened) (sync_writes : Bool) : Server :=
  { engine := Engine.start o sync_writes
    conns := fun _ => { multi := none, multi_err := false, watches := [] }
    execs := [] }

theorem tracked_start (o : Opened) (sync_writes : Bool) : (start o sync_writes).Tracked where
  sound := Engine.sound_start o sync_writes
  shaped := Engine.shaped_start o sync_writes
  ledger := Engine.ledger_start o sync_writes
  conns := by simp [start]
  snaps := by simp [start]
  stage := by simp [start]

/-- An EXEC that answers with the results of its queue was preceded by no event
that changed a watched key after its WATCH; any other success is nil, and its
commit wrote nothing. -/
structure ExecSound (s : Server) : Prop where
  ran : ∀ x ∈ s.execs, ∀ v l, (x.ts, .ok v (some (.array l))) ∈ s.engine.replies →
    ∀ w ∈ x.watches, ∀ k ∈ watchKeys w.1, ∀ ev ∈ s.engine.history,
      w.2 < ev.ts → ev.ts < x.ts → ¬ s.engine.Changed k ev
  refused : ∀ x ∈ s.execs, ∀ v out, (x.ts, .ok v out) ∈ s.engine.replies →
    (∀ l, out ≠ some (.array l)) →
    out = some .nil ∧ ∀ ev ∈ s.engine.history, ev.ts = x.ts → ev = .commit x.ts []

theorem Tracked.execSound {s : Server} (h : s.Tracked) : s.ExecSound := by
  have hanswered : ∀ x ∈ s.execs, ∀ v out, (x.ts, .ok v out) ∈ s.engine.replies →
      (out = some .nil ∧ Event.commit x.ts [] ∈ s.engine.history) ∨
        (∃ l, out = some (.array l)) ∧ ∀ w ∈ x.watches, ∀ k ∈ watchKeys w.1,
          ∀ ev ∈ s.engine.history, w.2 < ev.ts → ev.ts < x.ts → ¬ s.engine.Changed k ev := by
    intro x hx v out hrep
    have hle : x.ts ≤ s.engine.core.visible_ts := h.ledger.replies_le _ hrep
    -- whoever is still on the way has a timestamp above everything published
    have hjob : ∀ j out, s.engine.busy.job = some j →
        (x.pending, out) ∈ j.batch.zip j.outcomes → s.engine.core.visible_ts < x.ts := by
      intro j out hj hmem
      exact (h.sound.timely.busy_facts hj).2.2.1 _ (Job.fst_mem_batch hmem)
    cases h.stage x hx with
    | waiting hmem _ =>
        have : s.engine.core.visible_ts < x.ts :=
          (h.sound.timely.fresh _ (Engine.unresolved_subset_pending s.engine hmem)).1
        omega
    | aborted hj hmem =>
        have := hjob _ _ hj hmem
        omega
    | passed hj hmem _ _ =>
        have := hjob _ _ hj hmem
        omega
    | answered _ hans => exact hans v out hrep
  constructor
  · intro x hx v l hrep
    rcases hanswered x hx v _ hrep with ⟨hnil, _⟩ | ⟨_, hwatch⟩
    · cases hnil
    · exact hwatch
  · intro x hx v out hrep harr
    rcases hanswered x hx v _ hrep with ⟨hnil, hev⟩ | ⟨⟨l, hl⟩, _⟩
    · refine ⟨hnil, ?_⟩
      intro ev hmem hts
      exact Engine.Ledger.eq_of_ts h.ledger hmem hev hts
    · exact absurd hl (harr l)

/-- Runs whose commits and FLUSHALLs are ordinary. -/
def Ordinary (s : Server) : ServerAct → Prop
  | .engine act => s.engine.Ordinary act
  | .conn _ (.exec _) => s.engine.Ordinary (.submit (.op (.ret .nil)))
  | .conn _ _ => True

def ordinaryStep (s : Server) : ServerAct → Bool
  | .engine act => s.engine.ordinaryStep act
  | .conn _ (.exec _) => s.engine.sync_writes
  | .conn _ _ => true

theorem ordinary_of_ordinaryStep {s : Server} {act : ServerAct} (h : s.ordinaryStep act = true) :
    s.Ordinary act := by
  cases act with
  | engine act => exact Engine.ordinary_of_ordinaryStep h
  | conn c cmd =>
      cases cmd with
      | exec now => exact Or.inl h
      | _ => trivial

/-- No chain is removed in this step. -/
def removesNothing (s : Server) : ServerAct → Bool
  | .engine (.work a _) => match s.engine.phase a with
    | .sweeping _ (_ :: _) _ | .wiping _ _ | .publishing _ .wiped => false
    | _ => true
  | _ => true

theorem traced_of_steps
    {s : Server} {act : ServerAct} (h : (s.ordinaryStep act && s.removesNothing act) = true) :
    s.Traced act := by
  rw [Bool.and_eq_true] at h
  have hord := ordinary_of_ordinaryStep h.1
  cases act with
  | engine act =>
      refine ⟨hord, ?_⟩
      rintro a io rfl w _ x _
      have hno := h.2
      simp only [removesNothing] at hno
      unfold Engine.KeepsTrace
      split
      · next hp => simp [hp] at hno
      · next hp => simp [hp] at hno
      · next hp => simp [hp] at hno
      · trivial
  | conn c cmd =>
      cases cmd with
      | exec now => exact hord
      | _ => trivial

/-- A client writes an entry, or deletes it with a tombstone, and the flusher
commits it. -/
def writesEntry (key : Key) (value : Value) : List ServerAct :=
  [.engine (.submit (.write (Std.ExtTreeMap.ofList [(key, value)]))), .engine .drain] ++
    (Engine.flusherWorks 39).map .engine

/-- A connection runs MULTI and EXEC, and the flusher works for `n` steps. -/
def multiExec (n : Nat) : List ServerAct :=
  [.conn 0 .multi, .conn 0 (.exec 0), .engine .drain] ++ (Engine.flusherWorks n).map .engine

/-- Did an EXEC run although a commit had written a watched value? -/
def unnoticed (s : Server) : Bool :=
  s.execs.any fun x =>
    s.engine.replies.any (fun r => match r with
      | (t, .ok _ (some (.array _))) => t = x.ts
      | _ => false) &&
      x.watches.any fun w => s.engine.history.any fun ev => match ev with
        | .commit ts muts => w.2 < ts && ts < x.ts && muts.any fun m => m.key = kv w.1
        | .flush _ => false

theorem not_execSound_of_unnoticed {s : Server} (h : s.unnoticed = true) : ¬ s.ExecSound := by
  intro hs
  obtain ⟨x, hx, h⟩ := List.any_eq_true.mp h
  simp only [Bool.and_eq_true, List.any_eq_true] at h
  obtain ⟨⟨r, hr, hans⟩, w, hw, ev, hev, hmatch⟩ := h
  split at hans
  · next t v l =>
      have ht : t = x.ts := of_decide_eq_true hans
      subst ht
      split at hmatch
      · next ts muts =>
          simp only [Bool.and_eq_true, decide_eq_true_eq, List.any_eq_true] at hmatch
          obtain ⟨⟨hlt, hbefore⟩, m, hm, hkey⟩ := hmatch
          exact hs.ran x hx v l hr w hw (kv w.1) (by simp [watchKeys]) _ hev hlt hbefore
            ⟨m, hm, hkey⟩
      · cases hmatch
  · cases hans

end Server
end StrikeDB
