import StrikeDB.EventLoopPool

/-!
# StrikeDB: the event loop keeps the order of commands

* `Inv.worker`, `Inv.pool`, `Inv.step`: every handled step keeps the invariant.
* `inv_run`: so does every run.
-/

namespace StrikeDB
namespace EventLoop

open Resp (Command Fault ProtocolError Reads Stuck pushed readCommand parse_commands)

variable {σ κ : Type}

/-! ## Runs -/

section Runs

variable {ex : Executor σ κ} {s s' : State σ κ}

/-- The worker leaves one call or none for the one it makes; when it goes on reading, it has the
connection. -/
structure Replaces (s s' : State σ κ) : Prop where
  calls : s'.calls = s.calls ∨ ∃ call, s'.calls = call :: s.calls ∧
    (call = .reading → ∀ c, s'.conn = some c → c.st.isSome = true)

theorem replaces_push {call : Call κ} (h : call ≠ .reading) (s₁ : State σ κ)
    (hcalls : s₁.calls = s.calls) : Replaces s (s₁.push call) :=
  ⟨.inr ⟨call, congrArg (call :: ·) hcalls, fun heq => absurd heq h⟩⟩

theorem replaces_finish_batch (s₁ : State σ κ) (hcalls : s₁.calls = s.calls) (c : Conn κ)
    (ended : BatchEnd) {call : Call κ} (hcall : call ≠ .reading) :
    Replaces s (Executor.finish_batch s₁ c ended call) := by
  cases ended with
  | Continue => exact replaces_push hcall _ hcalls
  | Quit => exact replaces_push (by simp) _ hcalls
  | Failed => exact replaces_push (by simp) _ hcalls
  | Subscribe cmds => exact ⟨.inl hcalls⟩
  | ReplSync => exact ⟨.inl hcalls⟩

theorem resume_ne_reading (c : Conn κ) : Executor.resume c ≠ .reading := by
  unfold Executor.resume
  split <;> simp

theorem replaces_caughtUp (s₁ : State σ κ) (hcalls : s₁.calls = s.calls) (c : Conn κ) (was : Bool) :
    Replaces s (Executor.caughtUp s₁ c was) := by
  unfold Executor.caughtUp
  split
  · exact replaces_push (resume_ne_reading c) _ hcalls
  · exact ⟨.inl hcalls⟩

theorem replaces_flushed (s₁ : State σ κ) (hcalls : s₁.calls = s.calls) (c : Conn κ) (was : Bool) :
    Replaces s (Executor.flushed s₁ c was) := by
  rcases flushed_cases s₁ c was with ⟨_, heq⟩ | ⟨c', _, heq⟩
  · rw [heq]
    exact ⟨.inl hcalls⟩
  · rw [heq]
    exact replaces_caughtUp s₁ hcalls c' was

theorem replaces_completions (c : Conn κ) (comp : Completion κ) :
    Replaces s (Executor.completions { s with completed := none } c comp) := by
  unfold Executor.completions
  refine replaces_finish_batch _ ?_ _ _ (resume_ne_reading _)
  rfl

theorem replaces_process (c : Conn κ) : Replaces s (ex.process s c) := by
  unfold Executor.process
  split
  · split
    · exact replaces_push (by simp) _ rfl
    · exact replaces_push (by simp) _ rfl
    · split
      · exact replaces_push (by simp) _ rfl
      · exact replaces_push (by simp) _ rfl
  · exact replaces_push (by simp) _ rfl

theorem replaces_batch (c : Conn κ) (st : κ) (cmds : List Command) :
    Replaces s (ex.batch s c st cmds) := by
  unfold Executor.batch
  split
  · exact replaces_finish_batch s rfl _ _ (by simp)
  · simp only
    split
    · exact replaces_push (by simp) _ rfl
    · refine replaces_finish_batch _ ?_ _ _ ?_
      · rfl
      · simp

theorem replaces_call {c : Conn κ} {call : Call κ} {io : Io}
    (hreading : call = .reading → c.st.isSome = true)
    (hstep : ex.call s c call io = some s') : Replaces s s' := by
  cases call with
  | flush =>
      cases io <;> cases hstep
      exact replaces_push (by simp) _ rfl
  | flushing was =>
      cases io with
      | nothing =>
          simp only [Executor.call, Executor.flushing] at hstep
          split at hstep
          · cases hstep
            exact replaces_flushed s rfl c was
          · cases hstep
      | read a => cases hstep
      | poll a b => cases hstep
      | write w =>
          simp only [Executor.call, Executor.flushing] at hstep
          split at hstep
          · cases w <;> cases hstep
            · exact replaces_push (by simp) _ rfl
            · exact @replaces_flushed σ κ s { s with room := false } rfl c was
            · exact ⟨.inl rfl⟩
          · cases hstep
  | readable =>
      cases io <;> simp only [Executor.call, reduceCtorEq] at hstep
      split at hstep
      · cases hstep
        exact ⟨.inl rfl⟩
      · next hst =>
          cases hstep
          refine ⟨.inr ⟨.reading, rfl, fun _ c' hc' => ?_⟩⟩
          cases hc'
          rw [Bool.not_eq_true, Option.isNone_eq_false_iff] at hst
          exact hst
  | reading =>
      have hst := hreading rfl
      cases io with
      | nothing =>
          simp only [Executor.call, Executor.reading] at hstep
          split at hstep
          · cases hstep
            exact replaces_push (by simp) _ rfl
          · cases hstep
      | write w => cases hstep
      | poll a b => cases hstep
      | read a =>
          simp only [Executor.call, Executor.reading] at hstep
          split at hstep
          · cases a <;> cases hstep
            · refine ⟨.inr ⟨_, rfl, fun _ c' hc' => ?_⟩⟩
              cases hc'
              exact hst
            · exact ⟨.inl rfl⟩
            · exact replaces_push (by simp) _ rfl
            · exact ⟨.inl rfl⟩
          · cases hstep
  | received =>
      cases io <;> cases hstep
      unfold Executor.received
      split
      · exact replaces_push (by simp) _ rfl
      · split
        · exact replaces_push (by simp) _ rfl
        · exact ⟨.inl rfl⟩
  | process =>
      cases io <;> cases hstep
      exact replaces_process c
  | batch st cmds =>
      cases io <;> cases hstep
      exact replaces_batch c st cmds

theorem ReadsOwn.of_replaces {call : Call κ} {calls : List (Call κ)} (h : ReadsOwn s)
    (hcalls : s.calls = call :: calls) {s₁ : State σ κ} (hcalls₁ : s₁.calls = calls)
    (hreplaces : Replaces s₁ s') : ReadsOwn s' := by
  have htail : ∀ call ∈ calls, call = .readable := by
    have hall := h.tail
    rw [hcalls] at hall
    exact hall
  rcases hreplaces.calls with heq | ⟨call', heq, hreading⟩
  · rw [hcalls₁] at heq
    constructor
    · intro rest hrest
      rw [heq] at hrest
      have hbad := htail .reading (hrest ▸ List.mem_cons_self)
      cases hbad
    · rw [heq]
      exact fun call hmem => htail call (List.mem_of_mem_tail hmem)
  · rw [hcalls₁] at heq
    constructor
    · intro rest hrest
      rw [heq, List.cons.injEq] at hrest
      exact hreading hrest.1
    · rw [heq]
      exact htail

theorem readsOwn_of_nil (hcalls : s.calls = []) (hreplaces : Replaces s s') : ReadsOwn s' := by
  rcases hreplaces.calls with heq | ⟨call, heq, hreading⟩
  · rw [hcalls] at heq
    constructor
    · intro rest hrest
      rw [heq] at hrest
      cases hrest
    · rw [heq]
      intro call hmem
      cases hmem
  · rw [hcalls] at heq
    constructor
    · intro rest hrest
      rw [heq, List.cons.injEq] at hrest
      exact hreading hrest.1
    · rw [heq]
      intro call hmem
      cases hmem

theorem ReadsOwn.same (h : ReadsOwn s) (hcalls : s'.calls = s.calls) (hconn : s'.conn = s.conn) :
    ReadsOwn s' := by
  constructor
  · intro rest hrest c hc
    exact h.head rest (hcalls ▸ hrest) c (hconn ▸ hc)
  · rw [hcalls]
    exact h.tail

theorem owned_beside {j : Job κ} {io : Io} (hstep : ex.owned s j io = some s') :
    s'.calls = s.calls ∧ s'.conn = s.conn := by
  have hover : ∀ (s₁ : State σ κ) (j₁ : Job κ) (ended : BatchEnd),
      (Executor.batchOver s₁ j₁ ended).calls = s₁.calls ∧
        (Executor.batchOver s₁ j₁ ended).conn = s₁.conn := by
    intro s₁ j₁ ended
    unfold Executor.batchOver
    split <;> exact ⟨rfl, rfl⟩
  unfold Executor.owned at hstep
  split at hstep
  · cases hstep
    unfold Executor.ownedBatch
    split
    · exact hover _ _ _
    · simp only
      split
      · exact ⟨rfl, rfl⟩
      · exact hover _ _ _
  · unfold Executor.ownedWrite at hstep
    split at hstep
    · split at hstep <;> cases hstep
      exact ⟨rfl, rfl⟩
    · split at hstep
      · split at hstep <;> cases hstep <;> exact ⟨rfl, rfl⟩
      · cases hstep
    · cases hstep
  · cases hstep
    unfold Executor.ownedWritten
    split <;> exact ⟨rfl, rfl⟩
  · cases hstep
    unfold Executor.ownedNext
    split
    · exact ⟨rfl, rfl⟩
    · simp only
      split
      · exact ⟨rfl, rfl⟩
      · split
        · exact ⟨rfl, rfl⟩
        · split <;> exact ⟨rfl, rfl⟩
    · exact ⟨rfl, rfl⟩
  · unfold Executor.ownedRead at hstep
    split at hstep
    · split at hstep
      · split at hstep
        · simp only at hstep
          split at hstep <;> cases hstep <;> exact ⟨rfl, rfl⟩
        · cases hstep
          exact ⟨rfl, rfl⟩
        · cases hstep
          exact ⟨rfl, rfl⟩
        · cases hstep
          exact ⟨rfl, rfl⟩
      · cases hstep
    · cases hstep
  · cases hstep

theorem noBatch_event (out inp : Bool) : NoBatch (s.event out inp).calls := by
  intro st cmds hmem
  cases out <;> cases inp <;> simp [State.event] at hmem

theorem inv_client {st₀ : κ} {stream : Bytes} (h : Inv ex st₀ stream s) (hsame : Same s s')
    (hconn : s'.conn = s.conn) (hcalls : s'.calls = s.calls) (hlog : s'.log = s.log) :
    Inv ex st₀ stream s' := by
  obtain ⟨found, left, r, hreads, hserves, hstage⟩ := h.stage
  exact ⟨⟨found, left, r, hreads, hlog ▸ hserves, hstage.client hsame hconn hcalls⟩,
    h.reads.same hcalls hconn⟩

@[simp] theorem caughtUp_log (c : Conn κ) (was : Bool) :
    (Executor.caughtUp s c was).log = s.log := by
  unfold Executor.caughtUp
  split <;> rfl

@[simp] theorem flushed_log (c : Conn κ) (was : Bool) : (Executor.flushed s c was).log = s.log := by
  rcases flushed_cases s c was with ⟨_, heq⟩ | ⟨c', _, heq⟩
  · rw [heq]
    rfl
  · rw [heq, caughtUp_log]

@[simp] theorem process_log (c : Conn κ) : (ex.process s c).log = s.log := by
  unfold Executor.process
  split
  · split
    · rfl
    · rfl
    · split <;> rfl
  · rfl

@[simp] theorem finish_batch_log (c : Conn κ) (ended : BatchEnd) (call : Call κ) :
    (Executor.finish_batch s c ended call).log = s.log := by
  cases ended <;> rfl

/-- A call that is no batch leaves the log. -/
theorem call_log {c : Conn κ} {call : Call κ} {io : Io} (hbatch : ∀ st cmds, call ≠ .batch st cmds)
    (hstep : ex.call s c call io = some s') : s'.log = s.log := by
  unfold Executor.call at hstep
  split at hstep
  · cases hstep
    rfl
  · unfold Executor.flushing at hstep
    split at hstep
    · split at hstep <;> cases hstep
      exact flushed_log c _
    · split at hstep
      · split at hstep <;> cases hstep
        · rfl
        · exact flushed_log c _
        · rfl
      · cases hstep
    · cases hstep
  · split at hstep <;> cases hstep <;> rfl
  · unfold Executor.reading at hstep
    split at hstep
    · split at hstep <;> cases hstep
      rfl
    · split at hstep
      · split at hstep <;> cases hstep <;> rfl
      · cases hstep
    · cases hstep
  · cases hstep
    unfold Executor.received
    split
    · rfl
    · split <;> rfl
  · cases hstep
    exact process_log c
  · next st cmds => exact absurd rfl (hbatch st cmds)
  · cases hstep

/-- The calls change, and no batch is among them. -/
theorem stage_calls {found : List Command} {left : Bytes} {r : Service κ}
    (h : Stage ex s found left r) (hno : NoBatch s.calls) (hsame : Same s s')
    (hconn : s'.conn = s.conn) (hcalls : NoBatch s'.calls) : Stage ex s' found left r := by
  cases h with
  | serving buf pending howner hnext hleft hran hqueued hnone =>
      refine .serving buf pending ?_ hnext (hsame.input ▸ hleft) hran (hsame.queued.trans hqueued)
        (hconn ▸ hnone)
      rcases howner.cases_of_noBatch hno with
        ⟨c, hc, hst, hclose, hjob, hcompleted, rfl, rfl⟩ |
        ⟨hp, ⟨j, hjob, hphase, hcompleted, hst, rfl, rfl⟩ |
          ⟨comp, hcompleted, hended, hjob, hst, rfl, rfl⟩⟩
      · exact .worker c _ (hconn.trans hc) hst hclose hcalls (hsame.job.trans hjob)
          (hsame.completed.trans hcompleted)
      · rw [hst]
        exact .pool j (hsame.job.trans hjob) hphase (hsame.completed.trans hcompleted) hcalls
          (hconn ▸ hp)
      · rw [hst]
        exact .completed comp (hsame.completed.trans hcompleted) hended (hsame.job.trans hjob)
          hcalls (hconn ▸ hp)
  | ending hending hverdict hran hqueued =>
      exact .ending (hending.move hsame (fun _ => hcalls) (hconn ▸ id)) hverdict hran
        (hsame.queued.trans hqueued)
  | finished hfinal hover =>
      exact .finished ⟨hconn ▸ hfinal.closing, hcalls, hsame.job.trans hfinal.job,
        hsame.completed.trans hfinal.completed⟩ (hover.same hsame.queued)

/-- Only the call that the worker makes can be a batch. -/
theorem noBatch_or {found : List Command} {left : Bytes} {r : Service κ}
    (h : Stage ex s found left r) :
    NoBatch s.calls ∨ ∃ st cmds calls, s.calls = .batch st cmds :: calls ∧ s.conn.isSome = true := by
  cases h with
  | serving buf pending howner hnext hleft hran hqueued hnone =>
      generalize r.st = st at howner
      cases howner with
      | worker c _ hc hst hclose hno hjob hcompleted => exact .inl hno
      | inline c _ _ calls hc hst hclose hbatch hrest hjob hcompleted =>
          exact .inr ⟨_, _, calls, hbatch, by rw [hc]; rfl⟩
      | pool j hjob hphase hcompleted hno hp => exact .inl hno
      | completed comp hcompleted hended hjob hno hp => exact .inl hno
  | ending hending hverdict hran hqueued =>
      cases hending with
      | pool j hjob hphase hcompleted hno hp => exact .inl hno
      | completed comp hcompleted hended hjob hno hp => exact .inl hno
  | finished hfinal hover => exact .inl hfinal.calls

/-- The worker finds the connection gone when its batch comes back. -/
theorem stage_collect_none {found : List Command} {left : Bytes} {r : Service κ}
    {comp : Completion κ} (h : Stage ex s found left r) (hcomp : s.completed = some comp)
    (hcalls : s.calls = []) (hconn : s.conn = none) :
    Stage ex { s with completed := none } found left r := by
  have hno : NoBatch s.calls := hcalls ▸ noBatch_nil
  have hclosing : ∀ c, s.conn = some c → c.close_after_flush = true := by
    rw [hconn]
    intro c hc
    cases hc
  cases h with
  | serving buf pending howner hnext hleft hran hqueued hnone =>
      rcases howner.cases_of_noBatch hno with
        ⟨c₁, hc₁, _⟩ | ⟨hp, ⟨j, hjob, hphase, hcompleted, _⟩ | ⟨comp₁, _, hended, hjob, _, _, rfl⟩⟩
      · rw [hconn] at hc₁
        cases hc₁
      · rw [hcomp] at hcompleted
        cases hcompleted
      · rw [List.append_nil] at hran
        exact .finished ⟨hclosing, hno, hjob, rfl⟩ (.drained hran (hnone hconn) hqueued)
  | ending hending hverdict hran hqueued =>
      cases hending with
      | pool j hjob hphase hcompleted hno' hp =>
          rw [hcomp] at hcompleted
          cases hcompleted
      | completed comp₁ hcompleted hended hjob hno' hp =>
          exact .finished ⟨hclosing, hno, hjob, rfl⟩ (.ended hverdict hran hqueued)
  | finished hfinal hover =>
      have hnone := hfinal.completed
      rw [hcomp] at hnone
      cases hnone

theorem Inv.worker {st₀ : κ} {stream : Bytes} {call : Call κ} {calls : List (Call κ)} {c : Conn κ}
    {io : Io} (h : Inv ex st₀ stream s) (hcalls : s.calls = call :: calls) (hconn : s.conn = some c)
    (hok : HandledCall s c call io)
    (hstep : ex.call { s with calls := calls } c call io = some s') : Inv ex st₀ stream s' := by
  obtain ⟨found, left, r, hreads, hserves, hstage⟩ := h.stage
  have hreading : call = .reading → c.st.isSome = true := by
    rintro rfl
    exact h.reads.head calls hcalls c hconn
  have hown : ReadsOwn s' := h.reads.of_replaces hcalls rfl
    (replaces_call (s := { s with calls := calls }) hreading hstep)
  by_cases hbatch : ∃ st cmds, call = .batch st cmds
  · obtain ⟨st, cmds, rfl⟩ := hbatch
    cases io with
    | nothing =>
        cases hstep
        have hs : s = { { s with calls := calls } with
            calls := .batch st cmds :: ({ s with calls := calls } : State σ κ).calls } := by
          rw [← hcalls]
        rw [hs] at hstage
        obtain ⟨r', hserves', hstage'⟩ := hstage.batch (s := { s with calls := calls }) hserves hconn
        exact ⟨⟨found, left, r', hreads, hserves', hstage'⟩, hown⟩
    | read a => cases hstep
    | write w => cases hstep
    | poll a b => cases hstep
  · have hne : ∀ st cmds, call ≠ .batch st cmds := fun st cmds heq => hbatch ⟨st, cmds, heq⟩
    have hlog : s'.log = s.log := call_log (s := { s with calls := calls }) hne hstep
    have hno : NoBatch s.calls := by
      rcases noBatch_or hstage with hno | ⟨st, cmds, _, heq, _⟩
      · exact hno
      · rw [hcalls, List.cons.injEq] at heq
        exact absurd heq.1 (hne st cmds)
    have hrest : NoBatch calls := (noBatch_cons.mp (hcalls ▸ hno)).2
    have hs : Stage ex { s with calls := calls } found left r :=
      stage_calls hstage hno ⟨rfl, rfl, rfl, rfl⟩ rfl hrest
    by_cases hprocess : call = .process
    · subst hprocess
      cases io with
      | nothing =>
          cases hstep
          obtain ⟨found', left', hreads', hstage'⟩ :=
            hs.process (s := { s with calls := calls }) hreads hrest hconn hok
          refine ⟨⟨found', left', r, hreads', ?_, hstage'⟩, hown⟩
          rw [hlog]
          exact hserves
      | read a => cases hstep
      | write w => cases hstep
      | poll a b => cases hstep
    · refine ⟨⟨found, left, r, hreads, hlog ▸ hserves, ?_⟩, hown⟩
      cases call with
      | flush =>
          cases io <;> cases hstep
          exact hs.keep ⟨rfl, rfl, rfl, rfl⟩ hrest (noBatch_cons.mpr ⟨by simp, hrest⟩) hconn hconn
            ⟨rfl, rfl, rfl⟩
      | flushing was => exact hs.flushing hrest hconn hok hstep
      | readable =>
          cases io <;> simp only [Executor.call, reduceCtorEq] at hstep
          split at hstep
          · cases hstep
            exact hs.keep ⟨rfl, rfl, rfl, rfl⟩ hrest hrest hconn rfl ⟨rfl, rfl, rfl⟩
          · cases hstep
            exact hs.keep ⟨rfl, rfl, rfl, rfl⟩ hrest (noBatch_cons.mpr ⟨by simp, hrest⟩) hconn rfl
              ⟨rfl, rfl, rfl⟩
      | reading => exact hs.reading hrest hconn (hreading rfl) hok hstep
      | received =>
          cases io <;> cases hstep
          exact hs.received hrest hconn hok
      | process => exact absurd rfl hprocess
      | batch st cmds => exact absurd rfl (hne st cmds)

theorem Inv.pool {st₀ : κ} {stream : Bytes} {j : Job κ} {io : Io} (h : Inv ex st₀ stream s)
    (hjob : s.job = some j) (hstep : ex.owned s j io = some s') : Inv ex st₀ stream s' := by
  obtain ⟨found, left, r, hreads, hserves, hstage⟩ := h.stage
  obtain ⟨hcalls, hconn⟩ := owned_beside hstep
  have hown := h.reads.same hcalls hconn
  cases hphase : j.phase with
  | batch =>
      cases io <;> simp only [Executor.owned, hphase, reduceCtorEq] at hstep
      cases hstep
      obtain ⟨r', hserves', hstage'⟩ := hstage.ownedBatch hserves hjob hphase
      exact ⟨⟨found, left, r', hreads, hserves', hstage'⟩, hown⟩
  | write ended =>
      simp only [Executor.owned, hphase] at hstep
      have hlog : s'.log = s.log := by
        unfold Executor.ownedWrite at hstep
        split at hstep
        · split at hstep <;> cases hstep
          rfl
        · split at hstep
          · split at hstep <;> cases hstep <;> rfl
          · cases hstep
        · cases hstep
      exact ⟨⟨found, left, r, hreads, hlog ▸ hserves, hstage.ownedWrite hjob hphase hstep⟩, hown⟩
  | written ended =>
      cases io <;> simp only [Executor.owned, hphase, reduceCtorEq] at hstep
      cases hstep
      have hlog : (Executor.ownedWritten s j ended).log = s.log := by
        unfold Executor.ownedWritten
        split <;> rfl
      exact ⟨⟨found, left, r, hreads, hlog ▸ hserves, hstage.ownedWritten hjob hphase⟩, hown⟩
  | next waits reads =>
      cases io <;> simp only [Executor.owned, hphase, reduceCtorEq] at hstep
      cases hstep
      have hlog : ∀ b q, (Executor.ownedNext s j waits reads b q).log = s.log := by
        intro b q
        unfold Executor.ownedNext
        split
        · rfl
        · simp only
          split
          · rfl
          · split
            · rfl
            · split <;> rfl
        · rfl
      obtain ⟨found', left', hreads', hstage'⟩ := hstage.ownedNext hreads hjob hphase
      exact ⟨⟨found', left', r, hreads', hlog _ _ ▸ hserves, hstage'⟩, hown⟩
  | read waits reads =>
      simp only [Executor.owned, hphase] at hstep
      have hlog : s'.log = s.log := by
        unfold Executor.ownedRead at hstep
        split at hstep
        · split at hstep
          · split at hstep
            · simp only at hstep
              split at hstep <;> cases hstep <;> rfl
            · cases hstep
              rfl
            · cases hstep
              rfl
            · cases hstep
              rfl
          · cases hstep
        · cases hstep
      exact ⟨⟨found, left, r, hreads, hlog ▸ hserves, hstage.ownedRead hjob hphase hstep⟩, hown⟩

theorem Inv.step {st₀ : κ} {stream : Bytes} {a : Action σ} (h : Inv ex st₀ stream s)
    (hok : Handled s a) (hstep : step ex s a = some s') : Inv ex st₀ stream s' := by
  cases a with
  | send n =>
      simp only [EventLoop.step] at hstep
      split at hstep <;> cases hstep
      refine inv_client h ⟨rfl, rfl, rfl, ?_⟩ rfl rfl rfl
      simp only [State.arm, List.append_assoc, List.take_append_drop]
  | shutdown =>
      simp only [EventLoop.step] at hstep
      split at hstep <;> cases hstep
      exact inv_client h ⟨rfl, rfl, rfl, rfl⟩ rfl rfl rfl
  | drain =>
      cases hstep
      exact inv_client h ⟨rfl, rfl, rfl, rfl⟩ rfl rfl rfl
  | hangup =>
      cases hstep
      exact inv_client h ⟨rfl, rfl, rfl, rfl⟩ rfl rfl rfl
  | others db =>
      cases hstep
      exact inv_client h ⟨rfl, rfl, rfl, rfl⟩ rfl rfl rfl
  | event out inp =>
      simp only [EventLoop.step] at hstep
      split at hstep
      · next hguard =>
          cases hstep
          obtain ⟨found, left, r, hreads, hserves, hstage⟩ := h.stage
          have hno : NoBatch s.calls := by
            rw [List.isEmpty_iff.mp hguard.2.1]
            exact noBatch_nil
          refine ⟨⟨found, left, r, hreads, hserves, ?_⟩, ?_⟩
          · exact stage_calls hstage hno ⟨rfl, rfl, rfl, rfl⟩ rfl (noBatch_event out inp)
          · constructor
            · intro calls hcalls
              cases out <;> cases inp <;> simp [State.event] at hcalls
            · intro call hcall
              cases out <;> cases inp <;> simp [State.event] at hcall
              exact hcall
      · cases hstep
  | collect =>
      simp only [EventLoop.step] at hstep
      split at hstep
      · next comp hcomp hcalls =>
          obtain ⟨found, left, r, hreads, hserves, hstage⟩ := h.stage
          have hnil : NoBatch ([] : List (Call κ)) := noBatch_nil
          split at hstep
          · next hconn =>
              cases hstep
              refine ⟨⟨found, left, r, hreads, hserves, ?_⟩, h.reads.same rfl rfl⟩
              exact stage_collect_none hstage hcomp hcalls hconn
          · next c hconn =>
              cases hstep
              refine ⟨⟨found, left, r, hreads, ?_, ?_⟩, ?_⟩
              · rw [Executor.completions, finish_batch_log]
                exact hserves
              · exact hstage.completions hcomp hcalls hconn fun hended heof =>
                  (hok comp c hcomp hconn hended).1 heof
              · exact readsOwn_of_nil hcalls (replaces_completions c comp)
      · cases hstep
  | worker io =>
      simp only [EventLoop.step] at hstep
      split at hstep
      · cases hstep
      · next call calls hcalls =>
          split at hstep
          · next hconn =>
              cases hstep
              obtain ⟨found, left, r, hreads, hserves, hstage⟩ := h.stage
              have hno : NoBatch s.calls := by
                rcases noBatch_or hstage with hno | ⟨_, _, _, _, hsome⟩
                · exact hno
                · rw [hconn] at hsome
                  cases hsome
              refine ⟨⟨found, left, r, hreads, hserves, ?_⟩, ?_⟩
              · exact stage_calls hstage hno ⟨rfl, rfl, rfl, rfl⟩ rfl (noBatch_cons.mp (hcalls ▸ hno)).2
              · exact ReadsOwn.of_replaces h.reads hcalls (rfl : ({ s with calls := calls } : State σ κ).calls = calls)
                  ⟨.inl rfl⟩
          · next c hconn => exact h.worker hcalls hconn (hok call calls c hcalls hconn) hstep
  | pool io =>
      simp only [EventLoop.step, Option.bind_eq_some_iff] at hstep
      obtain ⟨j, hjob, hstep⟩ := hstep
      exact h.pool hjob hstep

theorem inv_fresh (ex : Executor σ κ) (db : σ) (stream : Bytes) :
    Inv ex (ex.new db) stream (fresh ex db stream) := by
  have hno : NoBatch [(Call.readable : Call κ)] := noBatch_cons.mpr ⟨by simp, noBatch_nil⟩
  refine ⟨⟨[], stream, _, .refl stream, .start, ?_⟩, ?_⟩
  · have howner : Owner (fresh ex db stream) (ex.new db) [] [] :=
      .worker
        { rbuf := [], wbuf := [], wpos := 0, st := some (ex.new db), close_after_flush := false,
          more_to_read := false, muted := false }
        (ex.new db) rfl rfl rfl hno rfl rfl
    exact .serving [] [] howner rfl rfl rfl rfl fun hnil => by cases hnil
  · constructor
    · intro calls hcalls
      cases hcalls
    · intro call hmem
      cases hmem

end Runs

end EventLoop
end StrikeDB
