import StrikeDB.EventLoopInv

/-!
# StrikeDB: what the worker does to the invariant

* `Stage.client`, `Stage.keep`, `Stage.close`: steps that keep the holder, or leave the connection.
* `Stage.process`, `Stage.batch`, `Stage.completions`: the input is parsed, a turn is run, a batch
  comes back from the pool.
-/

namespace StrikeDB
namespace EventLoop

open Resp (Command Fault ProtocolError Reads Stuck pushed readCommand parse_commands)

variable {σ κ : Type}

/-! ## The parser -/

theorem parse_ok {buf rest : Bytes} {cmds : List Command} (h : parse_commands buf = .ok (cmds, rest)) :
    ∃ found, Reads buf found rest ∧ pushed found = cmds ∧
      (cmds = [] → readCommand rest = .more) := by
  obtain ⟨found, rest', hreads, hstuck⟩ := Reads.exists_stuck buf
  rw [Resp.parse_commands_eq hreads hstuck] at h
  cases hread : readCommand rest' with
  | done cmd mid => exact absurd hread (hstuck cmd mid)
  | more =>
      simp only [hread, Except.ok.injEq, Prod.mk.injEq] at h
      obtain ⟨rfl, rfl⟩ := h
      exact ⟨found, hreads, rfl, fun _ => hread⟩
  | bad e =>
      simp only [hread] at h
      split at h
      · next hne =>
          simp only [Except.ok.injEq, Prod.mk.injEq] at h
          obtain ⟨rfl, rfl⟩ := h
          exact ⟨found, hreads, rfl, fun hnil => absurd hnil hne⟩
      · cases h

theorem parse_error {buf : Bytes} {f : Fault} {cursor : Nat}
    (h : parse_commands buf = .error (f, cursor)) :
    ∃ found e, Reads buf found (buf.drop cursor) ∧ pushed found = [] ∧ f = .invalid e ∧
      readCommand (buf.drop cursor) = .bad e := by
  obtain ⟨found, rest, hreads, hstuck⟩ := Reads.exists_stuck buf
  rw [Resp.parse_commands_eq hreads hstuck] at h
  cases hread : readCommand rest with
  | done cmd mid => exact absurd hread (hstuck cmd mid)
  | more => simp only [hread, reduceCtorEq] at h
  | bad e =>
      simp only [hread] at h
      split at h
      · cases h
      · next hnil =>
          simp only [Except.error.injEq, Prod.mk.injEq] at h
          obtain ⟨rfl, rfl⟩ := h
          rw [hreads.drop_eq]
          exact ⟨found, e, hreads, not_not.mp hnil, rfl, hread⟩

/-- Nothing is read where the reader wants more bytes. -/
theorem reads_more {buf rest : Bytes} {cmds : List Command} (h : Reads buf cmds rest)
    (hmore : readCommand buf = .more) : rest = buf := by
  cases h with
  | refl => rfl
  | step hread _ =>
      rw [hmore] at hread
      cases hread

/-! ## Steps that keep the holder -/

/-- The same state of the connection and the same input. -/
structure Kept (c c' : Conn κ) : Prop where
  rbuf : c'.rbuf = c.rbuf
  st : c'.st = c.st
  close_after_flush : c'.close_after_flush = c.close_after_flush

theorem Owner.held {s : State σ κ} {st : κ} {buf : Bytes} {pending : List Command}
    (h : Owner s st buf pending) : s.held = buf ∧ s.ending = false := by
  cases h with
  | worker c st hconn hst hclose hcalls hjob hcompleted =>
      simp [State.held, State.ending, hjob, hcompleted, hconn]
  | inline c st cmds calls hconn hst hclose hcalls hrest hjob hcompleted =>
      simp [State.held, State.ending, hjob, hcompleted, hconn]
  | pool j hjob hphase hcompleted hcalls hconn =>
      simp [State.held, State.ending, hjob, hcompleted, hphase]
  | completed comp hcompleted hended hjob hcalls hconn =>
      simp [State.held, State.ending, hjob, hcompleted, hended]

theorem Owner.open_ {s : State σ κ} {st : κ} {buf : Bytes} {pending : List Command} {c : Conn κ}
    (h : Owner s st buf pending) (hc : s.conn = some c) : c.close_after_flush = false := by
  cases h with
  | worker c' st hconn hst hclose hcalls hjob hcompleted =>
      rw [hconn, Option.some.injEq] at hc
      exact hc ▸ hclose
  | inline c' st cmds calls hconn hst hclose hcalls hrest hjob hcompleted =>
      rw [hconn, Option.some.injEq] at hc
      exact hc ▸ hclose
  | pool j hjob hphase hcompleted hcalls hconn => exact (hconn c hc).2
  | completed comp hcompleted hended hjob hcalls hconn => exact (hconn c hc).2

/-- A worker that has no batch holds the connection or finds it parked. -/
theorem Owner.cases_of_noBatch {s : State σ κ} {st : κ} {buf : Bytes} {pending : List Command}
    (h : Owner s st buf pending) (hcalls : NoBatch s.calls) :
    (∃ c, s.conn = some c ∧ c.st = some st ∧ c.close_after_flush = false ∧ s.job = none ∧
      s.completed = none ∧ buf = c.rbuf ∧ pending = []) ∨
    (Parked s.conn ∧
      ((∃ j, s.job = some j ∧ j.phase.ended = none ∧ s.completed = none ∧ st = j.st ∧
          buf = j.rbuf ∧ pending = j.pending) ∨
        ∃ comp, s.completed = some comp ∧ comp.ended = .Continue ∧ s.job = none ∧ st = comp.st ∧
          buf = comp.rbuf ∧ pending = [])) := by
  cases h with
  | worker c st hconn hst hclose hcalls hjob hcompleted =>
      exact .inl ⟨c, hconn, hst, hclose, hjob, hcompleted, rfl, rfl⟩
  | inline c st cmds calls hconn hst hclose hbatch hrest hjob hcompleted =>
      exact absurd (hbatch ▸ List.mem_cons_self) (hcalls st pending)
  | pool j hjob hphase hcompleted hcalls hconn =>
      exact .inr ⟨hconn, .inl ⟨j, hjob, hphase, hcompleted, rfl, rfl, rfl⟩⟩
  | completed comp hcompleted hended hjob hcalls hconn =>
      exact .inr ⟨hconn, .inr ⟨comp, hcompleted, hended, hjob, rfl, rfl, rfl⟩⟩

section Kept

variable {ex : Executor σ κ} {s s' : State σ κ} {found : List Command} {left : Bytes}
  {r : Service κ}

/-- Nothing changes for the holder. -/
structure Same (s s' : State σ κ) : Prop where
  job : s'.job = s.job
  completed : s'.completed = s.completed
  queued : s'.queued = s.queued
  input : s'.unread ++ s'.unsent = s.unread ++ s.unsent

theorem Over.same (h : Over ex s found left r) (hqueued : s'.queued = s.queued) :
    Over ex s' found left r := by
  cases h with
  | ended hverdict hran hq => exact .ended hverdict hran (hqueued.trans hq)
  | drained hran hleft hq => exact .drained hran hleft (hqueued.trans hq)
  | refused e hran hleft hq => exact .refused e hran hleft (hqueued.trans hq)

theorem Owner.client {st : κ} {buf : Bytes} {pending : List Command}
    (h : Owner s st buf pending) (hsame : Same s s') (hconn : s'.conn = s.conn)
    (hcalls : s'.calls = s.calls) : Owner s' st buf pending := by
  cases h with
  | worker c st hc hst hclose hno hjob hcompleted =>
      exact .worker c _ (hconn.trans hc) hst hclose (hcalls ▸ hno) (hsame.job.trans hjob)
        (hsame.completed.trans hcompleted)
  | inline c st cmds calls hc hst hclose hbatch hrest hjob hcompleted =>
      exact .inline c _ _ calls (hconn.trans hc) hst hclose (hcalls.trans hbatch) hrest
        (hsame.job.trans hjob) (hsame.completed.trans hcompleted)
  | pool j hjob hphase hcompleted hno hparked =>
      exact .pool j (hsame.job.trans hjob) hphase (hsame.completed.trans hcompleted)
        (hcalls ▸ hno) (hconn ▸ hparked)
  | completed comp hcompleted hended hjob hno hparked =>
      exact .completed comp (hsame.completed.trans hcompleted) hended (hsame.job.trans hjob)
        (hcalls ▸ hno) (hconn ▸ hparked)

theorem Ending.move (h : Ending s) (hsame : Same s s') (hcalls : NoBatch s.calls → NoBatch s'.calls)
    (hparked : Parked s.conn → Parked s'.conn) : Ending s' := by
  cases h with
  | pool j hjob hphase hcompleted hno hp =>
      exact .pool j (hsame.job.trans hjob) hphase (hsame.completed.trans hcompleted) (hcalls hno)
        (hparked hp)
  | completed comp hcompleted hended hjob hno hp =>
      exact .completed comp (hsame.completed.trans hcompleted) hended (hsame.job.trans hjob)
        (hcalls hno) (hparked hp)

/-- A step of a client. -/
theorem Stage.client (h : Stage ex s found left r) (hsame : Same s s') (hconn : s'.conn = s.conn)
    (hcalls : s'.calls = s.calls) : Stage ex s' found left r := by
  cases h with
  | serving buf pending howner hnext hleft hran hqueued hnone =>
      exact .serving buf pending (howner.client hsame hconn hcalls) hnext (hsame.input ▸ hleft) hran
        (hsame.queued.trans hqueued) (hconn ▸ hnone)
  | ending hending hverdict hran hqueued =>
      exact .ending (hending.move hsame (hcalls ▸ id) (hconn ▸ id)) hverdict hran
        (hsame.queued.trans hqueued)
  | finished hfinal hover =>
      exact .finished ⟨hconn ▸ hfinal.closing, hcalls ▸ hfinal.calls, hsame.job.trans hfinal.job,
        hsame.completed.trans hfinal.completed⟩ (hover.same hsame.queued)

theorem Owner.keep {st : κ} {buf : Bytes} {pending : List Command}
    (h : Owner s st buf pending) (hsame : Same s s') (hcalls : NoBatch s.calls)
    (hcalls' : NoBatch s'.calls) {c c' : Conn κ} (hconn : s.conn = some c)
    (hconn' : s'.conn = some c') (hkept : Kept c c') (hparked : Parked s.conn → Parked s'.conn) :
    Owner s' st buf pending := by
  rcases h.cases_of_noBatch hcalls with
    ⟨c₁, hc₁, hst, hclose, hjob, hcompleted, rfl, rfl⟩ |
    ⟨hp, ⟨j, hjob, hphase, hcompleted, rfl, rfl, rfl⟩ | ⟨comp, hcompleted, hended, hjob, rfl, rfl, rfl⟩⟩
  · rw [hconn, Option.some.injEq] at hc₁
    subst hc₁
    rw [← hkept.rbuf]
    exact .worker c' st hconn' (hkept.st.trans hst) (hkept.close_after_flush.trans hclose) hcalls'
      (hsame.job.trans hjob) (hsame.completed.trans hcompleted)
  · exact .pool j (hsame.job.trans hjob) hphase (hsame.completed.trans hcompleted) hcalls'
      (hparked hp)
  · exact .completed comp (hsame.completed.trans hcompleted) hended (hsame.job.trans hjob) hcalls'
      (hparked hp)

/-- A step of the worker that keeps what the holder has. -/
theorem Stage.keep (h : Stage ex s found left r) (hsame : Same s s') (hcalls : NoBatch s.calls)
    (hcalls' : NoBatch s'.calls) {c c' : Conn κ} (hconn : s.conn = some c)
    (hconn' : s'.conn = some c') (hkept : Kept c c') : Stage ex s' found left r := by
  have hparked : Parked s.conn → Parked s'.conn := by
    intro hp c₁ hc₁
    rw [hconn', Option.some.injEq] at hc₁
    subst hc₁
    exact ⟨hkept.st.trans (hp c hconn).1, hkept.close_after_flush.trans (hp c hconn).2⟩
  have hsome : s'.conn ≠ none := by
    rw [hconn']
    exact Option.some_ne_none c'
  cases h with
  | serving buf pending howner hnext hleft hran hqueued hnone =>
      exact .serving buf pending (howner.keep hsame hcalls hcalls' hconn hconn' hkept hparked) hnext
        (hsame.input ▸ hleft) hran (hsame.queued.trans hqueued) fun hnil => absurd hnil hsome
  | ending hending hverdict hran hqueued =>
      exact .ending (hending.move hsame (fun _ => hcalls') hparked) hverdict hran
        (hsame.queued.trans hqueued)
  | finished hfinal hover =>
      refine .finished ⟨?_, hcalls', hsame.job.trans hfinal.job,
        hsame.completed.trans hfinal.completed⟩ (hover.same hsame.queued)
      intro c₁ hc₁
      rw [hconn', Option.some.injEq] at hc₁
      subst hc₁
      exact hkept.close_after_flush.trans (hfinal.closing c hconn)

/-- Leaving the connection loses nothing. -/
theorem Owner.more_of_lossless {st : κ} {buf : Bytes} {pending : List Command}
    (h : Owner s st buf pending) {c : Conn κ} (hconn : s.conn = some c) (hlossless : Lossless s c) :
    readCommand (buf ++ (s.unread ++ s.unsent)) = .more := by
  obtain ⟨hheld, hending⟩ := h.held
  rcases hlossless with hclose | hend | hmore
  · rw [h.open_ hconn] at hclose
    cases hclose
  · rw [hending] at hend
    cases hend
  · rw [← hheld]
    exact hmore

/-- The worker leaves the connection. -/
theorem Stage.close (h : Stage ex s found left r) (hsame : Same s s') (hcalls : NoBatch s.calls)
    (hcalls' : NoBatch s'.calls) {c : Conn κ} (hconn : s.conn = some c) (hconn' : s'.conn = none)
    (hlossless : Lossless s c) : Stage ex s' found left r := by
  have hparked : Parked s'.conn := by
    intro c₁ hc₁
    rw [hconn'] at hc₁
    cases hc₁
  have hclosing : ∀ c₁, s'.conn = some c₁ → c₁.close_after_flush = true := by
    rw [hconn']
    intro c₁ hc₁
    cases hc₁
  cases h with
  | serving buf pending howner hnext hleft hran hqueued hnone =>
      have hmore : readCommand left = .more := hleft ▸ howner.more_of_lossless hconn hlossless
      rcases howner.cases_of_noBatch hcalls with
        ⟨c₁, hc₁, hst, hclose, hjob, hcompleted, hbuf, rfl⟩ |
        ⟨hp, ⟨j, hjob, hphase, hcompleted, hst, rfl, rfl⟩ |
          ⟨comp, hcompleted, hended, hjob, hst, rfl, rfl⟩⟩
      · rw [List.append_nil] at hran
        exact .finished ⟨hclosing, hcalls', hsame.job.trans hjob, hsame.completed.trans hcompleted⟩
          (.drained hran hmore (hsame.queued.trans hqueued))
      · refine .serving _ _ ?_ hnext (hsame.input ▸ hleft) hran (hsame.queued.trans hqueued)
          fun _ => hmore
        rw [hst]
        exact .pool j (hsame.job.trans hjob) hphase (hsame.completed.trans hcompleted) hcalls'
          hparked
      · refine .serving _ _ ?_ hnext (hsame.input ▸ hleft) hran (hsame.queued.trans hqueued)
          fun _ => hmore
        rw [hst]
        exact .completed comp (hsame.completed.trans hcompleted) hended (hsame.job.trans hjob)
          hcalls' hparked
  | ending hending hverdict hran hqueued =>
      exact .ending (hending.move hsame (fun _ => hcalls') fun _ => hparked) hverdict hran
        (hsame.queued.trans hqueued)
  | finished hfinal hover =>
      exact .finished ⟨hclosing, hcalls', hsame.job.trans hfinal.job,
        hsame.completed.trans hfinal.completed⟩ (hover.same hsame.queued)

/-- The worker has the batch that its head call says, with its first part run by `r`. -/
theorem Stage.cases_of_batch {st : κ} {cmds : List Command} {calls : List (Call κ)}
    (h : Stage ex s found left r) (hcalls : s.calls = .batch st cmds :: calls) :
    ∃ c, s.conn = some c ∧ c.st = none ∧ c.close_after_flush = false ∧ NoBatch calls ∧
      s.job = none ∧ s.completed = none ∧ r.st = st ∧ r.verdict = .next ∧
      left = c.rbuf ++ (s.unread ++ s.unsent) ∧ r.ran ++ cmds = pushed found ∧
      s.queued = r.replies := by
  have hbatch : ¬ NoBatch s.calls := fun hno => hno st cmds (hcalls ▸ List.mem_cons_self)
  cases h with
  | serving buf pending howner hnext hleft hran hqueued hnone =>
      generalize hst : r.st = st' at howner
      cases howner with
      | worker c _ hc hst' hclose hno hjob hcompleted => exact absurd hno hbatch
      | inline c _ _ calls' hc hst' hclose hhead hrest hjob hcompleted =>
          rw [hcalls, List.cons.injEq, Call.batch.injEq] at hhead
          obtain ⟨⟨rfl, rfl⟩, rfl⟩ := hhead
          exact ⟨c, hc, hst', hclose, hrest, hjob, hcompleted, rfl, hnext, hleft, hran, hqueued⟩
      | pool j hjob hphase hcompleted hno hp => exact absurd hno hbatch
      | completed comp hcompleted hended hjob hno hp => exact absurd hno hbatch
  | ending hending hverdict hran hqueued =>
      cases hending with
      | pool j hjob hphase hcompleted hno hp => exact absurd hno hbatch
      | completed comp hcompleted hended hjob hno hp => exact absurd hno hbatch
  | finished hfinal hover => exact absurd hfinal.calls hbatch

/-- A worker that has the state of an open connection holds it. -/
theorem Stage.cases_of_open {c : Conn κ} {st : κ}
    (h : Stage ex s found left r) (hconn : s.conn = some c) (hst : c.st = some st)
    (hclose : c.close_after_flush = false) (hcalls : NoBatch s.calls) :
    s.job = none ∧ s.completed = none ∧ r.st = st ∧ r.verdict = .next ∧
      left = c.rbuf ++ (s.unread ++ s.unsent) ∧ r.ran = pushed found ∧ s.queued = r.replies := by
  have hparked : ¬ Parked s.conn := by
    intro hp
    rw [(hp c hconn).1] at hst
    cases hst
  cases h with
  | serving buf pending howner hnext hleft hran hqueued hnone =>
      rcases howner.cases_of_noBatch hcalls with
        ⟨c₁, hc₁, hst₁, hclose₁, hjob, hcompleted, rfl, rfl⟩ | ⟨hp, _⟩
      · rw [hconn, Option.some.injEq] at hc₁
        subst hc₁
        rw [hst, Option.some.injEq] at hst₁
        rw [List.append_nil] at hran
        exact ⟨hjob, hcompleted, hst₁.symm, hnext, hleft, hran, hqueued⟩
      · exact absurd hp hparked
  | ending hending hverdict hran hqueued =>
      cases hending with
      | pool j hjob hphase hcompleted hno hp => exact absurd hp hparked
      | completed comp hcompleted hended hjob hno hp => exact absurd hp hparked
  | finished hfinal hover =>
      rw [hfinal.closing c hconn] at hclose
      cases hclose

theorem Stage.final_of_closing {c : Conn κ} (h : Stage ex s found left r)
    (hconn : s.conn = some c) (hclose : c.close_after_flush = true) :
    Final s ∧ Over ex s found left r := by
  have hparked : ¬ Parked s.conn := by
    intro hp
    rw [(hp c hconn).2] at hclose
    cases hclose
  cases h with
  | serving buf pending howner hnext hleft hran hqueued hnone =>
      rw [howner.open_ hconn] at hclose
      cases hclose
  | ending hending hverdict hran hqueued =>
      cases hending with
      | pool j hjob hphase hcompleted hno hp => exact absurd hp hparked
      | completed comp hcompleted hended hjob hno hp => exact absurd hp hparked
  | finished hfinal hover => exact ⟨hfinal, hover⟩

/-- A connection that is closed behind what is queued is over. -/
theorem Stage.closing (hover : Over ex s' found left r) {c : Conn κ} (hconn : s'.conn = some c)
    (hclose : c.close_after_flush = true) (hcalls : NoBatch s'.calls) (hjob : s'.job = none)
    (hcompleted : s'.completed = none) : Stage ex s' found left r := by
  refine .finished ⟨?_, hcalls, hjob, hcompleted⟩ hover
  intro c₁ hc₁
  rw [hconn, Option.some.injEq] at hc₁
  exact hc₁ ▸ hclose

end Kept

/-! ## The worker -/

section Worker

variable {ex : Executor σ κ} {s : State σ κ} {c : Conn κ}

/-- What the end of `flush` does. -/
theorem flushed_cases (s : State σ κ) (c : Conn κ) (was : Bool) :
    (c.close_after_flush = true ∧ Executor.flushed s c was = s.close) ∨
    ∃ c', Kept c c' ∧ Executor.flushed s c was = Executor.caughtUp s c' was := by
  unfold Executor.flushed
  split
  · split
    · next hclose => exact .inl ⟨hclose, rfl⟩
    · exact .inr ⟨{ c with wbuf := [], wpos := 0 }, ⟨rfl, rfl, rfl⟩, rfl⟩
  · split
    · exact .inr ⟨{ c with wbuf := c.wbuf.drop c.wpos, wpos := 0 }, ⟨rfl, rfl, rfl⟩, rfl⟩
    · exact .inr ⟨c, ⟨rfl, rfl, rfl⟩, rfl⟩

theorem resume_ne_batch (c : Conn κ) (st : κ) (cmds : List Command) :
    Executor.resume c ≠ .batch st cmds := by
  unfold Executor.resume
  split <;> simp

theorem noBatch_resume {calls : List (Call κ)} (h : NoBatch calls) (c : Conn κ) :
    NoBatch (Executor.resume c :: calls) :=
  noBatch_cons.mpr ⟨resume_ne_batch c, h⟩

variable {found : List Command} {left : Bytes} {r : Service κ}

theorem Stage.flushed (h : Stage ex s found left r) (hcalls : NoBatch s.calls)
    (hconn : s.conn = some c) (was : Bool) : Stage ex (Executor.flushed s c was) found left r := by
  rcases flushed_cases s c was with ⟨hclose, heq⟩ | ⟨c', hkept, heq⟩
  · rw [heq]
    exact h.close ⟨rfl, rfl, rfl, rfl⟩ hcalls hcalls hconn rfl (.inl hclose)
  · rw [heq, Executor.caughtUp]
    split
    · exact h.keep ⟨rfl, rfl, rfl, rfl⟩ hcalls (noBatch_resume hcalls c') hconn rfl hkept
    · exact h.keep ⟨rfl, rfl, rfl, rfl⟩ hcalls hcalls hconn rfl hkept

theorem Stage.flushing {s' : State σ κ} {was : Bool} {io : Io}
    (h : Stage ex s found left r) (hcalls : NoBatch s.calls) (hconn : s.conn = some c)
    (hok : HandledCall s c (.flushing was) io) (hstep : Executor.flushing s c was io = some s') :
    Stage ex s' found left r := by
  cases io with
  | nothing =>
      simp only [Executor.flushing] at hstep
      split at hstep
      · cases hstep
        exact h.flushed hcalls hconn was
      · cases hstep
  | read a => cases hstep
  | poll a b => cases hstep
  | write w =>
      simp only [Executor.flushing] at hstep
      split at hstep
      · cases w with
        | bytes n =>
            cases hstep
            exact h.keep ⟨rfl, rfl, rfl, rfl⟩ hcalls
              (noBatch_cons.mpr ⟨by simp, hcalls⟩) hconn rfl ⟨rfl, rfl, rfl⟩
        | wouldBlock =>
            cases hstep
            have hroom : Stage ex { s with room := false } found left r :=
              h.client ⟨rfl, rfl, rfl, rfl⟩ rfl rfl
            exact hroom.flushed hcalls hconn was
        | failed =>
            cases hstep
            exact h.close ⟨rfl, rfl, rfl, rfl⟩ hcalls hcalls hconn rfl hok
      · cases hstep

/-- The socket gave bytes to the worker. -/
theorem Stage.reads {n : Nat} {call : Call κ} (h : Stage ex s found left r)
    (hcalls : NoBatch s.calls) (hcall : ∀ st cmds, call ≠ .batch st cmds) (hconn : s.conn = some c)
    (hst : c.st.isSome = true) :
    Stage ex (({ s with unread := s.unread.drop n }.setConn
      { c with rbuf := c.rbuf ++ s.unread.take n }).push call) found left r := by
  obtain ⟨st, hst⟩ := Option.isSome_iff_exists.mp hst
  have hno : NoBatch (call :: s.calls) := noBatch_cons.mpr ⟨hcall, hcalls⟩
  by_cases hclose : c.close_after_flush = true
  · obtain ⟨hfinal, hover⟩ := h.final_of_closing hconn hclose
    exact Stage.closing (hover.same rfl) (c := { c with rbuf := c.rbuf ++ s.unread.take n }) rfl
      hclose hno hfinal.job hfinal.completed
  · rw [Bool.not_eq_true] at hclose
    obtain ⟨hjob, hcompleted, rfl, hnext, hleft, hran, hqueued⟩ :=
      h.cases_of_open hconn hst hclose hcalls
    refine .serving (c.rbuf ++ s.unread.take n) []
      (.worker { c with rbuf := c.rbuf ++ s.unread.take n } r.st rfl hst hclose hno hjob
        hcompleted) hnext ?_ ?_ hqueued fun hnil => ?_
    · rw [hleft]
      simp only [State.push, State.setConn, List.append_assoc]
      rw [← List.append_assoc (s.unread.take n), List.take_append_drop]
    · rw [List.append_nil, hran]
    · cases hnil

theorem Stage.reading {s' : State σ κ} {io : Io} (h : Stage ex s found left r)
    (hcalls : NoBatch s.calls) (hconn : s.conn = some c) (hst : c.st.isSome = true)
    (hok : HandledCall s c .reading io) (hstep : Executor.reading s c io = some s') :
    Stage ex s' found left r := by
  cases io with
  | nothing =>
      simp only [Executor.reading] at hstep
      split at hstep
      · cases hstep
        exact h.keep ⟨rfl, rfl, rfl, rfl⟩ hcalls (noBatch_cons.mpr ⟨by simp, hcalls⟩) hconn rfl
          ⟨rfl, rfl, rfl⟩
      · cases hstep
  | write w => cases hstep
  | poll a b => cases hstep
  | read a =>
      simp only [Executor.reading] at hstep
      split at hstep
      · cases a with
        | bytes n =>
            cases hstep
            refine h.reads hcalls ?_ hconn hst
            intro st cmds
            split <;> simp
        | zero =>
            cases hstep
            exact h.close ⟨rfl, rfl, rfl, rfl⟩ hcalls hcalls hconn rfl hok
        | wouldBlock =>
            cases hstep
            exact h.keep ⟨rfl, rfl, rfl, rfl⟩ hcalls (noBatch_cons.mpr ⟨by simp, hcalls⟩) hconn
              hconn ⟨rfl, rfl, rfl⟩
        | failed =>
            cases hstep
            exact h.close ⟨rfl, rfl, rfl, rfl⟩ hcalls hcalls hconn rfl hok
      · cases hstep

theorem ready_iff : c.ready = true ↔
    c.st.isSome = true ∧ c.close_after_flush = false ∧ c.pending_out ≤ OUTPUT_HIGH_WATER := by
  simp [Conn.ready, and_assoc]

theorem Stage.received (h : Stage ex s found left r) (hcalls : NoBatch s.calls)
    (hconn : s.conn = some c) (hok : c.rbuf.length ≤ QUERY_BUFFER_LIMIT) :
    Stage ex (ex.received s c) found left r := by
  unfold Executor.received
  rw [if_neg (Nat.not_lt.mpr hok)]
  split
  · exact h.keep ⟨rfl, rfl, rfl, rfl⟩ hcalls (noBatch_cons.mpr ⟨by simp, hcalls⟩) hconn hconn
      ⟨rfl, rfl, rfl⟩
  · exact h

/-- `process` parses what was read; `found'` and `left'` are what is parsed after it. -/
theorem Stage.process {stream : Bytes} (hreads : Reads stream found left)
    (h : Stage ex s found left r) (hcalls : NoBatch s.calls) (hconn : s.conn = some c)
    (hok : c.ready = true → RefusedForGood s c) :
    ∃ found' left', Reads stream found' left' ∧ Stage ex (ex.process s c) found' left' r := by
  have hflush : ∀ call : Call κ, (∀ st cmds, call ≠ .batch st cmds) → NoBatch (call :: s.calls) :=
    fun call hcall => noBatch_cons.mpr ⟨hcall, hcalls⟩
  unfold Executor.process
  split
  · next st hst hready =>
      have hclose := (ready_iff.mp hready).2.1
      obtain ⟨hjob, hcompleted, rfl, hnext, hleft, hran, hqueued⟩ :=
        h.cases_of_open hconn hst hclose hcalls
      subst hleft
      split
      · next f cursor hparse =>
          obtain ⟨more, e, hmore, hnil, rfl, hbad⟩ := parse_error hparse
          have hstays := hok hready _ cursor hparse
          rw [hbad] at hstays
          refine ⟨_, _, hreads.trans (hmore.append (s.unread ++ s.unsent)),
            Stage.closing ?_ rfl rfl (hflush .flush (by simp)) hjob hcompleted⟩
          refine .refused e ?_ hstays ?_
          · rw [Resp.pushed_append, hnil, List.append_nil, hran]
          · exact congrArg (· ++ _) hqueued
      · next rest hparse =>
          obtain ⟨more, hmore, hpushed, hstuck⟩ := parse_ok hparse
          refine ⟨_, _, hreads.trans (hmore.append (s.unread ++ s.unsent)), ?_⟩
          refine .serving rest [] (.worker { c with rbuf := rest } r.st rfl hst hclose
            (hflush .flush (by simp)) hjob hcompleted) hnext rfl ?_ hqueued fun hnil => ?_
          · rw [Resp.pushed_append, hpushed, hran]
          · cases hnil
      · next cmds rest hne hparse =>
          obtain ⟨more, hmore, hpushed, hstuck⟩ := parse_ok hparse
          refine ⟨_, _, hreads.trans (hmore.append (s.unread ++ s.unsent)), ?_⟩
          have hran' : r.ran ++ cmds = pushed (found ++ more) := by
            rw [Resp.pushed_append, hpushed, hran]
          split
          · exact .serving rest cmds (.inline { c with rbuf := rest, st := none } r.st cmds s.calls
              rfl rfl hclose rfl hcalls hjob hcompleted) hnext rfl hran' hqueued
              fun hnil => by cases hnil
          · refine .serving rest cmds (.pool
              { st := r.st, cmds := cmds, rbuf := rest, direct := decide (c.pending_out = 0)
                out := [], eof := false, phase := .batch } rfl rfl hcompleted
              (hflush .flush (by simp)) ?_) hnext rfl hran' hqueued fun hnil => by cases hnil
            intro c₁ hc₁
            cases hc₁
            exact ⟨rfl, hclose⟩
  · exact ⟨found, left, hreads, h.keep ⟨rfl, rfl, rfl, rfl⟩ hcalls (hflush .flush (by simp)) hconn
      hconn ⟨rfl, rfl, rfl⟩⟩

/-- A command has ended the connection. -/
theorem Stage.finish_end {ended : BatchEnd} {call : Call κ} (hended : ended ≠ .Continue)
    (hverdict : r.verdict ≠ .next) (hran : r.ran <+: pushed found) (hqueued : s.queued = r.replies)
    (hcalls : NoBatch s.calls) (hjob : s.job = none) (hcompleted : s.completed = none) :
    Stage ex (Executor.finish_batch s c ended call) found left r := by
  have hover : Over ex s found left r := .ended hverdict hran hqueued
  have hflush : NoBatch (.flush :: s.calls) := noBatch_cons.mpr ⟨by simp, hcalls⟩
  have hnone : ∀ c₁ : Conn κ, (none : Option (Conn κ)) = some c₁ → c₁.close_after_flush = true := by
    intro c₁ hc₁
    cases hc₁
  cases ended with
  | Continue => exact absurd rfl hended
  | Quit => exact Stage.closing (hover.same rfl) rfl rfl hflush hjob hcompleted
  | Failed => exact Stage.closing (hover.same rfl) rfl rfl hflush hjob hcompleted
  | Subscribe cmds => exact .finished ⟨hnone, hcalls, hjob, hcompleted⟩ (hover.same rfl)
  | ReplSync => exact .finished ⟨hnone, hcalls, hjob, hcompleted⟩ (hover.same rfl)

theorem batchEnd_ne {v : Verdict} (h : v ≠ .next) (cmd : Command) (more : List Command) :
    v.batchEnd cmd more ≠ .Continue := by
  cases v with
  | next => exact absurd rfl h
  | _ => simp [Verdict.batchEnd]

theorem took_append_left {t : Turn σ κ} (h : t.verdict = .next) (cmd : Command)
    (more : List Command) : t.took cmd more ++ t.left more = cmd :: more := by
  simp only [Turn.took, Turn.left, h, List.cons_append, List.take_append_drop]

theorem took_grows (t : Turn σ κ) (cmd : Command) (more : List Command) :
    t.took cmd more <+: cmd :: more := by
  cases hv : t.verdict with
  | next => exact ⟨t.left more, took_append_left hv cmd more⟩
  | _ => exact ⟨more, by simp only [Turn.took, hv, List.singleton_append]⟩

/-- A turn of the batch on the worker. -/
theorem Stage.batch {st₀ st : κ} {cmds : List Command} (hserves : Serves ex st₀ s.log r)
    (h : Stage ex { s with calls := .batch st cmds :: s.calls } found left r)
    (hconn : s.conn = some c) :
    ∃ r', Serves ex st₀ (ex.batch s c st cmds).log r' ∧
      Stage ex (ex.batch s c st cmds) found left r' := by
  obtain ⟨c₁, hc₁, hst, hclose, hcalls, hjob, hcompleted, rfl, hnext, hleft, hran, hqueued⟩ :=
    h.cases_of_batch rfl
  have hc : some c = some c₁ := hconn.symm.trans hc₁
  cases hc
  cases cmds with
  | nil =>
      refine ⟨r, hserves, ?_⟩
      exact .serving c.rbuf [] (.worker { c with st := some r.st } r.st rfl rfl hclose
        (noBatch_cons.mpr ⟨by simp, hcalls⟩) hjob hcompleted) hnext hleft hran hqueued
        fun hnil => by cases hnil
  | cons cmd more =>
      refine ⟨r.turn ex { db := s.db, cmd := cmd, more := more }, ?_⟩
      have hlog : ∀ s' : State σ κ, s'.log = s.log ++ [{ db := s.db, cmd := cmd, more := more }] →
          Serves ex st₀ s'.log (r.turn ex { db := s.db, cmd := cmd, more := more }) :=
        fun s' heq => heq ▸ .turn hserves hnext _
      have hreplies : s.queued ++ (ex.turn s.db r.st cmd more).replies =
          r.replies ++ (ex.turn s.db r.st cmd more).replies := congrArg (· ++ _) hqueued
      cases hv : (ex.turn s.db r.st cmd more).verdict with
      | next =>
          simp only [Executor.batch, hv]
          refine ⟨hlog _ rfl, ?_⟩
          refine .serving c.rbuf _
            (.inline { c with wbuf := c.wbuf ++ (ex.turn s.db r.st cmd more).replies } _ _ s.calls rfl
              hst hclose rfl hcalls hjob hcompleted)
            hv hleft ?_ hreplies fun hnil => by cases hnil
          rw [← hran, Service.turn, List.append_assoc, took_append_left hv]
      | _ =>
          have hne : (ex.turn s.db r.st cmd more).verdict ≠ .next := by
            rw [hv]
            exact Verdict.noConfusion
          simp only [Executor.batch, hv]
          refine ⟨hlog _ rfl, ?_⟩
          refine Stage.finish_end (hv ▸ batchEnd_ne hne cmd more) hne ?_ hreplies hcalls hjob
            hcompleted
          rw [← hran]
          exact (List.prefix_append_right_inj r.ran).mpr (took_grows _ cmd more)

/-- A batch comes back from the pool. -/
theorem Stage.completions {comp : Completion κ} (h : Stage ex s found left r)
    (hcomp : s.completed = some comp) (hcalls : s.calls = []) (hconn : s.conn = some c)
    (hok : comp.ended = .Continue → comp.eof = true → readCommand s.rest = .more) :
    Stage ex (Executor.completions { s with completed := none } c comp) found left r := by
  have hno : NoBatch ([] : List (Call κ)) := noBatch_nil
  cases h with
  | serving buf pending howner hnext hleft hran hqueued hnone =>
      rw [← howner.held.1] at hleft
      rcases howner.cases_of_noBatch (hcalls ▸ hno) with
        ⟨c₁, hc₁, hst, hclose, hjob, hcompleted, rfl, rfl⟩ |
        ⟨hp, ⟨j, hjob, hphase, hcompleted, hst, rfl, rfl⟩ |
          ⟨comp₁, hcompleted, hended, hjob, hst, rfl, rfl⟩⟩
      · rw [hcomp] at hcompleted
        cases hcompleted
      · rw [hcomp] at hcompleted
        cases hcompleted
      · rw [hcomp, Option.some.injEq] at hcompleted
        subst hcompleted
        rw [List.append_nil] at hran
        have hheld : s.held = comp.rbuf := howner.held.1
        simp only [Executor.completions, hended, Executor.finish_batch]
        have hresume : NoBatch (Executor.resume
            { c with
              rbuf := comp.rbuf, wbuf := c.wbuf ++ comp.out, st := some comp.st,
              close_after_flush := c.close_after_flush || comp.eof,
              more_to_read := c.more_to_read || c.muted, muted := false } :: s.calls) :=
          noBatch_resume (hcalls ▸ hno) _
        cases heof : comp.eof with
        | false =>
            rw [hheld] at hleft
            rw [heof] at hresume
            refine .serving comp.rbuf [] ?_ hnext hleft (by rw [List.append_nil, hran]) hqueued
              fun hnil => by cases hnil
            rw [hst]
            refine .worker
              { c with
                rbuf := comp.rbuf, wbuf := c.wbuf ++ comp.out, st := some comp.st,
                close_after_flush := c.close_after_flush || false,
                more_to_read := c.more_to_read || c.muted, muted := false }
              comp.st rfl rfl ?_ hresume hjob rfl
            exact (Bool.or_false _).trans (hp c hconn).2
        | true =>
            rw [heof] at hresume
            have hmore := hok hended heof
            refine Stage.closing (.drained hran (hleft ▸ hmore) hqueued) rfl ?_ hresume hjob rfl
            exact Bool.or_true _
  | ending hending hverdict hran hqueued =>
      cases hending with
      | pool j hjob hphase hcompleted hno' hp =>
          rw [hcomp] at hcompleted
          cases hcompleted
      | completed comp₁ hcompleted hended hjob hno' hp =>
          rw [hcomp, Option.some.injEq] at hcompleted
          subst hcompleted
          exact Stage.finish_end hended hverdict hran hqueued hno' hjob rfl
  | finished hfinal hover =>
      have hnone := hfinal.completed
      rw [hcomp] at hnone
      cases hnone

end Worker

end EventLoop
end StrikeDB
