import StrikeDB.EventLoopWorker

/-!
# StrikeDB: what the pool thread does to the invariant

* `Stage.goOn`: the pool thread keeps the connection.
* `Stage.complete`: it hands the connection back.
-/

namespace StrikeDB
namespace EventLoop

open Resp (Command Fault ProtocolError Reads Stuck pushed readCommand parse_commands)

variable {σ κ : Type}

/-! ## The pool thread -/

section Pool

variable {ex : Executor σ κ} {s s' : State σ κ} {j : Job κ} {found : List Command} {left : Bytes}
  {r : Service κ}

/-- What stays as it is while the pool thread works. -/
structure Beside (s s' : State σ κ) : Prop where
  conn : s'.conn = s.conn
  calls : s'.calls = s.calls
  completed : s'.completed = s.completed

theorem Owner.of_job {st : κ} {buf : Bytes} {pending : List Command} (h : Owner s st buf pending)
    (hjob : s.job = some j) :
    j.phase.ended = none ∧ s.completed = none ∧ NoBatch s.calls ∧ Parked s.conn ∧ st = j.st ∧
      buf = j.rbuf ∧ pending = j.pending := by
  cases h with
  | worker c st hc hst hclose hno hnone hcompleted =>
      rw [hjob] at hnone
      cases hnone
  | inline c st cmds calls hc hst hclose hbatch hrest hnone hcompleted =>
      rw [hjob] at hnone
      cases hnone
  | pool j₁ hjob₁ hphase hcompleted hno hp =>
      rw [hjob, Option.some.injEq] at hjob₁
      subst hjob₁
      exact ⟨hphase, hcompleted, hno, hp, rfl, rfl, rfl⟩
  | completed comp hcompleted hended hnone hno hp =>
      rw [hjob] at hnone
      cases hnone

theorem Ending.of_job (h : Ending s) (hjob : s.job = some j) :
    j.phase.ended ≠ none ∧ s.completed = none ∧ NoBatch s.calls ∧ Parked s.conn := by
  cases h with
  | pool j₁ hjob₁ hphase hcompleted hno hp =>
      rw [hjob, Option.some.injEq] at hjob₁
      subst hjob₁
      exact ⟨hphase, hcompleted, hno, hp⟩
  | completed comp hcompleted hended hnone hno hp =>
      rw [hjob] at hnone
      cases hnone

/-- The pool thread goes on, with `read` more input and the batch `j'` has. -/
theorem Stage.goOn {r' : Service κ} {found' : List Command} {left' : Bytes} {j' : Job κ}
    (h : Stage ex s found left r) (hjob : s.job = some j) (hphase : j.phase.ended = none)
    (hbeside : Beside s s') (hjob' : s'.job = some j') (hphase' : j'.phase.ended = none)
    (hst : r.st = j.st → r'.st = j'.st) (hnext : r.verdict = .next → r'.verdict = .next)
    (hleft : left = j.rbuf ++ (s.unread ++ s.unsent) → left' = j'.rbuf ++ (s'.unread ++ s'.unsent))
    (hran : r.ran ++ j.pending = pushed found → r'.ran ++ j'.pending = pushed found')
    (hqueued : s.queued = r.replies → s'.queued = r'.replies)
    (hnone : left = j.rbuf ++ (s.unread ++ s.unsent) → readCommand left = .more →
      readCommand left' = .more) :
    Stage ex s' found' left' r' := by
  cases h with
  | serving buf pending howner hn hl hr hq hno =>
      obtain ⟨hp₁, hcompleted, hcalls, hparked, hst₁, rfl, rfl⟩ := howner.of_job hjob
      refine .serving j'.rbuf j'.pending ?_ (hnext hn) (hleft hl) (hran hr) (hqueued hq) ?_
      · rw [hst hst₁]
        exact .pool j' hjob' hphase' (hbeside.completed.trans hcompleted) (hbeside.calls ▸ hcalls)
          (hbeside.conn ▸ hparked)
      · intro hnil
        exact hnone hl (hno (hbeside.conn ▸ hnil))
  | ending hending hverdict hr hq => exact absurd hphase (hending.of_job hjob).1
  | finished hfinal hover =>
      have hnil := hfinal.job
      rw [hjob] at hnil
      cases hnil

/-- The pool thread writes the replies of a batch, whatever came of it. -/
theorem Stage.goOnWriting {j' : Job κ} (h : Stage ex s found left r) (hjob : s.job = some j)
    (hbeside : Beside s s') (hjob' : s'.job = some j') (hphase : j'.phase.ended = j.phase.ended)
    (hst : j'.st = j.st) (hrbuf : j'.rbuf = j.rbuf) (hpending : j.pending = [])
    (hpending' : j'.pending = []) (hinput : s'.unread ++ s'.unsent = s.unread ++ s.unsent)
    (hqueued : s'.queued = s.queued) : Stage ex s' found left r := by
  by_cases hnone : j.phase.ended = none
  · refine h.goOn hjob hnone hbeside hjob' (hphase.trans hnone) (fun heq => heq.trans hst.symm) id
      ?_ ?_ hqueued.trans fun _ => id
    · intro hleft
      rw [hrbuf, hinput]
      exact hleft
    · intro hran
      rw [hpending']
      rw [hpending] at hran
      exact hran
  · cases h with
    | serving buf pending howner hn hl hr hq hno => exact absurd (howner.of_job hjob).1 hnone
    | ending hending hverdict hr hq =>
        obtain ⟨hp, hcompleted, hcalls, hparked⟩ := hending.of_job hjob
        exact .ending (.pool j' hjob' (hphase ▸ hp) (hbeside.completed.trans hcompleted)
          (hbeside.calls ▸ hcalls) (hbeside.conn ▸ hparked)) hverdict hr (hqueued.trans hq)
    | finished hfinal hover =>
        have hnil := hfinal.job
        rw [hjob] at hnil
        cases hnil

/-- `run_owned` returns, with all of its batch run. -/
theorem Stage.complete {ended : BatchEnd} (h : Stage ex s found left r) (hjob : s.job = some j)
    (hpending : j.pending = [])
    (hended : j.phase.ended = if ended = .Continue then none else some ended) :
    Stage ex (Executor.complete s j ended) found left r := by
  cases h with
  | serving buf pending howner hn hl hr hq hno =>
      obtain ⟨hphase, hcompleted, hcalls, hparked, hst, rfl, rfl⟩ := howner.of_job hjob
      rw [hphase] at hended
      have hcontinue : ended = .Continue := by
        by_contra hne
        rw [if_neg hne] at hended
        cases hended
      subst hcontinue
      refine .serving j.rbuf [] ?_ hn hl (hpending ▸ hr) hq hno
      rw [hst]
      exact .completed { st := j.st, out := j.out, ended := .Continue, rbuf := j.rbuf, eof := j.eof }
        rfl rfl rfl hcalls hparked
  | ending hending hverdict hr hq =>
      obtain ⟨hphase, hcompleted, hcalls, hparked⟩ := hending.of_job hjob
      refine .ending (.completed _ rfl ?_ rfl hcalls hparked) hverdict hr hq
      intro hcontinue
      rw [if_pos hcontinue] at hended
      exact hphase hended
  | finished hfinal hover =>
      have hnil := hfinal.job
      rw [hjob] at hnil
      cases hnil

/-- The batch is run: the pool thread writes the replies or returns. -/
theorem Stage.batchOver {r' : Service κ} {ended : BatchEnd} (h : Stage ex s found left r)
    (hjob : s.job = some j) (hphase : j.phase = .batch) {j' : Job κ}
    (hrbuf : j'.rbuf = j.rbuf) (hbeside : Beside s s') (hunread : s'.unread = s.unread)
    (hunsent : s'.unsent = s.unsent) (hqueued : s.queued = r.replies → s'.queued = r'.replies)
    (hnext : r.verdict = .next → (ended = .Continue ↔ r'.verdict = .next))
    (hst : r'.st = j'.st) (hran : r.ran ++ j.cmds = pushed found → r'.ran <+: pushed found)
    (hall : ended = .Continue → r.ran ++ j.cmds = pushed found → r'.ran = pushed found) :
    Stage ex (Executor.batchOver s' j' ended) found left r' := by
  have hnone : j.phase.ended = none := by
    rw [hphase]
    rfl
  cases h with
  | ending hending hverdict hr hq => exact absurd hnone (hending.of_job hjob).1
  | finished hfinal hover =>
      have hnil := hfinal.job
      rw [hjob] at hnil
      cases hnil
  | serving buf pending howner hn hl hr hq hno =>
      obtain ⟨_, hcompleted, hcalls, hparked, hst₁, rfl, rfl⟩ := howner.of_job hjob
      rw [Job.pending, hphase] at hr
      have hcalls' : NoBatch s'.calls := hbeside.calls ▸ hcalls
      have hparked' : Parked s'.conn := hbeside.conn ▸ hparked
      have hleft : left = j'.rbuf ++ (s'.unread ++ s'.unsent) := by
        rw [hrbuf, hunread, hunsent]
        exact hl
      unfold Executor.batchOver
      by_cases hcontinue : ended = .Continue
      · have hran' : r'.ran ++ [] = pushed found := (List.append_nil _).trans (hall hcontinue hr)
        have hnext' := (hnext hn).mp hcontinue
        split
        · refine .serving j'.rbuf [] ?_ hnext' hleft hran' (hqueued hq) (hbeside.conn ▸ hno)
          rw [hst]
          refine .pool { j' with phase := .write ended } rfl ?_ (hbeside.completed.trans hcompleted)
            hcalls' hparked'
          rw [hcontinue]
          rfl
        · refine .serving j'.rbuf [] ?_ hnext' hleft hran' (hqueued hq) (hbeside.conn ▸ hno)
          rw [hst]
          exact .completed
            { st := j'.st, out := j'.out, ended := ended, rbuf := j'.rbuf, eof := j'.eof } rfl
            hcontinue rfl hcalls' hparked'
      · have hverdict : r'.verdict ≠ .next := fun heq => hcontinue ((hnext hn).mpr heq)
        split
        · refine .ending (.pool _ rfl ?_ (hbeside.completed.trans hcompleted) hcalls' hparked')
            hverdict (hran hr) (hqueued hq)
          simp only [Phase.ended, if_neg hcontinue, ne_eq, reduceCtorEq, not_false_eq_true]
        · exact .ending (.completed _ rfl hcontinue rfl hcalls' hparked') hverdict (hran hr)
            (hqueued hq)

/-- A turn of the batch on the pool thread. -/
theorem Stage.ownedBatch {st₀ : κ} (hserves : Serves ex st₀ s.log r)
    (h : Stage ex s found left r) (hjob : s.job = some j) (hphase : j.phase = .batch) :
    ∃ r', Serves ex st₀ (ex.ownedBatch s j).log r' ∧
      Stage ex (ex.ownedBatch s j) found left r' := by
  have hnone : j.phase.ended = none := by
    rw [hphase]
    rfl
  have hserving : r.verdict = .next ∧ r.st = j.st := by
    cases h with
    | ending hending hverdict hr hq => exact absurd hnone (hending.of_job hjob).1
    | finished hfinal hover =>
        have hnil := hfinal.job
        rw [hjob] at hnil
        cases hnil
    | serving buf pending howner hn hl hr hq hno => exact ⟨hn, (howner.of_job hjob).2.2.2.2.1⟩
  obtain ⟨hnext, hst⟩ := hserving
  have hlog : ∀ (s' : State σ κ) (j' : Job κ) (ended : BatchEnd),
      (Executor.batchOver s' j' ended).log = s'.log := by
    intro s' j' ended
    unfold Executor.batchOver
    split <;> rfl
  unfold Executor.ownedBatch
  split
  · next hcmds =>
      refine ⟨r, hlog s j .Continue ▸ hserves, ?_⟩
      refine h.batchOver hjob hphase rfl ⟨rfl, rfl, rfl⟩ rfl rfl id (fun _ => by simp [hnext]) hst
        ?_ ?_
      · rw [hcmds, List.append_nil]
        intro hran
        exact hran ▸ List.prefix_refl _
      · rw [hcmds, List.append_nil]
        exact fun _ => id
  · next cmd more hcmds =>
      have hturn := Serves.turn hserves hnext { db := s.db, cmd := cmd, more := more }
      refine ⟨r.turn ex { db := s.db, cmd := cmd, more := more }, ?_⟩
      simp only
      split
      · next hv =>
          refine ⟨hturn, ?_⟩
          refine h.goOn hjob hnone ⟨rfl, rfl, rfl⟩ rfl (by rw [hphase]; rfl) (fun _ => ?_)
            (fun _ => ?_) id ?_ ?_ fun _ => id
          · rw [Service.turn, hst]
          · rw [Service.turn, hst]
            exact hv
          · simp only [Job.pending, hphase, hcmds, Service.turn, hst, List.append_assoc,
              took_append_left hv]
            exact id
          · intro hq
            simp only [Executor.setJob, Service.turn, hst, hq]
      · next v hne =>
          refine ⟨(hlog _ _ _).symm ▸ hturn, ?_⟩
          have hne' : (ex.turn s.db j.st cmd more).verdict ≠ .next := fun heq => hne heq
          refine h.batchOver hjob hphase rfl ⟨rfl, rfl, rfl⟩ rfl rfl ?_ ?_ ?_ ?_ ?_
          · intro hq
            simp only [Service.turn, hst, hq]
          · intro _
            rw [Service.turn, hst]
            exact iff_of_false (batchEnd_ne hne' cmd more) hne'
          · rw [Service.turn, hst]
          · rw [Service.turn, hst, hcmds]
            intro hran
            exact hran ▸ (List.prefix_append_right_inj r.ran).mpr (took_grows _ cmd more)
          · intro hcontinue
            exact absurd hcontinue (batchEnd_ne hne' cmd more)

theorem Stage.ownedWritten {ended : BatchEnd} (h : Stage ex s found left r)
    (hjob : s.job = some j) (hphase : j.phase = .written ended) :
    Stage ex (Executor.ownedWritten s j ended) found left r := by
  have hpending : j.pending = [] := by rw [Job.pending, hphase]
  have hended : j.phase.ended = if ended = .Continue then none else some ended := by
    rw [hphase]
    rfl
  unfold Executor.ownedWritten
  split
  · exact h.complete hjob hpending hended
  · next hnot =>
      have hcontinue : ended = .Continue := by
        by_contra hne
        exact hnot (.inr (.inl hne))
      refine h.goOnWriting hjob ⟨rfl, rfl, rfl⟩ rfl ?_ rfl rfl hpending rfl rfl rfl
      rw [hended, if_pos hcontinue]
      rfl

theorem Stage.ownedWrite {ended : BatchEnd} {io : Io} (h : Stage ex s found left r)
    (hjob : s.job = some j) (hphase : j.phase = .write ended)
    (hstep : Executor.ownedWrite s j ended io = some s') : Stage ex s' found left r := by
  have hpending : j.pending = [] := by rw [Job.pending, hphase]
  have hended : Phase.ended (.written ended) = j.phase.ended := by
    rw [hphase]
    rfl
  cases io with
  | read a => cases hstep
  | poll a b => cases hstep
  | nothing =>
      simp only [Executor.ownedWrite] at hstep
      split at hstep
      · cases hstep
        exact h.goOnWriting hjob ⟨rfl, rfl, rfl⟩ rfl hended rfl rfl hpending rfl rfl rfl
      · cases hstep
  | write w =>
      simp only [Executor.ownedWrite] at hstep
      split at hstep
      · cases w with
        | bytes n =>
            cases hstep
            exact h.goOnWriting hjob ⟨rfl, rfl, rfl⟩ rfl rfl rfl rfl hpending
              (by rw [Job.pending, hphase]) rfl rfl
        | wouldBlock =>
            cases hstep
            exact h.goOnWriting hjob ⟨rfl, rfl, rfl⟩ rfl hended rfl rfl hpending rfl rfl rfl
        | failed =>
            cases hstep
            exact h.goOnWriting hjob ⟨rfl, rfl, rfl⟩ rfl hended rfl rfl hpending rfl rfl rfl
      · cases hstep

theorem Stage.ownedNext {stream : Bytes} {waits reads : Nat} {backlogged quiet : Bool}
    (hreads : Reads stream found left) (h : Stage ex s found left r) (hjob : s.job = some j)
    (hphase : j.phase = .next waits reads) :
    ∃ found' left', Reads stream found' left' ∧
      Stage ex (Executor.ownedNext s j waits reads backlogged quiet) found' left' r := by
  have hpending : j.pending = [] := by rw [Job.pending, hphase]
  have hended : j.phase.ended = none := by
    rw [hphase]
    rfl
  have hserving : left = j.rbuf ++ (s.unread ++ s.unsent) := by
    cases h with
    | ending hending hverdict hr hq => exact absurd hended (hending.of_job hjob).1
    | finished hfinal hover =>
        have hnil := hfinal.job
        rw [hjob] at hnil
        cases hnil
    | serving buf pending howner hn hl hr hq hno =>
        obtain ⟨_, _, _, _, _, rfl, _⟩ := howner.of_job hjob
        exact hl
  subst hserving
  unfold Executor.ownedNext
  split
  · refine ⟨found, _, hreads, h.complete hjob hpending ?_⟩
    exact hended
  · next rest hparse =>
      obtain ⟨more, hmore, hpushed, hstuck⟩ := parse_ok hparse
      refine ⟨_, _, hreads.trans (hmore.append (s.unread ++ s.unsent)), ?_⟩
      have hmore' : readCommand (j.rbuf ++ (s.unread ++ s.unsent)) = .more →
          readCommand (rest ++ (s.unread ++ s.unsent)) = .more := by
        intro hread
        rw [reads_more (hmore.append (s.unread ++ s.unsent)) hread]
        exact hread
      -- empty commands are parsed and not run
      have hgo : ∀ (phase : Phase), phase.ended = none →
          (∀ j' : Job κ, j'.phase = phase → j'.pending = []) →
          Stage ex (Executor.setJob s { j with rbuf := rest, phase := phase })
            (found ++ more) (rest ++ (s.unread ++ s.unsent)) r := by
        intro phase hphase' hpending'
        refine h.goOn hjob hended ⟨rfl, rfl, rfl⟩ rfl hphase' id id (fun _ => rfl) ?_ id
          fun _ => hmore'
        rw [Resp.pushed_append, hpushed, hpending, hpending' _ rfl, List.append_nil, List.append_nil]
        exact id
      have hcomplete : Stage ex (Executor.complete s { j with rbuf := rest } .Continue)
          (found ++ more) (rest ++ (s.unread ++ s.unsent)) r := by
        have hjob' := hgo j.phase hended (by
          intro j' hj'
          rw [Job.pending, hj', hphase])
        exact hjob'.complete (j := { j with rbuf := rest }) rfl hpending hended
      simp only
      split
      · exact hcomplete
      · split
        · exact hcomplete
        · split
          · exact hgo (.next (waits + 1) reads) rfl fun j' hj' => by rw [Job.pending, hj']
          · exact hgo (.read waits (reads + 1)) rfl fun j' hj' => by rw [Job.pending, hj']
  · next cmds rest hne hparse =>
      obtain ⟨more, hmore, hpushed, hstuck⟩ := parse_ok hparse
      refine ⟨_, _, hreads.trans (hmore.append (s.unread ++ s.unsent)), ?_⟩
      refine h.goOn hjob hended ⟨rfl, rfl, rfl⟩ rfl rfl id id (fun _ => rfl) ?_ id ?_
      · rw [Resp.pushed_append, hpushed, hpending, List.append_nil]
        intro hran
        rw [hran]
        rfl
      · intro _ hread
        rw [reads_more (hmore.append (s.unread ++ s.unsent)) hread]
        exact hread

theorem Stage.ownedRead {waits reads : Nat} {io : Io} (h : Stage ex s found left r)
    (hjob : s.job = some j) (hphase : j.phase = .read waits reads)
    (hstep : Executor.ownedRead s j waits reads io = some s') : Stage ex s' found left r := by
  have hpending : j.pending = [] := by rw [Job.pending, hphase]
  have hended : j.phase.ended = none := by
    rw [hphase]
    rfl
  have htake : ∀ n, s.unread.take n ++ (s.unread.drop n ++ s.unsent) = s.unread ++ s.unsent := by
    intro n
    rw [← List.append_assoc, List.take_append_drop]
  cases io with
  | nothing => cases hstep
  | write w => cases hstep
  | poll a b => cases hstep
  | read a =>
      simp only [Executor.ownedRead] at hstep
      split at hstep
      · cases a with
        | bytes n =>
            simp only at hstep
            split at hstep
            · cases hstep
              refine h.goOn hjob hended ⟨rfl, rfl, rfl⟩ rfl rfl id id ?_ ?_ id fun _ => id
              · intro hleft
                rw [hleft]
                simp only [Executor.setJob, List.append_assoc, htake]
              · rw [hpending]
                exact id
            · cases hstep
              refine h.goOn hjob hended ⟨rfl, rfl, rfl⟩ rfl hended id id ?_ ?_ id fun _ => id
              · intro hleft
                rw [hleft]
                simp only [Executor.setJob, List.append_assoc, htake]
              · simp only [Job.pending, hphase]
                exact id
        | wouldBlock =>
            cases hstep
            exact h.goOnWriting hjob ⟨rfl, rfl, rfl⟩ rfl hended.symm rfl rfl hpending rfl rfl rfl
        | zero =>
            cases hstep
            exact h.goOnWriting hjob ⟨rfl, rfl, rfl⟩ rfl hended.symm rfl rfl hpending rfl rfl rfl
        | failed =>
            cases hstep
            exact h.goOnWriting hjob ⟨rfl, rfl, rfl⟩ rfl hended.symm rfl rfl hpending rfl rfl rfl
      · cases hstep

end Pool

end EventLoop
end StrikeDB
