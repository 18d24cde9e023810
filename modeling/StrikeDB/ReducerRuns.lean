import StrikeDB.CommitProgress
import StrikeDB.ReducerBreakers

/-!
# StrikeDB: reducers are sandboxed and atomic

An invocation reads at one snapshot while other clients commit.  What its machine has
done so far is what the program does alone on any store that agrees with the reads, and
when the commit is answered with success the store immediately before it does.  An
invocation that fails leaves no event, whether it has submitted a commit or not.

FLUSHALL breaks this as it breaks the transactions below: it removes the version chains
by which a commit would see that a key has changed.

**Results.**
* `Call.Holds.other`, `Proceeds.advances`: steps of others, and of the thread itself, keep
  what is known about a call.
* `reducers_atomic`: every program ends within its fuel, and in every run in which no
  FLUSHALL takes away a value that a running reducer has read, the answers of all
  invocations are right.
* `flushed_counter`: a counter reducer that a FLUSHALL overtakes.
-/

namespace StrikeDB

section Slots

variable {ρ : Type}

/-! ### One slot of the engine -/

theorem find?_replace (t : TxnSlot) (l : List TxnSlot) (id : Nat) :
    (l.map fun u => if u.id = t.id then t else u).find? (fun u => u.id = id) =
      if t.id = id then (l.find? fun u => u.id = id).map fun _ => t
      else l.find? fun u => u.id = id := by
  induction l with
  | nil => simp
  | cons u l ih =>
      rw [List.map_cons, List.find?_cons, List.find?_cons, ih]
      by_cases hu : u.id = t.id
      · rw [if_pos hu, hu]
        by_cases ht : t.id = id <;> simp [ht]
      · rw [if_neg hu]
        by_cases hid : u.id = id
        · have ht : t.id ≠ id := fun h => hu (hid.trans h.symm)
          simp [hid, ht]
        · simp [hid]

theorem find?_eraseP_ne {i j : Nat} (hne : j ≠ i) (l : List TxnSlot) :
    (l.eraseP fun u => u.id = j).find? (fun u => u.id = i) = l.find? fun u => u.id = i := by
  induction l with
  | nil => rfl
  | cons u l ih =>
      by_cases hj : u.id = j
      · have hi : u.id ≠ i := fun h => hne (hj.symm.trans h)
        rw [List.eraseP_cons_of_pos (by simpa using hj), List.find?_cons]
        simp [hi]
      · rw [List.eraseP_cons_of_neg (by simpa using hj), List.find?_cons, List.find?_cons, ih]

namespace Engine

theorem slot_setSlot_self {s : Engine ρ} {t u : TxnSlot} (h : s.slot t.id = some u) :
    (s.setSlot t).slot t.id = some t := by
  rw [slot] at h
  rw [slot, setSlot, find?_replace, if_pos rfl, h]
  rfl

theorem slot_setSlot_ne (s : Engine ρ) {t : TxnSlot} {id : Nat} (h : t.id ≠ id) :
    (s.setSlot t).slot id = s.slot id := by
  rw [slot, setSlot, find?_replace, if_neg h]
  rfl

theorem slot_congr {s s' : Engine ρ} (h : s'.txns = s.txns) (id : Nat) :
    s'.slot id = s.slot id := by
  rw [slot, slot, h]

/-- A step that works on another transaction leaves a slot. -/
theorem slot_step
    {s s' : Engine ρ} {act : Act ρ} (hst : Step s act s') {id : Nat}
    (hother : Compute.slotOf act ≠ some id) :
    s'.slot id = s.slot id := by
  cases hst with
  | begin_ _ =>
      have hne : (_ : Nat) ≠ id := fun h => hother (congrArg some h)
      rw [slot, slot, List.find?_cons]
      simp [hne]
  | ownRead => rfl
  | txnGet ht _ _ =>
      obtain ⟨_, rfl⟩ := slot_mem ht
      exact slot_setSlot_ne s fun h => hother (congrArg some h)
  | txnPut _ ht _ =>
      obtain ⟨_, rfl⟩ := slot_mem ht
      exact slot_setSlot_ne s fun h => hother (congrArg some h)
  | txnCommit ht _ hsub =>
      obtain ⟨_, rfl⟩ := slot_mem ht
      refine Eq.trans (slot_setSlot_ne _ ?_) (slot_congr (submits_txns hsub).1 id)
      exact fun h => hother (congrArg some h)
  | txnDrop _ _ => exact find?_eraseP_ne (fun h => hother (congrArg some h)) _
  | submit hsub => exact slot_congr (submits_txns hsub).1 id
  | work hw => exact slot_congr (works_txns hw).1 id
  | _ => rfl

end Engine
end Slots

namespace Compute

section Runtime

variable {ρ : Type}

/-! ### What is known about a call -/

/-- What the engine keeps in every run. -/
structure Base (e : Engine ρ) : Prop where
  sound : e.Sound
  shaped : e.Shaped
  ledger : e.Ledger
  clean : e.Clean

theorem Base.step
    {e e' : Engine ρ} {act : Act ρ} (h : Base e) (hok : e.Ordinary act)
    (hst : Engine.Step e act e') :
    Base e' where
  sound := h.sound.step hok hst
  shaped := h.shaped.step hst
  ledger := h.ledger.step h.sound.timely h.shaped hok hst
  clean := h.clean.step hst

/-- A store that answers as the transaction was answered. -/
def Agrees (u : TxnSlot) (read : Key → Option Value) : Prop :=
  ∀ kv ∈ u.obtained, read kv.1 = kv.2

/-- The store is as the invocation found it: nothing was committed for it. -/
def Untouched (e : Engine ρ) (c : Call) : Prop :=
  ∀ ts, c.submitted = some ts →
    ts ≤ e.core.visible_ts ∧ ∀ ev ∈ e.history, ev.ts ≠ ts

/-- The commit of the invocation is what its program, run alone on the store immediately
before, writes and returns. -/
def Atomic (e : Engine ρ) (fuel : Nat) (c : Call) (vm : Vm) (output : Option Int64) : Prop :=
  ∃ ts writes, c.submitted = some ts ∧ ts ≤ e.core.visible_ts ∧
    Event.commit ts (opMuts ts writes) ∈ e.history ∧
    (Vm.new fuel).run c.prog (e.before ts).value ∅ = some (.returned vm writes (.ok output))

/-- The program, run alone on any store that agrees with the reads, returns this. -/
def Returns (fuel : Nat) (c : Call) (u : TxnSlot) (vm : Vm) (output : Option Int64) : Prop :=
  ∀ read, Agrees u read →
    (Vm.new fuel).run c.prog read ∅ = some (.returned vm u.txn.writes (.ok output))

/-- What is known about a call in each stage. -/
def Call.Holds (e : Engine ρ) (fuel : Nat) (c : Call) : Prop :=
  match c.stage with
  | .running vm pc =>
      c.submitted = none ∧ ∃ u, e.slot c.id = some u ∧ u.committing = none ∧
        ∀ read, Agrees u read →
          Metered.Leads (Frame.next c.prog read)
            { vm := Vm.new fuel, pc := 0, writes := ∅ }
            { vm := vm, pc := pc, writes := u.txn.writes }
  | .finished vm output =>
      c.submitted = none ∧ ∃ u, e.slot c.id = some u ∧ u.committing = none ∧
        Returns fuel c u vm output
  | .committing vm output =>
      ∃ u ts, c.submitted = some ts ∧ e.slot c.id = some u ∧ u.committing = some ts ∧
        e.Progress (u.txn.pending ts) (fun _ _ => True) ∧ Returns fuel c u vm output
  | .succeeded vm output => Atomic e fuel c vm output
  | .returned (.ok used output) => ∃ vm, used = vm.fuel_used ∧ Atomic e fuel c vm output
  | .entered | .admitted | .guarded => c.submitted = none
  | .refused | .failed _ | .unwinding _ | .returned (.aborted _) | .returned .quarantined =>
      Untouched e c
  | .crashed => False

theorem Untouched.of_none {e : Engine ρ} {c : Call} (h : c.submitted = none) :
    Untouched e c := by
  intro ts hts
  rw [h] at hts
  cases hts

theorem Untouched.step
    {e e' : Engine ρ} {act : Act ρ} {c : Call} (h : Untouched e c) (hb : Base e)
    (hok : e.Ordinary act) (hst : Engine.Step e act e') :
    Untouched e' c := by
  intro ts hts
  obtain ⟨hle, hno⟩ := h ts hts
  have hbatch := Engine.batch_step hb.sound.timely hb.shaped hok hst
  refine ⟨hle.trans (Engine.visible_ts_mono hst), fun ev hev heq => ?_⟩
  exact hno ev (Engine.event_step hb.sound.timely hbatch (heq ▸ hle) hev) heq

theorem Atomic.step
    {e e' : Engine ρ} {act : Act ρ} {fuel : Nat} {c : Call} {vm : Vm} {output : Option Int64}
    (h : Atomic e fuel c vm output) (hb : Base e) (hok : e.Ordinary act)
    (hst : Engine.Step e act e') :
    Atomic e' fuel c vm output := by
  obtain ⟨ts, writes, hts, hle, hev, hrun⟩ := h
  have hbatch := Engine.batch_step hb.sound.timely hb.shaped hok hst
  refine ⟨ts, writes, hts, hle.trans (Engine.visible_ts_mono hst), hbatch.history_subset hev, ?_⟩
  rw [Engine.before_step hb.sound.timely hbatch hle]
  exact hrun

theorem always_true (pw : PendingWrite ρ) : pw.Always fun _ _ => True :=
  fun _ _ _ _ _ _ _ _ => trivial

/-- A step that works on a transaction is not one of a thread that works on a batch. -/
theorem client_of_slot {act : Act ρ} {id : Nat} (h : slotOf act = some id) :
    ∀ a io, act ≠ .work a io := by
  rintro a io rfl
  cases h

/-- A step that does not work on the transaction of a call keeps what is known. -/
theorem Call.Holds.other
    {e e' : Engine ρ} {act : Act ρ} {fuel : Nat} {c : Call} (h : c.Holds e fuel) (hb : Base e)
    (hok : e.Ordinary act) (hst : Engine.Step e act e') (hother : slotOf act ≠ some c.id) :
    c.Holds e' fuel := by
  have hslot := Engine.slot_step hst hother
  unfold Call.Holds at h ⊢
  cases hc : c.stage with
  | entered | admitted | guarded =>
      rw [hc] at h
      exact h
  | running vm pc =>
      rw [hc] at h
      simp only [hslot]
      exact h
  | finished vm output =>
      rw [hc] at h
      simp only [hslot]
      exact h
  | committing vm output =>
      rw [hc] at h
      obtain ⟨u, ts, hts, hu, hcom, hprog, hret⟩ := h
      refine ⟨u, ts, hts, hslot.trans hu, hcom, ?_, hret⟩
      exact hprog.step hb.sound.timely hb.shaped hb.clean hb.ledger hok hst rfl (always_true _)
  | succeeded vm output =>
      rw [hc] at h
      exact Atomic.step h hb hok hst
  | refused =>
      rw [hc] at h
      exact Untouched.step h hb hok hst
  | failed err =>
      rw [hc] at h
      exact Untouched.step h hb hok hst
  | unwinding err =>
      rw [hc] at h
      exact Untouched.step h hb hok hst
  | returned r =>
      rw [hc] at h
      cases r with
      | ok used output =>
          obtain ⟨vm, hused, hat⟩ := h
          exact ⟨vm, hused, hat.step hb hok hst⟩
      | aborted err => exact Untouched.step h hb hok hst
      | quarantined => exact Untouched.step h hb hok hst
  | crashed =>
      rw [hc] at h
      exact h

/-! ### The thread of a call -/

/-- What a read of a running program does to its transaction. -/
theorem txnGet_slot
    {e e' : Engine ρ} {id : Nat} {key : Key} {t : TxnSlot} (ht : e.slot id = some t)
    (hopen : t.committing = none) (h : e.txnGet id key = some e') :
    ∃ t', e'.slot id = some t' ∧ t'.committing = none ∧ t'.txn.writes = t.txn.writes ∧
      ∀ read, Agrees t' read →
        Agrees t read ∧ lookup t.txn.writes read key = (Txn.get e.core t.txn key).1 := by
  obtain ⟨_, rfl⟩ := Engine.slot_mem ht
  rw [Engine.txnGet, ht] at h
  dsimp only at h
  rw [if_neg (by simp [hopen])] at h
  split at h
  · next hmem =>
      cases h
      refine ⟨t, ht, hopen, rfl, fun read hread => ⟨hread, ?_⟩⟩
      obtain ⟨v, hv⟩ := Option.isSome_iff_exists.mp
        (Std.ExtTreeMap.isSome_getElem?_iff_mem.mpr hmem)
      rw [lookup, Txn.get, hv]
  · next hmem =>
      have hnone : t.txn.writes[key]? = none := by simpa using hmem
      split at h
      · cases h
        refine ⟨_, Engine.slot_setSlot_self (t := { t with
          txn := (Txn.get e.core t.txn key).2
          obtained := t.obtained ++ [(key, (Txn.get e.core t.txn key).1)] }) ht, hopen, ?_, ?_⟩
        · simp only [Txn.get, hnone]
        · intro read hread
          refine ⟨fun kv hkv => hread kv (List.mem_append_left _ hkv), ?_⟩
          have hlast := hread _ (List.mem_append_right _ (List.mem_singleton.mpr rfl))
          rw [lookup, hnone]
          exact hlast
      · cases h

theorem txnPut_slot
    {e e' : Engine ρ} {id : Nat} {key : Key} {v : Value} {t : TxnSlot}
    (ht : e.slot id = some t) (hopen : t.committing = none)
    (h : e.txnPut id key (some v) = some e') :
    e'.slot id = some { t with txn := t.txn.put key v } := by
  obtain ⟨_, rfl⟩ := Engine.slot_mem ht
  rw [Engine.txnPut, ht] at h
  dsimp only at h
  rw [if_neg (by simp [hopen])] at h
  cases h
  exact Engine.slot_setSlot_self (t := { t with txn := t.txn.put key v }) ht

/-- What has been led to is part of the run that it is led to by. -/
theorem returns_of_leads
    {fuel : Nat} {c : Call} {u : TxnSlot} {vm vm' : Vm} {pc : Nat} {output : Option Int64}
    (hlead : ∀ read, Agrees u read →
      Metered.Leads (Frame.next c.prog read) { vm := Vm.new fuel, pc := 0, writes := ∅ }
        { vm := vm, pc := pc, writes := u.txn.writes })
    (hr : vm.round c.prog pc = .halt vm' (.ok output)) :
    Returns fuel c u vm' output := by
  intro read hread
  refine (hlead read hread).rounds (Frame.pays c.prog read) ?_ (Nat.lt_succ_self _)
  simp only [Frame.next, hr]

/-- An answer to a commit is one of the replies of the engine. -/
theorem reply_of_answer
    {s : Runtime ρ} {c : Call} {rep : Reply ρ} (h : s.answer c = some rep) {ts : Nat}
    (hts : c.submitted = some ts) :
    (ts, rep) ∈ s.engine.replies := by
  rw [Runtime.answer, hts, Option.bind_some] at h
  obtain ⟨r, hr, rfl⟩ := Option.map_eq_some_iff.mp h
  have hmem := List.mem_of_find?_eq_some hr
  have hkey : r.1 = ts := by simpa using List.find?_some hr
  rw [← hkey]
  exact hmem

/-- A commit that was answered with an error left no event. -/
theorem untouched_of_error
    {e : Engine ρ} (hb : Base e) {c : Call} {ts : Nat} (hts : c.submitted = some ts)
    {u : TxnSlot} (hprog : e.Progress (u.txn.pending ts) fun _ _ => True) {rep : Reply ρ}
    (hrep : (ts, rep) ∈ e.replies) (hno : ¬ rep.IsOk) :
    Untouched e c := by
  have hle : ts ≤ e.core.visible_ts := hb.ledger.replies_le _ hrep
  intro ts' hts'
  obtain rfl : ts = ts' := Option.some.inj (hts.symm.trans hts')
  refine ⟨hle, ?_⟩
  cases hprog with
  | waiting hmem =>
      have := (hb.sound.timely.fresh _ (Engine.unresolved_subset_pending e hmem)).1
      exact absurd hle (Nat.not_le_of_lt this)
  | resolved hj hmem _ =>
      have := (hb.sound.timely.busy_facts hj).2.2.1 _ (Job.fst_mem_batch hmem)
      exact absurd hle (Nat.not_le_of_lt this)
  | answered _ _ hans =>
      rcases hans rep hrep with ⟨_, _, _, rfl, _⟩ | ⟨_, hev⟩
      · exact absurd trivial hno
      · exact hev

/-- A commit that was answered with success is the program's own. -/
theorem atomic_of_success
    {e : Engine ρ} (hb : Base e) {fuel : Nat} {c : Call} {u : TxnSlot} {ts : Nat}
    (hts : c.submitted = some ts) (hcom : u.committing = some ts) (hf : e.Followed u)
    {vm : Vm} {output : Option Int64} (hret : Returns fuel c u vm output)
    {v : Option Int64} {out : Option ρ} (hrep : (ts, .ok v out) ∈ e.replies) :
    Atomic e fuel c vm output := by
  obtain ⟨hread, hev⟩ :=
    (hf.stage.last hb.sound.timely hb.ledger hcom hrep).1 v out hrep
  exact ⟨ts, u.txn.writes, hts, hb.ledger.replies_le _ hrep, hev, hret _ hread⟩

/-- A step of the thread of `c`: the engine makes a step on its transaction, or none, and
the call goes on. -/
structure Advances (s : Runtime ρ) (c : Call) (s' : Runtime ρ) (c' : Call) : Prop where
  id : c'.id = c.id
  calls : s'.calls = (s.setCall c').calls
  fuel : s'.default_fuel = s.default_fuel
  engine : s'.engine = s.engine ∨ ∃ act, slotOf act = some c.id ∧
    s.engine.Ordinary act ∧ Engine.Step s.engine act s'.engine
  reads : c'.stage.reads = true → c.stage.reads = true ∨ s.engine.slot c.id = none
  holds : c'.Holds s'.engine s'.default_fuel

/-- The call goes on without the engine. -/
theorem Advances.quiet
    {s : Runtime ρ} {c : Call} {stage : Stage}
    (hreads : stage.reads = true → c.stage.reads = true)
    (hholds : ({ c with stage := stage } : Call).Holds s.engine s.default_fuel) :
    Advances s c (s.toStage c s.engine stage) { c with stage := stage } where
  id := rfl
  calls := rfl
  fuel := rfl
  engine := Or.inl rfl
  reads := fun h => Or.inl (hreads h)
  holds := hholds

/-- The call goes on with a step of the engine on its transaction. -/
theorem Advances.moved
    {s : Runtime ρ} {c c₁ : Call} {act : Act ρ} {e : Engine ρ} {stage : Stage}
    (hst : Engine.Step s.engine act e) (hid : c₁.id = c.id) (hslot : slotOf act = some c.id)
    (hok : s.engine.Ordinary act)
    (hreads : stage.reads = true → c.stage.reads = true ∨ s.engine.slot c.id = none)
    (hholds : ({ c₁ with stage := stage } : Call).Holds e s.default_fuel) :
    Advances s c (s.toStage c₁ e stage) { c₁ with stage := stage } where
  id := hid
  calls := rfl
  fuel := rfl
  engine := Or.inr ⟨act, hslot, hok, hst⟩
  reads := hreads
  holds := hholds

/-- The call is recorded with its breaker. -/
theorem Advances.recorded
    {s s₁ : Runtime ρ} {c : Call} {n : Note} (hm : Runtime.Moment s s₁ c.name n)
    {stage : Stage} (hreads : stage.reads = false)
    (hholds : ({ c with stage := stage } : Call).Holds s.engine s.default_fuel) :
    Advances s c (s₁.toStage c s.engine stage) { c with stage := stage } where
  id := rfl
  calls := by
    simp only [Runtime.toStage, Runtime.setCall, hm.calls]
  fuel := hm.fuel
  engine := Or.inl rfl
  reads := fun h => by
    rw [hreads] at h
    cases h
  holds := by
    show Call.Holds s.engine s₁.default_fuel _
    rw [hm.fuel]
    exact hholds

/-- The commit of a call whose program has returned. -/
theorem holds_commit
    {e e' : Engine ρ} {fuel : Nat} {c : Call} {vm : Vm} {output : Option Int64}
    {u : TxnSlot} (hu : e.slot c.id = some u) (hret : Returns fuel c u vm output)
    (hok : e.Ordinary (.txnCommit c.id)) (hst : Engine.Step e (.txnCommit c.id) e') :
    ({ c with submitted := some (e.clock + 1), stage := .committing vm output } : Call).Holds
      e' fuel := by
  generalize hid : c.id = id at hst hok hu
  cases hst with
  | @txnCommit _ t s₁ ht hopen hsub =>
      obtain rfl : t = u := Option.some.inj (ht.symm.trans hu)
      obtain ⟨_, hslot⟩ := Engine.slot_mem ht
      have hs₁ : s₁.slot t.id = some t := by
        rw [hslot, Engine.slot_congr (Engine.submits_txns hsub).1]
        exact ht
      refine ⟨{ t with committing := some (e.clock + 1) }, e.clock + 1, rfl, ?_, rfl, ?_, hret⟩
      · show (s₁.setSlot _).slot id = _
        rw [← hslot]
        exact Engine.slot_setSlot_self (t := { t with committing := some (e.clock + 1) }) hs₁
      · exact .waiting (Engine.batch_step_submits hsub fun _ => hok).2

/-- Every step of the thread of a call keeps what is known about it. -/
theorem Runtime.Proceeds.advances
    {s s' : Runtime ρ} {c : Call} (h : s.Proceeds c s') (hb : Base s.engine)
    (hc : c.Holds s.engine s.default_fuel)
    (hf : c.stage.reads = true → ∀ u, s.engine.slot c.id = some u → s.engine.Followed u)
    (hok : ∀ vm output, c.stage = .finished vm output → s.engine.Ordinary (.txnCommit c.id)) :
    ∃ c', Advances s c s' c' := by
  unfold Call.Holds at hc
  cases h with
  | check hs =>
      rw [hs] at hc
      obtain ⟨stage, hstage, hcalls⟩ : ∃ stage : Stage,
          (stage = .returned .quarantined ∨ stage = .admitted) ∧
            (s.check c).calls = (s.setCall { c with stage := stage }).calls := by
        refine ⟨_, ?_, rfl⟩
        split
        · exact Or.inl rfl
        · exact Or.inr rfl
      refine ⟨{ c with stage := stage }, rfl, hcalls, rfl, Or.inl rfl, ?_, ?_⟩
      · rcases hstage with rfl | rfl <;> (intro h; cases h)
      · rcases hstage with rfl | rfl
        · exact Untouched.of_none hc
        · exact hc
  | lock hs =>
      rw [hs] at hc
      exact ⟨_, .quiet (by intro h; cases h) hc⟩
  | @begin_ e hs he =>
      rw [hs] at hc
      have hst : Engine.Step s.engine (.begin_ c.id) e :=
        Engine.step_cases (show s.engine.step (.begin_ c.id) = some e from he)
      refine ⟨_, .moved hst rfl rfl trivial ?_ ?_⟩
      · intro _
        cases hst with
        | begin_ hnone => exact Or.inr hnone
      · cases hst with
        | begin_ hnone =>
            exact ⟨hc, _, List.find?_cons_of_pos (by simp), rfl, fun _ _ => .refl _⟩
  | go hs hr =>
      rw [hs] at hc
      obtain ⟨hsub, u, hu, hopen, hlead⟩ := hc
      refine ⟨_, .quiet (fun _ => by rw [hs]; rfl) ⟨hsub, u, hu, hopen, fun read hread => ?_⟩⟩
      exact .tail (hlead read hread) (by simp only [Frame.next, hr])
  | @load _ _ _ key _ t e hs hr ht he =>
      rw [hs] at hc
      obtain ⟨hsub, u, hu, hopen, hlead⟩ := hc
      obtain rfl : t = u := Option.some.inj (ht.symm.trans hu)
      have hst : Engine.Step s.engine (.txnGet c.id key) e :=
        Engine.step_cases (show s.engine.step (.txnGet c.id key) = some e from he)
      obtain ⟨t', ht', hopen', hwrites, hread'⟩ := txnGet_slot ht hopen he
      refine ⟨_, .moved hst rfl rfl trivial
        (fun _ => Or.inl (by rw [hs]; rfl)) ⟨hsub, t', ht', hopen', fun read hread => ?_⟩⟩
      obtain ⟨hold, hlook⟩ := hread' read hread
      rw [hwrites]
      refine .tail (hlead read hold) ?_
      simp only [Frame.next, hr, hlook]
  | @store _ _ _ key v _ e hs hr he =>
      rw [hs] at hc
      obtain ⟨hsub, u, hu, hopen, hlead⟩ := hc
      have hst : Engine.Step s.engine (.txnPut c.id key (some (.int v))) e :=
        Engine.step_cases (show s.engine.step (.txnPut c.id key (some (.int v))) = some e from he)
      refine ⟨_, .moved hst rfl rfl trivial
        (fun _ => Or.inl (by rw [hs]; rfl))
        ⟨hsub, _, txnPut_slot hu hopen he, hopen, fun read hread => ?_⟩⟩
      exact .tail (hlead read hread) (by simp only [Frame.next, hr, Txn.put])
  | finish hs hr =>
      rw [hs] at hc
      obtain ⟨hsub, u, hu, hopen, hlead⟩ := hc
      refine ⟨_, .quiet (fun _ => by rw [hs]; rfl) ⟨hsub, u, hu, hopen, ?_⟩⟩
      exact returns_of_leads hlead hr
  | fail hs hr =>
      rw [hs] at hc
      exact ⟨_, .quiet (by intro h; cases h) (Untouched.of_none hc.1)⟩
  | @crash vm pc hs hr =>
      have hw := Vm.round_within c.prog vm pc
      rw [hr] at hw
      exact hw.elim
  | @commit vm output e hs he =>
      rw [hs] at hc
      obtain ⟨_, u, hu, _, hret⟩ := hc
      have hst : Engine.Step s.engine (.txnCommit c.id) e :=
        Engine.step_cases (show s.engine.step (.txnCommit c.id) = some e from he)
      exact ⟨_, .moved hst rfl rfl (hok vm output hs)
        (fun _ => Or.inl (by rw [hs]; rfl)) (holds_commit hu hret (hok vm output hs) hst)⟩
  | @settle vm output rep e hs ha he =>
      rw [hs] at hc
      obtain ⟨u, ts, hts, hu, hcom, hprog, hret⟩ := hc
      have hst : Engine.Step s.engine (.txnDrop c.id) e :=
        Engine.step_cases (show s.engine.step (.txnDrop c.id) = some e from he)
      have hord : s.engine.Ordinary (.txnDrop c.id) := trivial
      have hrep := reply_of_answer ha hts
      refine ⟨_, .moved hst rfl rfl trivial ?_ ?_⟩
      · intro h
        cases rep <;> cases h
      · cases rep with
        | ok v out =>
            have hfollowed := hf (by rw [hs]; rfl) u hu
            have hatomic := atomic_of_success hb hts hcom hfollowed hret hrep
            exact hatomic.step hb hord hst
        | _ => exact (untouched_of_error hb hts hprog hrep id).step hb hord hst
  | succeed hs =>
      rw [hs] at hc
      exact ⟨_, .recorded (Runtime.moment_record_success s c.name) rfl ⟨_, rfl, hc⟩⟩
  | refuse hs =>
      rw [hs] at hc
      exact ⟨_, .recorded (Runtime.moment_record_error s c.name) rfl hc⟩
  | record hs =>
      rw [hs] at hc
      exact ⟨_, .recorded (Runtime.moment_record_error s c.name) rfl hc⟩
  | @unwind err e hs he =>
      rw [hs] at hc
      have hst : Engine.Step s.engine (.txnDrop c.id) e :=
        Engine.step_cases (show s.engine.step (.txnDrop c.id) = some e from he)
      have hord : s.engine.Ordinary (.txnDrop c.id) := trivial
      exact ⟨_, .moved hst rfl rfl trivial (by intro h; cases h)
        (Untouched.step hc hb hord hst)⟩

/-- What the thread of a call does itself leaves the store alone. -/
theorem Runtime.store_of_proceeds
    {s s' : Runtime ρ} {c : Call} (h : s.Proceeds c s') :
    s'.engine.keyspace = s.engine.keyspace ∧
      ∀ k, s'.engine.core.chain k = s.engine.core.chain k := by
  have hclient : ∀ (act : Act ρ) (e : Engine ρ), slotOf act = some c.id →
      s.engine.step act = some e →
        e.keyspace = s.engine.keyspace ∧ ∀ k, e.core.chain k = s.engine.core.chain k := by
    intro act e hslot he
    obtain ⟨hchain, hhistory, hbase⟩ :=
      Engine.client_step (Engine.step_cases he) (client_of_slot hslot)
    exact ⟨by rw [Engine.keyspace, Engine.keyspace, hbase, hhistory], hchain⟩
  cases h with
  | begin_ _ he => exact hclient (.begin_ c.id) _ rfl he
  | @load _ _ _ key _ _ _ _ _ _ he => exact hclient (.txnGet c.id key) _ rfl he
  | @store _ _ _ key v _ _ _ _ he =>
      exact hclient (.txnPut c.id key (some (.int v))) _ rfl he
  | commit _ he => exact hclient (.txnCommit c.id) _ rfl he
  | settle _ _ he => exact hclient (.txnDrop c.id) _ rfl he
  | unwind _ he => exact hclient (.txnDrop c.id) _ rfl he
  | _ => exact ⟨rfl, fun _ => rfl⟩

/-! ### Runs -/

namespace Runtime

/-- The outcome of a call depends on what this transaction has read. -/
def Reading (s : Runtime ρ) (id : Nat) : Prop :=
  ∃ c ∈ s.calls, c.id = id ∧ c.stage.reads = true

/-- The steps of the runs in question: FLUSHALL runs apart from the commits around it and
takes no value away that a running reducer has read. -/
def Undisturbed (s : Runtime ρ) : RuntimeAct ρ → Prop
  | .other act =>
      s.engine.Ordinary act ∧
        ∀ u ∈ s.engine.txns, s.Reading u.id → s.engine.Spares act u
  | .proceed id =>
      ∀ c vm output, s.call id = some c → c.stage = .finished vm output →
        s.engine.Ordinary (.txnCommit id)
  | _ => True

end Runtime

/-- What the runs keep about the transactions of the calls. -/
structure Isolation (s : Runtime ρ) : Prop where
  base : Base s.engine
  followed : ∀ u ∈ s.engine.txns, s.Reading u.id → s.engine.Followed u
  calls : ∀ c ∈ s.calls, c.Holds s.engine s.default_fuel

/-- A step of the engine keeps what is known about the transactions that calls are
reading with. -/
theorem Isolation.followed_step
    {s : Runtime ρ} (h : Isolation s) {act : Act ρ} {e : Engine ρ}
    (hok : s.engine.Ordinary act)
    (hspares : ∀ u ∈ s.engine.txns, s.Reading u.id → s.engine.Spares act u)
    (hst : Engine.Step s.engine act e) {I : Nat → Prop}
    (hI : ∀ id, I id → s.Reading id ∨ s.engine.slot id = none) :
    ∀ u ∈ e.txns, I u.id → e.Followed u := by
  have hreading : ∀ u ∈ s.engine.txns, I u.id → s.Reading u.id := by
    intro u hu hi
    rcases hI u.id hi with hr | hnone
    · exact hr
    · have := List.find?_eq_none.mp hnone u hu
      simp at this
  exact Engine.followed_step h.base.sound h.base.shaped h.base.ledger
    (fun u hu hi => h.followed u hu (hreading u hu hi)) hok
    (fun u hu hi => hspares u hu (hreading u hu hi)) hst

/-- A step of the engine that is made for nobody. -/
theorem Isolation.other
    {s : Runtime ρ} (h : Isolation s) {act : Act ρ} {e : Engine ρ}
    (hok : s.engine.Ordinary act)
    (hspares : ∀ u ∈ s.engine.txns, s.Reading u.id → s.engine.Spares act u)
    (hst : Engine.Step s.engine act e) (hothers : ∀ c ∈ s.calls, slotOf act ≠ some c.id) :
    Isolation { s with engine := e } where
  base := h.base.step hok hst
  followed := h.followed_step hok hspares hst fun _ hid => Or.inl hid
  calls := fun c hc => (h.calls c hc).other h.base hok hst (hothers c hc)

/-- A step of the thread of a call. -/
theorem Isolation.proceed
    {s s' : Runtime ρ} (h : Isolation s) {c : Call} (hc : c ∈ s.calls)
    (hok : ∀ vm output, c.stage = .finished vm output →
      s.engine.Ordinary (.txnCommit c.id))
    (hp : s.Proceeds c s') :
    Isolation s' := by
  have hfollowed : c.stage.reads = true →
      ∀ u, s.engine.slot c.id = some u → s.engine.Followed u := by
    intro hreads u hu
    obtain ⟨hmem, hid⟩ := Engine.slot_mem hu
    exact h.followed u hmem ⟨c, hc, hid.symm, hreads⟩
  obtain ⟨c', ha⟩ := hp.advances h.base (h.calls c hc) hfollowed hok
  -- a call that reads after the step did so before, or has just begun
  have hreading : ∀ id, s'.Reading id → s.Reading id ∨ s.engine.slot id = none := by
    rintro id ⟨d, hd, rfl, hreads⟩
    rw [ha.calls] at hd
    rcases Runtime.mem_setCall hd with rfl | ⟨hd, _⟩
    · rcases ha.reads hreads with hold | hnone
      · exact Or.inl ⟨c, hc, ha.id.symm, hold⟩
      · exact Or.inr (ha.id ▸ hnone)
    · exact Or.inl ⟨d, hd, rfl, hreads⟩
  have hcalls : (∀ d ∈ s.calls, d.id ≠ c.id → d.Holds s'.engine s.default_fuel) →
      ∀ d ∈ s'.calls, d.Holds s'.engine s'.default_fuel := by
    intro hothers d hd
    rw [ha.calls] at hd
    rcases Runtime.mem_setCall hd with rfl | ⟨hd, hne⟩
    · exact ha.holds
    · rw [ha.fuel]
      exact hothers d hd (ha.id ▸ hne)
  rcases ha.engine with heq | ⟨act, hact, hord, hst⟩
  · refine ⟨heq ▸ h.base, ?_, hcalls ?_⟩
    · intro u hu hi
      rw [heq] at hu ⊢
      rcases hreading u.id hi with hr | hnone
      · exact h.followed u hu hr
      · have := List.find?_eq_none.mp hnone u hu
        simp at this
    · intro d hd _
      rw [heq]
      exact h.calls d hd
  · refine ⟨h.base.step hord hst, ?_, hcalls ?_⟩
    · refine h.followed_step hord ?_ hst hreading
      intro u _ _ a io j next hwork
      exact absurd hwork (client_of_slot hact a io)
    · intro d hd hne
      refine (h.calls d hd).other h.base hord hst ?_
      rw [hact]
      exact fun heq => hne (Option.some.inj heq).symm

/-- Every step of the runs in question keeps all of it. -/
theorem Isolation.step
    {s s' : Runtime ρ} {act : RuntimeAct ρ} (h : Isolation s) (hok : s.Undisturbed act)
    (hst : s.step act = some s') :
    Isolation s' := by
  cases act with
  | other act =>
      rw [Runtime.step] at hst
      split at hst
      · cases hst
      · next hfree =>
          obtain ⟨e, he, rfl⟩ := Option.map_eq_some_iff.mp hst
          refine h.other hok.1 hok.2 (Engine.step_cases he) ?_
          intro c hc hslot
          apply hfree
          rw [hslot, Option.bind_some, Runtime.call, List.find?_isSome]
          exact ⟨c, hc, by simp⟩
  | invoke id name shard_key prog =>
      rw [Runtime.step] at hst
      split at hst
      · cases hst
      · cases hst
        refine ⟨h.base, ?_, ?_⟩
        · rintro u hu ⟨c, hc, hid, hreads⟩
          rcases List.mem_cons.mp hc with rfl | hc
          · cases hreads
          · exact h.followed u hu ⟨c, hc, hid, hreads⟩
        · intro c hc
          rcases List.mem_cons.mp hc with rfl | hc
          · exact rfl
          · exact h.calls c hc
  | proceed id =>
      obtain ⟨c, hc, hp⟩ := Option.bind_eq_some_iff.mp hst
      obtain ⟨hmem, rfl⟩ := Runtime.call_mem hc
      exact h.proceed hmem (fun vm output hs => hok c vm output hc hs)
        (Runtime.proceed_cases hp)
  | reenable name =>
      cases hst
      have hm := Runtime.moment_reenable s name
      refine ⟨hm.engine ▸ h.base, ?_, ?_⟩
      · rintro u hu ⟨c, hc, hid, hreads⟩
        rw [hm.engine] at hu ⊢
        exact h.followed u hu ⟨c, hm.calls ▸ hc, hid, hreads⟩
      · intro c hc
        rw [hm.engine, hm.fuel]
        exact h.calls c (hm.calls ▸ hc)

theorem Isolation.new (o : Opened) (sync_writes : Bool) (shard_count : Nat) :
    Isolation (Runtime.new (Engine.start o sync_writes : Engine ρ) shard_count) where
  base :=
    { sound := Engine.sound_start o sync_writes
      shaped := Engine.shaped_start o sync_writes
      ledger := Engine.ledger_start o sync_writes
      clean := Engine.clean_start o sync_writes }
  followed := by
    rintro u _ ⟨c, hc, _⟩
    cases hc
  calls := by simp [Runtime.new]

/-! ### The theorem -/

/-- What the program of a call, run alone on a store, returns and writes. -/
def RunsAlone (fuel : Nat) (c : Call) (ks : Keyspace) (vm : Vm) (writes : ValueMap)
    (output : Option Int64) : Prop :=
  (Vm.new fuel).run c.prog ks.value ∅ = some (.returned vm writes (.ok output))

/-- The answers of all invocations are right.  `submitted` is the timestamp of the commit
of a call, if it has submitted one. -/
structure Sound (s : Runtime ρ) : Prop where
  alive : ∀ c ∈ s.calls, c.stage ≠ .crashed
  failed : ∀ c ∈ s.calls,
    (∃ e, c.stage = .returned (.aborted e)) ∨ c.stage = .returned .quarantined →
      ∀ ts, c.submitted = some ts → ∀ ev ∈ s.engine.history, ev.ts ≠ ts
  succeeded : ∀ c ∈ s.calls, ∀ used output, c.stage = .returned (.ok used output) →
    ∃ earlier ts writes later vm, c.submitted = some ts ∧
      s.engine.history = earlier ++ .commit ts (opMuts ts writes) :: later ∧
      RunsAlone s.default_fuel c (s.engine.base.after earlier) vm writes output ∧
      used = vm.fuel_used
  refused : Exact s.log
  checked : ∀ c ∈ s.calls, c.stage ≠ .entered → Checked s c

/-- A commit stands in the history behind everything older. -/
theorem history_split
    {e : Engine ρ} (h : e.Ledger) {ev : Event} (hev : ev ∈ e.history) :
    ∃ earlier later, e.history = earlier ++ ev :: later ∧
      e.before ev.ts = e.base.after earlier := by
  obtain ⟨earlier, later, heq⟩ := List.append_of_mem hev
  refine ⟨earlier, later, heq, ?_⟩
  have hsorted := h.sorted
  rw [heq, List.pairwise_append, List.pairwise_cons] at hsorted
  obtain ⟨_, ⟨hlater, _⟩, hearlier⟩ := hsorted
  have hkeep : earlier.filter (fun e => e.ts < ev.ts) = earlier := by
    rw [List.filter_eq_self]
    intro f hf
    simpa using hearlier f hf ev List.mem_cons_self
  have hdrop : (ev :: later).filter (fun e => e.ts < ev.ts) = [] := by
    rw [List.filter_eq_nil_iff]
    intro f hf
    rcases List.mem_cons.mp hf with rfl | hf
    · simp
    · have := hlater f hf
      simp only [decide_eq_true_eq]
      omega
  rw [Engine.before, heq, List.filter_append, hkeep, hdrop, List.append_nil]

theorem Isolation.sound {s : Runtime ρ} (h : Isolation s) (hb : BreakerInv s) : Sound s where
  alive := by
    intro c hc hs
    have := h.calls c hc
    unfold Call.Holds at this
    rw [hs] at this
    exact this
  failed := by
    intro c hc hs ts hts
    have hholds := h.calls c hc
    unfold Call.Holds at hholds
    rcases hs with ⟨e, hs⟩ | hs
    · rw [hs] at hholds
      exact (hholds ts hts).2
    · rw [hs] at hholds
      exact (hholds ts hts).2
  succeeded := by
    intro c hc used output hs
    have hholds := h.calls c hc
    unfold Call.Holds at hholds
    rw [hs] at hholds
    obtain ⟨vm, hused, ts, writes, hts, _, hev, hrun⟩ := hholds
    obtain ⟨earlier, later, heq, hbefore⟩ := history_split h.base.ledger hev
    refine ⟨earlier, ts, writes, later, vm, hts, heq, ?_, hused⟩
    rw [RunsAlone, ← hbefore]
    exact hrun
  refused := hb.exact
  checked := hb.checked

/-- Every program ends on every store, with an output or an error and without using more
fuel than its budget.  In every run in which no FLUSHALL takes away a value that a
running reducer has read, a failed invocation has left no event, a successful one has
committed and returned what its program does alone on the store immediately before the
commit, and an invocation is refused exactly when three outcomes in a row are recorded
as failures; what the thread of an invocation does itself never changes the store. -/
theorem reducers_atomic (o : Opened) (sync_writes : Bool) (shard_count : Nat) :
    (∀ (vm : Vm) prog read writes, ∃ vm' writes' result,
      vm.run prog read writes = some (.returned vm' writes' result) ∧
        vm'.fuel_used + vm'.fuel = vm.fuel_budget ∧ vm'.fuel ≤ vm.fuel) ∧
    ∀ s : Runtime ρ,
      Run Runtime.step Runtime.Undisturbed
        (Runtime.new (Engine.start o sync_writes) shard_count) s →
      Sound s ∧ ∀ id s', s.step (.proceed id) = some s' →
        s'.engine.keyspace = s.engine.keyspace ∧
          ∀ k, s'.engine.core.chain k = s.engine.core.chain k := by
  refine ⟨Vm.run_total, fun s hrun => ⟨?_, ?_⟩⟩
  rotate_left
  · intro id s' hst
    obtain ⟨c, _, hp⟩ := Option.bind_eq_some_iff.mp hst
    exact Runtime.store_of_proceeds (Runtime.proceed_cases hp)
  have hinv : Isolation s ∧ BreakerInv s := by
    refine hrun.invariant (P := fun s => Isolation s ∧ BreakerInv s) ?_
      ⟨.new o sync_writes shard_count, .new _ shard_count⟩
    rintro s act s' ⟨hi, hb⟩ hok hst
    exact ⟨hi.step hok hst, hb.step hst⟩
  exact hinv.1.sound hinv.2

/-! ### Runs that execute -/

/-- A test that only undisturbed steps pass. -/
def undisturbedStep (s : Runtime ρ) : RuntimeAct ρ → Bool
  | .other act => s.engine.ordinaryStep act && s.engine.wipelessStep act
  | .proceed _ => s.engine.sync_writes
  | _ => true

theorem undisturbed_of_step
    {s : Runtime ρ} {act : RuntimeAct ρ} (h : undisturbedStep s act = true) :
    s.Undisturbed act := by
  cases act with
  | other act =>
      have hserial := Engine.serial_of_steps h
      refine ⟨hserial.1, fun u hu _ a io j next hact hp => ?_⟩
      exact hserial.2 a io j next hact hp u hu
  | proceed id => exact fun _ _ _ _ _ => Or.inl h
  | invoke _ _ _ _ => trivial
  | reenable _ => trivial

/-- Does the program, run alone on a store, return this output? -/
def returnsAlone (fuel : Nat) (c : Call) (ks : Keyspace) (output : Option Int64) : Bool :=
  match (Vm.new fuel).run c.prog ks.value ∅ with
  | some (.returned _ _ (.ok out)) => out = output
  | _ => false

/-- Was an invocation answered with an output that its program does not return alone? -/
def misran (s : Runtime ρ) : Bool :=
  s.calls.any fun c =>
    match c.stage, c.submitted with
    | .returned (.ok _ output), some ts =>
        (List.range s.engine.history.length).all fun i =>
          match s.engine.history[i]? with
          | some ev =>
              decide (ev.ts ≠ ts) ||
                !returnsAlone s.default_fuel c
                  (s.engine.base.after (s.engine.history.take i)) output
          | none => true
    | _, _ => false

theorem not_sound_of_misran {s : Runtime ρ} (h : misran s = true) : ¬ Sound s := by
  intro hs
  obtain ⟨c, hc, hmis⟩ := List.any_eq_true.mp h
  split at hmis
  · next used output ts hstage hts =>
      obtain ⟨earlier, ts', writes, later, vm, hts', heq, halone, _⟩ :=
        hs.succeeded c hc used output hstage
      obtain rfl : ts' = ts := Option.some.inj (hts'.symm.trans hts)
      have hi := List.all_eq_true.mp hmis earlier.length (by simp [heq])
      have hat : s.engine.history[earlier.length]? =
          some (.commit ts' (opMuts ts' writes)) := by
        simp [heq]
      have htake : s.engine.history.take earlier.length = earlier := by simp [heq]
      rw [hat] at hi
      simp only [htake, returnsAlone] at hi
      rw [halone] at hi
      simp [Event.ts] at hi
  · cases hmis

/-- The steps of one batch of the flusher. -/
def batchSteps : List (RuntimeAct Unit) :=
  ((Act.drain : Act Unit) :: Engine.flusherWorks 39).map .other

/-- A key is written, and a counter reducer has read it. -/
def counterReads : List (RuntimeAct Unit) :=
  [.other (.submit (.write (Std.ExtTreeMap.ofList [(([1] : Key), Value.int 7)])))] ++
    batchSteps ++ [.invoke 0 "hits" [1] (counter_reducer [1] 5)] ++
      List.replicate 4 (.proceed 0)

/-- The reducer goes on to its commit and returns. -/
def counterCommits : List (RuntimeAct Unit) :=
  List.replicate 6 (.proceed 0) ++ batchSteps ++ List.replicate 2 (.proceed 0)

/-- A FLUSHALL between the read of a counter reducer and its commit goes unnoticed: the
reducer returns 12 where the store immediately before its commit is empty. -/
theorem flushed_counter :
    ∃ s : Runtime Unit, Run Runtime.step
      (fun s act => ∀ a, act = .other a → s.engine.Ordinary a)
      (Runtime.new (Engine.start Opened.fresh true) 16) s ∧ ¬ Sound s := by
  have hrun : (exec Runtime.step
      (fun s act => match act with
        | .other a => s.engine.ordinaryStep a
        | _ => true)
      (Runtime.new (Engine.start Opened.fresh true) 16)
      (counterReads ++ [.other (.submit (.flush_all "bak"))] ++ batchSteps ++
        counterCommits)).any misran = true := by
    decide +kernel
  obtain ⟨hs, hmis⟩ := (Option.any_eq_true_iff_get _ _).mp hrun
  refine ⟨_, .of_exec ?_ (Option.some_get hs).symm, not_sound_of_misran hmis⟩
  rintro s act hok a rfl
  exact Engine.ordinary_of_ordinaryStep hok

/-- Another client commits between the read and the commit of the reducer. -/
theorem reducers_atomic_between_writes :
    ∃ s : Runtime Unit,
      (∃ c ∈ s.calls, c.stage = .returned (.ok 26 (some 12))) ∧ Sound s := by
  have hrun : (exec Runtime.step undisturbedStep
      (Runtime.new (Engine.start Opened.fresh true) 16)
      (counterReads ++
        [.other (.submit (.write (Std.ExtTreeMap.ofList [(([2] : Key), Value.int 1)])))] ++
          batchSteps ++ counterCommits)).any (fun s => s.calls.any fun c =>
            match c.stage with
            | .returned r => r = .ok 26 (some 12)
            | _ => false) = true := by
    decide +kernel
  obtain ⟨hs, hprop⟩ := (Option.any_eq_true_iff_get _ _).mp hrun
  obtain ⟨c, hc, hstage⟩ := List.any_eq_true.mp hprop
  refine ⟨_, ⟨c, hc, ?_⟩, ((reducers_atomic Opened.fresh true 16).2 _
    (.of_exec (fun _ _ => undisturbed_of_step) (Option.some_get hs).symm)).1⟩
  split at hstage
  · next r heq =>
      rw [heq, of_decide_eq_true hstage]
  · cases hstage

end Runtime
end Compute
end StrikeDB
