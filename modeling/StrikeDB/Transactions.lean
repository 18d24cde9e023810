import StrikeDB.EngineChains

/-!
# StrikeDB: the snapshots of open transactions

* `Held`: every open transaction keeps its snapshot registered, whatever other
  readers give theirs back.
* `Swept t`: a chain is missing only where the newest write is a tombstone that
  snapshot `t` already sees.
* `Valid`: what a transaction read is still the published value, or the chain
  has a version newer than its snapshot, so that its commit will be refused.
-/

namespace StrikeDB

namespace FlushCore

theorem getD_insert (t : Std.ExtTreeMap Nat Nat) (a b v : Nat) :
    (t.insert a v)[b]?.getD 0 = if a = b then v else t[b]?.getD 0 := by
  rw [Std.ExtTreeMap.getElem?_insert]
  by_cases h : a = b <;> simp [h]

theorem getD_erase (t : Std.ExtTreeMap Nat Nat) (a b : Nat) :
    (t.erase a)[b]?.getD 0 = if a = b then 0 else t[b]?.getD 0 := by
  rw [Std.ExtTreeMap.getElem?_erase]
  by_cases h : a = b <;> simp [h]

/-- How many readers hold a snapshot. -/
def holders (core : FlushCore) (t : Nat) : Nat := core.active[t]?.getD 0

theorem mem_active_of_holders {core : FlushCore} {t : Nat} (h : 0 < core.holders t) :
    t ∈ core.active := by
  by_contra hmem
  simp [holders, hmem] at h

theorem holders_register (core : FlushCore) (s t : Nat) :
    (core.register s).holders t = core.holders t + if s = t then 1 else 0 := by
  simp only [holders, register, getD_insert]
  by_cases h : s = t <;> simp [h]

theorem holders_unregister (core : FlushCore) (s t : Nat) :
    (core.unregister s).holders t = core.holders t - if s = t then 1 else 0 := by
  unfold unregister
  cases hc : core.active[s]? with
  | none =>
      by_cases h : s = t
      · subst h
        simp [holders, hc]
      · simp [h]
  | some c =>
      by_cases hlast : c - 1 = 0
      · simp only [hlast, if_true, holders, getD_erase]
        by_cases h : s = t
        · subst h
          simp [hc, hlast]
        · simp [h]
      · simp only [hlast, if_false, holders, getD_insert]
        by_cases h : s = t
        · subst h
          simp [hc]
        · simp [h]

end FlushCore

section Transactions

variable {ρ : Type}

namespace Engine

/-! ### Registered snapshots -/

/-- The transactions and pins are among the registered readers. -/
structure Held (s : Engine ρ) : Prop where
  nodup : (s.txns.map TxnSlot.id).Nodup
  count : ∀ t, s.txns.countP (fun u => u.txn.snapshot = t) + s.pins.count t ≤ s.core.holders t

theorem Held.mem_active
    {s : Engine ρ} (h : s.Held) {u : TxnSlot} (hu : u ∈ s.txns) :
    u.txn.snapshot ∈ s.core.active := by
  refine FlushCore.mem_active_of_holders ?_
  have hpos : 0 < s.txns.countP fun v => v.txn.snapshot = u.txn.snapshot :=
    List.countP_pos_iff.mpr ⟨u, hu, by simp⟩
  have := h.count u.txn.snapshot
  omega

theorem slot_mem {s : Engine ρ} {id : Nat} {u : TxnSlot} (h : s.slot id = some u) :
    u ∈ s.txns ∧ u.id = id :=
  ⟨List.mem_of_find?_eq_some h, by simpa using List.find?_some h⟩

/-- Ids tell the slots apart. -/
theorem Held.eq_of_id
    {s : Engine ρ} (h : s.Held) {u v : TxnSlot} (hu : u ∈ s.txns) (hv : v ∈ s.txns)
    (hid : u.id = v.id) :
    u = v :=
  List.inj_on_of_nodup_map h.nodup hu hv hid

/-- What replacing a slot does to the others. -/
theorem mem_setSlot
    {s : Engine ρ} {t u : TxnSlot} (hu : u ∈ (s.setSlot t).txns) :
    (u = t ∧ ∃ v ∈ s.txns, v.id = t.id) ∨ (u ∈ s.txns ∧ u.id ≠ t.id) := by
  obtain ⟨v, hv, rfl⟩ := List.mem_map.mp hu
  by_cases hid : v.id = t.id
  · rw [if_pos hid]
    exact Or.inl ⟨rfl, v, hv, hid⟩
  · rw [if_neg hid]
    exact Or.inr ⟨hv, hid⟩

theorem Held.setSlot
    {s : Engine ρ} (h : s.Held) {t u : TxnSlot} (hu : s.slot u.id = some u)
    (hid : t.id = u.id) (hsnap : t.txn.snapshot = u.txn.snapshot) :
    (s.setSlot t).Held := by
  obtain ⟨hmem, _⟩ := slot_mem hu
  have hids : (s.setSlot t).txns.map TxnSlot.id = s.txns.map TxnSlot.id := by
    simp only [Engine.setSlot, List.map_map]
    refine List.map_congr_left ?_
    intro v _
    by_cases hv : v.id = t.id <;> simp [hv]
  have hsnaps : (s.setSlot t).txns.map (fun v => v.txn.snapshot) =
      s.txns.map fun v => v.txn.snapshot := by
    simp only [Engine.setSlot, List.map_map]
    refine List.map_congr_left ?_
    intro v hv
    by_cases hvt : v.id = t.id
    · have : v = u := h.eq_of_id hv hmem (hvt.trans hid)
      simp [this, hid, hsnap]
    · simp [hvt]
  have hcount : ∀ (l l' : List TxnSlot), l.map (fun v => v.txn.snapshot) =
      l'.map (fun v => v.txn.snapshot) → ∀ n, l.countP (fun v => v.txn.snapshot = n) =
        l'.countP fun v => v.txn.snapshot = n := by
    intro l l' hl n
    have := congrArg (fun m : List Nat => m.countP fun x => x = n) hl
    simpa [List.countP_map, Function.comp_def] using this
  refine ⟨by rw [hids]; exact h.nodup, ?_⟩
  intro n
  rw [hcount _ _ hsnaps n]
  exact h.count n

theorem works_txns
    {s s' : Engine ρ} {a : Actor} {io : Io} (hw : Works s a io s') :
    s'.txns = s.txns ∧ s'.pins = s.pins ∧ s'.core.active = s.core.active := by
  cases hw with
  | sweep _ _ => exact ⟨rfl, rfl, FlushCore.sweep_remove_active _ _⟩
  | log _ hlog =>
      obtain ⟨n, rfl⟩ := Job.log_core hlog
      exact ⟨rfl, rfl, rfl⟩
  | _ => exact ⟨rfl, rfl, rfl⟩

theorem submits_txns
    {s s' : Engine ρ} {mk : Nat → PendingWrite ρ} (hsub : Submits s mk s') :
    s'.txns = s.txns ∧ s'.pins = s.pins ∧ s'.core = s.core := by
  cases hsub with
  | queued _ _ => exact ⟨rfl, rfl, rfl⟩
  | direct _ _ _ _ => exact ⟨rfl, rfl, rfl⟩

theorem Held.congr
    {s s' : Engine ρ} (h : s.Held) (htxns : s'.txns = s.txns) (hpins : s'.pins = s.pins)
    (hactive : s'.core.active = s.core.active) :
    s'.Held where
  nodup := by rw [htxns]; exact h.nodup
  count := by
    intro n
    rw [htxns, hpins, FlushCore.holders, hactive]
    exact h.count n

theorem Held.pin {s : Engine ρ} (h : s.Held) (t : Nat) : (s.pin t).Held where
  nodup := h.nodup
  count := by
    intro n
    have := h.count n
    show s.txns.countP _ + (t :: s.pins).count n ≤ (s.core.register t).holders n
    rw [FlushCore.holders_register, List.count_cons]
    by_cases hn : t = n <;> simp [hn] at this ⊢ <;> omega

theorem Held.step
    {s s' : Engine ρ} {act : Act ρ} (h : s.Held) (hst : Step s act s') :
    s'.Held := by
  cases hst with
  | @begin_ id hid =>
      refine ⟨?_, ?_⟩
      · simp only [List.map_cons, List.nodup_cons]
        refine ⟨?_, h.nodup⟩
        intro hmem
        obtain ⟨u, hu, huid⟩ := List.mem_map.mp hmem
        have := List.find?_eq_none.mp hid u hu
        simp [huid] at this
      · intro n
        have := h.count n
        simp only [List.countP_cons, FlushCore.holders_register]
        by_cases hn : s.core.visible_ts = n <;> simp [hn] at this ⊢ <;> omega
  | ownRead => exact h
  | txnGet ht _ _ =>
      obtain ⟨_, rfl⟩ := slot_mem ht
      exact h.setSlot ht rfl rfl
  | txnPut _ ht _ =>
      obtain ⟨_, rfl⟩ := slot_mem ht
      exact h.setSlot ht rfl rfl
  | @txnCommit id t s₁ ht _ hsub =>
      obtain ⟨htxns, hpins, hcore⟩ := submits_txns hsub
      obtain ⟨_, rfl⟩ := slot_mem ht
      have hslot : s₁.slot t.id = some t := by
        rw [slot, htxns]
        exact ht
      exact (h.congr htxns hpins (by rw [hcore])).setSlot hslot rfl rfl
  | @txnDrop id u ht hdone =>
      obtain ⟨hu, rfl⟩ := slot_mem ht
      have hsub : (s.txns.eraseP fun v => v.id = u.id).Sublist s.txns := List.eraseP_sublist
      refine ⟨h.nodup.sublist (hsub.map _), ?_⟩
      intro n
      have hcount := h.count n
      obtain ⟨v, l₁, l₂, _, hv, heq, herase⟩ :=
        List.exists_of_eraseP hu (p := fun v => v.id = u.id) (by simp)
      have hvu : v = u := h.eq_of_id (by rw [heq]; simp) hu (by simpa using hv)
      rw [heq, hvu] at hcount
      simp only [herase, FlushCore.holders_unregister, List.countP_append,
        List.countP_cons] at hcount ⊢
      by_cases hn : u.txn.snapshot = n <;> simp [hn] at hcount ⊢ <;> omega
  | dumpStart => exact h.pin _
  | ckptPin _ => exact h.pin _
  | @unpin t hmem =>
      refine ⟨h.nodup, ?_⟩
      intro n
      have := h.count n
      show s.txns.countP _ + (s.pins.erase t).count n ≤ (s.core.unregister t).holders n
      rw [FlushCore.holders_unregister, List.count_erase]
      have hpos := List.count_pos_iff.mpr hmem
      by_cases hn : t = n
      · subst hn
        simp only [beq_self_eq_true, if_true]
        omega
      · simp [hn, this]
  | now _ => exact h.congr rfl rfl rfl
  | submit hsub =>
      obtain ⟨htxns, hpins, hcore⟩ := submits_txns hsub
      exact h.congr htxns hpins (by rw [hcore])
  | drain _ _ => exact h.congr rfl rfl rfl
  | work hw =>
      obtain ⟨htxns, hpins, hactive⟩ := works_txns hw
      exact h.congr htxns hpins hactive

/-- Only work on a batch changes the chains and the history. -/
theorem client_step
    {s s' : Engine ρ} {act : Act ρ} (hst : Step s act s')
    (hact : ∀ a io, act ≠ .work a io) :
    (∀ k, s'.core.chain k = s.core.chain k) ∧ s'.history = s.history ∧ s'.base = s.base := by
  cases hst with
  | @txnCommit id t s₁ _ _ hsub =>
      have hcore : s₁.core = s.core := (submits_txns hsub).2.2
      refine ⟨fun k => congrArg (fun c : FlushCore => c.chain k) hcore, ?_⟩
      cases hsub <;> exact ⟨rfl, rfl⟩
  | submit hsub => cases hsub <;> exact ⟨fun _ => rfl, rfl, rfl⟩
  | txnDrop _ _ => exact ⟨chain_unregister _ _, rfl, rfl⟩
  | unpin _ => exact ⟨chain_unregister _ _, rfl, rfl⟩
  | work hw => exact absurd rfl (hact _ _)
  | _ => exact ⟨fun _ => rfl, rfl, rfl⟩

/-- The thread that works is the one that is busy. -/
theorem Timely.busy_of_works
    {s s' : Engine ρ} (ht : s.Timely) {a : Actor} {io : Io} (hw : Works s a io s') :
    s.busy = s.phase a := by
  refine ht.busy_eq ?_
  intro hidle
  cases hw <;> simp_all

/-! ### Collected chains -/

/-- Chains are missing only where the newest write is a tombstone up to `t`. -/
def Swept (t : Nat) (s : Engine ρ) : Prop :=
  ∀ k w, s.core.chain k = none → s.seen k = some w → w.1 ≤ t

theorem Swept.step
    {s s' : Engine ρ} {t : Nat} {act : Act ρ} (h : Swept t s) (hg : Guarded t s)
    (hr : s.Reflected) (ht : s.Timely) (hok : s.Ordinary act) (hst : Step s act s') :
    Swept t s' := by
  intro k w hnone hseen'
  cases key_step ht hok hst k with
  | same hchain hseen =>
      rw [hchain] at hnone
      rw [hseen] at hseen'
      exact h k w hnone hseen'
  | @collected e c hkey hready hc hdead hts hchain hseen =>
      obtain ⟨batch, ready, n, hbusy⟩ := hready
      have hk := hr.chains k
      rw [hc] at hk
      rw [hseen, hk.tombstone hdead, Option.some.injEq] at hseen'
      have hle := hg.ready batch (e :: ready) n hbusy e (by simp)
      rw [← hseen']
      exact hts.trans_le hle
  | wiped _ hchain hseen =>
      rw [hseen] at hseen'
      cases hseen'
  | pushed hj hold hchain hseen =>
      rw [hchain] at hnone
      obtain ⟨hc, hmuts⟩ := FlushCore.pushAll_eq_none hnone
      rw [hseen, Keyspace.getElem?_commit_of_not_mem hmuts, ← hold] at hseen'
      exact h k w hc hseen'

/-- A snapshot that keeps what it reads. -/
structure Kept (t : Nat) (s : Engine ρ) : Prop where
  guarded : Guarded t s
  swept : Swept t s

theorem Kept.mono
    {s : Engine ρ} {t t' : Nat} (h : Kept t s) (hle : t ≤ t') (hvis : t' ≤ s.core.visible_ts) :
    Kept t' s where
  guarded := h.guarded.mono hle hvis
  swept := fun k w hnone hseen => (h.swept k w hnone hseen).trans hle

theorem Kept.step
    {s s' : Engine ρ} {t : Nat} {act : Act ρ} (h : Kept t s) (hr : s.Reflected)
    (ht : s.Timely) (hok : s.Ordinary act) (hopen : t ∈ s.core.active ∨ t = s.core.visible_ts)
    (hst : Step s act s') :
    Kept t s' where
  guarded := h.guarded.step ht hopen hst
  swept := h.swept.step h.guarded hr ht hok hst

/-- What every run keeps about the store and the open transactions. -/
structure Sound (s : Engine ρ) : Prop where
  timely : s.Timely
  reflected : s.Reflected
  held : s.Held
  published : Kept s.core.visible_ts s
  kept : ∀ u ∈ s.txns, Kept u.txn.snapshot s

theorem Sound.step
    {s s' : Engine ρ} {act : Act ρ} (h : s.Sound) (hok : s.Ordinary act)
    (hst : Step s act s') :
    s'.Sound := by
  have hpub : Kept s.core.visible_ts s' :=
    h.published.step h.reflected h.timely hok (Or.inr rfl) hst
  have hold : ∀ u ∈ s.txns, Kept u.txn.snapshot s' := fun u hu =>
    (h.kept u hu).step h.reflected h.timely hok (Or.inl (h.held.mem_active hu)) hst
  refine
    { timely := h.timely.step hok hst
      reflected := h.reflected.step h.timely hok hst
      held := h.held.step hst
      published := hpub.mono (visible_ts_mono hst) le_rfl
      kept := ?_ }
  -- the snapshot of every slot of `s'` is one of `s`, or was just published
  have hsnap : ∀ u ∈ s'.txns, (∃ v ∈ s.txns, v.txn.snapshot = u.txn.snapshot) ∨
      u.txn.snapshot = s.core.visible_ts := by
    intro u hu
    cases hst with
    | begin_ _ =>
        rcases List.mem_cons.mp hu with rfl | hu
        · exact Or.inr rfl
        · exact Or.inl ⟨u, hu, rfl⟩
    | txnGet ht _ _ =>
        rcases mem_setSlot hu with ⟨rfl, _⟩ | ⟨hu, _⟩
        · exact Or.inl ⟨_, (slot_mem ht).1, rfl⟩
        · exact Or.inl ⟨u, hu, rfl⟩
    | txnPut _ ht _ =>
        rcases mem_setSlot hu with ⟨rfl, _⟩ | ⟨hu, _⟩
        · exact Or.inl ⟨_, (slot_mem ht).1, rfl⟩
        · exact Or.inl ⟨u, hu, rfl⟩
    | txnCommit ht _ hsub =>
        obtain ⟨htxns, _, _⟩ := submits_txns hsub
        rcases mem_setSlot hu with ⟨rfl, _⟩ | ⟨hu, _⟩
        · exact Or.inl ⟨_, (slot_mem ht).1, rfl⟩
        · exact Or.inl ⟨u, htxns ▸ hu, rfl⟩
    | txnDrop _ _ => exact Or.inl ⟨u, List.mem_of_mem_eraseP hu, rfl⟩
    | submit hsub =>
        obtain ⟨htxns, _, _⟩ := submits_txns hsub
        exact Or.inl ⟨u, htxns ▸ hu, rfl⟩
    | work hw => exact Or.inl ⟨u, (works_txns hw).1 ▸ hu, rfl⟩
    | _ => exact Or.inl ⟨u, hu, rfl⟩
  intro u hu
  rcases hsnap u hu with ⟨v, hv, heq⟩ | heq
  · rw [← heq]
    exact hold v hv
  · rw [heq]
    exact hpub

end Engine
end Transactions
end StrikeDB
