import StrikeDB.Clients

/-!
# StrikeDB: keys that are written once

A batch goes into the shards one after the other, and a read may take its snapshot
before and look later.  For a key that no commit overwrites this makes no
difference: a snapshot sees the newest version of its chain, or none.

**Results.**
* `Settles.step`, `Settles.published`: a snapshot and a key stay settled, and a
  snapshot is settled when it is taken.
* `Settles.get_at`: what a settled snapshot reads.
-/

namespace StrikeDB
namespace Engine

section OnceWritten

variable {ρ : Type} {e e' : Engine ρ} {t : Nat} {k : Key}

/-- The snapshot sees the newest version of the key, or none. -/
def Settles (e : Engine ρ) (t : Nat) (k : Key) : Prop :=
  ∀ c, e.core.chain k = some c → c.latest_ts ≤ t ∨ ∀ v ∈ c.versions, t < v.ts

/-- The batch in work overwrites nothing at the key. -/
def Fresh (e : Engine ρ) (k : Key) : Prop :=
  ∀ j, e.busy.job = some j → (∃ m ∈ j.muts, m.key = k) → e.keyspace[k]? = none

/-- What is in the shards is published, or from the batch in work. -/
theorem seen_cases (e : Engine ρ) (hwipes : ¬ e.busy.Wipes) (k : Key) :
    e.seen k = e.keyspace[k]? ∨ ∃ j, e.busy.job = some j ∧ (∃ m ∈ j.muts, m.key = k) ∧
      e.seen k = (e.keyspace.commit j.muts)[k]? := by
  have hjob : ∀ j, e.busy.job = some j → e.seen k = (e.keyspace.commit j.muts)[k]? →
      e.seen k = e.keyspace[k]? ∨ ∃ j, e.busy.job = some j ∧ (∃ m ∈ j.muts, m.key = k) ∧
        e.seen k = (e.keyspace.commit j.muts)[k]? := by
    intro j hj hseen
    by_cases hm : ∃ m ∈ j.muts, m.key = k
    · exact Or.inr ⟨j, hj, hm, hseen⟩
    · rw [Keyspace.getElem?_commit_of_not_mem fun m hm' hk => hm ⟨m, hm', hk⟩] at hseen
      exact Or.inl hseen
  cases hbusy : e.busy with
  | applying j next locked =>
      by_cases hlt : (shard_of k).val < next
      · rw [← hbusy]
        refine hjob j (by rw [hbusy]; rfl) ?_
        rw [seen, hbusy]
        exact if_pos hlt
      · left
        rw [seen, hbusy]
        exact if_neg hlt
  | publishing j effect =>
      cases effect with
      | applied =>
          rw [← hbusy]
          exact hjob j (by rw [hbusy]; rfl) (by rw [seen, hbusy]; rfl)
      | nothing =>
          left
          rw [seen, hbusy]
          rfl
      | wiped =>
          rw [hbusy] at hwipes
          exact absurd trivial hwipes
  | wiping j next =>
      rw [hbusy] at hwipes
      exact absurd trivial hwipes
  | _ =>
      left
      rw [seen, hbusy]
      rfl

/-- What is published settles the key, where the shards hold no more than that. -/
theorem Reflected.settles (h : e.Reflected) (hseen : e.seen k = e.keyspace[k]?) :
    e.Settles e.core.visible_ts k := by
  intro c hc
  have hk := h.chains k
  rw [hc] at hk
  obtain ⟨v, hv⟩ := hk.latest_ts
  exact Or.inl (h.bound k _ (hseen.symm.trans hv))

/-- Steps leave a settled snapshot settled. -/
theorem Settles.step {act : Act ρ} (h : e.Settles t k) (hfresh : e.Fresh k)
    (hle : t ≤ e.core.visible_ts) (hr : e.Reflected) (ht : e.Timely) (hok : e.Ordinary act)
    (hst : Step e act e') :
    e'.Settles t k := by
  intro c hc
  cases key_step ht hok hst k with
  | same hchain _ => exact h c (hchain ▸ hc)
  | collected _ _ _ _ _ hchain _ => rw [hchain] at hc; cases hc
  | wiped _ hchain _ => rw [hchain] at hc; cases hc
  | @pushed j active hj hold hchain _ =>
      rw [hchain] at hc
      by_cases hm : ∃ m ∈ j.muts, m.key = k
      · -- the key was never written, so all versions are from this batch
        have hnone : e.core.chain k = none := by
          have hk := hr.chains k
          rw [hold, hfresh j hj hm] at hk
          cases hc₀ : e.core.chain k with
          | none => rfl
          | some c₀ => rw [hc₀] at hk; cases hk
        refine Or.inr ?_
        intro v hv
        rcases FlushCore.mem_pushAll hc hv with ⟨m, hmem, rfl⟩ | ⟨c', hc', _⟩
        · exact lt_of_le_of_lt hle ((ht.busy_job_facts hj).2 m hmem)
        · rw [hnone] at hc'
          cases hc'
      · rw [FlushCore.pushAll_of_not_mem _ _ fun m hmem hk => hm ⟨m, hmem, hk⟩] at hc
        exact h c hc

/-- What is published stays settled, also where a batch is published. -/
theorem Settles.published {act : Act ρ} (h : e.Settles e.core.visible_ts k)
    (hfresh : e.Fresh k) (hr : e.Reflected) (ht : e.Timely) (hsh : e.Shaped)
    (hok : e.Ordinary act) (hst : Step e act e') :
    e'.Settles e'.core.visible_ts k := by
  cases batch_step ht hsh hok hst with
  | quiet view _ _ _ =>
      rw [view.visible]
      exact h.step hfresh le_rfl hr ht hok hst
  | resolved view _ _ _ _ _ =>
      rw [view.visible]
      exact h.step hfresh le_rfl hr ht hok hst
  | published _ _ _ _ _ hjob _ _ _ =>
      refine (hr.step ht hok hst).settles ?_
      unfold seen
      cases hbusy : e'.busy <;> rw [hbusy] at hjob <;> first | rfl | cases hjob

/-- What a settled snapshot reads. -/
theorem Settles.get_at (h : e.Settles t k) (hfresh : e.Fresh k) (hle : t ≤ e.core.visible_ts)
    (hr : e.Reflected) (ht : e.Timely) (hwipes : ¬ e.busy.Wipes) {v : Value} :
    e.core.get_at k t = some v ↔
      ∃ w, e.keyspace[k]? = some w ∧ w.1 ≤ t ∧ live w.2 = some v := by
  have hk := hr.chains k
  rcases seen_cases e hwipes k with hseen | ⟨j, hj, hm, hseen⟩
  · rw [hseen] at hk
    cases hc : e.core.chain k with
    | none =>
        rw [hc] at hk
        simp only [FlushCore.get_at, hc, Option.bind_none]
        constructor
        · exact fun h => absurd h (by simp)
        · rintro ⟨w, hw, _, hlive⟩
          rw [hw] at hk
          cases hk with
          | collected ts => simp [live, Value.isLive] at hlive
    | some c =>
        rw [hc] at hk
        obtain ⟨u, hu⟩ := hk.latest_ts
        simp only [FlushCore.get_at, hc, Option.bind_some]
        rcases h c hc with hnew | hold
        · have hvalue : c.latest = live u := by
            have := hk.value
            rw [hu] at this
            exact this
          rw [hk.visible hnew, hvalue, hu]
          constructor
          · exact fun hv => ⟨_, rfl, hnew, hv⟩
          · rintro ⟨w, hw, _, hlive⟩
            obtain rfl := Option.some.inj hw
            exact hlive
        · have hnone : c.visible t = none := by
            have hup : upTo t c.versions = [] := by
              simp only [upTo, List.filter_eq_nil_iff, decide_eq_true_eq, not_le]
              exact hold
            simp only [Chain.visible, Chain.visibleVersion_eq, hup, List.getLast?_nil,
              Option.bind_none]
          have hlast : t < c.latest_ts := by
            obtain ⟨last, hlast⟩ :=
              Option.ne_none_iff_exists'.mp (mt List.getLast?_eq_none_iff.mp hk.wf.ne_nil)
            rw [hk.wf.latest_ts_eq last hlast]
            exact hold last (List.mem_of_getLast? hlast)
          rw [hnone, hu]
          constructor
          · exact fun h => absurd h (by simp)
          · rintro ⟨w, hw, hle, _⟩
            obtain rfl := Option.some.inj hw
            exact absurd hlast (by simp only at hle; omega)
  · have hnone : e.keyspace[k]? = none := hfresh j hj hm
    obtain ⟨m, hmem, _, heq⟩ := Keyspace.getElem?_commit_of_mem hm e.keyspace
    have hnew : t < m.ts := lt_of_le_of_lt hle ((ht.busy_job_facts hj).2 m hmem)
    rw [hseen, heq] at hk
    simp only [hnone, reduceCtorEq, false_and, exists_false, iff_false]
    cases hc : e.core.chain k with
    | none => simp [FlushCore.get_at, hc]
    | some c =>
        rw [hc] at hk
        obtain ⟨u, hu⟩ := hk.latest_ts
        obtain ⟨hts, _⟩ := Prod.mk.inj (Option.some.inj hu)
        have hold := (h c hc).resolve_left (by omega)
        have hup : upTo t c.versions = [] := by
          simp only [upTo, List.filter_eq_nil_iff, decide_eq_true_eq, not_le]
          exact hold
        simp [FlushCore.get_at, hc, Chain.visible, Chain.visibleVersion_eq, hup]

/-- A key that the batch in work does not write reads as published. -/
theorem get_at_of_not_written (hr : e.Reflected) (ht : e.Timely) (hwipes : ¬ e.busy.Wipes)
    (hno : ∀ j, e.busy.job = some j → ∀ m ∈ j.muts, m.key ≠ k) :
    e.core.get_at k e.core.visible_ts = e.keyspace.value k := by
  have hfresh : e.Fresh k := fun j hj ⟨m, hm, hk⟩ => absurd hk (hno j hj m hm)
  have hseen : e.seen k = e.keyspace[k]? := by
    rcases seen_cases e hwipes k with hseen | ⟨j, hj, ⟨m, hm, hk⟩, _⟩
    · exact hseen
    · exact absurd hk (hno j hj m hm)
  ext v
  rw [(hr.settles hseen).get_at hfresh le_rfl hr ht hwipes]
  simp only [Keyspace.value, Option.bind_eq_some_iff]
  constructor
  · rintro ⟨w, hw, _, hlive⟩
    exact ⟨w, hw, hlive⟩
  · rintro ⟨w, hw, hlive⟩
    exact ⟨w, hw, hr.bound k w hw, hlive⟩

end OnceWritten
end Engine
end StrikeDB
