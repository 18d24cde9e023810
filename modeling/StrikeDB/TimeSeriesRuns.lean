import StrikeDB.OnceWritten
import StrikeDB.TimeSeriesKeys

/-!
# StrikeDB: time series lose and leak nothing

`Served` is what the engine and the appending threads keep, `Kept` what the store
holds of the appends.  Every point is written once, under a key of its own, as long
as the counters of a series never fall behind its points; so a read may take its
snapshot before and scan later.

**Results.**
* `Kept.engine`, `step_keeps`: every step of the runs in question keeps both.
* `Kept.exact`, `series_exact`: what the reads of a series return.
* `point_lost`: two appends that commit in the other order, and a restart.
-/

namespace StrikeDB
namespace TimeSeries

/-! ## What an append writes -/

theorem tsTag_key (a : Append) : tsTag <+: a.key := by
  rw [Append.key, point_key, seriesKey, List.append_assoc, List.append_assoc]
  exact List.prefix_append _ _

theorem not_tsTag_meta_key (series : Bytes) : ¬ tsTag <+: meta_key series := by
  rw [meta_key, metaTag, tsTag]
  simp

theorem metaTag_meta_key (series : Bytes) : metaTag <+: meta_key series := by
  rw [meta_key, List.append_assoc]
  exact List.prefix_append _ _

theorem meta_key_injective {a b : Bytes} (h : meta_key a = meta_key b) : a = b := by
  unfold meta_key at h
  exact List.append_cancel_left (List.append_cancel_right h)

theorem key_ne_meta_key (a : Append) (series : Bytes) : a.key ≠ meta_key series := by
  intro h
  exact not_tsTag_meta_key series (h ▸ tsTag_key a)

theorem getElem?_entries (a : Append) (k : Key) :
    a.entries[k]? =
      if a.key = k then some (.float a.val)
      else if meta_key a.series = k then some (.int a.seq.toInt64) else none := by
  rw [Append.entries, FlushCore.map_getElem?_insert, FlushCore.map_getElem?_insert,
    Std.ExtTreeMap.getElem?_empty]

theorem mem_opMuts {ts : Nat} {writes : ValueMap} {m : Mutation} :
    m ∈ opMuts ts writes ↔ writes[m.key]? = some m.value ∧ m.ts = ts := by
  rw [opMuts, List.mem_map]
  constructor
  · rintro ⟨e, he, rfl⟩
    exact ⟨Std.ExtTreeMap.mem_toList_iff_getElem?_eq_some.mp he, rfl⟩
  · rintro ⟨hv, rfl⟩
    exact ⟨(m.key, m.value), Std.ExtTreeMap.mem_toList_iff_getElem?_eq_some.mpr hv, rfl⟩

/-- The point that an append writes. -/
theorem point_of_mem {a : Append} {ts : Nat} {m : Mutation} (hm : m ∈ opMuts ts a.entries)
    (htag : tsTag <+: m.key) : m.key = a.key ∧ m.value = .float a.val := by
  obtain ⟨hv, _⟩ := mem_opMuts.mp hm
  rw [getElem?_entries] at hv
  split at hv
  · next hkey => exact ⟨hkey.symm, (Option.some.inj hv).symm⟩
  · split at hv
    · next hmeta => exact absurd (hmeta ▸ htag) (not_tsTag_meta_key _)
    · cases hv

/-- And the counter. -/
theorem series_of_mem {a : Append} {ts : Nat} {m : Mutation} (hm : m ∈ opMuts ts a.entries)
    {series : Bytes} (hkey : m.key = meta_key series) : a.series = series := by
  obtain ⟨hv, _⟩ := mem_opMuts.mp hm
  rw [getElem?_entries, hkey, if_neg (key_ne_meta_key a series)] at hv
  split at hv
  · next hmeta => exact meta_key_injective hmeta
  · cases hv

theorem point_mem (a : Append) (ts : Nat) :
    ({ key := a.key, value := .float a.val, ts := ts } : Mutation) ∈ opMuts ts a.entries := by
  refine mem_opMuts.mpr ⟨?_, rfl⟩
  rw [getElem?_entries, if_pos rfl]

/-! ## What the runs in question keep -/

section Runs

variable {ρ : Type} {n : Nat}

/-- The append that a thread is about, and where it stands. -/
def Task.append : Task → Option (Nat × Append)
  | .reserved place a | .waiting _ place a => some (place, a)
  | _ => none

/-- What the commit of an append writes. -/
def Append.Written (a : Append) (ms : List Mutation) (_ : Option ρ) : Prop :=
  ∃ ts, ms = opMuts ts a.entries

/-- Who waits for the commit of which append. -/
def waits (s : TimeSeries ρ n) (i : Fin n) (ts : Nat) (a : Append) : Prop :=
  ∃ place, s.tasks i = .waiting ts place a

def Served (s : TimeSeries ρ n) : Prop := Clients Own Append.Written s.engine s.waits none

/-- One of the appends has written this. -/
def Known (appends : List Append) (k : Key) (v : Value) : Prop :=
  ∃ a ∈ appends, a.key = k ∧ v = .float a.val

structure Kept (s : TimeSeries ρ n) : Prop where
  reflected : s.engine.Reflected
  placed : s.engine.core.Placed
  numbered : s.appends.Pairwise fun a b => a.series = b.series → a.seq < b.seq
  places : ∀ i place a, (s.tasks i).append = some (place, a) →
    s.appends[place]? = some a ∧ a.acked = false
  apart : ∀ i i' place a a', (s.tasks i).append = some (place, a) →
    (s.tasks i').append = some (place, a') → i = i'
  origin : ∀ (k : Key) (w : Nat × Value), tsTag <+: k → s.engine.base[k]? = some w →
    Known s.appends k w.2
  told : ∀ ts ms, Event.commit ts ms ∈ s.engine.history → ∀ m ∈ ms, tsTag <+: m.key →
    Known s.appends m.key m.value
  acked : ∀ a ∈ s.appends, a.acked = true →
    s.engine.base[a.key]? ≠ none ∨ ∃ ev ∈ s.engine.history, ev.Writes a.key
  reserved : ∀ i place a, s.tasks i = .reserved place a → s.engine.keyspace[a.key]? = none
  sent : ∀ i ts place a, s.tasks i = .waiting ts place a →
    s.engine.keyspace[a.key]? = none ∨ ts ≤ s.engine.core.visible_ts
  counted : ∀ (series : Bytes) (m : UInt64), s.seq[series]? = some m →
    ∀ a ∈ s.appends, a.series = series → a.seq ≤ m
  uncounted : ∀ series : Bytes, s.seq[series]? = none →
    (∀ a ∈ s.appends, a.series = series →
      a.seq ≤ storedSeq (s.engine.keyspace.value (meta_key series))) ∧
    ∀ i place a, (s.tasks i).append = some (place, a) → a.series ≠ series
  settled : ∀ k, tsTag <+: k → s.engine.Settles s.engine.core.visible_ts k
  reading : ∀ i t known, s.tasks i = .reading t known → t ≤ s.engine.core.visible_ts ∧
    (∀ k, tsTag <+: k → s.engine.Settles t k) ∧
    ∀ a ∈ known, a ∈ s.appends ∧ a.acked = true ∧
      ∃ w, s.engine.keyspace[a.key]? = some w ∧ w.1 ≤ t

namespace Kept

variable {s : TimeSeries ρ n}

/-- Two appends of one key are one append. -/
theorem place_eq (h : s.Kept) {p p' : Nat} {a a' : Append} (ha : s.appends[p]? = some a)
    (ha' : s.appends[p']? = some a') (hkey : a.key = a'.key) : p = p' := by
  obtain ⟨hseries, _, hseq⟩ := point_key_injective hkey
  obtain ⟨hp, rfl⟩ := List.getElem?_eq_some_iff.mp ha
  obtain ⟨hp', rfl⟩ := List.getElem?_eq_some_iff.mp ha'
  have hlt := List.pairwise_iff_getElem.mp h.numbered
  rcases Nat.lt_trichotomy p p' with hpp | hpp | hpp
  · have hcontra := hlt p p' hp hp' hpp hseries
    rw [hseq] at hcontra
    exact absurd hcontra (UInt64.lt_irrefl _)
  · exact hpp
  · have hcontra := hlt p' p hp' hp hpp hseries.symm
    rw [hseq] at hcontra
    exact absurd hcontra (UInt64.lt_irrefl _)

theorem eq_of_key (h : s.Kept) {a a' : Append} (ha : a ∈ s.appends) (ha' : a' ∈ s.appends)
    (hkey : a.key = a'.key) : a = a' := by
  obtain ⟨p, hp⟩ := List.mem_iff_getElem?.mp ha
  obtain ⟨p', hp'⟩ := List.mem_iff_getElem?.mp ha'
  obtain rfl := h.place_eq hp hp' hkey
  exact Option.some.inj (hp.symm.trans hp')

/-- Every point in the store is from an append. -/
theorem stored (h : s.Kept) (hc : s.Served) {k : Key} (htag : tsTag <+: k) {w : Nat × Value}
    (hw : s.engine.keyspace[k]? = some w) : Known s.appends k w.2 := by
  refine (Keyspace.after_holds (P := fun w => Known s.appends k w.2) ?_ hc.unflushed
    (h.origin k · htag)).1 w hw
  rintro ts ms hmem m hm rfl
  exact h.told ts ms hmem m hm htag

/-- The point of an append has its value. -/
theorem value_eq (h : s.Kept) (hc : s.Served) {a : Append} (ha : a ∈ s.appends) {w : Nat × Value}
    (hw : s.engine.keyspace[a.key]? = some w) : w.2 = .float a.val := by
  obtain ⟨a', ha', hkey, hv⟩ := h.stored hc (tsTag_key a) hw
  rw [hv, h.eq_of_key ha' ha hkey]

/-- What was acknowledged is in the store. -/
theorem present (h : s.Kept) (hc : s.Served) {a : Append} (ha : a ∈ s.appends)
    (hacked : a.acked = true) : ∃ w, s.engine.keyspace[a.key]? = some w := by
  have hne := (Keyspace.after_holds (P := fun _ => True) (fun _ _ _ _ _ _ => trivial) hc.unflushed
    (fun _ _ => trivial : ∀ w, s.engine.base[a.key]? = some w → True)).2 (h.acked a ha hacked)
  exact Option.ne_none_iff_exists'.mp hne

/-- What the engine publishes of a key of points belongs to the thread that waits
for it. -/
theorem same_thread (h : s.Kept) {i i' : Fin n} {place place' : Nat} {a a' : Append}
    (hi : (s.tasks i).append = some (place, a)) (hi' : (s.tasks i').append = some (place', a'))
    (hkey : a.key = a'.key) : i = i' ∧ place = place' ∧ a = a' := by
  have ha := (h.places i place a hi).1
  have ha' := (h.places i' place' a' hi').1
  obtain rfl := h.place_eq ha ha' hkey
  exact ⟨h.apart i i' place a a' hi hi', rfl, Option.some.inj (ha.symm.trans ha')⟩

theorem not_wipes (hc : s.Served) : ¬ s.engine.busy.Wipes := by
  obtain ⟨a, ha⟩ := Engine.exists_phase_eq_busy s.engine
  intro hw
  cases hj : s.engine.busy.job with
  | none => cases hbusy : s.engine.busy <;> rw [hbusy] at hj hw <;> first | exact hw | cases hj
  | some j =>
      rw [← ha] at hj hw
      exact hc.flushless.not_wipes hc.timely hj hw

/-- The batch in work writes only points that are not in the store. -/
theorem fresh (h : s.Kept) (hc : s.Served) {k : Key} (htag : tsTag <+: k) : s.engine.Fresh k := by
  rintro j hj ⟨m, hm, rfl⟩
  obtain ⟨i, ts, a, ms, _, ⟨place, hi⟩, hlt, hmem, ts', rfl⟩ := hc.muts hj hm (Or.inl htag)
  rw [(point_of_mem hmem htag).1]
  rcases h.sent i ts place a hi with hnone | hle
  · exact hnone
  · omega

/-! ### Steps of the engine -/

/-- What a step publishes of points and counters belongs to threads that wait. -/
theorem published
    (h : s.Kept) (hc : s.Served) {act : Act ρ} {e : Engine ρ} (hflush : s.engine.NoFlush act)
    (hst : s.engine.Step act e) :
    ∃ es, e.base = s.engine.base ∧ e.history = s.engine.history ++ es ∧
      (∀ k : Key, (∀ ev ∈ es, ¬ ev.Writes k) → e.keyspace[k]? = s.engine.keyspace[k]?) ∧
      (∀ ev ∈ es, s.engine.core.visible_ts < ev.ts) ∧
      ∀ ev ∈ es, ∀ k, Own k → ev.Writes k → ∃ i place a ts,
        s.tasks i = .waiting ev.ts place a ∧ s.appends[place]? = some a ∧
        ev = .commit ev.ts (opMuts ts a.entries) := by
  obtain ⟨es, hbase, hhistory, hes, hnew, howner⟩ := hc.events hflush hst
  refine ⟨es, hbase, hhistory, ?_, hnew, ?_⟩
  · intro k hno
    rw [Engine.keyspace, hbase, hhistory, Keyspace.after_append,
      Keyspace.getElem?_after_of_not_writes hno hes]
    rfl
  · intro ev hev k hown hw
    obtain ⟨i, a, ms, _, ⟨place, hi⟩, heq, ts, rfl⟩ := howner ev hev k hown hw
    exact ⟨i, place, a, ts, hi, (h.places i place a (by rw [hi]; rfl)).1, heq⟩

/-- A step of the engine keeps it, whoever submits what. -/
theorem engine
    (h : s.Kept) (hc : s.Served) {act : Act ρ} {e : Engine ρ} (hflush : s.engine.NoFlush act)
    (hst : s.engine.Step act e) :
    ({ s with engine := e } : TimeSeries ρ n).Kept := by
  have hok := hc.ordinary hflush
  have hvis := Engine.visible_ts_mono hst
  have hledger := hc.ledger.step hc.timely hc.shaped hok hst
  obtain ⟨es, hbase, hhistory, hsame, hnew, howner⟩ := h.published hc hflush hst
  have hpoint : ∀ {k : Key}, tsTag <+: k → e.keyspace[k]? = s.engine.keyspace[k]? ∨
      ∃ i ts place a, s.tasks i = .waiting ts place a ∧ s.appends[place]? = some a ∧ k = a.key ∧
        ts ≤ e.core.visible_ts := by
    intro k htag
    by_cases hw : ∃ ev ∈ es, ev.Writes k
    · obtain ⟨ev, hev, hw⟩ := hw
      obtain ⟨i, place, a, ts, hi, hplace, heq⟩ := howner ev hev k (Or.inl htag) hw
      have hkey : k = a.key := by
        rw [heq] at hw
        obtain ⟨m, hm, rfl⟩ := hw
        exact (point_of_mem hm htag).1
      refine Or.inr ⟨i, ev.ts, place, a, hi, hplace, hkey, ?_⟩
      exact hledger.history_le ev (by rw [hhistory]; exact List.mem_append_right _ hev)
    · exact Or.inl (hsame k fun ev hev hwr => hw ⟨ev, hev, hwr⟩)
  have hstays : ∀ {k : Key} {w : Nat × Value}, tsTag <+: k → s.engine.keyspace[k]? = some w →
      e.keyspace[k]? = some w := by
    intro k w htag hw
    by_cases hwr : ∃ ev ∈ es, ev.Writes k
    · -- the thread that writes the key would find it in the store
      obtain ⟨ev, hev, hwr⟩ := hwr
      obtain ⟨i, place, a, ts, hi, hplace, heq⟩ := howner ev hev k (Or.inl htag) hwr
      have hkey : k = a.key := by
        rw [heq] at hwr
        obtain ⟨m, hm, rfl⟩ := hwr
        exact (point_of_mem hm htag).1
      rcases h.sent i ev.ts place a hi with hnone | hle
      · rw [← hkey, hw] at hnone
        cases hnone
      · have := hnew ev hev
        omega
    · rw [hsame k fun ev hev hwr' => hwr ⟨ev, hev, hwr'⟩]
      exact hw
  exact
    { reflected := h.reflected.step hc.timely hok hst
      placed := Engine.placed_step h.placed hst
      numbered := h.numbered
      places := h.places
      apart := h.apart
      origin := by
        intro k w htag hw
        rw [show e.base = s.engine.base from hbase] at hw
        exact h.origin k w htag hw
      told := by
        intro ts ms hmem m hm htag
        have hmem : Event.commit ts ms ∈ s.engine.history ++ es := hhistory ▸ hmem
        rcases List.mem_append.mp hmem with hmem | hmem
        · exact h.told ts ms hmem m hm htag
        · obtain ⟨i, place, a, ts', _, hplace, heq⟩ :=
            howner _ hmem m.key (Or.inl htag) ⟨m, hm, rfl⟩
          obtain ⟨_, rfl⟩ := Event.commit.inj heq
          obtain ⟨hkey, hv⟩ := point_of_mem hm htag
          exact ⟨a, List.mem_of_getElem? hplace, hkey.symm, hv⟩
      acked := by
        intro a ha hacked
        show e.base[a.key]? ≠ none ∨ ∃ ev ∈ e.history, ev.Writes a.key
        rw [hbase, hhistory]
        refine (h.acked a ha hacked).imp_right ?_
        rintro ⟨ev, hev, hw⟩
        exact ⟨ev, List.mem_append_left _ hev, hw⟩
      reserved := by
        intro i place a hi
        show e.keyspace[a.key]? = none
        rcases hpoint (tsTag_key a) with hsame | ⟨i', ts, place', a', hi', _, hkey, _⟩
        · rw [hsame]
          exact h.reserved i place a hi
        · have hi : s.tasks i = .reserved place a := hi
          obtain ⟨rfl, _⟩ := h.same_thread (congrArg Task.append hi) (congrArg Task.append hi') hkey
          rw [hi] at hi'
          cases hi'
      sent := by
        intro i ts place a hi
        show e.keyspace[a.key]? = none ∨ ts ≤ e.core.visible_ts
        rcases hpoint (tsTag_key a) with hsame | ⟨i', ts', place', a', hi', _, hkey, hle⟩
        · rw [hsame]
          exact (h.sent i ts place a hi).imp_right hvis.trans'
        · have hi : s.tasks i = .waiting ts place a := hi
          obtain ⟨rfl, _⟩ := h.same_thread (congrArg Task.append hi) (congrArg Task.append hi') hkey
          rw [hi] at hi'
          cases hi'
          exact Or.inr hle
      counted := h.counted
      uncounted := by
        intro series hnone
        obtain ⟨hcount, hno⟩ := h.uncounted series hnone
        refine ⟨?_, hno⟩
        have hmeta : e.keyspace[meta_key series]? = s.engine.keyspace[meta_key series]? := by
          refine hsame _ ?_
          intro ev hev hw
          obtain ⟨i, place, a, ts, hi, _, heq⟩ := howner ev hev _ (Or.inr (metaTag_meta_key _)) hw
          rw [heq] at hw
          obtain ⟨m, hm, hkey⟩ := hw
          exact hno i place a (by rw [hi]; rfl) (series_of_mem hm hkey)
        intro a ha hseries
        show a.seq ≤ storedSeq (e.keyspace.value (meta_key series))
        rw [Keyspace.value_congr hmeta]
        exact hcount a ha hseries
      settled := by
        intro k htag
        exact (h.settled k htag).published (h.fresh hc htag) h.reflected hc.timely hc.shaped hok hst
      reading := by
        intro i t known hi
        obtain ⟨hle, hsettles, hknown⟩ := h.reading i t known hi
        refine ⟨hle.trans hvis, ?_, ?_⟩
        · intro k htag
          exact (hsettles k htag).step (h.fresh hc htag) hle h.reflected hc.timely hok hst
        · intro a ha
          obtain ⟨hmem, hacked, w, hw, hwle⟩ := hknown a ha
          exact ⟨hmem, hacked, w, hstays (tsTag_key a) hw, hwle⟩ }

/-! ### Steps of the threads -/

/-- A thread goes on, with its append or without, or with one that nobody has. -/
theorem setTask
    (h : s.Kept) {i : Fin n} {t : Task}
    (happend : ∀ place a, t.append = some (place, a) →
      (s.appends[place]? = some a ∧ a.acked = false) ∧ s.seq[a.series]? ≠ none ∧
        ∀ j a', j ≠ i → (s.tasks j).append ≠ some (place, a'))
    (hreserved : ∀ place a, t = .reserved place a → s.engine.keyspace[a.key]? = none)
    (hsent : ∀ ts place a, t = .waiting ts place a → s.engine.keyspace[a.key]? = none)
    (hreading : ∀ t' known, t = .reading t' known → t' = s.engine.core.visible_ts ∧
      ∀ a ∈ known, a ∈ s.appends ∧ a.acked = true ∧ ∃ w, s.engine.keyspace[a.key]? = some w) :
    (s.setTask i t).Kept := by
  have htasks : ∀ j, (s.setTask i t).tasks j = if j = i then t else s.tasks j := by
    intro j
    by_cases hj : j = i
    · subst hj
      simp [TimeSeries.setTask]
    · simp [TimeSeries.setTask, hj]
  exact
    { h with
      places := by
        intro j place a hj
        rw [htasks] at hj
        split at hj
        · exact (happend place a hj).1
        · exact h.places j place a hj
      apart := by
        intro j j' place a a' hj hj'
        rw [htasks] at hj hj'
        split at hj <;> split at hj'
        · next hi hi' => exact hi.trans hi'.symm
        · next hi hi' => exact absurd hj' ((happend place a hj).2.2 j' a' hi')
        · next hi hi' => exact absurd hj ((happend place a' hj').2.2 j a hi)
        · exact h.apart j j' place a a' hj hj'
      reserved := by
        intro j place a hj
        rw [htasks] at hj
        split at hj
        · exact hreserved place a hj
        · exact h.reserved j place a hj
      sent := by
        intro j ts place a hj
        rw [htasks] at hj
        split at hj
        · exact Or.inl (hsent ts place a hj)
        · exact h.sent j ts place a hj
      uncounted := by
        intro series hnone
        refine ⟨(h.uncounted series hnone).1, ?_⟩
        intro j place a hj
        rw [htasks] at hj
        split at hj
        · rintro rfl
          exact (happend place a hj).2.1 hnone
        · exact (h.uncounted series hnone).2 j place a hj
      reading := by
        intro j t' known hj
        rw [htasks] at hj
        split at hj
        · obtain ⟨rfl, hall⟩ := hreading t' known hj
          refine ⟨le_rfl, h.settled, ?_⟩
          intro a ha
          obtain ⟨hmem, hacked, w, hw⟩ := hall a ha
          exact ⟨hmem, hacked, w, hw, h.reflected.bound _ w hw⟩
        · exact h.reading j t' known hj }

/-- A number is given out that is above those of the series. -/
theorem issue
    (h : s.Kept) {a : Append} (hacked : a.acked = false)
    (habove : ∀ a' ∈ s.appends, a'.series = a.series → a'.seq < a.seq) :
    ({ s with seq := s.seq.insert a.series a.seq, appends := s.appends ++ [a] } :
      TimeSeries ρ n).Kept := by
  have hknown : ∀ {k v}, Known s.appends k v → Known (s.appends ++ [a]) k v := by
    rintro k v ⟨a', ha', hk⟩
    exact ⟨a', List.mem_append_left _ ha', hk⟩
  have hmem : ∀ {a'}, a' ∈ s.appends ++ [a] → a' ∈ s.appends ∨ a' = a := by
    intro a' ha'
    exact (List.mem_append.mp ha').imp_right List.mem_singleton.mp
  exact
    { h with
      numbered := by
        show (s.appends ++ [a]).Pairwise _
        rw [List.pairwise_append]
        refine ⟨h.numbered, List.pairwise_singleton _ _, ?_⟩
        intro a' ha' b hb hseries
        obtain rfl := List.mem_singleton.mp hb
        exact habove a' ha' hseries
      places := by
        intro i place a' hi
        obtain ⟨hplace, hno⟩ := h.places i place a' hi
        refine ⟨?_, hno⟩
        show (s.appends ++ [a])[place]? = _
        rw [List.getElem?_append_left (List.getElem?_eq_some_iff.mp hplace).1]
        exact hplace
      origin := fun k w htag hw => hknown (h.origin k w htag hw)
      told := fun ts ms hev m hm htag => hknown (h.told ts ms hev m hm htag)
      acked := by
        intro a' ha' hyes
        rcases hmem ha' with ha' | rfl
        · exact h.acked a' ha' hyes
        · rw [hacked] at hyes
          cases hyes
      counted := by
        intro series m hm a' ha' hseries
        have hm : (s.seq.insert a.series a.seq)[series]? = some m := hm
        rw [FlushCore.map_getElem?_insert] at hm
        split at hm
        · next heq =>
            obtain rfl := Option.some.inj hm
            rcases hmem ha' with ha' | rfl
            · exact UInt64.le_of_lt (habove a' ha' (hseries.trans heq.symm))
            · exact UInt64.le_refl _
        · next hne =>
            rcases hmem ha' with ha' | rfl
            · exact h.counted series m hm a' ha' hseries
            · exact absurd hseries hne
      uncounted := by
        intro series hnone
        have hnone : (s.seq.insert a.series a.seq)[series]? = none := hnone
        rw [FlushCore.map_getElem?_insert] at hnone
        split at hnone
        · cases hnone
        · next hne =>
            obtain ⟨hcount, hno⟩ := h.uncounted series hnone
            refine ⟨?_, hno⟩
            intro a' ha' hseries
            rcases hmem ha' with ha' | rfl
            · exact hcount a' ha' hseries
            · exact absurd hseries hne
      reading := by
        intro i t known hi
        obtain ⟨hle, hsettles, hall⟩ := h.reading i t known hi
        refine ⟨hle, hsettles, ?_⟩
        intro a' ha'
        exact ⟨List.mem_append_left _ (hall a' ha').1, (hall a' ha').2⟩ }

/-- The acknowledgement of an append changes nothing else of it. -/
theorem mem_acknowledged {appends : List Append} {place : Nat} {a' : Append}
    (h : a' ∈ appends.modify place fun a => { a with acked := true }) :
    a' ∈ appends ∨ ∃ a, appends[place]? = some a ∧ a' = { a with acked := true } := by
  obtain ⟨p, hp⟩ := List.mem_iff_getElem?.mp h
  rw [List.getElem?_modify] at hp
  obtain ⟨a, ha, heq⟩ := Option.map_eq_some_iff.mp hp
  by_cases hplace : place = p
  · subst hplace
    rw [if_pos rfl] at heq
    exact Or.inr ⟨a, ha, heq.symm⟩
  · rw [if_neg hplace] at heq
    exact Or.inl (heq ▸ List.mem_of_getElem? ha)

theorem acknowledged_mem {appends : List Append} {a : Append} (h : a ∈ appends) (place : Nat) :
    ∃ a' ∈ appends.modify place fun a => { a with acked := true },
      a'.series = a.series ∧ a'.key = a.key ∧ a'.val = a.val ∧ a'.seq = a.seq ∧
        (a.acked = true → a' = a) := by
  obtain ⟨p, hp⟩ := List.mem_iff_getElem?.mp h
  have hget : (appends.modify place fun a => { a with acked := true })[p]? =
      some (if place = p then { a with acked := true } else a) := by
    rw [List.getElem?_modify, hp]
    by_cases hplace : place = p <;> simp [hplace]
  refine ⟨_, List.mem_of_getElem? hget, ?_⟩
  obtain ⟨series, ts, val, seq, acked⟩ := a
  split
  · refine ⟨rfl, rfl, rfl, rfl, ?_⟩
    rintro hacked
    obtain rfl : acked = true := hacked
    rfl
  · exact ⟨rfl, rfl, rfl, rfl, fun _ => rfl⟩

/-- An append whose commit stands in the history is acknowledged. -/
theorem acknowledge
    (h : s.Kept) {place : Nat} {a : Append} (ha : s.appends[place]? = some a)
    (hfree : ∀ i a', (s.tasks i).append ≠ some (place, a'))
    (hw : ∃ ev ∈ s.engine.history, ev.Writes a.key) :
    ({ s with appends := s.appends.modify place fun a => { a with acked := true } } :
      TimeSeries ρ n).Kept := by
  have hknown : ∀ {k v}, Known s.appends k v →
      Known (s.appends.modify place fun a => { a with acked := true }) k v := by
    rintro k v ⟨a', ha', rfl, rfl⟩
    obtain ⟨b, hb, _, hkey, hval, _⟩ := acknowledged_mem ha' place
    exact ⟨b, hb, hkey, by rw [hval]⟩
  have hmem : ∀ {a'}, a' ∈ s.appends.modify place (fun a => { a with acked := true }) →
      ∃ b ∈ s.appends, b.series = a'.series ∧ b.seq = a'.seq ∧ b.key = a'.key := by
    intro a' ha'
    rcases mem_acknowledged ha' with ha' | ⟨b, hb, rfl⟩
    · exact ⟨a', ha', rfl, rfl, rfl⟩
    · exact ⟨b, List.mem_of_getElem? hb, rfl, rfl, rfl⟩
  exact
    { h with
      numbered := by
        show (s.appends.modify place fun a => { a with acked := true }).Pairwise _
        have hfields : (s.appends.modify place fun a => { a with acked := true }).map
            (fun a => (a.series, a.seq)) = s.appends.map fun a => (a.series, a.seq) := by
          refine List.ext_getElem? fun p => ?_
          rw [List.getElem?_map, List.getElem?_map, List.getElem?_modify]
          cases s.appends[p]? <;> by_cases hp : place = p <;> simp [hp]
        have hold : (s.appends.map fun a => (a.series, a.seq)).Pairwise
            fun x y => x.1 = y.1 → x.2 < y.2 := List.pairwise_map.mpr h.numbered
        rw [← hfields] at hold
        exact List.pairwise_map.mp hold
      places := by
        intro i place' a' hi
        obtain ⟨hplace, hno⟩ := h.places i place' a' hi
        have hne : place ≠ place' := by
          rintro rfl
          exact hfree i a' hi
        refine ⟨?_, hno⟩
        show (s.appends.modify place _)[place']? = _
        rw [List.getElem?_modify, hplace]
        simp [hne]
      origin := fun k w htag hbase => hknown (h.origin k w htag hbase)
      told := fun ts ms hev m hm htag => hknown (h.told ts ms hev m hm htag)
      acked := by
        intro a' ha' hyes
        rcases mem_acknowledged ha' with ha' | ⟨b, hb, rfl⟩
        · exact h.acked a' ha' hyes
        · obtain rfl := Option.some.inj (ha.symm.trans hb)
          exact Or.inr hw
      counted := by
        intro series m hm a' ha' hseries
        obtain ⟨b, hb, hsame, hseq, _⟩ := hmem ha'
        exact hseq ▸ h.counted series m hm b hb (hsame.trans hseries)
      uncounted := by
        intro series hnone
        obtain ⟨hcount, hno⟩ := h.uncounted series hnone
        refine ⟨?_, hno⟩
        intro a' ha' hseries
        obtain ⟨b, hb, hsame, hseq, _⟩ := hmem ha'
        exact hseq ▸ hcount b hb (hsame.trans hseries)
      reading := by
        intro i t known hi
        obtain ⟨hle, hsettles, hall⟩ := h.reading i t known hi
        refine ⟨hle, hsettles, ?_⟩
        intro a' ha'
        obtain ⟨hin, hacked, hstored⟩ := hall a' ha'
        obtain ⟨b, hb, _, _, _, _, heq⟩ := acknowledged_mem hin place
        exact ⟨heq hacked ▸ hb, hacked, hstored⟩ }

/-! ### Restarts -/

theorem survivors_sublist (ks : Keyspace) (appends : List Append) :
    (survivors ks appends).Sublist appends :=
  List.filter_sublist

/-- The next process finds what the runs in question keep. -/
theorem restart
    (h : s.Kept) (hc : s.Served) {o : Opened} (hrec : s.Recovers o)
    (hcount : ∀ a ∈ survivors o.keyspace s.appends,
      a.seq ≤ storedSeq (o.keyspace.value (meta_key a.series))) :
    ({ engine := .start o s.engine.sync_writes, seq := ∅, tasks := fun _ => .idle
       appends := survivors o.keyspace s.appends } : TimeSeries ρ n).Kept := by
  obtain ⟨events, hsub, hfrom, hsame⟩ := hrec
  have hflush : ∀ ev ∈ events, ev.isFlush = false := by
    intro ev hev
    rcases hfrom ev hev with hold | ⟨_, _, _, _, rfl⟩ | ⟨_, _, rfl, _⟩
    · exact hc.unflushed ev hold
    · rfl
    · rfl
  have htold : ∀ {k : Key}, tsTag <+: k → ∀ ts ms, Event.commit ts ms ∈ events → ∀ m ∈ ms,
      m.key = k → Known s.appends k m.value := by
    rintro k htag ts ms hev m hm rfl
    rcases hfrom _ hev with hold | ⟨a, ha, _, ts', heq⟩ | ⟨ts', ms', heq, hno⟩
    · exact h.told ts ms hold m hm htag
    · obtain ⟨_, rfl⟩ := Event.commit.inj heq
      obtain ⟨hkey, hv⟩ := point_of_mem hm htag
      exact ⟨a, ha, hkey.symm, hv⟩
    · obtain ⟨_, rfl⟩ := Event.commit.inj heq
      exact absurd (Or.inl htag) (hno m hm)
  have hafter : ∀ {k : Key}, tsTag <+: k →
      (∀ w, (s.engine.base.after events)[k]? = some w → Known s.appends k w.2) ∧
        (s.engine.base[k]? ≠ none ∨ (∃ ev ∈ events, ev.Writes k) →
          (s.engine.base.after events)[k]? ≠ none) := fun {k} htag =>
    Keyspace.after_holds (P := fun w => Known s.appends k w.2) (htold htag) hflush
      (h.origin k · htag)
  have hlive : ∀ {k : Key}, tsTag <+: k →
      o.keyspace[k]? = (s.engine.base.after events)[k]? := by
    intro k htag
    rcases hsame k with heq | ⟨hnone, hgone⟩
    · exact heq
    · rw [hnone]
      cases hw : (s.engine.base.after events)[k]? with
      | none => rfl
      | some w =>
          obtain ⟨a, _, _, hv⟩ := (hafter htag).1 w hw
          rw [Keyspace.value, hw, Option.bind_some, hv] at hgone
          simp [live, Value.isLive] at hgone
  have hmem : ∀ {k : Key} {w : Nat × Value}, tsTag <+: k → o.keyspace[k]? = some w →
      Known (survivors o.keyspace s.appends) k w.2 := by
    intro k w htag hw
    obtain ⟨a, ha, rfl, hv⟩ := (hafter htag).1 w ((hlive htag).symm.trans hw)
    refine ⟨a, List.mem_filter.mpr ⟨ha, ?_⟩, rfl, hv⟩
    rw [Keyspace.value, hw, Option.bind_some, hv]
    simp [live, Value.isLive]
  have hstart : (Engine.start o s.engine.sync_writes : Engine ρ).keyspace = o.keyspace := rfl
  exact
    { reflected := Engine.reflected_start o _
      placed := o.placed
      numbered := h.numbered.sublist (survivors_sublist _ _)
      places := by simp [Task.append]
      apart := by simp [Task.append]
      origin := fun k w htag hw => hmem htag hw
      told := by simp [Engine.start]
      acked := by
        intro a ha hacked
        have ha := (survivors_sublist _ _).subset ha
        refine Or.inl ?_
        show o.keyspace[a.key]? ≠ none
        rw [hlive (tsTag_key a)]
        refine (hafter (tsTag_key a)).2 ((h.acked a ha hacked).imp_right ?_)
        rintro ⟨ev, hev, hw⟩
        exact ⟨ev, hsub.subset hev, hw⟩
      reserved := by simp
      sent := by simp
      counted := by
        intro series m hm
        have hm : (∅ : Std.ExtTreeMap Bytes UInt64)[series]? = some m := hm
        rw [Std.ExtTreeMap.getElem?_empty] at hm
        cases hm
      uncounted := by
        intro series _
        refine ⟨?_, by simp [Task.append]⟩
        rintro a ha rfl
        exact hcount a ha
      settled := by
        intro k _
        exact (Engine.reflected_start o _).settles rfl
      reading := by simp }

end Kept

/-! ### All steps -/

section Steps

variable {s s' : TimeSeries ρ n}

@[simp] theorem setTask_tasks_self (s : TimeSeries ρ n) (i : Fin n) (t : Task) :
    (s.setTask i t).tasks i = t := by
  simp [setTask]

theorem setTask_tasks_of_ne (s : TimeSeries ρ n) {i j : Fin n} (h : j ≠ i) (t : Task) :
    (s.setTask i t).tasks j = s.tasks j := by
  simp [setTask, h]

/-- A thread that waits for nothing goes on. -/
theorem Served.setTask
    (h : s.Served) {i : Fin n} {t : Task} (ht : ∀ ts place a, t ≠ .waiting ts place a)
    (hfree : ∀ pw ∈ s.engine.pending, ∀ place a, s.tasks i ≠ .waiting pw.ts place a) :
    (s.setTask i t).Served := by
  refine Clients.goes_on h ?_ ?_
  · rintro j ts a ⟨place, hj⟩
    refine ⟨place, ?_⟩
    by_cases hji : j = i
    · subst hji
      exact absurd ((setTask_tasks_self s j t).symm.trans hj) (ht ts place a)
    · exact (setTask_tasks_of_ne s hji t).symm.trans hj
  · rintro pw hpw j a ⟨place, hj⟩
    refine ⟨place, ?_⟩
    by_cases hji : j = i
    · subst hji
      exact absurd hj (hfree pw hpw place a)
    · exact (setTask_tasks_of_ne s hji t).trans hj

/-- A number is given out to an idle thread. -/
theorem reserveAfter_keeps
    (hc : s.Served) (h : s.Kept) {i : Fin n} {series : Bytes} {ts val cur : UInt64}
    (hi : s.tasks i = .idle) (hle : ∀ a ∈ s.appends, a.series = series → a.seq ≤ cur)
    (hst : s.reserveAfter i series ts val cur = some s') :
    s'.Served ∧ s'.Kept := by
  unfold reserveAfter at hst
  split at hst
  · next hlt =>
      obtain rfl := Option.some.inj hst
      set a : Append := { series := series, ts := ts, val := val, seq := cur + 1, acked := false }
        with ha
      have hnext : cur < cur + 1 := by
        rw [UInt64.lt_iff_toNat_lt, UInt64.toNat_add]
        have : (1 : UInt64).toNat = 1 := by rfl
        omega
      have habove : ∀ a' ∈ s.appends, a'.series = a.series → a'.seq < a.seq := by
        intro a' ha' hseries
        exact UInt64.lt_of_le_of_lt (hle a' ha' hseries) hnext
      have hissued := h.issue (a := a) rfl habove
      have hserved : ({ s with seq := s.seq.insert a.series a.seq, appends := s.appends ++ [a] } :
          TimeSeries ρ n).Served := hc
      refine ⟨hserved.setTask (by simp) (by simp [hi]), hissued.setTask ?_ ?_ ?_ ?_⟩
      · rintro place a' heq
        obtain ⟨rfl, rfl⟩ := Prod.mk.inj (Option.some.inj heq)
        refine ⟨⟨?_, rfl⟩, ?_, ?_⟩
        · show (s.appends ++ [a])[s.appends.length]? = some a
          simp
        · show (s.seq.insert a.series a.seq)[a.series]? ≠ none
          rw [FlushCore.map_getElem?_insert, if_pos rfl]
          exact Option.some_ne_none _
        · intro j a' _ hj
          have hplace := (h.places j _ a' hj).1
          simp at hplace
      · rintro place a' heq
        obtain ⟨rfl, rfl⟩ := Task.reserved.inj heq
        -- whoever wrote the key would have the number
        show s.engine.keyspace[a.key]? = none
        by_contra hne
        obtain ⟨w, hw⟩ := Option.ne_none_iff_exists'.mp hne
        obtain ⟨b, hb, hkey, _⟩ := h.stored hc (tsTag_key a) hw
        obtain ⟨hseries, _, hseq⟩ := point_key_injective hkey
        have hlt := habove b hb hseries
        rw [hseq] at hlt
        exact absurd hlt (UInt64.lt_irrefl _)
      · rintro ts' place a' heq
        cases heq
      · rintro t' known heq
        cases heq
  · cases hst

/-- The counter that the store holds is read right, as long as no thread appends to
the series. -/
theorem stored_counter
    (hc : s.Served) (h : s.Kept) {series : Bytes} (hnone : s.seq[series]? = none) :
    s.engine.core.get_at (meta_key series) s.engine.core.visible_ts =
      s.engine.keyspace.value (meta_key series) := by
  refine Engine.get_at_of_not_written h.reflected hc.timely (Kept.not_wipes hc) ?_
  intro j hj m hm hkey
  have hown : Own m.key := by
    rw [hkey]
    exact Or.inr (metaTag_meta_key series)
  obtain ⟨i, _, a, ms, _, ⟨place, hi⟩, _, hmem, ts, rfl⟩ := hc.muts hj hm hown
  exact (h.uncounted series hnone).2 i place a (by rw [hi]; rfl) (series_of_mem hmem hkey)

/-- A thread hands over its batch. -/
theorem submit_keeps
    (hc : s.Served) (h : s.Kept) {i : Fin n} {place : Nat} {a : Append} {e : Engine ρ}
    (hi : s.tasks i = .reserved place a)
    (he : s.engine.step (.submit (.write a.entries)) = some e) :
    ({ s with engine := e }.setTask i (.waiting (s.engine.clock + 1) place a)).Served ∧
      ({ s with engine := e }.setTask i (.waiting (s.engine.clock + 1) place a)).Kept := by
  have hflush : s.engine.NoFlush (.submit (.write a.entries)) := by
    intro bak heq
    cases heq
  have hengine := h.engine hc hflush (Engine.step_cases he)
  have hserved : ({ s with engine := e }.setTask i
      (.waiting (s.engine.clock + 1) place a)).Served := by
    refine Clients.hand hc (i := i) (x := a) (by simp) ?_ he ?_
    · rintro ts core overlay m v out ms hr hms
      obtain ⟨rfl, _, rfl⟩ := Resolved.apply.inj hr
      exact ⟨ts, (Option.some.inj hms).symm⟩
    · intro j ts a'
      simp only [waits]
      by_cases hji : j = i
      · subst hji
        simp [hi, eq_comm]
      · rw [setTask_tasks_of_ne _ hji]
        simp [hji]
  have hi' : ({ s with engine := e } : TimeSeries ρ n).tasks i = .reserved place a := hi
  refine ⟨hserved, hengine.setTask ?_ (by simp) ?_ (by simp)⟩
  · rintro place' a' heq
    obtain ⟨rfl, rfl⟩ := Prod.mk.inj (Option.some.inj heq)
    refine ⟨hengine.places i place a (by rw [hi']; rfl), ?_, ?_⟩
    · intro hnone
      exact (hengine.uncounted a.series hnone).2 i place a (by rw [hi']; rfl) rfl
    · intro j a' hji hj
      exact hji (hengine.apart j i place a' a hj (by rw [hi']; rfl))
  · rintro ts place' a' heq
    obtain ⟨_, rfl, rfl⟩ := Task.waiting.inj heq
    exact hengine.reserved i place a hi'

/-- A thread takes the answer to its batch. -/
theorem receive_keeps
    (hc : s.Served) (h : s.Kept) {i : Fin n} {ts place : Nat} {a : Append} {rep : Reply ρ}
    (hi : s.tasks i = .waiting ts place a) (hrep : (ts, rep) ∈ s.engine.replies) :
    ((s.setTask i .idle).Served ∧ (s.setTask i .idle).Kept) ∧ (rep.IsOk →
      ({ s with appends := s.appends.modify place fun a => { a with acked := true } }.setTask
          i .idle).Served ∧
        ({ s with appends := s.appends.modify place fun a => { a with acked := true } }.setTask
          i .idle).Kept) := by
  have hserved : (s.setTask i .idle).Served := by
    refine hc.setTask (by simp) ?_
    intro pw hpw place' a' hi'
    rw [hi] at hi'
    exact hc.not_pending hrep hpw (Task.waiting.inj hi').1.symm
  have hkept : (s.setTask i .idle).Kept :=
    h.setTask (by simp [Task.append]) (by simp) (by simp) (by simp)
  refine ⟨⟨hserved, hkept⟩, ?_⟩
  intro hok
  refine ⟨hserved, hkept.acknowledge (a := a) ?_ ?_ ?_⟩
  · exact (h.places i place a (by rw [hi]; rfl)).1
  · intro j a' hj
    by_cases hji : j = i
    · subst hji
      simp [Task.append] at hj
    · rw [setTask_tasks_of_ne s hji] at hj
      exact hji (h.apart j i place a' a hj (by rw [hi]; rfl))
  · rcases hc.answer ⟨place, hi⟩ hrep with ⟨_, _, ms, _, hmem, ts', rfl⟩ | ⟨hno, _⟩
    · exact ⟨_, hmem, _, point_mem a ts', rfl⟩
    · exact absurd hok hno

/-- Every step of the runs in question keeps all of it. -/
theorem step_keeps
    (hc : s.Served) (h : s.Kept) {act : SeriesAct ρ n} (hok : s.InOrder act)
    (hst : s.step act = some s') :
    s'.Served ∧ s'.Kept := by
  cases act with
  | engine act =>
      obtain ⟨e, he, rfl⟩ := Option.map_eq_some_iff.mp hst
      have hflush : s.engine.NoFlush act := by
        rintro bak rfl
        exact hok
      exact ⟨Clients.elsewhere hc hok he, h.engine hc hflush (Engine.step_cases he)⟩
  | reserve i series ts val =>
      have hst : s.reserve i series ts val = some s' := hst
      unfold reserve at hst
      split at hst
      · next hi =>
          split at hst
          · next cur hcur => exact reserveAfter_keeps hc h hi (h.counted series cur hcur) hst
          · next hnone =>
              split at hst
              · refine reserveAfter_keeps hc h hi ?_ hst
                rw [stored_counter hc h hnone]
                exact (h.uncounted series hnone).1
              · cases hst
      · cases hst
  | submit i =>
      simp only [step] at hst
      split at hst
      · next place a hi =>
          obtain ⟨e, he, rfl⟩ := Option.map_eq_some_iff.mp hst
          exact submit_keeps hc h hi he
      · cases hst
  | receive i =>
      simp only [step] at hst
      split at hst
      · next ts place a hi =>
          obtain ⟨r, hfind, heq⟩ := Option.map_eq_some_iff.mp hst
          have hr := List.find?_some hfind
          obtain ⟨ts', rep⟩ := r
          obtain rfl : ts' = ts := of_decide_eq_true hr
          obtain ⟨hfailed, hacked⟩ := receive_keeps hc h hi (List.mem_of_find?_eq_some hfind)
          cases rep with
          | ok v out =>
              obtain rfl := heq
              exact hacked trivial
          | conflict =>
              obtain rfl := heq
              exact hfailed
          | opErr msg =>
              obtain rfl := heq
              exact hfailed
          | err msg =>
              obtain rfl := heq
              exact hfailed
      · cases hst
  | read i =>
      simp only [step] at hst
      split at hst
      · next hi =>
          obtain rfl := Option.some.inj hst
          refine ⟨hc.setTask (by simp) (by simp [hi]), h.setTask (by simp [Task.append]) (by simp)
            (by simp) ?_⟩
          rintro t' known heq
          obtain ⟨rfl, rfl⟩ := Task.reading.inj heq
          refine ⟨rfl, ?_⟩
          intro a ha
          obtain ⟨hmem, hacked⟩ := List.mem_filter.mp ha
          exact ⟨hmem, hacked, h.present hc hmem hacked⟩
      · cases hst
  | return_ i =>
      simp only [step] at hst
      split at hst
      · next t known hi =>
          obtain rfl := Option.some.inj hst
          exact ⟨hc.setTask (by simp) (by simp [hi]),
            h.setTask (by simp [Task.append]) (by simp) (by simp) (by simp)⟩
      · cases hst
  | restart o =>
      obtain rfl := Option.some.inj hst
      obtain ⟨hrec, hcount⟩ := hok
      refine ⟨Clients.start o _ ?_, h.restart hc hrec hcount⟩
      rintro i ts a ⟨place, hi⟩
      cases hi

/-- The server on an empty directory. -/
theorem start_keeps (sync_writes : Bool) :
    (start ρ n sync_writes).Served ∧ (start ρ n sync_writes).Kept := by
  constructor
  · refine Clients.start _ _ ?_
    rintro i ts a ⟨place, hi⟩
    cases hi
  · have hnone : ∀ k : Key, (start ρ n sync_writes).engine.base[k]? = none := by
      intro k
      exact Std.ExtTreeMap.getElem?_empty
    exact
      { reflected := Engine.reflected_start _ _
        placed := Opened.fresh.placed
        numbered := List.Pairwise.nil
        places := by simp [start, Task.append]
        apart := by simp [start, Task.append]
        origin := by
          intro k w _ hw
          rw [hnone] at hw
          cases hw
        told := by simp [start, Engine.start]
        acked := by simp [start]
        reserved := by simp [start]
        sent := by simp [start]
        counted := by simp [start]
        uncounted := by simp [start, Task.append]
        settled := fun k _ => (Engine.reflected_start _ _).settles rfl
        reading := by simp [start] }

/-! ### What a read returns -/

/-- Of two members of a list one stands before the other. -/
theorem pair_sublist {α : Type} {l : List α} {a b : α} (ha : a ∈ l) (hb : b ∈ l) (hne : a ≠ b) :
    [a, b].Sublist l ∨ [b, a].Sublist l := by
  obtain ⟨pre, post, rfl⟩ := List.append_of_mem ha
  rcases List.mem_append.mp hb with hb | hb
  · right
    exact (List.singleton_sublist.mpr hb).append (List.singleton_sublist.mpr List.mem_cons_self)
  · left
    have hb : b ∈ post := (List.mem_cons.mp hb).resolve_left fun h => hne h.symm
    exact ((List.singleton_sublist.mpr hb).cons_cons a).trans (List.sublist_append_right pre _)

/-- Does the store hold the point as of a snapshot? -/
def seenAt (ks : Keyspace) (t : Nat) (a : Append) : Bool :=
  match ks[a.key]? with
  | some w => w.1 ≤ t
  | none => false

theorem seenAt_iff (ks : Keyspace) (t : Nat) (a : Append) :
    seenAt ks t a = true ↔ ∃ w, ks[a.key]? = some w ∧ w.1 ≤ t := by
  unfold seenAt
  cases ks[a.key]? with
  | none => simp
  | some w => simp

/-- The points of a series as of a snapshot, in the order of their keys. -/
def points (s : TimeSeries ρ n) (t : Nat) (series : Bytes) : List Append :=
  (s.appends.filter fun a => a.series = series && seenAt s.engine.keyspace t a).mergeSort
    fun a b => (compare a.key b.key).isLE

theorem mem_points (s : TimeSeries ρ n) (t : Nat) (series : Bytes) (a : Append) :
    a ∈ s.points t series ↔ a ∈ s.appends ∧ a.series = series ∧
      ∃ w, s.engine.keyspace[a.key]? = some w ∧ w.1 ≤ t := by
  rw [points, List.mem_mergeSort, List.mem_filter, Bool.and_eq_true, decide_eq_true_eq,
    seenAt_iff]

/-- The appends are all different. -/
theorem Kept.appends_nodup (h : s.Kept) : s.appends.Nodup := by
  refine h.numbered.imp ?_
  rintro a b hlt rfl
  exact absurd (hlt rfl) (UInt64.lt_irrefl _)

theorem Kept.points_nodup (h : s.Kept) (t : Nat) (series : Bytes) :
    (s.points t series).Nodup :=
  (List.mergeSort_perm _ _).nodup_iff.mpr (h.appends_nodup.filter _)

/-- The points stand in the order of their keys. -/
theorem Kept.points_sorted (h : s.Kept) (t : Nat) (series : Bytes) :
    (s.points t series).Pairwise fun a b => compare a.key b.key = .lt := by
  have hle : (s.points t series).Pairwise fun a b => (compare a.key b.key).isLE = true := by
    refine List.pairwise_mergeSort ?_ ?_ _
    · intro a b c hab hbc
      exact Std.TransCmp.isLE_trans hab hbc
    · intro a b
      have hswap : compare b.key a.key = (compare a.key b.key).swap := Std.OrientedCmp.eq_swap
      rw [hswap]
      cases compare a.key b.key <;> rfl
  refine (hle.and (h.points_nodup t series)).imp_of_mem ?_
  rintro a b ha hb ⟨hle, hne⟩
  cases hcmp : compare a.key b.key with
  | lt => rfl
  | eq =>
      refine absurd ?_ hne
      exact h.eq_of_key ((mem_points s t series a).mp ha).1 ((mem_points s t series b).mp hb).1
        (Std.LawfulEqCmp.eq_of_compare hcmp)
  | gt =>
      rw [hcmp] at hle
      cases hle

/-- The order of the keys is that of the times and the appends. -/
theorem Kept.points_ordered (h : s.Kept) (t : Nat) (series : Bytes) :
    (s.points t series).Pairwise (Before s.appends) := by
  refine (h.points_sorted t series).imp_of_mem ?_
  intro a b ha hb hlt
  obtain ⟨ha, hseries, _⟩ := (mem_points s t series a).mp ha
  obtain ⟨hb, hseries', _⟩ := (mem_points s t series b).mp hb
  rw [Append.key, Append.key, hseries, hseries', compare_point_key, Ordering.then_eq_lt] at hlt
  rcases hlt with hts | ⟨hts, hseq⟩
  · exact Or.inl (UInt64.lt_iff_toNat_lt.mpr (Nat.compare_eq_lt.mp hts))
  · refine Or.inr ⟨UInt64.toNat_inj.mp (Nat.compare_eq_eq.mp hts), ?_⟩
    have hseq : a.seq.toNat < b.seq.toNat := Nat.compare_eq_lt.mp hseq
    have hne : a ≠ b := by
      rintro rfl
      exact absurd hseq (Nat.lt_irrefl _)
    refine (pair_sublist ha hb hne).resolve_right ?_
    intro hba
    have hgt := List.pairwise_iff_forall_sublist.mp h.numbered hba (hseries'.trans hseries.symm)
    rw [UInt64.lt_iff_toNat_lt] at hgt
    omega

/-- What a shard shows of a point. -/
theorem Kept.view_iff
    (h : s.Kept) (hc : s.Served) {t : Nat} (hle : t ≤ s.engine.core.visible_ts)
    (hsettles : ∀ k, tsTag <+: k → s.engine.Settles t k) {i : Fin SHARD_COUNT} {k : Key}
    (htag : tsTag <+: k) {v : Value} :
    s.engine.core.view i k t = some v ↔
      shard_of k = i ∧ ∃ a ∈ s.appends, a.key = k ∧ v = .float a.val ∧
        ∃ w, s.engine.keyspace[k]? = some w ∧ w.1 ≤ t := by
  have hget := (hsettles k htag).get_at (h.fresh hc htag) hle h.reflected hc.timely
    (Kept.not_wipes hc) (v := v)
  constructor
  · intro hview
    obtain ⟨c, hchain, _⟩ := Option.bind_eq_some_iff.mp hview
    obtain ⟨rfl, _⟩ := h.placed i k c hchain
    rw [← FlushCore.get_at_eq_view, hget] at hview
    obtain ⟨w, hw, hwle, hlive⟩ := hview
    obtain ⟨a, ha, rfl, hv⟩ := h.stored hc htag hw
    rw [hv] at hlive
    exact ⟨rfl, a, ha, rfl, (Option.some.inj hlive).symm, w, hw, hwle⟩
  · rintro ⟨rfl, a, ha, rfl, rfl, w, hw, hwle⟩
    rw [← FlushCore.get_at_eq_view, hget]
    refine ⟨w, hw, hwle, ?_⟩
    rw [h.value_eq hc ha hw]
    rfl

/-- A scan of the shard of a series finds its points, when its bounds take in no
point of another. -/
theorem Kept.scan_points
    (h : s.Kept) (hc : s.Served) {t : Nat} (hle : t ≤ s.engine.core.visible_ts)
    (hsettles : ∀ k, tsTag <+: k → s.engine.Settles t k) {series : Bytes} (htagged : Tagged series)
    {start stop : Key} (hin : ∀ k, FlushCore.inRange start stop k = true → tsTag <+: k)
    (hforeign : ∀ a ∈ s.appends, a.series ≠ series →
      FlushCore.inRange start stop a.key = false) :
    s.engine.core.scanShard (shard_of (seriesKey series)) start stop t =
      ((s.points t series).filter fun a => FlushCore.inRange start stop a.key).map fun a =>
        (a.key, Value.float a.val) := by
  refine (FlushCore.scanShard_sorted _ _ _ _ _).eq_of_mem_iff ?_ ?_
  · refine List.pairwise_map.mpr ?_
    exact (h.points_sorted t series).filter _
  · rintro ⟨k, v⟩
    rw [FlushCore.mem_scanShard, List.mem_map]
    constructor
    · rintro ⟨hrange, hview⟩
      obtain ⟨_, a, ha, rfl, rfl, hw⟩ := (h.view_iff hc hle hsettles (hin k hrange)).mp hview
      have hseries : a.series = series := by
        by_contra hne
        rw [hforeign a ha hne] at hrange
        cases hrange
      exact ⟨a, List.mem_filter.mpr ⟨(mem_points s t series a).mpr ⟨ha, hseries, hw⟩, hrange⟩, rfl⟩
    · rintro ⟨a, ha, heq⟩
      obtain ⟨rfl, rfl⟩ := Prod.mk.inj heq
      obtain ⟨ha, hrange⟩ := List.mem_filter.mp ha
      obtain ⟨ha, hseries, hw⟩ := (mem_points s t series a).mp ha
      refine ⟨hrange, (h.view_iff hc hle hsettles (tsTag_key a)).mpr ⟨?_, a, ha, rfl, rfl, hw⟩⟩
      rw [← hseries] at htagged ⊢
      exact shard_of_series htagged (List.prefix_append _ _)

theorem decode_points (i64_as_f64 : Int64 → UInt64) (l : List Append) :
    (l.map fun a => (a.key, Value.float a.val)).filterMap
      (fun e => decode_point i64_as_f64 e.1 e.2) = l.map fun a => (a.ts, a.val) := by
  rw [List.filterMap_map]
  exact List.filterMap_eq_map_iff_forall_eq_some.mpr fun a _ =>
    decode_point_key i64_as_f64 a.series a.ts a.seq a.val

/-- A read that has taken its snapshot returns the points of its series. -/
theorem Kept.exact
    (h : s.Kept) (hc : s.Served) (i64_as_f64 : Int64 → UInt64) {i : Fin n} {t : Nat}
    {known : List Append} (hi : s.tasks i = .reading t known) {series : Bytes}
    (htagged : Tagged series)
    (hapart : ∀ a ∈ s.appends, a.series ≠ series → Apart series a.series) :
    Exact i64_as_f64 s t known series (s.points t series) := by
  obtain ⟨hle, hsettles, hknown⟩ := h.reading i t known hi
  refine
    { requested := ?_
      known := ?_
      ordered := h.points_ordered t series
      once := h.points_nodup t series
      range := ?_
      latest := ?_ }
  · intro a ha
    obtain ⟨ha, hseries, _⟩ := (mem_points s t series a).mp ha
    exact ⟨ha, hseries⟩
  · intro a ha hseries
    obtain ⟨hmem, _, hw⟩ := hknown a ha
    exact (mem_points s t series a).mpr ⟨hmem, hseries, hw⟩
  · intro from_ to_
    unfold range
    split
    · next hgt =>
        symm
        rw [List.map_eq_nil_iff, List.filter_eq_nil_iff]
        intro a _ hbetween
        simp only [Bool.and_eq_true, decide_eq_true_eq] at hbetween
        exact absurd (UInt64.le_trans hbetween.1 hbetween.2) (UInt64.not_le.mpr hgt)
    · simp only [FlushCore.scan_pinned]
      rw [h.scan_points hc hle hsettles htagged (fun k => tsTag_of_inRange series from_ to_)
        (fun a ha hne => not_inRange_foreign hne.symm (hapart a ha hne) from_ to_ a.ts a.seq),
        decode_points]
      refine congrArg _ (List.filter_congr ?_)
      intro a ha
      obtain ⟨_, hseries, _⟩ := (mem_points s t series a).mp ha
      rw [Append.key, hseries]
      exact inRange_point series from_ to_ a.ts a.seq
  · intro limit
    unfold latest
    split
    · next hzero => simp [hzero]
    · next hzero =>
        have hgo : (compare (seriesKey series)
            (seriesKey series ++ List.replicate 17 0xFF)).isGE = false := by
          have happ := compare_append_left (seriesKey series) [] (List.replicate 17 0xFF)
          rw [List.append_nil] at happ
          rw [happ]
          rfl
        have hall : ((s.points t series).filter fun a => FlushCore.inRange (seriesKey series)
            (seriesKey series ++ List.replicate 17 0xFF) a.key) = s.points t series := by
          rw [List.filter_eq_self]
          intro a ha
          obtain ⟨_, hseries, _⟩ := (mem_points s t series a).mp ha
          rw [Append.key, hseries]
          exact inRange_latest series a.ts a.seq
        simp only [FlushCore.scan_pinned_reverse]
        rw [if_neg (by rw [hgo]; exact Bool.false_ne_true),
          h.scan_points hc hle hsettles htagged (fun k => tsTag_of_inRange_latest series)
            (fun a ha hne => not_inRange_latest_foreign hne.symm (hapart a ha hne) a.ts a.seq),
          hall, Nat.max_eq_left (Nat.pos_of_ne_zero hzero), ← List.map_reverse, ← List.map_take,
          ← List.map_reverse, decode_points, List.take_reverse, List.reverse_reverse]

end Steps

/-- Where every series has a shard of its own and no restart sets a counter back
behind the points of its series, the reads of a series return exactly its points. -/
theorem series_exact
    (i64_as_f64 : Int64 → UInt64) (sync_writes : Bool) {s : TimeSeries ρ n}
    (hrun : Run step InOrder (start ρ n sync_writes) s) {i : Fin n} {snapshot : Nat}
    {known : List Append} (hi : s.tasks i = .reading snapshot known) {series : Bytes}
    (htagged : Tagged series)
    (hapart : ∀ a ∈ s.appends, a.series ≠ series → Apart series a.series) :
    ∃ points, Exact i64_as_f64 s snapshot known series points := by
  have hkeeps : s.Served ∧ s.Kept :=
    Run.invariant (P := fun s => s.Served ∧ s.Kept)
      (fun _ _ _ h hok hst => step_keeps h.1 h.2 hok hst) hrun (start_keeps sync_writes)
  exact ⟨_, hkeeps.2.exact hkeeps.1 i64_as_f64 hi htagged hapart⟩

end Runs

/-! ## A restart -/

/-- The name of a series. -/
def cpu : Bytes := [0x63, 0x70, 0x75]

/-- A thread hands over its append, and the flusher publishes it. -/
def commits (i : Fin 2) : List (SeriesAct Unit 2) :=
  [.submit i, .engine .drain] ++ (Engine.flusherWorks 39).map .engine ++ [.receive i]

/-- Two threads append at the same time; the second commits first. -/
def crossed : List (SeriesAct Unit 2) :=
  [.reserve 0 cpu 5 10, .reserve 1 cpu 5 11] ++ commits 1 ++ commits 0

/-- One more append, and a read. -/
def appendsAndReads : List (SeriesAct Unit 2) := [.reserve 0 cpu 5 12] ++ commits 0 ++ [.read 0]

/-- Steps of the flusher and of the threads. -/
def ordinary : SeriesAct Unit 2 → Bool
  | .engine (.work _ _) | .engine .drain => true
  | .engine _ | .restart _ => false
  | _ => true

theorem ordinary_sound {act : SeriesAct Unit 2} (h : ordinary act = true)
    (s : TimeSeries Unit 2) : s.InOrder act := by
  unfold ordinary at h
  split at h
  · trivial
  · trivial
  · cases h
  · cases h
  · next hengine hrestart =>
      cases act with
      | engine act => exact absurd rfl (hengine act)
      | restart o => exact absurd rfl (hrestart o)
      | _ => trivial

theorem scope_of_inOrder {s : TimeSeries Unit 2} {act : SeriesAct Unit 2} (h : s.InOrder act) :
    s.Scope act := by
  cases act with
  | restart o => exact h.1
  | _ => exact h

/-- What recovery finds when everything published is durable. -/
def recovered {s : TimeSeries Unit 2} (hc : s.Served) (h : s.Kept)
    (hidle : s.engine.busy.job = none) : Opened where
  core := { s.engine.core with active := ∅ }
  wal := s.engine.wal
  keyspace := s.engine.keyspace
  placed := h.placed
  reflects := by
    intro k
    have hseen : s.engine.seen k = s.engine.keyspace[k]? := by
      unfold Engine.seen
      cases hbusy : s.engine.busy <;> rw [hbusy] at hidle <;> first | rfl | cases hidle
    exact hseen ▸ h.reflected.chains k
  bound := h.reflected.bound
  clock_lt := lt_of_le_of_lt hc.timely.visible_le hc.timely.clock_lt
  active_empty := rfl

theorem recovers_recovered {s : TimeSeries Unit 2} (hc : s.Served) (h : s.Kept)
    (hidle : s.engine.busy.job = none) : s.Recovers (recovered hc h hidle) :=
  ⟨_, .refl _, fun _ hev => Or.inl hev, fun _ => Or.inl rfl⟩

/-- Does a read of the whole series miss a point that it knows of? -/
def misses (s : TimeSeries Unit 2) : Bool :=
  match s.tasks 0 with
  | .reading t known => known.any fun a => a.series = cpu &&
      !(range (fun _ => 0) s.engine.core t cpu 0 a.ts).contains (a.ts, a.val)
  | _ => false

theorem not_exact_of_misses {s : TimeSeries Unit 2} (h : s.misses = true) :
    ∃ t known, s.tasks 0 = .reading t known ∧
      ¬ ∃ points, Exact (fun _ => 0) s t known cpu points := by
  unfold misses at h
  split at h
  · next t known hi =>
      refine ⟨t, known, hi, ?_⟩
      rintro ⟨points, hexact⟩
      obtain ⟨a, ha, hmiss⟩ := List.any_eq_true.mp h
      simp only [Bool.and_eq_true, decide_eq_true_eq, Bool.not_eq_true'] at hmiss
      obtain ⟨hseries, hmiss⟩ := hmiss
      rw [hexact.range, ← Bool.not_eq_true, List.contains_iff_mem] at hmiss
      apply hmiss
      refine List.mem_map.mpr ⟨a, List.mem_filter.mpr ⟨hexact.known a ha hseries, ?_⟩, rfl⟩
      have hzero : (0 : UInt64) ≤ a.ts := UInt64.zero_le
      simp [hzero]
  · cases h

theorem crossed_runs : (exec step (fun _ => ordinary) (start Unit 2 true) crossed).isSome = true := by
  decide +kernel

/-- The server when the two have committed. -/
def crossedOver : TimeSeries Unit 2 :=
  (exec step (fun _ => ordinary) (start Unit 2 true) crossed).get crossed_runs

theorem run_crossedOver : Run step InOrder (start Unit 2 true) crossedOver :=
  .of_exec (fun s _ h => ordinary_sound h s) (Option.some_get crossed_runs).symm

theorem crossedOver_keeps : crossedOver.Served ∧ crossedOver.Kept :=
  Run.invariant (P := fun s => s.Served ∧ s.Kept)
    (fun _ _ _ h hok hst => step_keeps h.1 h.2 hok hst) run_crossedOver (start_keeps true)

theorem crossedOver_idle : crossedOver.engine.busy.job = none := by
  have hnone : crossedOver.engine.busy.job.isNone = true := by decide +kernel
  exact Option.isNone_iff_eq_none.mp hnone

/-- What the next process opens. -/
def reopened : Opened := recovered crossedOver_keeps.1 crossedOver_keeps.2 crossedOver_idle

/-- Two appends of the same time commit in the other order than they got their
numbers.  After a restart the next append gets the number of the second again, and
its point is lost. -/
theorem point_lost :
    ¬ ∀ s : TimeSeries Unit 2, Run step Scope (start Unit 2 true) s →
      ∀ i snapshot known series, s.tasks i = .reading snapshot known →
        ∃ points, Exact (fun _ => 0) s snapshot known series points := by
  intro hclaim
  have hmisses : ((crossedOver.step (.restart reopened)).bind fun s =>
      exec step (fun _ => ordinary) s appendsAndReads).any misses = true := by decide +kernel
  obtain ⟨hs, hmisses⟩ := (Option.any_eq_true_iff_get _ _).mp hmisses
  obtain ⟨s₁, hrestart, hexec⟩ := Option.bind_eq_some_iff.mp (Option.some_get hs).symm
  have hscope : Run step Scope (start Unit 2 true) crossedOver :=
    run_crossedOver.mono fun _ _ => scope_of_inOrder
  have hrecovers : crossedOver.Scope (.restart reopened) :=
    recovers_recovered crossedOver_keeps.1 crossedOver_keeps.2 crossedOver_idle
  have hrun₁ : Run step Scope (start Unit 2 true) s₁ := hscope.tail hrecovers hrestart
  have hrun₂ : Run step Scope s₁ _ :=
    .of_exec (fun s _ h => scope_of_inOrder (ordinary_sound h s)) hexec
  obtain ⟨t, known, hi, hno⟩ := not_exact_of_misses hmisses
  exact hno (hclaim _ (hrun₁.trans hrun₂) 0 t known cpu hi)

/-- One append and a read. -/
theorem series_exact_one_append :
    ∃ (s : TimeSeries Unit 2) (t : Nat) (known points : List Append), known.length = 1 ∧
      s.tasks 0 = .reading t known ∧ Exact (fun _ => 0) s t known cpu points := by
  have hrun : (exec step (fun _ => ordinary) (start Unit 2 true) appendsAndReads).any (fun s =>
      (match s.tasks 0 with
        | .reading _ known => known.length = 1
        | _ => false) && s.appends.all fun a => a.series = cpu) = true := by decide +kernel
  obtain ⟨hs, hprop⟩ := (Option.any_eq_true_iff_get _ _).mp hrun
  simp only [Bool.and_eq_true, List.all_eq_true, decide_eq_true_eq] at hprop
  obtain ⟨hread, hall⟩ := hprop
  split at hread
  · next t known hi =>
      obtain ⟨points, hexact⟩ := series_exact (fun _ => 0) true
        (.of_exec (fun s _ h => ordinary_sound h s) (Option.some_get hs).symm) hi
        ⟨0x63, [0x70, 0x75], rfl, by decide⟩ (fun a ha hne => absurd (hall a ha) hne)
      exact ⟨_, t, known, points, of_decide_eq_true hread, hi, hexact⟩
  · cases hread

end TimeSeries
end StrikeDB
