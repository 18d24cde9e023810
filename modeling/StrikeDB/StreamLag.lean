import StrikeDB.StreamHeaders
import StrikeDB.StreamReads
import StrikeDB.StreamSteps

/-!
# StrikeDB: the lag of a consumer group

XINFO GROUPS reports how many entries a group has still to read: from the counter
of the group while it is trusted, else from an estimate.  `Counted` is a database
with what every counter has drifted by since it was last set: entries that were
removed before the group read them, entries added at or below its position, and
what users said with ENTRIESREAD and ENTRIESADDED.

**Results.**
* `estimate_exact`: an estimate that is given is right.
* `passed_spec`: what a command on the entries adds to the drift.
* `lag_right_iff`: in every run a reported lag is right, unless it comes from a
  counter that has drifted.
-/

namespace StrikeDB
namespace Stream

open OrderedMap

/-! ## Lag -/

/-- The lag is taken from the counter of the group. -/
def counted (s : Header) (entries : Entries) (gr : Group) : Bool :=
  gr.read ≠ -1 && !has_tombstones s entries gr.last

/-- The lag of a group, `none` for nil. -/
def lag (s : Header) (entries : Entries) (gr : Group) : Option Int :=
  if s.added = 0 then some 0
  else if counted s entries gr then some ((s.added : Int) - gr.read)
  else if estimate_read s entries gr.last = -1 then none
  else some ((s.added : Int) - estimate_read s entries gr.last)

def ids (entries : Entries) : Finset Id := entries.keys.toFinset

/-- How many entries are behind an ID. -/
def ahead (entries : Entries) (last : Id) : Nat := ((ids entries).filter (last < ·)).card

theorem mem_ids {entries : Entries} {id : Id} : id ∈ ids entries ↔ id ∈ entries := by
  rw [ids, List.mem_toFinset, Std.ExtTreeMap.mem_keys]

theorem card_ids (entries : Entries) : (ids entries).card = entries.size := by
  rw [ids, List.toFinset_card_of_nodup, Std.ExtTreeMap.length_keys]
  exact (Std.ExtTreeMap.nodup_keys).imp fun h => h

theorem ahead_eq_zero {entries : Entries} {last : Id} (h : ∀ id ∈ entries, id ≤ last) :
    ahead entries last = 0 := by
  rw [ahead, Finset.card_eq_zero, Finset.filter_eq_empty_iff]
  intro id hid
  exact not_lt_of_ge (h id (mem_ids.mp hid))

theorem ahead_eq_size {entries : Entries} {last : Id} (h : ∀ id ∈ entries, last < id) :
    ahead entries last = entries.size := by
  rw [ahead, Finset.filter_true_of_mem fun id hid => h id (mem_ids.mp hid), card_ids]

/-- One entry fewer is behind the next one. -/
theorem ahead_next {entries : Entries} {last id : Id} (hid : id ∈ entries) (hlt : last < id)
    (hnext : ∀ a ∈ entries, last < a → id ≤ a) : ahead entries last = ahead entries id + 1 := by
  have hsplit : (ids entries).filter (last < ·) = insert id ((ids entries).filter (id < ·)) := by
    ext a
    rw [Finset.mem_insert, Finset.mem_filter, Finset.mem_filter, mem_ids]
    constructor
    · rintro ⟨ha, hlast⟩
      rcases eq_or_lt_of_le (hnext a ha hlast) with rfl | hlt'
      · exact .inl rfl
      · exact .inr ⟨ha, hlt'⟩
    · rintro (rfl | ⟨ha, hlt'⟩)
      · exact ⟨hid, hlt⟩
      · exact ⟨ha, lt_trans hlt hlt'⟩
  rw [ahead, hsplit, Finset.card_insert_of_notMem]
  · rfl
  · rw [Finset.mem_filter]
    exact fun h => lt_irrefl _ h.2

/-! ## Estimates -/

theorem mem_of_first_id {entries : Entries} {f : Id} (h : first_id entries = some f) :
    f ∈ entries ∧ ∀ id ∈ entries, f ≤ id := by
  unfold first_id at h
  have hinc := range_increasing entries ID_MIN ID_MAX
  have hmem : ∀ id fields, entries[id]? = some fields →
      (id, fields) ∈ range entries ID_MIN ID_MAX :=
    fun id fields hget => mem_range.mpr ⟨hget, ID_MIN_le id, le_ID_MAX id⟩
  have hin := fun e => @mem_range Id Fields _ _ entries ID_MIN ID_MAX e
  cases hrange : range entries ID_MIN ID_MAX with
  | nil =>
      rw [hrange] at h
      cases h
  | cons e rest =>
      rw [hrange] at h hinc hmem
      obtain rfl := Option.some.inj h
      have hfirst : e ∈ range entries ID_MIN ID_MAX := by
        rw [hrange]
        exact List.mem_cons_self
      constructor
      · rw [← isSome_iff_mem, ((hin e).mp hfirst).1]
        rfl
      · intro id hid
        rw [← isSome_iff_mem, Option.isSome_iff_exists] at hid
        obtain ⟨fields, hfields⟩ := hid
        rcases List.mem_cons.mp (hmem id fields hfields) with heq | hrest
        · rw [← heq]
        · have hlt : e.1 < id := (List.pairwise_cons.mp hinc).1 (id, fields) hrest
          exact hlt.le

theorem size_of_first_id_none {entries : Entries} (h : first_id entries = none) :
    entries.size = 0 := by
  have hnil : range entries ID_MIN ID_MAX = [] := by
    unfold first_id at h
    rw [Option.map_eq_none_iff] at h
    exact List.head?_eq_none_iff.mp h
  rw [← card_ids, Finset.card_eq_zero, Finset.eq_empty_iff_forall_notMem]
  intro id hid
  rw [mem_ids, ← isSome_iff_mem, Option.isSome_iff_exists] at hid
  obtain ⟨fields, hfields⟩ := hid
  have hmem : (id, fields) ∈ range entries ID_MIN ID_MAX :=
    mem_range.mpr ⟨hfields, ID_MIN_le id, le_ID_MAX id⟩
  rw [hnil] at hmem
  cases hmem

/-- An estimate that is given is right. -/
theorem estimate_exact {s : Header} {entries : Entries} (h : Agrees s entries) (id : Id)
    (hgiven : estimate_read s entries id ≠ -1) :
    (s.added : Int) - estimate_read s entries id = ahead entries id := by
  have hlen := h.len_eq
  have hle := h.len_le
  unfold estimate_read at hgiven ⊢
  by_cases hadded : s.added = 0
  · rw [if_pos hadded, hadded, ahead_eq_zero]
    · rfl
    · intro a ha
      have hcard := card_ids entries
      have hpos : 0 < (ids entries).card := Finset.card_pos.mpr ⟨a, mem_ids.mpr ha⟩
      omega
  rw [if_neg hadded] at hgiven ⊢
  by_cases hempty : s.len = 0 ∧ id ≤ s.last
  · rw [if_pos hempty, ahead_eq_zero]
    · omega
    · intro a ha
      have hcard := card_ids entries
      have hpos : 0 < (ids entries).card := Finset.card_pos.mpr ⟨a, mem_ids.mpr ha⟩
      omega
  rw [if_neg hempty] at hgiven ⊢
  by_cases hlast : id = s.last
  · rw [if_pos hlast, ahead_eq_zero]
    · omega
    · intro a ha
      rw [hlast]
      exact h.le_last a ha
  rw [if_neg hlast] at hgiven ⊢
  by_cases hbehind : id > s.last
  · rw [if_pos hbehind] at hgiven
    exact absurd rfl hgiven
  rw [if_neg hbehind] at hgiven ⊢
  have hle_last : id ≤ s.last := not_lt.mp hbehind
  cases hfirst : first_id entries with
  | none =>
      have hsize := size_of_first_id_none hfirst
      exact absurd ⟨by omega, hle_last⟩ hempty
  | some f =>
      obtain ⟨hf, hmin⟩ := mem_of_first_id hfirst
      simp only [hfirst, Option.getD_some] at hgiven ⊢
      by_cases htrust : s.maxdel = ID_MIN ∨ s.maxdel < f
      · rw [if_pos htrust] at hgiven ⊢
        by_cases hfront : id < f
        · rw [if_pos hfront, ahead_eq_size fun a ha => lt_of_lt_of_le hfront (hmin a ha)]
          omega
        rw [if_neg hfront] at hgiven ⊢
        by_cases hat : id = f
        · subst hat
          have hnext : entries.size = ahead entries id + 1 := by
            have hsplit : ids entries = insert id ((ids entries).filter (id < ·)) := by
              ext a
              rw [Finset.mem_insert, Finset.mem_filter, mem_ids]
              constructor
              · intro ha
                rcases eq_or_lt_of_le (hmin a ha) with rfl | hlt
                · exact .inl rfl
                · exact .inr ⟨ha, hlt⟩
              · rintro (rfl | ⟨ha, -⟩)
                · exact hf
                · exact ha
            rw [← card_ids, hsplit, Finset.card_insert_of_notMem]
            · rfl
            · rw [Finset.mem_filter]
              exact fun h => lt_irrefl _ h.2
          rw [if_pos rfl]
          omega
        · rw [if_neg hat] at hgiven
          exact absurd rfl hgiven
      · rw [if_neg htrust] at hgiven
        exact absurd rfl hgiven

/-! ## Commands on the entries -/

/-- How far a user moves the number of entries added. -/
def HeaderCmd.raises (d d' : KeyData) : HeaderCmd → Int
  | .xsetid _ => (d'.header.added : Int) - d.header.added
  | _ => 0

/-- What a group at `last` is given as read or as still to come and is not: entries
added at or below it, entries that are gone before it came to them, and entries that
were added only by name. -/
def passed (c : HeaderCmd) (d d' : KeyData) (last : Id) : Int :=
  (((c.adds d).toFinset.filter (· ≤ last)).card : Int) +
    (((ids d.entries ∪ (c.adds d).toFinset) \ ids d'.entries).filter (last < ·)).card +
    c.raises d d'

/-- The entries and the number of entries added, from one state to the next. -/
structure Counts (c : HeaderCmd) (d d' : KeyData) : Prop where
  subset : ids d'.entries ⊆ ids d.entries ∪ (c.adds d).toFinset
  fresh : Disjoint (ids d.entries) (c.adds d).toFinset
  added : (d'.header.added : Int) = d.header.added + (c.adds d).toFinset.card + c.raises d d'

theorem Counts.passed_spec {c : HeaderCmd} {d d' : KeyData} (h : Counts c d d') (last : Id) :
    (d'.header.added : Int) - ahead d'.entries last =
      (d.header.added : Int) - ahead d.entries last + passed c d d' last := by
  have hunion : (((ids d.entries ∪ (c.adds d).toFinset)).filter (last < ·)).card =
      ahead d.entries last + ((c.adds d).toFinset.filter (last < ·)).card := by
    rw [Finset.filter_union, Finset.card_union_of_disjoint]
    · rfl
    · exact Finset.disjoint_filter_filter h.fresh
  have hgone : ahead d'.entries last +
      (((ids d.entries ∪ (c.adds d).toFinset) \ ids d'.entries).filter (last < ·)).card =
      (((ids d.entries ∪ (c.adds d).toFinset)).filter (last < ·)).card := by
    rw [ahead, ← Finset.card_union_of_disjoint, ← Finset.filter_union,
      Finset.union_sdiff_of_subset h.subset]
    exact Finset.disjoint_filter_filter Finset.disjoint_sdiff
  have hnew : ((c.adds d).toFinset.filter (· ≤ last)).card +
      ((c.adds d).toFinset.filter (last < ·)).card = (c.adds d).toFinset.card := by
    rw [← Finset.card_filter_add_card_filter_not (s := (c.adds d).toFinset) (fun a => a ≤ last)]
    simp only [not_le]
  have hadded := h.added
  unfold passed
  omega

theorem ids_eraseAll_subset (entries : Entries) (l : List Id) :
    ids (eraseAll entries l) ⊆ ids entries := by
  intro id hid
  rw [mem_ids, ← isSome_iff_mem, getElem?_eraseAll] at hid
  rw [mem_ids, ← isSome_iff_mem]
  split at hid
  · cases hid
  · exact hid

theorem ids_trimmed_subset (t : Option TrimSpec) (r : Header × Entries) :
    ids (trimmed t r).2 ⊆ ids r.2 := by
  cases t with
  | none => exact Finset.Subset.refl _
  | some t => exact ids_eraseAll_subset _ _

theorem added_trimmed (t : Option TrimSpec) (r : Header × Entries) :
    (trimmed t r).1.added = r.1.added := by
  cases t with
  | none => rfl
  | some t => rfl

/-- A command that adds nothing and sets no number. -/
theorem Counts.quiet {c : HeaderCmd} {d d' : KeyData} (hadds : c.adds d = none)
    (hraises : c.raises d d' = 0) (hsub : ids d'.entries ⊆ ids d.entries)
    (hadded : d'.header.added = d.header.added) : Counts c d d' where
  subset := by
    rw [hadds]
    exact hsub.trans Finset.subset_union_left
  fresh := by
    rw [hadds]
    exact Finset.disjoint_empty_right _
  added := by
    rw [hadds, hraises, hadded]
    simp

theorem counts_xadd {now : UInt64} {a : List Bytes} {d d' : KeyData} {r : Resp}
    (hagrees : Agrees d.header d.entries) (h : xadd now a d = .ok (r, d')) :
    Counts (.xadd now a) d d' := by
  unfold xadd at h
  split at h
  · cases h
  next found d'' hentry =>
  cases h
  have hadds : HeaderCmd.adds d (.xadd now a) = found := by
    simp only [HeaderCmd.adds, hentry]
    cases found <;> rfl
  unfold xaddEntry at hentry
  split at hentry
  · cases hentry
  split at hentry
  · cases hentry
  split at hentry
  · cases hentry
  next x _ _ _ loaded hload =>
  obtain ⟨-, hheader⟩ := load_eq_ok hload
  split at hentry
  · cases hentry
    exact Counts.quiet hadds rfl (Finset.Subset.refl _) rfl
  simp only [hheader] at hentry
  split at hentry
  · cases hentry
  split at hentry
  · cases hentry
  next id hid =>
  cases hentry
  have hlast := lt_of_xaddId hid
  have hids : ids (addEntry d.header d.entries id x.fields).2 = ids d.entries ∪ {id} := by
    ext b
    rw [Finset.mem_union, Finset.mem_singleton, mem_ids, mem_ids, ← isSome_iff_mem,
      addEntry, getElem?_insert', ← isSome_iff_mem]
    by_cases hb : b = id <;> simp [hb]
  constructor
  · rw [hadds, Option.toFinset_some, ← hids]
    exact ids_trimmed_subset _ _
  · rw [hadds, Option.toFinset_some, Finset.disjoint_singleton_right, mem_ids]
    exact fun hmem => absurd (hagrees.le_last id hmem) (not_le_of_gt hlast)
  · rw [hadds, Option.toFinset_some, Finset.card_singleton]
    have hadded := added_trimmed x.trim (addEntry d.header d.entries id x.fields)
    change ((trimmed x.trim (addEntry d.header d.entries id x.fields)).1.added : Int) = _
    rw [hadded]
    simp [addEntry, HeaderCmd.raises]

theorem ids_delEntry_subset (r : Nat × Header × Entries) (id : Id) :
    ids (delEntry r id).2.2 ⊆ ids r.2.2 ∧ (delEntry r id).2.1.added = r.2.1.added := by
  obtain ⟨deleted, s, entries⟩ := r
  simp only [delEntry]
  split
  · exact ⟨ids_eraseAll_subset entries [id], rfl⟩
  · exact ⟨Finset.Subset.refl _, rfl⟩

theorem ids_delEntries_subset (l : List Id) (r : Nat × Header × Entries) :
    ids (l.foldl delEntry r).2.2 ⊆ ids r.2.2 ∧ (l.foldl delEntry r).2.1.added = r.2.1.added := by
  induction l generalizing r with
  | nil => exact ⟨Finset.Subset.refl _, rfl⟩
  | cons id l ih =>
      obtain ⟨hsub, hadded⟩ := ids_delEntry_subset r id
      obtain ⟨hsub', hadded'⟩ := ih (delEntry r id)
      exact ⟨hsub'.trans hsub, hadded'.trans hadded⟩

theorem counts_xdel {a : List Bytes} {d d' : KeyData} {r : Resp} (h : xdel a d = .ok (r, d')) :
    Counts (.xdel a) d d' := by
  unfold xdel at h
  split at h
  · cases h
  split at h
  · cases h
  · cases h
    exact Counts.quiet rfl rfl (Finset.Subset.refl _) rfl
  next s hload =>
  obtain ⟨-, rfl⟩ := load_eq_some hload
  split at h
  · cases h
  next l _ =>
  cases h
  obtain ⟨hsub, hadded⟩ := ids_delEntries_subset l (0, d.header, d.entries)
  exact Counts.quiet rfl rfl hsub hadded

theorem counts_xtrim {a : List Bytes} {d d' : KeyData} {r : Resp} (h : xtrim a d = .ok (r, d')) :
    Counts (.xtrim a) d d' := by
  unfold xtrim at h
  split at h
  · cases h
  split at h
  · cases h
  · cases h
    exact Counts.quiet rfl rfl (Finset.Subset.refl _) rfl
  next s hload =>
  obtain ⟨-, rfl⟩ := load_eq_some hload
  cases h
  exact Counts.quiet rfl rfl (ids_eraseAll_subset _ _) rfl

theorem counts_xsetid {a : List Bytes} {d d' : KeyData} {r : Resp}
    (h : xsetid a d = .ok (r, d')) : Counts (.xsetid a) d d' := by
  have hentries : d'.entries = d.entries := by
    unfold xsetid at h
    split at h
    · cases h
    split at h
    · cases h
    split at h
    · cases h
    split at h
    · cases h
    · cases h
    split at h
    · cases h
    · cases h
      rfl
  constructor
  · rw [hentries]
    exact Finset.subset_union_left
  · exact Finset.disjoint_empty_right _
  · simp [HeaderCmd.raises, HeaderCmd.adds]

/-- What a command on the entries adds to the drift of the counters. -/
theorem passed_spec {c : HeaderCmd} {d d' : KeyData} {r : Resp} (hc : c ≠ .del)
    (hagrees : Agrees d.header d.entries) (h : c.exec d = .ok (r, d')) (last : Id) :
    (d'.header.added : Int) - ahead d'.entries last =
      (d.header.added : Int) - ahead d.entries last + passed c d d' last := by
  refine Counts.passed_spec ?_ last
  cases c with
  | xadd now a => exact counts_xadd hagrees h
  | xdel a => exact counts_xdel h
  | xtrim a => exact counts_xtrim h
  | xsetid a => exact counts_xsetid h
  | del => exact absurd rfl hc

/-! ## Reading -/

/-- The counter of a group, while there is one, is off by the drift. -/
def OffBy (s : Header) (entries : Entries) (gr : Group) (drift : Int) : Prop :=
  gr.read ≠ -1 → (s.added : Int) - gr.read = ahead entries gr.last + drift

theorem offBy_estimate {s : Header} {entries : Entries} (h : Agrees s entries) (last : Id) :
    OffBy s entries { last := last, read := estimate_read s entries last } 0 := by
  intro hread
  rw [Int.add_zero]
  exact estimate_exact h last hread

/-- A group and its drift after an entry was delivered: the counter goes on, or it is
estimated anew. -/
def deliverDrift (s : Header) (entries : Entries) (r : Group × Int) (id : Id) : Group × Int :=
  (deliver s entries r.1 id,
    if r.1.read ≠ -1 ∧ ¬ has_tombstones s entries id then r.2 else 0)

theorem OffBy.deliver {s : Header} {entries : Entries} {gr : Group} {drift : Int} {id : Id}
    (hagrees : Agrees s entries) (h : OffBy s entries gr drift) (hid : id ∈ entries)
    (hlt : gr.last < id) (hnext : ∀ a ∈ entries, gr.last < a → id ≤ a) :
    OffBy s entries (deliverDrift s entries (gr, drift) id).1
      (deliverDrift s entries (gr, drift) id).2 := by
  have hsome : s.added > 0 := by
    have hcard := card_ids entries
    have hpos : 0 < (ids entries).card := Finset.card_pos.mpr ⟨id, mem_ids.mpr hid⟩
    have hlen := hagrees.len_eq
    have hle := hagrees.len_le
    omega
  unfold deliverDrift Stream.deliver
  simp only
  by_cases htrusted : gr.read ≠ -1 ∧ ¬ has_tombstones s entries id
  · rw [if_pos htrusted, if_pos htrusted]
    intro _
    have hbefore := h htrusted.1
    have hahead := ahead_next hid hlt hnext
    simp only
    omega
  · rw [if_neg htrusted, if_neg htrusted, if_pos hsome]
    exact offBy_estimate hagrees id

/-- The entries of a list follow each other in the stream, from an ID on. -/
structure Follows (entries : Entries) (last : Id) (es : List (Id × Fields)) : Prop where
  increasing : Increasing es
  mem : ∀ e ∈ es, last < e.1 ∧ e.1 ∈ entries
  all : ∀ a ∈ entries, last < a → a ∈ es.map Prod.fst ∨ ∀ e ∈ es, e.1 < a

theorem follows_newEntries (d : KeyData) (gr : Group) (count : Nat) :
    Follows d.entries gr.last (newEntries d gr count) where
  increasing := newEntries_increasing d gr count
  mem := fun _ he => mem_newEntries he
  all := by
    intro a ha hlt
    by_cases hmem : a ∈ (newEntries d gr count).map Prod.fst
    · exact .inl hmem
    · exact .inr (newEntries_rest ha hlt hmem).1

theorem Follows.next {entries : Entries} {last : Id} {e : Id × Fields} {es : List (Id × Fields)}
    (h : Follows entries last (e :: es)) :
    (∀ a ∈ entries, last < a → e.1 ≤ a) ∧ Follows entries e.1 es := by
  obtain ⟨hfirst, hinc⟩ := List.pairwise_cons.mp h.increasing
  have hlt := (h.mem e List.mem_cons_self).1
  refine ⟨?_, hinc, ?_, ?_⟩
  · intro a ha hlast
    rcases h.all a ha hlast with hmem | hbehind
    · rw [List.map_cons, List.mem_cons] at hmem
      rcases hmem with rfl | hmem
      · exact le_refl _
      · obtain ⟨e', he', rfl⟩ := List.mem_map.mp hmem
        exact (hfirst e' he').le
    · exact (hbehind e List.mem_cons_self).le
  · exact fun e' he' => ⟨hfirst e' he', (h.mem e' (List.mem_cons_of_mem _ he')).2⟩
  · intro a ha hlast
    rcases h.all a ha (hlt.trans hlast) with hmem | hbehind
    · rw [List.map_cons, List.mem_cons] at hmem
      exact .inl (hmem.resolve_left (ne_of_gt hlast))
    · exact .inr fun e' he' => hbehind e' (List.mem_cons_of_mem _ he')

theorem OffBy.delivered {s : Header} {entries : Entries} (hagrees : Agrees s entries)
    {es : List (Id × Fields)} {r : Group × Int} (h : OffBy s entries r.1 r.2)
    (hes : Follows entries r.1.last es) :
    OffBy s entries (es.foldl (fun r e => deliverDrift s entries r e.1) r).1
      (es.foldl (fun r e => deliverDrift s entries r e.1) r).2 := by
  induction es generalizing r with
  | nil => exact h
  | cons e es ih =>
      obtain ⟨hnext, hrest⟩ := hes.next
      obtain ⟨hlt, hmem⟩ := hes.mem e List.mem_cons_self
      exact ih (h.deliver hagrees hmem hlt hnext) hrest

theorem deliverDrift_group (s : Header) (entries : Entries) (es : List (Id × Fields))
    (r : Group × Int) :
    (es.foldl (fun r e => deliverDrift s entries r e.1) r).1 =
      es.foldl (fun gr e => deliver s entries gr e.1) r.1 := by
  induction es generalizing r with
  | nil => rfl
  | cons e es ih => exact ih _

/-! ## Runs -/

/-- A database, and what the counter of every group has drifted by. -/
structure Counted where
  db : Db
  drift : Bytes → Bytes → Int

/-- A command that has to do with lags. -/
inductive LagCmd where
  | header (key : Bytes) (c : HeaderCmd)
  | xreadgroup (now : UInt64) (a : List Bytes)
  | xgroup (now : UInt64) (a : List Bytes)

def setDrift (drift : Bytes → Bytes → Int) (key g : Bytes) (n : Int) : Bytes → Bytes → Int :=
  Function.update drift key (Function.update (drift key) g n)

/-- The drift of all groups after the streams of an XREADGROUP were read. -/
def readDrift (now : UInt64) (g c : Bytes) (o : ReadOpts) :
    List (Bytes × Start) → Db → (Bytes → Bytes → Int) → Bytes → Bytes → Int
  | [], _, drift => drift
  | (k, st) :: rest, db, drift =>
      match (db k).kind, (db k).groups[g]?, st with
      | .stream s, some gr, .new =>
          let r := readNew now g c o s gr (db k)
          let n := r.1.foldl (fun r e => deliverDrift s (db k).entries r e.1) (gr, drift k g)
          readDrift now g c o rest (Function.update db k r.2) (setDrift drift k g n.2)
      | .stream _, _, .after id =>
          let r := readHistory now g c o.count id (db k)
          readDrift now g c o rest (Function.update db k r.2) drift
      | _, _, _ => readDrift now g c o rest db drift

/-- What a user said with ENTRIESREAD about a group that is placed. -/
def GroupCmd.given (x : GroupCmd) : Option Int :=
  match x.sub, x.rest with
  | .create, _ :: opts =>
      match parseCreateOpts opts.length (false, none) opts with
      | .ok (_, read) => read
      | .error _ => none
  | .setId, _ :: opts =>
      match parse_entries_read opts with
      | .ok read => read
      | .error _ => none
  | _, _ => none

/-- How far a number of entries read is off that a user said. -/
def saidDrift (s : Header) (entries : Entries) (last : Id) : Option Int → Int
  | some read => ((s.added : Int) - read) - ahead entries last
  | none => 0

/-- What a group that is placed starts with. -/
def GroupCmd.startDrift (x : GroupCmd) (d' : KeyData) : Int :=
  match d'.groups[x.g]? with
  | some gr => saidDrift d'.header d'.entries gr.last x.given
  | none => 0

/-- The drift of a group after XGROUP. -/
def GroupCmd.drift (x : GroupCmd) (d' : KeyData) (drift : Bytes → Bytes → Int) :
    Bytes → Bytes → Int :=
  match x.sub with
  | .create | .setId => setDrift drift x.key x.g (x.startDrift d')
  | _ => drift

def Counted.step (t : Counted) : LagCmd → Counted
  | .header key c =>
      match c.exec (t.db key) with
      | .error _ => t
      | .ok (_, d') =>
          { db := Function.update t.db key d'
            drift := Function.update t.drift key fun g =>
              t.drift key g +
                match (t.db key).groups[g]? with
                | some gr => passed c (t.db key) d' gr.last
                | none => 0 }
  | .xreadgroup now a =>
      match parseReadGroup a t.db with
      | .error _ => t
      | .ok r =>
          { db := (readStreams now r.g r.c r.opts r.starts [] t.db).2
            drift := readDrift now r.g r.c r.opts r.starts t.db t.drift }
  | .xgroup now a =>
      match parseGroupCmd a with
      | .error _ => t
      | .ok x =>
          match onKey t.db x.key (Stream.xgroup now x) with
          | .error _ => t
          | .ok (_, db') => { db := db', drift := x.drift (db' x.key) t.drift }

/-- What holds of one key. -/
def KeyOff (d : KeyData) (drift : Bytes → Int) : Prop :=
  match d.kind with
  | .absent => d.entries = ∅ ∧ ∀ g : Bytes, d.groups[g]? = none
  | .foreign => True
  | .stream s =>
      Agrees s d.entries ∧ ∀ g gr, d.groups[g]? = some gr → OffBy s d.entries gr (drift g)

def Off (t : Counted) : Prop := ∀ key, KeyOff (t.db key) (t.drift key)

theorem data_next (l : Life) (c : HeaderCmd) (d' : KeyData) : (l.next c d').data = d' := by
  unfold Life.next
  split
  · split <;> rfl
  · rfl

/-- The header still agrees with the entries after a command. -/
theorem agrees_effect {c : HeaderCmd} {d d' : KeyData} (hagrees : Agrees d.header d.entries)
    (hmade : d.isStream = false → d.entries = ∅) (heff : Effect d c d') :
    Agrees d'.header d'.entries := by
  have hlife : ∃ l : Life, l.data = d ∧ Truthful l := by
    cases hstream : d.isStream with
    | false => exact ⟨.fresh d, rfl, truthful_fresh (hmade hstream) hstream⟩
    | true =>
        refine ⟨{ data := d, ids := [], era := [], floor := d.header.maxdel, movedBack := true },
          rfl, hagrees, ?_, le_max_right _ _, ?_, ?_⟩
        · exact fun id hid => absurd hid List.not_mem_nil
        · exact fun hfalse => nomatch hfalse
        · intro hfalse
          rw [hstream] at hfalse
          cases hfalse
  obtain ⟨l, rfl, htruthful⟩ := hlife
  have hnext := (htruthful.effect heff).agrees
  rw [data_next] at hnext
  exact hnext

theorem KeyOff.of_stream {d : KeyData} {s : Header} {drift : Bytes → Int}
    (h : KeyOff d drift) (hkind : d.kind = .stream s) :
    Agrees s d.entries ∧ ∀ g gr, d.groups[g]? = some gr → OffBy s d.entries gr (drift g) := by
  unfold KeyOff at h
  rw [hkind] at h
  exact h

theorem KeyOff.agrees {d : KeyData} {drift : Bytes → Int} (h : KeyOff d drift)
    (hkind : d.kind ≠ .foreign) :
    Agrees d.header d.entries ∧
      (d.isStream = false → d.entries = ∅ ∧ ∀ g : Bytes, d.groups[g]? = none) := by
  unfold KeyOff at h
  unfold KeyData.header KeyData.isStream
  cases hk : d.kind with
  | foreign => exact absurd hk hkind
  | absent =>
      rw [hk] at h
      refine ⟨?_, fun _ => h⟩
      rw [h.1]
      exact ⟨rfl, by simp, le_rfl⟩
  | stream s =>
      rw [hk] at h
      exact ⟨h.1, fun hfalse => nomatch hfalse⟩

/-- What an effect other than a drop leaves alone. -/
theorem Effect.frame {c : HeaderCmd} {d d' : KeyData} (h : Effect d c d') :
    d' = .empty ∨ d'.groups = d.groups ∧ (d.kind = .foreign → d' = d) := by
  have hnot : d.isStream = true → d.kind ≠ .foreign := by
    intro hstream hkind
    simp [KeyData.isStream, hkind] at hstream
  cases h with
  | same hadds => exact .inr ⟨rfl, fun _ => rfl⟩
  | added hkind hadds hid => exact .inr ⟨rfl, fun hf => absurd hf hkind⟩
  | deleted hstream hadds => exact .inr ⟨rfl, fun hf => absurd hf (hnot hstream)⟩
  | trimmed hstream hadds => exact .inr ⟨rfl, fun hf => absurd hf (hnot hstream)⟩
  | setId hstream hadds hlen hlast hadded hmaxdel =>
      exact .inr ⟨rfl, fun hf => absurd hf (hnot hstream)⟩
  | dropped hadds => exact .inl rfl

theorem keyOff_empty (drift : Bytes → Int) : KeyOff .empty drift :=
  ⟨rfl, fun _ => Std.ExtTreeMap.getElem?_empty⟩

theorem KeyOff.header {c : HeaderCmd} {d d' : KeyData} {r : Resp} {drift : Bytes → Int}
    (h : KeyOff d drift) (hexec : c.exec d = .ok (r, d')) :
    KeyOff d' fun g =>
      drift g +
        match d.groups[g]? with
        | some gr => passed c d d' gr.last
        | none => 0 := by
  have heff := effect_of_exec hexec
  rcases heff.frame with rfl | ⟨hgroups, hforeign⟩
  · exact keyOff_empty _
  by_cases hkind : d.kind = .foreign
  · obtain rfl := hforeign hkind
    unfold KeyOff
    rw [hkind]
    trivial
  obtain ⟨hagrees, hmade⟩ := h.agrees hkind
  by_cases hdel : c = .del
  · subst hdel
    simp only [HeaderCmd.exec, del] at hexec
    split at hexec
    · next habsent =>
        cases hexec
        unfold KeyOff at h ⊢
        rw [habsent] at h ⊢
        exact h
    · cases hexec
      exact keyOff_empty _
  have hagrees' := agrees_effect hagrees (fun hfalse => (hmade hfalse).1) heff
  have hpassed := passed_spec hdel hagrees hexec
  unfold KeyOff
  cases hk : d'.kind with
  | foreign => trivial
  | absent =>
      cases heff with
      | same hadds =>
          exact hmade (by simp [KeyData.isStream, hk])
      | added | deleted | trimmed | setId => cases hk
      | dropped hadds => exact keyOff_empty drift
  | stream s =>
      have hheader : d'.header = s := by rw [KeyData.header, hk]
      rw [hheader] at hagrees' hpassed
      refine ⟨hagrees', ?_⟩
      intro g gr hgr hread
      rw [hgroups] at hgr
      simp only [hgr]
      cases hold : d.kind with
      | foreign => exact absurd hold hkind
      | absent =>
          rw [(hmade (by simp [KeyData.isStream, hold])).2 g] at hgr
          cases hgr
      | stream s₀ =>
          have hbefore := (h.of_stream hold).2 g gr hgr hread
          have hheader₀ : d.header = s₀ := by rw [KeyData.header, hold]
          have hmoved := hpassed gr.last
          rw [hheader₀] at hmoved
          omega

/-! ## XGROUP -/

/-- Groups may go; entries and header stay. -/
theorem KeyOff.fewer {d d' : KeyData} {drift : Bytes → Int} (h : KeyOff d drift)
    (hkind : d'.kind = d.kind) (hentries : d'.entries = d.entries)
    (hgroups : ∀ (g : Bytes) gr, d'.groups[g]? = some gr → d.groups[g]? = some gr) :
    KeyOff d' drift := by
  unfold KeyOff at h ⊢
  rw [hkind, hentries]
  cases hk : d.kind with
  | foreign => trivial
  | absent =>
      rw [hk] at h
      refine ⟨h.1, fun g => ?_⟩
      cases hg : d'.groups[g]? with
      | none => rfl
      | some gr => exact absurd (hgroups g gr hg) (by simp [h.2 g])
  | stream s =>
      rw [hk] at h
      exact ⟨h.1, fun g gr hgr => h.2 g gr (hgroups g gr hgr)⟩

/-- A group is placed. -/
theorem KeyOff.placed {d d' : KeyData} {drift : Bytes → Int} (h : KeyOff d drift)
    (hforeign : d.kind ≠ .foreign) {g : Bytes} {gr : Group} {n : Int}
    (hkind : d'.kind = .stream d.header) (hentries : d'.entries = d.entries)
    (hgroups : d'.groups = d.groups.insert g gr) (hoff : OffBy d.header d.entries gr n) :
    KeyOff d' (Function.update drift g n) := by
  obtain ⟨hagrees, hmade⟩ := h.agrees hforeign
  unfold KeyOff
  rw [hkind, hentries, hgroups]
  refine ⟨hagrees, ?_⟩
  intro g' gr' hgr'
  by_cases hg : g' = g
  · subst hg
    rw [Std.ExtTreeMap.getElem?_insert_self] at hgr'
    obtain rfl := Option.some.inj hgr'
    rw [Function.update_self]
    exact hoff
  · have hcmp : compare g g' ≠ .eq := fun heq => hg (Std.LawfulEqCmp.eq_of_compare heq).symm
    rw [Std.ExtTreeMap.getElem?_insert, if_neg hcmp] at hgr'
    rw [Function.update_of_ne hg]
    cases hold : d.kind with
    | foreign => exact absurd hold hforeign
    | absent =>
        rw [(hmade (by simp [KeyData.isStream, hold])).2 g'] at hgr'
        cases hgr'
    | stream s =>
        have hheader : d.header = s := by rw [KeyData.header, hold]
        rw [hheader]
        exact (h.of_stream hold).2 g' gr' hgr'

/-- The group that is placed is off by what the user said, or not at all. -/
theorem offBy_newGroup {s : Header} {entries : Entries} (hagrees : Agrees s entries)
    (explicit : Option Id) (read : Option Int) :
    OffBy s entries (newGroup s entries explicit read)
      (saidDrift s entries (newGroup s entries explicit read).last read) := by
  cases read with
  | none => exact offBy_estimate hagrees _
  | some n =>
      intro _
      simp only [newGroup, saidDrift, Option.getD_some]
      omega

theorem startDrift_eq {x : GroupCmd} (d' : KeyData) {s : Header} {gr : Group} {read : Option Int}
    (hgiven : x.given = read) (hkind : d'.kind = .stream s) (hgr : d'.groups[x.g]? = some gr) :
    x.startDrift d' = saidDrift s d'.entries gr.last read := by
  have hheader : d'.header = s := by rw [KeyData.header, hkind]
  unfold GroupCmd.startDrift
  rw [hgr, hgiven, hheader]

theorem KeyOff.create {x : GroupCmd} {id_arg : Bytes} {opts : List Bytes} {d d' : KeyData}
    {res : Result} {drift : Bytes → Int} (h : KeyOff d drift) (hsub : x.sub = .create)
    (hrest : x.rest = id_arg :: opts) (hexec : xgroupCreate x.g id_arg opts d = .ok (res, d')) :
    KeyOff d' (Function.update drift x.g (x.startDrift d')) := by
  unfold xgroupCreate at hexec
  split at hexec
  · cases hexec
  next mk read hopts =>
  split at hexec
  · cases hexec
  next explicit _ =>
  split at hexec
  · cases hexec
  next found hload =>
  obtain ⟨hforeign, hheader⟩ := load_eq_ok hload
  split at hexec
  · cases hexec
  split at hexec
  · cases hexec
  rw [hheader] at hexec
  cases hexec
  have hgiven : x.given = read := by
    unfold GroupCmd.given
    rw [hsub, hrest]
    simp only [hopts]
  have hstart := startDrift_eq
    (save (d.save_group x.g (newGroup d.header d.entries explicit read)) d.header)
    (s := d.header) hgiven rfl
    (getElem?_save_group d x.g _)
  rw [hstart]
  exact h.placed hforeign rfl rfl rfl (offBy_newGroup (h.agrees hforeign).1 explicit read)

theorem KeyOff.setId {x : GroupCmd} {id_arg : Bytes} {opts : List Bytes} {d d' : KeyData}
    {res : Result} {drift : Bytes → Int} (h : KeyOff d drift) (hsub : x.sub = .setId)
    (hrest : x.rest = id_arg :: opts)
    (hexec : xgroupSetId x.key x.g id_arg opts d = .ok (res, d')) :
    KeyOff d' (Function.update drift x.g (x.startDrift d')) := by
  unfold xgroupSetId at hexec
  split at hexec
  · cases hexec
  next explicit _ =>
  split at hexec
  · cases hexec
  next read hopts =>
  split at hexec
  · cases hexec
  · cases hexec
  next s hload =>
  obtain ⟨hstream, hheader⟩ := load_eq_some hload
  obtain ⟨hforeign, -⟩ := load_eq_ok hload
  split at hexec
  · cases hexec
  subst hheader
  cases hexec
  have hkind : d.kind = .stream d.header := by
    unfold KeyData.isStream at hstream
    unfold KeyData.header
    split at hstream
    · next s hk => rw [hk]
    · cases hstream
  have hgiven : x.given = read := by
    unfold GroupCmd.given
    rw [hsub, hrest]
    simp only [hopts]
  have hstart := startDrift_eq (d.save_group x.g (newGroup d.header d.entries explicit read))
    hgiven hkind
    (getElem?_save_group d x.g _)
  rw [hstart]
  exact h.placed hforeign hkind rfl rfl (offBy_newGroup (h.agrees hforeign).1 explicit read)

theorem xgroupDestroy_frame {g : Bytes} {d d' : KeyData} {res : Result}
    (h : xgroupDestroy g d = .ok (res, d')) :
    d'.kind = d.kind ∧ d'.entries = d.entries ∧
      ∀ (g' : Bytes) gr, d'.groups[g']? = some gr → d.groups[g']? = some gr := by
  unfold xgroupDestroy at h
  split at h
  · cases h
  · cases h
  split at h
  · cases h
    exact ⟨rfl, rfl, fun _ _ hgr => hgr⟩
  · cases h
    refine ⟨rfl, rfl, fun g' gr hgr => ?_⟩
    change (d.groups.erase g)[g']? = some gr at hgr
    rw [Std.ExtTreeMap.getElem?_erase] at hgr
    split at hgr
    · cases hgr
    · exact hgr

theorem xgroupConsumer_frame {now : UInt64} {create : Bool} {key g c : Bytes} {d d' : KeyData}
    {res : Result} (h : xgroupConsumer now create key g c d = .ok (res, d')) :
    d'.kind = d.kind ∧ d'.entries = d.entries ∧
      ∀ (g' : Bytes) gr, d'.groups[g']? = some gr → d.groups[g']? = some gr := by
  unfold xgroupConsumer at h
  split at h
  · cases h
  · cases h
  split at h
  · cases h
  split at h
  · split at h
    · cases h
      exact ⟨rfl, rfl, fun _ _ hgr => hgr⟩
    · cases h
      exact ⟨rfl, rfl, fun _ _ hgr => hgr⟩
  · split at h
    · cases h
      exact ⟨rfl, rfl, fun _ _ hgr => hgr⟩
    · cases h
      rw [delPel_foldl]
      exact ⟨rfl, rfl, fun _ _ hgr => hgr⟩

theorem Off.update {t : Counted} (h : Off t) (key : Bytes) {d : KeyData} {drift : Bytes → Int}
    (hd : KeyOff d drift) :
    Off { db := Function.update t.db key d, drift := Function.update t.drift key drift } := by
  intro k
  by_cases hk : k = key
  · subst hk
    simp only [Function.update_self]
    exact hd
  · simp only [Function.update_of_ne hk]
    exact h k

theorem Off.xgroup {t : Counted} (h : Off t) (now : UInt64) (a : List Bytes) :
    Off (t.step (.xgroup now a)) := by
  unfold Counted.step
  simp only
  split
  · exact h
  next x hparse =>
  split
  · exact h
  next res db' hexec =>
  unfold onKey at hexec
  split at hexec
  · cases hexec
  next d' hkey =>
  cases hexec
  have hold := h x.key
  unfold Stream.xgroup at hkey
  unfold GroupCmd.drift
  rw [Function.update_self]
  split at hkey
  · next hsub hrest =>
      rw [hsub]
      exact h.update _ (hold.create hsub hrest hkey)
  · next hsub hrest =>
      rw [hsub]
      exact h.update _ (hold.setId hsub hrest hkey)
  · next hsub hrest =>
      obtain ⟨hkind, hentries, hgroups⟩ := xgroupDestroy_frame hkey
      have hnew := h.update x.key (hold.fewer hkind hentries hgroups)
      rw [Function.update_eq_self] at hnew
      rw [hsub]
      exact hnew
  · next c hsub hrest =>
      obtain ⟨hkind, hentries, hgroups⟩ := xgroupConsumer_frame hkey
      have hnew := h.update x.key (hold.fewer hkind hentries hgroups)
      rw [Function.update_eq_self] at hnew
      rw [hsub]
      exact hnew
  · next c hsub hrest =>
      obtain ⟨hkind, hentries, hgroups⟩ := xgroupConsumer_frame hkey
      have hnew := h.update x.key (hold.fewer hkind hentries hgroups)
      rw [Function.update_eq_self] at hnew
      rw [hsub]
      exact hnew
  · cases hkey

/-! ## XREADGROUP -/

theorem putPel_foldl_frame (g : Bytes) (es : List (Id × Fields)) (p : Pel) (d : KeyData) :
    let d' := es.foldl (fun d e => d.putPel g e.1 p) d
    d'.entries = d.entries ∧ d'.groups = d.groups := by
  induction es generalizing d with
  | nil => exact ⟨rfl, rfl⟩
  | cons e es ih => exact ih (d.putPel g e.1 p)

theorem KeyOff.readNew {d : KeyData} {s : Header} {g : Bytes} {gr : Group} {drift : Bytes → Int}
    (h : KeyOff d drift) (hkind : d.kind = .stream s) (hgr : d.groups[g]? = some gr)
    (now : UInt64) (c : Bytes) (o : ReadOpts) :
    KeyOff (readNew now g c o s gr d).2
      (Function.update drift g
        ((readNew now g c o s gr d).1.foldl (fun r e => deliverDrift s d.entries r e.1)
          (gr, drift g)).2) := by
  obtain ⟨hagrees, hoff⟩ := h.of_stream hkind
  have hheader : d.header = s := by rw [KeyData.header, hkind]
  have hforeign : d.kind ≠ .foreign := by
    rw [hkind]
    exact Kind.noConfusion
  have hdelivered := OffBy.delivered hagrees (r := (gr, drift g)) (hoff g gr hgr)
    (follows_newEntries d gr o.count)
  rw [deliverDrift_group] at hdelivered
  unfold Stream.readNew
  generalize newEntries d gr o.count = es at hdelivered ⊢
  by_cases hempty : es.isEmpty
  · simp only [hempty, if_true, List.foldl_nil, Function.update_eq_self]
    exact h.fewer rfl rfl fun _ _ hg => hg
  · simp only [hempty, Bool.false_eq_true, if_false]
    have hframe := putPel_foldl_frame g es { time := now.toNat, count := 1, owner := c }
      (d.touch_con now g c true)
    rw [← hheader] at hdelivered ⊢
    refine h.placed hforeign rfl ?_ ?_ hdelivered
    · cases o.noack
      · exact hframe.1
      · rfl
    · cases o.noack
      · exact congrArg (Std.ExtTreeMap.insert · g _) hframe.2
      · rfl

theorem KeyOff.readHistory {d : KeyData} {drift : Bytes → Int} (h : KeyOff d drift)
    (now : UInt64) (g c : Bytes) (count : Nat) (after : Id) :
    KeyOff (readHistory now g c count after d).2 drift := by
  have hframe : ∀ (l : List (Id × Pel)) (f : Id × Pel → Pel) (d₁ : KeyData),
      let d' := l.foldl (fun d e => d.putPel g e.1 (f e)) d₁
      d'.entries = d₁.entries ∧ d'.groups = d₁.groups := by
    intro l f
    induction l with
    | nil => exact fun _ => ⟨rfl, rfl⟩
    | cons e l ih => exact fun d₁ => ih (d₁.putPel g e.1 (f e))
  refine h.fewer (readHistory_kind now g c count after d) ?_ ?_
  · unfold Stream.readHistory
    split
    · rfl
    · exact (hframe _ _ _).1
  · intro g' gr hgr
    unfold Stream.readHistory at hgr
    split at hgr
    · exact hgr
    · rw [(hframe _ (fun e => { e.2 with time := now.toNat, count := e.2.count + 1 }) _).2] at hgr
      exact hgr

theorem Off.readStreams (now : UInt64) (g c : Bytes) (o : ReadOpts)
    (starts : List (Bytes × Start)) (out : List ReadOut) {t : Counted} (h : Off t) :
    Off { db := (readStreams now g c o starts out t.db).2
          drift := readDrift now g c o starts t.db t.drift } := by
  induction starts generalizing out t with
  | nil => exact h
  | cons start starts ih =>
      obtain ⟨k, st⟩ := start
      unfold Stream.readStreams readDrift
      cases hkind : (t.db k).kind with
      | absent => exact ih out h
      | foreign => exact ih out h
      | stream s =>
          cases st with
          | after id =>
              have hnew := h.update k ((h k).readHistory now g c o.count id)
              rw [Function.update_eq_self] at hnew
              cases (t.db k).groups[g]? <;> exact ih _ hnew
          | new =>
              cases hgr : (t.db k).groups[g]? with
              | none => exact ih out h
              | some gr => exact ih _ (h.update k ((h k).readNew hkind hgr now c o))

theorem Off.step {t : Counted} (h : Off t) (c : LagCmd) : Off (t.step c) := by
  cases c with
  | header key c =>
      unfold Counted.step
      simp only
      split
      · exact h
      · next hexec => exact h.update _ ((h key).header hexec)
  | xreadgroup now a =>
      unfold Counted.step
      simp only
      split
      · exact h
      · exact Off.readStreams now _ _ _ _ _ h
  | xgroup now a => exact h.xgroup now a

/-! ## Runs from an empty database -/

def Counted.start : Counted := { db := fun _ => .empty, drift := fun _ _ => 0 }

def Counted.run (cmds : List LagCmd) : Counted := cmds.foldl Counted.step Counted.start

theorem off_run (cmds : List LagCmd) : Off (Counted.run cmds) := by
  have hrun : ∀ (cmds : List LagCmd) (t : Counted), Off t → Off (cmds.foldl Counted.step t) := by
    intro cmds
    induction cmds with
    | nil => exact fun _ h => h
    | cons c cmds ih => exact fun t h => ih _ (h.step c)
  exact hrun cmds Counted.start fun _ => keyOff_empty _

/-- In every state of every run, for every group of every stream: a lag that is
reported is the number of entries behind the last one delivered, unless it comes from
the counter of the group and the counter has drifted. -/
theorem lag_right_iff (cmds : List LagCmd) (key g : Bytes) (s : Header) (gr : Group)
    (hstream : ((Counted.run cmds).db key).kind = .stream s)
    (hgroup : ((Counted.run cmds).db key).groups[g]? = some gr) :
    (∀ n, lag s ((Counted.run cmds).db key).entries gr = some n →
        n = ahead ((Counted.run cmds).db key).entries gr.last) ↔
      ¬ (s.added ≠ 0 ∧ counted s ((Counted.run cmds).db key).entries gr ∧
        (Counted.run cmds).drift key g ≠ 0) := by
  obtain ⟨hagrees, hoff⟩ := (off_run cmds key).of_stream hstream
  have hdrift := hoff g gr hgroup
  generalize ((Counted.run cmds).db key).entries = entries at hagrees hdrift ⊢
  generalize (Counted.run cmds).drift key g = drift at hdrift ⊢
  unfold lag
  by_cases hadded : s.added = 0
  · have hzero := estimate_exact hagrees gr.last
    simp only [estimate_read, if_pos hadded] at hzero
    have hnone : ahead entries gr.last = 0 := by
      have hahead := hzero (by decide)
      omega
    rw [if_pos hadded, hnone]
    simp [hadded]
  rw [if_neg hadded]
  by_cases hcounted : counted s entries gr = true
  · have hread : gr.read ≠ -1 := by
      simp only [counted, Bool.and_eq_true, decide_eq_true_eq] at hcounted
      exact hcounted.1
    have hoffby := hdrift hread
    rw [if_pos hcounted]
    constructor
    · intro hright hwrong
      have hn := hright _ rfl
      exact hwrong.2.2 (by omega)
    · intro hnot n hn
      obtain rfl := Option.some.inj hn
      have hzero : drift = 0 := by
        by_contra hne
        exact hnot ⟨hadded, hcounted, hne⟩
      omega
  · rw [if_neg hcounted]
    refine iff_of_true ?_ fun hwrong => hcounted hwrong.2.1
    intro n hn
    split at hn
    · cases hn
    · next hgiven =>
        obtain rfl := Option.some.inj hn
        exact estimate_exact hagrees gr.last hgiven

/-- The first of three entries is deleted before a group reads it. -/
def deletedFirst : List LagCmd :=
  [.header [1] (.xadd 0 [utf8 "1-1", utf8 "f", utf8 "v"]),
    .header [1] (.xadd 0 [utf8 "2-1", utf8 "f", utf8 "v"]),
    .header [1] (.xadd 0 [utf8 "3-1", utf8 "f", utf8 "v"]),
    .xgroup 0 [utf8 "CREATE", [1], [2], utf8 "0"],
    .header [1] (.xdel [utf8 "1-1"])]

theorem deletedFirst_state :
    ((Counted.run deletedFirst).db [1]).kind =
        .stream { len := 2, last := ⟨3, 1⟩, added := 3, maxdel := ⟨1, 1⟩ } ∧
      ((Counted.run deletedFirst).db [1]).groups[([2] : Bytes)]? =
        some { last := ID_MIN, read := 0 } := by
  decide +kernel

theorem deletedFirst_drift :
    (∀ n, lag { len := 2, last := ⟨3, 1⟩, added := 3, maxdel := ⟨1, 1⟩ }
        ((Counted.run deletedFirst).db [1]).entries { last := ID_MIN, read := 0 } = some n →
        n = ahead ((Counted.run deletedFirst).db [1]).entries ID_MIN) ↔
      ¬ ((3 : Nat) ≠ 0 ∧
        counted { len := 2, last := ⟨3, 1⟩, added := 3, maxdel := ⟨1, 1⟩ }
          ((Counted.run deletedFirst).db [1]).entries { last := ID_MIN, read := 0 } ∧
        (Counted.run deletedFirst).drift [1] [2] ≠ 0) :=
  lag_right_iff deletedFirst [1] [2] _ _ deletedFirst_state.1 deletedFirst_state.2

/-- Two entries are left and a lag of three is reported. -/
theorem lag_of_deleted :
    lag { len := 2, last := ⟨3, 1⟩, added := 3, maxdel := ⟨1, 1⟩ }
        ((Counted.run deletedFirst).db [1]).entries { last := ID_MIN, read := 0 } = some 3 ∧
      ahead ((Counted.run deletedFirst).db [1]).entries ID_MIN = 2 := by
  decide +kernel

/-- A lag that is reported may be wrong. -/
theorem lag_may_be_wrong :
    ¬ (∀ (cmds : List LagCmd) (key g : Bytes) (s : Header) (gr : Group),
      ((Counted.run cmds).db key).kind = .stream s →
      ((Counted.run cmds).db key).groups[g]? = some gr →
      ∀ n, lag s ((Counted.run cmds).db key).entries gr = some n →
        n = ahead ((Counted.run cmds).db key).entries gr.last) := by
  intro h
  have hthree := h deletedFirst [1] [2] _ _ deletedFirst_state.1 deletedFirst_state.2 3
    lag_of_deleted.1
  have htwo := lag_of_deleted.2
  simp only at hthree
  omega

end Stream
end StrikeDB
