import StrikeDB.MemoryIndex

/-!
# StrikeDB: tables of the stored records

What the tables that the long-term memory keeps under record ids say of the stored
records, and what the index in memory holds of them.

**Results.**
* `Lists.insert`, `Lists.erase`, `Lists.amend`: a table of the records.
* `IndexHolds.insert`, `IndexHolds.remove`, `IndexHolds.update`: every change keeps the
  index in memory in step with the records.
-/

namespace StrikeDB
namespace Recall

/-! ## Tables of the records -/

section Tables

variable {F : Type} {β : Type} {t : Std.ExtTreeMap Nat β} {R R' : Entry F → β → Prop}
  {xs : List (Entry F)}

/-- The table lists, under its id, what `R` says of every record. -/
def Lists (t : Std.ExtTreeMap Nat β) (R : Entry F → β → Prop) (xs : List (Entry F)) : Prop :=
  ∀ id b, t[id]? = some b ↔ ∃ x ∈ xs, x.id = id ∧ R x b

theorem getElem?_insert_nat (t : Std.ExtTreeMap Nat β) (id j : Nat) (b : β) :
    (t.insert id b)[j]? = if j = id then some b else t[j]? := by
  rw [Std.ExtTreeMap.getElem?_insert]
  simp only [Std.LawfulEqCmp.compare_eq_iff_eq]
  exact if_congr eq_comm rfl rfl

theorem Lists.none (h : Lists t R xs) {id : Nat} (hid : t[id]? = none) {x : Entry F}
    (hx : x ∈ xs) {b : β} (hb : R x b) :
    x.id ≠ id := by
  intro heq
  rw [(h id b).mpr ⟨x, hx, heq, hb⟩] at hid
  cases hid

theorem Lists.insert (h : Lists t R xs) {x : Entry F} {b : β}
    (hnew : ∀ y ∈ xs, y.id ≠ x.id) (hb : ∀ b', R x b' ↔ b' = b) :
    Lists (t.insert x.id b) R (xs ++ [x]) := by
  intro id b'
  rw [getElem?_insert_nat]
  by_cases hid : id = x.id
  · subst hid
    rw [if_pos rfl, Option.some.injEq]
    constructor
    · intro heq
      exact ⟨x, by simp, rfl, (hb b').mpr heq.symm⟩
    · rintro ⟨y, hy, hyid, hyb⟩
      rcases List.mem_append.mp hy with hy | hy
      · exact absurd hyid (hnew y hy)
      · rw [List.mem_singleton.mp hy] at hyb
        exact ((hb b').mp hyb).symm
  · rw [if_neg hid, h id b']
    constructor
    · rintro ⟨y, hy, hrest⟩
      exact ⟨y, List.mem_append_left _ hy, hrest⟩
    · rintro ⟨y, hy, hyid, hrest⟩
      rcases List.mem_append.mp hy with hy | hy
      · exact ⟨y, hy, hyid, hrest⟩
      · rw [List.mem_singleton.mp hy] at hyid
        exact absurd hyid.symm hid

theorem Lists.erase (h : Lists t R xs) (id : Nat) :
    Lists (t.erase id) R (xs.filter fun x => x.id ≠ id) := by
  intro j b
  rw [Std.ExtTreeMap.getElem?_erase]
  simp only [Std.LawfulEqCmp.compare_eq_iff_eq]
  by_cases hid : id = j
  · rw [if_pos hid]
    constructor
    · intro heq
      cases heq
    · rintro ⟨x, hx, hxid, _⟩
      have hne := of_decide_eq_true (List.mem_filter.mp hx).2
      exact absurd (hxid.trans hid.symm) hne
  · rw [if_neg hid, h j b]
    constructor
    · rintro ⟨x, hx, hxid, hb⟩
      refine ⟨x, List.mem_filter.mpr ⟨hx, decide_eq_true ?_⟩, hxid, hb⟩
      intro heq
      exact hid (heq.symm.trans hxid)
    · rintro ⟨x, hx, hrest⟩
      exact ⟨x, List.mem_of_mem_filter hx, hrest⟩

variable (id : Nat) (f : Meta F → Meta F) (x : Entry F)

@[simp] theorem Entry.amend_id : (x.amend id f).id = x.id := by
  rw [Entry.amend]
  split <;> rfl

@[simp] theorem Entry.amend_text : (x.amend id f).text = x.text := by
  rw [Entry.amend]
  split <;> rfl

@[simp] theorem Entry.amend_vec : (x.amend id f).vec = x.vec := by
  rw [Entry.amend]
  split <;> rfl

variable {id f x}

theorem Entry.amend_owner (hf : ∀ m, (f m).owner = m.owner) :
    (x.amend id f).meta_.owner = x.meta_.owner := by
  rw [Entry.amend]
  split
  · exact hf _
  · rfl

theorem Entry.amend_of_ne (h : x.id ≠ id) : x.amend id f = x := if_neg h

theorem Entry.amend_self (h : x.id = id) : x.amend id f = { x with meta_ := f x.meta_ } :=
  if_pos h

theorem map_amend_of_absent (h : ∀ x ∈ xs, x.id ≠ id) : xs.map (Entry.amend id f) = xs := by
  rw [List.map_congr_left fun x hx => Entry.amend_of_ne (f := f) (h x hx)]
  exact List.map_id' xs

/-- A table that the change does not concern. -/
theorem Lists.congr (h : Lists t R xs) (hR : ∀ x b, R (x.amend id f) b ↔ R x b) :
    Lists t R (xs.map (Entry.amend id f)) := by
  intro j b
  rw [h j b]
  constructor
  · rintro ⟨x, hx, hxid, hb⟩
    exact ⟨_, List.mem_map_of_mem hx, by rw [Entry.amend_id, hxid], (hR x b).mpr hb⟩
  · rintro ⟨y, hy, hyid, hb⟩
    obtain ⟨x, hx, rfl⟩ := List.mem_map.mp hy
    rw [Entry.amend_id] at hyid
    exact ⟨x, hx, hyid, (hR x b).mp hb⟩

/-- A table that the change rewrites. -/
theorem Lists.amend (h : Lists t R xs) (hnodup : (xs.map Entry.id).Nodup) (hx : x ∈ xs)
    {b : β} (hb : ∀ b', R (x.amend x.id f) b' ↔ b' = b) :
    Lists (t.insert x.id b) R (xs.map (Entry.amend x.id f)) := by
  intro j b'
  rw [getElem?_insert_nat]
  by_cases hj : j = x.id
  · subst hj
    rw [if_pos rfl, Option.some.injEq]
    constructor
    · intro heq
      exact ⟨_, List.mem_map_of_mem hx, Entry.amend_id .., (hb b').mpr heq.symm⟩
    · rintro ⟨y, hy, hyid, hyb⟩
      obtain ⟨z, hz, rfl⟩ := List.mem_map.mp hy
      rw [Entry.amend_id] at hyid
      rw [List.inj_on_of_nodup_map hnodup hz hx hyid] at hyb
      exact ((hb b').mp hyb).symm
  · rw [if_neg hj, h j b']
    constructor
    · rintro ⟨y, hy, hyid, hyb⟩
      have hne : y.id ≠ x.id := fun heq => hj (hyid.symm.trans heq)
      refine ⟨y, ?_, hyid, hyb⟩
      rw [← Entry.amend_of_ne (f := f) hne]
      exact List.mem_map_of_mem hy
    · rintro ⟨y, hy, hyid, hyb⟩
      obtain ⟨z, hz, rfl⟩ := List.mem_map.mp hy
      rw [Entry.amend_id] at hyid
      have hne : z.id ≠ x.id := fun heq => hj (hyid.symm.trans heq)
      rw [Entry.amend_of_ne hne] at hyb
      exact ⟨z, hz, hyid, hyb⟩

end Tables

section Index

variable {F : Type} [Field F] [LinearOrder F] (sqrt : F → F)

/-! ## The index in memory -/

omit [Field F] [LinearOrder F] in
/-- The index keeps the salience and the validity window of the meta data. -/
def Agrees (m : Meta F) (info : RecInfo F) : Prop :=
  info.sal = m.salience ∧ info.valid_from = m.valid_from ∧ info.valid_to = m.valid_to

omit [Field F] [LinearOrder F] in
/-- The facts that the index keeps of a record. -/
def Describes (owner_ids : String → Option Nat) (x : Entry F) (info : RecInfo F) : Prop :=
  owner_ids x.meta_.owner = some info.owner ∧ Agrees x.meta_ info

/-- The index describes exactly these records. -/
structure IndexHolds (d : Nat) (idx : RecIndex F) (xs : List (Entry F)) : Prop where
  inj : ∀ o o' i, idx.owner_ids o = some i → idx.owner_ids o' = some i → o = o'
  below : ∀ o i, idx.owner_ids o = some i → i < idx.owners.length
  fresh : ∀ i, idx.owners.length ≤ i → idx.arenas i = none
  recs : Lists idx.recs (Describes idx.owner_ids) xs
  arenas : ∀ o i, idx.owner_ids o = some i →
    ((idx.arenas i).getD (Arena.empty F)).Holds sqrt d
      (xs.filter fun x => x.meta_.owner = o)
  known : ∀ x ∈ xs, (idx.owner_ids x.meta_.owner).isSome

variable {sqrt} {d : Nat} {idx : RecIndex F} {xs : List (Entry F)}

theorem indexHolds_empty : IndexHolds sqrt d (RecIndex.empty F) [] where
  inj := by simp [RecIndex.empty]
  below := by simp [RecIndex.empty]
  fresh := by simp [RecIndex.empty]
  recs := by
    intro id b
    simp [RecIndex.empty]
  arenas := by simp [RecIndex.empty]
  known := by simp

/-- A record is described by one entry only. -/
theorem IndexHolds.described (h : IndexHolds sqrt d idx xs) {x : Entry F} (hx : x ∈ xs) :
    ∃ info, Describes idx.owner_ids x info := by
  obtain ⟨i, hi⟩ := Option.isSome_iff_exists.mp (h.known x hx)
  exact ⟨{ sal := x.meta_.salience, owner := i, valid_from := x.meta_.valid_from
           valid_to := x.meta_.valid_to }, hi, rfl, rfl, rfl⟩

theorem IndexHolds.absent (h : IndexHolds sqrt d idx xs) {id : Nat}
    (hid : idx.recs[id]? = none) {x : Entry F} (hx : x ∈ xs) :
    x.id ≠ id := by
  obtain ⟨info, hinfo⟩ := h.described hx
  exact h.recs.none hid hx hinfo

omit [Field F] [LinearOrder F] in
theorem Describes.eq {owner_ids : String → Option Nat} {x : Entry F} {info info' : RecInfo F}
    (h : Describes owner_ids x info) (h' : Describes owner_ids x info') :
    info' = info := by
  obtain ⟨ho, hs, hf, ht⟩ := h
  obtain ⟨ho', hs', hf', ht'⟩ := h'
  rw [ho, Option.some.injEq] at ho'
  cases info
  cases info'
  dsimp only at ho' hs hs' hf hf' ht ht'
  rw [hs, hs', hf, hf', ht, ht', ho']

/-- What interning an owner does. -/
theorem IndexHolds.intern (h : IndexHolds sqrt d idx xs) (owner : String) :
    (idx.intern owner).1.owner_ids owner = some (idx.intern owner).2 ∧
      IndexHolds sqrt d (idx.intern owner).1 xs := by
  rw [RecIndex.intern]
  cases ho : idx.owner_ids owner with
  | some i => exact ⟨ho, h⟩
  | none =>
      have hlt : ∀ o i, idx.owner_ids o = some i → i ≠ idx.owners.length :=
        fun o i hi => (h.below o i hi).ne
      have hold : ∀ x ∈ xs, Function.update idx.owner_ids owner (some idx.owners.length)
          x.meta_.owner = idx.owner_ids x.meta_.owner := by
        intro x hx
        refine Function.update_of_ne ?_ _ _
        intro heq
        have := h.known x hx
        rw [heq, ho] at this
        cases this
      refine ⟨Function.update_self .., ?_⟩
      refine
        { inj := ?_, below := ?_, fresh := ?_, recs := ?_, arenas := ?_, known := ?_ }
      · intro o o' i hi hi'
        by_cases hoo : o = owner
        · by_cases hoo' : o' = owner
          · rw [hoo, hoo']
          · simp only [hoo, Function.update_self, Option.some.injEq] at hi
            simp only [Function.update_of_ne hoo'] at hi'
            exact absurd hi.symm (hlt o' i hi')
        · simp only [Function.update_of_ne hoo] at hi
          by_cases hoo' : o' = owner
          · simp only [hoo', Function.update_self, Option.some.injEq] at hi'
            exact absurd hi'.symm (hlt o i hi)
          · simp only [Function.update_of_ne hoo'] at hi'
            exact h.inj o o' i hi hi'
      · intro o i hi
        simp only [List.length_append, List.length_singleton]
        by_cases hoo : o = owner
        · simp only [hoo, Function.update_self, Option.some.injEq] at hi
          omega
        · simp only [Function.update_of_ne hoo] at hi
          exact (h.below o i hi).trans (Nat.lt_succ_self _)
      · intro i hi
        simp only [List.length_append, List.length_singleton] at hi
        exact h.fresh i (by omega)
      · intro id info
        refine (h.recs id info).trans ⟨?_, ?_⟩
        · rintro ⟨x, hx, hid, howner, hrest⟩
          exact ⟨x, hx, hid, (hold x hx).trans howner, hrest⟩
        · rintro ⟨x, hx, hid, howner, hrest⟩
          exact ⟨x, hx, hid, (hold x hx).symm.trans howner, hrest⟩
      · intro o i hi
        by_cases hoo : o = owner
        · simp only [hoo, Function.update_self, Option.some.injEq] at hi
          have hnone : xs.filter (fun x => x.meta_.owner = owner) = [] := by
            rw [List.filter_eq_nil_iff]
            intro x hx heq
            have hknown := h.known x hx
            rw [of_decide_eq_true heq, ho] at hknown
            cases hknown
          rw [hoo, hnone, h.fresh i (by omega)]
          exact Arena.holds_empty
        · simp only [Function.update_of_ne hoo] at hi
          exact h.arenas o i hi
      · intro x hx
        show (Function.update idx.owner_ids owner (some idx.owners.length)
          x.meta_.owner).isSome = true
        rw [hold x hx]
        exact h.known x hx

theorem IndexHolds.insert (h : IndexHolds sqrt d idx xs) {x : Entry F}
    (hdim : x.vec.length = d) (hnew : ∀ y ∈ xs, y.id ≠ x.id) :
    IndexHolds sqrt d (idx.insert sqrt x.id x.meta_ x.vec) (xs ++ [x]) := by
  obtain ⟨hself, h₁⟩ := h.intern x.meta_.owner
  rw [RecIndex.insert]
  generalize idx.intern x.meta_.owner = r at hself h₁
  obtain ⟨idx₁, i⟩ := r
  dsimp only at hself h₁ ⊢
  refine { inj := h₁.inj, below := h₁.below, fresh := ?_, recs := ?_, arenas := ?_, known := ?_ }
  · intro j hj
    have := h₁.below _ _ hself
    dsimp only at hj ⊢
    rw [Function.update_of_ne (by omega)]
    exact h₁.fresh j hj
  · refine h₁.recs.insert hnew fun info => ⟨?_, ?_⟩
    · exact Describes.eq ⟨hself, rfl, rfl, rfl⟩
    · rintro rfl
      exact ⟨hself, rfl, rfl, rfl⟩
  · intro o j hj
    rw [List.filter_append]
    dsimp only at hj ⊢
    by_cases hji : j = i
    · subst hji
      have hoo : o = x.meta_.owner := h₁.inj _ _ _ hj hself
      rw [Function.update_self, hoo]
      have hx : [x].filter (fun y => y.meta_.owner = x.meta_.owner) = [x] := by simp
      rw [hx]
      refine (h₁.arenas _ _ hself).push hdim ?_
      intro y hy
      exact hnew y (List.mem_of_mem_filter hy)
    · have hoo : x.meta_.owner ≠ o := by
        intro heq
        rw [heq, hj] at hself
        exact hji (Option.some.inj hself)
      have hx : [x].filter (fun y => y.meta_.owner = o) = [] := by simp [hoo]
      rw [Function.update_of_ne hji, hx, List.append_nil]
      exact h₁.arenas o j hj
  · intro y hy
    rcases List.mem_append.mp hy with hy | hy
    · exact h₁.known y hy
    · rw [List.mem_singleton.mp hy]
      exact Option.isSome_iff_exists.mpr ⟨i, hself⟩

omit [Field F] [LinearOrder F] in
/-- What a removal does to the arenas. -/
theorem RecIndex.remove_some {id : Nat} {info : RecInfo F} (h : idx.recs[id]? = some info) :
    ∃ arenas, idx.remove id = { idx with recs := idx.recs.erase id, arenas := arenas } ∧
      (arenas info.owner).getD (Arena.empty F) =
        ((idx.arenas info.owner).getD (Arena.empty F)).remove id ∧
      ∀ j, j ≠ info.owner → arenas j = idx.arenas j := by
  rw [RecIndex.remove, h]
  dsimp only
  cases ha : idx.arenas info.owner with
  | none =>
      refine ⟨idx.arenas, rfl, ?_, fun _ _ => rfl⟩
      rw [ha]
      rfl
  | some a =>
      refine ⟨Function.update idx.arenas info.owner (some (a.remove id)), rfl, ?_, ?_⟩
      · rw [Function.update_self]
        rfl
      · intro j hj
        exact Function.update_of_ne hj _ _

theorem IndexHolds.remove (h : IndexHolds sqrt d idx xs) (hnodup : (xs.map Entry.id).Nodup)
    (id : Nat) :
    IndexHolds sqrt d (idx.remove id) (xs.filter fun x => x.id ≠ id) := by
  cases hid : idx.recs[id]? with
  | none =>
      have hall : xs.filter (fun x => x.id ≠ id) = xs := by
        rw [List.filter_eq_self]
        intro x hx
        exact decide_eq_true (h.absent hid hx)
      rw [RecIndex.remove, hid, hall]
      exact h
  | some info =>
      obtain ⟨x, hx, hxid, hown, _⟩ := (h.recs id info).mp hid
      have hsame : ∀ y ∈ xs, y.id = id → y = x := fun y hy hyid =>
        List.inj_on_of_nodup_map hnodup hy hx (hyid.trans hxid.symm)
      obtain ⟨arenas, heq, hself, hother⟩ := RecIndex.remove_some hid
      rw [heq]
      refine { inj := h.inj, below := h.below, fresh := ?_, recs := h.recs.erase id
               arenas := ?_, known := ?_ }
      · intro j hj
        have := h.below _ _ hown
        exact (hother j (by dsimp only at hj; omega)).trans (h.fresh j hj)
      · intro o j hj
        rw [List.filter_comm]
        dsimp only at hj ⊢
        by_cases hjo : j = info.owner
        · subst hjo
          rw [hself]
          exact (h.arenas o _ hj).remove (hnodup.sublist (List.filter_sublist.map _)) id
        · rw [hother j hjo, List.filter_eq_self.mpr]
          · exact h.arenas o j hj
          · intro y hy
            obtain ⟨hy, hyo⟩ := List.mem_filter.mp hy
            refine decide_eq_true fun hyid => hjo ?_
            rw [← of_decide_eq_true hyo, hsame y hy hyid, hown] at hj
            exact (Option.some.inj hj).symm
      · intro y hy
        exact h.known y (List.mem_of_mem_filter hy)

omit [LinearOrder F] in
theorem Arena.Holds.amend [LinearOrder F] {a : Arena F} (h : a.Holds sqrt d xs) (id : Nat)
    (f : Meta F → Meta F) :
    a.Holds sqrt d (xs.map (Entry.amend id f)) := by
  refine ⟨?_, h.pos, h.dim, h.dim_rows⟩
  rw [List.filter_map, List.map_map]
  have hcomp : ((fun x : Entry F => decide (x.vec ≠ [])) ∘ Entry.amend id f) =
      fun x => decide (x.vec ≠ []) := by
    funext x
    simp
  have hrow : ((fun x : Entry F => (x.id, normalize sqrt x.vec)) ∘ Entry.amend id f) =
      fun x => (x.id, normalize sqrt x.vec) := by
    funext x
    simp
  rw [hcomp, hrow]
  exact h.rows

theorem IndexHolds.update (h : IndexHolds sqrt d idx xs) (hnodup : (xs.map Entry.id).Nodup)
    (id : Nat) {f : Meta F → Meta F} {g : RecInfo F → RecInfo F}
    (hf : ∀ m, (f m).owner = m.owner) (hg : ∀ info, (g info).owner = info.owner)
    (hfg : ∀ m info, Agrees m info → Agrees (f m) (g info)) :
    IndexHolds sqrt d (idx.update id g) (xs.map (Entry.amend id f)) := by
  rw [RecIndex.update]
  cases hid : idx.recs[id]? with
  | none =>
      rw [map_amend_of_absent fun x hx => h.absent hid hx]
      exact h
  | some info =>
      obtain ⟨x, hx, rfl, hown, hagrees⟩ := (h.recs id info).mp hid
      have hdesc : Describes idx.owner_ids (x.amend x.id f) (g info) := by
        rw [Entry.amend_self rfl]
        refine ⟨?_, hfg _ _ hagrees⟩
        rw [hg]
        exact (congrArg idx.owner_ids (hf x.meta_)).trans hown
      refine { inj := h.inj, below := h.below, fresh := h.fresh, recs := ?_
               arenas := ?_, known := ?_ }
      · refine h.recs.amend hnodup hx fun info' => ⟨hdesc.eq, ?_⟩
        rintro rfl
        exact hdesc
      · intro o j hj
        rw [List.filter_map]
        have hcomp : ((fun y : Entry F => decide (y.meta_.owner = o)) ∘ Entry.amend x.id f) =
            fun y => decide (y.meta_.owner = o) := by
          funext y
          simp [Entry.amend_owner hf]
        rw [hcomp]
        exact (h.arenas o j hj).amend _ _
      · intro y hy
        obtain ⟨z, hz, rfl⟩ := List.mem_map.mp hy
        rw [Entry.amend_owner hf]
        exact h.known z hz

end Index
end Recall
end StrikeDB
