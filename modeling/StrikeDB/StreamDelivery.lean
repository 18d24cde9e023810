import StrikeDB.StreamGroups

/-!
# StrikeDB: what consumer groups deliver

The history of a group is a list of events (`Ev`), taken from the commands and
what they answered: entries read and claimed, IDs acknowledged, pending IDs whose
entry was gone, consumers removed, the group placed anew or destroyed.  From it
follow the IDs that were read since the group was last placed (`sinceSet`) and
who owes an acknowledgement of an ID (`owner`).

`GroupInv` ties both to what is stored of a group; `KeyInv` does it for all
groups of a key.
-/

namespace StrikeDB
namespace Stream

open OrderedMap

/-! ## The history of a group -/

inductive Ev where
  | delivered (c : Bytes) (id : Id) (noack : Bool)
  | claimed (c : Bytes) (id : Id)
  | acked (id : Id)
  | gone (id : Id)
  | left (c : Bytes)
  | placed
  | destroyed
deriving DecidableEq

/-- The IDs read since the group was last created or placed by SETID. -/
def sinceSet (log : List Ev) : List Id :=
  log.foldl (fun ids ev =>
    match ev with
    | .delivered _ id _ => ids ++ [id]
    | .placed => []
    | _ => ids) []

/-- Who owes an acknowledgement of `id` after an event. -/
def ownerStep (id : Id) (owner : Option Bytes) : Ev → Option Bytes
  | .delivered c id' noack => if id' = id ∧ noack = false then some c else owner
  | .claimed c id' => if id' = id then some c else owner
  | .acked id' => if id' = id then none else owner
  | .gone id' => if id' = id then none else owner
  | .left c => if owner = some c then none else owner
  | .placed => owner
  | .destroyed => none

/-- Who owes an acknowledgement of `id`: the consumer it was last delivered to or
claimed by, unless it was acknowledged or dropped since. -/
def owner (log : List Ev) (id : Id) : Option Bytes := log.foldl (ownerStep id) none

theorem sinceSet_concat (log : List Ev) (ev : Ev) :
    sinceSet (log ++ [ev]) =
      match ev with
      | .delivered _ id _ => sinceSet log ++ [id]
      | .placed => []
      | _ => sinceSet log := by
  rw [sinceSet, List.foldl_append]
  rfl

theorem owner_concat (log : List Ev) (ev : Ev) (id : Id) :
    owner (log ++ [ev]) id = ownerStep id (owner log id) ev := by
  rw [owner, List.foldl_append]
  rfl

/-- Events other than reads and placements. -/
def Ev.quiet : Ev → Bool
  | .delivered .. => false
  | .placed => false
  | _ => true

theorem sinceSet_append_of_quiet
    {log evs : List Ev} (hquiet : ∀ ev ∈ evs, ev.quiet) :
    sinceSet (log ++ evs) = sinceSet log := by
  induction evs generalizing log with
  | nil => rw [List.append_nil]
  | cons ev evs ih =>
      rw [List.forall_mem_cons] at hquiet
      obtain ⟨hev, hquiet⟩ := hquiet
      rw [List.append_cons, ih hquiet, sinceSet_concat]
      cases ev with
      | delivered c id noack => cases hev
      | placed => cases hev
      | claimed | acked | gone | left | destroyed => rfl

theorem sinceSet_append_delivered (log : List Ev) (c : Bytes) (noack : Bool) (ids : List Id) :
    sinceSet (log ++ ids.map (.delivered c · noack)) = sinceSet log ++ ids := by
  induction ids generalizing log with
  | nil => simp
  | cons id ids ih => rw [List.map_cons, List.append_cons, ih, sinceSet_concat, ← List.append_cons]

/-- A batch of events that each settle one ID the same way. -/
theorem owner_append_map
    {ev : Id → Ev} {o : Option Bytes} {id : Id}
    (hev : ∀ (owner : Option Bytes) (id' : Id),
      ownerStep id owner (ev id') = if id' = id then o else owner)
    (log : List Ev) (ids : List Id) :
    owner (log ++ ids.map ev) id = if id ∈ ids then o else owner log id := by
  induction ids generalizing log with
  | nil => simp
  | cons id' ids ih =>
      rw [List.map_cons, List.append_cons, ih, owner_concat, hev]
      by_cases hmem : id ∈ ids
      · simp [hmem]
      · by_cases heq : id' = id
        · simp [heq]
        · have hne : id ≠ id' := fun h => heq h.symm
          simp [hmem, heq, hne]

theorem owner_append_delivered (log : List Ev) (c : Bytes) (noack : Bool) (ids : List Id)
    (id : Id) :
    owner (log ++ ids.map (.delivered c · noack)) id =
      if id ∈ ids ∧ noack = false then some c else owner log id := by
  cases noack with
  | false =>
      have hstep : ∀ (o : Option Bytes) (id' : Id),
          ownerStep id o (.delivered c id' false) = if id' = id then some c else o := by
        simp [ownerStep]
      simpa using owner_append_map hstep log ids
  | true =>
      have hquiet : ∀ log, owner (log ++ ids.map (.delivered c · true)) id = owner log id := by
        intro log
        induction ids generalizing log with
        | nil => simp
        | cons id' ids ih =>
            rw [List.map_cons, List.append_cons, ih, owner_concat, ownerStep, if_neg (by simp)]
      simpa using hquiet log

theorem owner_append_acked (log : List Ev) (ids : List Id) (id : Id) :
    owner (log ++ ids.map .acked) id = if id ∈ ids then none else owner log id :=
  owner_append_map (fun _ _ => rfl) log ids

theorem owner_append_gone (log : List Ev) (ids : List Id) (id : Id) :
    owner (log ++ ids.map .gone) id = if id ∈ ids then none else owner log id :=
  owner_append_map (fun _ _ => rfl) log ids

theorem owner_append_claimed (log : List Ev) (c : Bytes) (ids : List Id) (id : Id) :
    owner (log ++ ids.map (.claimed c)) id = if id ∈ ids then some c else owner log id :=
  owner_append_map (fun _ _ => rfl) log ids

/-! ## The history of a group and what is stored -/

/-- Whether nothing is amiss with the ID: `XGROUP DESTROY` leaves pending IDs
that are behind the end of the range it deletes. -/
def Sound (log : List Ev) (id : Id) : Prop := inPrefixRange id ∨ Ev.destroyed ∉ log

theorem sound_of_append {log evs : List Ev} {id : Id} (h : Sound (log ++ evs) id) :
    Sound log id := by
  rcases h with hin | hnot
  · exact Or.inl hin
  · rw [List.mem_append, not_or] at hnot
    exact Or.inr hnot.1

/-- The consumer that a pending entry is stored for. -/
def ownerOf (pels : Std.ExtTreeMap Id Pel) (id : Id) : Option Bytes := (pels[id]?).map Pel.owner

/-- What is stored of a group agrees with its history. -/
structure GroupInv (gr : Option Group) (pels : Std.ExtTreeMap Id Pel)
    (cons : Std.ExtTreeMap Bytes Con) (log : List Ev) : Prop where
  increasing : (sinceSet log).Pairwise (· < ·)
  le_last : ∀ g, gr = some g → ∀ id ∈ sinceSet log, id ≤ g.last
  owned : ∀ id, Sound log id → ownerOf pels id = owner log id
  consumer : ∀ id c, Sound log id → owner log id = some c → c ∈ cons

namespace GroupInv

variable {gr gr' : Option Group} {pels pels' : Std.ExtTreeMap Id Pel}
variable {cons cons' : Std.ExtTreeMap Bytes Con} {log evs : List Ev}

theorem empty : GroupInv none ∅ ∅ [] where
  increasing := List.Pairwise.nil
  le_last := by simp
  owned := by simp [owner, ownerOf]
  consumer := by simp [owner]

/-- Events that are no reads: the last delivered ID stays or moves up. -/
theorem quiet
    (h : GroupInv gr pels cons log)
    (hquiet : ∀ ev ∈ evs, ev.quiet)
    (hlast : ∀ g', gr' = some g' → ∃ g, gr = some g ∧ g.last ≤ g'.last)
    (howned : ∀ id, Sound (log ++ evs) id → ownerOf pels' id = owner (log ++ evs) id)
    (hcons : ∀ id c, Sound (log ++ evs) id → owner (log ++ evs) id = some c → c ∈ cons') :
    GroupInv gr' pels' cons' (log ++ evs) where
  increasing := by
    rw [sinceSet_append_of_quiet hquiet]
    exact h.increasing
  le_last := by
    intro g' hg' id hid
    rw [sinceSet_append_of_quiet hquiet] at hid
    obtain ⟨g, hg, hle⟩ := hlast g' hg'
    exact (h.le_last g hg id hid).trans hle
  owned := howned
  consumer := hcons

/-- Nothing happened but that consumers came. -/
theorem more
    (h : GroupInv gr pels cons log) (hcons : ∀ c ∈ cons, c ∈ cons') :
    GroupInv gr pels cons' log where
  increasing := h.increasing
  le_last := h.le_last
  owned := h.owned
  consumer := fun id c hsound howner => hcons c (h.consumer id c hsound howner)

/-- New entries are read by a consumer. -/
theorem delivered
    {g g' : Group} {c : Bytes} {noack : Bool} {ids : List Id}
    (h : GroupInv (some g) pels cons log)
    (hids : ids.Pairwise (· < ·)) (hlast : ∀ id ∈ ids, g.last < id)
    (hlast' : ∀ id ∈ ids, id ≤ g'.last) (hup : g.last ≤ g'.last)
    (howned : ∀ id, ownerOf pels' id =
      if id ∈ ids ∧ noack = false then some c else ownerOf pels id)
    (hc : c ∈ cons) :
    GroupInv (some g') pels' cons (log ++ ids.map (.delivered c · noack)) where
  increasing := by
    rw [sinceSet_append_delivered, List.pairwise_append]
    refine ⟨h.increasing, hids, ?_⟩
    intro a ha b hb
    exact (h.le_last g rfl a ha).trans_lt (hlast b hb)
  le_last := by
    intro g'' hg'' id hid
    cases hg''
    rw [sinceSet_append_delivered, List.mem_append] at hid
    rcases hid with hold | hnew
    · exact (h.le_last g rfl id hold).trans hup
    · exact hlast' id hnew
  owned := by
    intro id hsound
    rw [howned, owner_append_delivered, h.owned id (sound_of_append hsound)]
  consumer := by
    intro id c' hsound howner
    rw [owner_append_delivered] at howner
    split at howner
    · cases howner
      exact hc
    · exact h.consumer id c' (sound_of_append hsound) howner

/-- The group is created, or placed by SETID. -/
theorem placed (h : GroupInv gr pels cons log) : GroupInv gr' pels cons (log ++ [.placed]) where
  increasing := by
    rw [sinceSet_concat]
    exact List.Pairwise.nil
  le_last := by
    intro g' _ id hid
    rw [sinceSet_concat] at hid
    cases hid
  owned := by
    intro id hsound
    rw [owner_concat]
    exact h.owned id (sound_of_append hsound)
  consumer := by
    intro id c hsound howner
    rw [owner_concat] at howner
    exact h.consumer id c (sound_of_append hsound) howner

/-- The group is destroyed with the pending entries that `delete_prefix` finds. -/
theorem destroyed
    (h : GroupInv gr pels cons log)
    (herased : ∀ id, inPrefixRange id → ownerOf pels' id = none) :
    GroupInv none pels' cons' (log ++ [.destroyed]) := by
  have hin : ∀ id, Sound (log ++ [.destroyed]) id → inPrefixRange id := by
    intro id hsound
    rcases hsound with hin | hnot
    · exact hin
    · simp at hnot
  refine h.quiet (by simp [Ev.quiet]) (by simp) ?_ ?_
  · intro id hsound
    rw [herased id (hin id hsound), owner_concat]
    rfl
  · intro id c _ howner
    rw [owner_concat] at howner
    cases howner

/-- A consumer is removed with its pending entries. -/
theorem left
    {c : Bytes} (h : GroupInv gr pels cons log)
    (herased : ∀ id, ownerOf pels' id = if ownerOf pels id = some c then none else ownerOf pels id)
    (hcons : ∀ c' ∈ cons, c' ≠ c → c' ∈ cons') :
    GroupInv gr pels' cons' (log ++ [.left c]) := by
  refine h.quiet (by simp [Ev.quiet]) ?_ ?_ ?_
  · intro g hg
    exact ⟨g, hg, le_refl _⟩
  · intro id hsound
    rw [herased, owner_concat, h.owned id (sound_of_append hsound)]
    rfl
  · intro id c' hsound howner
    rw [owner_concat, ownerStep] at howner
    split at howner
    · cases howner
    · next hne =>
        refine hcons c' (h.consumer id c' (sound_of_append hsound) howner) ?_
        rintro rfl
        exact hne howner

end GroupInv

/-! ## Changes of the pending entries of a group -/

namespace KeyData

def setPels (d : KeyData) (g : Bytes) (m : Std.ExtTreeMap Id Pel) : KeyData :=
  { d with pels := Function.update d.pels g m }

@[simp] theorem setPels_pels (d : KeyData) (g : Bytes) (m : Std.ExtTreeMap Id Pel) :
    (d.setPels g m).pels g = m := Function.update_self ..

@[simp] theorem setPels_setPels (d : KeyData) (g : Bytes) (m m' : Std.ExtTreeMap Id Pel) :
    (d.setPels g m).setPels g m' = d.setPels g m' := by
  simp [setPels]

@[simp] theorem setPels_self (d : KeyData) (g : Bytes) : d.setPels g (d.pels g) = d := by
  simp [setPels]

@[simp] theorem setPels_entries (d : KeyData) (g : Bytes) (m : Std.ExtTreeMap Id Pel) :
    (d.setPels g m).entries = d.entries := rfl

theorem putPel_eq (d : KeyData) (g : Bytes) (id : Id) (p : Pel) :
    d.putPel g id p = d.setPels g ((d.pels g).insert id p) := rfl

theorem delPel_eq (d : KeyData) (g : Bytes) (id : Id) :
    d.delPel g id = d.setPels g ((d.pels g).erase id) := rfl

end KeyData

theorem ownerOf_insert (m : Std.ExtTreeMap Id Pel) (id a : Id) (p : Pel) :
    ownerOf (m.insert id p) a = if a = id then some p.owner else ownerOf m a := by
  simp only [ownerOf, getElem?_insert']
  split <;> rfl

theorem ownerOf_erase (m : Std.ExtTreeMap Id Pel) (id a : Id) :
    ownerOf (m.erase id) a = if a = id then none else ownerOf m a := by
  simp only [ownerOf, getElem?_erase']
  split <;> rfl

theorem ownerOf_eraseAll (m : Std.ExtTreeMap Id Pel) (ids : List Id) (a : Id) :
    ownerOf (eraseAll m ids) a = if a ∈ ids then none else ownerOf m a := by
  simp only [ownerOf, getElem?_eraseAll]
  split <;> rfl

/-- Pending entries of one consumer are stored one after the other. -/
theorem putPel_foldl
    {α : Type} (g o : Bytes) (key : α → Id) (val : α → Pel) (es : List α)
    (howner : ∀ e ∈ es, (val e).owner = o) (d : KeyData) :
    ∃ m, es.foldl (fun d e => d.putPel g (key e) (val e)) d = d.setPels g m ∧
      ∀ a, ownerOf m a = if a ∈ es.map key then some o else ownerOf (d.pels g) a := by
  induction es generalizing d with
  | nil =>
      refine ⟨d.pels g, ?_, ?_⟩
      · simp
      · simp
  | cons e es ih =>
      rw [List.forall_mem_cons] at howner
      obtain ⟨he, howner⟩ := howner
      obtain ⟨m, hm, hmap⟩ := ih howner (d.putPel g (key e) (val e))
      rw [KeyData.putPel_eq, KeyData.setPels_pels] at hmap
      refine ⟨m, ?_, ?_⟩
      · rw [List.foldl_cons, hm, KeyData.putPel_eq, KeyData.setPels_setPels]
      · intro a
        rw [hmap, ownerOf_insert, he, List.map_cons]
        by_cases ha : a = key e
        · simp [ha]
        · simp [ha]

theorem delPel_foldl (g : Bytes) (ids : List Id) (d : KeyData) :
    ids.foldl (fun d id => d.delPel g id) d = d.setPels g (eraseAll (d.pels g) ids) := by
  induction ids generalizing d with
  | nil => simp
  | cons id ids ih =>
      rw [List.foldl_cons, ih, KeyData.delPel_eq, KeyData.setPels_pels, KeyData.setPels_setPels,
        eraseAll_cons]

/-! ## All groups of a key -/

/-- What is stored of the groups of a key agrees with their histories. -/
def KeyInv (d : KeyData) (log : Bytes → List Ev) : Prop :=
  ∀ g, GroupInv d.groups[g]? (d.pels g) (d.cons g) (log g)

/-- Events of one group. -/
def only (g : Bytes) (evs : List Ev) (g' : Bytes) : List Ev := if g' = g then evs else []

/-- The other groups of the key are untouched. -/
structure SameElse (g : Bytes) (d d' : KeyData) : Prop where
  groups : ∀ g' ≠ g, d'.groups[g']? = d.groups[g']?
  pels : ∀ g' ≠ g, d'.pels g' = d.pels g'
  cons : ∀ g' ≠ g, d'.cons g' = d.cons g'

namespace SameElse

variable {g : Bytes} {d d' d'' : KeyData}

theorem refl : SameElse g d d where
  groups := fun _ _ => rfl
  pels := fun _ _ => rfl
  cons := fun _ _ => rfl

theorem save_group (h : SameElse g d d') (gr : Group) : SameElse g d (d'.save_group g gr) where
  groups := by
    intro g' hne
    have hget : (d'.groups.insert g gr)[g']? = d'.groups[g']? := by
      rw [Std.ExtTreeMap.getElem?_insert, if_neg]
      intro heq
      exact hne (Std.LawfulEqCmp.eq_of_compare heq).symm
    exact hget.trans (h.groups g' hne)
  pels := h.pels
  cons := h.cons

theorem setPels (h : SameElse g d d') (m : Std.ExtTreeMap Id Pel) :
    SameElse g d (d'.setPels g m) where
  groups := h.groups
  pels := by
    intro g' hne
    exact (Function.update_of_ne hne _ _).trans (h.pels g' hne)
  cons := h.cons

theorem save_con (h : SameElse g d d') (c : Bytes) (con : Con) :
    SameElse g d (d'.save_con g c con) where
  groups := h.groups
  pels := h.pels
  cons := by
    intro g' hne
    exact (Function.update_of_ne hne _ _).trans (h.cons g' hne)

theorem save (h : SameElse g d d') (s : Header) : SameElse g d (save d' s) where
  groups := h.groups
  pels := h.pels
  cons := h.cons

end SameElse

theorem KeyInv.update
    {d d' : KeyData} {log : Bytes → List Ev} (h : KeyInv d log) {g : Bytes} {evs : List Ev}
    (hsame : SameElse g d d')
    (hg : GroupInv d'.groups[g]? (d'.pels g) (d'.cons g) (log g ++ evs)) :
    KeyInv d' fun g' => log g' ++ only g evs g' := by
  intro g'
  by_cases hne : g' = g
  · subst hne
    simp only [only, if_pos]
    exact hg
  · simp only [only, if_neg hne, List.append_nil]
    rw [hsame.groups g' hne, hsame.pels g' hne, hsame.cons g' hne]
    exact h g'

end Stream
end StrikeDB
