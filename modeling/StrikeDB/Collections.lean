import StrikeDB.ListSpecs

/-!
# StrikeDB: collections as families of elements

A collection is a header with the number of its elements and, for each element family
of its type, the values under the rests of the element keys.  What is stored under a
user key is read as these functions.

**Results.**
* `wp_coll`: what loading a collection finds; one whose deadline has passed is gone.
* `wp_put_meta`: the header is stored, or the key goes with its last element.
* `wp_put_elem`, `wp_delete_elem`: one element changes.
* `wp_enumerate`: a scan of a family returns its elements in order.
-/

namespace StrikeDB
namespace Coll

open Ctx
open Lists (dead Deadline Later kv_ne_expk kv_injective)

/-! ## Keys -/

/-- An element key of a collection of type `ty`. -/
def Elem (ty : UInt8) (key : Bytes) (k : Key) : Prop := ∃ sub ∈ type_subs ty, ebase key sub <+: k

instance (ty : UInt8) (key : Bytes) (k : Key) : Decidable (Elem ty key k) :=
  inferInstanceAs (Decidable (∃ sub ∈ type_subs ty, ebase key sub <+: k))

/-- The keys that a collection may use. -/
def Owns (ty : UInt8) (key : Bytes) (k : Key) : Prop := k = kv key ∨ k = expk key ∨ Elem ty key k

theorem sub_ne {ty sub : UInt8} (h : sub ∈ type_subs ty) : sub ≠ 0xFF := by
  rintro rfl
  revert h
  unfold type_subs
  split_ifs <;> decide

theorem nodup_type_subs (ty : UInt8) : (type_subs ty).Nodup := by
  unfold type_subs
  split_ifs <;> decide

theorem not_elem_kv (ty : UInt8) (key key' : Bytes) : ¬ Elem ty key (kv key') := by
  rintro ⟨sub, _, h⟩
  rw [Elements.ebase_eq] at h
  simp [Elements.tagged, kv, kvPrefix] at h

theorem not_elem_expk (ty : UInt8) (key key' : Bytes) : ¬ Elem ty key (expk key') := by
  rintro ⟨sub, _, h⟩
  rw [Elements.ebase_eq] at h
  simp [Elements.tagged, expk] at h

theorem elem_ekey {ty sub : UInt8} (hsub : sub ∈ type_subs ty) (key rest : Bytes) :
    Elem ty key (Elements.ekey key sub rest) := ⟨sub, hsub, rest, rfl⟩

/-- Two user keys have nothing in common. -/
theorem not_owns_of_ne {ty : UInt8} {key key' : Bytes} (hne : key' ≠ key) {k : Key}
    (h : Owns ty key' k) : ¬ Owns ty key k := by
  rintro (rfl | rfl | hk)
  · rcases h with h | h | h
    · exact hne (kv_injective h).symm
    · exact kv_ne_expk _ _ h
    · exact not_elem_kv ty _ _ h
  · rcases h with h | h | h
    · exact kv_ne_expk _ _ h.symm
    · exact hne (expk_injective h).symm
    · exact not_elem_expk ty _ _ h
  · rcases h with rfl | rfl | ⟨sub', _, h⟩
    · exact not_elem_kv ty _ _ hk
    · exact not_elem_expk ty _ _ hk
    · obtain ⟨sub, _, hk⟩ := hk
      exact hne (Elements.family_disjoint h hk).1

section Changes

variable {ty : UInt8} {key : Bytes} {v v' v'' : View}

/-- Nothing but the keys of one collection has changed. -/
def SameElse (ty : UInt8) (key : Bytes) (v v' : View) : Prop := ∀ k, ¬ Owns ty key k → v' k = v k

/-- Nothing but elements of one collection has changed. -/
def OnlyElems (ty : UInt8) (key : Bytes) (v v' : View) : Prop := ∀ k, ¬ Elem ty key k → v' k = v k

theorem SameElse.refl (ty : UInt8) (key : Bytes) (v : View) : SameElse ty key v v := fun _ _ => rfl

theorem SameElse.trans (h : SameElse ty key v v') (h' : SameElse ty key v' v'') :
    SameElse ty key v v'' := fun k hk => (h' k hk).trans (h k hk)

theorem OnlyElems.refl (ty : UInt8) (key : Bytes) (v : View) : OnlyElems ty key v v :=
  fun _ _ => rfl

theorem OnlyElems.trans (h : OnlyElems ty key v v') (h' : OnlyElems ty key v' v'') :
    OnlyElems ty key v v'' := fun k hk => (h' k hk).trans (h k hk)

theorem OnlyElems.sameElse (h : OnlyElems ty key v v') : SameElse ty key v v' :=
  fun k hk => h k fun hfam => hk (.inr (.inr hfam))

theorem OnlyElems.kv (h : OnlyElems ty key v v') : v' (kv key) = v (StrikeDB.kv key) :=
  h _ (not_elem_kv ty key key)

theorem OnlyElems.expk (h : OnlyElems ty key v v') : v' (expk key) = v (StrikeDB.expk key) :=
  h _ (not_elem_expk ty key key)

end Changes

/-! ## Families -/

/-- The values of a collection by family and by the rests of their keys. -/
abbrev Fams := UInt8 → Bytes → Option Value

def Fams.none : Fams := fun _ _ => Option.none

/-- One element is stored or deleted. -/
def Fams.set (fams : Fams) (sub : UInt8) (rest : Bytes) (x : Option Value) : Fams :=
  Function.update fams sub (Function.update (fams sub) rest x)

section Families

variable {ty sub : UInt8} {key : Bytes} {v v' : View} {fams : Fams}

theorem Fams.set_self (fams : Fams) (sub : UInt8) (rest : Bytes) (x : Option Value) :
    fams.set sub rest x sub = Function.update (fams sub) rest x := Function.update_self ..

theorem Fams.set_of_ne {sub' : UInt8} (h : sub' ≠ sub) (fams : Fams) (rest : Bytes)
    (x : Option Value) : fams.set sub rest x sub' = fams sub' := Function.update_of_ne h ..

/-- The elements under a user key. -/
def Elems (ty : UInt8) (v : View) (key : Bytes) (fams : Fams) : Prop :=
  ∀ sub ∈ type_subs ty, ∀ rest, v (Elements.ekey key sub rest) = fams sub rest

theorem Elems.only (h : Elems ty v key fams) (hsame : ∀ k, Elem ty key k → v' k = v k) :
    Elems ty v' key fams :=
  fun sub hsub rest => (hsame _ (elem_ekey hsub key rest)).trans (h sub hsub rest)

theorem Elems.congr {fams' : Fams} (h : Elems ty v key fams)
    (hf : ∀ sub ∈ type_subs ty, fams sub = fams' sub) : Elems ty v key fams' := by
  intro sub hsub rest
  rw [h sub hsub rest, hf sub hsub]

theorem Elems.set (h : Elems ty v key fams) (hsub : sub ∈ type_subs ty) (rest : Bytes)
    (x : Option Value) :
    Elems ty (v.set (Elements.ekey key sub rest) x) key (fams.set sub rest x) ∧
      OnlyElems ty key v (v.set (Elements.ekey key sub rest) x) := by
  constructor
  · intro sub' hsub' rest'
    by_cases heq : sub' = sub
    · subst heq
      rw [Fams.set_self]
      by_cases hrest : rest' = rest
      · subst hrest
        rw [View.set_self, Function.update_self]
      · rw [View.set_of_ne fun hk => hrest (Elements.ekey_injective hk),
          Function.update_of_ne hrest]
        exact h sub' hsub' rest'
    · rw [Fams.set_of_ne heq, View.set_of_ne]
      · exact h sub' hsub' rest'
      · intro hk
        have hin : ebase key sub' <+: Elements.ekey key sub rest := ⟨rest', hk⟩
        exact heq (Elements.family_disjoint hin ⟨rest, rfl⟩).2
  · intro k hk
    refine View.set_of_ne ?_ v x
    rintro rfl
    exact hk (elem_ekey hsub key rest)

/-- The elements of a family in the order of their keys. -/
structure Enum (f : Bytes → Option Value) (l : List (Bytes × Value)) : Prop where
  sorted : KeySorted l
  mem : ∀ e, e ∈ l ↔ f e.1 = some e.2

theorem enum_toList (m : ValueMap) : Enum (fun r => m[r]?) m.toList where
  sorted := keySorted_toList m
  mem := fun _ => Std.ExtTreeMap.mem_toList_iff_getElem?_eq_some

/-- A family that lies within a list of keys can be listed. -/
theorem exists_enum {f : Bytes → Option Value} {ks : List Bytes} (h : ∀ r, f r ≠ none → r ∈ ks) :
    ∃ l, Enum f l ∧ l.length ≤ ks.length := by
  have hmap : ∃ m : ValueMap, (∀ r, m[r]? = f r) ∧ m.size ≤ ks.length := by
    induction ks generalizing f with
    | nil =>
        refine ⟨∅, fun r => ?_, by simp⟩
        by_contra hne
        refine absurd (h r fun hnone => hne ?_) List.not_mem_nil
        rw [hnone, Std.ExtTreeMap.getElem?_empty]
    | cons k ks ih =>
        obtain ⟨m, hm, hsize⟩ := ih (f := Function.update f k none) (by
          intro r hr
          by_cases hrk : r = k
          · rw [hrk, Function.update_self] at hr
            exact absurd rfl hr
          · rw [Function.update_of_ne hrk] at hr
            exact (List.mem_cons.mp (h r hr)).resolve_left hrk)
        cases hk : f k with
        | none =>
            refine ⟨m, fun r => ?_, hsize.trans (Nat.le_succ _)⟩
            rw [hm r, ← hk, Function.update_eq_self]
        | some x =>
            refine ⟨m.insert k x, fun r => ?_, ?_⟩
            · rw [FlushCore.map_getElem?_insert]
              by_cases hrk : k = r
              · rw [if_pos hrk, ← hrk, hk]
              · rw [if_neg hrk, hm r, Function.update_of_ne (Ne.symm hrk)]
            · rw [Std.ExtTreeMap.size_insert, List.length_cons]
              split <;> omega
  obtain ⟨m, hm, hsize⟩ := hmap
  obtain rfl : (fun r => m[r]?) = f := funext hm
  exact ⟨m.toList, enum_toList m, by rwa [Std.ExtTreeMap.length_toList]⟩

/-- One scan lists a family. -/
theorem Elems.listed (h : Elems ty v key fams) (hsub : sub ∈ type_subs ty)
    {l : List (Bytes × Value)} (hl : Enum (fams sub) l) (hshort : l.length ≤ usize_max) :
    Listed v key sub (l.map fun e => (Elements.ekey key sub e.1, e.2)) where
  lists := by
    constructor
    · unfold KeySorted
      rw [List.pairwise_map]
      refine hl.sorted.imp fun {a b} hlt => ?_
      unfold KeyLt at hlt ⊢
      rw [Elements.compare_ekey]
      exact hlt
    · intro e
      rw [Elements.inRange_erange (sub_ne hsub), List.mem_map]
      constructor
      · rintro ⟨e, he, rfl⟩
        exact ⟨⟨e.1, rfl⟩, (h sub hsub e.1).trans ((hl.mem e).mp he)⟩
      · rintro ⟨⟨rest, hrest⟩, hval⟩
        have hrest : Elements.ekey key sub rest = e.1 := hrest
        rw [← hrest, h sub hsub rest] at hval
        exact ⟨(rest, e.2), (hl.mem _).mpr hval, Prod.ext hrest rfl⟩
  short := by
    rw [List.length_map]
    exact hshort

end Families

/-! ## Collections -/

/-- The header of a collection of some length; lists alone use positions. -/
structure IsMeta (ty : UInt8) (len : Nat) (m : Meta) : Prop where
  type_eq : m.ty = ty
  len_eq : m.len = len
  head_eq : m.head = 0
  tail_eq : m.tail = 0

theorem isMeta_new (ty : UInt8) : IsMeta ty 0 (Meta.new ty) where
  type_eq := rfl
  len_eq := rfl
  head_eq := rfl
  tail_eq := rfl

/-- A collection is stored under a user key. -/
structure CollAt (ty : UInt8) (v : View) (key : Bytes) (len : Nat) (fams : Fams) : Prop where
  absent : len = 0 → v (kv key) = none ∧ v (expk key) = none
  header : len ≠ 0 → ∃ b m, v (kv key) = some (.metaBytes b) ∧ Meta.decode b = some m ∧
    IsMeta ty len m
  elements : Elems ty v key fams
  bounded : ∀ sub ∈ type_subs ty, ∃ ks : List Bytes, ks.length ≤ len ∧
    ∀ rest, fams sub rest ≠ none → rest ∈ ks
  deadline : Deadline v key

section Stored

variable {γ : Type} {Q : Except Resp γ → View → Prop} {cx : Ctx} {ty sub : UInt8} {key : Bytes}
  {v v' : View} {len : Nat} {fams : Fams}

theorem CollAt.congr (h : CollAt ty v key len fams) (hsame : ∀ k, Owns ty key k → v' k = v k) :
    CollAt ty v' key len fams where
  absent := by
    intro hzero
    rw [hsame _ (.inl rfl), hsame _ (.inr (.inl rfl))]
    exact h.absent hzero
  header := by
    intro hne
    rw [hsame _ (.inl rfl)]
    exact h.header hne
  elements := h.elements.only fun k hk => hsame k (.inr (.inr hk))
  bounded := h.bounded
  deadline := by
    unfold Deadline
    rw [hsame _ (.inr (.inl rfl))]
    exact h.deadline

/-- Nothing is stored. -/
theorem collAt_none (h : ∀ k, Owns ty key k → v k = none) : CollAt ty v key 0 Fams.none where
  absent := fun _ => ⟨h _ (.inl rfl), h _ (.inr (.inl rfl))⟩
  header := fun hne => absurd rfl hne
  elements := fun _ hsub rest => h _ (.inr (.inr (elem_ekey hsub key rest)))
  bounded := fun _ _ => ⟨[], le_rfl, fun _ hrest => absurd rfl hrest⟩
  deadline := .inl (h _ (.inr (.inl rfl)))

theorem CollAt.fams_none (h : CollAt ty v key 0 fams) (hsub : sub ∈ type_subs ty) (rest : Bytes) :
    fams sub rest = none := by
  obtain ⟨ks, hlen, hks⟩ := h.bounded sub hsub
  by_contra hne
  rw [List.length_eq_zero_iff.mp (Nat.le_zero.mp hlen)] at hks
  exact absurd (hks rest hne) List.not_mem_nil

theorem CollAt.nothing (h : CollAt ty v key 0 fams) : ∀ k, Owns ty key k → v k = none := by
  rintro k (rfl | rfl | ⟨sub, hsub, rest, rfl⟩)
  · exact (h.absent rfl).1
  · exact (h.absent rfl).2
  · exact (h.elements sub hsub rest).trans (h.fams_none hsub rest)

theorem CollAt.kv_eq_none (h : CollAt ty v key len fams) : v (kv key) = none ↔ len = 0 := by
  constructor
  · intro hnone
    by_contra hne
    obtain ⟨b, m, hb, _⟩ := h.header hne
    rw [hnone] at hb
    cases hb
  · exact fun hzero => (h.absent hzero).1

theorem CollAt.enum (h : CollAt ty v key len fams) (hsub : sub ∈ type_subs ty) :
    ∃ l, Enum (fams sub) l ∧ l.length ≤ len := by
  obtain ⟨ks, hlen, hks⟩ := h.bounded sub hsub
  obtain ⟨l, hl, hle⟩ := exists_enum hks
  exact ⟨l, hl, hle.trans hlen⟩

/-! ## Loading -/

/-- The view without some families of a key. -/
def dropFamilies (v : View) (key : Bytes) : List UInt8 → View
  | [] => v
  | sub :: subs => dropFamilies (dropFamily v key sub) key subs

theorem dropFamilies_eq (v : View) (key : Bytes) (subs : List UInt8) (k : Key) :
    dropFamilies v key subs k = if ∃ sub ∈ subs, ebase key sub <+: k then none else v k := by
  induction subs generalizing v with
  | nil => simp [dropFamilies]
  | cons sub subs ih =>
      rw [dropFamilies, ih, dropFamily]
      by_cases hsub : ebase key sub <+: k
      · simp [hsub]
      · simp [hsub]

theorem wp_delete_elements (hkey : key ≠ []) {subs : List UInt8} (hsubs : ∀ sub ∈ subs, sub ≠ 0xFF)
    (hnodup : subs.Nodup) (hl : ∀ sub ∈ subs, ∃ l, Listed v key sub l) {g : Unit → R γ}
    (hg : (g ()).wp Q (dropFamilies v key subs)) : (Ctx.delete_elements key subs >>= g).wp Q v := by
  induction subs generalizing v with
  | nil => exact hg
  | cons sub subs ih =>
      obtain ⟨hne, hsubs⟩ := List.forall_mem_cons.mp hsubs
      obtain ⟨⟨l, hlist⟩, hl⟩ := List.forall_mem_cons.mp hl
      obtain ⟨hnot, hnodup⟩ := List.nodup_cons.mp hnodup
      refine wp_delete_elements_cons hkey hne hlist (ih hsubs hnodup ?_ hg)
      -- the other families are as they were
      intro sub' hsub'
      obtain ⟨l', hl'⟩ := hl sub' hsub'
      refine ⟨l', ⟨hl'.lists.sorted, fun e =>
        (hl'.lists.mem e).trans (and_congr_right fun hin => ?_)⟩, hl'.short⟩
      have hfam := (Elements.inRange_erange (hsubs sub' hsub') e.1).mp hin
      rw [dropFamily, if_neg]
      intro hfam'
      obtain rfl := (Elements.family_disjoint hfam hfam').2
      exact hnot hsub'

/-- What is left of a collection whose deadline has passed. -/
def purged (ty : UInt8) (v : View) (key : Bytes) : View :=
  ((dropFamilies v key (type_subs ty)).set (kv key) none).set (expk key) none

theorem purged_owns {k : Key} (h : Owns ty key k) : purged ty v key k = none := by
  unfold purged
  by_cases hexp : k = expk key
  · rw [hexp, View.set_self]
  rw [View.set_of_ne hexp]
  by_cases hkv : k = kv key
  · rw [hkv, View.set_self]
  rw [View.set_of_ne hkv, dropFamilies_eq]
  exact if_pos ((h.resolve_left hkv).resolve_left hexp)

theorem sameElse_purged (ty : UInt8) (v : View) (key : Bytes) :
    SameElse ty key v (purged ty v key) := by
  intro k hk
  unfold purged
  rw [View.set_of_ne fun h => hk (.inr (.inl h)), View.set_of_ne fun h => hk (.inl h),
    dropFamilies_eq]
  exact if_neg fun h => hk (.inr (.inr h))

theorem CollAt.listed (h : CollAt ty v key len fams) (hlen : len < 2 ^ 63) :
    ∀ sub ∈ type_subs ty, ∃ l, Listed v key sub l := by
  intro sub hsub
  obtain ⟨l, hl, hle⟩ := h.enum hsub
  refine ⟨_, h.elements.listed hsub hl ?_⟩
  unfold usize_max
  omega

/-- A deadline is deleted, if there is one. -/
theorem forget_deadline {v₀ : View} (hdeadline : Deadline v₀ key)
    (hsame : v (expk key) = v₀ (expk key)) :
    (if (deadlineOf (v₀ (expk key))).isSome then v.set (expk key) none else v) =
      v.set (expk key) none := by
  split
  · rfl
  · next hnone =>
      have habsent : v₀ (expk key) = none := by
        rcases hdeadline with hd | ⟨d, hd⟩
        · exact hd
        · exact absurd (by rw [hd]; rfl) hnone
      exact (Function.update_eq_self_iff.mpr (hsame.trans habsent).symm).symm

theorem wp_delete_coll (hkey : key ≠ []) (h : CollAt ty v key len fams) (hlen : len < 2 ^ 63)
    {m : Meta} (hm : m.ty = ty) {g : Unit → R γ} (hg : (g ()).wp Q (purged ty v key)) :
    (Ctx.delete_all key { ent := .coll m, ttl := deadlineOf (v (expk key)) } >>= g).wp Q v := by
  have hstep : Ctx.delete_all key { ent := .coll m, ttl := deadlineOf (v (expk key)) } =
      (Ctx.delete_elements key (type_subs ty) >>= fun _ => delete (.kv key) >>= fun _ =>
        set_ttl key (deadlineOf (v (expk key))) none) := by
    unfold Ctx.delete_all
    simp only [hm]
    rfl
  have hexp : ((dropFamilies v key (type_subs ty)).set (kv key) none) (expk key) =
      v (expk key) := by
    rw [View.set_of_ne (Ne.symm (kv_ne_expk key key)), dropFamilies_eq]
    exact if_neg fun hin => not_elem_expk ty key key hin
  rw [hstep, bind_assoc]
  refine wp_delete_elements hkey (fun sub hsub => sub_ne hsub) (nodup_type_subs ty)
    (h.listed hlen) ?_
  change ((delete (.kv key) >>= fun _ => set_ttl key (deadlineOf (v (expk key))) none) >>= g).wp Q _
  rw [bind_assoc, wp_delete_kv, wp_set_ttl_none, forget_deadline h.deadline hexp]
  exact hg

/-- A collection is deleted, whether its deadline has passed or not. -/
theorem wp_clear (hkey : key ≠ []) (hlen : len < 2 ^ 63) (h : CollAt ty v key len fams)
    (hwrite : cx.readonly = false) {g : Unit → R γ}
    (hg : ∀ v', CollAt ty v' key 0 Fams.none → SameElse ty key v v' → (g ()).wp Q v') :
    (cx.load key >>= fun e => Ctx.delete_all key e >>= g).wp Q v := by
  unfold Ctx.load
  simp only [bind_assoc]
  rw [wp_get, wp_get]
  by_cases hzero : len = 0
  · subst hzero
    obtain ⟨hkv, hexp⟩ := h.absent rfl
    rw [hkv, hexp]
    exact hg v (collAt_none h.nothing) (SameElse.refl ty key v)
  obtain ⟨b, m, hb, hdecode, hm⟩ := h.header hzero
  rw [hb]
  simp only [Ctx.entOf, hdecode]
  have hgone := hg _ (collAt_none fun k hk => purged_owns hk) (sameElse_purged ty v key)
  have hdelete := wp_delete_coll hkey h hlen hm.type_eq hgone
  cases hdeadline : deadlineOf (v (expk key)) with
  | none =>
      rw [hdeadline] at hdelete
      exact hdelete
  | some at_ =>
      rw [hdeadline] at hdelete
      simp only
      by_cases hpast : at_ ≤ cx.now
      · rw [if_pos hpast, hwrite]
        simp only [Bool.false_eq_true, if_false, bind_assoc]
        -- nothing is left for the second deletion
        have hthen := wp_delete_coll hkey h hlen hm.type_eq
          (g := fun _ => pure { ent := .absent, ttl := none } >>= fun e =>
            Ctx.delete_all key e >>= g) hgone
        rw [hdeadline] at hthen
        exact hthen
      · rw [if_neg hpast]
        exact hdelete

/-- Loading a collection finds its header, unless it is absent or its deadline has passed;
then it is gone afterwards, when the context may write. -/
theorem wp_coll (hkey : dead cx v key = true → key ≠ []) (hlen : len < 2 ^ 63)
    (h : CollAt ty v key len fams) {g : Option (Meta × Option UInt64) → R γ}
    (hgone : ∀ v', len = 0 ∨ dead cx v key = true → (cx.readonly = true → v' = v) →
      (cx.readonly = false → CollAt ty v' key 0 Fams.none ∧ SameElse ty key v v') →
      (g none).wp Q v')
    (hthere : ∀ m, len ≠ 0 → dead cx v key = false → IsMeta ty len m →
      (g (some (m, deadlineOf (v (expk key))))).wp Q v) :
    (cx.coll key ty >>= g).wp Q v := by
  unfold coll Ctx.load
  simp only [bind_assoc]
  rw [wp_get, wp_get]
  by_cases hzero : len = 0
  · subst hzero
    obtain ⟨hkv, hexp⟩ := h.absent rfl
    rw [hkv, hexp]
    exact hgone v (.inl rfl) (fun _ => rfl) fun _ => ⟨collAt_none h.nothing, SameElse.refl ty key v⟩
  obtain ⟨b, m, hb, hdecode, hm⟩ := h.header hzero
  rw [hb]
  simp only [Ctx.entOf, hdecode]
  cases hdeadline : deadlineOf (v (expk key)) with
  | none =>
      have halive : dead cx v key = false := by simp [dead, hdeadline]
      have hfound := hthere m hzero halive hm
      rw [hdeadline] at hfound
      change ((if m.ty = ty then pure (some (m, none)) else throw WRONGTYPE) >>= g).wp Q v
      rw [if_pos hm.type_eq]
      exact hfound
  | some at_ =>
      simp only
      by_cases hpast : at_ ≤ cx.now
      · have hdead : dead cx v key = true := by simp [dead, hdeadline, hpast]
        rw [if_pos hpast]
        cases hread : cx.readonly with
        | true =>
            exact hgone v (.inr hdead) (fun _ => rfl) fun hwrite =>
              absurd (hread.symm.trans hwrite) (by decide)
        | false =>
            simp only [Bool.false_eq_true, if_false, bind_assoc]
            rw [← hdeadline]
            refine wp_delete_coll (hkey hdead) h hlen hm.type_eq ?_
            exact hgone _ (.inr hdead) (fun hr => absurd (hread.symm.trans hr) (by decide)) fun _ =>
              ⟨collAt_none fun k hk => purged_owns hk, sameElse_purged ty v key⟩
      · have halive : dead cx v key = false := by simp [dead, hdeadline, hpast]
        have hfound := hthere m hzero halive hm
        rw [hdeadline] at hfound
        rw [if_neg hpast]
        change ((if m.ty = ty then pure (some (m, some at_)) else throw WRONGTYPE) >>= g).wp Q v
        rw [if_pos hm.type_eq]
        exact hfound

/-! ## Storing -/

/-- The header of a collection is stored, or the key goes with its last element. -/
theorem wp_put_meta (hty : ty ≠ 5) (hlen : len < 2 ^ 63) {v₀ : View} {m : Meta}
    (hm : IsMeta ty len m) (hchanged : OnlyElems ty key v₀ v) (helems : Elems ty v key fams)
    (hbounded : ∀ sub ∈ type_subs ty, ∃ ks : List Bytes, ks.length ≤ len ∧
      ∀ rest, fams sub rest ≠ none → rest ∈ ks)
    (hdeadline : Deadline v₀ key) {g : Unit → R γ}
    (hg : ∀ v', CollAt ty v' key len fams → SameElse ty key v₀ v' → Later key v₀ v' →
      (g ()).wp Q v') :
    (put_meta key m (deadlineOf (v₀ (expk key))) >>= g).wp Q v := by
  unfold put_meta
  by_cases hzero : len = 0
  · have hexp : (v.set (kv key) none) (expk key) = v₀ (expk key) := by
      rw [View.set_of_ne (Ne.symm (kv_ne_expk key key)), hchanged.expk]
    rw [if_pos (hm.len_eq.trans hzero), bind_assoc, wp_delete_kv, wp_set_ttl_none,
      forget_deadline hdeadline hexp]
    refine hg _ ⟨fun _ => ⟨?_, View.set_self ..⟩, fun hne => absurd hzero hne, ?_, hbounded,
      .inl (View.set_self ..)⟩ ?_ (.inr (View.set_self ..))
    · rw [View.set_of_ne (kv_ne_expk key key), View.set_self]
    · refine helems.only fun k hk => ?_
      rw [View.set_of_ne, View.set_of_ne]
      · rintro rfl
        exact not_elem_kv ty key key hk
      · rintro rfl
        exact not_elem_expk ty key key hk
    · intro k hk
      rw [View.set_of_ne fun h => hk (.inr (.inl h)), View.set_of_ne fun h => hk (.inl h)]
      exact hchanged.sameElse k hk
  · have hne : m.len ≠ 0 := by
      rw [hm.len_eq]
      exact hzero
    have hfits : ({ m with ver := m.ver + 1 } : Meta).Fits := by
      refine ⟨?_, ?_, ?_⟩
      · change m.len < 2 ^ 64
        rw [hm.len_eq]
        omega
      · change IsI64 m.head
        rw [hm.head_eq]
        constructor <;> norm_num
      · change IsI64 m.tail
        rw [hm.tail_eq]
        constructor <;> norm_num
    have hdecode := Meta.decode_encode hfits (by
      change m.ty ≠ 5
      rw [hm.type_eq]
      exact hty)
    rw [if_neg hne, wp_put_kv]
    have hexp : (v.set (kv key) (live (.metaBytes (Meta.encode { m with ver := m.ver + 1 }))))
        (expk key) = v₀ (expk key) := by
      rw [View.set_of_ne (Ne.symm (kv_ne_expk key key)), hchanged.expk]
    refine hg _ ⟨fun h => absurd h hzero, fun _ => ⟨_, _, View.set_self .., hdecode, ?_⟩, ?_,
      hbounded, ?_⟩ ?_ (.inl hexp)
    · exact ⟨hm.type_eq, hm.len_eq, hm.head_eq, hm.tail_eq⟩
    · refine helems.only fun k hk => View.set_of_ne ?_ _ _
      rintro rfl
      exact not_elem_kv ty key key hk
    · unfold Deadline
      rw [hexp]
      exact hdeadline
    · intro k hk
      rw [View.set_of_ne fun h => hk (.inl h)]
      exact hchanged.sameElse k hk

/-! ## Elements -/

theorem wp_get_elem (h : Elems ty v key fams) (hsub : sub ∈ type_subs ty) {rest : Bytes}
    {g : Option Value → R γ} :
    (get (Elements.ekey key sub rest) >>= g).wp Q v ↔ (g (fams sub rest)).wp Q v := by
  rw [wp_get, h sub hsub rest]

/-- An element is stored. -/
theorem wp_put_elem (h : Elems ty v key fams) (hsub : sub ∈ type_subs ty) {rest : Bytes}
    {x : Value} (hx : live x = some x) {g : Unit → R γ}
    (hg : ∀ v', Elems ty v' key (fams.set sub rest (some x)) → OnlyElems ty key v v' →
      (g ()).wp Q v') :
    (put (elemKey key sub rest) x >>= g).wp Q v := by
  obtain ⟨helems, honly⟩ := h.set hsub rest (some x)
  rw [wp_put, hx]
  exact hg _ helems honly

/-- An element is deleted. -/
theorem wp_delete_elem (h : Elems ty v key fams) (hsub : sub ∈ type_subs ty) {rest : Bytes}
    {g : Unit → R γ}
    (hg : ∀ v', Elems ty v' key (fams.set sub rest none) → OnlyElems ty key v v' →
      (g ()).wp Q v') :
    (delete (elemKey key sub rest) >>= g).wp Q v := by
  obtain ⟨helems, honly⟩ := h.set hsub rest none
  rw [wp_delete]
  exact hg _ helems honly

/-- A scan of a family returns its elements in order. -/
theorem wp_enumerate (hkey : key ≠ []) (h : Elems ty v key fams) (hsub : sub ∈ type_subs ty)
    {l : List (Bytes × Value)} (hl : Enum (fams sub) l) (hshort : l.length ≤ usize_max)
    {g : List (Bytes × Value) → R γ} (hg : (g l).wp Q v) : (elements key sub >>= g).wp Q v := by
  refine wp_elements hkey (h.listed hsub hl hshort) ?_
  have hrests : (l.map fun e => (Elements.ekey key sub e.1, e.2)).map
      (fun kv => (kv.1.drop (ebase key sub).length, kv.2)) = l := by
    rw [List.map_map]
    conv_rhs => rw [← List.map_id l]
    refine List.map_congr_left fun e _ => ?_
    simp [Elements.ekey]
  rw [hrests]
  exact hg

end Stored

end Coll
end StrikeDB
