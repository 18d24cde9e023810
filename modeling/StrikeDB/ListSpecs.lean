import StrikeDB.ListWindow

/-!
# StrikeDB: what list commands do

Each command on a list that is stored in some room: what it answers, and the sequence
that is stored afterwards.
-/

namespace StrikeDB
namespace Lists

open Ctx

variable {γ : Type} {Q : Except Resp γ → View → Prop} {cx : Ctx} {n : Nat} {v : View}
  {key : Bytes} {head : Int} {l : List Bytes}

/-! ## Loading -/

/-- The deadline of a key has passed. -/
def dead (cx : Ctx) (v : View) (key : Bytes) : Bool :=
  (deadlineOf (v (expk key))).any (· ≤ cx.now)

/-- The sequence that a command finds under a key. -/
def live (cx : Ctx) (v : View) (key : Bytes) (l : List Bytes) : List Bytes :=
  if dead cx v key then [] else l

theorem elems_dropFamily (v : View) (key : Bytes) :
    Elems (dropFamily v key SUB_LIST) key fun _ => none where
  at_ := fun s _ => if_pos ⟨seq_bytes s, rfl⟩
  stray := fun rest _ => if_pos ⟨rest, rfl⟩

/-- What is left of a list whose deadline has passed. -/
def purged (v : View) (key : Bytes) : View :=
  ((dropFamily v key SUB_LIST).set (kv key) none).set (expk key) none

theorem listAt_purged (v : View) (key : Bytes) (head : Int) : ListAt (purged v key) key head [] := by
  refine listAt_nil ?_ (View.set_self ..) ?_ head
  · rw [View.set_of_ne (kv_ne_expk key key), View.set_self]
  · refine (elems_dropFamily v key).only fun k hk => ?_
    rw [View.set_of_ne, View.set_of_ne]
    · rintro rfl
      exact not_elem_kv key key hk
    · rintro rfl
      exact not_elem_expk key key hk

theorem sameElse_purged (v : View) (key : Bytes) : SameElse key v (purged v key) := by
  intro k hk
  unfold purged
  rw [View.set_of_ne fun h => hk (.inr (.inl h)), View.set_of_ne fun h => hk (.inl h)]
  exact if_neg fun h => hk (.inr (.inr h))

theorem wp_delete_all_list (hkey : key ≠ []) (hn : n < 2 ^ 63) (h : ListAt v key head l)
    (hroom : Room n head l) {m : Meta} (hm : m.ty = T_LIST) {at_ : UInt64} {g : Unit → R γ}
    (hg : (g ()).wp Q (purged v key)) :
    (Ctx.delete_all key { ent := .coll m, ttl := some at_ } >>= g).wp Q v := by
  have hsubs : type_subs m.ty = [SUB_LIST] := by
    rw [hm]
    rfl
  have hstep : Ctx.delete_all key { ent := .coll m, ttl := some at_ } =
      (Ctx.delete_elements key [SUB_LIST] >>= fun _ => delete (.kv key) >>= fun _ =>
        set_ttl key (some at_) none) := by
    unfold Ctx.delete_all
    simp only [hsubs]
    rfl
  rw [hstep, bind_assoc]
  refine wp_delete_elements_cons hkey (by decide) (listed_window hn h.elements hroom) ?_
  change ((delete (.kv key) >>= fun _ => set_ttl key (some at_) none) >>= g).wp Q _
  rw [bind_assoc, wp_delete_kv, wp_set_ttl_none]
  exact hg

/-- Loading a list finds its header, unless it is absent or its deadline has passed;
then it is gone afterwards, when the context may write. -/
theorem wp_coll (hkey : dead cx v key = true → key ≠ []) (hn : n < 2 ^ 63) (h : ListAt v key head l)
    (hroom : Room n head l) {g : Option (Meta × Option UInt64) → R γ}
    (hgone : ∀ v', live cx v key l = [] → (cx.readonly = true → v' = v) →
      (cx.readonly = false → ListAt v' key head [] ∧ SameElse key v v') → (g none).wp Q v')
    (hthere : ∀ m, l ≠ [] → live cx v key l = l → IsMeta m head l →
      (g (some (m, deadlineOf (v (expk key))))).wp Q v) :
    (cx.coll key T_LIST >>= g).wp Q v := by
  unfold coll Ctx.load
  simp only [bind_assoc]
  rw [wp_get, wp_get]
  by_cases hnil : l = []
  · subst hnil
    obtain ⟨hkv, hexp⟩ := h.absent rfl
    rw [hkv, hexp]
    exact hgone v (by simp [live]) (fun _ => rfl) fun _ => ⟨h, SameElse.refl key v⟩
  obtain ⟨b, m, hb, hdecode, hm⟩ := h.header hnil
  rw [hb]
  simp only [Ctx.entOf, hdecode]
  cases hdeadline : deadlineOf (v (expk key)) with
  | none =>
      have hlive : live cx v key l = l := by simp [live, dead, hdeadline]
      have hfound := hthere m hnil hlive hm
      rw [hdeadline] at hfound
      change ((if m.ty = T_LIST then pure (some (m, none)) else throw WRONGTYPE) >>= g).wp Q v
      rw [if_pos hm.type_eq]
      exact hfound
  | some at_ =>
      simp only
      by_cases hpast : at_ ≤ cx.now
      · have hlive : live cx v key l = [] := by simp [live, dead, hdeadline, hpast]
        rw [if_pos hpast]
        cases hread : cx.readonly with
        | true =>
            exact hgone v hlive (fun _ => rfl) fun hwrite => absurd (hread.symm.trans hwrite) (by decide)
        | false =>
            simp only [Bool.false_eq_true, if_false, bind_assoc]
            have hdead : dead cx v key = true := by simp [dead, hdeadline, hpast]
            refine wp_delete_all_list (hkey hdead) hn h hroom hm.type_eq ?_
            exact hgone _ hlive (fun hr => absurd (hread.symm.trans hr) (by decide)) fun _ =>
              ⟨listAt_purged v key head, sameElse_purged v key⟩
      · have hlive : live cx v key l = l := by simp [live, dead, hdeadline, hpast]
        have hfound := hthere m hnil hlive hm
        rw [hdeadline] at hfound
        rw [if_neg hpast]
        change ((if m.ty = T_LIST then pure (some (m, some at_)) else throw WRONGTYPE) >>= g).wp Q v
        rw [if_pos hm.type_eq]
        exact hfound

theorem dead_eq_false_of_live (hne : l ≠ []) (h : live cx v key l = l) : dead cx v key = false := by
  unfold live at h
  split at h
  · exact absurd h.symm hne
  · next halive => exact Bool.eq_false_of_not_eq_true halive

/-! ## Storing -/

/-- The deadline of a key has stayed, or it is gone. -/
def Later (key : Bytes) (v v' : View) : Prop := v' (expk key) = v (expk key) ∨ v' (expk key) = none

theorem Later.alive {v' : View} (h : Later key v v') (halive : dead cx v key = false) :
    dead cx v' key = false := by
  unfold dead at halive ⊢
  rcases h with heq | hnone
  · rw [heq]
    exact halive
  · rw [hnone]
    rfl

/-- The header of a sequence is stored, or the key goes with its last value. -/
theorem wp_put_meta (hn : n < 2 ^ 63) {v₀ : View} {m : Meta} (hm : IsMeta m head l)
    (hroom : Room n head l) (hchanged : OnlyElems key v₀ v) (helems : Elems v key (window head l))
    (hdeadline : Deadline v₀ key) {g : Unit → R γ}
    (hg : ∀ v', Holds n v' key l → SameElse key v₀ v' → Later key v₀ v' → (g ()).wp Q v') :
    (put_meta key m (deadlineOf (v₀ (expk key))) >>= g).wp Q v := by
  unfold put_meta
  by_cases hnil : l = []
  · subst hnil
    have hexp : (if (deadlineOf (v₀ (expk key))).isSome then (v.set (kv key) none).set (expk key) none
        else v.set (kv key) none) = (v.set (kv key) none).set (expk key) none := by
      split
      · rfl
      · next hnone =>
          have habsent : v₀ (expk key) = none := by
            rcases hdeadline with hd | ⟨d, hd⟩
            · exact hd
            · exact absurd (by rw [hd]; rfl) hnone
          have hsame : (v.set (kv key) none) (expk key) = none := by
            rw [View.set_of_ne (Ne.symm (kv_ne_expk key key)), hchanged.expk]
            exact habsent
          exact (Function.update_eq_self_iff.mpr hsame.symm).symm
    rw [if_pos (by rw [hm.len_eq]; rfl), bind_assoc, wp_delete_kv, wp_set_ttl_none]
    rw [hexp]
    refine hg _ ⟨head, listAt_nil ?_ (View.set_self ..) ?_ head, hroom⟩ ?_
      (.inr (View.set_self ..))
    · rw [View.set_of_ne (kv_ne_expk key key), View.set_self]
    · refine Elems.congr ?_ fun s _ => window_nil head s
      refine helems.only fun k hk => ?_
      rw [View.set_of_ne, View.set_of_ne]
      · rintro rfl
        exact not_elem_kv key key hk
      · rintro rfl
        exact not_elem_expk key key hk
    · intro k hk
      rw [View.set_of_ne fun h => hk (.inr (.inl h)), View.set_of_ne fun h => hk (.inl h)]
      exact hchanged.sameElse k hk
  · have hlen : m.len ≠ 0 := by
      rw [hm.len_eq]
      exact fun h => hnil (List.length_eq_zero_iff.mp h)
    have hfits : ({ m with ver := m.ver + 1 } : Meta).Fits := by
      have hh := hroom.isI64 hn (le_refl head) (by omega)
      have ht := hroom.isI64 hn (s := head + l.length) (by omega) (le_refl _)
      have hl := hroom.len
      refine ⟨?_, ?_, ?_⟩
      · change m.len < 2 ^ 64
        rw [hm.len_eq]
        omega
      · change IsI64 m.head
        rw [hm.head_eq]
        exact hh
      · change IsI64 m.tail
        rw [hm.tail_eq]
        exact ht
    have hdecode := Meta.decode_encode hfits (by
      change m.ty ≠ 5
      rw [hm.type_eq]
      decide)
    rw [if_neg hlen, wp_put_kv]
    have hexp : (v.set (kv key) (StrikeDB.live (.metaBytes (Meta.encode { m with ver := m.ver + 1 }))))
        (expk key) = v₀ (expk key) := by
      rw [View.set_of_ne (Ne.symm (kv_ne_expk key key)), hchanged.expk]
    refine hg _ ⟨head, ⟨fun h => absurd h hnil, fun _ => ⟨_, _, View.set_self .., hdecode, ?_⟩, ?_, ?_⟩,
      hroom⟩ ?_ (.inl hexp)
    · exact ⟨hm.type_eq, hm.len_eq, hm.head_eq, hm.tail_eq⟩
    · refine helems.only fun k hk => View.set_of_ne ?_ _ _
      rintro rfl
      exact not_elem_kv key key hk
    · unfold Deadline
      rw [View.set_of_ne (Ne.symm (kv_ne_expk key key)), hchanged.expk]
      exact hdeadline
    · intro k hk
      rw [View.set_of_ne fun h => hk (.inl h)]
      exact hchanged.sameElse k hk

/-! ## Elements -/

theorem window_cons (head : Int) (x : Bytes) (l : List Bytes) (s : Int) :
    window (head - 1) (x :: l) s =
      Function.update (window head l) (head - 1) (some (.bytes x)) s := by
  by_cases hs : s = head - 1
  · subst hs
    rw [Function.update_self, window, if_neg (lt_irrefl _), sub_self]
    rfl
  · rw [Function.update_of_ne hs, window, window]
    by_cases hlt : s < head - 1
    · rw [if_pos hlt, if_pos (by omega)]
    · rw [if_neg hlt, if_neg (by omega)]
      have hidx : (s - (head - 1)).toNat = (s - head).toNat + 1 := by omega
      rw [hidx, List.getElem?_cons_succ]

theorem window_concat (head : Int) (x : Bytes) (l : List Bytes) (s : Int) :
    window head (l ++ [x]) s =
      Function.update (window head l) (head + l.length) (some (.bytes x)) s := by
  by_cases hs : s = head + l.length
  · subst hs
    rw [Function.update_self, window, if_neg (by omega), List.getElem?_append_right (by omega)]
    have hidx : (head + (l.length : Int) - head).toNat - l.length = 0 := by omega
    rw [hidx]
    rfl
  · rw [Function.update_of_ne hs, window, window]
    by_cases hlt : s < head
    · rw [if_pos hlt, if_pos hlt]
    · rw [if_neg hlt, if_neg hlt]
      by_cases hin : (s - head).toNat < l.length
      · rw [List.getElem?_append_left hin]
      · rw [List.getElem?_append_right (by omega), List.getElem?_eq_none (by simp; omega),
          List.getElem?_eq_none (by omega)]

theorem window_tail (head : Int) (x : Bytes) (l : List Bytes) (s : Int) :
    window (head + 1) l s = Function.update (window head (x :: l)) head none s := by
  by_cases hs : s = head
  · subst hs
    rw [Function.update_self, window, if_pos (by omega)]
  · rw [Function.update_of_ne hs, window, window]
    by_cases hlt : s < head
    · rw [if_pos hlt, if_pos (by omega)]
    · rw [if_neg hlt, if_neg (by omega)]
      have hidx : (s - head).toNat = (s - (head + 1)).toNat + 1 := by omega
      rw [hidx, List.getElem?_cons_succ]

theorem window_dropLast (head : Int) (x : Bytes) (l : List Bytes) (s : Int) :
    window head l s = Function.update (window head (l ++ [x])) (head + l.length) none s := by
  rw [show window head (l ++ [x]) = Function.update (window head l) (head + l.length)
    (some (.bytes x)) from funext (window_concat head x l), Function.update_idem]
  by_cases hs : s = head + l.length
  · subst hs
    rw [Function.update_self, window, if_neg (by omega), List.getElem?_eq_none (by omega)]
    rfl
  · rw [Function.update_of_ne hs]

theorem window_first (head : Int) (x : Bytes) (l : List Bytes) :
    window head (x :: l) head = some (.bytes x) := by
  rw [window, if_neg (lt_irrefl _), sub_self]
  rfl

theorem window_last (head : Int) (x : Bytes) (l : List Bytes) :
    window head (l ++ [x]) (head + l.length) = some (.bytes x) := by
  rw [window_concat, Function.update_self]

/-- An element is stored. -/
theorem wp_put_elem {f : Int → Option Value} (h : Elems v key f) {s : Int} (hs : IsI64 s)
    {x : Bytes} {g : Unit → R γ}
    (hg : ∀ v', Elems v' key (Function.update f s (some (.bytes x))) → OnlyElems key v v' →
      (g ()).wp Q v') :
    (put (elem key s) (.bytes x) >>= g).wp Q v := by
  obtain ⟨helems, honly⟩ := h.set hs (some (.bytes x))
  rw [wp_put]
  exact hg _ helems honly

/-- An element is deleted. -/
theorem wp_delete_elem {f : Int → Option Value} (h : Elems v key f) {s : Int} (hs : IsI64 s)
    {g : Unit → R γ}
    (hg : ∀ v', Elems v' key (Function.update f s none) → OnlyElems key v v' → (g ()).wp Q v') :
    (delete (elem key s) >>= g).wp Q v := by
  obtain ⟨helems, honly⟩ := h.set hs none
  rw [wp_delete]
  exact hg _ helems honly

theorem wp_deletePositions (k : Nat) {f : Int → Option Value} {i : Int} (h : Elems v key f)
    (hlow : IsI64 i) (hhigh : IsI64 (i + k)) {g : Unit → R γ}
    (hg : ∀ v', Elems v' key (fun s => if i ≤ s ∧ s < i + k then none else f s) →
      OnlyElems key v v' → (g ()).wp Q v') :
    (deletePositions key k i >>= g).wp Q v := by
  induction k generalizing v f i with
  | zero =>
      refine hg v (h.congr fun s _ => ?_) (OnlyElems.refl key v)
      rw [if_neg (by simp only [Nat.cast_zero]; omega)]
  | succ k ih =>
      rw [deletePositions, bind_assoc]
      refine wp_delete_elem h hlow fun v₁ h₁ honly₁ => ?_
      obtain ⟨hlow1, hlow2⟩ := hlow
      obtain ⟨hhigh1, hhigh2⟩ := hhigh
      push_cast at hhigh1 hhigh2
      refine ih h₁ ⟨by omega, by omega⟩ ⟨by omega, by omega⟩ fun v₂ h₂ honly₂ => ?_
      refine hg v₂ (h₂.congr fun s _ => ?_) (honly₁.trans honly₂)
      push_cast
      by_cases hs : s = i
      · subst hs
        rw [Function.update_self, if_neg (by omega), if_pos (by omega)]
      · rw [Function.update_of_ne hs]
        by_cases hin : i ≤ s ∧ s < i + (k + 1)
        · rw [if_pos hin, if_pos (by omega)]
        · rw [if_neg hin, if_neg (by omega)]

theorem wp_putAll (xs : List Bytes) {f : Int → Option Value} {i : Int} (h : Elems v key f)
    (hlow : IsI64 i) (hhigh : IsI64 (i + xs.length)) {g : Unit → R γ}
    (hg : ∀ v', Elems v' key (fun s => if i ≤ s ∧ s < i + xs.length then window i xs s else f s) →
      OnlyElems key v v' → (g ()).wp Q v') :
    (putAll key i xs >>= g).wp Q v := by
  induction xs generalizing v f i with
  | nil =>
      refine hg v (h.congr fun s _ => ?_) (OnlyElems.refl key v)
      rw [if_neg (by simp only [List.length_nil, Nat.cast_zero]; omega)]
  | cons x xs ih =>
      rw [putAll, bind_assoc]
      refine wp_put_elem h hlow fun v₁ h₁ honly₁ => ?_
      obtain ⟨hlow1, hlow2⟩ := hlow
      obtain ⟨hhigh1, hhigh2⟩ := hhigh
      rw [List.length_cons] at hhigh1 hhigh2
      push_cast at hhigh1 hhigh2
      refine ih h₁ ⟨by omega, by omega⟩ ⟨by omega, by omega⟩ fun v₂ h₂ honly₂ => ?_
      refine hg v₂ (h₂.congr fun s _ => ?_) (honly₁.trans honly₂)
      rw [List.length_cons]
      push_cast
      by_cases hs : s = i
      · subst hs
        rw [Function.update_self, if_neg (by omega), if_pos (by omega), window_first]
      · rw [Function.update_of_ne hs]
        by_cases hin : i ≤ s ∧ s < i + (xs.length + 1)
        · rw [if_pos hin, if_pos (by omega), window_tail i x xs s, Function.update_of_ne hs]
        · rw [if_neg hin, if_neg (by omega)]

theorem isMeta_new : IsMeta (Meta.new T_LIST) 0 [] where
  type_eq := rfl
  len_eq := rfl
  head_eq := rfl
  tail_eq := rfl

theorem wp_pushAll (left : Bool) (xs : List Bytes) {m : Meta} (hm : IsMeta m head l)
    (h : Elems v key (window head l)) (hroom : Room n head l) (hn : n + xs.length < 2 ^ 63)
    {g : Meta → R γ}
    (hg : ∀ m' head' v', IsMeta m' head' (extend left xs l) →
      Elems v' key (window head' (extend left xs l)) →
      Room (n + xs.length) head' (extend left xs l) → OnlyElems key v v' → (g m').wp Q v') :
    (pushAll key left xs m >>= g).wp Q v := by
  induction xs generalizing m head l n v with
  | nil =>
      have hnil : extend left [] l = l := by cases left <;> simp [extend]
      rw [hnil] at hg
      exact hg m head v hm h hroom (OnlyElems.refl key v)
  | cons x xs ih =>
      have hroomlow := hroom.low
      have hroomhigh := hroom.high
      have hroomlen := hroom.len
      rw [List.length_cons] at hn hg
      rw [show n + (xs.length + 1) = n + 1 + xs.length by omega] at hg hn
      rw [pushAll, bind_assoc]
      cases left with
      | true =>
          simp only [if_true, hm.head_eq]
          have hcons : extend true (x :: xs) l = extend true xs (x :: l) := by simp [extend]
          rw [hcons] at hg
          refine wp_put_elem h (s := head - 1) ⟨by omega, by omega⟩ fun v₁ h₁ honly₁ => ?_
          refine ih (l := x :: l) (n := n + 1) ?_
            (h₁.congr fun s _ => (window_cons head x l s).symm) ?_ hn ?_
          · refine ⟨hm.type_eq, ?_, rfl, ?_⟩
            · simp [hm.len_eq]
            · rw [List.length_cons]
              push_cast
              have htail := hm.tail_eq
              omega
          · refine ⟨by push_cast; omega, ?_, ?_⟩
            · rw [List.length_cons]
              push_cast
              omega
            · rw [List.length_cons]
              omega
          · exact fun m' head' v' hm' h' hroom' honly' =>
              hg m' head' v' hm' h' hroom' (honly₁.trans honly')
      | false =>
          simp only [Bool.false_eq_true, if_false, hm.tail_eq]
          have hcons : extend false (x :: xs) l = extend false xs (l ++ [x]) := by simp [extend]
          rw [hcons] at hg
          refine wp_put_elem h (s := head + l.length) ⟨by omega, by omega⟩ fun v₁ h₁ honly₁ => ?_
          refine ih (l := l ++ [x]) (n := n + 1) ?_
            (h₁.congr fun s _ => (window_concat head x l s).symm) ?_ hn ?_
          · refine ⟨hm.type_eq, ?_, hm.head_eq, ?_⟩
            · simp [hm.len_eq]
            · rw [List.length_append, List.length_singleton]
              push_cast
              omega
          · refine ⟨by push_cast; omega, ?_, ?_⟩
            · rw [List.length_append, List.length_singleton]
              push_cast
              omega
            · rw [List.length_append, List.length_singleton]
              omega
          · exact fun m' head' v' hm' h' hroom' honly' =>
              hg m' head' v' hm' h' hroom' (honly₁.trans honly')

theorem wp_popAll (left : Bool) (k : Nat) (out : List Bytes) {m : Meta} (hm : IsMeta m head l)
    (h : Elems v key (window head l)) (hroom : Room n head l) (hn : n < 2 ^ 63)
    (hk : k ≤ l.length) {g : List Bytes × Meta → R γ}
    (hg : ∀ m' head' v', IsMeta m' head' (shorten left k l) →
      Elems v' key (window head' (shorten left k l)) → Room n head' (shorten left k l) →
      OnlyElems key v v' → (g (out ++ ends left k l, m')).wp Q v') :
    (popAll cx key left k out m >>= g).wp Q v := by
  induction k generalizing m head l v out with
  | zero =>
      have hends : ends left 0 l = [] := by cases left <;> simp [ends]
      have hsame : shorten left 0 l = l := by cases left <;> simp [shorten]
      rw [hends, hsame, List.append_nil] at hg
      exact hg m head v hm h hroom (OnlyElems.refl key v)
  | succ k ih =>
      have hroomlow := hroom.low
      have hroomhigh := hroom.high
      have hroomlen := hroom.len
      rw [popAll, bind_assoc]
      cases left with
      | true =>
          obtain ⟨x, xs, rfl⟩ := List.exists_cons_of_length_pos (by omega : 0 < l.length)
          rw [List.length_cons] at hroomhigh hroomlen hk
          push_cast at hroomhigh
          have hs : IsI64 head := ⟨by omega, by omega⟩
          simp only [if_true, hm.head_eq, bind_assoc]
          rw [wp_get, h.at_ head hs, window_first]
          refine wp_delete_elem h hs fun v₁ h₁ honly₁ => ?_
          refine ih (l := xs) (out ++ [x]) ?_
            (h₁.congr fun s _ => (window_tail head x xs s).symm) ?_ (by omega) ?_
          · have htail := hm.tail_eq
            rw [List.length_cons] at htail
            push_cast at htail
            refine ⟨hm.type_eq, ?_, rfl, ?_⟩
            · simp [hm.len_eq]
            · simp only
              omega
          · constructor <;> omega
          · intro m' head' v' hm' h' hroom' honly'
            rw [List.append_assoc]
            exact hg m' head' v' hm' h' hroom' (honly₁.trans honly')
      | false =>
          obtain ⟨xs, x, rfl⟩ : ∃ xs x, l = xs ++ [x] := by
            refine ⟨l.dropLast, l.getLast ?_, (List.dropLast_append_getLast _).symm⟩
            rintro rfl
            simp at hk
          rw [List.length_append, List.length_singleton] at hroomhigh hroomlen hk
          push_cast at hroomhigh
          have htail : m.tail - 1 = head + xs.length := by
            have htail := hm.tail_eq
            rw [List.length_append, List.length_singleton] at htail
            push_cast at htail
            omega
          have hs : IsI64 (head + xs.length) := ⟨by omega, by omega⟩
          simp only [Bool.false_eq_true, if_false, htail, bind_assoc]
          rw [wp_get, h.at_ _ hs, window_last]
          refine wp_delete_elem h hs fun v₁ h₁ honly₁ => ?_
          have hends : ends false (k + 1) (xs ++ [x]) = x :: ends false k xs := by
            simp [ends]
          have hshort : shorten false (k + 1) (xs ++ [x]) = shorten false k xs := by
            simp only [shorten, Bool.false_eq_true, if_false, List.length_append,
              List.length_singleton]
            rw [Nat.add_sub_add_right, List.take_append_of_le_length (by omega)]
          rw [hends, hshort] at hg
          refine ih (l := xs) (out ++ [x]) ?_
            (h₁.congr fun s _ => (window_dropLast head x xs s).symm) ?_ (by omega) ?_
          · refine ⟨hm.type_eq, ?_, hm.head_eq, rfl⟩
            simp [hm.len_eq]
          · constructor <;> omega
          · intro m' head' v' hm' h' hroom' honly'
            rw [List.append_assoc]
            exact hg m' head' v' hm' h' hroom' (honly₁.trans honly')

end Lists
end StrikeDB
