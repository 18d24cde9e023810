import StrikeDB.SetCommands

/-!
# StrikeDB: positions of set members

The two families of a set are each other's inverse, whatever was added and removed.

**Results.**
* `IsRep.add`, `IsRep.remove`: they stay so.
* `wp_set_add`, `wp_set_rem`: one member is added or removed.
* `wp_set_at`: at each position there is a member.
-/

namespace StrikeDB
namespace Sets

open Ctx Coll
open Lists (int seq_bytes seq_bytes_injective)

/-! ## Lists -/

section Positions

variable {l : List Bytes} {i j : Nat} {a b c : Bytes}

theorem at_injective (hnodup : l.Nodup) (hi : l[i]? = some b) (hj : l[j]? = some b) : i = j := by
  obtain ⟨hi', hib⟩ := List.getElem?_eq_some_iff.mp hi
  obtain ⟨hj', hjb⟩ := List.getElem?_eq_some_iff.mp hj
  exact (hnodup.getElem_inj_iff).mp (hib.trans hjb.symm)

theorem nodup_of_at (h : ∀ (i j : Nat) (b : Bytes), l[i]? = some b → l[j]? = some b → i = j) :
    l.Nodup := by
  rw [List.nodup_iff_getElem?_ne_getElem?]
  intro i j hij hj heq
  have hsome := List.getElem?_eq_getElem hj
  exact absurd (h i j l[j] (heq.trans hsome) hsome) hij.ne

theorem at_append : (l ++ [b])[j]? = some c ↔ l[j]? = some c ∨ j = l.length ∧ c = b := by
  rcases lt_trichotomy j l.length with hlt | rfl | hgt
  · rw [List.getElem?_append_left hlt]
    exact ⟨.inl, fun h => h.resolve_right fun h => absurd h.1 hlt.ne⟩
  · rw [List.getElem?_append_right le_rfl, Nat.sub_self, List.getElem?_eq_none le_rfl]
    simp [eq_comm]
  · rw [List.getElem?_eq_none (by simpa using hgt), List.getElem?_eq_none hgt.le]
    simp [hgt.ne']

theorem length_swap_remove (l : List Bytes) (i : Nat) :
    (swap_remove l i).length = l.length - 1 := by
  unfold swap_remove
  rw [List.length_dropLast, List.length_set]

/-- The last element takes the place of the one that goes. -/
theorem at_swap_remove (hi : i < l.length) (hlast : l[l.length - 1]? = some a) :
    (swap_remove l i)[j]? = some c ↔
      j < l.length - 1 ∧ (j = i ∧ c = a ∨ j ≠ i ∧ l[j]? = some c) := by
  have hD : l.getLastD [] = a := by
    rw [List.getLastD_eq_getLast?, List.getLast?_eq_getElem?, hlast]
    rfl
  unfold swap_remove
  rw [List.getElem?_dropLast, List.length_set, hD, List.getElem?_set]
  by_cases hj : j < l.length - 1
  · rw [if_pos hj]
    by_cases hij : i = j
    · subst hij
      rw [if_pos rfl, if_pos hi]
      simp [hj, eq_comm]
    · rw [if_neg hij]
      simp [hj, Ne.symm hij]
  · rw [if_neg hj]
    simp [hj]

/-- What goes is gone, and the rest stays. -/
theorem mem_swap_remove (hnodup : l.Nodup) (hb : l[i]? = some b) :
    c ∈ swap_remove l i ↔ c ≠ b ∧ c ∈ l := by
  obtain ⟨hi, -⟩ := List.getElem?_eq_some_iff.mp hb
  have hlast := List.getElem?_eq_getElem (l := l) (i := l.length - 1) (by omega)
  simp only [List.mem_iff_getElem?, at_swap_remove hi hlast]
  constructor
  · rintro ⟨j, hj, ⟨rfl, rfl⟩ | ⟨hne, hc⟩⟩
    · refine ⟨fun heq => ?_, _, hlast⟩
      exact absurd (at_injective hnodup hb (heq ▸ hlast)) (by omega)
    · exact ⟨fun heq => hne (at_injective hnodup (heq ▸ hc) hb), j, hc⟩
  · rintro ⟨hne, j, hc⟩
    have hji : j ≠ i := by
      rintro rfl
      exact hne (Option.some.inj (hc.symm.trans hb))
    obtain ⟨hj, -⟩ := List.getElem?_eq_some_iff.mp hc
    by_cases hjl : j = l.length - 1
    · subst hjl
      exact ⟨i, by omega, .inl ⟨rfl, Option.some.inj (hc.symm.trans hlast)⟩⟩
    · exact ⟨j, by omega, .inr ⟨hji, hc⟩⟩

theorem nodup_swap_remove (hnodup : l.Nodup) (hi : i < l.length) : (swap_remove l i).Nodup := by
  have hlast := List.getElem?_eq_getElem (l := l) (i := l.length - 1) (by omega)
  refine nodup_of_at fun j j' c hj hj' => ?_
  obtain ⟨hlt, hat⟩ := (at_swap_remove hi hlast).mp hj
  obtain ⟨hlt', hat'⟩ := (at_swap_remove hi hlast).mp hj'
  rcases hat with ⟨hji, hc⟩ | ⟨_, hc⟩ <;> rcases hat' with ⟨hji', hc'⟩ | ⟨_, hc'⟩
  · exact hji.trans hji'.symm
  · rw [hc] at hc'
    exact absurd (at_injective hnodup hlast hc') hlt'.ne'
  · rw [hc'] at hc
    exact absurd (at_injective hnodup hlast hc) hlt.ne'
  · exact at_injective hnodup hc hc'

end Positions

/-! ## Sets -/

section Members

variable {s : Members} {b c : Bytes}

theorem mem_insert : c ∈ s.insert b ↔ c = b ∨ c ∈ s := by
  rw [Std.ExtTreeSet.mem_insert, Std.LawfulEqCmp.compare_eq_iff_eq, eq_comm]

theorem mem_erase : c ∈ s.erase b ↔ c ≠ b ∧ c ∈ s := by
  rw [Std.ExtTreeSet.mem_erase, Ne, Std.LawfulEqCmp.compare_eq_iff_eq, Ne, eq_comm]

theorem insert_of_mem (h : b ∈ s) : s.insert b = s := by
  refine Std.ExtTreeSet.ext_mem fun c => ?_
  rw [mem_insert]
  exact ⟨fun hc => hc.elim (fun heq => heq ▸ h) id, .inr⟩

theorem erase_of_not_mem (h : b ∉ s) : s.erase b = s := by
  refine Std.ExtTreeSet.ext_mem fun c => ?_
  rw [mem_erase]
  exact ⟨And.right, fun hc => ⟨fun heq => h (heq ▸ hc), hc⟩⟩

theorem size_insert (h : b ∉ s) : (s.insert b).size = s.size + 1 :=
  Std.ExtTreeSet.size_insert.trans (if_neg h)

theorem size_erase (h : b ∈ s) : (s.erase b).size + 1 = s.size := by
  have hne : s.size ≠ 0 := fun hzero =>
    Std.ExtTreeSet.ne_empty_of_mem h (Std.ExtTreeSet.eq_empty_iff_size_eq_zero.mpr hzero)
  have herase : (s.erase b).size = s.size - 1 := Std.ExtTreeSet.size_erase.trans (if_pos h)
  omega

end Members

/-! ## Representations -/

section Rep

variable {s : Members} {l : List Bytes} {f : Fams} {i : Nat} {b : Bytes}

theorem pos_injective {i j : Nat} (hi : i < 2 ^ 63) (hj : j < 2 ^ 63)
    (h : seq_bytes i = seq_bytes j) : i = j := by
  have hpos := seq_bytes_injective (i := i) (j := j) ⟨by omega, by omega⟩ ⟨by omega, by omega⟩ h
  exact Int.ofNat.inj hpos

theorem IsRep.length (h : IsRep s l f) : l.length = s.size := by
  rw [← Std.ExtTreeSet.length_toList]
  refine List.Perm.length_eq ((List.perm_ext_iff_of_nodup h.nodup ?_).mpr fun b => ?_)
  · exact s.distinct_toList.imp fun {a b} hne heq => hne (by
      rw [heq]
      exact Std.ReflCmp.compare_self)
  · rw [h.mem, Std.ExtTreeSet.mem_toList]

theorem IsRep.member_at (h : IsRep s l f) (hb : l[i]? = some b) :
    f SUB_SET b = some (.int (.ofInt i)) := (h.member b _).mpr ⟨i, hb, rfl⟩

theorem IsRep.position_at (h : IsRep s l f) (hb : l[i]? = some b) :
    f SUB_SETPOS (seq_bytes i) = some (.bytes b) := (h.position _ _).mpr ⟨i, b, hb, rfl, rfl⟩

theorem IsRep.isSome (h : IsRep s l f) (b : Bytes) : (f SUB_SET b).isSome = true ↔ b ∈ s := by
  rw [← h.mem, List.mem_iff_getElem?, Option.isSome_iff_exists]
  constructor
  · rintro ⟨x, hx⟩
    obtain ⟨i, hi, -⟩ := (h.member b x).mp hx
    exact ⟨i, hi⟩
  · rintro ⟨i, hi⟩
    exact ⟨_, h.member_at hi⟩

theorem subs_ne : SUB_SET ≠ SUB_SETPOS := by decide

/-- A new member comes last. -/
theorem IsRep.add (h : IsRep s l f) (hb : b ∉ s) (hlen : s.size < 2 ^ 63) :
    IsRep (s.insert b) (l ++ [b])
      ((f.set SUB_SET b (some (.int (.ofInt s.size)))).set SUB_SETPOS (seq_bytes s.size)
        (some (.bytes b))) := by
  have hl := h.length
  have hbl : b ∉ l := fun hin => hb ((h.mem b).mp hin)
  refine ⟨?_, fun c => ?_, fun c x => ?_, fun r x => ?_⟩
  · exact List.nodup_append.mpr ⟨h.nodup, List.nodup_singleton b, fun a ha c hc => by
      rintro rfl
      exact hbl (List.mem_singleton.mp hc ▸ ha)⟩
  · rw [mem_insert, List.mem_append, List.mem_singleton, h.mem, or_comm]
  · rw [Fams.set_of_ne subs_ne, Fams.set_self]
    simp only [at_append]
    by_cases hc : c = b
    · subst hc
      rw [Function.update_self]
      constructor
      · rintro ⟨⟩
        exact ⟨l.length, .inr ⟨rfl, rfl⟩, by rw [hl]⟩
      · rintro ⟨j, hj | ⟨rfl, -⟩, rfl⟩
        · exact absurd (List.mem_of_getElem? hj) hbl
        · rw [hl]
    · rw [Function.update_of_ne hc, h.member]
      simp [hc]
  · rw [Fams.set_self, Fams.set_of_ne subs_ne.symm]
    simp only [at_append]
    by_cases hr : r = seq_bytes s.size
    · subst hr
      rw [Function.update_self]
      constructor
      · rintro ⟨⟩
        exact ⟨l.length, b, .inr ⟨rfl, rfl⟩, by rw [hl], rfl⟩
      · rintro ⟨j, c, hj | ⟨rfl, rfl⟩, hpos, rfl⟩
        · obtain ⟨hjl, -⟩ := List.getElem?_eq_some_iff.mp hj
          exact absurd (pos_injective hlen (by omega) hpos) (by omega)
        · rfl
    · rw [Function.update_of_ne hr, h.position]
      constructor
      · rintro ⟨j, c, hj, hpos, rfl⟩
        exact ⟨j, c, .inl hj, hpos, rfl⟩
      · rintro ⟨j, c, hj | ⟨rfl, rfl⟩, rfl, rfl⟩
        · exact ⟨j, c, hj, rfl, rfl⟩
        · exact absurd (by rw [hl]) hr

/-- The last member takes the position of the one that goes. -/
theorem IsRep.remove (h : IsRep s l f) (hlen : s.size < 2 ^ 63) (hb : l[i]? = some b) {a : Bytes}
    (ha : l[l.length - 1]? = some a) {f' : Fams}
    (hmember : ∀ c, f' SUB_SET c =
      if c = b then none else if c = a then some (.int (.ofInt i)) else f SUB_SET c)
    (hposition : ∀ r, f' SUB_SETPOS r =
      if r = seq_bytes (l.length - 1 : Nat) then none
      else if r = seq_bytes i then some (.bytes a) else f SUB_SETPOS r) :
    IsRep (s.erase b) (swap_remove l i) f' := by
  obtain ⟨hi, -⟩ := List.getElem?_eq_some_iff.mp hb
  have hl := h.length
  refine ⟨nodup_swap_remove h.nodup hi, fun c => ?_, fun c x => ?_, fun r x => ?_⟩
  · rw [mem_swap_remove h.nodup hb, mem_erase, h.mem]
  · rw [hmember]
    by_cases hcb : c = b
    · rw [if_pos hcb]
      refine ⟨fun hnone => (by cases hnone), ?_⟩
      rintro ⟨j, hj, -⟩
      exact absurd hcb ((mem_swap_remove h.nodup hb).mp (List.mem_of_getElem? hj)).1
    rw [if_neg hcb]
    simp only [at_swap_remove hi ha]
    by_cases hca : c = a
    · subst hca
      have hil : i ≠ l.length - 1 := by
        rintro rfl
        exact hcb (Option.some.inj (ha.symm.trans hb))
      rw [if_pos rfl]
      constructor
      · rintro ⟨⟩
        exact ⟨i, ⟨by omega, .inl ⟨rfl, rfl⟩⟩, rfl⟩
      · rintro ⟨j, ⟨hj, ⟨rfl, -⟩ | ⟨_, hc⟩⟩, rfl⟩
        · rfl
        · exact absurd (at_injective h.nodup hc ha) (by omega)
    · rw [if_neg hca, h.member]
      constructor
      · rintro ⟨j, hj, rfl⟩
        have hji : j ≠ i := by
          rintro rfl
          exact hcb (Option.some.inj (hj.symm.trans hb))
        have hjl : j ≠ l.length - 1 := by
          rintro rfl
          exact hca (Option.some.inj (hj.symm.trans ha))
        obtain ⟨hlt, -⟩ := List.getElem?_eq_some_iff.mp hj
        exact ⟨j, ⟨by omega, .inr ⟨hji, hj⟩⟩, rfl⟩
      · rintro ⟨j, ⟨_, ⟨_, hc⟩ | ⟨_, hc⟩⟩, rfl⟩
        · exact absurd hc hca
        · exact ⟨j, hc, rfl⟩
  · rw [hposition]
    simp only [at_swap_remove hi ha]
    by_cases hrl : r = seq_bytes (l.length - 1 : Nat)
    · rw [if_pos hrl]
      refine ⟨fun hnone => (by cases hnone), ?_⟩
      rintro ⟨j, c, ⟨hj, -⟩, hr, -⟩
      exact absurd (pos_injective (by omega) (by omega) (hr.symm.trans hrl)) hj.ne
    rw [if_neg hrl]
    by_cases hri : r = seq_bytes i
    · subst hri
      have hil : i ≠ l.length - 1 := fun heq => hrl (congrArg (fun k : Nat => seq_bytes k) heq)
      rw [if_pos rfl]
      constructor
      · rintro ⟨⟩
        exact ⟨i, a, ⟨by omega, .inl ⟨rfl, rfl⟩⟩, rfl, rfl⟩
      · rintro ⟨j, c, ⟨hj, ⟨_, rfl⟩ | ⟨hne, hc⟩⟩, hr, rfl⟩
        · rfl
        · exact absurd (pos_injective (by omega) (by omega) hr).symm hne
    · rw [if_neg hri, h.position]
      constructor
      · rintro ⟨j, c, hj, rfl, rfl⟩
        obtain ⟨hlt, -⟩ := List.getElem?_eq_some_iff.mp hj
        have hji : j ≠ i := fun heq => hri (congrArg (fun k : Nat => seq_bytes k) heq)
        have hjl : j ≠ l.length - 1 := fun heq => hrl (congrArg (fun k : Nat => seq_bytes k) heq)
        exact ⟨j, c, ⟨by omega, .inr ⟨hji, hj⟩⟩, rfl, rfl⟩
      · rintro ⟨j, c, ⟨_, ⟨rfl, _⟩ | ⟨_, hc⟩⟩, rfl, rfl⟩
        · exact absurd rfl hri
        · exact ⟨j, c, hc, rfl, rfl⟩

end Rep

/-! ## One member -/

section Steps

variable {γ : Type} {Q : Except Resp γ → View → Prop} {key : Bytes} {v : View} {s : Members}
  {l : List Bytes} {f : Fams} {m : Meta} {b : Bytes}

/-- The elements of a set. -/
def Rep (s : Members) (f : Fams) : Prop := ∃ l, IsRep s l f

theorem set_mem : SUB_SET ∈ type_subs T_SET := by decide

theorem setpos_mem : SUB_SETPOS ∈ type_subs T_SET := by decide

theorem wp_set_add (helems : Elems T_SET v key f) (hrep : Rep s f) (hm : IsMeta T_SET s.size m)
    (hlen : s.size < 2 ^ 63) (b : Bytes) {g : Bool × Meta → R γ}
    (hg : ∀ v' m' f', Elems T_SET v' key f' → Rep (s.insert b) f' →
      IsMeta T_SET (s.insert b).size m' → OnlyElems T_SET key v v' → (b ∈ s → v' = v) →
      (g (decide (b ∉ s), m')).wp Q v') : (set_add key m b >>= g).wp Q v := by
  obtain ⟨l, hrep⟩ := hrep
  unfold set_add
  rw [bind_assoc]
  refine (wp_get_elem helems set_mem).mpr ?_
  by_cases hb : b ∈ s
  · rw [if_pos ((hrep.isSome b).mpr hb)]
    have hsame := insert_of_mem hb
    have hgo := hg v m f helems ⟨l, hsame.symm ▸ hrep⟩ (hsame.symm ▸ hm)
      (OnlyElems.refl T_SET key v) fun _ => rfl
    rw [decide_eq_false (not_not_intro hb)] at hgo
    exact hgo
  · rw [if_neg fun hsome => hb ((hrep.isSome b).mp hsome)]
    simp only [bind_assoc]
    rw [hm.len_eq]
    refine wp_put_elem helems set_mem rfl fun v₁ helems₁ honly₁ => ?_
    refine wp_put_elem helems₁ setpos_mem rfl fun v₂ helems₂ honly₂ => ?_
    have hgo := hg v₂ { m with len := s.size + 1 } _ helems₂ ⟨_, hrep.add hb hlen⟩
      ⟨hm.type_eq, (size_insert hb).symm, hm.head_eq, hm.tail_eq⟩ (honly₁.trans honly₂)
      fun hin => absurd hin hb
    rw [decide_eq_true hb] at hgo
    exact hgo

theorem wp_fillHole (helems : Elems T_SET v key f) (hrep : IsRep s l f) {i : Nat} {a : Bytes}
    (ha : l[l.length - 1]? = some a) {g : Unit → R γ}
    (hg : ∀ v', Elems T_SET v' key
        ((f.set SUB_SETPOS (seq_bytes i) (some (.bytes a))).set SUB_SET a
          (some (.int (.ofInt i)))) →
      OnlyElems T_SET key v v' → (g ()).wp Q v') :
    (fillHole key i (l.length - 1 : Nat) >>= g).wp Q v := by
  unfold fillHole
  rw [bind_assoc]
  refine (wp_get_elem helems setpos_mem).mpr ?_
  rw [hrep.position_at ha]
  simp only [bind_assoc]
  refine wp_put_elem helems setpos_mem rfl fun v₁ helems₁ honly₁ => ?_
  refine wp_put_elem helems₁ set_mem rfl fun v₂ helems₂ honly₂ => ?_
  exact hg v₂ helems₂ (honly₁.trans honly₂)

theorem wp_set_rem (helems : Elems T_SET v key f) (hrep : Rep s f) (hm : IsMeta T_SET s.size m)
    (hlen : s.size < 2 ^ 63) (b : Bytes) {g : Bool × Meta → R γ}
    (hg : ∀ v' m' f', Elems T_SET v' key f' → Rep (s.erase b) f' →
      IsMeta T_SET (s.erase b).size m' → OnlyElems T_SET key v v' → (b ∉ s → v' = v) →
      (g (decide (b ∈ s), m')).wp Q v') : (set_rem key m b >>= g).wp Q v := by
  obtain ⟨l, hrep⟩ := hrep
  unfold set_rem
  rw [bind_assoc]
  refine (wp_get_elem helems set_mem).mpr ?_
  by_cases hb : b ∈ s
  · obtain ⟨i, hi⟩ := List.mem_iff_getElem?.mp ((hrep.mem b).mpr hb)
    obtain ⟨hil, -⟩ := List.getElem?_eq_some_iff.mp hi
    have ha := List.getElem?_eq_getElem (l := l) (i := l.length - 1) (by omega)
    have hl := hrep.length
    have hlast : (m.len : Int) - 1 = (l.length - 1 : Nat) := by
      rw [hm.len_eq]
      omega
    have hpos : (Int64.ofInt i).toInt = i := Int64.toInt_ofInt_of_le (by omega) (by omega)
    rw [hrep.member_at hi]
    simp only [hpos, hlast]
    have hgo : ∀ v₁ f₁, Elems T_SET v₁ key f₁ → OnlyElems T_SET key v v₁ →
        IsRep (s.erase b) (swap_remove l i) ((f₁.set SUB_SETPOS (seq_bytes (l.length - 1 : Nat))
          none).set SUB_SET b none) →
        (delete (elemKey key SUB_SETPOS (seq_bytes (l.length - 1 : Nat))) >>= fun _ =>
          delete (elemKey key SUB_SET b) >>= fun _ =>
            pure (true, { m with len := m.len - 1 }) >>= g).wp Q v₁ := by
      intro v₁ f₁ helems₁ honly₁ hrep₁
      refine wp_delete_elem helems₁ setpos_mem fun v₂ helems₂ honly₂ => ?_
      refine wp_delete_elem helems₂ set_mem fun v₃ helems₃ honly₃ => ?_
      have hdone := hg v₃ { m with len := m.len - 1 } _ helems₃ ⟨_, hrep₁⟩ ?_
        ((honly₁.trans honly₂).trans honly₃) fun hnot => absurd hb hnot
      · rw [decide_eq_true hb] at hdone
        exact hdone
      · have hsize := size_erase hb
        refine ⟨hm.type_eq, ?_, hm.head_eq, hm.tail_eq⟩
        change m.len - 1 = _
        rw [hm.len_eq]
        omega
    by_cases hne : i = l.length - 1
    · rw [if_neg (by simpa using hne)]
      simp only [bind_assoc, pure_bind]
      subst hne
      obtain rfl := Option.some.inj (hi.symm.trans ha)
      refine hgo v f helems (OnlyElems.refl T_SET key v) (hrep.remove hlen hi ha (fun c => ?_)
        fun r => ?_)
      · rw [Fams.set_self, Function.update_apply, Fams.set_of_ne subs_ne]
        split_ifs <;> rfl
      · rw [Fams.set_of_ne subs_ne.symm, Fams.set_self, Function.update_apply]
        split_ifs <;> rfl
    · rw [if_pos (by simpa using hne)]
      simp only [bind_assoc]
      refine wp_fillHole helems hrep ha fun v₁ helems₁ honly₁ => ?_
      refine hgo v₁ _ helems₁ honly₁ (hrep.remove hlen hi ha (fun c => ?_) fun r => ?_)
      · rw [Fams.set_self, Function.update_apply, Fams.set_of_ne subs_ne, Fams.set_self,
          Function.update_apply, Fams.set_of_ne subs_ne]
      · rw [Fams.set_of_ne subs_ne.symm, Fams.set_self, Function.update_apply,
          Fams.set_of_ne subs_ne.symm, Fams.set_self, Function.update_apply]
  · have hnone : f SUB_SET b = none := by
      by_contra hne
      exact hb ((hrep.isSome b).mp (Option.isSome_iff_ne_none.mpr hne))
    have hsame := erase_of_not_mem hb
    rw [hnone]
    have hgo := hg v m f helems ⟨l, hsame.symm ▸ hrep⟩ (hsame.symm ▸ hm)
      (OnlyElems.refl T_SET key v) fun _ => rfl
    rw [decide_eq_false hb] at hgo
    exact hgo

end Steps

end Sets
end StrikeDB
