import Mathlib.Data.List.Perm.Subperm
import Mathlib.Data.List.Sort
import Std.Data.ExtTreeMap.Lemmas

/-!
# StrikeDB: lists of pairs in key order

General facts about lists of key-value pairs with strictly increasing keys, as
the traversal of an ordered map yields them: such a list is determined by its
members (`KeySorted.eq_of_mem_iff`).  A part of such a list that has its first
members starts with them (`KeySorted.take_eq_take`).
-/

namespace StrikeDB

variable {K V : Type} [Ord K]

/-- The first pair has the smaller key. -/
def KeyLt (a b : K × V) : Prop := compare a.1 b.1 = .lt

/-- Keys strictly increase along the list. -/
def KeySorted (l : List (K × V)) : Prop := l.Pairwise KeyLt

theorem KeyLt.irrefl [Std.ReflOrd K] (a : K × V) : ¬ KeyLt a a := by
  simp [KeyLt]

theorem KeyLt.asymm [Std.OrientedOrd K] {a b : K × V} (h : KeyLt a b) : ¬ KeyLt b a := by
  have hswap : compare b.1 a.1 = (compare a.1 b.1).swap := Std.OrientedCmp.eq_swap
  simp [KeyLt, hswap, show compare a.1 b.1 = .lt from h]

theorem KeyLt.key_ne [Std.ReflOrd K] {a b : K × V} (h : KeyLt a b) : a.1 ≠ b.1 := by
  intro heq
  have hself : compare a.1 b.1 = .lt := h
  simp [heq] at hself

instance [Std.ReflOrd K] : Std.Irrefl (KeyLt (K := K) (V := V)) := ⟨KeyLt.irrefl⟩

instance [Std.OrientedOrd K] : Std.Antisymm (KeyLt (K := K) (V := V)) :=
  ⟨fun _ _ h h' => absurd h' h.asymm⟩

namespace KeySorted

/-- A list in key order is determined by its members. -/
theorem eq_of_mem_iff
    [Std.OrientedOrd K] {l l' : List (K × V)} (h : KeySorted l) (h' : KeySorted l')
    (hmem : ∀ e, e ∈ l ↔ e ∈ l') :
    l = l' :=
  List.Pairwise.eq_of_mem_iff h h' hmem

theorem filter {l : List (K × V)} (h : KeySorted l) (p : K × V → Bool) :
    KeySorted (l.filter p) :=
  List.Pairwise.filter p h

/-- Dropping pairs and changing values keeps the order. -/
theorem filterMap
    {W : Type} {l : List (K × V)} (h : KeySorted l) {f : K × V → Option (K × W)}
    (hf : ∀ e e', f e = some e' → e'.1 = e.1) :
    KeySorted (l.filterMap f) := by
  unfold KeySorted
  rw [List.pairwise_filterMap]
  refine List.Pairwise.imp ?_ h
  intro a b hab a' ha' b' hb'
  unfold KeyLt at *
  rw [hf a a' ha', hf b b' hb']
  exact hab

/-- What is early in a list is as early in a part of it. -/
theorem mem_take_of_subset [Std.OrientedOrd K] {l part : List (K × V)} (h : KeySorted l)
    (hpart : KeySorted part) (hsub : ∀ e ∈ part, e ∈ l) {n : Nat} {e : K × V}
    (he : e ∈ l.take n) (hmem : e ∈ part) : e ∈ part.take n := by
  induction n generalizing l part with
  | zero => simp at he
  | succ n ih =>
      cases l with
      | nil => simp at he
      | cons a l =>
          cases part with
          | nil => cases hmem
          | cons b part =>
              obtain ⟨hlow, hrest⟩ := List.pairwise_cons.mp h
              obtain ⟨hlow', hrest'⟩ := List.pairwise_cons.mp hpart
              rw [List.take_succ_cons, List.mem_cons] at he ⊢
              rcases List.mem_cons.mp hmem with rfl | hmem'
              · exact .inl rfl
              · right
                rcases List.mem_cons.mp (hsub b (List.mem_cons_self ..)) with rfl | hb
                · refine ih hrest hrest' ?_ ?_ hmem'
                  · intro c hc
                    rcases List.mem_cons.mp (hsub c (List.mem_cons_of_mem _ hc)) with rfl | hc'
                    · exact absurd (hlow' _ hc) (KeyLt.irrefl _)
                    · exact hc'
                  · rcases he with rfl | he
                    · exact absurd (hlow' _ hmem') (KeyLt.irrefl _)
                    · exact he
                · have hab := hlow b hb
                  refine ih hrest hrest' ?_ ?_ hmem'
                  · intro c hc
                    rcases List.mem_cons.mp (hsub c (List.mem_cons_of_mem _ hc)) with rfl | hc'
                    · exact absurd hab (hlow' _ hc).asymm
                    · exact hc'
                  · rcases he with rfl | he
                    · exact absurd hab (hlow' _ hmem').asymm
                    · exact he

theorem nodup [Std.ReflOrd K] {l : List (K × V)} (h : KeySorted l) : l.Nodup := by
  refine List.Pairwise.imp (fun {a b} hlt => ?_) h
  rintro rfl
  exact KeyLt.irrefl _ hlt

/-- A part that has the first `n` members starts with them. -/
theorem take_eq_take [Std.OrientedOrd K] {l part : List (K × V)} (h : KeySorted l)
    (hpart : KeySorted part) (hsub : ∀ e ∈ part, e ∈ l) {n : Nat}
    (hfirst : ∀ e ∈ l.take n, e ∈ part) : part.take n = l.take n := by
  have hlen : part.length ≤ l.length := (hpart.nodup.subperm hsub).length_le
  have hstart : (l.take n).Subperm (part.take n) :=
    (h.nodup.sublist (List.take_sublist n l)).subperm fun e he =>
      mem_take_of_subset h hpart hsub he (hfirst e he)
  have hperm := hstart.perm_of_length_le (by
    rw [List.length_take, List.length_take]
    omega)
  exact eq_of_mem_iff (List.Pairwise.take hpart) (List.Pairwise.take h) fun e => hperm.symm.mem_iff

end KeySorted

/-- Sorting distinct keys puts them in key order. -/
theorem keySorted_mergeSort [Std.TransOrd K] [Std.LawfulEqOrd K] {l : List (K × V)} (h : l.Pairwise fun a b => a.1 ≠ b.1) :
    KeySorted (l.mergeSort fun a b => (compare a.1 b.1).isLE) := by
  have hle : (l.mergeSort fun a b => (compare a.1 b.1).isLE).Pairwise
      fun a b => (compare a.1 b.1).isLE = true := by
    refine List.pairwise_mergeSort (fun a b c hab hbc => ?_) ?_ l
    · exact Std.TransCmp.isLE_trans hab hbc
    · intro a b
      have hswap : compare b.1 a.1 = (compare a.1 b.1).swap := Std.OrientedCmp.eq_swap
      rw [hswap]
      cases compare a.1 b.1 <;> rfl
  have hne : (l.mergeSort fun a b => (compare a.1 b.1).isLE).Pairwise fun a b => a.1 ≠ b.1 :=
    (List.Perm.pairwise_iff Ne.symm (List.mergeSort_perm l _)).mpr h
  refine hle.imp₂ (fun {a b} hab hne => ?_) hne
  rw [KeyLt]
  cases hcmp : compare a.1 b.1 with
  | lt => rfl
  | eq => exact absurd (Std.LawfulEqCmp.eq_of_compare hcmp) hne
  | gt =>
      rw [hcmp] at hab
      cases hab

theorem keySorted_toList [Std.TransOrd K] (t : Std.ExtTreeMap K V) : KeySorted t.toList :=
  Std.ExtTreeMap.ordered_keys_toList

end StrikeDB
