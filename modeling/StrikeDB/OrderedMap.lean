import Mathlib.Order.Basic
import StrikeDB.SortedPairs

/-!
# StrikeDB: ranges of an ordered map

Reading a range of keys in order and erasing keys one by one, over any map with
keys in a linear order.

* `mem_range`, `range_increasing`: what a range has and in which order.
* `first_lt`: what a limited read leaves out lies behind everything it takes.
* `getElem?_eraseAll`, `size_eraseAll`: what is left when keys were erased.
-/

namespace StrikeDB
namespace OrderedMap

open Std (ExtTreeMap)

variable {K V : Type} [LinearOrder K]

/-- The pairs with a key from `lo` to `hi`, in key order. -/
def range (m : ExtTreeMap K V) (lo hi : K) : List (K × V) :=
  m.toList.filter fun e => lo ≤ e.1 && e.1 ≤ hi

/-- At most `count` of them, or all when `count` is 0. -/
def first {α : Type} (count : Nat) (l : List α) : List α :=
  if count = 0 then l else l.take count

def eraseAll (m : ExtTreeMap K V) (ks : List K) : ExtTreeMap K V := ks.foldl (·.erase ·) m

/-- The keys strictly increase. -/
def Increasing (l : List (K × V)) : Prop := l.Pairwise fun a b => a.1 < b.1

theorem increasing_toList (m : ExtTreeMap K V) : Increasing m.toList := by
  refine List.Pairwise.imp ?_ (keySorted_toList m)
  intro a b hab
  exact compare_lt_iff_lt.mp hab

theorem range_increasing (m : ExtTreeMap K V) (lo hi : K) : Increasing (range m lo hi) :=
  (increasing_toList m).filter _

theorem first_sublist {α : Type} (count : Nat) (l : List α) : (first count l).Sublist l := by
  unfold first
  split
  · exact List.Sublist.refl l
  · exact List.take_sublist _ _

theorem Increasing.first {l : List (K × V)} (h : Increasing l) (count : Nat) :
    Increasing (first count l) :=
  h.sublist (first_sublist count l)

theorem Increasing.nodup_keys {l : List (K × V)} (h : Increasing l) : (l.map Prod.fst).Nodup := by
  rw [List.nodup_iff_pairwise_ne, List.pairwise_map]
  exact h.imp fun hlt => ne_of_lt hlt

/-- What a limited read leaves out lies behind everything it takes. -/
theorem first_lt
    {l : List (K × V)} (h : Increasing l) {count : Nat} {e e' : K × V}
    (hmem : e ∈ l) (hout : e ∉ OrderedMap.first count l) (htaken : e' ∈ OrderedMap.first count l) :
    e'.1 < e.1 := by
  unfold OrderedMap.first at hout htaken
  split at hout
  · exact absurd hmem hout
  · next hcount =>
      rw [if_neg hcount] at htaken
      rw [← List.take_append_drop count l] at hmem h
      rw [List.mem_append] at hmem
      have hback := hmem.resolve_left hout
      exact (List.pairwise_append.mp h).2.2 e' htaken e hback

omit [LinearOrder K] in
/-- A limited read that leaves something out takes as much as it may. -/
theorem length_first_of_not_mem
    {l : List (K × V)} {count : Nat} {e : K × V}
    (hmem : e ∈ l) (hout : e ∉ OrderedMap.first count l) :
    (OrderedMap.first count l).length = count := by
  unfold OrderedMap.first at hout ⊢
  split at hout
  · exact absurd hmem hout
  · next hcount =>
      rw [if_neg hcount, List.length_take, Nat.min_eq_left]
      by_contra hlen
      rw [List.take_of_length_le (by omega)] at hout
      exact hout hmem

variable [Std.LawfulEqOrd K]

theorem mem_range {m : ExtTreeMap K V} {lo hi : K} {e : K × V} :
    e ∈ range m lo hi ↔ m[e.1]? = some e.2 ∧ lo ≤ e.1 ∧ e.1 ≤ hi := by
  rw [range, List.mem_filter, Bool.and_eq_true, decide_eq_true_eq, decide_eq_true_eq,
    ← Std.ExtTreeMap.mem_toList_iff_getElem?_eq_some]

omit [Std.LawfulEqOrd K] in
@[simp] theorem eraseAll_nil (m : ExtTreeMap K V) : eraseAll m [] = m := rfl

omit [Std.LawfulEqOrd K] in
@[simp] theorem eraseAll_cons (m : ExtTreeMap K V) (k : K) (ks : List K) :
    eraseAll m (k :: ks) = eraseAll (m.erase k) ks := rfl

theorem getElem?_erase' (m : ExtTreeMap K V) (k a : K) :
    (m.erase k)[a]? = if a = k then none else m[a]? := by
  rw [Std.ExtTreeMap.getElem?_erase]
  by_cases h : a = k
  · subst h
    simp
  · have hne : compare k a ≠ .eq := fun heq => h (Std.LawfulEqCmp.eq_of_compare heq).symm
    simp [h, hne]

theorem getElem?_insert' (m : ExtTreeMap K V) (k a : K) (v : V) :
    (m.insert k v)[a]? = if a = k then some v else m[a]? := by
  rw [Std.ExtTreeMap.getElem?_insert]
  by_cases h : a = k
  · subst h
    simp
  · have hne : compare k a ≠ .eq := fun heq => h (Std.LawfulEqCmp.eq_of_compare heq).symm
    simp [h, hne]

theorem getElem?_eraseAll (m : ExtTreeMap K V) (ks : List K) (a : K) :
    (eraseAll m ks)[a]? = if a ∈ ks then none else m[a]? := by
  induction ks generalizing m with
  | nil => simp
  | cons k ks ih =>
      rw [eraseAll_cons, ih, getElem?_erase']
      by_cases h : a = k
      · simp [h]
      · simp [h]

omit [Std.LawfulEqOrd K] in
theorem isSome_iff_mem {m : ExtTreeMap K V} {k : K} : m[k]?.isSome ↔ k ∈ m := by
  rw [Std.ExtTreeMap.mem_iff_isSome_getElem?]

theorem size_eraseAll (m : ExtTreeMap K V) {ks : List K} (hnodup : ks.Nodup)
    (hmem : ∀ k ∈ ks, k ∈ m) : (eraseAll m ks).size + ks.length = m.size := by
  induction ks generalizing m with
  | nil => simp
  | cons k ks ih =>
      rw [List.nodup_cons] at hnodup
      obtain ⟨hnot, hnodup⟩ := hnodup
      rw [List.forall_mem_cons] at hmem
      obtain ⟨hk, hks⟩ := hmem
      have hstill : ∀ a ∈ ks, a ∈ m.erase k := by
        intro a ha
        have hne : a ≠ k := by
          rintro rfl
          exact hnot ha
        rw [← isSome_iff_mem, getElem?_erase', if_neg hne, isSome_iff_mem]
        exact hks a ha
      have hrest := ih (m.erase k) hnodup hstill
      have hsize : (m.erase k).size = m.size - 1 := by
        rw [Std.ExtTreeMap.size_erase, if_pos (by simpa using hk)]
      have hpos : m.size ≠ 0 := by
        intro hzero
        rw [← Std.ExtTreeMap.eq_empty_iff_size_eq_zero] at hzero
        simp [hzero] at hk
      rw [eraseAll_cons, List.length_cons]
      omega

omit [Std.LawfulEqOrd K] in
theorem size_insert_of_not_mem (m : ExtTreeMap K V) {k : K} (v : V) (h : m[k]? = none) :
    (m.insert k v).size = m.size + 1 := by
  rw [Std.ExtTreeMap.size_insert, if_neg]
  rw [Std.ExtTreeMap.contains_iff_mem, ← isSome_iff_mem, h]
  simp

end OrderedMap
end StrikeDB
