import Mathlib.Algebra.BigOperators.Group.List.Basic
import Mathlib.Algebra.Order.BigOperators.Group.List
import Mathlib.Data.List.Nodup
import Mathlib.Data.List.Perm.Subperm
import Mathlib.Tactic

/-!
# StrikeDB: filling a budget greedily

Items are taken in the order of a list as long as they fit, and some must be taken
whether they fit or not.  What does not fit is passed over, and smaller items behind it may
still be taken.

**Results.**
* `mem_keep_split`: an item is taken exactly when it fits behind those taken before it.
* `keep_eq_filter`: that property determines what is taken.
* `keep_stable`: in another order that puts no item that was passed over before one that
  was taken and stood before it, the same items are taken.
-/

namespace StrikeDB
namespace Greedy

variable {α : Type} (size : α → Nat) (must : α → Bool) (cap : Nat)

/-- Sum of the sizes. -/
def total (l : List α) : Nat := (l.map size).sum

/-- The items taken when `used` is in use already. -/
def keep : List α → Nat → List α
  | [], _ => []
  | x :: l, used =>
      if must x || used + size x ≤ cap then x :: keep l (used + size x) else keep l used

@[simp] theorem total_nil : total size [] = 0 := rfl

@[simp] theorem total_cons (x : α) (l : List α) : total size (x :: l) = size x + total size l := rfl

@[simp] theorem total_append (l l' : List α) : total size (l ++ l') = total size l + total size l' := by
  simp [total]

theorem total_perm {l l' : List α} (h : l.Perm l') : total size l = total size l' :=
  (h.map size).sum_eq

theorem total_sublist {l l' : List α} (h : l.Sublist l') : total size l ≤ total size l' :=
  (h.map size).sum_le_sum fun _ _ => Nat.zero_le _

theorem total_subset {l l' : List α} (hl : l.Nodup) (h : l ⊆ l') : total size l ≤ total size l' := by
  obtain ⟨m, hperm, hsub⟩ := hl.subperm h
  rw [← total_perm size hperm]
  exact total_sublist size hsub

theorem keep_sublist (l : List α) (used : Nat) : (keep size must cap l used).Sublist l := by
  induction l generalizing used with
  | nil => exact List.Sublist.slnil
  | cons x l ih =>
      rw [keep]
      split
      · exact (ih _).cons_cons x
      · exact (ih _).cons x

theorem keep_append (l l' : List α) (used : Nat) :
    keep size must cap (l ++ l') used =
      keep size must cap l used ++
        keep size must cap l' (used + total size (keep size must cap l used)) := by
  induction l generalizing used with
  | nil => rfl
  | cons x l ih =>
      rw [List.cons_append, keep, keep]
      split
      · rw [ih, List.cons_append, total_cons, Nat.add_assoc]
      · rw [ih]

/-- An item is taken exactly when it fits behind those taken before it. -/
theorem mem_keep_split {pre post : List α} {x : α} (h : (pre ++ x :: post).Nodup) (used : Nat) :
    x ∈ keep size must cap (pre ++ x :: post) used ↔
      must x = true ∨ used + total size (keep size must cap pre used) + size x ≤ cap := by
  obtain ⟨_, hcons, hcross⟩ := List.nodup_append.mp h
  have hpost := (List.nodup_cons.mp hcons).1
  have hbefore : x ∉ keep size must cap pre used := fun hx =>
    hcross x ((keep_sublist size must cap pre used).subset hx) x List.mem_cons_self rfl
  have hafter : ∀ n, x ∉ keep size must cap post n := fun n hx =>
    hpost ((keep_sublist size must cap post n).subset hx)
  rw [keep_append, List.mem_append, or_iff_right hbefore, keep]
  split
  · rename_i hfit
    simpa using hfit
  · rename_i hfit
    refine iff_of_false (hafter _) ?_
    simpa using hfit

/-- The property of `mem_keep_split` determines what is taken. -/
theorem keep_eq_filter {S : α → Bool} {l : List α} {used : Nat}
    (h : ∀ pre x post, l = pre ++ x :: post →
      (S x = true ↔ must x = true ∨ used + total size (pre.filter S) + size x ≤ cap)) :
    keep size must cap l used = l.filter S := by
  induction l generalizing used with
  | nil => rfl
  | cons x l ih =>
      have hx := h [] x l rfl
      rw [List.filter_nil, total_nil, Nat.add_zero] at hx
      rw [keep]
      split
      · rename_i hfit
        have hS : S x = true := hx.mpr (by simpa using hfit)
        rw [List.filter_cons_of_pos hS, ih]
        intro pre y post hl
        have hy := h (x :: pre) y post (by rw [hl]; rfl)
        rw [List.filter_cons_of_pos hS, total_cons] at hy
        rw [hy, ← Nat.add_assoc used]
      · rename_i hfit
        have hS : ¬ S x = true := fun hS => hfit (by simpa using hx.mp hS)
        rw [List.filter_cons_of_neg hS, ih]
        intro pre y post hl
        have hy := h (x :: pre) y post (by rw [hl]; rfl)
        rwa [List.filter_cons_of_neg hS] at hy

/-- With those that must be taken in front, the items fit together as soon as one was taken
because it fits. -/
theorem total_keep_le {l : List α} (hfirst : l.Pairwise fun a b => must b = true → must a = true)
    {used : Nat} (h : ∃ x ∈ keep size must cap l used, ¬ must x = true) :
    used + total size (keep size must cap l used) ≤ cap := by
  induction l generalizing used with
  | nil =>
      obtain ⟨x, hx, _⟩ := h
      cases hx
  | cons x l ih =>
      obtain ⟨hhead, hrest⟩ := List.pairwise_cons.mp hfirst
      rw [keep] at h ⊢
      split
      · rename_i hfit
        rw [if_pos hfit] at h
        rw [total_cons, ← Nat.add_assoc]
        obtain ⟨y, hy, hmust⟩ := h
        by_cases hx : must x = true
        · refine ih hrest ⟨y, ?_, hmust⟩
          rcases List.mem_cons.mp hy with rfl | hy
          · exact absurd hx hmust
          · exact hy
        · cases hkeep : keep size must cap l (used + size x) with
          | nil => simpa [hx] using hfit
          | cons z rest =>
              have hz : z ∈ keep size must cap l (used + size x) := by simp [hkeep]
              rw [← hkeep]
              refine ih hrest ⟨z, hz, fun hmz => hx (hhead z ?_ hmz)⟩
              exact (keep_sublist size must cap l _).subset hz
      · rename_i hfit
        rw [if_neg hfit] at h
        exact ih hrest h

theorem sublist_pair {l : List α} {x y : α} {pre post : List α} (hl : l = pre ++ x :: post)
    (hy : y ∈ pre) : [y, x].Sublist l := by
  rw [hl]
  exact (List.singleton_sublist.mpr hy).append (List.singleton_sublist.mpr List.mem_cons_self)

/-- In another order the same items are taken, if none that was passed over has come before
one that was taken and stood before it. -/
theorem keep_stable {l l' : List α} [DecidableEq α] (hl : l.Nodup) (hperm : l.Perm l')
    (hfirst : l.Pairwise fun a b => must b = true → must a = true)
    (horder : ∀ x y, y ∈ keep size must cap l 0 → x ∉ keep size must cap l 0 →
      [y, x].Sublist l → ¬ [x, y].Sublist l') :
    keep size must cap l' 0 = l'.filter (· ∈ keep size must cap l 0) := by
  refine keep_eq_filter size must cap fun pre x post hl' => ?_
  have hnodup' := hperm.nodup_iff.mp hl
  rw [hl'] at hnodup'
  have hpre' := (List.nodup_append.mp hnodup').1
  have hx : x ∈ l := hperm.mem_iff.mpr (by simp [hl'])
  obtain ⟨before, after, hsplit⟩ := List.append_of_mem hx
  have htaken := mem_keep_split size must cap (hsplit ▸ hl) 0
  rw [← hsplit] at htaken
  rw [decide_eq_true_eq, htaken, Nat.zero_add, Nat.zero_add]
  refine or_congr_right' fun hmust => ?_
  rw [Bool.not_eq_true] at hmust
  constructor
  · intro hfit
    have hkept : x ∈ keep size must cap l 0 := htaken.mpr (Or.inr (by omega))
    have hle := total_keep_le size must cap hfirst ⟨x, hkept, by simp [hmust]⟩
    have hsub : total size (pre.filter (· ∈ keep size must cap l 0) ++ [x]) ≤
        total size (keep size must cap l 0) := by
      refine total_subset size ?_ ?_
      · rw [List.nodup_append]
        refine ⟨hpre'.filter _, List.nodup_singleton x, ?_⟩
        rintro a ha b hb rfl
        rw [List.mem_singleton] at hb
        subst hb
        exact (List.nodup_append.mp hnodup').2.2 a (List.mem_of_mem_filter ha) a List.mem_cons_self rfl
      · intro a ha
        rcases List.mem_append.mp ha with ha | ha
        · simpa using (List.mem_filter.mp ha).2
        · rw [List.mem_singleton] at ha
          exact ha ▸ hkept
    rw [total_append, total_cons, total_nil] at hsub
    omega
  · intro hfit
    by_contra hnot
    have hpassed : x ∉ keep size must cap l 0 := by
      rw [htaken]
      simp only [hmust, Bool.false_eq_true, false_or]
      omega
    have hsub : total size (keep size must cap before 0) ≤
        total size (pre.filter (· ∈ keep size must cap l 0)) := by
      have hbefore : before.Nodup := by
        rw [hsplit] at hl
        exact (List.nodup_append.mp hl).1
      refine total_subset size (hbefore.sublist (keep_sublist size must cap before 0)) ?_
      intro y hy
      have hyk : y ∈ keep size must cap l 0 := by
        rw [hsplit, keep_append]
        exact List.mem_append_left _ hy
      have hyb : y ∈ before := (keep_sublist size must cap before 0).subset hy
      have hyl' : y ∈ l' := hperm.mem_iff.mp ((keep_sublist size must cap l 0).subset hyk)
      rw [List.mem_filter]
      refine ⟨?_, by simpa using hyk⟩
      rw [hl'] at hyl'
      rcases List.mem_append.mp hyl' with hmem | hmem
      · exact hmem
      · rcases List.mem_cons.mp hmem with rfl | hmem
        · exact absurd hyk hpassed
        · refine absurd ?_ (horder x y hyk hpassed (sublist_pair hsplit hyb))
          rw [hl']
          exact ((List.singleton_sublist.mpr hmem).cons_cons x).trans (List.sublist_append_right _ _)
    omega

end Greedy
end StrikeDB
