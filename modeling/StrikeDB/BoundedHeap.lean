import Mathlib

/-!
# StrikeDB: the best few of a stream

General facts about a heap of bounded capacity that is offered the entries of a stream and
keeps the best of them.  A heap is the list of its entries; which of several equally bad
ones is popped does not matter here.  `offerPop` pushes and pops when the heap is too
full, `offerReplace` makes room before it pushes.

**Results.**
* `Fills.foldl`: what is kept comes from the stream, and is as much as fits.
* `fills_offerPop`, `fills_offerReplace`: both ways fill the heap.
* `length_le_two_mul_dedup`: how many different entries there are when none comes more
  than twice.
-/

namespace StrikeDB
namespace BestOf

universe u v

variable {α : Type u} {F : Type v}

/-- An offer keeps entries it has seen, as many as fit. -/
structure Fills (cap : Nat) (offer : List α → α → List α) : Prop where
  sub : ∀ l a, (offer l a).Subperm (a :: l)
  length : ∀ l a, l.length ≤ cap → (offer l a).length = min cap (l.length + 1)

theorem Fills.foldl_from
    {cap : Nat} {offer : List α → α → List α} (h : Fills cap offer) (as l : List α)
    (hl : l.length ≤ cap) :
    (as.foldl offer l).Subperm (as ++ l) ∧
      (as.foldl offer l).length = min cap (as.length + l.length) := by
  induction as generalizing l with
  | nil => exact ⟨List.Subperm.refl _, by simp; omega⟩
  | cons a as ih =>
      have hlen := h.length l a hl
      obtain ⟨hsub, hlength⟩ := ih (offer l a) (by omega)
      refine ⟨hsub.trans ?_, ?_⟩
      · refine ((List.subperm_append_left as).mpr (h.sub l a)).trans ?_
        exact List.perm_middle.subperm
      · rw [List.foldl_cons, hlength, hlen, List.length_cons]
        omega

/-- What is kept comes from the stream, and is as much as fits. -/
theorem Fills.foldl
    {cap : Nat} {offer : List α → α → List α} (h : Fills cap offer) (as : List α) :
    (as.foldl offer []).Subperm as ∧ (as.foldl offer []).length = min cap as.length := by
  have := h.foldl_from as [] (Nat.zero_le _)
  simpa using this

section Heap

variable [LinearOrder F] (key : α → F)

/-- A worst entry. -/
def worst : List α → Option α
  | [] => none
  | a :: l =>
      match worst l with
      | none => some a
      | some b => if key a ≤ key b then some a else some b

variable {key}

theorem worst_mem {l : List α} {a : α} (h : worst key l = some a) : a ∈ l := by
  induction l with
  | nil => cases h
  | cons b l ih =>
      rw [worst] at h
      cases hw : worst key l with
      | none =>
          simp only [hw, Option.some.injEq] at h
          simp [h]
      | some c =>
          simp only [hw] at h
          split at h
          · simp only [Option.some.injEq] at h
            simp [h]
          · rw [← h] at ih
            simp only [Option.some.injEq] at h
            exact List.mem_cons_of_mem _ (h ▸ ih (by rw [hw]))

theorem worst_isSome {l : List α} (h : l ≠ []) : ∃ a, worst key l = some a := by
  cases l with
  | nil => exact absurd rfl h
  | cons a l =>
      rw [worst]
      cases worst key l with
      | none => exact ⟨a, rfl⟩
      | some b =>
          dsimp only
          split
          · exact ⟨a, rfl⟩
          · exact ⟨b, rfl⟩

variable [DecidableEq α] (key)

/-- The heap without a worst entry. -/
def pop (l : List α) : List α :=
  match worst key l with
  | none => l
  | some a => l.erase a

/-- Skip an entry that is no better than a full heap, otherwise push and pop. -/
def offerPop (cap : Nat) (l : List α) (a : α) : List α :=
  if l.length = cap ∧ (worst key l).any (fun w => key a ≤ key w) then l
  else if cap < (a :: l).length then pop key (a :: l)
  else a :: l

/-- Push while there is room, otherwise replace a worse entry. -/
def offerReplace (cap : Nat) (l : List α) (a : α) : List α :=
  if l.length < cap then a :: l
  else
    match worst key l with
    | none => l
    | some w => if key w < key a then a :: pop key l else l

variable {key}

theorem pop_subperm (l : List α) : (pop key l).Subperm l := by
  rw [pop]
  split
  · exact List.Subperm.refl _
  · exact List.erase_subperm _ _

theorem length_pop {l : List α} (h : l ≠ []) : (pop key l).length = l.length - 1 := by
  obtain ⟨a, ha⟩ : ∃ a, worst key l = some a := worst_isSome h
  rw [pop, ha]
  exact List.length_erase_of_mem (worst_mem ha)

theorem fills_offerPop (key : α → F) (cap : Nat) : Fills cap (offerPop key cap) where
  sub := by
    intro l a
    rw [offerPop]
    split
    · exact (List.sublist_cons_self a l).subperm
    · split
      · exact pop_subperm _
      · exact List.Subperm.refl _
  length := by
    intro l a hl
    rw [offerPop]
    split
    · next hfull => omega
    · split
      · next hover =>
          rw [length_pop (by simp)]
          simp only [List.length_cons] at hover ⊢
          omega
      · next hroom =>
          simp only [List.length_cons] at hroom ⊢
          omega

theorem fills_offerReplace (key : α → F) (cap : Nat) : Fills cap (offerReplace key cap) where
  sub := by
    intro l a
    rw [offerReplace]
    split
    · exact List.Subperm.refl _
    · split
      · exact (List.sublist_cons_self a l).subperm
      · split
        · exact (List.subperm_cons a).mpr (pop_subperm l)
        · exact (List.sublist_cons_self a l).subperm
  length := by
    intro l a hl
    rw [offerReplace]
    split
    · rw [List.length_cons]
      omega
    · next hfull =>
        cases hw : worst key l with
        | none =>
            dsimp only
            omega
        | some w =>
            dsimp only
            split
            · have hne : l ≠ [] := List.ne_nil_of_mem (worst_mem hw)
              have hpos := List.length_pos_iff.mpr hne
              rw [List.length_cons, length_pop hne]
              omega
            · omega

/-- How many different entries there are when none comes more than twice. -/
theorem length_le_two_mul_dedup {l : List α} (h : ∀ a, l.count a ≤ 2) :
    l.length ≤ 2 * l.dedup.length := by
  have hsum : l.length = ∑ a ∈ l.toFinset, l.count a := by
    rw [← Multiset.coe_card, ← Multiset.toFinset_sum_count_eq]
    simp
  have hcard : l.toFinset.card = l.dedup.length := List.card_toFinset l
  calc l.length = ∑ a ∈ l.toFinset, l.count a := hsum
    _ ≤ ∑ _a ∈ l.toFinset, 2 := Finset.sum_le_sum fun a _ => h a
    _ = 2 * l.dedup.length := by rw [Finset.sum_const, hcard, smul_eq_mul, Nat.mul_comm]

end Heap
end BestOf
end StrikeDB
