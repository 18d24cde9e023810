import Mathlib.Algebra.BigOperators.Group.List.Lemmas
import StrikeDB.StreamGroups

/-!
# StrikeDB: the numbers of pending entries

XPENDING counts the pending entries of a group and of each consumer, and so do
XINFO GROUPS and XINFO CONSUMERS.  `CountsAgree` says that all of them count what
is pending.
-/

namespace StrikeDB
namespace Stream

open OrderedMap

/-! ## Counting by a key -/

section Counting

variable {α β : Type} [DecidableEq β] [BEq β] [LawfulBEq β]

/-- Elements counted by their key: the counts of distinct keys add up. -/
theorem sum_counts
    (f : α → β) (l : List α) {ks : List β} (hnodup : ks.Nodup) (hall : ∀ a ∈ l, f a ∈ ks) :
    (ks.map fun k => (l.filter fun a => f a == k).length).sum = l.length := by
  induction l with
  | nil => simp
  | cons a l ih =>
      rw [List.forall_mem_cons] at hall
      obtain ⟨ha, hall⟩ := hall
      have hone : ∀ ks : List β, (ks.map fun k => if f a == k then 1 else 0).sum = ks.count (f a) := by
        intro ks
        induction ks with
        | nil => simp
        | cons k ks ih =>
            rw [List.map_cons, List.sum_cons, ih, List.count_cons, add_comm, BEq.comm]
      have hsplit : ∀ k, ((a :: l).filter fun a => f a == k).length =
          (if f a == k then 1 else 0) + (l.filter fun a => f a == k).length := by
        intro k
        rw [List.filter_cons]
        split
        · rw [List.length_cons, add_comm]
        · rw [zero_add]
      simp only [hsplit, List.sum_map_add]
      rw [hone, List.count_eq_one_of_mem hnodup ha, ih hall, List.length_cons, add_comm]

/-- One more for a key, at the place it has or at the end. -/
def countKey : List (β × Nat) → β → List (β × Nat)
  | [], k => [(k, 1)]
  | (k', n) :: per, k => if k' = k then (k', n + 1) :: per else (k', n) :: countKey per k

theorem keys_countKey (per : List (β × Nat)) (k : β) :
    (countKey per k).map Prod.fst =
      if k ∈ per.map Prod.fst then per.map Prod.fst else per.map Prod.fst ++ [k] := by
  induction per with
  | nil => simp [countKey]
  | cons e per ih =>
      obtain ⟨k', n⟩ := e
      rw [countKey]
      by_cases hk : k' = k
      · simp [hk]
      · have hne : k ≠ k' := fun h => hk h.symm
        rw [if_neg hk, List.map_cons, ih]
        by_cases hmem : k ∈ per.map Prod.fst
        · simp [hmem]
        · simp only [List.map_cons, List.mem_cons, hne, hmem, or_self, if_false, List.cons_append]

omit [BEq β] [LawfulBEq β] in
theorem mem_countKey
    {per : List (β × Nat)} (hnodup : (per.map Prod.fst).Nodup) {k k' : β} {n : Nat}
    (h : (k', n) ∈ countKey per k) :
    (k' ≠ k ∧ (k', n) ∈ per) ∨
      (k' = k ∧ ((∃ m, (k, m) ∈ per ∧ n = m + 1) ∨ k ∉ per.map Prod.fst ∧ n = 1)) := by
  induction per with
  | nil =>
      rw [countKey, List.mem_singleton] at h
      cases h
      exact Or.inr ⟨rfl, Or.inr ⟨by simp, rfl⟩⟩
  | cons e per ih =>
      obtain ⟨k₀, m⟩ := e
      rw [List.map_cons, List.nodup_cons] at hnodup
      obtain ⟨hnot, hnodup⟩ := hnodup
      rw [countKey] at h
      split at h
      · next hk =>
          subst hk
          rw [List.mem_cons] at h
          rcases h with heq | hmem
          · cases heq
            exact Or.inr ⟨rfl, Or.inl ⟨m, List.mem_cons_self, rfl⟩⟩
          · refine Or.inl ⟨?_, List.mem_cons_of_mem _ hmem⟩
            rintro rfl
            exact hnot (List.mem_map.mpr ⟨_, hmem, rfl⟩)
      · next hk =>
          rw [List.mem_cons] at h
          rcases h with heq | hmem
          · cases heq
            exact Or.inl ⟨hk, List.mem_cons_self⟩
          · rcases ih hnodup hmem with ⟨hne, hin⟩ | ⟨rfl, ⟨m', hin, hn⟩ | ⟨hout, hn⟩⟩
            · exact Or.inl ⟨hne, List.mem_cons_of_mem _ hin⟩
            · exact Or.inr ⟨rfl, Or.inl ⟨m', List.mem_cons_of_mem _ hin, hn⟩⟩
            · refine Or.inr ⟨rfl, Or.inr ⟨?_, hn⟩⟩
              rw [List.map_cons, List.mem_cons, not_or]
              exact ⟨fun heq => hk heq.symm, hout⟩

/-- Elements counted by their key, in the order in which keys come first. -/
def countKeys (f : α → β) (l : List α) : List (β × Nat) :=
  l.foldl (fun per a => countKey per (f a)) []

/-- Every key is listed once, with the number of elements that have it. -/
theorem countKeys_spec (f : α → β) (l : List α) :
    ((countKeys f l).map Prod.fst).Nodup ∧
      (∀ k, k ∈ (countKeys f l).map Prod.fst ↔ k ∈ l.map f) ∧
      ∀ k n, (k, n) ∈ countKeys f l → n = (l.filter fun a => f a == k).length := by
  induction l using List.reverseRecOn with
  | nil => simp [countKeys]
  | append_singleton l a ih =>
      obtain ⟨hnodup, hkeys, hcounts⟩ := ih
      have hsnoc : countKeys f (l ++ [a]) = countKey (countKeys f l) (f a) := by
        simp [countKeys]
      rw [hsnoc]
      refine ⟨?_, ?_, ?_⟩
      · rw [keys_countKey]
        split
        · exact hnodup
        · next hnot => simpa using hnodup.concat hnot
      · intro k
        rw [keys_countKey, List.map_append, List.mem_append, ← hkeys]
        split
        · next hmem =>
            constructor
            · exact Or.inl
            · rintro (hk | hk)
              · exact hk
              · rw [List.map_singleton, List.mem_singleton] at hk
                exact hk ▸ hmem
        · simp
      · intro k n hmem
        rw [List.filter_append, List.length_append]
        rcases mem_countKey hnodup hmem with ⟨hne, hin⟩ | ⟨rfl, ⟨m, hin, rfl⟩ | ⟨hout, rfl⟩⟩
        · have hneq : (f a == k) = false := by
            rw [beq_eq_false_iff_ne]
            exact hne.symm
          simp [hneq, hcounts k n hin]
        · simp [hcounts (f a) m hin]
        · have hnone : l.filter (fun b => f b == f a) = [] := by
            rw [List.filter_eq_nil_iff]
            intro b hb heq
            rw [beq_iff_eq] at heq
            exact hout ((hkeys (f a)).mpr (List.mem_map.mpr ⟨b, hb, heq⟩))
          simp [hnone]

end Counting

/-! ## XPENDING and XINFO -/

/-- All pending entries of a group. -/
def pending (d : KeyData) (g : Bytes) : List (Id × Pel) := d.pel_range g ID_MIN ID_MAX

/-- `sort` on consumers with their counts. -/
def leOwner (a b : Bytes × Nat) : Bool :=
  (compare a.1 b.1).then (compare a.2 b.2) != .gt

/-- The consumers in a summary, with their counts. -/
def perOwner (d : KeyData) (g : Bytes) : List (Bytes × Nat) :=
  (countKeys (fun e : Id × Pel => e.2.owner) (pending d g)).mergeSort leOwner

/-- XPENDING without a range. -/
def xpendingSummary (d : KeyData) (g : Bytes) : Resp :=
  match pending d g with
  | [] => .array [.int 0, .nil, .nil, .nilArray]
  | e :: es =>
      .array [.int (.ofNat (e :: es).length), id_resp e.1, id_resp ((e :: es).getLast (by simp)).1,
        .array ((perOwner d g).map fun o => .array [.bulk o.1, .bulk (Text.natText o.2)])]

/-- The consumers that XINFO CONSUMERS lists, with what is pending for each. -/
def consumersPending (d : KeyData) (g : Bytes) : List (Bytes × Nat) :=
  (d.consumers g).map fun e => (e.1, ((pending d g).filter fun p => p.2.owner == e.1).length)

theorem length_pending (d : KeyData) (g : Bytes) : (pending d g).length = (d.pels g).size := by
  have hall : pending d g = (d.pels g).toList := by
    refine List.filter_eq_self.mpr ?_
    intro e _
    simp [ID_MIN_le, le_ID_MAX]
  rw [hall, Std.ExtTreeMap.length_toList]

theorem length_ownPels (d : KeyData) (g c : Bytes) :
    (ownPels d g c).length = ((pending d g).filter fun e => e.2.owner == c).length :=
  List.length_map ..

theorem perm_perOwner (d : KeyData) (g : Bytes) :
    (perOwner d g).Perm (countKeys (fun e : Id × Pel => e.2.owner) (pending d g)) :=
  List.mergeSort_perm _ _

/-- The counts of a group and of its consumers. -/
structure CountsAgree (d : KeyData) (g : Bytes) : Prop where
  total : (pending d g).length = (d.pels g).size
  owners : ((perOwner d g).map Prod.fst).Nodup
  ofOwner : ∀ c n, (c, n) ∈ perOwner d g → n = (ownPels d g c).length
  ofConsumer : ∀ c n, (c, n) ∈ consumersPending d g → n = (ownPels d g c).length
  sumOwners : ((perOwner d g).map Prod.snd).sum = (pending d g).length

theorem countsAgree (d : KeyData) (g : Bytes) : CountsAgree d g := by
  obtain ⟨hnodup, hkeys, hcounts⟩ := countKeys_spec (fun e : Id × Pel => e.2.owner) (pending d g)
  have hperm := perm_perOwner d g
  constructor
  · exact length_pending d g
  · exact (hperm.map _).nodup_iff.mpr hnodup
  · intro c n hmem
    rw [length_ownPels]
    exact hcounts c n (hperm.mem_iff.mp hmem)
  · intro c n hmem
    rw [consumersPending, List.mem_map] at hmem
    obtain ⟨e, _, heq⟩ := hmem
    cases heq
    rw [length_ownPels]
  · rw [(hperm.map Prod.snd).sum_eq]
    have hsum := sum_counts (fun e : Id × Pel => e.2.owner) (pending d g) hnodup
      (fun e he => (hkeys _).mpr (List.mem_map.mpr ⟨e, he, rfl⟩))
    rw [← hsum, List.map_map]
    refine congrArg List.sum (List.map_congr_left ?_)
    rintro ⟨c, n⟩ hmem
    exact hcounts c n hmem

/-- Where every pending entry belongs to a consumer that is listed, the counts of
the consumers listed add up to the count of the group. -/
theorem sum_consumersPending
    {d : KeyData} {g : Bytes}
    (hlisted : ∀ e ∈ pending d g, e.2.owner ∈ (d.consumers g).map Prod.fst) :
    ((consumersPending d g).map Prod.snd).sum = (pending d g).length := by
  have hnodup : ((d.consumers g).map Prod.fst).Nodup := by
    have hsub : ((d.consumers g).map Prod.fst).Sublist (d.cons g).keys := by
      rw [← Std.ExtTreeMap.map_fst_toList_eq_keys]
      exact List.filter_sublist.map _
    exact hsub.nodup Std.ExtTreeMap.nodup_keys
  rw [← sum_counts (fun e : Id × Pel => e.2.owner) (pending d g) hnodup hlisted, consumersPending,
    List.map_map, List.map_map]
  rfl

end Stream
end StrikeDB
