import StrikeDB.ListCommands

/-!
# StrikeDB: the computations of list commands

What the list commands compute from indices, counts and values, against the operations
on finite sequences that they stand for.

**Results.**
* `norm_range_none`, `norm_range_some`: an index pair cuts a sequence in three.
* `remove_eq`: what LREM leaves, for every count but the smallest integer.
* `findPos_eq`: the indices that LPOS finds.
-/

namespace StrikeDB
namespace Lists

open Ctx

/-! ## Index pairs -/

theorem filter_zipIdx (l : List Bytes) (k : Nat) (low high : Int) :
    ((l.zipIdx k).filter fun x => low ≤ x.2 ∧ (x.2 : Int) ≤ high).map Prod.fst =
      (l.drop (low - k).toNat).take (high + 1 - max low k).toNat := by
  induction l generalizing k with
  | nil => simp
  | cons x xs ih =>
      rw [List.zipIdx_cons, List.filter_cons]
      have ih := ih (k + 1)
      push_cast at ih
      by_cases hlow : low ≤ k
      · have hzero : (low - k).toNat = 0 := by omega
        have hzero' : (low - (k + 1 : Int)).toNat = 0 := by omega
        rw [hzero', List.drop_zero] at ih
        rw [hzero, List.drop_zero]
        by_cases hhigh : (k : Int) ≤ high
        · have hnext : (high + 1 - max low k).toNat = (high + 1 - max low (k + 1)).toNat + 1 := by
            omega
          rw [if_pos (by simp [hlow, hhigh]), List.map_cons, ih, hnext, List.take_succ_cons]
        · have hnone : (high + 1 - max low k).toNat = 0 := by omega
          have hnone' : (high + 1 - max low (k + 1 : Int)).toNat = 0 := by omega
          rw [hnone', List.take_zero] at ih
          rw [if_neg (by simp [hhigh]), ih, hnone, List.take_zero]
      · have hstep : (low - k).toNat = (low - (k + 1)).toNat + 1 := by omega
        have hmax : max low (k : Int) = max low (k + 1) := by omega
        rw [if_neg (by simp [hlow]), ih, hstep, List.drop_succ_cons, hmax]

/-- An index from either end, as it is counted from the front. -/
def fromFront (l : List Bytes) (i : Int) : Int := if i < 0 then i + l.length else i

theorem slice_eq (l : List Bytes) (s e : Int) :
    slice l s e =
      (l.drop (fromFront l s).toNat).take (fromFront l e + 1 - max (fromFront l s) 0).toNat := by
  have hfilter := filter_zipIdx l 0 (fromFront l s) (fromFront l e)
  rw [Nat.cast_zero, sub_zero] at hfilter
  exact hfilter

theorem norm_range_eq (l : List Bytes) (s e : Int) :
    norm_range s e l.length =
      if max (fromFront l s) 0 ≤ min (fromFront l e) (l.length - 1) ∧
          max (fromFront l s) 0 < l.length then
        some (max (fromFront l s) 0, min (fromFront l e) (l.length - 1))
      else none := by
  have hs : (if s < 0 then max ((l.length : Int) + s) 0 else s) = max (fromFront l s) 0 := by
    unfold fromFront
    split <;> omega
  have he : (if e < 0 then (l.length : Int) + e else min e (l.length - 1)) =
      min (fromFront l e) (l.length - 1) := by
    unfold fromFront
    split <;> omega
  unfold norm_range
  rw [hs, he]

theorem norm_range_none {l : List Bytes} {s e : Int} (h : norm_range s e l.length = none) :
    slice l s e = [] := by
  rw [norm_range_eq] at h
  split at h
  · cases h
  · next hempty =>
      rw [slice_eq]
      by_cases hpast : l.length ≤ (fromFront l s).toNat
      · rw [List.drop_of_length_le hpast, List.take_nil]
      · have hzero : (fromFront l e + 1 - max (fromFront l s) 0).toNat = 0 := by omega
        rw [hzero, List.take_zero]

/-- The pair cuts the sequence in three. -/
theorem norm_range_some {l : List Bytes} {s e a b : Int}
    (h : norm_range s e l.length = some (a, b)) :
    ∃ front back, l = front ++ slice l s e ++ back ∧ a = front.length ∧
      b + 1 = front.length + (slice l s e).length := by
  rw [norm_range_eq] at h
  split at h
  · next hsome =>
      rw [Option.some.injEq, Prod.mk.injEq] at h
      obtain ⟨rfl, rfl⟩ := h
      rw [slice_eq]
      generalize fromFront l s = S at hsome ⊢
      generalize fromFront l e = E at hsome ⊢
      refine ⟨l.take S.toNat, (l.drop S.toNat).drop (E + 1 - max S 0).toNat, ?_, ?_, ?_⟩
      · rw [List.append_assoc, List.take_append_drop, List.take_append_drop]
      · rw [List.length_take]
        omega
      · rw [List.length_take, List.length_take, List.length_drop]
        omega
  · cases h

theorem norm_index_eq (l : List Bytes) (i : Int) :
    at_ l i =
      if norm_index i l.length < 0 ∨ norm_index i l.length ≥ l.length then none
      else some (norm_index i l.length).toNat := by
  unfold at_ norm_index
  rw [add_comm i (l.length : Int)]
  generalize (if i < 0 then (l.length : Int) + i else i) = j
  by_cases hin : 0 ≤ j ∧ j < l.length
  · rw [if_pos hin, if_neg (by omega)]
  · rw [if_neg hin, if_pos (by omega)]

/-! ## Removals -/

theorem dropFirst_zero (target : Bytes) (l : List Bytes) : dropFirst target 0 l = l := by
  cases l <;> rfl

theorem length_dropFirst_le (target : Bytes) (n : Nat) (l : List Bytes) :
    (dropFirst target n l).length ≤ l.length := by
  induction l generalizing n with
  | nil => cases n <;> exact le_refl _
  | cons x xs ih =>
      cases n with
      | zero => exact le_refl _
      | succ n =>
          rw [dropFirst]
          split
          · exact Nat.le_succ_of_le (ih n)
          · exact Nat.succ_le_succ (ih (n + 1))

theorem dropFirst_of_length_le {target : Bytes} {n : Nat} {l : List Bytes} (h : l.length ≤ n) :
    dropFirst target n l = l.filter (· ≠ target) := by
  induction l generalizing n with
  | nil => cases n <;> rfl
  | cons x xs ih =>
      cases n with
      | zero => simp at h
      | succ n =>
          rw [List.length_cons] at h
          rw [dropFirst]
          by_cases hx : x = target
          · rw [if_pos hx, List.filter_cons_of_neg (by simp [hx]), ih (by omega)]
          · rw [if_neg hx, List.filter_cons_of_pos (by simp [hx]), ih (by omega)]

theorem removeWhile_eq (target : Bytes) (limit : Int) (l : List Bytes) (n : Nat) :
    removeWhile target limit (limit - n) l =
      (dropFirst target n l, limit - n + (l.length - (dropFirst target n l).length)) := by
  induction l generalizing n with
  | nil => cases n <;> simp [removeWhile, dropFirst]
  | cons x xs ih =>
      cases n with
      | zero =>
          have ih := ih 0
          rw [dropFirst_zero] at ih
          rw [removeWhile, if_neg (by simp), ih, dropFirst_zero, Prod.mk.injEq]
          exact ⟨rfl, by simp⟩
      | succ n =>
          rw [removeWhile, dropFirst]
          by_cases hx : x = target
          · have hnext : limit - ((n + 1 : Nat) : Int) + 1 = limit - n := by
              push_cast
              omega
            rw [if_pos ⟨by push_cast; omega, hx⟩, if_pos hx, hnext, ih n, Prod.mk.injEq,
              List.length_cons]
            refine ⟨rfl, ?_⟩
            push_cast
            omega
          · rw [if_neg fun h => hx h.2, if_neg hx, ih (n + 1), Prod.mk.injEq, List.length_cons,
              List.length_cons]
            refine ⟨rfl, ?_⟩
            push_cast
            omega

theorem length_without_le (target : Bytes) (count : Int) (l : List Bytes) :
    (without target count l).length ≤ l.length := by
  unfold without
  split
  · exact List.length_filter_le ..
  · split
    · exact length_dropFirst_le ..
    · have hlen := length_dropFirst_le target count.natAbs l.reverse
      rw [List.length_reverse] at hlen ⊢
      exact hlen

/-- What LREM removes, for every count that `abs` makes positive. -/
theorem remove_eq {target : Bytes} {count : Int} {l : List Bytes} (hcount : count ≠ -2 ^ 63)
    (hlen : l.length < 2 ^ 63) :
    remove target count l =
      (without target count l, (l.length : Int) - (without target count l).length) := by
  unfold remove without
  have hstart : ∀ (limit : Int) (n : Nat) (l : List Bytes), limit = n →
      removeWhile target limit 0 l =
        (dropFirst target n l, (l.length : Int) - (dropFirst target n l).length) := by
    rintro limit n l rfl
    have hremove := removeWhile_eq target n l n
    rw [sub_self, zero_add] at hremove
    exact hremove
  by_cases hzero : count = 0
  · subst hzero
    simp only [if_true, lt_irrefl, if_false]
    rw [hstart _ (2 ^ 63 - 1) l (by norm_num), dropFirst_of_length_le (by omega)]
  · have habs : abs count = count.natAbs := by
      rw [abs, if_neg hcount]
      exact Int.abs_eq_natAbs count
    simp only [if_neg hzero, habs]
    by_cases hpos : count > 0
    · rw [if_neg (by omega), if_pos hpos, hstart _ count.toNat l (by omega)]
    · rw [if_pos (by omega), if_neg hpos, hstart _ count.natAbs l.reverse rfl]
      simp only [List.length_reverse]

/-! ## Searches -/

/-- The matches of a search from a place on. -/
def matches_ (pat : Bytes) (maxlen : Int) (xs : List Bytes) (idx : Nat) : List Nat :=
  ((xs.zipIdx idx).filter fun x => x.1 = pat ∧ (maxlen = 0 ∨ (x.2 : Int) < maxlen)).map Prod.snd

theorem matches_cons (pat : Bytes) (maxlen : Int) (x : Bytes) (xs : List Bytes) (idx : Nat) :
    matches_ pat maxlen (x :: xs) idx =
      if x = pat ∧ (maxlen = 0 ∨ (idx : Int) < maxlen) then
        idx :: matches_ pat maxlen xs (idx + 1)
      else matches_ pat maxlen xs (idx + 1) := by
  unfold matches_
  rw [List.zipIdx_cons, List.filter_cons]
  split
  · next h => rw [if_pos (of_decide_eq_true h), List.map_cons]
  · next h => rw [if_neg (of_decide_eq_false (Bool.eq_false_of_not_eq_true h))]

theorem matches_past {pat : Bytes} {maxlen : Int} {xs : List Bytes} {idx : Nat}
    (hmax : maxlen ≠ 0) (hpast : (idx : Int) ≥ maxlen) : matches_ pat maxlen xs idx = [] := by
  induction xs generalizing idx with
  | nil => rfl
  | cons x xs ih => rw [matches_cons, if_neg (by omega), ih (by push_cast; omega)]

/-- The search goes through its matches, leaving the first ones out. -/
theorem findPos_matches (pat : Bytes) (len : Int) (o : PosOpts) (xs : List Bytes) (idx skip : Nat)
    (found : List Int) (hroom : found.length < o.want) :
    findPos pat len o xs idx skip found =
      found ++ (((matches_ pat o.maxlen xs idx).drop skip).take (o.want - found.length)).map
        fun j : Nat => if o.rank < 0 then len - 1 - (j : Int) else j := by
  induction xs generalizing idx skip found with
  | nil => simp [findPos, matches_]
  | cons x xs ih =>
      rw [findPos]
      by_cases hpast : o.maxlen ≠ 0 ∧ (idx : Int) ≥ o.maxlen
      · rw [if_pos hpast, matches_past hpast.1 hpast.2]
        simp
      · rw [if_neg hpast, matches_cons]
        by_cases hx : x = pat
        · have hin : x = pat ∧ (o.maxlen = 0 ∨ (idx : Int) < o.maxlen) := ⟨hx, by omega⟩
          rw [if_pos hx, if_pos hin]
          cases skip with
          | succ skip =>
              rw [if_pos (Nat.succ_pos skip), List.drop_succ_cons, ih _ _ _ hroom]
              rfl
          | zero =>
              have hleft : o.want - found.length = (o.want - (found.length + 1)) + 1 := by omega
              rw [if_neg (lt_irrefl 0), List.drop_zero, hleft, List.take_succ_cons, List.map_cons]
              simp only [List.length_append, List.length_singleton]
              by_cases hfull : found.length + 1 ≥ o.want
              · have hnone : o.want - (found.length + 1) = 0 := by omega
                rw [if_pos hfull, hnone, List.take_zero, List.map_nil]
              · rw [if_neg hfull, ih _ _ _ (by
                  rw [List.length_append, List.length_singleton]
                  omega), List.drop_zero, List.length_append, List.length_singleton,
                  List.append_assoc, List.singleton_append]
        · rw [if_neg hx, if_neg fun h => hx h.1, ih _ _ _ hroom]

theorem matches_range (pat : Bytes) (maxlen : Int) (xs : List Bytes) (k : Nat) :
    matches_ pat maxlen xs k =
      (if maxlen = 0 then List.range' k xs.length
        else (List.range' k xs.length).take (maxlen - k).toNat).filter
        fun i => xs[i - k]? = some pat := by
  induction xs generalizing k with
  | nil => simp [matches_]
  | cons x xs ih =>
      have hrest : ∀ is : List Nat, is ⊆ List.range' (k + 1) xs.length →
          is.filter (fun i => decide ((x :: xs)[i - k]? = some pat)) =
            is.filter fun i => decide (xs[i - (k + 1)]? = some pat) := by
        intro is hsub
        refine List.filter_congr fun i hi => ?_
        have hmem := hsub hi
        have hge := (List.mem_range'_1.mp hmem).1
        have hidx : i - k = i - (k + 1) + 1 := by omega
        rw [hidx, List.getElem?_cons_succ]
      have hself : (x :: xs)[k - k]? = some x := by simp
      rw [matches_cons, ih (k + 1), List.length_cons, List.range'_succ]
      by_cases hzero : maxlen = 0
      · rw [if_pos hzero, if_pos hzero, List.filter_cons, hself, hrest _ (List.Subset.refl _)]
        by_cases hx : x = pat
        · rw [if_pos ⟨hx, .inl hzero⟩, if_pos (by simp [hx])]
        · rw [if_neg fun h => hx h.1, if_neg (by simp [hx])]
      · rw [if_neg hzero, if_neg hzero]
        by_cases hin : (k : Int) < maxlen
        · have hnext : (maxlen - k).toNat = (maxlen - ((k + 1 : Nat) : Int)).toNat + 1 := by
            push_cast
            omega
          rw [hnext, List.take_succ_cons, List.filter_cons, hself,
            hrest _ (List.take_subset _ _)]
          by_cases hx : x = pat
          · rw [if_pos ⟨hx, .inr hin⟩, if_pos (by simp [hx])]
          · rw [if_neg fun h => hx h.1, if_neg (by simp [hx])]
        · have hnone : (maxlen - k).toNat = 0 := by omega
          have hnone' : (maxlen - ((k + 1 : Nat) : Int)).toNat = 0 := by
            push_cast
            omega
          rw [if_neg (by omega), hnone, hnone', List.take_zero, List.take_zero, List.filter_nil,
            List.filter_nil]

/-- The order in which a search goes through a sequence. -/
theorem reverse_range (n : Nat) :
    (List.range n).reverse = (List.range n).map fun j => n - 1 - j := by
  refine List.ext_getElem? fun i => ?_
  by_cases hi : i < n
  · rw [List.getElem?_reverse (by simpa using hi), List.getElem?_map, List.getElem?_range hi,
      List.length_range, List.getElem?_range (by omega)]
    rfl
  · rw [List.getElem?_eq_none (by simpa using hi), List.getElem?_eq_none (by simpa using hi)]

/-- The places a search looks at, of a sequence of this length. -/
def seen (maxlen : Int) (n : Nat) : List Nat :=
  if maxlen = 0 then List.range n else (List.range n).take maxlen.toNat

theorem seen_lt {maxlen : Int} {n j : Nat} (h : j ∈ seen maxlen n) : j < n := by
  unfold seen at h
  split at h
  · exact List.mem_range.mp h
  · exact List.mem_range.mp (List.mem_of_mem_take h)

theorem matches_seen (pat : Bytes) (maxlen : Int) (xs : List Bytes) :
    matches_ pat maxlen xs 0 = (seen maxlen xs.length).filter fun i => xs[i]? = some pat := by
  rw [matches_range, seen, List.range_eq_range']
  simp only [Nat.sub_zero, Nat.cast_zero, sub_zero]

/-- A search backwards looks at the places of the reversed sequence. -/
theorem seen_reverse (maxlen : Int) (n : Nat) :
    (if maxlen = 0 then (List.range n).reverse else (List.range n).reverse.take maxlen.toNat) =
      (seen maxlen n).map fun j => n - 1 - j := by
  unfold seen
  split
  · exact reverse_range n
  · rw [reverse_range, List.map_take]

theorem filter_reverse (pat : Bytes) (maxlen : Int) (l : List Bytes) :
    ((seen maxlen l.length).map fun j => l.length - 1 - j).filter (fun i => l[i]? = some pat) =
      (matches_ pat maxlen l.reverse 0).map fun j => l.length - 1 - j := by
  rw [matches_seen, List.length_reverse, List.filter_map]
  refine congrArg _ (List.filter_congr fun j hj => ?_)
  rw [List.getElem?_reverse (seen_lt hj)]
  rfl

theorem take_want {o : PosOpts} {hits : List Nat} (h : hits.length ≤ usize_max) :
    o.cut hits = hits.take o.want := by
  unfold PosOpts.want PosOpts.cut
  cases o.count with
  | none => rfl
  | some c =>
      simp only
      split
      · rw [List.take_of_length_le h]
      · rfl

/-- The indices that the search answers are those of the reference. -/
theorem findPos_eq {pat : Bytes} {o : PosOpts} {l : List Bytes} (hlen : l.length < 2 ^ 63)
    (hcount : ∀ c, o.count = some c → 0 ≤ c) :
    findPos pat l.length o (if o.rank < 0 then l.reverse else l) 0 (o.rank.natAbs - 1) [] =
      positions l pat o := by
  have hwant : ([] : List Int).length < o.want := by
    unfold PosOpts.want usize_max
    cases hc : o.count with
    | none => exact Nat.one_pos
    | some c =>
        have hpos := hcount c hc
        simp only [List.length_nil]
        split <;> omega
  rw [findPos_matches _ _ _ _ _ _ _ hwant, List.nil_append, List.length_nil, Nat.sub_zero]
  have hshort : ∀ xs : List Bytes, xs.length = l.length →
      ((matches_ pat o.maxlen xs 0).drop (o.rank.natAbs - 1)).length ≤ usize_max := by
    intro xs hxs
    have hfilter : (matches_ pat o.maxlen xs 0).length ≤ (seen o.maxlen xs.length).length := by
      rw [matches_seen]
      exact List.length_filter_le ..
    have hseen : (seen o.maxlen xs.length).length ≤ xs.length := by
      unfold seen
      split
      · rw [List.length_range]
      · exact (List.length_take_le' ..).trans_eq List.length_range
    rw [List.length_drop]
    unfold usize_max
    omega
  unfold positions
  by_cases hback : o.rank < 0
  · have hlt : ∀ j ∈ matches_ pat o.maxlen l.reverse 0, j < l.length := by
      intro j hj
      rw [matches_seen] at hj
      have hj := seen_lt (List.mem_filter.mp hj).1
      rw [List.length_reverse] at hj
      exact hj
    simp only [if_pos hback]
    rw [seen_reverse, filter_reverse, ← List.map_drop, take_want (by
      rw [List.length_map]
      exact hshort _ List.length_reverse), ← List.map_take, List.map_map]
    refine List.map_congr_left fun j hj => ?_
    have hj := hlt j (List.mem_of_mem_drop (List.mem_of_mem_take hj))
    simp only [Function.comp_apply]
    omega
  · simp only [if_neg hback]
    rw [matches_seen, ← take_want (by
      rw [← matches_seen]
      exact hshort l rfl)]
    rfl

end Lists
end StrikeDB
