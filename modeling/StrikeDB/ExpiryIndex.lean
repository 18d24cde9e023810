import Std.Data.ExtTreeSet.Lemmas
import StrikeDB.Expiry

/-!
# StrikeDB: the expiry index in memory

The mirror of the durable `exp:` keys: the deadline of every key that has one, and
the same pairs in the order of the deadlines, for the reaper.  That the two agree
and that the fast path `any` is right are part of the type.

**Results.**
* `getElem?_set`: what one change does to the deadlines.
* `get_eq`: the fast path answers as the index does.
* `mem_due`: what the reaper finds.
-/

namespace StrikeDB

/-- A change of the index: the new deadline of a user key, or none. -/
abbrev Change := Bytes × Option UInt64

/-- Deadlines in order, keys with one deadline in key order. -/
abbrev dueOrder : UInt64 × Bytes → UInt64 × Bytes → Ordering :=
  compareLex (compareOn Prod.fst) (compareOn Prod.snd)

instance : Std.LawfulEqCmp dueOrder where
  eq_of_compare {a b} h := by
    obtain ⟨hfst, hsnd⟩ := Ordering.then_eq_eq.mp h
    exact Prod.ext (Std.LawfulEqCmp.eq_of_compare hfst) (Std.LawfulEqCmp.eq_of_compare hsnd)

/-- In-memory mirror of the durable `exp:` keys. -/
structure ExpiryIndex where
  any : Bool
  at_ : Std.ExtTreeMap Bytes UInt64
  order : Std.ExtTreeSet (UInt64 × Bytes) dueOrder
  ordered : ∀ (d : UInt64) (key : Bytes), (d, key) ∈ order ↔ at_[key]? = some d
  fast : any = false → ∀ key : Bytes, at_[key]? = none

namespace ExpiryIndex

theorem getElem?_insert_deadline (m : Std.ExtTreeMap Bytes UInt64) (k a : Bytes) (d : UInt64) :
    (m.insert k d)[a]? = if k = a then some d else m[a]? := by
  simp only [Std.ExtTreeMap.getElem?_insert, Std.LawfulEqCmp.compare_eq_iff_eq]

theorem getElem?_erase_deadline (m : Std.ExtTreeMap Bytes UInt64) (k a : Bytes) :
    (m.erase k)[a]? = if k = a then none else m[a]? := by
  simp only [Std.ExtTreeMap.getElem?_erase, Std.LawfulEqCmp.compare_eq_iff_eq]

/-- `Expiry::clear`, and the index of a new process. -/
def empty : ExpiryIndex where
  any := false
  at_ := ∅
  order := ∅
  ordered := by simp
  fast := by simp

/-- `g.at.remove(key)` and the entry of the order that goes with it. -/
def remove (e : ExpiryIndex) (key : Bytes) : ExpiryIndex :=
  match h : e.at_[key]? with
  | none => e
  | some old =>
      { any := e.any
        at_ := e.at_.erase key
        order := e.order.erase (old, key)
        ordered := by
          intro d k
          rw [Std.ExtTreeSet.mem_erase, getElem?_erase_deadline, e.ordered,
            ne_eq, Std.LawfulEqCmp.compare_eq_iff_eq, Prod.mk.injEq]
          by_cases hk : key = k
          · subst hk
            simp [h]
          · simp [hk]
        fast := by
          intro hany k
          rw [getElem?_erase_deadline, e.fast hany k, ite_self] }

theorem getElem?_remove (e : ExpiryIndex) (key k : Bytes) :
    (e.remove key).at_[k]? = if key = k then none else e.at_[k]? := by
  unfold remove
  split
  · rename_i h
    by_cases hk : key = k
    · rw [if_pos hk, ← hk, h]
    · rw [if_neg hk]
  · exact getElem?_erase_deadline e.at_ key k

/-- `Expiry::set`. -/
def set (e : ExpiryIndex) (key : Bytes) (at_ : Option UInt64) : ExpiryIndex :=
  match at_ with
  | none => e.remove key
  | some d =>
      { any := true
        at_ := (e.remove key).at_.insert key d
        order := (e.remove key).order.insert (d, key)
        ordered := by
          intro d' k
          rw [Std.ExtTreeSet.mem_insert, getElem?_insert_deadline, (e.remove key).ordered,
            getElem?_remove, Std.LawfulEqCmp.compare_eq_iff_eq, Prod.mk.injEq]
          by_cases hk : key = k
          · simp [hk]
          · simp [hk]
        fast := by simp }

@[simp] theorem getElem?_set (e : ExpiryIndex) (key : Bytes) (at_ : Option UInt64) (k : Bytes) :
    (e.set key at_).at_[k]? = if key = k then at_ else e.at_[k]? := by
  cases at_ with
  | none => exact getElem?_remove e key k
  | some d =>
      refine (getElem?_insert_deadline _ key k d).trans ?_
      rw [getElem?_remove]
      by_cases hk : key = k <;> simp [hk]

/-- `Expiry::get`, with its fast path. -/
def get (e : ExpiryIndex) (key : Bytes) : Option UInt64 :=
  if e.any then e.at_[key]? else none

theorem get_eq (e : ExpiryIndex) (key : Bytes) : e.get key = e.at_[key]? := by
  unfold get
  cases hany : e.any with
  | true => rfl
  | false => exact (e.fast hany key).symm

def is_expired (e : ExpiryIndex) (key : Bytes) (now : UInt64) : Bool :=
  match e.get key with
  | some d => d ≤ now
  | none => false

/-- Up to `limit` keys whose deadline has passed. -/
def due (e : ExpiryIndex) (now : UInt64) (limit : Nat) : List Bytes :=
  ((e.order.toList.takeWhile fun p => p.1 ≤ now).take limit).map Prod.snd

/-- The reaper finds every key whose deadline has passed, unless there are more
than it asked for. -/
theorem mem_due (e : ExpiryIndex) (now : UInt64) {limit : Nat} (hlimit : e.order.toList.length ≤ limit)
    (key : Bytes) :
    key ∈ e.due now limit ↔ ∃ d, e.at_[key]? = some d ∧ d ≤ now := by
  have hsorted : ∀ l : List (UInt64 × Bytes), l.Pairwise (fun a b => dueOrder a b = .lt) →
      l.takeWhile (fun p => p.1 ≤ now) = l.filter fun p => p.1 ≤ now := by
    intro l hl
    induction l with
    | nil => rfl
    | cons p l ih =>
        obtain ⟨hp, hl⟩ := List.pairwise_cons.mp hl
        by_cases hle : p.1 ≤ now
        · simp [hle, ih hl]
        · have hrest : l.filter (fun q => q.1 ≤ now) = [] := by
            rw [List.filter_eq_nil_iff]
            intro q hq hqle
            have hfst : (compare p.1 q.1).isLE = true := by
              have hlt := hp q hq
              simp only [dueOrder, compareLex, compareOn, Ordering.then_eq_lt] at hlt
              rcases hlt with hlt | ⟨heq, _⟩
              · rw [hlt]
                rfl
              · rw [heq]
                rfl
            exact hle (UInt64.le_trans (Std.isLE_compare.mp hfst) (of_decide_eq_true hqle))
          simp [hle, hrest]
  have htake : (e.order.toList.filter fun p => p.1 ≤ now).length ≤ limit :=
    (List.length_filter_le _ _).trans hlimit
  rw [due, hsorted _ Std.ExtTreeSet.ordered_toList, List.take_of_length_le htake, List.mem_map]
  constructor
  · rintro ⟨⟨d, k⟩, hmem, rfl⟩
    rw [List.mem_filter, Std.ExtTreeSet.mem_toList, e.ordered, decide_eq_true_eq] at hmem
    exact ⟨d, hmem⟩
  · rintro ⟨d, hd, hle⟩
    refine ⟨(d, key), ?_, rfl⟩
    rw [List.mem_filter, Std.ExtTreeSet.mem_toList, e.ordered, decide_eq_true_eq]
    exact ⟨hd, hle⟩

end ExpiryIndex
end StrikeDB
