import StrikeDB.JsonNumbers
import StrikeDB.JsonStrings

/-!
# StrikeDB: the syntax tree of a document

A document has one syntax tree: a reader that takes every number and every string and builds the
tree would return it.

**Results.**
* `Document.unique`: a text is written from one document only.
* `Tree.all_and`, `Tree.all_congr`: predicates about all numbers and strings.
-/

namespace StrikeDB
namespace Payload

/-! ## All numbers and strings -/

section All

variable {pn pn' : Number → Prop} {ps ps' : List Item → Prop}

mutual

theorem Tree.all_and (t : Tree) :
    t.All (fun n => pn n ∧ pn' n) (fun s => ps s ∧ ps' s) ↔ t.All pn ps ∧ t.All pn' ps' := by
  cases t with
  | null => exact (and_self_iff).symm
  | bool b => exact (and_self_iff).symm
  | num n => exact Iff.rfl
  | str s => exact Iff.rfl
  | arr ts => exact Trees.all_and ts
  | obj ms => exact Members.all_and ms

theorem Trees.all_and (ts : Trees) :
    ts.All (fun n => pn n ∧ pn' n) (fun s => ps s ∧ ps' s) ↔ ts.All pn ps ∧ ts.All pn' ps' := by
  cases ts with
  | nil => exact (and_self_iff).symm
  | cons t ts =>
      simp only [Trees.All]
      rw [Tree.all_and t, Trees.all_and ts, and_and_and_comm]

theorem Members.all_and (ms : Members) :
    ms.All (fun n => pn n ∧ pn' n) (fun s => ps s ∧ ps' s) ↔ ms.All pn ps ∧ ms.All pn' ps' := by
  cases ms with
  | nil => exact (and_self_iff).symm
  | cons k t ms =>
      simp only [Members.All]
      rw [Tree.all_and t, Members.all_and ms]
      tauto

end

theorem Tree.all_congr (hn : ∀ n, pn n ↔ pn' n) (hs : ∀ s, ps s ↔ ps' s) (t : Tree) :
    t.All pn ps ↔ t.All pn' ps' := by
  obtain rfl : pn = pn' := funext fun n => propext (hn n)
  obtain rfl : ps = ps' := funext fun s => propext (hs s)
  exact Iff.rfl

/-- Some number or some string of a document. -/
def Tree.Has (pn : Number → Prop) (ps : List Item → Prop) (t : Tree) : Prop :=
  ¬ t.All (fun n => ¬ pn n) fun s => ¬ ps s

end All

/-! ## Trees as values -/

def Trees.ofList : List Tree → Trees
  | [] => .nil
  | t :: l => .cons t (ofList l)

def Members.ofList : List (List Item × Tree) → Members
  | [] => .nil
  | (k, t) :: l => .cons k t (ofList l)

def Trees.toList : Trees → List Tree
  | .nil => []
  | .cons t ts => t :: ts.toList

def Members.toList : Members → List (List Item × Tree)
  | .nil => []
  | .cons k t ms => (k, t) :: ms.toList

theorem Trees.ofList_toList : (ts : Trees) → Trees.ofList ts.toList = ts
  | .nil => rfl
  | .cons t ts => by rw [toList, ofList, ofList_toList ts]

theorem Members.ofList_toList : (ms : Members) → Members.ofList ms.toList = ms
  | .nil => rfl
  | .cons k t ms => by rw [toList, ofList, ofList_toList ms]

/-- The documents themselves. -/
def trees : Algebra (List Item) (List (List Item × Tree)) Tree where
  null := .null
  bool := .bool
  str := .str
  arr l := .arr (.ofList l)
  empty := []
  insert m k t := m ++ [(k, t)]
  obj m := .obj (.ofList m)

mutual

theorem Tree.eval_trees (t : Tree) : t.eval trees (fun n => some (.num n)) some = some t := by
  cases t with
  | null => rfl
  | bool b => rfl
  | num n => rfl
  | str s => rfl
  | arr ts =>
      rw [Tree.eval, Trees.eval_trees ts]
      exact congrArg (fun ts => some (Tree.arr ts)) ts.ofList_toList
  | obj ms =>
      rw [Tree.eval, Members.eval_trees ms]
      exact congrArg (fun ms => some (Tree.obj ms)) ms.ofList_toList

theorem Trees.eval_trees (ts : Trees) :
    ts.eval trees (fun n => some (.num n)) some = some ts.toList := by
  cases ts with
  | nil => rfl
  | cons t ts =>
      rw [Trees.eval, Tree.eval_trees t, Trees.eval_trees ts]
      rfl

theorem Members.eval_trees (ms : Members) (m : List (List Item × Tree)) :
    ms.eval trees (fun n => some (.num n)) some m = some (m ++ ms.toList) := by
  cases ms with
  | nil => exact congrArg some (List.append_nil m).symm
  | cons k t ms =>
      rw [Members.eval, Tree.eval_trees t]
      change ms.eval trees _ _ (m ++ [(k, t)]) = _
      rw [Members.eval_trees ms, List.append_assoc]
      rfl

end

/-! ## One tree -/

section Any

open Classical

/-- A reader of all strings. -/
noncomputable def anyString (p : P) : Except String (List Item × P) :=
  if h : ∃ x : List Item × P, ∃ w, SpellsString x.1 w ∧ p.rest = w ++ x.2.rest then .ok h.choose
  else .error ""

/-- A reader of all numbers. -/
noncomputable def anyNumber (p : P) : Except String (Tree × P) :=
  if h : ∃ x : Number × P, x.1.bytes ≠ [] ∧ p.rest = x.1.bytes ++ x.2.rest ∧ Stops x.2.rest then
    .ok (.num h.choose.1, h.choose.2)
  else .error ""

end Any

theorem P.eq_of_rest {p : P} {rest : Bytes} (h : p.rest = rest) : p = { i := p.i, rest := rest } := by
  subst h
  rfl

theorem reads_anyString : ReadsStrings anyString some where
  sound p x p' h := by
    unfold anyString at h
    split_ifs at h with hex
    obtain ⟨w, hw, hrest⟩ := hex.choose_spec
    rw [Except.ok.inj h] at hw hrest
    exact ⟨x, w, hw, hrest, rfl⟩
  complete s w x i rest hw hx := by
    cases hx
    have hex : ∃ x : List Item × P, ∃ w', SpellsString x.1 w' ∧ w ++ rest = w' ++ x.2.rest :=
      ⟨(s, ⟨i, rest⟩), w, hw, rfl⟩
    obtain ⟨w', hw', hrest⟩ := hex.choose_spec
    obtain ⟨hs, hr⟩ := hw.append_inj hw' hrest
    refine ⟨hex.choose.2.i, ?_⟩
    unfold anyString
    rw [dif_pos hex]
    exact congrArg Except.ok (Prod.ext hs.symm (P.eq_of_rest hr.symm))

theorem reads_anyNumber : ReadsNumbers anyNumber fun n => some (.num n) where
  sound p x p' h := by
    unfold anyNumber at h
    split_ifs at h with hex
    obtain ⟨hne, hrest, -⟩ := hex.choose_spec
    obtain ⟨rfl, rfl⟩ := Prod.mk.inj (Except.ok.inj h)
    exact ⟨_, hne, hrest, rfl⟩
  complete n x i rest hne hx hstop := by
    cases hx
    have hex : ∃ x : Number × P, x.1.bytes ≠ [] ∧ n.bytes ++ rest = x.1.bytes ++ x.2.rest ∧
        Stops x.2.rest := ⟨(n, ⟨i, rest⟩), hne, rfl, hstop⟩
    obtain ⟨-, hrest, hstop'⟩ := hex.choose_spec
    obtain ⟨hn, hr⟩ := Number.bytes_append_inj hrest hstop hstop'
    refine ⟨hex.choose.2.i, ?_⟩
    unfold anyNumber
    rw [dif_pos hex]
    exact congrArg Except.ok (Prod.ext (congrArg Tree.num hn.symm) (P.eq_of_rest hr.symm))

/-- A text is written from one document only. -/
theorem Document.unique {b : Bytes} {t t' : Tree} (h : Document b t) (h' : Document b t') :
    t = t' := by
  have ht := document_complete reads_anyString reads_anyNumber h t.eval_trees
    (Nat.lt_succ_self b.length)
  rw [document_complete reads_anyString reads_anyNumber h' t'.eval_trees
    (Nat.lt_succ_self b.length)] at ht
  exact (Except.ok.inj ht).symm

end Payload
end StrikeDB
