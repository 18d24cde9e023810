import Mathlib.Algebra.BigOperators.Group.Finset.Basic
import Mathlib.Algebra.Order.BigOperators.Group.Finset
import Mathlib.Data.Finset.Lattice.Fold
import Mathlib.Tactic

/-!
# StrikeDB: replicas that exchange their states

A replicated object is kept by any number of replicas.  A replica changes its
own state by a local update, sends an encoding of its whole state, and merges
the states it decodes into its own.  Whatever was sent stays in a bag, so that a
state arrives in any order, any number of times, or never.

Every local update has a number, its place in the log.  `known i` is the set of
updates that replica `i` has received: its own, and those that the senders of
the states it merged had received.  It is not part of the object; nothing the
object computes depends on it.

**Results.**
* `Object.run_holds`: what the start, an update and a merge establish about a
  state and the set of updates behind it holds of every replica in every run.
* `Object.Sound.converge`: where that fixes the state, replicas that know the
  same updates are in the same state.
* `Object.joins_sound`: an object with a view in a join semilattice, which the
  updates raise and the merge joins, is the join of its updates.
* `Object.tallies_sound`: an object that counts in cells, where an update of a
  cell is made in the knowledge of the earlier updates of that cell, has counted
  every update it knows once.
-/

namespace StrikeDB
namespace Exchange

variable {ι σ υ μ : Type*}

/-- What a replica does with its state. -/
structure Object (σ υ μ : Type*) where
  start : σ
  update : υ → σ → σ
  merge : σ → σ → σ
  encode : σ → μ
  decode : μ → Option σ

/-- A local update: what its replica knew before it, and the state it left. -/
structure Event (σ υ : Type*) where
  update : υ
  seen : Finset ℕ
  post : σ

/-- The replicas, what each one knows, all that was ever sent, and the updates
in the order in which they were made. -/
structure Config (ι σ υ μ : Type*) where
  replica : ι → σ
  known : ι → Finset ℕ
  bag : List (μ × Finset ℕ)
  log : List (Event σ υ)

/-- What happens next: an update at a replica, a replica sends its state, or a
state that was sent reaches a replica. -/
inductive Action (ι υ : Type*)
  | update (i : ι) (u : υ)
  | send (i : ι)
  | deliver (i : ι) (k : ℕ)

namespace Object

variable (O : Object σ υ μ)

def initial : Config ι σ υ μ where
  replica _ := O.start
  known _ := ∅
  bag := []
  log := []

variable [DecidableEq ι]

/-- A state that does not decode, or was never sent, leaves the replica alone. -/
def step (c : Config ι σ υ μ) : Action ι υ → Config ι σ υ μ
  | .update i u =>
      { c with
        replica := Function.update c.replica i (O.update u (c.replica i))
        known := Function.update c.known i (insert c.log.length (c.known i))
        log := c.log ++ [⟨u, c.known i, O.update u (c.replica i)⟩] }
  | .send i => { c with bag := c.bag ++ [(O.encode (c.replica i), c.known i)] }
  | .deliver i k =>
      match c.bag[k]? with
      | none => c
      | some m =>
        match O.decode m.1 with
        | none => c
        | some s =>
          { c with
            replica := Function.update c.replica i (O.merge (c.replica i) s)
            known := Function.update c.known i (c.known i ∪ m.2) }

def run (c : Config ι σ υ μ) (as : List (Action ι υ)) : Config ι σ υ μ :=
  as.foldl O.step c

/-- A relation between the log, a state and the updates behind that state which
the start, the updates and the merges establish, in the runs whose log is
admitted by `Ok`. -/
structure Sound (Ok : List (Event σ υ) → Prop)
    (Good : List (Event σ υ) → σ → Finset ℕ → Prop) : Prop where
  shorter : ∀ l e, Ok (l ++ [e]) → Ok l
  start : Good [] O.start ∅
  longer : ∀ l e s H, Ok (l ++ [e]) → H ⊆ Finset.range l.length → Good l s H → Good (l ++ [e]) s H
  update : ∀ l u s H, Ok (l ++ [⟨u, H, O.update u s⟩]) → H ⊆ Finset.range l.length → Good l s H →
    Good (l ++ [⟨u, H, O.update u s⟩]) (O.update u s) (insert l.length H)
  merge : ∀ l s t H K, Ok l → Good l s H → Good l t K → Good l (O.merge s t) (H ∪ K)
  travels : ∀ l s H, Ok l → Good l s H → O.decode (O.encode s) = some s

/-- What a run keeps: every replica, and every state that was sent, stands for
the updates it is said to stand for. -/
structure Kept (Good : List (Event σ υ) → σ → Finset ℕ → Prop) (c : Config ι σ υ μ) : Prop where
  replicas : ∀ i, c.known i ⊆ Finset.range c.log.length ∧ Good c.log (c.replica i) (c.known i)
  sent : ∀ m ∈ c.bag, m.2 ⊆ Finset.range c.log.length ∧
    ∃ s, m.1 = O.encode s ∧ Good c.log s m.2

section Induction

variable {O} {Ok : List (Event σ υ) → Prop} {Good : List (Event σ υ) → σ → Finset ℕ → Prop}

omit [DecidableEq ι] in
theorem Sound.initial (h : O.Sound Ok Good) :
    O.Kept Good (O.initial (ι := ι)) := by
  constructor
  · intro i
    exact ⟨Finset.empty_subset _, h.start⟩
  · intro m hm
    cases hm

theorem range_subset_succ {H : Finset ℕ} {n : ℕ} (h : H ⊆ Finset.range n) :
    H ⊆ Finset.range (n + 1) :=
  h.trans (Finset.range_subset_range.mpr (Nat.le_succ n))

theorem Sound.update_kept
    (h : O.Sound Ok Good)
    {c : Config ι σ υ μ}
    (hc : O.Kept Good c)
    (i : ι) (u : υ)
    (hok : Ok (O.step c (.update i u)).log) :
    O.Kept Good (O.step c (.update i u)) := by
  simp only [step] at hok ⊢
  obtain ⟨hseen, hgood⟩ := hc.replicas i
  constructor
  · intro j
    simp only [List.length_append, List.length_singleton]
    by_cases hj : j = i
    · subst hj
      simp only [Function.update_self]
      constructor
      · refine Finset.insert_subset (Finset.mem_range.mpr (Nat.lt_succ_self _)) ?_
        exact range_subset_succ hseen
      · exact h.update _ _ _ _ hok hseen hgood
    · simp only [Function.update_of_ne hj]
      obtain ⟨hk, hg⟩ := hc.replicas j
      exact ⟨range_subset_succ hk, h.longer _ _ _ _ hok hk hg⟩
  · intro m hm
    simp only [List.length_append, List.length_singleton]
    obtain ⟨hk, s, hs, hg⟩ := hc.sent m hm
    exact ⟨range_subset_succ hk, s, hs, h.longer _ _ _ _ hok hk hg⟩

theorem Sound.send_kept {c : Config ι σ υ μ} (hc : O.Kept Good c) (i : ι) :
    O.Kept Good (O.step c (.send i)) := by
  constructor
  · exact hc.replicas
  · intro m hm
    simp only [step, List.mem_append, List.mem_singleton] at hm
    rcases hm with hm | rfl
    · exact hc.sent m hm
    · obtain ⟨hk, hg⟩ := hc.replicas i
      exact ⟨hk, c.replica i, rfl, hg⟩

theorem Sound.deliver_kept
    (h : O.Sound Ok Good)
    {c : Config ι σ υ μ}
    (hc : O.Kept Good c)
    (i : ι) (k : ℕ)
    (hok : Ok c.log) :
    O.Kept Good (O.step c (.deliver i k)) := by
  simp only [step]
  cases hm : c.bag[k]? with
  | none => exact hc
  | some m =>
      obtain ⟨hsent, s, hs, hg⟩ := hc.sent m (List.mem_of_getElem? hm)
      have harrives : O.decode m.1 = some s := by
        rw [hs]
        exact h.travels _ _ _ hok hg
      simp only [harrives]
      constructor
      · intro j
        by_cases hj : j = i
        · subst hj
          simp only [Function.update_self]
          obtain ⟨hk, hgj⟩ := hc.replicas j
          exact ⟨Finset.union_subset hk hsent, h.merge _ _ _ _ _ hok hgj hg⟩
        · simp only [Function.update_of_ne hj]
          exact hc.replicas j
      · exact hc.sent

end Induction

/-- The log only grows. -/
theorem step_log (c : Config ι σ υ μ) (a : Action ι υ) :
    (O.step c a).log = c.log ∨ ∃ e, (O.step c a).log = c.log ++ [e] := by
  cases a with
  | update i u => exact Or.inr ⟨_, rfl⟩
  | send i => exact Or.inl rfl
  | deliver i k =>
      left
      simp only [step]
      split
      · rfl
      · split <;> rfl

/-- Replicas that know the same updates are in the same state. -/
def Agree (c : Config ι σ υ μ) : Prop :=
  ∀ i j, c.known i = c.known j → c.replica i = c.replica j

variable {O} {Ok : List (Event σ υ) → Prop} {Good : List (Event σ υ) → σ → Finset ℕ → Prop}

theorem Sound.ok_before (h : O.Sound Ok Good) (c : Config ι σ υ μ) (a : Action ι υ)
    (hok : Ok (O.step c a).log) : Ok c.log := by
  rcases O.step_log c a with heq | ⟨e, heq⟩
  · exact heq ▸ hok
  · exact h.shorter _ e (heq ▸ hok)

theorem Sound.step_kept
    (h : O.Sound Ok Good)
    {c : Config ι σ υ μ}
    (hc : O.Kept Good c)
    (a : Action ι υ)
    (hok : Ok (O.step c a).log) :
    O.Kept Good (O.step c a) := by
  cases a with
  | update i u => exact h.update_kept hc i u hok
  | send i => exact Sound.send_kept hc i
  | deliver i k => exact h.deliver_kept hc i k (h.ok_before c _ hok)

theorem Sound.ok_start (h : O.Sound Ok Good) (c : Config ι σ υ μ) (as : List (Action ι υ))
    (hok : Ok (O.run c as).log) : Ok c.log := by
  induction as generalizing c with
  | nil => exact hok
  | cons a as ih => exact h.ok_before c a (ih (O.step c a) hok)

/-- Every replica of every run stands for the updates it knows. -/
theorem Sound.run_holds
    (h : O.Sound Ok Good)
    {c : Config ι σ υ μ}
    (hc : O.Kept Good c)
    (as : List (Action ι υ))
    (hok : Ok (O.run c as).log) :
    O.Kept Good (O.run c as) := by
  induction as generalizing c with
  | nil => exact hc
  | cons a as ih => exact ih (h.step_kept hc a (h.ok_start (O.step c a) as hok)) hok

/-- Replicas that know the same updates are in the same state, where a state is
fixed by the updates behind it. -/
theorem Sound.converge
    (h : O.Sound Ok Good)
    (hfix : ∀ l s t H, Ok l → Good l s H → Good l t H → s = t)
    (as : List (Action ι υ))
    (hok : Ok (O.run O.initial as).log) :
    Agree (O.run O.initial as) := by
  intro i j hknown
  have hkept := h.run_holds h.initial as hok
  refine hfix _ _ _ _ hok (hkept.replicas i).2 ?_
  rw [hknown]
  exact (hkept.replicas j).2

end Object

/-! ## Objects that join -/

section Joins

variable {α : Type*} [SemilatticeSup α] [OrderBot α] (view : σ → α)

/-- The view of the state that update `k` left. -/
def postView (l : List (Event σ υ)) (k : ℕ) : α :=
  match l[k]? with
  | none => ⊥
  | some e => view e.post

theorem postView_append {l : List (Event σ υ)} {k : ℕ} (e : Event σ υ) (h : k < l.length) :
    postView view (l ++ [e]) k = postView view l k := by
  simp [postView, List.getElem?_append_left h]

theorem postView_last (l : List (Event σ υ)) (e : Event σ υ) :
    postView view (l ++ [e]) l.length = view e.post := by
  simp [postView]

/-- The view of a state is the join of what the updates behind it left. -/
def Joined (l : List (Event σ υ)) (s : σ) (H : Finset ℕ) : Prop :=
  view s = H.sup (postView view l)

theorem sup_postView_append {l : List (Event σ υ)} {H : Finset ℕ} (e : Event σ υ)
    (h : H ⊆ Finset.range l.length) :
    H.sup (postView view (l ++ [e])) = H.sup (postView view l) :=
  Finset.sup_congr rfl fun _ hk => postView_append view e (Finset.mem_range.mp (h hk))

/-- What an object keeps beside its view: it never mentions the updates behind a
state. -/
structure Object.Keeps (O : Object σ υ μ) (Ok : List (Event σ υ) → Prop)
    (Inv : List (Event σ υ) → σ → Prop) : Prop where
  shorter : ∀ l e, Ok (l ++ [e]) → Ok l
  start : Inv [] O.start
  longer : ∀ l e s, Inv l s → Inv (l ++ [e]) s
  update : ∀ l u s H, Ok (l ++ [⟨u, H, O.update u s⟩]) → Inv l s →
    Inv (l ++ [⟨u, H, O.update u s⟩]) (O.update u s)
  merge : ∀ l s t, Inv l s → Inv l t → Inv l (O.merge s t)
  travels : ∀ l s, Ok l → Inv l s → O.decode (O.encode s) = some s

theorem Object.joins_sound
    {O : Object σ υ μ} {Ok : List (Event σ υ) → Prop} {Inv : List (Event σ υ) → σ → Prop}
    (hkeeps : O.Keeps Ok Inv)
    (hstart : view O.start = ⊥)
    (hupdate : ∀ u s, view s ≤ view (O.update u s))
    (hmerge : ∀ s t, view (O.merge s t) = view s ⊔ view t) :
    O.Sound Ok fun l s H => Inv l s ∧ Joined view l s H where
  shorter := hkeeps.shorter
  start := ⟨hkeeps.start, hstart⟩
  longer l e s H _ hH hs :=
    ⟨hkeeps.longer l e s hs.1, hs.2.trans (sup_postView_append view e hH).symm⟩
  update l u s H hok hH hs := by
    refine ⟨hkeeps.update l u s H hok hs.1, ?_⟩
    show view (O.update u s) = _
    rw [Finset.sup_insert, postView_last, sup_postView_append view _ hH, ← hs.2]
    exact (sup_eq_left.mpr (hupdate u s)).symm
  merge l s t H K _ hs ht := by
    refine ⟨hkeeps.merge l s t hs.1 ht.1, ?_⟩
    show view (O.merge s t) = _
    rw [hmerge, Finset.sup_union, hs.2, ht.2]
  travels l s H hok hs := hkeeps.travels l s hok hs.1

end Joins

/-! ## Objects that count -/

section Tallies

variable {κ : Type*}

/-- Cells that saturate at `bound`, and what an update adds to which of them. -/
structure Counting (σ υ κ : Type*) where
  bound : ℕ
  tally : σ → κ → ℕ
  cell : υ → κ
  amount : υ → ℕ

namespace Counting

variable (C : Counting σ υ κ)

/-- What update `k` adds to a cell. -/
def share [DecidableEq κ] (l : List (Event σ υ)) (c : κ) (k : ℕ) : ℕ :=
  match l[k]? with
  | none => 0
  | some e => if C.cell e.update = c then C.amount e.update else 0

/-- An update of a cell is made on a state that has received every earlier update
of that cell. -/
def Ordered (l : List (Event σ υ)) : Prop :=
  ∀ k (e : Event σ υ), l[k]? = some e → ∀ j (e' : Event σ υ), j < k → l[j]? = some e' →
    C.cell e'.update = C.cell e.update → j ∈ e.seen

/-- With an update of a cell come the earlier ones of that cell. -/
def Closed (l : List (Event σ υ)) (H : Finset ℕ) : Prop :=
  ∀ k ∈ H, ∀ e : Event σ υ, l[k]? = some e → ∀ j (e' : Event σ υ), j < k → l[j]? = some e' →
    C.cell e'.update = C.cell e.update → j ∈ H

/-- Every update that is known has been counted, once. -/
def Counted [DecidableEq κ] (l : List (Event σ υ)) (s : σ) (H : Finset ℕ) : Prop :=
  ∀ c, C.tally s c = min C.bound (∑ k ∈ H, C.share l c k)

variable {C}

theorem Ordered.shorter {l : List (Event σ υ)} {e : Event σ υ} (h : C.Ordered (l ++ [e])) :
    C.Ordered l := by
  intro k f hk j f' hj hf'
  have hlt := (List.getElem?_eq_some_iff.mp hk).1
  refine h k f ?_ j f' hj ?_
  · rw [List.getElem?_append_left hlt]
    exact hk
  · rw [List.getElem?_append_left (hj.trans hlt)]
    exact hf'

section Sums

variable [DecidableEq κ]

theorem share_append {l : List (Event σ υ)} {k : ℕ} (e : Event σ υ) (c : κ) (h : k < l.length) :
    C.share (l ++ [e]) c k = C.share l c k := by
  simp [share, List.getElem?_append_left h]

theorem share_last (l : List (Event σ υ)) (e : Event σ υ) (c : κ) :
    C.share (l ++ [e]) c l.length = if C.cell e.update = c then C.amount e.update else 0 := by
  simp [share]

theorem sum_share_append {l : List (Event σ υ)} {H : Finset ℕ} (e : Event σ υ) (c : κ)
    (h : H ⊆ Finset.range l.length) :
    ∑ k ∈ H, C.share (l ++ [e]) c k = ∑ k ∈ H, C.share l c k :=
  Finset.sum_congr rfl fun _ hk => share_append e c (Finset.mem_range.mp (h hk))

end Sums

theorem Closed.longer {l : List (Event σ υ)} {H : Finset ℕ} (e : Event σ υ)
    (hH : H ⊆ Finset.range l.length) (h : C.Closed l H) :
    C.Closed (l ++ [e]) H := by
  intro k hk f hf j f' hj hf'
  have hlt := Finset.mem_range.mp (hH hk)
  rw [List.getElem?_append_left hlt] at hf
  rw [List.getElem?_append_left (hj.trans hlt)] at hf'
  exact h k hk f hf j f' hj hf'

theorem Closed.update {l : List (Event σ υ)} {H : Finset ℕ} {e : Event σ υ}
    (hH : H ⊆ Finset.range l.length) (h : C.Closed l H)
    (hord : C.Ordered (l ++ [e])) (hseen : e.seen = H) :
    C.Closed (l ++ [e]) (insert l.length H) := by
  intro k hk f hf j f' hj hf' hcell
  rcases Finset.mem_insert.mp hk with rfl | hk
  · have hlast : (l ++ [e])[l.length]? = some e := by simp
    obtain rfl : e = f := Option.some.inj (hlast.symm.trans hf)
    have hj' := hord l.length e hf j f' hj hf' hcell
    rw [hseen] at hj'
    exact Finset.mem_insert_of_mem hj'
  · exact Finset.mem_insert_of_mem (h.longer e hH k hk f hf j f' hj hf' hcell)

theorem Closed.union {l : List (Event σ υ)} {H K : Finset ℕ}
    (hH : C.Closed l H) (hK : C.Closed l K) :
    C.Closed l (H ∪ K) := by
  intro k hk f hf j f' hj hf' hcell
  rcases Finset.mem_union.mp hk with hk | hk
  · exact Finset.mem_union_left _ (hH k hk f hf j f' hj hf' hcell)
  · exact Finset.mem_union_right _ (hK k hk f hf j f' hj hf' hcell)

variable [DecidableEq κ]

/-- The updates of one cell are received in order, so of two closed sets one has
all that the other has for that cell. -/
theorem Closed.chain {l : List (Event σ υ)} {H K : Finset ℕ}
    (hH : C.Closed l H) (hK : C.Closed l K) (c : κ) :
    (∀ k ∈ H, C.share l c k ≠ 0 → k ∈ K) ∨ (∀ k ∈ K, C.share l c k ≠ 0 → k ∈ H) := by
  by_contra hno
  push Not at hno
  obtain ⟨⟨j, hjH, hj, hjK⟩, k, hkK, hk, hkH⟩ := hno
  have hfind : ∀ i, C.share l c i ≠ 0 → ∃ e, l[i]? = some e ∧ C.cell e.update = c := by
    intro i hi
    unfold share at hi
    split at hi
    · exact absurd rfl hi
    · rename_i e he
      by_cases hcell : C.cell e.update = c
      · exact ⟨e, he, hcell⟩
      · rw [if_neg hcell] at hi
        exact absurd rfl hi
  obtain ⟨e, he, hec⟩ := hfind j hj
  obtain ⟨f, hf, hfc⟩ := hfind k hk
  rcases lt_trichotomy j k with hlt | rfl | hgt
  · exact hjK (hK k hkK f hf j e hlt he (hec.trans hfc.symm))
  · exact hjK hkK
  · exact hkH (hH j hjH e he k f hgt hf (hfc.trans hec.symm))

omit [DecidableEq κ] in
theorem sum_union_of_chain {f : ℕ → ℕ} {H K : Finset ℕ} (h : ∀ k ∈ H, f k ≠ 0 → k ∈ K) :
    ∑ k ∈ H ∪ K, f k = ∑ k ∈ K, f k ∧ ∑ k ∈ H, f k ≤ ∑ k ∈ K, f k := by
  have hunion : ∑ k ∈ H ∪ K, f k = ∑ k ∈ K, f k := by
    refine (Finset.sum_subset Finset.subset_union_right ?_).symm
    intro k hk hout
    by_contra hne
    rcases Finset.mem_union.mp hk with hk | hk
    · exact hout (h k hk hne)
    · exact hout hk
  refine ⟨hunion, ?_⟩
  rw [← hunion]
  exact Finset.sum_le_sum_of_subset Finset.subset_union_left

theorem Counted.union {l : List (Event σ υ)} {s t st : σ} {H K : Finset ℕ}
    (hs : C.Counted l s H) (ht : C.Counted l t K)
    (hH : C.Closed l H) (hK : C.Closed l K)
    (hmerge : ∀ c, C.tally st c = max (C.tally s c) (C.tally t c)) :
    C.Counted l st (H ∪ K) := by
  intro c
  rw [hmerge, hs c, ht c]
  rcases hH.chain hK c with hchain | hchain
  · obtain ⟨hsum, hle⟩ := sum_union_of_chain hchain
    rw [hsum]
    omega
  · obtain ⟨hsum, hle⟩ := sum_union_of_chain hchain
    rw [Finset.union_comm, hsum]
    omega

end Counting

theorem Object.tallies_sound
    [DecidableEq κ]
    (C : Counting σ υ κ)
    {O : Object σ υ μ} {Ok : List (Event σ υ) → Prop} {Inv : List (Event σ υ) → σ → Prop}
    (hkeeps : O.Keeps Ok Inv)
    (hordered : ∀ l, Ok l → C.Ordered l)
    (hstart : ∀ c, C.tally O.start c = 0)
    (hupdate : ∀ u s c, C.tally (O.update u s) c =
      if C.cell u = c then min C.bound (C.tally s c + C.amount u) else C.tally s c)
    (hmerge : ∀ s t c, C.tally (O.merge s t) c = max (C.tally s c) (C.tally t c)) :
    O.Sound Ok fun l s H => Inv l s ∧ C.Closed l H ∧ C.Counted l s H where
  shorter := hkeeps.shorter
  start := by
    refine ⟨hkeeps.start, ?_, ?_⟩
    · intro k hk
      cases hk
    · intro c
      rw [hstart c]
      simp
  longer l e s H _ hH hs := by
    refine ⟨hkeeps.longer l e s hs.1, hs.2.1.longer e hH, ?_⟩
    intro c
    rw [hs.2.2 c, Counting.sum_share_append e c hH]
  update l u s H hok hH hs := by
    refine ⟨hkeeps.update l u s H hok hs.1, hs.2.1.update hH (hordered _ hok) rfl, ?_⟩
    intro c
    have hfresh : l.length ∉ H := by
      intro hmem
      exact Nat.lt_irrefl _ (Finset.mem_range.mp (hH hmem))
    rw [Finset.sum_insert hfresh, Counting.share_last, Counting.sum_share_append _ c hH, hupdate,
      hs.2.2 c]
    by_cases hcell : C.cell u = c
    · rw [if_pos hcell, if_pos hcell]
      show min C.bound (min C.bound _ + C.amount u) = min C.bound (C.amount u + _)
      generalize ∑ k ∈ H, C.share l c k = total
      omega
    · rw [if_neg hcell, if_neg hcell, Nat.zero_add]
  merge l s t H K _ hs ht :=
    ⟨hkeeps.merge l s t hs.1 ht.1, hs.2.1.union ht.2.1,
      hs.2.2.union ht.2.2 hs.2.1 ht.2.1 (hmerge s t)⟩
  travels l s H hok hs := hkeeps.travels l s hok hs.1

end Tallies

end Exchange
end StrikeDB
