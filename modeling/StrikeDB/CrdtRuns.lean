import StrikeDB.Crdt
import StrikeDB.Exchange

/-!
# StrikeDB: replicas of the conflict-free types

Each of the three types as a replicated object.  A replica of a counter starts
from `new`; a replica of a register has none until its first update, which makes
one with `new`, or until it receives one.

**Results.**
* `GCounter.converge`, `PnCounter.converge`, `LwwRegister.converge`: replicas
  that know the same updates are equal.
* `GCounter.value_known`, `PnCounter.value_known`: a counter counts every update
  it knows once, where an update under a node name is made in the knowledge of
  the earlier ones under that name.
* `replicas_converge`: the merge laws and the above together.
-/

namespace StrikeDB
namespace Crdt

open Exchange

/-- Names which the length fields of the encodings can hold. -/
structure Small (names : Finset Name) : Prop where
  card : names.card < 2 ^ 32
  lengths : ∀ n ∈ names, n.bytes.length < 2 ^ 32

namespace GCounter

/-- A counter as a replicated object; an update is a node name and an amount. -/
def object : Object GCounter (Name × U64) Bytes where
  start := new
  update u g := g.incr u.1 u.2
  merge := merge
  encode := to_bytes
  decode := from_bytes

/-- The count of one node, 0 when the node has none. -/
def tally (g : GCounter) (node : Name) : Nat := (g.counts.getD node 0).val

theorem tally_eq_view (g : GCounter) (node : Name) :
    g.tally node = ((g.view node).unbotD 0).val := by
  rw [tally, Std.ExtTreeMap.getD_eq_getD_getElem?, view]
  cases g.counts[node]? <;> rfl

theorem tally_new (node : Name) : new.tally node = 0 := by
  rw [tally_eq_view, view_new]
  rfl

theorem tally_incr (g : GCounter) (node other : Name) (amount : U64) :
    (g.incr node amount).tally other =
      if node = other then min (2 ^ 64 - 1) (g.tally other + amount.val) else g.tally other := by
  rw [tally_eq_view, view_incr]
  by_cases heq : node = other
  · subst heq
    rw [if_pos rfl, if_pos rfl, WithBot.unbotD_coe, saturating_add_val]
    rfl
  · rw [if_neg heq, if_neg heq, tally_eq_view]

theorem tally_merge (g h : GCounter) (node : Name) :
    (g.merge h).tally node = max (g.tally node) (h.tally node) := by
  rw [tally_eq_view, tally_eq_view, tally_eq_view, view_merge]
  cases g.view node with
  | bot =>
      rw [max_eq_right bot_le]
      exact (max_eq_right (Nat.zero_le _)).symm
  | coe a =>
      cases h.view node with
      | bot =>
          rw [max_eq_left bot_le]
          exact (max_eq_left (Nat.zero_le _)).symm
      | coe b =>
          rw [← WithBot.coe_max]
          exact (Fin.val_strictMono.monotone.map_max (a := a) (b := b))

/-- Every node with a count is one of `names`. -/
def Within (names : Finset Name) (g : GCounter) : Prop :=
  ∀ node, g.view node ≠ ⊥ → node ∈ names

theorem within_new (names : Finset Name) : Within names new := by
  intro node h
  exact absurd (view_new node) h

theorem Within.incr {names : Finset Name} {g : GCounter} (h : Within names g)
    {node : Name} (hnode : node ∈ names) (amount : U64) :
    Within names (g.incr node amount) := by
  intro other hother
  rw [view_incr] at hother
  by_cases heq : node = other
  · exact heq ▸ hnode
  · rw [if_neg heq] at hother
    exact h other hother

theorem Within.merge {names : Finset Name} {g h : GCounter}
    (hg : Within names g) (hh : Within names h) :
    Within names (g.merge h) := by
  intro node hnode
  rw [view_merge] at hnode
  by_cases hbot : g.view node = ⊥
  · rw [hbot, max_eq_right bot_le] at hnode
    exact hh node hnode
  · exact hg node hbot

theorem nodup_nodes (g : GCounter) : (g.counts.toList.map Prod.fst).Nodup := by
  rw [List.nodup_iff_pairwise_ne, List.pairwise_map]
  refine Std.ExtTreeMap.distinct_keys_toList.imp ?_
  intro a b hab heq
  exact hab (Std.LawfulEqCmp.compare_eq_iff_eq.mpr heq)

theorem Within.nodes_subset {names : Finset Name} {g : GCounter} (h : Within names g) :
    (g.counts.toList.map Prod.fst).toFinset ⊆ names := by
  intro node hnode
  obtain ⟨e, he, rfl⟩ := List.mem_map.mp (List.mem_toFinset.mp hnode)
  refine h e.1 ?_
  rw [mem_toList_iff_view.mp he]
  exact WithBot.coe_ne_bot

theorem Within.fits {names : Finset Name} (hsmall : Small names) {g : GCounter}
    (h : Within names g) : g.Fits where
  nodes := by
    have hcard := Finset.card_le_card h.nodes_subset
    rw [List.toFinset_card_of_nodup g.nodup_nodes, List.length_map] at hcard
    exact lt_of_le_of_lt hcard hsmall.card
  names e he :=
    hsmall.lengths e.1 (h.nodes_subset (List.mem_toFinset.mpr (List.mem_map_of_mem he)))

theorem Within.value_val {names : Finset Name} {g : GCounter} (h : Within names g) :
    g.value.val = min (2 ^ 64 - 1) (∑ node ∈ names, g.tally node) := by
  have heach : ∀ e ∈ g.counts.toList, e.2.val = g.tally e.1 := by
    intro e he
    rw [tally_eq_view, mem_toList_iff_view.mp he]
    rfl
  have hlist : (g.counts.toList.map fun e => e.2.val).sum =
      ∑ node ∈ (g.counts.toList.map Prod.fst).toFinset, g.tally node := by
    rw [List.sum_toFinset _ g.nodup_nodes, List.map_map]
    exact congrArg List.sum (List.map_congr_left heach)
  rw [GCounter.value_val, hlist, Finset.sum_subset h.nodes_subset]
  intro node _ hout
  rw [tally_eq_view]
  cases hview : g.view node with
  | bot => rfl
  | coe v =>
      exact absurd (List.mem_toFinset.mpr (List.mem_map_of_mem (mem_toList_iff_view.mpr hview)))
        hout

/-! ## Runs -/

/-- The updates of a run use no other node names than `names`. -/
def Named (names : Finset Name) (l : List (Exchange.Event GCounter (Name × U64))) : Prop :=
  ∀ e ∈ l, e.update.1 ∈ names

theorem keeps {names : Finset Name} (hsmall : Small names) :
    object.Keeps (Named names) fun _ g => Within names g where
  shorter _ _ h f hf := h f (List.mem_append_left _ hf)
  start := within_new names
  longer _ _ _ h := h
  update _ u _ _ hok h := h.incr (hok _ (List.mem_append_right _ List.mem_cons_self)) u.2
  merge _ _ _ := Within.merge
  travels _ g _ h := from_bytes_to_bytes g (h.fits hsmall)

theorem view_le_incr (g : GCounter) (node : Name) (amount : U64) :
    g.view ≤ (g.incr node amount).view := by
  intro other
  rw [view_incr]
  by_cases heq : node = other
  · subst heq
    rw [if_pos rfl, view]
    cases hv : g.counts[node]? with
    | none => exact bot_le
    | some v =>
        rw [Std.ExtTreeMap.getD_eq_getD_getElem?, hv]
        refine WithBot.coe_le_coe.mpr ?_
        rw [Fin.le_def, saturating_add_val]
        have hlt := v.isLt
        simp only [Option.getD_some]
        omega
  · rw [if_neg heq]

variable {ι : Type} [DecidableEq ι]

/-- Replicas that know the same updates are equal, under whatever names the
updates were made. -/
theorem converge {names : Finset Name} (hsmall : Small names)
    (as : List (Action ι (Name × U64)))
    (hnamed : Named names (object.run object.initial as).log) :
    Object.Agree (object.run object.initial as) := by
  have hsound := Object.joins_sound view (keeps hsmall) (funext view_new)
    (fun u g => view_le_incr g u.1 u.2) (fun g h => funext (view_merge g h))
  refine hsound.converge ?_ as hnamed
  intro l g h H _ hg hh
  exact ext_view fun node => congrFun (hg.2.trans hh.2.symm) node

/-- A counter as cells: one for each node name. -/
def counting : Counting GCounter (Name × U64) Name where
  bound := 2 ^ 64 - 1
  tally := tally
  cell u := u.1
  amount u := u.2.val

/-- The amount of update `k`. -/
def amountOf (l : List (Exchange.Event GCounter (Name × U64))) (k : ℕ) : Nat :=
  match l[k]? with
  | none => 0
  | some e => e.update.2.val

theorem sum_share {names : Finset Name} {l : List (Exchange.Event GCounter (Name × U64))}
    (hnamed : Named names l) (k : ℕ) :
    ∑ node ∈ names, counting.share l node k = amountOf l k := by
  unfold Counting.share amountOf
  cases hk : l[k]? with
  | none => exact Finset.sum_const_zero
  | some e =>
      have hmem : e.update.1 ∈ names := hnamed e (List.mem_of_getElem? hk)
      exact (Finset.sum_ite_eq names e.update.1 fun _ => e.update.2.val).trans (if_pos hmem)

end GCounter

/-- The sum of saturated sums saturates like the whole sum. -/
theorem min_sum_min {α : Type*} (bound : Nat) (s : Finset α) (f : α → Nat) :
    min bound (∑ a ∈ s, min bound (f a)) = min bound (∑ a ∈ s, f a) := by
  classical
  induction s using Finset.induction_on with
  | empty => rfl
  | insert a s ha ih =>
      rw [Finset.sum_insert ha, Finset.sum_insert ha]
      omega

namespace GCounter

variable {ι : Type} [DecidableEq ι]

/-- A counter counts every update it knows once. -/
theorem value_known {names : Finset Name} (hsmall : Small names)
    (as : List (Action ι (Name × U64)))
    (hnamed : Named names (object.run object.initial as).log)
    (hordered : counting.Ordered (object.run object.initial as).log)
    (i : ι) :
    ((object.run object.initial as).replica i).value.val =
      min (2 ^ 64 - 1) (∑ k ∈ (object.run object.initial as).known i,
        amountOf (object.run object.initial as).log k) := by
  have hkeeps := keeps hsmall
  have hboth : object.Keeps (fun l => Named names l ∧ counting.Ordered l)
      fun _ g => Within names g :=
    { shorter := fun l e h => ⟨hkeeps.shorter l e h.1, h.2.shorter⟩
      start := hkeeps.start
      longer := hkeeps.longer
      update := fun l u s H h => hkeeps.update l u s H h.1
      merge := hkeeps.merge
      travels := fun l s h => hkeeps.travels l s h.1 }
  have hsound := Object.tallies_sound counting hboth (fun _ h => h.2) tally_new
    (fun u g c => tally_incr g u.1 c u.2) tally_merge
  obtain ⟨hwithin, _, hcounted⟩ :=
    ((hsound.run_holds hsound.initial as ⟨hnamed, hordered⟩).replicas i).2
  rw [hwithin.value_val]
  have htally : ∀ node ∈ names, tally ((object.run object.initial as).replica i) node =
      min (2 ^ 64 - 1) (∑ k ∈ (object.run object.initial as).known i,
        counting.share (object.run object.initial as).log node k) :=
    fun node _ => hcounted node
  rw [Finset.sum_congr rfl htally, min_sum_min, Finset.sum_comm]
  exact congrArg _ (Finset.sum_congr rfl fun k _ => sum_share hnamed k)

end GCounter

/-- An update of a counter that goes both ways. -/
inductive PnUpdate
  | incr (node : Name) (amount : U64)
  | decr (node : Name) (amount : U64)
deriving DecidableEq

namespace PnUpdate

def node : PnUpdate → Name
  | .incr node _ => node
  | .decr node _ => node

def amount : PnUpdate → U64
  | .incr _ amount => amount
  | .decr _ amount => amount

def isIncr : PnUpdate → Bool
  | .incr _ _ => true
  | .decr _ _ => false

end PnUpdate

namespace PnCounter

def object : Object PnCounter PnUpdate Bytes where
  start := new
  update
    | .incr node amount, c => c.incr node amount
    | .decr node amount, c => c.decr node amount
  merge := merge
  encode := to_bytes
  decode := from_bytes

/-- The updates of a run use no other node names than `names`. -/
def Named (names : Finset Name) (l : List (Exchange.Event PnCounter PnUpdate)) : Prop :=
  ∀ e ∈ l, e.update.node ∈ names

def Within (names : Finset Name) (c : PnCounter) : Prop :=
  GCounter.Within names c.p ∧ GCounter.Within names c.n

theorem keeps {names : Finset Name} (hsmall : Small names) :
    object.Keeps (Named names) fun _ c => Within names c where
  shorter _ _ h f hf := h f (List.mem_append_left _ hf)
  start := ⟨GCounter.within_new names, GCounter.within_new names⟩
  longer _ _ _ h := h
  update l u c H hok h := by
    have hnode : u.node ∈ names := hok _ (List.mem_append_right _ List.mem_cons_self)
    cases u with
    | incr node amount => exact ⟨h.1.incr hnode amount, h.2⟩
    | decr node amount => exact ⟨h.1, h.2.incr hnode amount⟩
  merge _ _ _ hc hd := ⟨hc.1.merge hd.1, hc.2.merge hd.2⟩
  travels _ c _ h := from_bytes_to_bytes c (h.1.fits hsmall) (h.2.fits hsmall)

/-- The counts of both halves. -/
def view (c : PnCounter) : (Name → WithBot U64) × (Name → WithBot U64) := (c.p.view, c.n.view)

theorem view_le_update (u : PnUpdate) (c : PnCounter) : c.view ≤ (object.update u c).view := by
  cases u with
  | incr node amount => exact ⟨c.p.view_le_incr node amount, le_refl _⟩
  | decr node amount => exact ⟨le_refl _, c.n.view_le_incr node amount⟩

theorem view_merge (c d : PnCounter) : (c.merge d).view = c.view ⊔ d.view :=
  Prod.ext (funext (GCounter.view_merge c.p d.p)) (funext (GCounter.view_merge c.n d.n))

variable {ι : Type} [DecidableEq ι]

theorem converge {names : Finset Name} (hsmall : Small names)
    (as : List (Action ι PnUpdate))
    (hnamed : Named names (object.run object.initial as).log) :
    Object.Agree (object.run object.initial as) := by
  have hstart : object.start.view = ⊥ :=
    Prod.ext (funext GCounter.view_new) (funext GCounter.view_new)
  have hsound := Object.joins_sound view (keeps hsmall) hstart view_le_update view_merge
  refine hsound.converge ?_ as hnamed
  intro l c d H _ hc hd
  have heq : c.view = d.view := hc.2.trans hd.2.symm
  apply PnCounter.ext
  · exact GCounter.ext_view (congrFun (congrArg Prod.fst heq))
  · exact GCounter.ext_view (congrFun (congrArg Prod.snd heq))

/-- A cell for each node name in each half. -/
def counting : Counting PnCounter PnUpdate (Bool × Name) where
  bound := 2 ^ 64 - 1
  tally c cell := (if cell.1 then c.p else c.n).tally cell.2
  cell u := (u.isIncr, u.node)
  amount u := u.amount.val

/-- What update `k` adds to the half of the increments, or to the other one. -/
def amountOf (up : Bool) (l : List (Exchange.Event PnCounter PnUpdate)) (k : ℕ) : Nat :=
  match l[k]? with
  | none => 0
  | some e => if e.update.isIncr = up then e.update.amount.val else 0

theorem tally_update (u : PnUpdate) (c : PnCounter) (cell : Bool × Name) :
    counting.tally (object.update u c) cell =
      if counting.cell u = cell then
        min counting.bound (counting.tally c cell + counting.amount u)
      else counting.tally c cell := by
  obtain ⟨up, other⟩ := cell
  have hpair : ∀ (b : Bool) (n : Name), (b, n) = (up, other) ↔ b = up ∧ n = other :=
    fun b n => Prod.mk.injEq b n up other ▸ Iff.rfl
  cases u with
  | incr node amount =>
      simp only [counting, PnUpdate.isIncr, PnUpdate.node, hpair]
      cases up with
      | true =>
          simp only [if_true, true_and]
          exact GCounter.tally_incr c.p node other amount
      | false => rfl
  | decr node amount =>
      simp only [counting, PnUpdate.isIncr, PnUpdate.node, hpair]
      cases up with
      | true => rfl
      | false =>
          simp only [Bool.false_eq_true, if_false, true_and]
          exact GCounter.tally_incr c.n node other amount

theorem tally_merge (c d : PnCounter) (cell : Bool × Name) :
    counting.tally (c.merge d) cell = max (counting.tally c cell) (counting.tally d cell) := by
  obtain ⟨up, node⟩ := cell
  cases up with
  | true => exact GCounter.tally_merge c.p d.p node
  | false => exact GCounter.tally_merge c.n d.n node

theorem sum_share {names : Finset Name} {l : List (Exchange.Event PnCounter PnUpdate)}
    (hnamed : Named names l) (up : Bool) (k : ℕ) :
    ∑ node ∈ names, counting.share l (up, node) k = amountOf up l k := by
  unfold Counting.share amountOf
  cases hk : l[k]? with
  | none => exact Finset.sum_const_zero
  | some e =>
      have hmem : e.update.node ∈ names := hnamed e (List.mem_of_getElem? hk)
      simp only [counting, Prod.mk.injEq]
      by_cases hup : e.update.isIncr = up
      · simp only [hup, true_and, if_true]
        exact (Finset.sum_ite_eq names e.update.node fun _ => e.update.amount.val).trans
          (if_pos hmem)
      · simp only [hup, false_and, if_false]
        exact Finset.sum_const_zero

/-- The value is the saturated sum of the increments it knows less that of the
decrements, clamped to an `i64`. -/
theorem value_known {names : Finset Name} (hsmall : Small names)
    (as : List (Action ι PnUpdate))
    (hnamed : Named names (object.run object.initial as).log)
    (hordered : counting.Ordered (object.run object.initial as).log)
    (i : ι) :
    ((object.run object.initial as).replica i).value =
      clamp ((min (2 ^ 64 - 1) (∑ k ∈ (object.run object.initial as).known i,
          amountOf true (object.run object.initial as).log k) : Nat) -
        (min (2 ^ 64 - 1) (∑ k ∈ (object.run object.initial as).known i,
          amountOf false (object.run object.initial as).log k) : Nat)) := by
  have hkeeps := keeps hsmall
  have hboth : object.Keeps (fun l => Named names l ∧ counting.Ordered l)
      fun _ c => Within names c :=
    { shorter := fun l e h => ⟨hkeeps.shorter l e h.1, h.2.shorter⟩
      start := hkeeps.start
      longer := hkeeps.longer
      update := fun l u s H h => hkeeps.update l u s H h.1
      merge := hkeeps.merge
      travels := fun l s h => hkeeps.travels l s h.1 }
  have hstart : ∀ cell, counting.tally object.start cell = 0 := by
    intro cell
    obtain ⟨up, node⟩ := cell
    cases up <;> exact GCounter.tally_new node
  have hsound := Object.tallies_sound counting hboth (fun _ h => h.2) hstart tally_update
    tally_merge
  obtain ⟨hwithin, _, hcounted⟩ :=
    ((hsound.run_holds hsound.initial as ⟨hnamed, hordered⟩).replicas i).2
  have hhalf : ∀ up, min (2 ^ 64 - 1)
      (∑ node ∈ names, counting.tally ((object.run object.initial as).replica i) (up, node)) =
      min (2 ^ 64 - 1) (∑ k ∈ (object.run object.initial as).known i,
        amountOf up (object.run object.initial as).log k) := by
    intro up
    have htally : ∀ node ∈ names,
        counting.tally ((object.run object.initial as).replica i) (up, node) =
          min (2 ^ 64 - 1) (∑ k ∈ (object.run object.initial as).known i,
            counting.share (object.run object.initial as).log (up, node) k) :=
      fun node _ => hcounted (up, node)
    rw [Finset.sum_congr rfl htally, min_sum_min, Finset.sum_comm]
    exact congrArg _ (Finset.sum_congr rfl fun k _ => sum_share hnamed up k)
  rw [value, hwithin.1.value_val, hwithin.2.value_val, ← hhalf true, ← hhalf false]
  rfl

end PnCounter

namespace LwwRegister

/-- A register as a replicated object; an update is the register that `new` makes
of its arguments, and `set` takes the same three. -/
def object : Object (Option LwwRegister) LwwRegister (Option Bytes) where
  start := none
  update u
    | none => some (new u.value u.ts u.node)
    | some r => some (r.set u.value u.ts u.node)
  merge
    | r, none => r
    | none, some s => some s
    | some r, some s => some (r.merge s)
  encode r := r.map to_bytes
  decode
    | none => some none
    | some b => (from_bytes b).map some

/-- Node names are short, and updates under one stamp write one value. -/
structure Stamped (l : List (Exchange.Event (Option LwwRegister) LwwRegister)) : Prop where
  short : ∀ e ∈ l, e.update.node.bytes.length < 2 ^ 32
  unique : ∀ e ∈ l, ∀ e' ∈ l, e.update.stamp = e'.update.stamp → e.update = e'.update

/-- A register is one of those that were written. -/
def Written (l : List (Exchange.Event (Option LwwRegister) LwwRegister)) (s : Option LwwRegister) : Prop :=
  ∀ r, s = some r → ∃ e ∈ l, e.update = r

theorem update_choice (u : LwwRegister) (s : Option LwwRegister) :
    object.update u s = some u ∨ object.update u s = s := by
  cases s with
  | none => exact Or.inl rfl
  | some r =>
      rcases r.merge_choice u with h | h
      · exact Or.inr (congrArg some h)
      · exact Or.inl (congrArg some h)

theorem object_merge_choice (r s : Option LwwRegister) :
    object.merge r s = r ∨ object.merge r s = s := by
  cases s with
  | none => exact Or.inl rfl
  | some s =>
      cases r with
      | none => exact Or.inr rfl
      | some r =>
          rcases r.merge_choice s with h | h
          · exact Or.inl (congrArg some h)
          · exact Or.inr (congrArg some h)

theorem keeps : object.Keeps Stamped Written where
  shorter l e h :=
    { short := fun f hf => h.short f (List.mem_append_left _ hf)
      unique := fun f hf f' hf' =>
        h.unique f (List.mem_append_left _ hf) f' (List.mem_append_left _ hf') }
  start r h := nomatch h
  longer l e s h r hr := by
    obtain ⟨f, hf, heq⟩ := h r hr
    exact ⟨f, List.mem_append_left _ hf, heq⟩
  update l u s H _ h r hr := by
    rcases update_choice u s with heq | heq
    · rw [heq] at hr
      exact ⟨_, List.mem_append_right _ List.mem_cons_self, Option.some.inj hr⟩
    · rw [heq] at hr
      obtain ⟨f, hf, hfr⟩ := h r hr
      exact ⟨f, List.mem_append_left _ hf, hfr⟩
  merge l s t hs ht r hr := by
    rcases object_merge_choice s t with heq | heq
    · exact hs r (heq ▸ hr)
    · exact ht r (heq ▸ hr)
  travels l s hok h := by
    cases s with
    | none => rfl
    | some r =>
        obtain ⟨e, he, rfl⟩ := h r rfl
        show (from_bytes (to_bytes e.update)).map some = some (some e.update)
        rw [from_bytes_to_bytes e.update (hok.short e he)]
        rfl

/-- The stamp, below all others for a replica that has no register. -/
def rank : Option LwwRegister → WithBot (U64 ×ₗ Name)
  | none => ⊥
  | some r => r.stamp

theorem rank_le_update (u : LwwRegister) (s : Option LwwRegister) :
    rank s ≤ rank (object.update u s) := by
  cases s with
  | none => exact bot_le
  | some r =>
      show (r.stamp : WithBot (U64 ×ₗ Name)) ≤ (r.merge u).stamp
      rw [stamp_merge]
      exact WithBot.coe_le_coe.mpr (le_max_left _ _)

theorem rank_merge (r s : Option LwwRegister) :
    rank (object.merge r s) = rank r ⊔ rank s := by
  cases s with
  | none => exact (sup_bot_eq _).symm
  | some s =>
      cases r with
      | none => exact (bot_sup_eq _).symm
      | some r =>
          show ((r.merge s).stamp : WithBot (U64 ×ₗ Name)) = max (r.stamp : WithBot _) s.stamp
          rw [stamp_merge]
          exact WithBot.coe_max _ _

/-- Registers that were written and carry the same stamp are equal. -/
theorem eq_of_rank_eq {l : List (Exchange.Event (Option LwwRegister) LwwRegister)} (hok : Stamped l)
    {s t : Option LwwRegister} (hs : Written l s) (ht : Written l t) (h : rank s = rank t) :
    s = t := by
  cases s with
  | none =>
      cases t with
      | none => rfl
      | some t => exact absurd h WithBot.bot_ne_coe
  | some s =>
      cases t with
      | none => exact absurd h WithBot.coe_ne_bot
      | some t =>
          obtain ⟨e, he, rfl⟩ := hs s rfl
          obtain ⟨f, hf, rfl⟩ := ht t rfl
          exact congrArg some (hok.unique e he f hf (WithBot.coe_injective h))

variable {ι : Type} [DecidableEq ι]

theorem converge
    (as : List (Action ι LwwRegister))
    (hstamped : Stamped (object.run object.initial as).log) :
    Object.Agree (object.run object.initial as) := by
  have hsound := Object.joins_sound rank keeps rfl rank_le_update rank_merge
  refine hsound.converge ?_ as hstamped
  intro l s t H hok hs ht
  exact eq_of_rank_eq hok hs.1 ht.1 (hs.2.trans ht.2.symm)

end LwwRegister

/-- What makes the order and the number of merges immaterial. -/
structure Laws {σ : Type} (merge : σ → σ → σ) : Prop where
  comm : ∀ s t, merge s t = merge t s
  assoc : ∀ s t u, merge (merge s t) u = merge s (merge t u)
  self : ∀ s, merge s s = s

/-- Replicas that know the same updates are equal: of either counter under any
updates, of a register when one stamp stands for one value.  A counter has
counted every update it knows once when an update under a node name is made in
the knowledge of the earlier ones under that name. -/
theorem replicas_converge
    {ι : Type} [DecidableEq ι]
    (names : Finset Name)
    (hsmall : Small names) :
    Laws GCounter.merge ∧
    Laws PnCounter.merge ∧
    (∀ r s t : LwwRegister, (r.merge s).merge t = r.merge (s.merge t) ∧ r.merge r = r ∧
      ((r.stamp = s.stamp → r = s) → r.merge s = s.merge r)) ∧
    (∀ as : List (Action ι (Name × U64)),
      let c := GCounter.object.run GCounter.object.initial as
      GCounter.Named names c.log →
        Object.Agree c ∧
        (GCounter.counting.Ordered c.log → ∀ i, (c.replica i).value.val =
          min (2 ^ 64 - 1) (∑ k ∈ c.known i, GCounter.amountOf c.log k))) ∧
    (∀ as : List (Action ι PnUpdate),
      let c := PnCounter.object.run PnCounter.object.initial as
      PnCounter.Named names c.log →
        Object.Agree c ∧
        (PnCounter.counting.Ordered c.log → ∀ i, (c.replica i).value =
          PnCounter.clamp
            ((min (2 ^ 64 - 1) (∑ k ∈ c.known i, PnCounter.amountOf true c.log k) : Nat) -
              (min (2 ^ 64 - 1) (∑ k ∈ c.known i, PnCounter.amountOf false c.log k) : Nat)))) ∧
    (∀ as : List (Action ι LwwRegister),
      let c := LwwRegister.object.run LwwRegister.object.initial as
      LwwRegister.Stamped c.log → Object.Agree c) := by
  refine ⟨?_, ?_, ?_, ?_, ?_, ?_⟩
  · exact ⟨GCounter.merge_comm, GCounter.merge_assoc, GCounter.merge_self⟩
  · exact ⟨PnCounter.merge_comm, PnCounter.merge_assoc, PnCounter.merge_self⟩
  · intro r s t
    exact ⟨r.merge_assoc s t, r.merge_self, r.merge_comm s⟩
  · intro as c hnamed
    exact ⟨GCounter.converge hsmall as hnamed, GCounter.value_known hsmall as hnamed⟩
  · intro as c hnamed
    exact ⟨PnCounter.converge hsmall as hnamed, PnCounter.value_known hsmall as hnamed⟩
  · intro as c hstamped
    exact LwwRegister.converge as hstamped

/-! ## Two runs -/

def nodeA : Name := ⟨[97], Text.lossy_of_ascii (by simp)⟩

def nodeB : Name := ⟨[98], Text.lossy_of_ascii (by simp)⟩

/-- Each of two replicas adds under its own name, and both receive both. -/
def ownNames : List (Action Bool (Name × U64)) :=
  [.update false (nodeA, 3), .update true (nodeB, 5), .send false, .send true,
    .deliver true 0, .deliver false 1, .deliver true 0]

/-- Both replicas add under one name. -/
def sharedName : List (Action Bool (Name × U64)) :=
  [.update false (nodeA, 3), .update true (nodeA, 5), .send false, .deliver true 0]

/-- Where no two updates are made under one name there is nothing to know. -/
theorem ordered_of_nodup {l : List (Exchange.Event GCounter (Name × U64))}
    (h : (l.map fun e => e.update.1).Nodup) : GCounter.counting.Ordered l := by
  intro k e hk j e' hj hj' hcell
  have hkm : (l.map fun e => e.update.1)[k]? = some e.update.1 := by
    rw [List.getElem?_map, hk]
    rfl
  have hjm : (l.map fun e => e.update.1)[j]? = some e.update.1 := by
    rw [List.getElem?_map, hj']
    exact congrArg some hcell
  obtain ⟨hjl, hje⟩ := List.getElem?_eq_some_iff.mp hjm
  obtain ⟨hkl, hke⟩ := List.getElem?_eq_some_iff.mp hkm
  exact absurd ((List.Nodup.getElem_inj_iff h).mp (hje.trans hke.symm)) (Nat.ne_of_lt hj)

theorem replicas_converge_ownNames :
    Small {nodeA, nodeB} ∧
    ((GCounter.object.run GCounter.object.initial ownNames).replica true).value.val = 8 ∧
    (GCounter.object.run GCounter.object.initial ownNames).replica false =
      (GCounter.object.run GCounter.object.initial ownNames).replica true := by
  have hsmall : Small {nodeA, nodeB} := ⟨by decide, by decide⟩
  have hnamed : ∀ e ∈ (GCounter.object.run GCounter.object.initial ownNames).log,
      e.update.1 ∈ ({nodeA, nodeB} : Finset Name) := by
    decide +kernel
  have hnodup : ((GCounter.object.run GCounter.object.initial ownNames).log.map
      fun e => e.update.1).Nodup := by
    decide +kernel
  obtain ⟨_, _, _, hcounter, _⟩ := replicas_converge (ι := Bool) {nodeA, nodeB} hsmall
  obtain ⟨hagree, hvalue⟩ := hcounter ownNames hnamed
  refine ⟨hsmall, ?_, ?_⟩
  · rw [hvalue (ordered_of_nodup hnodup) true]
    decide +kernel
  · exact hagree false true (by decide +kernel)

theorem exists_long_name : ∃ n : Name, n.bytes.length = 2 ^ 32 := by
  have hascii : ∀ len, ∀ b ∈ List.replicate len (97 : UInt8), b < 0x80 := by
    intro len b hb
    rw [List.eq_of_mem_replicate hb]
    decide
  exact ⟨⟨_, Text.lossy_of_ascii (hascii (2 ^ 32))⟩, List.length_replicate⟩

/-- The length of such a name is written as 0, so the name is read as a part of
the value. -/
theorem from_bytes_long_name (r : LwwRegister) (h : r.node.bytes.length = 2 ^ 32) :
    LwwRegister.from_bytes r.to_bytes ≠ some r := by
  intro hread
  let empty : Name := ⟨[], Text.lossy_of_ascii (by simp)⟩
  have hprefix : Reader.lengthPrefixed r.node = Reader.lengthPrefixed empty ++ r.node.bytes := by
    have hwrap : leBytes 4 (2 ^ 32) = leBytes 4 0 := by decide
    rw [Reader.lengthPrefixed, h, hwrap, Reader.lengthPrefixed, List.append_assoc]
    rfl
  have hname := Reader.name_lengthPrefixed empty (by decide) (r.node.bytes ++ r.value)
  rw [LwwRegister.from_bytes, LwwRegister.to_bytes, List.append_assoc, Reader.u64_leBytes,
    hprefix, List.append_assoc] at hread
  simp only [hname, Option.map_some, Option.some.injEq] at hread
  have hnode : [] = r.node.bytes := congrArg (fun r : LwwRegister => r.node.bytes) hread
  rw [← hnode] at h
  cases h

/-- Under one name the larger count remains; two registers with one stamp and
different values each stay as they are; and a node name of 4 GiB is not read
back. -/
theorem not_replicas_converge :
    ¬ (∀ (as : List (Action Bool (Name × U64))) (i : Bool),
      ((GCounter.object.run GCounter.object.initial as).replica i).value.val =
        min (2 ^ 64 - 1) (∑ k ∈ (GCounter.object.run GCounter.object.initial as).known i,
          GCounter.amountOf (GCounter.object.run GCounter.object.initial as).log k)) ∧
    ¬ (∀ r s : LwwRegister, r.merge s = s.merge r) ∧
    ¬ (∀ r : LwwRegister, LwwRegister.from_bytes r.to_bytes = some r) := by
  refine ⟨?_, ?_, ?_⟩
  · intro h
    exact absurd (h sharedName true) (by decide +kernel)
  · intro h
    exact absurd (h (.new [1] 7 nodeA) (.new [2] 7 nodeA)) (by decide)
  · intro h
    obtain ⟨n, hn⟩ := exists_long_name
    exact from_bytes_long_name ⟨[], 0, n⟩ hn (h ⟨[], 0, n⟩)

end Crdt
end StrikeDB
