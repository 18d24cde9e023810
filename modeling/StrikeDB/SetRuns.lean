import StrikeDB.SetPositions
import StrikeDB.ListRuns

/-!
# StrikeDB: sets refine finite sets

Runs of set commands on the commit path, in queues and on snapshots, whatever random
numbers are drawn.

**Results.**
* `lawful`: every command does what it means for the sets that are stored.
* `sets_refine_finite_sets`: over a run, answers and stored sets are those of finite sets.
-/

namespace StrikeDB
namespace Sets

open Ctx Coll
open Lists (int seq_bytes isError_err dead)

section Commands

variable {γ : Type} {Q : Except Resp γ → View → Prop} {cx : Ctx} {n : Nat} {key : Bytes}
  {v : View} {s : Members} {l : List Bytes} {f : Fams} {m : Meta} {b : Bytes}

/-! ## Elements -/

theorem wellFormed : kind.WellFormed where
  ty_ne := show T_SET ≠ 5 by decide
  size_eq_zero := fun _ => Std.ExtTreeSet.eq_empty_iff_size_eq_zero.symm
  rep_empty := by
    refine ⟨[], List.nodup_nil, fun b => ?_, fun b x => ?_, fun r x => ?_⟩
    · exact ⟨fun h => absurd h List.not_mem_nil, fun h => absurd h Std.ExtTreeSet.not_mem_empty⟩
    · refine ⟨fun h => (by cases h), ?_⟩
      rintro ⟨i, hi, -⟩
      cases hi
    · refine ⟨fun h => (by cases h), ?_⟩
      rintro ⟨i, b, hi, -⟩
      cases hi
  bounded := by
    rintro s f ⟨l, hrep⟩ sub hsub
    change sub ∈ [SUB_SET, SUB_SETPOS] at hsub
    rcases List.mem_pair.mp hsub with rfl | rfl
    · refine ⟨l, hrep.length.le, fun b hne => ?_⟩
      obtain ⟨x, hx⟩ := Option.ne_none_iff_exists'.mp hne
      obtain ⟨i, hi, -⟩ := (hrep.member b x).mp hx
      exact List.mem_of_getElem? hi
    · refine ⟨(List.range l.length).map fun i : Nat => seq_bytes i, ?_, fun r hne => ?_⟩
      · rw [List.length_map, List.length_range]
        exact hrep.length.le
      · obtain ⟨x, hx⟩ := Option.ne_none_iff_exists'.mp hne
        obtain ⟨i, b, hi, rfl, -⟩ := (hrep.position r x).mp hx
        obtain ⟨hlt, -⟩ := List.getElem?_eq_some_iff.mp hi
        exact List.mem_map.mpr ⟨i, List.mem_range.mpr hlt, rfl⟩

/-- At each position there is a member. -/
theorem wp_set_at (helems : Elems T_SET v key f) (hrep : IsRep s l f) {p : Nat}
    (hb : l[p]? = some b) {g : Bytes → R γ} (hg : (g b).wp Q v) : (set_at key p >>= g).wp Q v := by
  unfold set_at
  rw [bind_assoc]
  refine (wp_get_elem helems setpos_mem).mpr ?_
  rw [hrep.position_at hb]
  exact hg

/-- The members of a set in order. -/
theorem enum_rep (hrep : IsRep s l f) :
    Enum (f SUB_SET) (s.toList.map fun b => (b, (f SUB_SET b).getD (.int 0))) where
  sorted := by
    unfold KeySorted
    rw [List.pairwise_map]
    exact s.ordered_toList
  mem := by
    rintro ⟨b, x⟩
    rw [List.mem_map]
    constructor
    · rintro ⟨c, hc, heq⟩
      obtain ⟨rfl, rfl⟩ := Prod.mk.inj heq
      obtain ⟨x, hx⟩ :=
        Option.isSome_iff_exists.mp ((hrep.isSome c).mpr (Std.ExtTreeSet.mem_toList.mp hc))
      change f SUB_SET c = some ((f SUB_SET c).getD _)
      rw [hx]
      rfl
    · intro hx
      change f SUB_SET b = some x at hx
      refine ⟨b, Std.ExtTreeSet.mem_toList.mpr ((hrep.isSome b).mp ?_), ?_⟩
      · rw [hx]
        rfl
      · rw [hx]
        rfl

theorem wp_list (hkey : key ≠ []) (helems : Elems T_SET v key f) (hrep : Rep s f)
    (hlen : s.size < 2 ^ 63) {g : List Bytes → R γ} (hg : (g s.toList).wp Q v) :
    (elements key SUB_SET >>= fun l => g (l.map Prod.fst)).wp Q v := by
  obtain ⟨l, hrep⟩ := hrep
  refine wp_enumerate hkey helems set_mem (enum_rep hrep) ?_ ?_
  · rw [List.length_map, Std.ExtTreeSet.length_toList]
    unfold usize_max
    omega
  · have hfst : (s.toList.map fun b => (b, (f SUB_SET b).getD (.int 0))).map Prod.fst =
        s.toList := by
      rw [List.map_map]
      exact List.map_id s.toList
    rw [hfst]
    exact hg

/-! ## Loops -/

theorem size_le_insertMembers (members : List Bytes) (s : Members) :
    s.size ≤ (insertMembers s members).size ∧
      (insertMembers s members).size ≤ s.size + members.length := by
  induction members generalizing s with
  | nil => exact ⟨le_rfl, le_rfl⟩
  | cons b bs ih =>
      obtain ⟨hlow, hhigh⟩ := ih (s.insert b)
      have hle := Std.ExtTreeSet.size_le_size_insert (t := s) (k := b)
      have hge := Std.ExtTreeSet.size_insert_le (t := s) (k := b)
      have hlen : (b :: bs).length = bs.length + 1 := rfl
      exact ⟨hle.trans hlow, by rw [hlen]; exact hhigh.trans (by omega)⟩

theorem eraseMembers_size_le (members : List Bytes) (s : Members) :
    (eraseMembers s members).size ≤ s.size := by
  induction members generalizing s with
  | nil => exact le_rfl
  | cons b bs ih => exact (ih (s.erase b)).trans Std.ExtTreeSet.size_erase_le

theorem wp_addAll (members : List Bytes) (added : Nat) (helems : Elems T_SET v key f)
    (hrep : Rep s f) (hm : IsMeta T_SET s.size m) (hlen : s.size + members.length < 2 ^ 63)
    {g : Nat × Meta → R γ}
    (hg : ∀ v' m' f', Elems T_SET v' key f' → Rep (insertMembers s members) f' →
      IsMeta T_SET (insertMembers s members).size m' → OnlyElems T_SET key v v' →
      (s.size = (insertMembers s members).size → v' = v ∧ insertMembers s members = s) →
      (g (added + ((insertMembers s members).size - s.size), m')).wp Q v') :
    (addAll key members added m >>= g).wp Q v := by
  induction members generalizing v s f m added with
  | nil =>
      have hzero : added + ((insertMembers s []).size - s.size) = added :=
        Nat.add_eq_left.mpr (Nat.sub_self _)
      have hgo := hg v m f helems hrep hm (OnlyElems.refl T_SET key v) fun _ => ⟨rfl, rfl⟩
      rw [hzero] at hgo
      exact hgo
  | cons b bs ih =>
      rw [List.length_cons] at hlen
      rw [addAll, bind_assoc]
      obtain ⟨hlow, _⟩ := size_le_insertMembers bs (s.insert b)
      refine wp_set_add helems hrep hm (by omega) b
        fun v₁ m₁ f₁ helems₁ hrep₁ hm₁ honly₁ hsame₁ => ?_
      have hge := Std.ExtTreeSet.size_insert_le (t := s) (k := b)
      refine ih _ helems₁ hrep₁ hm₁ (by omega)
        fun v₂ m₂ f₂ helems₂ hrep₂ hm₂ honly₂ hsame₂ => ?_
      have hgo := hg v₂ m₂ f₂ helems₂ hrep₂ hm₂ (honly₁.trans honly₂)
      by_cases hb : b ∈ s
      · have hcons : insertMembers s (b :: bs) = insertMembers s bs := by
          change insertMembers (s.insert b) bs = _
          rw [insert_of_mem hb]
        rw [hcons] at hgo
        rw [insert_of_mem hb] at hsame₂ ⊢
        rw [decide_eq_false (not_not_intro hb)]
        exact hgo fun hsize => ⟨(hsame₂ hsize).1.trans (hsame₁ hb), (hsame₂ hsize).2⟩
      · have hsize := size_insert hb
        have hcount : added + ((insertMembers s (b :: bs)).size - s.size) =
            added + (decide (b ∉ s)).toNat +
              ((insertMembers (s.insert b) bs).size - (s.insert b).size) := by
          change added + ((insertMembers (s.insert b) bs).size - s.size) = _
          rw [decide_eq_true hb, Bool.toNat_true]
          omega
        rw [hcount] at hgo
        refine hgo fun heq => absurd heq ?_
        change s.size ≠ (insertMembers (s.insert b) bs).size
        omega

theorem wp_remAll (members : List Bytes) (c : Nat) (helems : Elems T_SET v key f) (hrep : Rep s f)
    (hm : IsMeta T_SET s.size m) (hlen : s.size < 2 ^ 63) {g : Nat × Meta → R γ}
    (hg : ∀ v' m' f', Elems T_SET v' key f' → Rep (eraseMembers s members) f' →
      IsMeta T_SET (eraseMembers s members).size m' → OnlyElems T_SET key v v' →
      (s.size = (eraseMembers s members).size → v' = v ∧ eraseMembers s members = s) →
      (g (c + (s.size - (eraseMembers s members).size), m')).wp Q v') :
    (remAll key members c m >>= g).wp Q v := by
  induction members generalizing v s f m c with
  | nil =>
      have hzero : c + (s.size - (eraseMembers s []).size) = c :=
        Nat.add_eq_left.mpr (Nat.sub_self _)
      have hgo := hg v m f helems hrep hm (OnlyElems.refl T_SET key v) fun _ => ⟨rfl, rfl⟩
      rw [hzero] at hgo
      exact hgo
  | cons b bs ih =>
      rw [remAll, bind_assoc]
      have hle := eraseMembers_size_le bs (s.erase b)
      refine wp_set_rem helems hrep hm hlen b fun v₁ m₁ f₁ helems₁ hrep₁ hm₁ honly₁ hsame₁ => ?_
      have hge := Std.ExtTreeSet.size_erase_le (t := s) (k := b)
      refine ih _ helems₁ hrep₁ hm₁ (by omega)
        fun v₂ m₂ f₂ helems₂ hrep₂ hm₂ honly₂ hsame₂ => ?_
      have hgo := hg v₂ m₂ f₂ helems₂ hrep₂ hm₂ (honly₁.trans honly₂)
      by_cases hb : b ∈ s
      · have hsize := size_erase hb
        have hcount : c + (s.size - (eraseMembers s (b :: bs)).size) =
            c + (decide (b ∈ s)).toNat +
              ((s.erase b).size - (eraseMembers (s.erase b) bs).size) := by
          change c + (s.size - (eraseMembers (s.erase b) bs).size) = _
          rw [decide_eq_true hb, Bool.toNat_true]
          omega
        rw [hcount] at hgo
        refine hgo fun heq => absurd heq ?_
        change s.size ≠ (eraseMembers (s.erase b) bs).size
        omega
      · have hcons : eraseMembers s (b :: bs) = eraseMembers s bs := by
          change eraseMembers (s.erase b) bs = _
          rw [erase_of_not_mem hb]
        rw [hcons] at hgo
        rw [erase_of_not_mem hb] at hsame₂ ⊢
        rw [decide_eq_false hb]
        exact hgo fun hsize => ⟨(hsame₂ hsize).1.trans (hsame₁ hb), (hsame₂ hsize).2⟩

theorem wp_askAll (members : List Bytes) (helems : Elems T_SET v key f) (hrep : IsRep s l f)
    {g : List Resp → R γ}
    (hg : (g (members.map fun b => int (if b ∈ s then 1 else 0))).wp Q v) :
    (askAll key members >>= g).wp Q v := by
  induction members generalizing g with
  | nil => exact hg
  | cons b bs ih =>
      rw [askAll, bind_assoc]
      refine (wp_get_elem helems set_mem).mpr ?_
      rw [bind_assoc]
      refine ih ?_
      simp only [hrep.isSome]
      exact hg

/-! ## Random members -/

theorem draw_lt {draws : List UInt64} {len : Nat} (h : 0 < len) : draw draws len < len :=
  Nat.mod_lt _ h

theorem wp_popAll (k : Nat) (draws : List UInt64) (helems : Elems T_SET v key f) (hrep : Rep s f)
    (hm : IsMeta T_SET s.size m) (hlen : s.size < 2 ^ 63) (hk : k ≤ s.size)
    {g : List Bytes × Meta → R γ}
    (hg : ∀ v' m' f' picked, picked.Nodup → (∀ b ∈ picked, b ∈ s) → picked.length = k →
      Elems T_SET v' key f' → Rep (eraseMembers s picked) f' →
      IsMeta T_SET (eraseMembers s picked).size m' → OnlyElems T_SET key v v' →
      (picked = [] → v' = v) → (g (picked, m')).wp Q v') :
    (popAll key k draws m >>= g).wp Q v := by
  induction k generalizing v s f m draws g with
  | zero =>
      exact hg v m f [] List.nodup_nil (fun b hb => absurd hb List.not_mem_nil) rfl helems hrep hm
        (OnlyElems.refl T_SET key v) fun _ => rfl
  | succ k ih =>
      obtain ⟨l, hl⟩ := hrep
      rw [popAll, bind_assoc, hm.len_eq]
      have hpos : draw draws s.size < l.length := by
        rw [hl.length]
        exact draw_lt (by omega)
      have hat := List.getElem?_eq_getElem hpos
      have hb := (hl.mem _).mp (List.mem_of_getElem? hat)
      refine wp_set_at helems hl hat ?_
      rw [bind_assoc]
      refine wp_set_rem helems ⟨l, hl⟩ hm hlen _ fun v₁ m₁ f₁ helems₁ hrep₁ hm₁ honly₁ _ => ?_
      have hsize := size_erase hb
      simp only [bind_assoc]
      refine ih draws.tail helems₁ hrep₁ hm₁ (by omega) (by omega)
        fun v₂ m₂ f₂ picked hnodup hin hcount helems₂ hrep₂ hm₂ honly₂ _ => ?_
      refine hg v₂ m₂ f₂ (l[draw draws s.size] :: picked) ?_ ?_ ?_ helems₂ hrep₂ hm₂
        (honly₁.trans honly₂) fun h => by cases h
      · refine List.nodup_cons.mpr ⟨fun hpicked => ?_, hnodup⟩
        exact (mem_erase.mp (hin _ hpicked)).1 rfl
      · intro c hc
        rcases List.mem_cons.mp hc with rfl | hc
        · exact hb
        · exact (mem_erase.mp (hin c hc)).2
      · rw [List.length_cons, hcount]

theorem wp_pickAny (k : Nat) (draws : List UInt64) (helems : Elems T_SET v key f)
    (hrep : IsRep s l f) (hne : 0 < s.size) {g : List Bytes → R γ}
    (hg : ∀ picked, (∀ b ∈ picked, b ∈ s) → picked.length = k → (g picked).wp Q v) :
    (pickAny key s.size k draws >>= g).wp Q v := by
  induction k generalizing draws g with
  | zero => exact hg [] (fun b hb => absurd hb List.not_mem_nil) rfl
  | succ k ih =>
      rw [pickAny, bind_assoc]
      have hpos : draw draws s.size < l.length := by
        rw [hrep.length]
        exact draw_lt hne
      have hat := List.getElem?_eq_getElem hpos
      refine wp_set_at helems hrep hat ?_
      rw [bind_assoc]
      refine ih draws.tail fun picked hin hcount => hg _ (fun c hc => ?_) ?_
      · rcases List.mem_cons.mp hc with rfl | hc
        · exact (hrep.mem _).mp (List.mem_of_getElem? hat)
        · exact hin c hc
      · rw [List.length_cons, hcount]

/-- The positions that were drawn so far, and the members that were picked there. -/
structure Picking (l : List Bytes) (want : Nat) (seen : List Nat) (picked : List Bytes) : Prop where
  seen_nodup : seen.Nodup
  nodup : picked.Nodup
  length : picked.length = seen.length
  le_want : picked.length ≤ want
  drawn : ∀ b ∈ picked, ∃ p ∈ seen, l[p]? = some b

theorem Picking.pick {want : Nat} {seen : List Nat} {picked : List Bytes} {p : Nat}
    (h : Picking l want seen picked) (hnodup : l.Nodup) (hp : p ∉ seen) (hb : l[p]? = some b)
    (hmore : picked.length < want) : Picking l want (p :: seen) (picked ++ [b]) where
  seen_nodup := List.nodup_cons.mpr ⟨hp, h.seen_nodup⟩
  nodup := by
    refine List.nodup_append.mpr ⟨h.nodup, List.nodup_singleton b, fun a ha c hc => ?_⟩
    rintro rfl
    obtain ⟨q, hq, hat⟩ := h.drawn a ha
    rw [List.mem_singleton.mp hc] at hat
    exact hp (at_injective hnodup hat hb ▸ hq)
  length := by rw [List.length_append, List.length_singleton, List.length_cons, h.length]
  le_want := by
    rw [List.length_append, List.length_singleton]
    exact hmore
  drawn := by
    intro c hc
    rcases List.mem_append.mp hc with hc | hc
    · obtain ⟨q, hq, hat⟩ := h.drawn c hc
      exact ⟨q, List.mem_cons_of_mem _ hq, hat⟩
    · exact ⟨p, List.mem_cons_self, List.mem_singleton.mp hc ▸ hb⟩

theorem wp_pickNew (draws : List UInt64) (seen : List Nat) (picked : List Bytes) {want : Nat}
    (helems : Elems T_SET v key f) (hrep : IsRep s l f) (hne : 0 < s.size)
    (hpicking : Picking l want seen picked)
    (henough : want ≤ (seen.toFinset ∪ (draws.map fun d => d.toNat % s.size).toFinset).card)
    {g : List Bytes → R γ} (hg : ∀ picked, Picks s want picked → (g picked).wp Q v)
    (hwant : want ≤ s.size) : (pickNew key s.size want draws seen picked >>= g).wp Q v := by
  have hdone : ∀ {seen picked}, Picking l want seen picked → want ≤ picked.length →
      Picks s want picked := by
    intro seen picked h hle
    refine ⟨h.nodup, fun b hb => ?_, ?_⟩
    · obtain ⟨p, -, hat⟩ := h.drawn b hb
      exact (hrep.mem b).mp (List.mem_of_getElem? hat)
    · rw [min_eq_left hwant]
      exact le_antisymm h.le_want hle
  induction draws generalizing seen picked with
  | nil =>
      refine hg picked (hdone hpicking ?_)
      rw [List.map_nil, List.toFinset_nil, Finset.union_empty,
        List.toFinset_card_of_nodup hpicking.seen_nodup] at henough
      rw [hpicking.length]
      exact henough
  | cons d draws ih =>
      rw [pickNew]
      by_cases henow : want ≤ picked.length
      · rw [if_pos henow]
        exact hg picked (hdone hpicking henow)
      rw [if_neg henow]
      by_cases hseen : d.toNat % s.size ∈ seen
      · rw [if_pos hseen]
        refine ih seen picked hpicking ?_
        have hunion : seen.toFinset ∪ ((d :: draws).map fun d => d.toNat % s.size).toFinset =
            seen.toFinset ∪ (draws.map fun d => d.toNat % s.size).toFinset := by
          rw [List.map_cons, List.toFinset_cons, Finset.union_insert,
            Finset.insert_eq_of_mem (Finset.mem_union_left _ (List.mem_toFinset.mpr hseen))]
        rw [← hunion]
        exact henough
      · rw [if_neg hseen, bind_assoc]
        have hpos : d.toNat % s.size < l.length := by
          rw [hrep.length]
          exact Nat.mod_lt _ hne
        have hat := List.getElem?_eq_getElem hpos
        refine wp_set_at helems hrep hat ?_
        refine ih _ _ (hpicking.pick hrep.nodup hseen hat (by omega)) ?_
        rw [List.toFinset_cons, Finset.insert_union, ← Finset.union_insert, ← List.toFinset_cons]
        exact henough

theorem thin_spec (k : Nat) (draws : List UInt64) {all : List Bytes} (hnodup : all.Nodup)
    (hk : k ≤ all.length) :
    (thin k draws all).Nodup ∧ (∀ b ∈ thin k draws all, b ∈ all) ∧
      (thin k draws all).length = all.length - k := by
  induction k generalizing draws all with
  | zero => exact ⟨hnodup, fun _ hb => hb, rfl⟩
  | succ k ih =>
      have hpos : draw draws all.length < all.length := draw_lt (by omega)
      have hat := List.getElem?_eq_getElem hpos
      have hsize := length_swap_remove all (draw draws all.length)
      obtain ⟨hthin, hin, hlen⟩ := ih draws.tail (nodup_swap_remove hnodup hpos) (by omega)
      refine ⟨hthin, fun b hb => ((mem_swap_remove hnodup hat).mp (hin b hb)).2, ?_⟩
      rw [thin, hlen, hsize]
      omega

/-! ## Commands on one set -/

section Specs

variable {db : Bytes → Members}

/-- A command that reads one set. -/
theorem wp_read (reply : Members → Resp) (hkey : key ≠ []) (hn : n < 2 ^ 63)
    (hholds : kind.Holds n v key (db key)) (hok : ∀ s, (reply s).isError = false)
    {g : Option (Meta × Option UInt64) → R Resp} (hnone : g none = pure (reply ∅))
    (hsome : ∀ m ttl f s, Elems T_SET v key f → Rep s f → IsMeta T_SET s.size m → s.size ≤ n →
      (g (some (m, ttl))).wp (fun r w => r = .ok (reply s) ∧ w = v) v) :
    (cx.coll key T_SET >>= g).wp
      (kind.Does cx n v key (reply (kind.found cx v db key), kind.found cx v db key)) v :=
  wellFormed.wp_read hkey hn hholds hok hnone fun m ttl f helems hrep hm =>
    hsome m ttl f (db key) helems hrep hm hholds.2

theorem wp_sismember (hkey : key ≠ []) (hn : n < 2 ^ 63) (hholds : kind.Holds n v key (db key))
    (member : Bytes) :
    (sismember cx key member).wp (kind.Does cx n v key
      (int (if member ∈ kind.found cx v db key then 1 else 0), kind.found cx v db key)) v := by
  refine wp_read (fun s => int (if member ∈ s then 1 else 0)) hkey hn hholds (fun _ => rfl) ?_
    fun _ _ _ s helems hrep _ _ => (wp_get_elem helems set_mem).mpr ⟨?_, rfl⟩
  · rw [if_neg Std.ExtTreeSet.not_mem_empty]
  · obtain ⟨l, hrep⟩ := hrep
    simp only [hrep.isSome]

theorem wp_smismember (hkey : key ≠ []) (hn : n < 2 ^ 63) (hholds : kind.Holds n v key (db key))
    (members : List Bytes) :
    (smismember cx key members).wp (kind.Does cx n v key
      (.array (members.map fun b => int (if b ∈ kind.found cx v db key then 1 else 0)),
        kind.found cx v db key)) v := by
  refine wp_read (fun s => .array (members.map fun b => int (if b ∈ s then 1 else 0))) hkey hn
    hholds (fun _ => rfl) ?_ fun _ _ _ s helems hrep _ _ => ?_
  · simp only [Std.ExtTreeSet.not_mem_empty, if_false]
  · obtain ⟨l, hrep⟩ := hrep
    exact wp_askAll members helems hrep ⟨rfl, rfl⟩

theorem wp_scard (hkey : key ≠ []) (hn : n < 2 ^ 63) (hholds : kind.Holds n v key (db key)) :
    (scard cx key).wp (kind.Does cx n v key
      (int (kind.found cx v db key).size, kind.found cx v db key)) v := by
  refine wp_read (fun s => int s.size) hkey hn hholds (fun _ => rfl) ?_
    fun _ _ _ _ _ _ hm _ => ⟨?_, rfl⟩
  · rw [Std.ExtTreeSet.size_empty]
    rfl
  · rw [hm.len_eq]

theorem toList_empty : (∅ : Members).toList = [] := Std.ExtTreeSet.toList_eq_nil_iff.mpr rfl

theorem wp_smembers (hkey : key ≠ []) (hn : n < 2 ^ 63) (hholds : kind.Holds n v key (db key)) :
    (smembers cx key).wp (kind.Does cx n v key
      (.array ((kind.found cx v db key).toList.map .bulk), kind.found cx v db key)) v := by
  unfold smembers set_members
  rw [bind_assoc]
  refine wp_read (fun s => .array (s.toList.map .bulk)) hkey hn hholds (fun _ => rfl) ?_
    fun _ _ _ s helems hrep _ hsize => ?_
  · rw [toList_empty]
    rfl
  · change ((elements key SUB_SET >>= fun l => pure (l.map Prod.fst)) >>= _).wp _ v
    rw [bind_assoc]
    refine wp_list (g := fun l => (pure (Resp.array (l.map .bulk)) : R Resp)) hkey helems hrep
      (by omega) ?_
    exact ⟨rfl, rfl⟩

theorem wp_sadd (hw : cx.readonly = false) (hkey : key ≠ []) {members : List Bytes}
    (hn : n + members.length < 2 ^ 63) (hholds : kind.Holds n v key (db key)) :
    (sadd cx key members).wp (kind.Does cx (n + members.length) v key
      (int ((insertMembers (kind.found cx v db key) members).size -
        (kind.found cx v db key).size : Nat),
        insertMembers (kind.found cx v db key) members)) v := by
  unfold sadd
  refine wellFormed.wp_new hw hkey (by omega) hholds fun v₁ m f hat hrep hm hle hsame₁ _ => ?_
  have hle : (kind.found cx v db key).size ≤ n := hle
  obtain ⟨hlow, hhigh⟩ := size_le_insertMembers members (kind.found cx v db key)
  refine wp_addAll members 0 hat.elements hrep hm (by omega)
    fun v₂ m₂ f₂ helems₂ hrep₂ hm₂ honly₂ hsame₂ => ?_
  rw [Nat.zero_add]
  dsimp only
  by_cases hsome : 0 < (insertMembers (kind.found cx v db key) members).size -
      (kind.found cx v db key).size
  · rw [if_pos hsome]
    exact wellFormed.wp_save hm₂ honly₂ helems₂ hrep₂ (hhigh.trans (Nat.add_le_add_right hle _)) hn
      hat.deadline fun v₃ hleft hsame₃ _ => .inr ⟨rfl, rfl, fun _ => ⟨hleft, hsame₁.trans hsame₃⟩⟩
  · rw [if_neg hsome]
    obtain ⟨rfl, hall⟩ := hsame₂ (by omega)
    refine .inr ⟨rfl, rfl, fun _ => ⟨?_, hsame₁⟩⟩
    rw [hall]
    exact ⟨⟨f, hat, hrep⟩, hle.trans (Nat.le_add_right ..)⟩

theorem eraseMembers_empty (members : List Bytes) : eraseMembers ∅ members = ∅ :=
  Std.ExtTreeSet.eq_empty_iff_size_eq_zero.mpr (Nat.le_zero.mp (eraseMembers_size_le members ∅))

theorem wp_srem (hw : cx.readonly = false) (hkey : key ≠ []) (hn : n < 2 ^ 63)
    (hholds : kind.Holds n v key (db key)) (members : List Bytes) :
    (srem cx key members).wp (kind.Does cx n v key
      (int ((kind.found cx v db key).size -
        (eraseMembers (kind.found cx v db key) members).size : Nat),
        eraseMembers (kind.found cx v db key) members)) v := by
  unfold srem
  refine wellFormed.wp_found hkey hn hholds (fun v' hempty _ hwrite => ?_)
    fun m f hfound halive hne hat hrep hm => ?_
  · obtain ⟨hleft, hsame, _⟩ := hwrite hw
    have hnil : kind.found cx v db key = ∅ := hempty
    rw [hnil, eraseMembers_empty]
    exact .inr ⟨rfl, rfl, fun _ => ⟨hleft, hsame⟩⟩
  rw [hfound]
  have hsize : (db key).size ≤ n := hholds.2
  refine wp_remAll members 0 hat.elements hrep hm (by omega)
    fun v₂ m₂ f₂ helems₂ hrep₂ hm₂ honly₂ hsame₂ => ?_
  rw [Nat.zero_add]
  have hle := eraseMembers_size_le members (db key)
  dsimp only
  by_cases hsome : 0 < (db key).size - (eraseMembers (db key) members).size
  · rw [if_pos hsome]
    exact wellFormed.wp_save hm₂ honly₂ helems₂ hrep₂ (hle.trans hsize) hn hat.deadline
      fun v₃ hleft hsame₃ _ => .inr ⟨rfl, rfl, fun _ => ⟨hleft, hsame₃⟩⟩
  · rw [if_neg hsome]
    obtain ⟨rfl, hall⟩ := hsame₂ (by omega)
    refine .inr ⟨rfl, rfl, fun _ => ⟨?_, SameElse.refl T_SET key v₂⟩⟩
    rw [hall]
    exact hholds

/-! ## Random members of one set -/

theorem isError_pickedReply (count : Option Int) (picked : List Bytes) :
    (pickedReply count picked).isError = false := by
  unfold pickedReply
  split
  · rfl
  · cases picked.getLast? <;> rfl

theorem picks_empty (want : Nat) : Picks ∅ want [] := by
  refine ⟨List.nodup_nil, fun b hb => absurd hb List.not_mem_nil, ?_⟩
  rw [Std.ExtTreeSet.size_empty, Nat.min_zero]
  rfl

theorem samples_empty (want : Int) : Samples ∅ want [] := by
  unfold Samples
  split
  · exact ⟨fun b hb => absurd hb List.not_mem_nil, by rw [if_pos rfl]; rfl⟩
  · exact picks_empty _

theorem Picks.samples {want : Int} {picked : List Bytes} (h : Picks s want.toNat picked)
    (hwant : ¬ want < 0) : Samples s want picked := by
  unfold Samples
  rw [if_neg hwant]
  exact h

theorem samples_any {want : Int} {picked : List Bytes} (hs : s ≠ ∅) (hwant : want < 0)
    (hin : ∀ b ∈ picked, b ∈ s) (hcount : picked.length = want.natAbs) : Samples s want picked := by
  unfold Samples
  rw [if_pos hwant, if_neg hs]
  exact ⟨hin, hcount⟩

theorem wp_spop (hw : cx.readonly = false) (hkey : key ≠ []) (hn : n < 2 ^ 63)
    (hholds : kind.Holds n v key (db key)) (count : Option Int) (draws : List UInt64) :
    (spop cx key count draws).wp (fun r w => ∃ picked,
      Picks (kind.found cx v db key) (count.getD 1).toNat picked ∧
        kind.Does cx n v key
          (pickedReply count picked, eraseMembers (kind.found cx v db key) picked) r w) v := by
  unfold spop
  refine wellFormed.wp_found hkey hn hholds (fun v' hempty _ hwrite => ?_)
    fun m f hfound halive hne hat hrep hm => ?_
  · obtain ⟨hleft, hsame, _⟩ := hwrite hw
    have hnil : kind.found cx v db key = ∅ := hempty
    rw [hnil]
    exact ⟨[], picks_empty _, .inr ⟨isError_pickedReply count [], rfl, fun _ => ⟨hleft, hsame⟩⟩⟩
  rw [hfound]
  have hsize : (db key).size ≤ n := hholds.2
  have hlen : m.len = (db key).size := hm.len_eq
  dsimp only
  rw [hlen]
  refine wp_popAll _ draws hat.elements hrep hm (by omega) (Nat.min_le_right ..)
    fun v₂ m₂ f₂ picked hnodup hin hcount helems₂ hrep₂ hm₂ honly₂ hsame₂ => ?_
  have hpicks : Picks (db key) (count.getD 1).toNat picked := ⟨hnodup, hin, hcount⟩
  dsimp only
  by_cases hnil : picked = []
  · rw [if_neg (not_not_intro hnil)]
    obtain rfl := hsame₂ hnil
    refine ⟨picked, hpicks, .inr ⟨isError_pickedReply count picked, rfl, fun _ => ⟨?_,
      SameElse.refl T_SET key v₂⟩⟩⟩
    rw [hnil]
    exact hholds
  · rw [if_pos hnil]
    exact wellFormed.wp_save hm₂ honly₂ helems₂ hrep₂
      ((eraseMembers_size_le picked _).trans hsize) hn hat.deadline
      fun v₃ hleft hsame₃ _ => ⟨picked, hpicks,
        .inr ⟨isError_pickedReply count picked, rfl, fun _ => ⟨hleft, hsame₃⟩⟩⟩

theorem wp_members_alive (hkey : key ≠ []) (hlen : s.size < 2 ^ 63) (hne : s.size ≠ 0)
    (halive : dead cx v key = false) (hat : CollAt T_SET v key s.size f) (hrep : Rep s f)
    {g : List Bytes → R γ} (hg : (g s.toList).wp Q v) : (set_members cx key >>= g).wp Q v := by
  unfold set_members
  rw [bind_assoc]
  refine wp_coll (fun _ => hkey) hlen hat (fun v' hor _ _ => ?_) fun m _ _ hm => ?_
  · rcases hor with hzero | hdead
    · exact absurd hzero hne
    · exact absurd (hdead.symm.trans halive) (by decide)
  · change ((elements key SUB_SET >>= fun l => pure (l.map Prod.fst)) >>= g).wp Q v
    rw [bind_assoc]
    exact wp_list hkey hat.elements hrep hlen hg

theorem wp_randmember (hkey : key ≠ []) (hlen : s.size < 2 ^ 63) (hne : s.size ≠ 0)
    (halive : dead cx v key = false) (hat : CollAt T_SET v key s.size f) (hrep : Rep s f)
    (want : Int) {draws : List UInt64} (hdrawn : Enough s.size want.toNat draws)
    {g : List Bytes → R γ} (hg : ∀ picked, Samples s want picked → (g picked).wp Q v) :
    (randmember cx key s.size want draws >>= g).wp Q v := by
  obtain ⟨l, hl⟩ := hrep
  unfold randmember
  have hnil : s ≠ ∅ := fun h => hne (Std.ExtTreeSet.eq_empty_iff_size_eq_zero.mp h)
  by_cases hneg : want < 0
  · rw [if_pos hneg]
    exact wp_pickAny _ draws hat.elements hl (by omega) fun picked hin hcount =>
      hg picked (samples_any hnil hneg hin hcount)
  rw [if_neg hneg]
  by_cases hmost : s.size ≤ min want.toNat s.size * 2
  · rw [if_pos hmost, bind_assoc]
    refine wp_members_alive hkey hlen hne halive hat ⟨l, hl⟩ (hg _ (Picks.samples ?_ hneg))
    have hall : s.toList.length = s.size := Std.ExtTreeSet.length_toList
    have hnodup : s.toList.Nodup := s.distinct_toList.imp fun {a b} hab heq => hab (by
      rw [heq]
      exact Std.ReflCmp.compare_self)
    obtain ⟨hthin, hin, hcount⟩ := thin_spec (s.toList.length - min want.toNat s.size) draws hnodup
      (Nat.sub_le ..)
    refine ⟨hthin, fun b hb => Std.ExtTreeSet.mem_toList.mp (hin b hb), ?_⟩
    rw [hcount, hall]
    omega
  · rw [if_neg hmost]
    refine wp_pickNew draws [] [] hat.elements hl (by omega) ?_ ?_
      (fun picked hpicks => hg picked (Picks.samples ?_ hneg))
      (Nat.min_le_right ..)
    · exact ⟨List.nodup_nil, List.nodup_nil, rfl, Nat.zero_le _,
        fun b hb => absurd hb List.not_mem_nil⟩
    · rw [List.toFinset_nil, Finset.empty_union]
      exact hdrawn (not_le.mp hmost)
    · obtain ⟨hnodup, hin, hcount⟩ := hpicks
      refine ⟨hnodup, hin, hcount.trans ?_⟩
      omega

theorem wp_srandmember (hkey : key ≠ []) (hn : n < 2 ^ 63) (hholds : kind.Holds n v key (db key))
    (count : Option Int) {draws : List UInt64}
    (hdrawn : Enough (kind.found cx v db key).size (count.getD 1).toNat draws) :
    (srandmember cx key count draws).wp (fun r w => ∃ picked,
      Samples (kind.found cx v db key) (count.getD 1) picked ∧
        kind.Does cx n v key (pickedReply count picked, kind.found cx v db key) r w) v := by
  unfold srandmember
  refine wellFormed.wp_found hkey hn hholds (fun v' hempty _ hwrite => ?_)
    fun m f hfound halive hne hat hrep hm => ?_
  · have hnil : kind.found cx v db key = ∅ := hempty
    rw [hnil]
    exact ⟨[], samples_empty _, .inr ⟨isError_pickedReply count [], rfl, fun hw =>
      ⟨(hwrite hw).1, (hwrite hw).2.1⟩⟩⟩
  rw [hfound] at hdrawn ⊢
  have hsize : (db key).size ≤ n := hholds.2
  have hlen : m.len = (db key).size := hm.len_eq
  dsimp only
  rw [hlen]
  exact wp_randmember hkey (by omega) hne halive hat hrep _ hdrawn fun picked hsamples =>
    ⟨picked, hsamples, .inr ⟨isError_pickedReply count picked, rfl, fun _ =>
      ⟨hholds, SameElse.refl T_SET key v⟩⟩⟩

end Specs

/-! ## Several sets -/

section Several

variable {keys done : List Bytes} {found : Bytes → Members} {v₀ : View}

theorem wp_next_set (hn : n < 2 ^ 63) (h : kind.Loaded cx n keys found v₀ done v)
    (hmem : key ∈ keys) (hkey : key ≠ []) {g : List Bytes → R γ}
    (hg : ∀ v', kind.Loaded cx n keys found v₀ (key :: done) v' → (g (found key).toList).wp Q v') :
    (set_members cx key >>= g).wp Q v := by
  unfold set_members
  rw [bind_assoc]
  refine wellFormed.wp_next hn h hmem hkey (fun v' hempty hloaded _ => ?_)
    fun m f hne halive hat hrep hm hsize hloaded => ?_
  · have hnil : found key = ∅ := hempty
    have hgo := hg v' hloaded
    rw [hnil, toList_empty] at hgo
    exact hgo
  · have hsize : (found key).size ≤ n := hsize
    change ((elements key SUB_SET >>= fun l => pure (l.map Prod.fst)) >>= g).wp Q v
    rw [bind_assoc]
    exact wp_list hkey hat.elements hrep (by omega) (hg v hloaded)

theorem ofList_toList (s : Members) : Std.ExtTreeSet.ofList s.toList = s := by
  refine Std.ExtTreeSet.ext_mem fun b => ?_
  rw [Std.ExtTreeSet.mem_ofList, List.contains_iff_mem, Std.ExtTreeSet.mem_toList]

theorem wp_loadAll (srcs : List Bytes) (hn : n < 2 ^ 63)
    (h : kind.Loaded cx n keys found v₀ done v) (hkeys : ∀ k ∈ srcs, k ∈ keys ∧ k ≠ [])
    {g : List Members → R γ}
    (hg : ∀ v' done', (∀ k, k ∈ done' ↔ k ∈ srcs ∨ k ∈ done) →
      kind.Loaded cx n keys found v₀ done' v' → (g (srcs.map found)).wp Q v') :
    (loadAll cx srcs >>= g).wp Q v := by
  induction srcs generalizing v done g with
  | nil => exact hg v done (fun k => by simp) h
  | cons k ks ih =>
      rw [loadAll, bind_assoc]
      obtain ⟨⟨hmem, hkey⟩, hkeys⟩ := List.forall_mem_cons.mp hkeys
      refine wp_next_set hn h hmem hkey fun v₁ h₁ => ?_
      rw [bind_assoc]
      refine ih h₁ hkeys fun v₂ done₂ hdone₂ h₂ => ?_
      rw [ofList_toList]
      refine hg v₂ done₂ (fun k' => ?_) h₂
      rw [hdone₂, List.mem_cons, List.mem_cons]
      tauto

theorem wp_sop (o : SetOp) {srcs : List Bytes} (hn : n < 2 ^ 63) {db : Bytes → Members}
    (hkeys : ∀ k ∈ srcs, k ≠ [] ∧ kind.Holds n v k (db k)) :
    (sop cx o srcs).wp (fun r w => kind.Post cx n v srcs
      (.array ((o.of (kind.found cx v db) srcs).toList.map .bulk), kind.found cx v db) w r) v := by
  unfold sop
  refine wp_loadAll srcs hn (Kind.loaded_start fun k hk => (hkeys k hk).2)
    (fun k hk => ⟨hk, (hkeys k hk).1⟩) fun v' done hdone h => ?_
  have hok : (Resp.array ((o.of (kind.found cx v db) srcs).toList.map .bulk)).isError = false := rfl
  exact h.post hok fun k => by simpa using hdone k

theorem size_apply_le (o : SetOp) (s t : Members) : (o.apply s t).size ≤ s.size + t.size := by
  cases o with
  | inter => exact Std.ExtTreeSet.size_inter_le_size_left.trans (Nat.le_add_right ..)
  | union => exact Std.ExtTreeSet.size_union_le_size_add_size
  | diff => exact Std.ExtTreeSet.size_diff_le_size_left.trans (Nat.le_add_right ..)

theorem size_foldl_le (o : SetOp) (ss : List Members) (hss : ∀ t ∈ ss, t.size ≤ n) (s : Members) :
    (ss.foldl o.apply s).size ≤ s.size + ss.length * n := by
  induction ss generalizing s with
  | nil => exact Nat.le_add_right ..
  | cons t ts ih =>
      obtain ⟨ht, hts⟩ := List.forall_mem_cons.mp hss
      have happly := size_apply_le o s t
      have hrest := ih hts (o.apply s t)
      rw [List.foldl_cons, List.length_cons, Nat.succ_mul]
      omega

/-- No set is larger than the sets it comes from together. -/
theorem size_combine_le (o : SetOp) {ss : List Members} (hss : ∀ t ∈ ss, t.size ≤ n) :
    (o.combine ss).size ≤ ss.length * n := by
  cases ss with
  | nil => exact Nat.zero_le _
  | cons s ss =>
      obtain ⟨hs, hss⟩ := List.forall_mem_cons.mp hss
      have hfold := size_foldl_le o ss hss s
      rw [List.length_cons, Nat.succ_mul]
      exact hfold.trans (by omega)

theorem mem_insertMembers (members : List Bytes) {c : Bytes} :
    c ∈ insertMembers s members ↔ c ∈ members ∨ c ∈ s := by
  induction members generalizing s with
  | nil => exact ⟨.inr, fun h => h.resolve_left List.not_mem_nil⟩
  | cons b bs ih =>
      change c ∈ insertMembers (s.insert b) bs ↔ _
      rw [ih, mem_insert, List.mem_cons]
      tauto

theorem insertMembers_toList (s : Members) : insertMembers ∅ s.toList = s := by
  refine Std.ExtTreeSet.ext_mem fun b => ?_
  rw [mem_insertMembers, Std.ExtTreeSet.mem_toList]
  exact or_iff_left Std.ExtTreeSet.not_mem_empty

theorem size_found_le {db : Bytes → Members} (h : kind.Holds n v key (db key)) :
    (kind.found cx v db key).size ≤ n := by
  unfold Kind.found
  split
  · exact Nat.zero_le n
  · exact h.2

theorem wp_sopstore (hw : cx.readonly = false) (o : SetOp) {dst : Bytes} {srcs : List Bytes}
    (hn : max n (srcs.length * n) < 2 ^ 63) {db : Bytes → Members}
    (hkeys : ∀ k ∈ dst :: srcs, k ≠ [] ∧ kind.Holds n v k (db k)) :
    (sopstore cx o dst srcs).wp (fun r w => kind.Post cx (max n (srcs.length * n)) v (dst :: srcs)
      (int (o.of (kind.found cx v db) srcs).size,
        Function.update (kind.found cx v db) dst (o.of (kind.found cx v db) srcs)) w r) v := by
  have hn' : n < 2 ^ 63 := lt_of_le_of_lt (Nat.le_max_left ..) hn
  unfold sopstore
  refine wp_loadAll srcs hn' (Kind.loaded_start fun k hk => (hkeys k hk).2)
    (fun k hk => ⟨List.mem_cons_of_mem _ hk, (hkeys k (List.mem_cons_of_mem _ hk)).1⟩)
    fun v₁ done hdone h => ?_
  obtain ⟨db₁, hdb₁, -⟩ := h.stands
  obtain ⟨⟨f₁, hat₁, -⟩, hsize₁⟩ := hdb₁ dst List.mem_cons_self
  have hres : (o.of (kind.found cx v db) srcs).size ≤ srcs.length * n := by
    have hsizes : ∀ t ∈ srcs.map (kind.found cx v db), t.size ≤ n := by
      intro t ht
      obtain ⟨k, hk, rfl⟩ := List.mem_map.mp ht
      exact size_found_le (hkeys k (List.mem_cons_of_mem _ hk)).2
    have hcombine := size_combine_le o hsizes
    rwa [List.length_map] at hcombine
  have hsize₁ : (db₁ dst).size ≤ n := hsize₁
  refine wp_clear (hkeys dst List.mem_cons_self).1 (hsize₁.trans_lt hn') hat₁ hw
    fun v₂ hat₂ hsame₂ => ?_
  have hnone : deadlineOf (v₂ (expk dst)) = none := by
    rw [(hat₂.absent rfl).2]
    rfl
  have hrep₂ : Rep ∅ Fams.none := wellFormed.rep_empty
  have hlen : (∅ : Members).size + (o.of (kind.found cx v db) srcs).toList.length < 2 ^ 63 := by
    rw [Std.ExtTreeSet.size_empty, Std.ExtTreeSet.length_toList, Nat.zero_add]
    exact lt_of_le_of_lt (hres.trans (Nat.le_max_right ..)) hn
  refine wp_addAll (o.of (kind.found cx v db) srcs).toList 0 hat₂.elements hrep₂ (isMeta_new T_SET)
    hlen fun v₃ m₃ f₃ helems₃ hrep₃ hm₃ honly₃ _ => ?_
  rw [insertMembers_toList] at hrep₃ hm₃
  dsimp only
  rw [← hnone]
  refine wellFormed.wp_save hm₃ honly₃ helems₃ hrep₃ (hres.trans (Nat.le_max_right ..)) hn
    hat₂.deadline fun v₄ hleft hsame₄ _ => ?_
  have helse := hsame₂.trans hsame₄
  refine .answered rfl (fun _ key hkey => ?_) fun _ k hk => ?_
  · change kind.Holds _ v₄ key (Function.update (kind.found cx v db) dst _ key)
    by_cases hne : key = dst
    · rw [hne, Function.update_self]
      exact hleft
    · rw [Function.update_of_ne hne]
      have hsrc := (List.mem_cons.mp hkey).resolve_left hne
      exact ((h.loaded hw key ((hdone key).mpr (.inl hsrc))).congr
        fun k hk => helse k (not_owns_of_ne hne hk)).mono (Nat.le_max_left ..)
  · rw [helse k (hk dst List.mem_cons_self)]
    refine h.same hw k fun key hkey => hk key ?_
    exact List.mem_cons_of_mem _ (((hdone key).mp hkey).resolve_right List.not_mem_nil)

/-! ## SMOVE -/

/-- The header of the second set, of a new one if there is none. -/
theorem wp_next_new (hn : n < 2 ^ 63) (hw : cx.readonly = false)
    (h : kind.Loaded cx n keys found v₀ done v) (hmem : key ∈ keys) (hkey : key ≠ [])
    {g : Meta × Option UInt64 → R γ}
    (hg : ∀ v' m, kind.Loaded cx n keys found v₀ (key :: done) v' →
      IsMeta T_SET (found key).size m → SameElse T_SET key v v' → (found key ≠ ∅ → v' = v) →
      (g (m, deadlineOf (v' (expk key)))).wp Q v') :
    (coll_or_new cx key T_SET >>= g).wp Q v := by
  unfold coll_or_new
  rw [bind_assoc]
  refine wellFormed.wp_next hn h hmem hkey (fun v' hempty hloaded hsame => ?_)
    fun m f _ _ _ _ hm _ hloaded => hg v m hloaded hm (SameElse.refl T_SET key v) fun _ => rfl
  have hnil : found key = ∅ := hempty
  obtain ⟨⟨f, hat, -⟩, -⟩ := hloaded.loaded hw key List.mem_cons_self
  have hsize : (found key).size = 0 := by
    rw [hnil]
    exact Std.ExtTreeSet.size_empty
  have hat : CollAt T_SET v' key (found key).size f := hat
  rw [hsize] at hat
  have hgo := hg v' (Meta.new T_SET) hloaded (by rw [hsize]; exact isMeta_new T_SET) (hsame hw)
    fun hne => absurd hnil hne
  rw [(hat.absent rfl).2] at hgo
  exact hgo

theorem means_absent {src dst member : Bytes} (h : member ∉ found src) :
    (Call.move src dst member).Means found (int 0) found :=
  ⟨congrArg int (if_neg h).symm, (if_neg fun hand => h hand.1).symm⟩

theorem means_same {src dst member : Bytes} (h : member ∈ found src) (heq : src = dst) :
    (Call.move src dst member).Means found (int 1) found :=
  ⟨congrArg int (if_pos h).symm, (if_neg fun hand => hand.2 heq).symm⟩

theorem means_moved {src dst member : Bytes} (h : member ∈ found src) (hne : src ≠ dst) :
    (Call.move src dst member).Means found (int 1)
      (Function.update (Function.update found src ((found src).erase member)) dst
        ((found dst).insert member)) :=
  ⟨congrArg int (if_pos h).symm, (if_pos ⟨h, hne⟩).symm⟩

theorem wp_smove (hw : cx.readonly = false) {src dst member : Bytes} (hn : n + 1 < 2 ^ 63)
    {db : Bytes → Members} (hkeys : ∀ k ∈ [src, dst], k ≠ [] ∧ kind.Holds n v k (db k)) :
    (smove cx src dst member).wp (fun r w => ∃ out,
      (Call.move src dst member).Means (kind.found cx v db) out.1 out.2 ∧
      kind.Post cx (n + 1) v ((Call.move src dst member).touches (kind.found cx v db)) out w r)
      v := by
  obtain ⟨hsrc, _⟩ := hkeys src List.mem_cons_self
  obtain ⟨hdst, _⟩ := hkeys dst (List.mem_pair.mpr (.inr rfl))
  have hn' : n < 2 ^ 63 := by omega
  unfold smove
  refine wellFormed.wp_next hn' (Kind.loaded_start fun k hk => (hkeys k hk).2)
    List.mem_cons_self hsrc (fun v₁ hempty h₁ _ => ?_) fun sm f hne halive _ _ hsm hsize h₁ => ?_
  · -- the second key is not looked at
    have hnil : kind.found cx v db src = ∅ := hempty
    refine ⟨(int 0, kind.found cx v db), means_absent ?_, ?_⟩
    · rw [hnil]
      exact Std.ExtTreeSet.not_mem_empty
    · have htouches : (Call.move src dst member).touches (kind.found cx v db) = [src] := if_pos hnil
      rw [htouches]
      refine .answered rfl (fun _ key hkey => ?_) fun _ k hk => ?_
      · exact (h₁.loaded hw key hkey).mono (Nat.le_succ n)
      · exact h₁.same hw k hk
  have hnil : kind.found cx v db src ≠ ∅ := hne
  have hsize : (kind.found cx v db src).size ≤ n := hsize
  have htouches : (Call.move src dst member).touches (kind.found cx v db) = [src, dst] :=
    if_neg hnil
  rw [htouches]
  refine wp_next_new hn' hw h₁ (List.mem_pair.mpr (.inr rfl)) hdst
    fun v₂ dm h₂ hdm hsame₂ hthere => ?_
  have hboth : ∀ key, key ∈ [dst, src] ↔ key ∈ [src, dst] := fun key => by
    rw [List.mem_pair, List.mem_pair, or_comm]
  have hkept : ∀ reply, reply.isError = false → kind.Post cx (n + 1) v [src, dst]
      (reply, kind.found cx v db) v₂ (.ok reply) := fun reply hok =>
    .answered hok
      (fun _ key hkey => (h₂.loaded hw key ((hboth key).mpr hkey)).mono (Nat.le_succ n))
      fun _ k hk => h₂.same hw k fun key hkey => hk key ((hboth key).mp hkey)
  obtain ⟨⟨f₂, hat₂, hrep₂⟩, -⟩ := h₂.loaded hw src (List.mem_pair.mpr (.inr rfl))
  have hat₂ : CollAt T_SET v₂ src (kind.found cx v db src).size f₂ := hat₂
  have hdeadline : v₂ (expk src) = v (expk src) := by
    by_cases heq : src = dst
    · rw [hthere (heq ▸ hnil)]
    · exact hsame₂ _ (not_owns_of_ne heq (.inr (.inl rfl)))
  refine (wp_get_elem hat₂.elements set_mem).mpr ?_
  obtain ⟨l₂, hl₂⟩ := hrep₂
  by_cases hmem : member ∈ kind.found cx v db src
  swap
  · have hnone : (f₂ SUB_SET member).isNone = true := by
      rw [Option.isNone_iff_eq_none]
      by_contra hsome
      exact hmem ((hl₂.isSome member).mp (Option.isSome_iff_ne_none.mpr hsome))
    rw [if_pos hnone]
    exact ⟨(int 0, kind.found cx v db), means_absent hmem, hkept (int 0) rfl⟩
  have hsome : (f₂ SUB_SET member).isNone = false :=
    Option.isNone_eq_false_iff.mpr ((hl₂.isSome member).mpr hmem)
  rw [if_neg (by rw [hsome]; decide)]
  by_cases heq : src = dst
  · rw [if_pos heq]
    exact ⟨(int 1, kind.found cx v db), means_same hmem heq, hkept (int 1) rfl⟩
  rw [if_neg heq, ← hdeadline]
  refine wp_set_rem hat₂.elements ⟨l₂, hl₂⟩ hsm (by omega) member
    fun v₃ m₃ f₃ helems₃ hrep₃ hm₃ honly₃ _ => ?_
  have herase : ((kind.found cx v db src).erase member).size ≤ n :=
    Std.ExtTreeSet.size_erase_le.trans hsize
  refine wellFormed.wp_save hm₃ honly₃ helems₃ hrep₃ herase hn' hat₂.deadline
    fun v₄ hleft₄ hsame₄ _ => ?_
  have hne : dst ≠ src := fun h => heq h.symm
  obtain ⟨⟨f₄, hat₄, hrep₄⟩, hdsize⟩ := (h₂.loaded hw dst List.mem_cons_self).congr
    fun k hk => hsame₄ k (not_owns_of_ne hne hk)
  have hat₄ : CollAt T_SET v₄ dst (kind.found cx v db dst).size f₄ := hat₄
  have hdsize : (kind.found cx v db dst).size ≤ n := hdsize
  have hexp : v₂ (expk dst) = v₄ (expk dst) :=
    (hsame₄ _ (not_owns_of_ne hne (.inr (.inl rfl)))).symm
  rw [hexp]
  refine wp_set_add hat₄.elements hrep₄ hdm (by omega) member
    fun v₅ m₅ f₅ helems₅ hrep₅ hm₅ honly₅ hsame₅ => ?_
  -- wherever the second set ends, both are stored and nothing else has changed
  have hdone : ∀ w, kind.Holds (n + 1) w dst ((kind.found cx v db dst).insert member) →
      SameElse T_SET dst v₄ w → ∃ out,
        (Call.move src dst member).Means (kind.found cx v db) out.1 out.2 ∧
        kind.Post cx (n + 1) v [src, dst] out w (.ok (int 1)) := by
    intro w hholds hsame
    refine ⟨(int 1, Function.update (Function.update (kind.found cx v db) src
      ((kind.found cx v db src).erase member)) dst ((kind.found cx v db dst).insert member)),
      means_moved hmem heq, ?_⟩
    refine .answered rfl (fun _ key hkey => ?_) fun _ k hk => ?_
    · change kind.Holds (n + 1) w key
        (Function.update (Function.update (kind.found cx v db) src _) dst _ key)
      rcases List.mem_pair.mp hkey with rfl | rfl
      · rw [Function.update_of_ne heq, Function.update_self]
        exact (hleft₄.congr fun k hk => hsame k (not_owns_of_ne heq hk)).mono (Nat.le_succ n)
      · rw [Function.update_self]
        exact hholds
    · have hsrc' := hk src List.mem_cons_self
      have hdst' := hk dst (List.mem_pair.mpr (.inr rfl))
      rw [hsame k hdst', hsame₄ k hsrc']
      exact h₂.same hw k fun key hkey => hk key ((hboth key).mp hkey)
  dsimp only
  by_cases hnew : member ∈ kind.found cx v db dst
  · rw [if_neg (by simpa using hnew)]
    obtain rfl := hsame₅ hnew
    refine hdone v₅ ?_ (SameElse.refl T_SET dst v₅)
    rw [insert_of_mem hnew]
    exact ⟨⟨f₄, hat₄, hrep₄⟩, hdsize.trans (Nat.le_succ n)⟩
  · rw [if_pos (by simpa using hnew)]
    refine wellFormed.wp_save hm₅ honly₅ helems₅ hrep₅ ?_ hn hat₄.deadline
      fun v₆ hleft₆ hsame₆ _ => hdone v₆ hleft₆ hsame₆
    exact Std.ExtTreeSet.size_insert_le.trans (Nat.succ_le_succ hdsize)

end Several

/-! ## All commands -/

section All

variable {found : Bytes → Members} {w : View} {r : Except Resp Resp}

/-- A command on one set that answers and leaves what it means. -/
theorem does_means {c : Call} {o : Members} {reply : Resp} (h : kind.Does cx n v key (reply, o) r w)
    (htouches : c.touches found = [key])
    (hmeans : c.Means found reply (Function.update found key o)) :
    ∃ out, c.Means found out.1 out.2 ∧ kind.Post cx n v (c.touches found) out w r := by
  refine ⟨(reply, Function.update found key o), hmeans, ?_⟩
  rw [htouches]
  exact h.post (Function.update_self ..)

/-- A command on one set that leaves it as it was found. -/
theorem does_reads {c : Call} {reply : Resp} (h : kind.Does cx n v key (reply, found key) r w)
    (htouches : c.touches found = [key]) (hmeans : c.Means found reply found) :
    ∃ out, c.Means found out.1 out.2 ∧ kind.Post cx n v (c.touches found) out w r := by
  refine ⟨(reply, found), hmeans, ?_⟩
  rw [htouches]
  exact h.post rfl

/-- Every command does what it means for the sets that are found. -/
theorem wp_call (c : Call) (draws : List UInt64) {db : Bytes → Members}
    (hread : cx.readonly = true → c.reads = true)
    (hkeys : ∀ k ∈ c.keys, k ≠ [] ∧ kind.Holds n v k (db k))
    (hdrawn : c.Drawn draws (kind.found cx v db)) (hn : c.grows n < 2 ^ 63) :
    (c.exec cx draws).wp (fun r w => ∃ out, c.Means (kind.found cx v db) out.1 out.2 ∧
      kind.Post cx (c.grows n) v (c.touches (kind.found cx v db)) out w r) v := by
  have hwrite : c.reads = false → cx.readonly = false := by
    intro hreads
    by_contra hne
    rw [hread (by simpa using hne)] at hreads
    cases hreads
  cases c with
  | add key members =>
      obtain ⟨hkey, hholds⟩ := hkeys key List.mem_cons_self
      exact R.wp_mono (wp_sadd (hwrite rfl) hkey hn hholds) fun r w h => does_means h rfl ⟨rfl, rfl⟩
  | rem key members =>
      obtain ⟨hkey, hholds⟩ := hkeys key List.mem_cons_self
      exact R.wp_mono (wp_srem (hwrite rfl) hkey hn hholds members) fun r w h =>
        does_means h rfl ⟨rfl, rfl⟩
  | ismember key member =>
      obtain ⟨hkey, hholds⟩ := hkeys key List.mem_cons_self
      exact R.wp_mono (wp_sismember hkey hn hholds member) fun r w h => does_reads h rfl ⟨rfl, rfl⟩
  | mismember key members =>
      obtain ⟨hkey, hholds⟩ := hkeys key List.mem_cons_self
      exact R.wp_mono (wp_smismember hkey hn hholds members) fun r w h =>
        does_reads h rfl ⟨rfl, rfl⟩
  | card key =>
      obtain ⟨hkey, hholds⟩ := hkeys key List.mem_cons_self
      exact R.wp_mono (wp_scard hkey hn hholds) fun r w h => does_reads h rfl ⟨rfl, rfl⟩
  | all key =>
      obtain ⟨hkey, hholds⟩ := hkeys key List.mem_cons_self
      exact R.wp_mono (wp_smembers hkey hn hholds) fun r w h => does_reads h rfl ⟨rfl, rfl⟩
  | pop key count =>
      obtain ⟨hkey, hholds⟩ := hkeys key List.mem_cons_self
      refine R.wp_mono (wp_spop (hwrite rfl) hkey hn hholds count draws) ?_
      rintro r w ⟨picked, hpicks, h⟩
      exact does_means h rfl ⟨picked, hpicks, rfl, rfl⟩
  | randmember key count =>
      obtain ⟨hkey, hholds⟩ := hkeys key List.mem_cons_self
      refine R.wp_mono (wp_srandmember hkey hn hholds count hdrawn) ?_
      rintro r w ⟨picked, hsamples, h⟩
      exact does_reads h rfl ⟨picked, hsamples, rfl, rfl⟩
  | op o srcs =>
      refine R.wp_mono (wp_sop o hn hkeys) fun r w h => ?_
      exact ⟨(_, kind.found cx v db), ⟨rfl, rfl⟩, h⟩
  | opstore o dst srcs =>
      refine R.wp_mono (wp_sopstore (hwrite rfl) o hn hkeys) fun r w h => ?_
      exact ⟨(_, _), ⟨rfl, rfl⟩, h⟩
  | move src dst member => exact wp_smove (hwrite rfl) hn hkeys

theorem parseCount_error {pop : Bool} {a : Bytes} {e : Resp} (h : parseCount pop a = .error e) :
    e.isError = true := by
  unfold parseCount at h
  split at h
  · cases h
    exact isError_err _
  · split_ifs at h
    all_goals cases h
    all_goals exact isError_err _

theorem parse_error {name : Name} {a : List Bytes} {e : Resp} (h : parse name a = .error e) :
    e.isError = true := by
  unfold parse at h
  split at h
  case h_8 => exact parseCount_error (map_error h)
  case h_10 => exact parseCount_error (map_error h)
  all_goals cases h
  exact isError_err _

end All

theorem touches_subset (c : Call) (found : Bytes → Members) :
    ∀ key ∈ c.touches found, key ∈ c.keys := by
  intro key hkey
  cases c with
  | move src dst member =>
      change key ∈ (if found src = ∅ then [src] else [src, dst]) at hkey
      split_ifs at hkey with hnil
      · rw [List.mem_singleton.mp hkey]
        exact List.mem_cons_self
      · exact hkey
  | _ => exact hkey

theorem le_grows (c : Call) (n : Nat) : n ≤ c.grows n := by
  cases c with
  | add key members => exact Nat.le_add_right ..
  | move src dst member => exact Nat.le_succ n
  | opstore o dst srcs => exact Nat.le_max_left ..
  | _ => exact le_rfl

theorem lawful : kind.Lawful where
  toWellFormed := wellFormed
  le_grows := by
    intro line n
    unfold kind
    dsimp only
    split
    · exact le_grows _ n
    · exact le_rfl
  touches_keys := by
    intro line db key hkey
    unfold kind at hkey ⊢
    dsimp only at hkey ⊢
    cases hparse : parse line.name line.args with
    | error e =>
        rw [hparse] at hkey
        exact absurd hkey List.not_mem_nil
    | ok c =>
        rw [hparse] at hkey
        exact touches_subset c db key hkey
  spec := by
    intro cx line n v db hread hkeys hdrawn hn
    change (exec_inner cx line).wp _ v
    unfold exec_inner
    cases hparse : parse line.name line.args with
    | error e =>
        refine ⟨(e, db), ?_, .refused (parse_error hparse)⟩
        unfold kind
        simp only [hparse]
    | ok c =>
        have hcall := hdrawn c hparse
        unfold kind at hread hkeys hn
        simp only [hparse] at hread hkeys hn
        refine R.wp_mono (wp_call c line.draws hread hkeys hcall hn) ?_
        rintro r w ⟨out, hmeans, hpost⟩
        refine ⟨out, ?_, ?_⟩
        · unfold kind
          simp only [hparse]
          exact hmeans
        · unfold kind at hpost ⊢
          simp only [hparse]
          exact hpost

end Commands

/-- SADD k a b c, SPOP k, SRANDMEMBER k, SMOVE k j a, SUNIONSTORE k k j. -/
def mixing : List Line :=
  [⟨.sadd, [[107], [97], [98], [99]], []⟩, ⟨.spop, [[107]], [7]⟩, ⟨.srandmember, [[107]], [5]⟩,
    ⟨.smove, [[107], [106], [97]], []⟩, ⟨.opstore .union, [[107], [107], [106]], []⟩]

theorem enough_one (len : Nat) (d : UInt64) : Enough len 1 [d] := by
  intro _
  have hcard : ([d].map fun d => d.toNat % len).toFinset.card = 1 := by simp
  rw [hcard]
  exact Nat.min_le_left 1 len

end Sets
end StrikeDB
