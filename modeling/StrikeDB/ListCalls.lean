import StrikeDB.ListSpecs
import StrikeDB.ListValues

/-!
# StrikeDB: list commands, one by one

What each list command answers and leaves, from the sequence that it finds.
-/

namespace StrikeDB
namespace Lists

open Ctx

variable {γ : Type} {Q : Except Resp γ → View → Prop} {cx : Ctx} {n : Nat} {v v' : View}
  {key : Bytes} {l : List Bytes}

/-- A command on one key leaves a sequence there, and nothing else changes; on a
snapshot nothing changes at all. -/
structure Leaves (cx : Ctx) (n : Nat) (v v' : View) (key : Bytes) (l : List Bytes) : Prop where
  kept : cx.readonly = true → v' = v
  holds : cx.readonly = false → Holds n v' key l ∧ SameElse key v v' ∧ dead cx v' key = false

theorem Leaves.write (hw : cx.readonly = false) (h : Holds n v' key l) (hsame : SameElse key v v')
    (halive : dead cx v' key = false) : Leaves cx n v v' key l where
  kept := fun hr => absurd (hr.symm.trans hw) (by decide)
  holds := fun _ => ⟨h, hsame, halive⟩

theorem Leaves.refl (h : Holds n v key l) (halive : dead cx v key = false) :
    Leaves cx n v v key l where
  kept := fun _ => rfl
  holds := fun _ => ⟨h, SameElse.refl key v, halive⟩

theorem dead_of_absent (h : v (expk key) = none) : dead cx v key = false := by
  unfold dead
  rw [h]
  rfl

/-- The answer and what is left. -/
def Does (cx : Ctx) (n : Nat) (v : View) (key : Bytes) (reply : Resp) (l : List Bytes)
    (r : Except Resp Resp) (v' : View) : Prop :=
  r = .ok reply ∧ Leaves cx n v v' key l

/-- The key is one that its scans can serve, if they are needed for purging it. -/
def Purges (cx : Ctx) (v : View) (key : Bytes) : Prop := dead cx v key = true → key ≠ []

theorem wp_found (hkey : Purges cx v key) (hn : n < 2 ^ 63) (h : Holds n v key l)
    {g : Option (Meta × Option UInt64) → R γ}
    (hgone : ∀ v', live cx v key l = [] → Leaves cx n v v' key [] → (g none).wp Q v')
    (hthere : ∀ head m, ListAt v key head l → Room n head l → l ≠ [] → live cx v key l = l →
      dead cx v key = false → IsMeta m head l → (g (some (m, deadlineOf (v (expk key))))).wp Q v) :
    (cx.coll key T_LIST >>= g).wp Q v := by
  obtain ⟨head, hat, hroom⟩ := h
  refine wp_coll hkey hn hat hroom (fun v' hlive hread hwrite => ?_) fun m hne hlive hm => ?_
  · refine hgone v' hlive ⟨hread, fun hw => ?_⟩
    obtain ⟨hnil, hsame⟩ := hwrite hw
    have hlow := hroom.low
    have hhigh := hroom.high
    refine ⟨⟨head, hnil, hlow, ?_, Nat.zero_le _⟩, hsame, dead_of_absent (hnil.absent rfl).2⟩
    rw [List.length_nil]
    push_cast
    omega
  · exact hthere head m hat hroom hne hlive (dead_eq_false_of_live hne hlive) hm

/-! ## Reading one element or none -/

theorem llen_spec (hkey : Purges cx v key) (hn : n < 2 ^ 63) (h : Holds n v key l) :
    (llen cx key).wp (Does cx n v key (int (live cx v key l).length) (live cx v key l)) v := by
  refine wp_found hkey hn h (fun v' hlive hleaves => ?_) fun head m hat hroom hne hlive halive hm => ?_
  · rw [hlive]
    exact ⟨rfl, hleaves⟩
  · rw [hlive]
    refine ⟨?_, Leaves.refl h halive⟩
    rw [hm.len_eq]

theorem lindex_spec {a : Bytes} {i : Int} (ha : parse_i64 a = some i) (hkey : Purges cx v key)
    (hn : n < 2 ^ 63) (h : Holds n v key l) :
    (lindex cx key a).wp (Does cx n v key
      ((((at_ (live cx v key l) i).bind fun i => (live cx v key l)[i]?).map .bulk).getD .nil)
      (live cx v key l)) v := by
  unfold lindex need_int
  rw [ha]
  refine wp_found hkey hn h (fun v' hlive hleaves => ?_) fun head m hat hroom hne hlive halive hm => ?_
  · rw [hlive]
    refine ⟨?_, hleaves⟩
    have hnone : at_ [] i = none := by
      unfold at_
      exact if_neg (by simp)
    rw [hnone]
    rfl
  · simp only [hm.len_eq, hm.head_eq]
    rw [hlive, norm_index_eq]
    by_cases hout : norm_index i l.length < 0 ∨ norm_index i l.length ≥ l.length
    · rw [if_pos hout, if_pos hout]
      exact ⟨rfl, Leaves.refl h halive⟩
    · rw [if_neg hout, if_neg hout, wp_get]
      have hs : IsI64 (head + norm_index i l.length) := hroom.isI64 hn (by omega) (by omega)
      rw [hat.elements.at_ _ hs]
      refine ⟨?_, Leaves.refl h halive⟩
      have hplace : (head + norm_index i l.length - head).toNat = (norm_index i l.length).toNat := by
        omega
      rw [window, if_neg (by omega), hplace]
      cases hget : l[(norm_index i l.length).toNat]? with
      | none => simp [hget]
      | some x => simp [hget, val_bytes]

/-! ## Pushing and popping -/

theorem push_spec (hw : cx.readonly = false) (left must_exist : Bool) (vals : List Bytes)
    (hkey : Purges cx v key) (hn : n + vals.length < 2 ^ 63) (h : Holds n v key l) :
    (push cx left must_exist key vals).wp
      (if must_exist ∧ live cx v key l = [] then Does cx (n + vals.length) v key (int 0) []
        else Does cx (n + vals.length) v key (int (extend left vals (live cx v key l)).length)
          (extend left vals (live cx v key l))) v := by
  have hmono : ∀ {v' key l}, Holds n v' key l → Holds (n + vals.length) v' key l :=
    fun ⟨head, hat, hroom⟩ => ⟨head, hat, hroom.mono (Nat.le_add_right ..)⟩
  refine wp_found hkey (by omega) h (fun v' hlive hleaves => ?_)
    fun head m hat hroom hne hlive halive hm => ?_
  · obtain ⟨hholds, hsame, halive⟩ := hleaves.holds hw
    rw [hlive]
    cases must_exist with
    | true => exact ⟨rfl, Leaves.write hw (hmono hholds) hsame halive⟩
    | false =>
        simp only [Option.isNone_none, Bool.and_false, Bool.false_eq_true, if_false,
          Option.getD_none, false_and]
        obtain ⟨head, hat, hroom⟩ := hholds
        obtain ⟨-, hexp⟩ := hat.absent rfl
        have helems : Elems v' key (window 0 []) :=
          hat.elements.congr fun s _ => by rw [window_nil, window_nil]
        refine wp_pushAll left vals isMeta_new helems ⟨by omega, by simp, by simp⟩ hn
          fun m' head' v'' hm' helems' hroom' honly => ?_
        have hdeadline : none = deadlineOf (v' (expk key)) := by rw [hexp]; rfl
        rw [hdeadline]
        refine wp_put_meta hn hm' hroom' honly helems' hat.deadline fun w hholds hsame' hlater => ?_
        refine ⟨?_, Leaves.write hw hholds (hsame.trans hsame') (hlater.alive halive)⟩
        rw [hm'.len_eq]
  · have hfound : ¬ (must_exist = true ∧ live cx v key l = []) :=
      fun hnil => hne (hlive.symm.trans hnil.2)
    rw [if_neg hfound, hlive]
    simp only [Option.isNone_some, Bool.false_and, Bool.false_eq_true, if_false, Option.getD_some]
    refine wp_pushAll left vals hm hat.elements hroom hn
      fun m' head' v' hm' helems' hroom' honly => ?_
    refine wp_put_meta hn hm' hroom' honly helems' hat.deadline fun v'' hholds hsame hlater => ?_
    refine ⟨?_, Leaves.write hw hholds hsame (hlater.alive halive)⟩
    rw [hm'.len_eq]

theorem ends_min (left : Bool) (k : Nat) (l : List Bytes) :
    ends left (min k l.length) l = ends left k l := by
  cases left with
  | true =>
      simp only [ends, if_true]
      rw [List.take_eq_take_iff]
      omega
  | false =>
      simp only [ends, Bool.false_eq_true, if_false]
      rw [List.take_eq_take_iff, List.length_reverse]
      omega

theorem shorten_min (left : Bool) (k : Nat) (l : List Bytes) :
    shorten left (min k l.length) l = shorten left k l := by
  cases left with
  | true =>
      simp only [shorten, if_true]
      rcases Nat.le_total k l.length with hle | hle
      · rw [Nat.min_eq_left hle]
      · rw [Nat.min_eq_right hle, List.drop_length, List.drop_of_length_le hle]
  | false =>
      simp only [shorten, Bool.false_eq_true, if_false]
      have hlen : l.length - min k l.length = l.length - k := by omega
      rw [hlen]

/-- A count is understood as `count`. -/
def CountIs (a : Option Bytes) (count : Option Nat) : Prop :=
  match a with
  | none => count = none
  | some b => ∃ i, parse_i64 b = some i ∧ 0 ≤ i ∧ count = some i.toNat

/-- What LPOP and RPOP answer for a list that is there. -/
def popReply (left : Bool) (count : Option Nat) (l : List Bytes) : Resp :=
  match count with
  | none => ((ends left 1 l).head?.map .bulk).getD .nil
  | some n => .array ((ends left n l).map .bulk)

theorem ends_one_getLast (left : Bool) (l : List Bytes) :
    (ends left 1 l).getLast? = (ends left 1 l).head? := by
  unfold ends
  split
  · cases l <;> rfl
  · cases l.reverse <;> rfl

/-- `LPOP` and `RPOP` once their count is read. -/
theorem pop_eq (cx : Ctx) (left : Bool) (key : Bytes) {a : Option Bytes} {count : Option Nat}
    (ha : CountIs a count) :
    pop cx left key a = (do
      match ← cx.coll key T_LIST with
      | none => pure .nil
      | some (m, ttl) => do
          let (out, m) ← popAll cx key left (min (count.getD 1) m.len) [] m
          put_meta key m ttl
          match count with
          | none => pure ((out.getLast?.map .bulk).getD .nil)
          | some _ => pure (.array (out.map .bulk))) := by
  unfold pop
  cases a with
  | none =>
      obtain rfl : count = none := ha
      rfl
  | some b =>
      obtain ⟨i, hi, hpos, rfl⟩ := ha
      simp only [hi, ge_iff_le, hpos, if_true]
      rfl

theorem pop_spec (hw : cx.readonly = false) (left : Bool) {a : Option Bytes} {count : Option Nat}
    (ha : CountIs a count) (hkey : Purges cx v key) (hn : n < 2 ^ 63) (h : Holds n v key l) :
    (pop cx left key a).wp
      (if live cx v key l = [] then Does cx n v key .nil []
        else Does cx n v key (popReply left count (live cx v key l))
          (shorten left (count.getD 1) (live cx v key l))) v := by
  rw [pop_eq cx left key ha]
  refine wp_found hkey hn h (fun v' hlive hleaves => ?_) fun head m hat hroom hne hlive halive hm => ?_
  · rw [if_pos hlive]
    exact ⟨rfl, hleaves⟩
  · rw [if_neg fun hnil => hne (hlive.symm.trans hnil), hlive]
    simp only [hm.len_eq]
    refine wp_popAll left _ [] hm hat.elements hroom hn (Nat.min_le_right ..)
      fun m' head' v' hm' helems' hroom' honly => ?_
    rw [shorten_min] at hm' helems' hroom'
    rw [ends_min, List.nil_append]
    refine wp_put_meta hn hm' hroom' honly helems' hat.deadline fun v'' hholds hsame hlater => ?_
    cases count with
    | none =>
        refine ⟨?_, Leaves.write hw hholds hsame (hlater.alive halive)⟩
        change Except.ok (((ends left 1 l).getLast?.map Resp.bulk).getD .nil) = _
        rw [ends_one_getLast]
        rfl
    | some k => exact ⟨rfl, Leaves.write hw hholds hsame (hlater.alive halive)⟩

/-! ## Setting one element -/

/-- The command is refused with an error. -/
def Refuses (e : Resp) (r : Except Resp Resp) (_ : View) : Prop := r = .error e

theorem window_set {head : Int} {i : Nat} {x : Bytes} (hi : i < l.length) (s : Int) :
    window head (l.set i x) s = Function.update (window head l) (head + i) (some (.bytes x)) s := by
  by_cases hs : s = head + i
  · subst hs
    have hplace : (head + (i : Int) - head).toNat = i := by omega
    rw [Function.update_self, window, if_neg (by omega), hplace, List.getElem?_set_self hi]
    rfl
  · rw [Function.update_of_ne hs, window, window]
    by_cases hlt : s < head
    · rw [if_pos hlt, if_pos hlt]
    · rw [if_neg hlt, if_neg hlt, List.getElem?_set_ne (by omega)]

theorem lset_spec (hw : cx.readonly = false) {a : Bytes} {i : Int} (ha : parse_i64 a = some i)
    (x : Bytes) (hkey : Purges cx v key) (hn : n < 2 ^ 63) (h : Holds n v key l) :
    (lset cx key a x).wp
      (if live cx v key l = [] then Refuses (err "no such key")
        else
          match at_ (live cx v key l) i with
          | none => Refuses (err "index out of range")
          | some i => Does cx n v key ok ((live cx v key l).set i x)) v := by
  unfold lset need_int
  rw [ha]
  refine wp_found hkey hn h (fun v' hlive hleaves => ?_) fun head m hat hroom hne hlive halive hm => ?_
  · rw [if_pos hlive]
    exact rfl
  · rw [if_neg fun hnil => hne (hlive.symm.trans hnil), hlive, norm_index_eq]
    simp only [hm.len_eq, hm.head_eq]
    by_cases hout : norm_index i l.length < 0 ∨ norm_index i l.length ≥ l.length
    · rw [if_pos hout, if_pos hout]
      exact rfl
    · rw [if_neg hout, if_neg hout]
      have hs : IsI64 (head + norm_index i l.length) := hroom.isI64 hn (by omega) (by omega)
      have hplace : head + ((norm_index i l.length).toNat : Int) = head + norm_index i l.length := by
        omega
      refine wp_put_elem hat.elements hs fun v' helems honly => ?_
      have hset : Elems v' key (window head (l.set (norm_index i l.length).toNat x)) :=
        helems.congr fun s _ => by rw [window_set (by omega), hplace]
      have hmeta : IsMeta m head (l.set (norm_index i l.length).toNat x) := by
        refine ⟨hm.type_eq, ?_, hm.head_eq, ?_⟩
        · rw [hm.len_eq, List.length_set]
        · rw [hm.tail_eq, List.length_set]
      have hfits : Room n head (l.set (norm_index i l.length).toNat x) := by
        refine ⟨hroom.low, ?_, ?_⟩
        · rw [List.length_set]
          exact hroom.high
        · rw [List.length_set]
          exact hroom.len
      refine wp_put_meta hn hmeta hfits honly hset hat.deadline fun v'' hholds hsame hlater => ?_
      exact ⟨rfl, Leaves.write hw hholds hsame (hlater.alive halive)⟩

/-! ## Ranges -/

/-- Collecting every pair that is visited. -/
theorem visit_collect {f : Key → Value → Resp} (es : List (Key × Value)) (out : List Resp) :
    Elements.visit (fun out k x => (out ++ [f k x], true)) out es =
      (out ++ es.map fun e => f e.1 e.2, true) := by
  induction es generalizing out with
  | nil => simp [Elements.visit]
  | cons e es ih => simp [Elements.visit, ih]

theorem lrange_spec {a b : Bytes} {s e : Int} (ha : parse_i64 a = some s)
    (hb : parse_i64 b = some e) (hkey : key ≠ []) (hn : n < 2 ^ 63) (h : Holds n v key l) :
    (lrange cx key a b).wp
      (Does cx n v key (.array ((slice (live cx v key l) s e).map .bulk)) (live cx v key l)) v := by
  unfold lrange need_int
  rw [ha, hb]
  refine wp_found (fun _ => hkey) hn h (fun v' hlive hleaves => ?_)
    fun head m hat hroom hne hlive halive hm => ?_
  · rw [hlive, slice_eq, List.drop_nil, List.take_nil]
    exact ⟨rfl, hleaves⟩
  · rw [hlive]
    simp only [hm.len_eq, hm.head_eq]
    cases hrange : norm_range s e l.length with
    | none =>
        rw [norm_range_none hrange]
        exact ⟨rfl, Leaves.refl h halive⟩
    | some ab =>
        obtain ⟨a, b⟩ := ab
        obtain ⟨front, back, hl, rfl, hb⟩ := norm_range_some hrange
        have hstop : head + b + 1 = head + front.length + (slice l s e).length := by omega
        simp only [hstop]
        have hlists := lists_window hn hat.elements hroom hl
        have htogether := Elements.together_of_tagged hkey
          (Elements.tagged_prefix_ekey key SUB_LIST (seq_bytes (head + front.length)))
          (Elements.tagged_prefix_ekey key SUB_LIST (seq_bytes (head + front.length)))
          (Elements.tagged_prefix_ekey key SUB_LIST
            (seq_bytes (head + front.length + (slice l s e).length)))
        have hshort : (pairs key (head + front.length) (slice l s e)).length < usize_max := by
          have hlen := congrArg List.length hl
          rw [List.length_append, List.length_append] at hlen
          have hmax := hroom.len
          rw [length_pairs]
          unfold usize_max
          omega
        refine wp_each _ false usize_max htogether hlists hshort [] ?_
        rw [visit_collect (f := fun _ x => Resp.bulk (cx.val_bytes x))]
        refine ⟨?_, Leaves.refl h halive⟩
        have hbytes : (pairs key (head + front.length) (slice l s e)).map
            (fun p => Resp.bulk (cx.val_bytes p.2)) = (slice l s e).map Resp.bulk :=
          map_pairs (fun x => Resp.bulk (cx.val_bytes x)) key _ _
        simp only [inDirection, Bool.false_eq_true, if_false, List.nil_append, hbytes]

/-- What is kept by a cut in three. -/
theorem window_mid (head : Int) (front mid back : List Bytes) (s : Int) :
    window (head + front.length) mid s =
      if head + front.length + mid.length ≤ s ∧ s < head + front.length + mid.length + back.length then
        none
      else if head ≤ s ∧ s < head + front.length then none
      else window head (front ++ mid ++ back) s := by
  rw [window, window, List.append_assoc]
  by_cases hback : head + front.length + mid.length ≤ s ∧
      s < head + front.length + mid.length + back.length
  · rw [if_pos hback, if_neg (by omega), List.getElem?_eq_none (by omega)]
    rfl
  · rw [if_neg hback]
    by_cases hfront : head ≤ s ∧ s < head + front.length
    · rw [if_pos hfront, if_pos hfront.2]
    · rw [if_neg hfront]
      by_cases hlow : s < head
      · rw [if_pos (by omega), if_pos hlow]
      · rw [if_neg (by omega), if_neg hlow, List.getElem?_append_right (by omega)]
        have hplace : (s - head).toNat - front.length = (s - (head + front.length)).toNat := by omega
        rw [hplace]
        by_cases hmid : (s - (head + front.length)).toNat < mid.length
        · rw [List.getElem?_append_left hmid]
        · rw [List.getElem?_append_right (by omega), List.getElem?_eq_none (by omega),
            List.getElem?_eq_none (by omega)]

theorem trim_cut (l : List Bytes) (s e : Int) :
    ∃ front back, l = front ++ slice l s e ++ back ∧
      ((norm_range s e l.length).getD (l.length, l.length - 1)).1 = front.length ∧
      ((norm_range s e l.length).getD (l.length, l.length - 1)).2 + 1 =
        front.length + (slice l s e).length := by
  cases hrange : norm_range s e l.length with
  | none =>
      refine ⟨l, [], ?_, rfl, ?_⟩
      · rw [norm_range_none hrange, List.append_nil, List.append_nil]
      · rw [norm_range_none hrange]
        simp
  | some ab =>
      obtain ⟨front, back, hl, hfront, hmid⟩ := norm_range_some hrange
      exact ⟨front, back, hl, hfront, hmid⟩

theorem ltrim_spec (hw : cx.readonly = false) {a b : Bytes} {s e : Int} (ha : parse_i64 a = some s)
    (hb : parse_i64 b = some e) (hkey : Purges cx v key) (hn : n < 2 ^ 63) (h : Holds n v key l) :
    (ltrim cx key a b).wp (Does cx n v key ok (slice (live cx v key l) s e)) v := by
  unfold ltrim need_int
  rw [ha, hb]
  refine wp_found hkey hn h (fun v' hlive hleaves => ?_) fun head m hat hroom hne hlive halive hm => ?_
  · rw [hlive, slice_eq, List.drop_nil, List.take_nil]
    exact ⟨rfl, hleaves⟩
  · rw [hlive]
    simp only [hm.len_eq, hm.head_eq]
    obtain ⟨front, back, hl, hks, hke⟩ := trim_cut l s e
    generalize (norm_range s e l.length).getD (l.length, l.length - 1) = cut at hks hke
    obtain ⟨ks, ke⟩ := cut
    obtain rfl : ks = front.length := hks
    have hke : ke + 1 = front.length + (slice l s e).length := hke
    have hlen := congrArg List.length hl
    rw [List.length_append, List.length_append] at hlen
    have hcount : ((l.length : Int) - max (ke + 1) 0).toNat = back.length := by omega
    have hfrom : head + max (ke + 1) 0 = head + front.length + (slice l s e).length := by omega
    have htail : head + ke + 1 = head + front.length + (slice l s e).length := by omega
    have hmax : max (head + front.length + ((slice l s e).length : Int)) (head + front.length) =
        head + front.length + (slice l s e).length := by omega
    have hnew : (head + front.length + ((slice l s e).length : Int) - (head + front.length)).toNat =
        (slice l s e).length := by omega
    simp only [hcount, hfrom, htail, hmax, hnew, Int.toNat_natCast]
    have hlow := hroom.low
    have hhigh := hroom.high
    refine wp_deletePositions _ hat.elements (hroom.isI64 hn (le_refl _) (by omega))
      (hroom.isI64 hn (by omega) (by omega)) fun v₁ h₁ honly₁ => ?_
    refine wp_deletePositions _ h₁ (hroom.isI64 hn (by omega) (by omega))
      (hroom.isI64 hn (by omega) (by omega)) fun v₂ h₂ honly₂ => ?_
    have hkept : Elems v₂ key (window (head + front.length) (slice l s e)) := by
      refine h₂.congr fun s' _ => ?_
      rw [window_mid head front (slice l s e) back s', ← hl]
    have hfits : Room n (head + front.length) (slice l s e) := by
      have hmaxlen := hroom.len
      constructor <;> omega
    have hmeta : IsMeta { m with
        head := head + front.length
        tail := head + front.length + (slice l s e).length
        len := (slice l s e).length } (head + front.length) (slice l s e) :=
      ⟨hm.type_eq, rfl, rfl, rfl⟩
    exact wp_put_meta hn hmeta hfits (honly₁.trans honly₂) hkept hat.deadline
      fun v₃ hholds hsame hlater => ⟨rfl, Leaves.write hw hholds hsame (hlater.alive halive)⟩

/-! ## Rewriting -/

theorem wp_rewrite (hw : cx.readonly = false) (halive : dead cx v key = false) {n' : Nat} {head : Int} {m : Meta} {new : List Bytes}
    (hm : IsMeta m head l) (hat : ListAt v key head l) (hroom : Room n head l) (hn : n' < 2 ^ 63)
    (hle : n ≤ n') (hnew : new.length ≤ n') {g : Unit → R γ}
    (hg : ∀ v', Leaves cx n' v v' key new → (g ()).wp Q v') :
    (rewrite key m (deadlineOf (v (expk key))) new >>= g).wp Q v := by
  have hmaxlen := hroom.len
  unfold rewrite
  rw [hm.len_eq, hm.head_eq, bind_assoc]
  refine wp_deletePositions _ hat.elements
    (hroom.isI64 (by omega) (le_refl _) (by omega))
    (hroom.isI64 (by omega) (by omega) (le_refl _)) fun v₁ h₁ honly₁ => ?_
  have hempty : Elems v₁ key fun _ => none := by
    refine h₁.congr fun s _ => ?_
    split
    · rfl
    · next hout =>
        rw [window]
        split
        · rfl
        · rw [List.getElem?_eq_none (by omega)]
          rfl
  rw [bind_assoc]
  refine wp_putAll new hempty ⟨by omega, by omega⟩ ⟨by omega, by omega⟩ fun v₂ h₂ honly₂ => ?_
  have hwindow : Elems v₂ key (window 0 new) := by
    refine h₂.congr fun s _ => ?_
    split
    · rfl
    · next hout =>
        rw [window]
        split
        · rfl
        · rw [List.getElem?_eq_none (by omega)]
          rfl
  have hfits : Room n' 0 new := ⟨by omega, by omega, hnew⟩
  have hmeta : IsMeta { m with head := 0, tail := new.length, len := new.length } 0 new :=
    ⟨hm.type_eq, rfl, rfl, (zero_add _).symm⟩
  exact wp_put_meta hn hmeta hfits (honly₁.trans honly₂) hwindow hat.deadline
    fun v₃ hholds hsame hlater => hg v₃ (Leaves.write hw hholds hsame (hlater.alive halive))

/-- Reading all the values. -/
theorem wp_items (cx : Ctx) (hkey : key ≠ []) (hn : n < 2 ^ 63) {head : Int} (hat : ListAt v key head l)
    (hroom : Room n head l) {g : List (Bytes × Value) → R γ}
    (hg : ∀ es : List (Bytes × Value), es.map (fun e => cx.val_bytes e.2) = l → (g es).wp Q v) :
    (elements key SUB_LIST >>= g).wp Q v := by
  refine wp_elements hkey (listed_window hn hat.elements hroom) (hg _ ?_)
  rw [List.map_map]
  exact (map_pairs cx.val_bytes key head l).trans (List.map_id l)

theorem lrem_spec (hw : cx.readonly = false) (a target : Bytes)
    (hcount : parse_i64 a ≠ some (-2 ^ 63)) (hkey : key ≠ []) (hn : n < 2 ^ 63)
    (h : Holds n v key l) :
    (lrem cx key a target).wp
      (if live cx v key l = [] then Does cx n v key (int 0) []
        else
          match parse_i64 a with
          | none => Refuses not_int
          | some count =>
              Does cx n v key (int ((live cx v key l).length -
                (without target count (live cx v key l)).length))
                (without target count (live cx v key l))) v := by
  refine wp_found (fun _ => hkey) hn h (fun v' hlive hleaves => ?_)
    fun head m hat hroom hne hlive halive hm => ?_
  · rw [if_pos hlive]
    exact ⟨rfl, hleaves⟩
  · rw [if_neg fun hnil => hne (hlive.symm.trans hnil), hlive]
    refine wp_items cx hkey hn hat hroom fun es hes => ?_
    simp only [hes]
    unfold need_int
    cases hparse : parse_i64 a with
    | none => exact rfl
    | some count =>
        have hmax := hroom.len
        have hremove : remove target count l =
            (without target count l, (l.length : Int) - (without target count l).length) :=
          remove_eq (fun hmin => hcount (by rw [hparse, hmin])) (by omega)
        change (rewrite key m (deadlineOf (v (expk key))) (remove target count l).1 >>= fun _ =>
          pure (int (remove target count l).2)).wp _ v
        rw [hremove]
        have hle := length_without_le target count l
        have hfits : (without target count l).length ≤ n := by omega
        exact wp_rewrite hw halive hm hat hroom hn (le_refl n) hfits fun v' hleaves => ⟨rfl, hleaves⟩

theorem linsert_spec (hw : cx.readonly = false) (w pivot x : Bytes) (hkey : key ≠ [])
    (hn : n + 1 < 2 ^ 63) (h : Holds n v key l) :
    (linsert cx key w pivot x).wp
      (if live cx v key l = [] then Does cx (n + 1) v key (int 0) []
        else
          match parseWhere w, (live cx v key l).findIdx? (· = pivot) with
          | none, _ => Refuses syntax_error
          | some _, none => Does cx (n + 1) v key (int (-1)) (live cx v key l)
          | some before, some p =>
              Does cx (n + 1) v key (int ((live cx v key l).length + 1))
                ((live cx v key l).insertIdx (if before then p else p + 1) x)) v := by
  have hmono : ∀ {v' key l}, Holds n v' key l → Holds (n + 1) v' key l :=
    fun ⟨head, hat, hroom⟩ => ⟨head, hat, hroom.mono (Nat.le_succ n)⟩
  refine wp_found (fun _ => hkey) (by omega) h (fun v' hlive hleaves => ?_)
    fun head m hat hroom hne hlive halive hm => ?_
  · rw [if_pos hlive]
    obtain ⟨hholds, hsame, halive⟩ := hleaves.holds hw
    exact ⟨rfl, Leaves.write hw (hmono hholds) hsame halive⟩
  · rw [if_neg fun hnil => hne (hlive.symm.trans hnil), hlive]
    refine wp_items cx hkey (by omega) hat hroom fun es hes => ?_
    simp only [hes]
    cases hwhere : parseWhere w with
    | none => exact rfl
    | some before =>
        cases hfind : l.findIdx? (· = pivot) with
        | none => exact ⟨rfl, Leaves.refl (hmono ⟨head, hat, hroom⟩) halive⟩
        | some p =>
            have hp : p < l.length := by
              obtain ⟨hlt, -⟩ := List.findIdx?_eq_some_iff_getElem.mp hfind
              exact hlt
            have hlen : (l.insertIdx (if before then p else p + 1) x).length = l.length + 1 := by
              rw [List.length_insertIdx, if_pos (by split <;> omega)]
            have hmax := hroom.len
            refine wp_rewrite hw halive hm hat hroom hn (Nat.le_succ n) (by omega) fun v' hleaves => ?_
            refine ⟨?_, hleaves⟩
            rw [hlen]
            push_cast
            rfl

/-! ## Searching -/

theorem positions_nil (pat : Bytes) (o : PosOpts) : positions [] pat o = [] := by
  unfold positions PosOpts.cut
  cases o.count <;> simp

/-- The count of a search is not negative. -/
theorem parsePosOpts_count {o o' : PosOpts} {opts : List Bytes}
    (ho : ∀ c, o.count = some c → 0 ≤ c) (h : parsePosOpts o opts = .ok o') :
    ∀ c, o'.count = some c → 0 ≤ c := by
  fun_induction parsePosOpts o opts
  all_goals try cases h
  · exact ho
  · next ih => exact ih ho h
  · next hpos ih =>
      refine ih (fun c hc => ?_) h
      cases hc
      exact not_lt.mp hpos
  · next ih => exact ih ho h

theorem lpos_spec {pat : Bytes} {opts : List Bytes} {o : PosOpts}
    (ho : parsePosOpts { rank := 1, count := none, maxlen := 0 } opts = .ok o) (hkey : key ≠ [])
    (hn : n < 2 ^ 63) (h : Holds n v key l) :
    (lpos cx key pat opts).wp
      (Does cx n v key (posReply o (positions (live cx v key l) pat o)) (live cx v key l)) v := by
  unfold lpos
  rw [ho]
  refine wp_found (fun _ => hkey) hn h (fun v' hlive hleaves => ?_)
    fun head m hat hroom hne hlive halive hm => ?_
  · rw [hlive, positions_nil]
    exact ⟨rfl, hleaves⟩
  · rw [hlive]
    refine wp_items cx hkey hn hat hroom fun es hes => ?_
    simp only [hes, hm.len_eq]
    have hmax := hroom.len
    refine ⟨?_, Leaves.refl h halive⟩
    rw [findPos_eq (by omega) (parsePosOpts_count (fun c hc => by cases hc) ho)]

/-! ## Moving -/

theorem Holds.congr (h : Holds n v key l) (hsame : ∀ k, Owns key k → v' k = v k) :
    Holds n v' key l := by
  obtain ⟨head, hat, hroom⟩ := h
  exact ⟨head, hat.congr hsame, hroom⟩

theorem SameElse.owned {key key' : Bytes} (h : SameElse key v v') (hne : key' ≠ key) {k : Key}
    (hk : Owns key' k) : v' k = v k := h k (not_owns_of_ne hne hk)

theorem dead_congr (h : v' (expk key) = v (expk key)) : dead cx v' key = dead cx v key := by
  unfold dead
  rw [h]

theorem live_of_alive (h : dead cx v key = false) : live cx v key l = l := by
  unfold live
  rw [h]
  rfl

theorem ends_one_cons (left : Bool) {l : List Bytes} (hne : l ≠ []) :
    ∃ x, ends left 1 l = [x] := by
  unfold ends
  cases left with
  | true =>
      obtain ⟨x, xs, rfl⟩ := List.exists_cons_of_ne_nil hne
      exact ⟨x, rfl⟩
  | false =>
      obtain ⟨x, xs, hrev⟩ := List.exists_cons_of_ne_nil (List.reverse_ne_nil_iff.mpr hne)
      refine ⟨x, ?_⟩
      simp only [Bool.false_eq_true, if_false]
      rw [hrev]
      rfl

/-- The keys that a command looks at: a move whose source is empty stops there. -/
def Call.touches (db : Bytes → List Bytes) : Call → List Bytes
  | .push _ _ key _ | .pop _ key _ | .llen key | .lindex key _ | .lset key _ _ | .lrange key _ _
  | .ltrim key _ _ | .lrem key _ _ | .linsert key _ _ _ | .lpos key _ _ => [key]
  | .move _ _ src dst => if db src = [] then [src] else [src, dst]

/-- What a command does, against its meaning: an error is answered, or the sequences of
the keys it touches are left and nothing else changes. -/
inductive Post (cx : Ctx) (n : Nat) (v : View) (keys : List Bytes) (out : Resp × (Bytes → List Bytes))
    (w : View) : Except Resp Resp → Prop
  | refused (herr : out.1.isError = true) : Post cx n v keys out w (.error out.1)
  | done (hok : out.1.isError = false) (hkept : cx.readonly = true → w = v)
      (hholds : cx.readonly = false → ∀ key ∈ keys, Holds n w key (out.2 key))
      (hsame : cx.readonly = false → ∀ k, (∀ key ∈ keys, ¬ Owns key k) → w k = v k) :
      Post cx n v keys out w (.ok out.1)

theorem Does.post {w : View} {reply : Resp} {r : Except Resp Resp} {db : Bytes → List Bytes}
    (h : Does cx n v key reply l r w) (hok : reply.isError = false) (hl : db key = l) :
    Post cx n v [key] (reply, db) w r := by
  obtain ⟨rfl, hleaves⟩ := h
  subst hl
  refine .done hok hleaves.kept (fun hw key' hkey => ?_) fun hw k hk => ?_
  · rw [List.mem_singleton.mp hkey]
    exact (hleaves.holds hw).1
  · exact (hleaves.holds hw).2.1 k (hk key List.mem_cons_self)

/-- The second half of a move, from a source that is there. -/
def popPush (cx : Ctx) (from_left to_left : Bool) (src dst : Bytes) : R Resp := do
  match ← pop cx from_left src none with
  | .bulk v => do
      let _ ← push cx to_left false dst [v]
      pure (.bulk v)
  | _ => pure .nil

theorem popPush_spec (hw : cx.readonly = false) (from_left to_left : Bool) {src dst : Bytes}
    {s d : List Bytes} (hn : n + 1 < 2 ^ 63) (hs : Holds n v src s) (hne : s ≠ [])
    (halive : dead cx v src = false) (hd : Holds n v dst d) (hdst : Purges cx v dst) :
    (popPush cx from_left to_left src dst).wp
      (fun r w => ∃ x, ends from_left 1 s = [x] ∧ r = .ok (.bulk x) ∧
        (dst ≠ src → Holds (n + 1) w src (shorten from_left 1 s) ∧
          Holds (n + 1) w dst (extend to_left [x] (live cx v dst d))) ∧
        (dst = src → Holds (n + 1) w src (extend to_left [x] (shorten from_left 1 s))) ∧
        ∀ k, ¬ Owns src k → ¬ Owns dst k → w k = v k) v := by
  obtain ⟨x, hx⟩ := ends_one_cons from_left hne
  have hlive : live cx v src s = s := live_of_alive halive
  have hpop := pop_spec (a := none) (l := s) hw from_left (rfl : CountIs none none)
    (fun hdead => absurd (halive.symm.trans hdead) (by decide)) (by omega) hs
  rw [hlive, if_neg hne] at hpop
  refine R.wp_bind.mpr (R.wp_mono hpop ?_)
  rintro _ v₁ ⟨rfl, hleaves⟩
  obtain ⟨hholds₁, hsame₁, halive₁⟩ := hleaves.holds hw
  have hreply : popReply from_left none s = .bulk x := by
    rw [popReply, hx]
    rfl
  rw [hreply]
  simp only [R.after]
  have hpush : ∀ d', Holds n v₁ dst d' → Purges cx v₁ dst →
      (push cx to_left false dst [x]).wp
        (Does cx (n + 1) v₁ dst (int (extend to_left [x] (live cx v₁ dst d')).length)
          (extend to_left [x] (live cx v₁ dst d'))) v₁ := by
    intro d' hd' hpurges
    have hspec := push_spec hw to_left false [x] hpurges (by simpa using hn) hd'
    rw [if_neg (by simp)] at hspec
    exact hspec
  by_cases hsd : dst = src
  · subst hsd
    have hspec := hpush _ hholds₁ fun hdead => absurd (halive₁.symm.trans hdead) (by decide)
    refine R.wp_bind.mpr (R.wp_mono hspec ?_)
    rintro _ w ⟨rfl, hleaves'⟩
    obtain ⟨hholds₂, hsame₂, -⟩ := hleaves'.holds hw
    rw [live_of_alive halive₁] at hholds₂
    refine ⟨x, hx, rfl, fun h => absurd rfl h, fun _ => hholds₂, fun k hk _ => ?_⟩
    rw [hsame₂ k hk, hsame₁ k hk]
  · have hkept : v₁ (expk dst) = v (expk dst) := hsame₁.owned hsd (.inr (.inl rfl))
    have hlive₁ : live cx v₁ dst d = live cx v dst d := by
      unfold live
      rw [dead_congr hkept]
    have hspec := hpush d (hd.congr fun k hk => hsame₁.owned hsd hk) fun hdead =>
      hdst (by rw [← hdead, dead_congr hkept])
    refine R.wp_bind.mpr (R.wp_mono hspec ?_)
    rintro _ w ⟨rfl, hleaves'⟩
    obtain ⟨hholds₂, hsame₂, -⟩ := hleaves'.holds hw
    rw [hlive₁] at hholds₂
    refine ⟨x, hx, rfl, fun _ => ⟨?_, hholds₂⟩, fun h => absurd h hsd, fun k hk hk' => ?_⟩
    · obtain ⟨head, hat, hroom⟩ := hholds₁
      exact Holds.congr ⟨head, hat, hroom.mono (Nat.le_succ n)⟩ fun k hk =>
        hsame₂.owned (Ne.symm hsd) hk
    · rw [hsame₂ k hk', hsame₁ k hk]

theorem move_spec (hw : cx.readonly = false) (from_left to_left : Bool) {src dst : Bytes}
    {db : Bytes → List Bytes} (hsrc : Purges cx v src) (hdst : Purges cx v dst)
    (hn : n + 1 < 2 ^ 63) (h : Holds n v src (db src)) (h' : Holds n v dst (db dst)) :
    (move cx from_left to_left src dst).wp
      (fun r w => Post cx (n + 1) v
        ((Call.move from_left to_left src dst).touches fun key => live cx v key (db key))
        ((Call.move from_left to_left src dst).reference fun key => live cx v key (db key)) w r) v := by
  have hmono : ∀ {v' key l}, Holds n v' key l → Holds (n + 1) v' key l :=
    fun ⟨head, hat, hroom⟩ => ⟨head, hat, hroom.mono (Nat.le_succ n)⟩
  refine wp_found hsrc (by omega) h (fun v' hlive hleaves => ?_)
    fun head m hat hroom hne hlive halive hm => ?_
  · have hends : ends from_left 1 ([] : List Bytes) = [] := by cases from_left <;> rfl
    simp only [Call.touches, Call.reference, hlive, if_true, hends]
    refine Does.post ⟨rfl, ?_⟩ rfl hlive
    obtain ⟨hholds, hsame, halive⟩ := hleaves.holds hw
    exact Leaves.write hw (hmono hholds) hsame halive
  · obtain ⟨x, hx⟩ := ends_one_cons from_left hne
    simp only [Option.isNone_some, Bool.false_eq_true, if_false, Call.touches, Call.reference, hlive,
      if_neg hne, hx, List.head?_cons]
    have hfrom : ∀ u d, Holds n u src (db src) → dead cx u src = false → Holds n u dst d →
        Purges cx u dst → (dst ≠ src → live cx u dst d = live cx v dst (db dst)) →
        (∀ k, ¬ Owns src k → ¬ Owns dst k → u k = v k) →
        (popPush cx from_left to_left src dst).wp
          (fun r w => Post cx (n + 1) v [src, dst] (.bulk x, Function.update
            (Function.update (fun key => live cx v key (db key)) src (shorten from_left 1 (db src)))
            dst (extend to_left [x] (Function.update (fun key => live cx v key (db key)) src
              (shorten from_left 1 (db src)) dst))) w r) u := by
      intro u d hs hualive hd hpurges hlived hu
      refine R.wp_mono (popPush_spec hw from_left to_left hn hs hne hualive hd hpurges) ?_
      rintro _ w ⟨x', hx', rfl, hapart, hone, hsame⟩
      obtain rfl : x = x' := by
        rw [hx] at hx'
        exact List.singleton_injective hx'
      refine .done rfl (fun hr => absurd (hr.symm.trans hw) (by decide)) (fun _ key hkey => ?_)
        fun _ k hk => ?_
      · simp only
        by_cases hsd : dst = src
        · subst hsd
          obtain rfl : key = dst := by simpa using hkey
          rw [Function.update_self, Function.update_self]
          exact hone rfl
        · obtain ⟨hsrc', hdst'⟩ := hapart hsd
          rw [hlived hsd] at hdst'
          rcases List.mem_pair.mp hkey with rfl | rfl
          · rw [Function.update_of_ne (Ne.symm hsd), Function.update_self]
            exact hsrc'
          · rw [Function.update_self, Function.update_of_ne hsd]
            exact hdst'
      · have hs := hk src (by simp)
        have hd := hk dst (by simp)
        rw [hsame k hs hd, hu k hs hd]
    by_cases hsd : src = dst
    · subst hsd
      simp only [ne_eq, not_true, if_false]
      exact hfrom v (db src) h halive h hsrc (fun hne => absurd rfl hne) fun _ _ _ => rfl
    · simp only [ne_eq, hsd, not_false_eq_true, if_true]
      refine wp_found hdst (by omega) h' (fun u hlived hleaves => ?_)
        fun head' m' hat' hroom' hne' hlived halived hm' => ?_
      · obtain ⟨hd, hsame, hdalive⟩ := hleaves.holds hw
        have hkept : u (expk src) = v (expk src) := hsame.owned hsd (.inr (.inl rfl))
        refine hfrom u [] (h.congr fun k hk => hsame.owned hsd hk) ?_ hd ?_ ?_ fun k _ hk => hsame k hk
        · rw [dead_congr hkept]
          exact halive
        · exact fun hdead => absurd (hdalive.symm.trans hdead) (by decide)
        · rw [hlived]
          intro _
          unfold live
          exact ite_self _
      · exact hfrom v (db dst) h halive h' hdst (fun _ => rfl) fun _ _ _ => rfl

end Lists
end StrikeDB
