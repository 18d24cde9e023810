import StrikeDB.ByteOrder
import StrikeDB.ShardViews
import StrikeDB.Txn

/-!
# StrikeDB: what a range scan returns

Both stores answer `scan_range` from one shard, that of the hint, with buffered
writes laid over it.  `OpStore` merges three sorted sources lazily, `Txn` fetches
a bounded part of the shard and patches it.  Where every key of the range belongs
to the shard of the hint, either returns what reading every key of the range
would: the live pairs in scan order, up to the limit.

**Results.**
* `mergeLoop_spec`: the lazy merge gives the first live pairs of its sources.
* `OpStore.scan_exact`, `Txn.scan_exact`: a scan agrees with the reads.
* `range_scans_exact`: it gives the first live entries of the layers (`shown`).
-/

namespace StrikeDB

/-! ## Scan order -/

theorem scanBefore_irrefl (reverse : Bool) (k : Key) : scanBefore reverse k k = false := by
  cases reverse <;> simp [scanBefore]

theorem scanBefore_swap (reverse : Bool) (k n : Key) :
    scanBefore (!reverse) k n = scanBefore reverse n k := by
  have hswap : compare k n = (compare n k).swap := Std.OrientedCmp.eq_swap
  cases reverse <;> simp only [scanBefore, hswap] <;> cases compare n k <;> rfl

theorem scanBefore_trans {reverse : Bool} {k n m : Key}
    (hkn : scanBefore reverse k n = true) (hnm : scanBefore reverse n m = true) :
    scanBefore reverse k m = true := by
  cases reverse with
  | false =>
      simp only [scanBefore, Bool.false_eq_true, if_false, Ordering.isLT_iff_eq_lt] at *
      exact Std.TransCmp.lt_trans hkn hnm
  | true =>
      simp only [scanBefore, if_true, Ordering.isGT_iff_eq_gt] at *
      exact Std.TransCmp.gt_trans hkn hnm

theorem scanBefore_total (reverse : Bool) {k n : Key} (h : k ≠ n) :
    scanBefore reverse k n = true ∨ scanBefore reverse n k = true := by
  have hne : compare k n ≠ .eq := fun heq => h (Std.LawfulEqCmp.eq_of_compare heq)
  have hswap : compare n k = (compare k n).swap := Std.OrientedCmp.eq_swap
  cases reverse <;> simp only [scanBefore, hswap] <;> cases hc : compare k n <;>
    simp_all

/-- The keys of a list stand in scan order. -/
def InOrder {β : Type} (reverse : Bool) (l : List (Key × β)) : Prop :=
  l.Pairwise fun a b => scanBefore reverse a.1 b.1 = true

/-- A list in scan order is determined by its members. -/
theorem InOrder.eq_of_mem_iff {β : Type} {reverse : Bool} {l l' : List (Key × β)}
    (h : InOrder reverse l) (h' : InOrder reverse l') (hmem : ∀ e, e ∈ l ↔ e ∈ l') : l = l' := by
  have hirrefl : Std.Irrefl fun a b : Key × β => scanBefore reverse a.1 b.1 = true :=
    ⟨fun a ha => by simp [scanBefore_irrefl] at ha⟩
  have hantisymm : Std.Antisymm fun a b : Key × β => scanBefore reverse a.1 b.1 = true := by
    constructor
    intro a b hab hba
    have haa := scanBefore_trans hab hba
    simp [scanBefore_irrefl] at haa
  exact List.Pairwise.eq_of_mem_iff h h' hmem

theorem KeySorted.inOrder {β : Type} {l : List (Key × β)} (h : KeySorted l) (reverse : Bool) :
    InOrder reverse (if reverse then l.reverse else l) := by
  cases reverse with
  | false =>
      refine List.Pairwise.imp ?_ h
      intro a b hab
      simpa [scanBefore, KeyLt] using hab
  | true =>
      refine List.pairwise_reverse.mpr (List.Pairwise.imp ?_ h)
      intro a b hab
      have hswap : compare b.1 a.1 = (compare a.1 b.1).swap := Std.OrientedCmp.eq_swap
      have hlt : compare a.1 b.1 = .lt := hab
      simp [scanBefore, hswap, hlt]

theorem inOrder_rangeOf {β : Type} (reverse : Bool) (start stop : Key)
    (t : Std.ExtTreeMap Key β) :
    InOrder reverse (rangeOf reverse start stop t) :=
  KeySorted.inOrder ((keySorted_toList t).filter _) reverse

theorem InOrder.map_snd {β γ : Type} {reverse : Bool} {l : List (Key × β)}
    (h : InOrder reverse l) (f : β → γ) : InOrder reverse (l.map fun e => (e.1, f e.2)) :=
  List.pairwise_map.mpr h

/-! ## Looking up a key in a source -/

/-- The value that a source has for a key. -/
def look {β : Type} (src : List (Key × β)) (key : Key) : Option β :=
  (src.find? fun e => e.1 = key).map Prod.snd

theorem look_nil {β : Type} (key : Key) : look ([] : List (Key × β)) key = none := rfl

theorem look_cons {β : Type} (e : Key × β) (src : List (Key × β)) (key : Key) :
    look (e :: src) key = if e.1 = key then some e.2 else look src key := by
  by_cases h : e.1 = key <;> simp [look, h]

theorem look_eq_none {β : Type} {src : List (Key × β)} {key : Key}
    (h : ∀ e ∈ src, e.1 ≠ key) : look src key = none := by
  simp only [look, Option.map_eq_none_iff, List.find?_eq_none, decide_eq_true_eq]
  exact h

theorem InOrder.look_eq_some {β : Type} {reverse : Bool} {src : List (Key × β)}
    (h : InOrder reverse src) {key : Key} {v : β} :
    look src key = some v ↔ (key, v) ∈ src := by
  induction src with
  | nil => simp [look_nil]
  | cons e src ih =>
      obtain ⟨hhead, htail⟩ := List.pairwise_cons.mp h
      rw [look_cons, List.mem_cons]
      by_cases heq : e.1 = key
      · rw [if_pos heq, Option.some.injEq]
        constructor
        · rintro rfl
          exact Or.inl (by rw [← heq])
        · rintro (rfl | hmem)
          · rfl
          · have hself := hhead _ hmem
            rw [heq, scanBefore_irrefl] at hself
            cases hself
      · rw [if_neg heq, ih htail]
        constructor
        · exact Or.inr
        · rintro (rfl | hmem)
          · exact absurd rfl heq
          · exact hmem

/-- A range of a map has the map's values for the keys of the range. -/
theorem look_rangeOf {β : Type} (reverse : Bool) (start stop : Key) (t : Std.ExtTreeMap Key β)
    (key : Key) :
    look (rangeOf reverse start stop t) key =
      if FlushCore.inRange start stop key then t[key]? else none := by
  have hmem : ∀ v, (key, v) ∈ rangeOf reverse start stop t ↔
      t[key]? = some v ∧ FlushCore.inRange start stop key = true := by
    intro v
    cases reverse <;>
      simp [rangeOf, Std.ExtTreeMap.mem_toList_iff_getElem?_eq_some]
  ext v
  rw [(inOrder_rangeOf reverse start stop t).look_eq_some, hmem]
  by_cases hr : FlushCore.inRange start stop key = true <;> simp [hr]

theorem look_map_snd {β γ : Type} (src : List (Key × β)) (f : β → γ) (key : Key) :
    look (src.map fun e => (e.1, f e.2)) key = (look src key).map f := by
  induction src with
  | nil => rfl
  | cons e src ih =>
      rw [List.map_cons, look_cons, look_cons, ih]
      by_cases h : e.1 = key <;> simp [h]

/-! ## The lazy merge -/

section Merge

variable {reverse : Bool}

/-- `next` is the first key of `l` in scan order. -/
def First {β : Type} (reverse : Bool) (next : Option Key) (l : List (Key × β)) : Prop :=
  match next with
  | none => l = []
  | some k => (∃ e ∈ l, e.1 = k) ∧ ∀ e ∈ l, e.1 = k ∨ scanBefore reverse k e.1 = true

theorem First.betterHead {next : Option Key} {l src : ScanSource}
    (h : First reverse next l) (hsrc : InOrder reverse src) :
    First reverse (betterHead reverse next src) (l ++ src) := by
  cases src with
  | nil => simpa [StrikeDB.betterHead] using h
  | cons e src =>
      obtain ⟨k, v⟩ := e
      have hall : ∀ e ∈ (k, v) :: src, e.1 = k ∨ scanBefore reverse k e.1 = true := by
        intro e he
        rcases List.mem_cons.mp he with rfl | he
        · exact Or.inl rfl
        · exact Or.inr ((List.pairwise_cons.mp hsrc).1 e he)
      cases next with
      | none =>
          obtain rfl : l = [] := h
          exact ⟨⟨(k, v), List.mem_cons_self, rfl⟩, hall⟩
      | some n =>
          obtain ⟨⟨e₀, he₀, hn⟩, hold⟩ := h
          simp only [StrikeDB.betterHead]
          split
          · rename_i hkn
            refine ⟨⟨(k, v), List.mem_append_right _ List.mem_cons_self, rfl⟩, ?_⟩
            intro e he
            rcases List.mem_append.mp he with he | he
            · rcases hold e he with heq | hlt
              · exact Or.inr (heq ▸ hkn)
              · exact Or.inr (scanBefore_trans hkn hlt)
            · exact hall e he
          · rename_i hkn
            refine ⟨⟨e₀, List.mem_append_left _ he₀, hn⟩, ?_⟩
            intro e he
            rcases List.mem_append.mp he with he | he
            · exact hold e he
            · by_cases heq : n = k
              · subst heq
                exact hall e he
              · have hnk := (scanBefore_total reverse heq).resolve_right hkn
                rcases hall e he with hek | hlt
                · exact Or.inr (hek ▸ hnk)
                · exact Or.inr (scanBefore_trans hnk hlt)

/-- No key of a source stands before `key`. -/
def From (reverse : Bool) (key : Key) (src : ScanSource) : Prop :=
  ∀ e ∈ src, e.1 = key ∨ scanBefore reverse key e.1 = true

theorem tail_ne {key : Key} {v : Option Value} {src : ScanSource}
    (hsrc : InOrder reverse ((key, v) :: src)) : ∀ e ∈ src, e.1 ≠ key := by
  intro e he heq
  have hself := (List.pairwise_cons.mp hsrc).1 e he
  rw [heq, scanBefore_irrefl] at hself
  cases hself

/-- Where the head is behind `key`, the whole source is. -/
theorem all_ne {key k : Key} {v : Option Value} {src : ScanSource}
    (hsrc : InOrder reverse ((k, v) :: src)) (hfrom : From reverse key ((k, v) :: src))
    (hne : k ≠ key) : ∀ e ∈ (k, v) :: src, e.1 ≠ key := by
  have hlt := (hfrom _ List.mem_cons_self).resolve_left hne
  intro e he heq
  rcases List.mem_cons.mp he with rfl | he
  · exact hne heq
  · have hself := scanBefore_trans hlt ((List.pairwise_cons.mp hsrc).1 e he)
    rw [heq, scanBefore_irrefl] at hself
    cases hself

theorem headAt_eq_look {key : Key} {src : ScanSource}
    (hsrc : InOrder reverse src) (hfrom : From reverse key src) :
    headAt key src = look src key := by
  cases src with
  | nil => rfl
  | cons e src =>
      obtain ⟨k, v⟩ := e
      rw [headAt, look_cons]
      by_cases h : k = key
      · rw [if_pos h, if_pos h]
      · rw [if_neg h, if_neg h]
        exact (look_eq_none fun e he =>
          all_ne hsrc hfrom h e (List.mem_cons_of_mem _ he)).symm

theorem mem_advance {key : Key} {src : ScanSource}
    (hsrc : InOrder reverse src) (hfrom : From reverse key src) {e : Key × Option Value} :
    e ∈ advance key src ↔ e ∈ src ∧ e.1 ≠ key := by
  cases src with
  | nil => simp [advance]
  | cons e' src =>
      obtain ⟨k, v⟩ := e'
      rw [advance]
      by_cases h : k = key
      · subst h
        rw [if_pos rfl]
        constructor
        · intro he
          exact ⟨List.mem_cons_of_mem _ he, tail_ne hsrc e he⟩
        · rintro ⟨he, hne⟩
          rcases List.mem_cons.mp he with rfl | he
          · exact absurd rfl hne
          · exact he
      · rw [if_neg h]
        constructor
        · intro he
          exact ⟨he, all_ne hsrc hfrom h e he⟩
        · exact And.left

theorem advance_sublist (key : Key) (src : ScanSource) : (advance key src).Sublist src := by
  cases src with
  | nil => exact List.Sublist.refl _
  | cons e src =>
      obtain ⟨k, v⟩ := e
      rw [advance]
      split
      · exact List.sublist_cons_self _ _
      · exact List.Sublist.refl _

theorem look_advance {key : Key} {src : ScanSource}
    (hsrc : InOrder reverse src) (hfrom : From reverse key src) (k : Key) :
    look (advance key src) k = if k = key then none else look src k := by
  have hadv : InOrder reverse (advance key src) := List.Pairwise.sublist (advance_sublist key src) hsrc
  ext v
  rw [hadv.look_eq_some, mem_advance hsrc hfrom]
  by_cases h : k = key
  · simp [h]
  · rw [if_neg h, hsrc.look_eq_some]
    simp [h]

theorem length_advance_lt {key : Key} {src : ScanSource}
    (hsrc : InOrder reverse src) (hfrom : From reverse key src) (h : ∃ e ∈ src, e.1 = key) :
    (advance key src).length < src.length := by
  cases src with
  | nil =>
      obtain ⟨e, he, _⟩ := h
      cases he
  | cons e' src =>
      obtain ⟨k, v⟩ := e'
      rw [advance]
      by_cases heq : k = key
      · rw [if_pos heq, List.length_cons]
        exact Nat.lt_succ_self _
      · obtain ⟨e, he, hkey⟩ := h
        exact absurd hkey (all_ne hsrc hfrom heq e he)

/-- What the three sources show of a key: the first that has it decides. -/
def pick (w o d : ScanSource) (key : Key) : Option Value :=
  (((look w key).orElse fun _ => (look o key).orElse fun _ => look d key).bind id).bind live

/-- Without a limit the merge would give all live pairs of its sources; it gives
the first `room` of them. -/
theorem mergeLoop_spec (n : Nat) {w o d : ScanSource}
    (hlen : w.length + o.length + d.length ≤ n)
    (hw : InOrder reverse w) (ho : InOrder reverse o) (hd : InOrder reverse d) :
    ∃ l : List (Key × Value), InOrder reverse l ∧
      (∀ e, e ∈ l ↔ pick w o d e.1 = some e.2) ∧
      ∀ fuel room, n ≤ fuel → mergeLoop reverse fuel room w o d = l.take room := by
  induction n generalizing w o d with
  | zero =>
      obtain rfl : w = [] := List.length_eq_zero_iff.mp (by omega)
      obtain rfl : o = [] := List.length_eq_zero_iff.mp (by omega)
      obtain rfl : d = [] := List.length_eq_zero_iff.mp (by omega)
      refine ⟨[], List.Pairwise.nil, ?_, ?_⟩
      · intro e
        simp [pick, look_nil]
      · intro fuel room _
        cases fuel <;> cases room <;> rfl
  | succ n ih =>
      have hfirst := ((show First reverse none [] from rfl).betterHead hw).betterHead ho
        |>.betterHead hd
      rw [List.nil_append] at hfirst
      cases hnext : betterHead reverse (betterHead reverse (betterHead reverse none w) o) d with
      | none =>
          rw [hnext] at hfirst
          obtain ⟨hwo, rfl⟩ := List.append_eq_nil_iff.mp hfirst
          obtain ⟨rfl, rfl⟩ := List.append_eq_nil_iff.mp hwo
          refine ⟨[], List.Pairwise.nil, ?_, ?_⟩
          · intro e
            simp [pick, look_nil]
          · intro fuel room _
            cases fuel <;> cases room <;> rfl
      | some key =>
          rw [hnext] at hfirst
          obtain ⟨⟨e₀, he₀, hkey⟩, hall⟩ := hfirst
          have hfw : From reverse key w := fun e he =>
            hall e (List.mem_append_left _ (List.mem_append_left _ he))
          have hfo : From reverse key o := fun e he =>
            hall e (List.mem_append_left _ (List.mem_append_right _ he))
          have hfd : From reverse key d := fun e he => hall e (List.mem_append_right _ he)
          have hshorter : (advance key w).length + (advance key o).length +
              (advance key d).length ≤ n := by
            have lw := (advance_sublist key w).length_le
            have lo := (advance_sublist key o).length_le
            have ld := (advance_sublist key d).length_le
            rcases List.mem_append.mp he₀ with he₀ | he₀
            · rcases List.mem_append.mp he₀ with he₀ | he₀
              · have := length_advance_lt hw hfw ⟨e₀, he₀, hkey⟩
                omega
              · have := length_advance_lt ho hfo ⟨e₀, he₀, hkey⟩
                omega
            · have := length_advance_lt hd hfd ⟨e₀, he₀, hkey⟩
              omega
          obtain ⟨l, hl, hmem, hloop⟩ := ih hshorter
            (List.Pairwise.sublist (advance_sublist key w) hw)
            (List.Pairwise.sublist (advance_sublist key o) ho)
            (List.Pairwise.sublist (advance_sublist key d) hd)
          have hpick : ∀ k, pick (advance key w) (advance key o) (advance key d) k =
              if k = key then none else pick w o d k := by
            intro k
            unfold pick
            rw [look_advance hw hfw, look_advance ho hfo, look_advance hd hfd]
            by_cases hk : k = key <;> simp [hk]
          have hbehind : ∀ e ∈ l, scanBefore reverse key e.1 = true := by
            intro e he
            have hsome := (hmem e).mp he
            rw [hpick] at hsome
            by_cases hk : e.1 = key
            · rw [if_pos hk] at hsome
              cases hsome
            · rw [if_neg hk] at hsome
              have hin : ∃ x ∈ w ++ o ++ d, x.1 = e.1 := by
                by_contra hno
                push Not at hno
                have hlw : look w e.1 = none := look_eq_none fun x hx =>
                  hno x (List.mem_append_left _ (List.mem_append_left _ hx))
                have hlo : look o e.1 = none := look_eq_none fun x hx =>
                  hno x (List.mem_append_left _ (List.mem_append_right _ hx))
                have hld : look d e.1 = none := look_eq_none fun x hx =>
                  hno x (List.mem_append_right _ hx)
                simp [pick, hlw, hlo, hld] at hsome
              obtain ⟨x, hx, hxe⟩ := hin
              rcases hall x hx with heq | hlt
              · exact absurd (hxe.symm.trans heq) hk
              · exact hxe ▸ hlt
          have hchosen : (((headAt key w).orElse fun _ => (headAt key o).orElse fun _ =>
              headAt key d).bind id).bind live = pick w o d key := by
            rw [headAt_eq_look hw hfw, headAt_eq_look ho hfo, headAt_eq_look hd hfd]
            rfl
          cases hv : pick w o d key with
          | none =>
              refine ⟨l, hl, ?_, ?_⟩
              · intro e
                rw [hmem, hpick]
                by_cases hk : e.1 = key
                · simp [hk, hv]
                · simp [hk]
              · intro fuel room hfuel
                obtain ⟨fuel, rfl⟩ : ∃ m, fuel = m + 1 := ⟨fuel - 1, by omega⟩
                cases room with
                | zero => rfl
                | succ room =>
                    rw [mergeLoop, hnext]
                    simp only [hchosen, hv]
                    exact hloop fuel (room + 1) (by omega)
          | some v =>
              refine ⟨(key, v) :: l, List.pairwise_cons.mpr ⟨hbehind, hl⟩, ?_, ?_⟩
              · intro e
                rw [List.mem_cons, hmem, hpick]
                by_cases hk : e.1 = key
                · rw [if_pos hk, hk, hv]
                  constructor
                  · rintro (rfl | hnone)
                    · rfl
                    · cases hnone
                  · intro heq
                    exact Or.inl (Prod.ext hk (Option.some.inj heq).symm)
                · rw [if_neg hk]
                  constructor
                  · rintro (rfl | hsome)
                    · exact absurd rfl hk
                    · exact hsome
                  · exact Or.inr
              · intro fuel room hfuel
                obtain ⟨fuel, rfl⟩ : ∃ m, fuel = m + 1 := ⟨fuel - 1, by omega⟩
                cases room with
                | zero => rfl
                | succ room =>
                    rw [mergeLoop, hnext]
                    simp only [hchosen, hv]
                    rw [List.take_succ_cons, hloop fuel room (by omega)]

end Merge

/-! ## Scans that agree with the reads -/

/-- `l` has the pairs that `get` gives for the keys of a range, in key order. -/
structure Lists (get : Key → Option Value) (start stop : Key) (l : List (Key × Value)) : Prop where
  sorted : KeySorted l
  mem : ∀ e, e ∈ l ↔ FlushCore.inRange start stop e.1 = true ∧ get e.1 = some e.2

theorem Lists.unique {get : Key → Option Value} {start stop : Key} {l l' : List (Key × Value)}
    (h : Lists get start stop l) (h' : Lists get start stop l') : l = l' :=
  h.sorted.eq_of_mem_iff h'.sorted fun e => (h.mem e).trans (h'.mem e).symm

/-- A list in the order of a scan. -/
def inDirection {α : Type} (reverse : Bool) (l : List α) : List α := if reverse then l.reverse else l

theorem inDirection_length {α : Type} (reverse : Bool) (l : List α) :
    (inDirection reverse l).length = l.length := by
  cases reverse <;> simp [inDirection]

theorem mem_inDirection {α : Type} {reverse : Bool} {l : List α} {a : α} :
    a ∈ inDirection reverse l ↔ a ∈ l := by
  cases reverse <;> simp [inDirection]

/-- Keys between two keys with the same beginning have that beginning too. -/
theorem prefix_of_inRange {p start stop k : Bytes} (hstart : p <+: start) (hstop : p <+: stop)
    (h : FlushCore.inRange start stop k = true) : p <+: k := by
  simp only [FlushCore.inRange, Bool.and_eq_true] at h
  rw [prefix_iff_above] at hstart hstop ⊢
  constructor
  · exact Std.TransCmp.isLE_trans hstart.1 h.1
  · intro e he
    have hbelow : compare stop e = .lt := Ordering.isLT_iff_eq_lt.mp (hstop.2 e he)
    have hk : compare k stop = .lt := Ordering.isLT_iff_eq_lt.mp h.2
    rw [Std.TransCmp.lt_trans hk hbelow]
    rfl

/-- Every key of the range belongs to the shard of the hint. -/
def Together (hint start stop : Key) : Prop :=
  ∀ k, FlushCore.inRange start stop k = true → shard_of k = shard_of hint

/-- A scan with a good hint returns what reading every key of the range would, up
to the limit. -/
def ScansExactly (get : Key → Option Value)
    (scan : Key → Key → Key → Nat → Bool → List (Key × Value)) : Prop :=
  ∀ hint start stop, Together hint start stop →
    ∃ l, Lists get start stop l ∧
      ∀ limit reverse, scan hint start stop limit reverse = (inDirection reverse l).take limit

theorem inRange_isLT {start stop k : Key} (h : FlushCore.inRange start stop k = true) :
    ¬ (compare start stop).isGE = true := by
  simp only [FlushCore.inRange, Bool.and_eq_true] at h
  have hlt : compare start stop = .lt :=
    Std.TransCmp.lt_of_isLE_of_lt h.1 (Ordering.isLT_iff_eq_lt.mp h.2)
  simp [hlt]

theorem lists_nil {get : Key → Option Value} {start stop : Key}
    (h : (compare start stop).isGE = true) : Lists get start stop [] where
  sorted := List.Pairwise.nil
  mem e := by
    constructor
    · intro he
      cases he
    · rintro ⟨hr, _⟩
      exact absurd h (inRange_isLT hr)

theorem live_latest {c : Chain} : c.latest.bind live = c.latest := by
  unfold Chain.latest
  cases c.versions.getLast? with
  | none => rfl
  | some v => by_cases hv : v.value.isLive = true <;> simp [live, hv]

theorem OpStore.pick_eq_get
    (core : FlushCore) (overlay : ValueMap) (st : OpState) {hint start stop key : Key}
    (reverse : Bool) (htogether : Together hint start stop) :
    pick ((rangeOf reverse start stop st.writes).map fun e => (e.1, some e.2))
        ((rangeOf reverse start stop overlay).map fun e => (e.1, some e.2))
        ((rangeOf reverse start stop (core.shards (shard_of hint))).map fun e =>
          (e.1, e.2.latest)) key =
      if FlushCore.inRange start stop key then OpStore.get core overlay st key else none := by
  rw [pick, look_map_snd _ some, look_map_snd _ some, look_map_snd _ Chain.latest, look_rangeOf,
    look_rangeOf, look_rangeOf]
  by_cases hr : FlushCore.inRange start stop key = true
  · simp only [if_pos hr]
    rw [OpStore.get]
    cases st.writes[key]? with
    | some v => rfl
    | none =>
        cases overlay[key]? with
        | some v => rfl
        | none =>
            rw [FlushCore.latestValue, FlushCore.chain, htogether key hr]
            cases (core.shards (shard_of hint))[key]? with
            | none => rfl
            | some c => exact live_latest
  · simp only [if_neg hr]
    rfl

/-- A scan on the commit path lists what its sources show of the range. -/
theorem OpStore.scan_of_pick
    (core : FlushCore) (overlay : ValueMap) (st : OpState) {hint start stop : Key}
    {get : Key → Option Value}
    (hpick : ∀ reverse key,
      pick ((rangeOf reverse start stop st.writes).map fun e => (e.1, some e.2))
          ((rangeOf reverse start stop overlay).map fun e => (e.1, some e.2))
          ((rangeOf reverse start stop (core.shards (shard_of hint))).map fun e =>
            (e.1, e.2.latest)) key =
        if FlushCore.inRange start stop key then get key else none) :
    ∃ l, Lists get start stop l ∧ ∀ limit reverse,
      OpStore.scan_range core overlay st hint start stop limit reverse =
        (inDirection reverse l).take limit := by
  by_cases hge : (compare start stop).isGE = true
  · refine ⟨[], lists_nil hge, ?_⟩
    intro limit reverse
    rw [OpStore.scan_range, if_pos (Or.inl hge)]
    cases reverse <;> simp [inDirection]
  · have hspec : ∀ reverse, ∃ l : List (Key × Value), InOrder reverse l ∧
        (∀ e, e ∈ l ↔ FlushCore.inRange start stop e.1 = true ∧ get e.1 = some e.2) ∧
        ∀ limit, OpStore.scan_range core overlay st hint start stop limit reverse =
          l.take limit := by
      intro reverse
      obtain ⟨l, hl, hmem, hloop⟩ := mergeLoop_spec _ (le_refl _)
        ((inOrder_rangeOf reverse start stop st.writes).map_snd some)
        ((inOrder_rangeOf reverse start stop overlay).map_snd some)
        ((inOrder_rangeOf reverse start stop (core.shards (shard_of hint))).map_snd Chain.latest)
      refine ⟨l, hl, ?_, ?_⟩
      · intro e
        rw [hmem, hpick]
        by_cases hr : FlushCore.inRange start stop e.1 = true <;> simp [hr]
      · intro limit
        rw [OpStore.scan_range]
        by_cases hzero : limit = 0
        · subst hzero
          rw [if_pos (Or.inr rfl), List.take_zero]
        · rw [if_neg (not_or.mpr ⟨hge, hzero⟩)]
          exact hloop _ limit (le_refl _)
    obtain ⟨l, hl, hmem, hscan⟩ := hspec false
    have hsorted : KeySorted l := by
      refine List.Pairwise.imp ?_ hl
      intro a b hab
      simpa [scanBefore, KeyLt] using hab
    refine ⟨l, ⟨hsorted, hmem⟩, ?_⟩
    intro limit reverse
    obtain ⟨l', hl', hmem', hscan'⟩ := hspec reverse
    have heq : l' = inDirection reverse l := by
      refine hl'.eq_of_mem_iff (hsorted.inOrder reverse) ?_
      intro e
      rw [hmem', ← hmem]
      exact mem_inDirection.symm
    rw [hscan', heq]

/-- On the commit path a scan agrees with the reads. -/
theorem OpStore.scan_exact (core : FlushCore) (overlay : ValueMap) (st : OpState) :
    ScansExactly (OpStore.get core overlay st) (OpStore.scan_range core overlay st) :=
  fun _ _ _ htogether => OpStore.scan_of_pick core overlay st fun reverse _ =>
    OpStore.pick_eq_get core overlay st reverse htogether

/-! ## A bounded part of the shard, patched -/

/-- Where what a sublist left out stands behind `n` of its members, the first `n`
are the same. -/
theorem take_eq_of_sublist {α : Type} (before : α → α → Prop) [DecidableRel before]
    {l l' : List α} (hsub : l'.Sublist l) (hl : l.Pairwise before)
    (hasymm : ∀ a b, before a b → ¬ before b a) (n : Nat)
    (hout : ∀ x ∈ l, x ∉ l' → n ≤ (l'.filter fun a => before a x).length) :
    l'.take n = l.take n := by
  induction hsub generalizing n with
  | slnil => rfl
  | @cons l' l x hsub ih =>
      obtain ⟨hx, hl⟩ := List.pairwise_cons.mp hl
      have hnone : l'.filter (fun a => before a x) = [] := by
        rw [List.filter_eq_nil_iff]
        intro a ha hbefore
        exact hasymm _ _ (hx a (hsub.subset ha)) (of_decide_eq_true hbefore)
      have hnot : x ∉ l' := by
        intro hmem
        exact hasymm _ _ (hx x (hsub.subset hmem)) (hx x (hsub.subset hmem))
      have hzero := hout x List.mem_cons_self hnot
      rw [hnone] at hzero
      obtain rfl : n = 0 := Nat.le_zero.mp hzero
      rw [List.take_zero, List.take_zero]
  | @cons_cons l' l x hsub ih =>
      obtain ⟨hx, hl⟩ := List.pairwise_cons.mp hl
      cases n with
      | zero => rw [List.take_zero, List.take_zero]
      | succ n =>
          rw [List.take_succ_cons, List.take_succ_cons]
          congr 1
          refine ih hl n ?_
          intro y hy hnot
          have hne : y ≠ x := by
            rintro rfl
            exact hasymm _ _ (hx y hy) (hx y hy)
          have hcount := hout y (List.mem_cons_of_mem _ hy) (by simp [hne, hnot])
          rw [List.filter_cons, if_pos (decide_eq_true (hx y hy)), List.length_cons] at hcount
          omega

theorem inOrder_filter {β : Type} {reverse : Bool} (p : Key × β → Bool) {l : List (Key × β)}
    (h : InOrder reverse l) : InOrder reverse (l.filter p) := List.Pairwise.filter p h

theorem InOrder.nodup_keys {β : Type} {reverse : Bool} {l : List (Key × β)}
    (h : InOrder reverse l) : (l.map Prod.fst).Nodup := by
  rw [List.nodup_iff_pairwise_ne, List.pairwise_map]
  refine List.Pairwise.imp ?_ h
  intro a b hab heq
  rw [heq, scanBefore_irrefl] at hab
  cases hab

/-- Of two lists in scan order one is a part of the other as soon as its members
are. -/
theorem InOrder.sublist {reverse : Bool} {l l' : List (Key × Value)}
    (h' : InOrder reverse l') (h : InOrder reverse l) (hsub : ∀ e ∈ l', e ∈ l) :
    l'.Sublist l := by
  have heq : l' = l.filter fun e => decide (e ∈ l') := by
    refine h'.eq_of_mem_iff (List.Pairwise.filter _ h) ?_
    intro e
    rw [List.mem_filter, decide_eq_true_eq]
    exact ⟨fun he => ⟨hsub e he, he⟩, And.right⟩
  rw [heq]
  exact List.filter_sublist

namespace Txn

/-- What a transaction reads. -/
def value (core : FlushCore) (t : Txn) (key : Key) : Option Value := (t.get core key).1

/-- The own writes of a range laid over pairs of the snapshot. -/
def patch (own base : List (Key × Value)) : ValueMap :=
  own.foldl mergeOwn (Std.ExtTreeMap.ofList base)

theorem getElem?_mergeOwn (m : ValueMap) (e : Key × Value) (k : Key) :
    (mergeOwn m e)[k]? = if e.1 = k then live e.2 else m[k]? := by
  unfold mergeOwn
  cases live e.2 with
  | none => exact FlushCore.map_getElem?_erase m e.1 k
  | some v => exact FlushCore.map_getElem?_insert m e.1 k v

theorem getElem?_foldl_mergeOwn {own : List (Key × Value)} (hown : InOrder false own)
    (m : ValueMap) (k : Key) :
    (own.foldl mergeOwn m)[k]? =
      match look own k with
      | some v => live v
      | none => m[k]? := by
  induction own generalizing m with
  | nil => rfl
  | cons e own ih =>
      obtain ⟨hhead, htail⟩ := List.pairwise_cons.mp hown
      rw [List.foldl_cons, ih htail, look_cons, getElem?_mergeOwn]
      by_cases heq : e.1 = k
      · have hnone : look own k = none := by
          refine look_eq_none fun x hx hxk => ?_
          have hself := hhead x hx
          rw [heq, hxk, scanBefore_irrefl] at hself
          cases hself
        rw [hnone, if_pos heq]
        simp [heq]
      · simp only [if_neg heq]

theorem getElem?_ofList {base : List (Key × Value)} (hbase : InOrder false base) (k : Key) :
    (Std.ExtTreeMap.ofList base)[k]? = look base k := by
  cases hk : look base k with
  | none =>
      refine Std.ExtTreeMap.getElem?_ofList_of_contains_eq_false ?_
      rw [Bool.eq_false_iff]
      intro hmem
      obtain ⟨e, he, heq⟩ := List.mem_map.mp (List.contains_iff_mem.mp hmem)
      have hsome : look base k = some e.2 := hbase.look_eq_some.mpr (by rw [← heq]; exact he)
      rw [hk] at hsome
      cases hsome
  | some v =>
      refine Std.ExtTreeMap.getElem?_ofList_of_mem (Std.LawfulEqCmp.compare_eq_iff_eq.mpr rfl) ?_
        (hbase.look_eq_some.mp hk)
      refine List.Pairwise.imp ?_ hbase
      intro a b hab heq
      rw [Std.LawfulEqCmp.compare_eq_iff_eq.mp heq, scanBefore_irrefl] at hab
      cases hab

theorem mem_patch {own base : List (Key × Value)} (hown : InOrder false own)
    (hbase : InOrder false base) {e : Key × Value} :
    e ∈ (patch own base).toList ↔
      (∃ v, look own e.1 = some v ∧ live v = some e.2) ∨ (look own e.1 = none ∧ e ∈ base) := by
  obtain ⟨k, v⟩ := e
  rw [Std.ExtTreeMap.mem_toList_iff_getElem?_eq_some, patch, getElem?_foldl_mergeOwn hown,
    getElem?_ofList hbase]
  cases look own k with
  | none => simp [hbase.look_eq_some]
  | some w => simp

/-- What a bounded part of a list in order left out is behind the whole part. -/
theorem before_of_not_mem_take {reverse : Bool} {l : List (Key × Value)} (h : InOrder reverse l)
    {n : Nat} {x : Key × Value} (hx : x ∈ l) (hout : x ∉ l.take n) :
    (l.take n).length = n ∧ ∀ a ∈ l.take n, scanBefore reverse a.1 x.1 = true := by
  constructor
  · rw [List.length_take]
    refine Nat.min_eq_left (Nat.le_of_lt (Nat.lt_of_not_le fun hle => hout ?_))
    rw [List.take_of_length_le hle]
    exact hx
  · have hdrop : x ∈ l.drop n := by
      rw [← List.take_append_drop n l, List.mem_append] at hx
      exact hx.resolve_left hout
    have hsplit : (l.take n ++ l.drop n).Pairwise fun a b => scanBefore reverse a.1 b.1 = true := by
      rw [List.take_append_drop]
      exact h
    exact fun a ha => (List.pairwise_append.mp hsplit).2.2 a ha x hdrop

/-- Own writes hide at most as many pairs as there are own writes. -/
theorem length_unhidden {reverse : Bool} (own : List (Key × Value)) {l : List (Key × Value)}
    (hl : InOrder reverse l) :
    l.length ≤ (l.filter fun e => (look own e.1).isNone).length + own.length := by
  have hhidden : (l.filter fun e => !(look own e.1).isNone).length ≤ own.length := by
    have hnodup : ((l.filter fun e => !(look own e.1).isNone).map Prod.fst).Nodup :=
      InOrder.nodup_keys (inOrder_filter _ hl)
    have hsub : (l.filter fun e => !(look own e.1).isNone).map Prod.fst ⊆ own.map Prod.fst := by
      intro k hk
      obtain ⟨e, he, rfl⟩ := List.mem_map.mp hk
      obtain ⟨_, hsome⟩ := List.mem_filter.mp he
      by_contra hno
      have hnone : look own e.1 = none := by
        refine look_eq_none fun x hx heq => hno ?_
        exact List.mem_map.mpr ⟨x, hx, heq⟩
      simp [hnone] at hsome
    have hle := (hnodup.subperm hsub).length_le
    rwa [List.length_map, List.length_map] at hle
  have hsplit := List.length_eq_length_filter_add (l := l) fun e => (look own e.1).isNone
  omega

/-- A part of the shard that is longer by the number of own writes is enough. -/
theorem take_patch {own base : List (Key × Value)} (hown : InOrder false own)
    (hbase : InOrder false base) (limit : Nat) (reverse : Bool) :
    (inDirection reverse (patch own
        (inDirection reverse ((inDirection reverse base).take (limit + own.length)))).toList).take
        limit =
      (inDirection reverse (patch own base).toList).take limit := by
  have hdir : ∀ {l : List (Key × Value)}, InOrder false l → InOrder reverse (inDirection reverse l) := by
    intro l hl
    refine KeySorted.inOrder ?_ reverse
    refine List.Pairwise.imp ?_ hl
    intro a b hab
    simpa [scanBefore, KeyLt] using hab
  have hback : ∀ {l : List (Key × Value)}, InOrder reverse l →
      InOrder false (inDirection reverse l) := by
    intro l hl
    cases reverse with
    | false => exact hl
    | true =>
        refine List.pairwise_reverse.mpr (List.Pairwise.imp ?_ hl)
        intro a b hab
        rw [← scanBefore_swap]
        exact hab
  have hpart : InOrder reverse ((inDirection reverse base).take (limit + own.length)) :=
    List.Pairwise.sublist (List.take_sublist _ _) (hdir hbase)
  have hsubset : ∀ e, e ∈ inDirection reverse ((inDirection reverse base).take (limit + own.length)) →
      e ∈ base := fun e he => mem_inDirection.mp (List.mem_of_mem_take (mem_inDirection.mp he))
  have htoList : ∀ l, InOrder reverse (inDirection reverse (patch own l).toList) :=
    fun l => KeySorted.inOrder (keySorted_toList _) reverse
  have hsub : ∀ e ∈ inDirection reverse (patch own
      (inDirection reverse ((inDirection reverse base).take (limit + own.length)))).toList,
      e ∈ inDirection reverse (patch own base).toList := by
    intro e he
    rw [mem_inDirection, mem_patch hown (hback hpart)] at he
    rw [mem_inDirection, mem_patch hown hbase]
    exact he.imp_right fun h => ⟨h.1, hsubset e h.2⟩
  refine take_eq_of_sublist (fun a b : Key × Value => scanBefore reverse a.1 b.1 = true)
    ((htoList _).sublist (htoList _) hsub) (htoList _) ?_ limit ?_
  · intro a b hab hba
    have haa := scanBefore_trans hab hba
    rw [scanBefore_irrefl] at haa
    cases haa
  · intro x hx hnot
    rw [mem_inDirection, mem_patch hown hbase] at hx
    rw [mem_inDirection, mem_patch hown (hback hpart), not_or] at hnot
    obtain ⟨hnone, hxbase⟩ := hx.resolve_left hnot.1
    have hxout : x ∉ (inDirection reverse base).take (limit + own.length) :=
      fun hmem => hnot.2 ⟨hnone, mem_inDirection.mpr hmem⟩
    obtain ⟨hlen, hbefore⟩ := before_of_not_mem_take (hdir hbase) (mem_inDirection.mpr hxbase) hxout
    have hcount := length_unhidden own hpart
    have hnodup : (((inDirection reverse base).take (limit + own.length)).filter
        fun e => (look own e.1).isNone).Nodup :=
      List.Nodup.of_map Prod.fst
        (InOrder.nodup_keys (inOrder_filter _ hpart))
    have hfree : ((inDirection reverse base).take (limit + own.length)).filter
        (fun e => (look own e.1).isNone) ⊆
        (inDirection reverse (patch own (inDirection reverse
          ((inDirection reverse base).take (limit + own.length)))).toList).filter
          fun a => scanBefore reverse a.1 x.1 = true := by
      intro a ha
      obtain ⟨hapart, hnone⟩ := List.mem_filter.mp ha
      rw [List.mem_filter, mem_inDirection, mem_patch hown (hback hpart)]
      refine ⟨Or.inr ⟨Option.isNone_iff_eq_none.mp hnone, mem_inDirection.mpr hapart⟩, ?_⟩
      exact decide_eq_true (hbefore a hapart)
    have hle := (hnodup.subperm hfree).length_le
    omega

/-- In a transaction a scan agrees with the reads. -/
theorem scan_exact (core : FlushCore) (t : Txn) :
    ScansExactly (t.value core) (t.scan_range core) := by
  intro hint start stop htogether
  by_cases hge : (compare start stop).isGE = true
  · refine ⟨[], lists_nil hge, ?_⟩
    intro limit reverse
    rw [Txn.scan_range, if_pos (Or.inl hge)]
    cases reverse <;> simp [inDirection]
  · have hown : InOrder false (t.writes.toList.filter fun e => FlushCore.inRange start stop e.1) :=
      KeySorted.inOrder ((keySorted_toList t.writes).filter _) false
    have hbase : InOrder false (core.scanShard (shard_of hint) start stop t.snapshot) :=
      KeySorted.inOrder (FlushCore.scanShard_sorted _ _ _ _ _) false
    have hlook : ∀ key, look (t.writes.toList.filter fun e => FlushCore.inRange start stop e.1) key =
        if FlushCore.inRange start stop key then t.writes[key]? else none :=
      look_rangeOf false start stop t.writes
    refine ⟨(patch (t.writes.toList.filter fun e => FlushCore.inRange start stop e.1)
      (core.scanShard (shard_of hint) start stop t.snapshot)).toList, ⟨keySorted_toList _, ?_⟩, ?_⟩
    · intro e
      rw [mem_patch hown hbase, hlook, FlushCore.mem_scanShard, value, get]
      by_cases hr : FlushCore.inRange start stop e.1 = true
      · rw [if_pos hr]
        cases t.writes[e.1]? with
        | some v => simp [hr]
        | none =>
            rw [FlushCore.get_at_eq_view, htogether e.1 hr]
            simp [hr]
      · simp [hr]
    · intro limit reverse
      rw [Txn.scan_range]
      by_cases hzero : limit = 0
      · subst hzero
        rw [if_pos (Or.inr rfl), List.take_zero]
      · rw [if_neg (not_or.mpr ⟨hge, hzero⟩), ← take_patch hown hbase limit reverse]
        have hmax : ∀ n, max (limit + n) 1 = limit + n := by
          intro n
          omega
        cases reverse with
        | false => simp [inDirection, patch, FlushCore.scan_pinned_limit, hge]
        | true => simp [inDirection, patch, FlushCore.scan_pinned_reverse, hge, hmax]

end Txn

/-! ## Layers -/

/-- What a stack of layers shows of a key: the upmost that knows it decides, and a
tombstone there hides the layers below. -/
def shown (layers : List (Key → Option Value)) (key : Key) : Option Value :=
  (layers.findSome? fun layer => layer key).bind live

/-- The value of the newest version of a key, which may be a tombstone. -/
def FlushCore.newest (core : FlushCore) (key : Key) : Option Value :=
  (core.chain key).bind fun c => c.versions.getLast?.map Version.value

/-- The value of the newest version up to a snapshot, which may be a tombstone. -/
def FlushCore.newestAt (core : FlushCore) (snapshot : Nat) (key : Key) : Option Value :=
  (core.chain key).bind fun c => (c.visibleVersion snapshot).map Version.value

theorem OpStore.get_eq_shown (core : FlushCore) (overlay : ValueMap) (st : OpState) (key : Key) :
    OpStore.get core overlay st key =
      shown [fun k => st.writes[k]?, fun k => overlay[k]?, core.newest] key := by
  simp only [OpStore.get, shown, List.findSome?_cons, List.findSome?_nil]
  cases st.writes[key]? with
  | some v => rfl
  | none =>
      cases overlay[key]? with
      | some v => rfl
      | none =>
          simp only [FlushCore.latestValue, FlushCore.newest]
          cases core.chain key with
          | none => rfl
          | some c =>
              simp only [Option.bind_some, Chain.latest]
              cases c.versions.getLast? <;> rfl

theorem Txn.value_eq_shown (core : FlushCore) (t : Txn) (key : Key) :
    t.value core key = shown [fun k => t.writes[k]?, core.newestAt t.snapshot] key := by
  simp only [Txn.value, Txn.get, shown, List.findSome?_cons, List.findSome?_nil]
  cases t.writes[key]? with
  | some v => rfl
  | none =>
      simp only [FlushCore.get_at, FlushCore.newestAt]
      cases core.chain key with
      | none => rfl
      | some c =>
          simp only [Option.bind_some, Chain.visible]
          cases c.visibleVersion t.snapshot <;> rfl

/-- **Merged range scans equal the reference.**  With a hint whose shard holds every
key of the range, `scan_range` of either store gives the first `limit` live entries
of its layers, in key order or in reverse: own writes over the overlay over what is
committed, and in a transaction own writes over what was committed at its snapshot. -/
theorem range_scans_exact (core : FlushCore) (overlay : ValueMap) (st : OpState) (t : Txn) :
    ScansExactly (shown [fun k => st.writes[k]?, fun k => overlay[k]?, core.newest])
        (OpStore.scan_range core overlay st) ∧
      ScansExactly (shown [fun k => t.writes[k]?, core.newestAt t.snapshot])
        (t.scan_range core) := by
  rw [← funext (OpStore.get_eq_shown core overlay st), ← funext (Txn.value_eq_shown core t)]
  exact ⟨OpStore.scan_exact core overlay st, Txn.scan_exact core t⟩

end StrikeDB
