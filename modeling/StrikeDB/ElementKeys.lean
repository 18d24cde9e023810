import StrikeDB.Expiry
import StrikeDB.MergedScan
import StrikeDB.SnapshotReads

/-!
# StrikeDB: the elements of a collection

A collection under a user key is one header and one or more families of element
keys, `c:{<hex key>}:<sub>` and a rest.  The braces make the hex digits of the
user key choose the shard, so that a scan of one shard sees the whole family.
For the empty user key there is nothing between the braces, and `shard_of` hashes
every element key as a whole.

**Results.**
* `inRange_erange`: the range of a family has exactly the keys of the family.
* `family_disjoint`: two families have no key in common.
* `each_eq`: the pages of `each` visit what one unlimited scan returns.
* `complete_iff`: collections are complete under every user key but the empty one.
-/

namespace StrikeDB
namespace Elements

/-! ## Keys -/

/-- The kinds of elements, those of streams included. -/
def SUBS : Bytes := type_subs 1 ++ type_subs 2 ++ type_subs 3 ++ type_subs 4 ++ type_subs 5

def ekey (key : Bytes) (sub : UInt8) (rest : Bytes) : Key := ebase key sub ++ rest

/-- `[start, end)` covering every key of one element family. -/
def erange (key : Bytes) (sub : UInt8) : Key × Key := (ebase key sub, ebase key (sub + 1))

/-! ## Scans -/

/-- `Ctx::elements`: the rests of the keys of a family, with their values. -/
def elements (scan : Key → Key → Key → Nat → Bool → List (Key × Value)) (usize_max : Nat)
    (key : Bytes) (sub : UInt8) : List (Bytes × Value) :=
  let (s, e) := erange key sub
  (scan s s e usize_max false).map fun kv => (kv.1.drop s.length, kv.2)

def PAGE : Nat := 256

/-- Hand pairs to `f` until it returns false. -/
def visit {σ : Type} (f : σ → Key → Value → σ × Bool) : σ → List (Key × Value) → σ × Bool
  | st, [] => (st, true)
  | st, (k, v) :: l =>
      match f st k v with
      | (st, false) => (st, false)
      | (st, true) => visit f st l

/-- `Ctx::each`: visit `[start, end)` in pages; `f` returns false to stop. -/
def each {σ : Type} (scan : Key → Key → Key → Nat → Bool → List (Key × Value)) (hint : Key)
    (reverse : Bool) (f : σ → Key → Value → σ × Bool) : Nat → Key → Key → σ → Option σ
  | 0, _, _, _ => none
  | fuel + 1, s, e, st =>
      let page := scan hint s e PAGE reverse
      match page.getLast? with
      | none => some st
      | some last =>
          match visit f st page with
          | (st, false) => some st
          | (st, true) =>
              if page.length < PAGE then some st
              else if reverse then each scan hint reverse f fuel s last.1 st
              else each scan hint reverse f fuel (last.1 ++ [0]) e st

/-! ## The hash tag -/

/-- Both hex digits of every byte. -/
def hexOf (key : Bytes) : Bytes := key.flatMap fun (b : UInt8) => [hexDigit (b >>> 4), hexDigit (b &&& 15)]

/-- `c:{<hex key>}:` -/
def tagged (key : Bytes) : Key := [0x63, 0x3a, 0x7b] ++ hexOf key ++ [0x7d, 0x3a]

theorem ebase_eq (key : Bytes) (sub : UInt8) : ebase key sub = tagged key ++ [sub] := by
  simp [ebase, tagged, hexOf]

theorem digits_ne : ∀ b : UInt8,
    (hexDigit (b >>> 4) ≠ 0x7b ∧ hexDigit (b >>> 4) ≠ 0x7d) ∧
      (hexDigit (b &&& 15) ≠ 0x7b ∧ hexDigit (b &&& 15) ≠ 0x7d) :=
  forall_byte (by decide +kernel)

theorem hexOf_cons (b : UInt8) (key : Bytes) :
    hexOf (b :: key) = hexDigit (b >>> 4) :: hexDigit (b &&& 15) :: hexOf key := by
  simp [hexOf]

/-- There is no brace among the digits. -/
theorem mem_hexOf_ne {key : Bytes} : ∀ d ∈ hexOf key, d ≠ 0x7b ∧ d ≠ 0x7d := by
  intro d hd
  obtain ⟨b, _, hb⟩ := List.mem_flatMap.mp hd
  simp only [List.mem_cons, List.not_mem_nil, or_false] at hb
  rcases hb with rfl | rfl
  · exact (digits_ne b).1
  · exact (digits_ne b).2

theorem hexOf_eq_nil {key : Bytes} : hexOf key = [] ↔ key = [] := by
  cases key with
  | nil => simp [hexOf]
  | cons b key => simp [hexOf_cons]

/-- The byte with two given digits. -/
def unhex (high low : UInt8) : UInt8 :=
  (if high < 0x3a then high - 0x30 else high - 0x57) * 16 +
    (if low < 0x3a then low - 0x30 else low - 0x57)

theorem unhex_digits : ∀ b : UInt8, unhex (hexDigit (b >>> 4)) (hexDigit (b &&& 15)) = b :=
  forall_byte (by decide +kernel)

theorem hexOf_injective {key key' : Bytes} (h : hexOf key = hexOf key') : key = key' := by
  induction key generalizing key' with
  | nil => exact (hexOf_eq_nil.mp h.symm).symm
  | cons b key ih =>
      cases key' with
      | nil => exact absurd (hexOf_eq_nil.mp h) (List.cons_ne_nil b key)
      | cons c key' =>
          simp only [hexOf_cons, List.cons.injEq] at h
          rw [← unhex_digits b, ← unhex_digits c, h.1, h.2.1, ih h.2.2]

/-- Every key that begins with the tag of a non-empty user key hashes the digits
of that key. -/
theorem hashInput_tagged {key : Bytes} (hkey : key ≠ []) (rest : Bytes) :
    hashInput (tagged key ++ rest) = hexOf key := by
  have hrest : ((tagged key ++ rest).dropWhile (fun b => b ≠ 0x7b)).drop 1 =
      hexOf key ++ (0x7d :: 0x3a :: rest) := by
    simp [tagged]
  have htag : (hexOf key ++ (0x7d :: 0x3a :: rest)).takeWhile (fun b => b ≠ 0x7d) = hexOf key := by
    rw [List.takeWhile_append_of_pos]
    · simp
    · intro d hd
      simpa using (mem_hexOf_ne d hd).2
  simp only [hashInput, hrest, htag]
  rw [if_pos]
  refine ⟨?_, ?_, ?_⟩
  · simp [tagged]
  · simp
  · exact fun h => hkey (hexOf_eq_nil.mp h)

theorem shard_of_tagged {key : Bytes} (hkey : key ≠ []) {k : Key} (h : tagged key <+: k) :
    shard_of k = ⟨((fnv1a (hexOf key)) &&& 31).toNat % SHARD_COUNT, Nat.mod_lt _ (by decide)⟩ := by
  obtain ⟨rest, rfl⟩ := h
  unfold shard_of
  simp only [hashInput_tagged hkey]

/-! ## Families -/

/-- The range of a family has the keys that begin with its first key. -/
theorem inRange_erange {key : Bytes} {sub : UInt8} (hsub : sub ≠ 0xFF) (k : Key) :
    FlushCore.inRange (erange key sub).1 (erange key sub).2 k = true ↔ ebase key sub <+: k := by
  rw [prefix_iff_above, ebase_eq, above_append_singleton hsub]
  simp [FlushCore.inRange, erange, ebase_eq]

/-- Two families have no key in common, be it of two user keys or of one. -/
theorem family_disjoint {key key' : Bytes} {sub sub' : UInt8} {k : Key}
    (h : ebase key sub <+: k) (h' : ebase key' sub' <+: k) : key = key' ∧ sub = sub' := by
  obtain ⟨rest, rfl⟩ := h
  obtain ⟨rest', heq⟩ := h'
  simp only [ebase_eq, tagged, List.append_assoc, List.cons_append, List.nil_append,
    List.cons.injEq, true_and] at heq
  have hcut : ∀ (key : Bytes) (tail : Bytes),
      (hexOf key ++ 0x7d :: tail).takeWhile (fun b => b ≠ 0x7d) = hexOf key := by
    intro key tail
    rw [List.takeWhile_append_of_pos]
    · simp
    · intro d hd
      simpa using (mem_hexOf_ne d hd).2
  have hhex : hexOf key' = hexOf key := by
    rw [← hcut key' (0x3a :: sub' :: rest'), heq, hcut]
  have hkey := hexOf_injective hhex
  subst hkey
  have htail := List.append_cancel_left heq
  simp only [List.cons.injEq, true_and] at htail
  exact ⟨rfl, htail.1.symm⟩

theorem tagged_prefix_ebase (key : Bytes) (sub : UInt8) : tagged key <+: ebase key sub :=
  ⟨[sub], (ebase_eq key sub).symm⟩

theorem tagged_prefix_ekey (key : Bytes) (sub : UInt8) (rest : Bytes) :
    tagged key <+: ekey key sub rest :=
  (tagged_prefix_ebase key sub).trans ⟨rest, rfl⟩

/-- A range between two keys of a non-empty user key lies in the shard of any
element key of that user key. -/
theorem together_of_tagged {key : Bytes} (hkey : key ≠ []) {hint start stop : Key}
    (hhint : tagged key <+: hint) (hstart : tagged key <+: start) (hstop : tagged key <+: stop) :
    Together hint start stop := by
  intro k hk
  rw [shard_of_tagged hkey (prefix_of_inRange hstart hstop hk), shard_of_tagged hkey hhint]

/-! ## Pages -/

theorem succ_isLE (k e : Bytes) : (compare (k ++ [0]) e).isLE = (compare k e).isLT := by
  induction k generalizing e with
  | nil =>
      cases e with
      | nil => rfl
      | cons c e =>
          rw [List.nil_append, List.compare_cons_cons]
          have hzero : compare (0 : UInt8) c ≠ .gt := by
            intro hgt
            exact absurd (Std.compare_eq_gt.mp hgt) (by simp [UInt8.lt_iff_toNat_lt])
          cases hc : compare (0 : UInt8) c with
          | lt => simp
          | eq => cases e <;> simp
          | gt => exact absurd hc hzero
  | cons b k ih =>
      cases e with
      | nil => rfl
      | cons c e =>
          rw [List.cons_append, List.compare_cons_cons, List.compare_cons_cons]
          cases compare b c with
          | lt => rfl
          | gt => rfl
          | eq => exact ih e

theorem visit_append {σ : Type} (f : σ → Key → Value → σ × Bool) (st : σ)
    (l l' : List (Key × Value)) :
    visit f st (l ++ l') =
      match visit f st l with
      | (st, false) => (st, false)
      | (st, true) => visit f st l' := by
  induction l generalizing st with
  | nil => rfl
  | cons e l ih =>
      obtain ⟨k, v⟩ := e
      rw [List.cons_append, visit, visit]
      cases hf : f st k v with
      | mk st go => cases go <;> simp [ih]

theorem inDirection_inDirection {α : Type} (reverse : Bool) (l : List α) :
    inDirection reverse (inDirection reverse l) = l := by
  cases reverse <;> simp [inDirection]

/-- What is behind a full page in scan order. -/
theorem mem_drop_iff {reverse : Bool} {l : List (Key × Value)} (h : InOrder reverse l) {n : Nat}
    {last : Key × Value} (hlast : (l.take n).getLast? = some last) {e : Key × Value} :
    e ∈ l.drop n ↔ e ∈ l ∧ scanBefore reverse last.1 e.1 = true := by
  have hsplit : (l.take n ++ l.drop n).Pairwise fun a b => scanBefore reverse a.1 b.1 = true := by
    rw [List.take_append_drop]
    exact h
  obtain ⟨htake, _, hcross⟩ := List.pairwise_append.mp hsplit
  constructor
  · intro he
    exact ⟨List.mem_of_mem_drop he, hcross last (List.mem_of_getLast? hlast) e he⟩
  · rintro ⟨he, hbefore⟩
    rw [← List.take_append_drop n l, List.mem_append] at he
    refine he.resolve_left fun hmem => ?_
    obtain ⟨front, hfront⟩ := List.getLast?_eq_some_iff.mp hlast
    rw [hfront] at hmem htake
    rcases List.mem_append.mp hmem with hmem | hmem
    · have hrev := (List.pairwise_append.mp htake).2.2 e hmem last List.mem_cons_self
      have hself := scanBefore_trans hbefore hrev
      rw [scanBefore_irrefl] at hself
      cases hself
    · obtain rfl := List.mem_singleton.mp hmem
      rw [scanBefore_irrefl] at hbefore
      cases hbefore

/-- The next range that `each` asks for. -/
def nextRange (reverse : Bool) (start stop last : Key) : Key × Key :=
  if reverse then (start, last) else (last ++ [0], stop)

theorem inRange_nextRange {reverse : Bool} {start stop last k : Key}
    (hlast : FlushCore.inRange start stop last = true) :
    FlushCore.inRange (nextRange reverse start stop last).1 (nextRange reverse start stop last).2 k =
      (FlushCore.inRange start stop k && scanBefore reverse last k) := by
  simp only [FlushCore.inRange, Bool.and_eq_true] at hlast
  have hswap : compare last k = (compare k last).swap := Std.OrientedCmp.eq_swap
  cases reverse with
  | false =>
      simp only [nextRange, Bool.false_eq_true, if_false, FlushCore.inRange, scanBefore, succ_isLE]
      cases hk : (compare last k).isLT with
      | false => simp
      | true =>
          have hstart : (compare start k).isLE = true :=
            Std.TransCmp.isLE_trans hlast.1 (by simp [Ordering.isLT_iff_eq_lt.mp hk])
          simp [hstart]
  | true =>
      simp only [nextRange, if_true, FlushCore.inRange, scanBefore, hswap]
      cases hk : compare k last with
      | lt =>
          have hstop : compare k stop = .lt :=
            Std.TransCmp.lt_trans hk (Ordering.isLT_iff_eq_lt.mp hlast.2)
          simp [hstop]
      | eq => simp
      | gt => simp

/-- The rest of a range after a full page. -/
theorem lists_rest {get : Key → Option Value} {start stop : Key} {l : List (Key × Value)}
    (h : Lists get start stop l) (reverse : Bool) {n : Nat} {last : Key × Value}
    (hlast : ((inDirection reverse l).take n).getLast? = some last) :
    Lists get (nextRange reverse start stop last.1).1 (nextRange reverse start stop last.1).2
      (inDirection reverse ((inDirection reverse l).drop n)) := by
  have horder : InOrder reverse (inDirection reverse l) := h.sorted.inOrder reverse
  have hmem : last ∈ l :=
    mem_inDirection.mp (List.mem_of_mem_take (List.mem_of_getLast? hlast))
  constructor
  · have hdrop : InOrder reverse ((inDirection reverse l).drop n) :=
      List.Pairwise.sublist (List.drop_sublist _ _) horder
    cases reverse with
    | false =>
        refine List.Pairwise.imp ?_ hdrop
        intro a b hab
        simpa [scanBefore, KeyLt] using hab
    | true =>
        refine List.pairwise_reverse.mpr (List.Pairwise.imp ?_ hdrop)
        intro a b hab
        have hgt : compare a.1 b.1 = .gt := by simpa [scanBefore] using hab
        exact Std.OrientedCmp.lt_of_gt hgt
  · intro e
    rw [mem_inDirection, mem_drop_iff horder hlast, inRange_nextRange ((h.mem last).mp hmem).1]
    rw [mem_inDirection, h.mem]
    simp only [Bool.and_eq_true]
    exact ⟨fun hh => ⟨⟨hh.1.1, hh.2⟩, hh.1.2⟩, fun hh => ⟨⟨hh.1.1, hh.2⟩, hh.1.2⟩⟩

theorem together_next {hint start stop last : Key} (h : Together hint start stop)
    (hlast : FlushCore.inRange start stop last = true) (reverse : Bool) :
    Together hint (nextRange reverse start stop last).1 (nextRange reverse start stop last).2 := by
  intro k hk
  rw [inRange_nextRange hlast, Bool.and_eq_true] at hk
  exact h k hk.1

/-- The pages of `each` visit all that one unlimited scan returns, in order, until
`f` stops. -/
theorem each_eq {σ : Type} {get : Key → Option Value}
    {scan : Key → Key → Key → Nat → Bool → List (Key × Value)} (hscan : ScansExactly get scan)
    (f : σ → Key → Value → σ × Bool) (reverse : Bool) (fuel : Nat)
    {hint start stop : Key} (htogether : Together hint start stop)
    {l : List (Key × Value)} (hl : Lists get start stop l) (hfuel : l.length < fuel) (st : σ) :
    each scan hint reverse f fuel start stop st =
      some (visit f st (inDirection reverse l)).1 := by
  induction fuel generalizing start stop l st with
  | zero => omega
  | succ fuel ih =>
      obtain ⟨l', hl', hpage⟩ := hscan hint start stop htogether
      obtain rfl := hl.unique hl'
      rw [each, hpage]
      cases hlast : ((inDirection reverse l).take PAGE).getLast? with
      | none =>
          have hnil : (inDirection reverse l).take PAGE = [] := List.getLast?_eq_none_iff.mp hlast
          have hempty : inDirection reverse l = [] := by
            rcases List.take_eq_nil_iff.mp hnil with hzero | hempty
            · exact absurd hzero (by decide)
            · exact hempty
          simp [hempty, visit]
      | some last =>
          have hsplit := visit_append f st ((inDirection reverse l).take PAGE)
            ((inDirection reverse l).drop PAGE)
          rw [List.take_append_drop] at hsplit
          simp only
          rw [hsplit]
          cases hvisit : visit f st ((inDirection reverse l).take PAGE) with
          | mk st' go =>
              cases go with
              | false => rfl
              | true =>
                  simp only
                  by_cases hfull : ((inDirection reverse l).take PAGE).length < PAGE
                  · have hshort : (inDirection reverse l).length < PAGE := by
                      rw [List.length_take] at hfull
                      omega
                    rw [if_pos hfull, List.drop_of_length_le (Nat.le_of_lt hshort)]
                    rfl
                  · rw [if_neg hfull]
                    have hin : FlushCore.inRange start stop last.1 = true :=
                      ((hl.mem last).mp (mem_inDirection.mp
                        (List.mem_of_mem_take (List.mem_of_getLast? hlast)))).1
                    have hrest := lists_rest hl reverse hlast
                    have hless : (inDirection reverse ((inDirection reverse l).drop PAGE)).length <
                        fuel := by
                      have hpos : 0 < PAGE := by decide
                      rw [List.length_take, inDirection_length] at hfull
                      rw [inDirection_length, List.length_drop, inDirection_length]
                      omega
                    have hgo := ih (together_next htogether hin reverse) hrest hless st'
                    rw [inDirection_inDirection] at hgo
                    rw [← hgo]
                    cases reverse <;> rfl

/-! ## Completeness -/

/-- A key of the family, or the end of its range. -/
def Bound (key : Bytes) (sub : UInt8) (k : Key) : Prop :=
  ebase key sub <+: k ∨ k = (erange key sub).2

theorem Bound.tagged_prefix {key : Bytes} {sub : UInt8} {k : Key} (h : Bound key sub k) :
    tagged key <+: k := by
  rcases h with h | rfl
  · exact (tagged_prefix_ebase key sub).trans h
  · exact tagged_prefix_ebase key (sub + 1)

/-- The scans of one store over one family return exactly its live elements. -/
structure ScansFamily (get : Key → Option Value)
    (scan : Key → Key → Key → Nat → Bool → List (Key × Value)) (key : Bytes) (sub : UInt8) :
    Prop where
  /-- `elements` lists them once each, in the order of their rests, when there are
  no more than `usize::MAX`. -/
  all : ∃ l : List (Bytes × Value), KeySorted l ∧
    (∀ rest v, (rest, v) ∈ l ↔ get (ekey key sub rest) = some v) ∧
    ∀ usize_max, l.length ≤ usize_max → elements scan usize_max key sub = l
  /-- `each` visits those between two bounds, with any element key as the hint. -/
  pages : ∀ hint start stop, ebase key sub <+: hint → Bound key sub start → Bound key sub stop →
    ∃ l, Lists get start stop l ∧
      ∀ (σ : Type) (f : σ → Key → Value → σ × Bool) (reverse : Bool) (fuel : Nat) (st : σ),
        l.length < fuel →
        each scan hint reverse f fuel start stop st =
          some (visit f st (inDirection reverse l)).1

/-- What is promised of the element families of one user key in every state that
an engine reaches. -/
structure Complete (key : Bytes) : Prop where
  /-- Every element stands in the shard that a scan with any hint of its family
  consults. -/
  placed : ∀ (ρ : Type) (o : Opened) (sync_writes : Bool) (s : Engine ρ),
    Run Engine.step (fun _ _ => True) (Engine.start o sync_writes) s →
    ∀ sub ∈ SUBS, ∀ (i : Fin SHARD_COUNT) (k : Key) (c : Chain),
      (s.core.shards i)[k]? = some c → ebase key sub <+: k →
      ∀ hint, ebase key sub <+: hint → i = shard_of hint
  /-- On the commit path. -/
  ops : ∀ (ρ : Type) (o : Opened) (sync_writes : Bool) (s : Engine ρ),
    Run Engine.step (fun _ _ => True) (Engine.start o sync_writes) s →
    ∀ sub ∈ SUBS, ∀ (overlay : ValueMap) (st : OpState),
      ScansFamily (OpStore.get s.core overlay st) (OpStore.scan_range s.core overlay st) key sub
  /-- In a transaction, whose scans are pinned to its snapshot. -/
  txns : ∀ (ρ : Type) (o : Opened) (sync_writes : Bool) (s : Engine ρ),
    Run Engine.step (fun _ _ => True) (Engine.start o sync_writes) s →
    ∀ sub ∈ SUBS, ∀ t : Txn, ScansFamily (t.value s.core) (t.scan_range s.core) key sub
  /-- The range of a family has no key of another. -/
  disjoint : ∀ sub ∈ SUBS, ∀ key', ∀ sub' ∈ SUBS, (key', sub') ≠ (key, sub) → ∀ k,
    FlushCore.inRange (erange key sub).1 (erange key sub).2 k = true →
    FlushCore.inRange (erange key' sub').1 (erange key' sub').2 k = false

theorem sub_ne_ff {sub : UInt8} (h : sub ∈ SUBS) : sub ≠ 0xFF := by
  rintro rfl
  revert h
  decide

theorem ekey_injective {key : Bytes} {sub : UInt8} {r r' : Bytes}
    (h : ekey key sub r = ekey key sub r') : r = r' :=
  List.append_cancel_left h

theorem compare_ekey (key : Bytes) (sub : UInt8) (r r' : Bytes) :
    compare (ekey key sub r) (ekey key sub r') = compare r r' := by
  unfold ekey
  induction ebase key sub with
  | nil => rfl
  | cons b p ih =>
      have hself : compare b b = .eq := Std.LawfulEqCmp.compare_eq_iff_eq.mpr rfl
      rw [List.cons_append, List.cons_append, List.compare_cons_cons, hself]
      exact ih

/-- A store whose scans agree with its reads is complete for a non-empty user key. -/
theorem scansFamily {key : Bytes} (hkey : key ≠ []) {sub : UInt8} (hsub : sub ∈ SUBS)
    {get : Key → Option Value} {scan : Key → Key → Key → Nat → Bool → List (Key × Value)}
    (hscan : ScansExactly get scan) :
    ScansFamily get scan key sub where
  all := by
    have htogether : Together (ebase key sub) (erange key sub).1 (erange key sub).2 :=
      together_of_tagged hkey (tagged_prefix_ebase key sub) (tagged_prefix_ebase key sub)
        (tagged_prefix_ebase key (sub + 1))
    obtain ⟨l, hl, hpage⟩ := hscan _ _ _ htogether
    have hfamily : ∀ e ∈ l, ∃ rest, e.1 = ekey key sub rest := by
      intro e he
      obtain ⟨rest, hrest⟩ := (inRange_erange (sub_ne_ff hsub) e.1).mp ((hl.mem e).mp he).1
      exact ⟨rest, hrest.symm⟩
    have hdrop : ∀ rest, (ekey key sub rest).drop (ebase key sub).length = rest :=
      fun rest => List.drop_left
    refine ⟨l.map fun kv => (kv.1.drop (ebase key sub).length, kv.2), ?_, ?_, ?_⟩
    · refine List.pairwise_map.mpr (List.Pairwise.imp_of_mem ?_ hl.sorted)
      intro a b ha hb hab
      obtain ⟨r, hr⟩ := hfamily a ha
      obtain ⟨r', hr'⟩ := hfamily b hb
      unfold KeyLt at hab ⊢
      rw [hr, hr', compare_ekey] at hab
      rw [hr, hr', hdrop, hdrop]
      exact hab
    · intro rest v
      rw [List.mem_map]
      constructor
      · rintro ⟨e, he, heq⟩
        obtain ⟨r, hr⟩ := hfamily e he
        rw [hr, hdrop, Prod.mk.injEq] at heq
        obtain ⟨rfl, rfl⟩ := heq
        rw [← hr]
        exact ((hl.mem e).mp he).2
      · intro hget
        refine ⟨(ekey key sub rest, v), (hl.mem _).mpr ⟨?_, hget⟩, by rw [hdrop]⟩
        exact (inRange_erange (sub_ne_ff hsub) _).mpr ⟨rest, rfl⟩
    · intro usize_max hle
      rw [List.length_map] at hle
      have hfound : scan (ebase key sub) (ebase key sub) (ebase key (sub + 1)) usize_max false = l :=
        (hpage usize_max false).trans (List.take_of_length_le hle)
      simp only [elements, erange, hfound]
  pages := by
    intro hint start stop hhint hstart hstop
    have htogether : Together hint start stop :=
      together_of_tagged hkey ((tagged_prefix_ebase key sub).trans hhint) hstart.tagged_prefix
        hstop.tagged_prefix
    obtain ⟨l, hl, _⟩ := hscan _ _ _ htogether
    refine ⟨l, hl, ?_⟩
    intro σ f reverse fuel st hfuel
    exact each_eq hscan f reverse fuel htogether hl hfuel st

theorem complete_of_ne_nil {key : Bytes} (hkey : key ≠ []) : Complete key where
  placed := by
    intro ρ o sync_writes s hrun sub _ i k c hc hfamily hint hhint
    have hplaced : s.core.Placed :=
      Run.invariant (P := fun s : Engine ρ => s.core.Placed)
        (fun s act s' h _ hst => Engine.placed_step h (Engine.step_cases hst)) hrun o.placed
    rw [← (hplaced i k c hc).1, shard_of_tagged hkey ((tagged_prefix_ebase key sub).trans hfamily),
      shard_of_tagged hkey ((tagged_prefix_ebase key sub).trans hhint)]
  ops := fun _ _ _ s _ _ hsub overlay st =>
    scansFamily hkey hsub (OpStore.scan_exact s.core overlay st)
  txns := fun _ _ _ s _ _ hsub t => scansFamily hkey hsub (Txn.scan_exact s.core t)
  disjoint := by
    intro sub hsub key' sub' hsub' hne k hk
    rw [inRange_erange (sub_ne_ff hsub)] at hk
    rw [← Bool.not_eq_true, inRange_erange (sub_ne_ff hsub')]
    intro hk'
    obtain ⟨rfl, rfl⟩ := family_disjoint hk hk'
    exact hne rfl

/-! ## The empty user key -/

/-- A hash under the empty user key gets its first field. -/
def emptyKeyWrite : List (Act Unit) :=
  [.submit (.write (Std.ExtTreeMap.ofList [(ekey [] 0x68 [1], Value.int 7)])), .drain] ++
    Engine.flusherWorks 39

/-- The field is there, in another shard than the scan over the fields consults,
and the scan does not find it. -/
def missed (s : Engine Unit) : Bool :=
  (s.core.shards (shard_of (ekey [] 0x68 [1])))[ekey [] 0x68 [1]]?.isSome &&
    (OpStore.get s.core ∅ .init (ekey [] 0x68 [1]) == some (.int 7)) &&
    (elements (OpStore.scan_range s.core ∅ .init) (2 ^ 64 - 1) [] 0x68).isEmpty

theorem empty_key_run :
    ∃ s : Engine Unit,
      Run Engine.step (fun _ _ => True) (Engine.start Opened.fresh true) s ∧ missed s = true := by
  have hsome : (exec Engine.step (fun _ _ => true) (Engine.start Opened.fresh true)
      emptyKeyWrite).any missed = true := by
    decide +kernel
  obtain ⟨hs, hmissed⟩ := (Option.any_eq_true_iff_get _ _).mp hsome
  exact ⟨_, .of_exec (fun _ _ _ => trivial) (Option.some_get hs).symm, hmissed⟩

theorem not_complete_nil : ¬ Complete [] := by
  intro h
  obtain ⟨s, hrun, hmissed⟩ := empty_key_run
  simp only [missed, Bool.and_eq_true] at hmissed
  obtain ⟨c, hc⟩ := Option.isSome_iff_exists.mp hmissed.1.1
  have hshard := h.placed Unit Opened.fresh true s hrun 0x68 (by decide) _ _ c hc ⟨[1], rfl⟩
    (ebase [] 0x68) (List.prefix_refl _)
  exact absurd hshard (by decide)

/-- Collections are complete under every user key but the empty one. -/
theorem complete_iff (key : Bytes) : Complete key ↔ key ≠ [] := by
  constructor
  · rintro h rfl
    exact not_complete_nil h
  · exact complete_of_ne_nil

/-- The field of a hash under the empty user key can be read and is not listed. -/
theorem empty_key_incomplete :
    ¬ (∀ key, Complete key) ∧
    ∃ s : Engine Unit,
      Run Engine.step (fun _ _ => True) (Engine.start Opened.fresh true) s ∧
      OpStore.get s.core ∅ .init (ekey [] 0x68 [1]) = some (.int 7) ∧
      elements (OpStore.scan_range s.core ∅ .init) (2 ^ 64 - 1) [] 0x68 = [] := by
  constructor
  · intro h
    exact not_complete_nil (h [])
  · obtain ⟨s, hrun, hmissed⟩ := empty_key_run
    simp only [missed, Bool.and_eq_true, beq_iff_eq, List.isEmpty_iff] at hmissed
    exact ⟨s, hrun, hmissed.1.2, hmissed.2⟩

end Elements
end StrikeDB
