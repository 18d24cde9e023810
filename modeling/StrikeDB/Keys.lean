import StrikeDB.ElementKeys
import StrikeDB.ExpiryIndex
import StrikeDB.Glob
import StrikeDB.Server

/-!
# StrikeDB: KEYS

Scans over all shards, the scan over the keys that begin with some bytes, and
`KEYS`, which scans the literal front of the pattern and keeps what matches.

**Results.**
* `FlushCore.mem_scan`, `FlushCore.scan_sorted`: a scan returns every live pair of
  its range once, in key order.
* `language_literal`: the strings of a pattern begin with its literal front.
* `keys_exact`: what `KEYS` answers, with and without a metacharacter.
-/

namespace StrikeDB

theorem compare_swap (a b : Key) : compare a b = (compare b a).swap := Std.OrientedCmp.eq_swap

namespace FlushCore

/-! ## Scans over all shards -/

theorem get_at_eq_of_placed {core : FlushCore} (h : core.Placed) {i : Fin SHARD_COUNT} {k : Key}
    {snapshot : Nat} {v : Value} (hv : core.view i k snapshot = some v) :
    core.get_at k snapshot = some v := by
  obtain ⟨c, hc, _⟩ := Option.bind_eq_some_iff.mp hv
  rw [get_at_eq_view, (h i k c hc).1]
  exact hv

theorem mem_scan {core : FlushCore} (h : core.Placed) {start stop : Key} {snapshot : Nat}
    {e : Key × Value} :
    e ∈ core.scan start stop snapshot ↔
      inRange start stop e.1 = true ∧ core.get_at e.1 snapshot = some e.2 := by
  rw [scan, List.mem_mergeSort, List.mem_flatMap]
  constructor
  · rintro ⟨i, _, he⟩
    obtain ⟨hr, hv⟩ := mem_scanShard.mp he
    exact ⟨hr, get_at_eq_of_placed h hv⟩
  · rintro ⟨hr, hv⟩
    exact ⟨shard_of e.1, List.mem_finRange _, mem_scanShard.mpr ⟨hr, hv⟩⟩

/-- No key is in two shards. -/
theorem flatMap_distinct {core : FlushCore} (h : core.Placed)
    {f : Fin SHARD_COUNT → List (Key × Value)}
    (hf : ∀ i e, e ∈ f i → ∃ t, core.view i e.1 t = some e.2) (hsorted : ∀ i, KeySorted (f i)) :
    ((List.finRange SHARD_COUNT).flatMap f).Pairwise fun a b => a.1 ≠ b.1 := by
  rw [List.pairwise_flatMap]
  refine ⟨fun i _ => (hsorted i).imp KeyLt.key_ne, ?_⟩
  · refine (List.nodup_finRange _).imp fun {i j} hne a ha b hb heq => hne ?_
    obtain ⟨t, hat⟩ := hf i a ha
    obtain ⟨t', hbt⟩ := hf j b hb
    obtain ⟨c, hc, _⟩ := Option.bind_eq_some_iff.mp hat
    obtain ⟨c', hc', _⟩ := Option.bind_eq_some_iff.mp hbt
    rw [← (h i _ c hc).1, ← (h j _ c' hc').1, heq]

theorem scan_sorted {core : FlushCore} (h : core.Placed) (start stop : Key) (snapshot : Nat) :
    KeySorted (core.scan start stop snapshot) :=
  keySorted_mergeSort (flatMap_distinct h
    (fun _ _ he => ⟨snapshot, (mem_scanShard.mp he).2⟩)
    fun i => scanShard_sorted core i start stop snapshot)

/-! ## Scans over a front -/

/-- The live pairs of one shard from `start` on. -/
def restShard (core : FlushCore) (i : Fin SHARD_COUNT) (start : Key) (snapshot : Nat) :
    List (Key × Value) :=
  ((core.shards i).toList.filter fun e => (compare start e.1).isLE).filterMap fun e =>
    (e.2.visible snapshot).map fun v => (e.1, v)

/-- Scan of the keys that begin with `front`: up to the least key above them, or to the
end when no key is. -/
def scanPrefix (core : FlushCore) (front : Bytes) (snapshot : Nat) : List (Key × Value) :=
  if prefixEnd front = [] then
    ((List.finRange SHARD_COUNT).flatMap fun i => core.restShard i front snapshot).mergeSort
      fun a b => (compare a.1 b.1).isLE
  else core.scan front (prefixEnd front) snapshot

theorem mem_scanPrefix {core : FlushCore} (h : core.Placed) {front end' : Bytes}
    (hend : above front = some end') {snapshot : Nat} {e : Key × Value} :
    e ∈ scanPrefix core front snapshot ↔
      front <+: e.1 ∧ core.get_at e.1 snapshot = some e.2 := by
  have hbound : prefixEnd front = end' := by
    rw [(prefixEnd_spec front).1, hend]
    rfl
  rw [scanPrefix, hbound, if_neg (above_ne_nil hend), mem_scan h, prefix_iff_above, hend, inRange]
  simp

end FlushCore

theorem above_kv (front : Bytes) : ∃ e, above (kv front) = some e := by
  rw [kv, kvPrefix, List.cons_append, above]
  split
  · exact ⟨_, rfl⟩
  · exact ⟨_, if_neg (by decide)⟩

namespace Keys

open Glob

/-! ## The literal front of a pattern -/

/-- A byte that a pattern does not take literally. -/
def isMeta (b : UInt8) : Bool := b = STAR ∨ b = QUESTION ∨ b = OPEN ∨ b = BACKSLASH

theorem language_plain {x : UInt8} (hx : isMeta x = false) {pat s : Bytes} :
    InLanguage (x :: pat) s ↔ ∃ s', s = x :: s' ∧ InLanguage pat s' := by
  simp only [isMeta, Bool.decide_or, Bool.or_eq_false_iff, decide_eq_false_iff_not] at hx
  obtain ⟨hstar, hquestion, hopen, hback⟩ := hx
  have helem : element (x :: pat) = some (fun c => decide (x = c), pat) := by
    rw [element.eq_def]
    simp only
    rw [if_neg hstar, if_neg hquestion, if_neg hopen]
    cases pat with
    | nil => rfl
    | cons y pat => exact if_neg hback
  rw [language_element helem]
  constructor
  · rintro ⟨b, s', rfl, hb, h⟩
    obtain rfl := of_decide_eq_true hb
    exact ⟨s', rfl, h⟩
  · rintro ⟨s', rfl, h⟩
    exact ⟨x, s', rfl, by simp, h⟩

/-- The strings of a pattern begin with its literal front. -/
theorem language_literal {front pat s : Bytes} (hfront : ∀ b ∈ front, isMeta b = false) :
    InLanguage (front ++ pat) s ↔ ∃ s', s = front ++ s' ∧ InLanguage pat s' := by
  induction front generalizing s with
  | nil => simp
  | cons x front ih =>
      rw [List.cons_append, language_plain (hfront x (List.mem_cons_self ..))]
      constructor
      · rintro ⟨s', rfl, h⟩
        obtain ⟨s'', rfl, h'⟩ := (ih fun b hb => hfront b (List.mem_cons_of_mem _ hb)).mp h
        exact ⟨s'', rfl, h'⟩
      · rintro ⟨s', rfl, h⟩
        exact ⟨front ++ s', rfl, (ih fun b hb => hfront b (List.mem_cons_of_mem _ hb)).mpr
          ⟨s', rfl, h⟩⟩

/-! ## The command -/

/-- `k.strip_prefix(b"kv:")`. -/
def stripKv (k : Key) : Option Bytes :=
  if kvPrefix.isPrefixOf k then some (k.drop kvPrefix.length) else none

/-- The user keys that begin with `front`. -/
def keysPrefix (core : FlushCore) (front : Bytes) : List Bytes :=
  (FlushCore.scanPrefix core (kv front) core.visible_ts).filterMap fun e => stripKv e.1

/-- The user keys that begin with the literal front of the pattern and pass the test; all
that begin with the pattern when it has no metacharacter. -/
def keys_glob (core : FlushCore) (pattern : Bytes) (accept : Bytes → Bool) : List Bytes :=
  let lit := (pattern.takeWhile fun b => !isMeta b).length
  if lit = pattern.length then keysPrefix core pattern
  else (keysPrefix core (pattern.take lit)).filter accept

/-- `KEYS`. -/
def KEYS (core : FlushCore) (expiry : ExpiryIndex) (now : UInt64) (args : List Bytes) :
    List Bytes :=
  let pat := args.head?.getD [STAR]
  keys_glob core pat fun k => glob_match pat k = some true && !expiry.is_expired k now

/-- The key has a value. -/
def Live (core : FlushCore) (key : Bytes) : Prop :=
  (core.get_at (kv key) core.visible_ts).isSome

/-- The pattern has a metacharacter. -/
def Wild (pattern : Bytes) : Prop := ∃ b ∈ pattern, isMeta b = true

theorem stripKv_eq_some {k : Key} {key : Bytes} : stripKv k = some key ↔ k = kv key := by
  rw [stripKv]
  constructor
  · intro h
    split at h
    · next hpre =>
        obtain ⟨rest, rfl⟩ := List.isPrefixOf_iff_prefix.mp hpre
        rw [List.drop_left] at h
        rw [kv, ← Option.some.inj h]
    · cases h
  · rintro rfl
    rw [kv, if_pos (List.isPrefixOf_iff_prefix.mpr (List.prefix_append _ _)), List.drop_left]

theorem mem_keysPrefix {core : FlushCore} (h : core.Placed) {front key : Bytes} :
    key ∈ keysPrefix core front ↔ Live core key ∧ front <+: key := by
  obtain ⟨end', hend⟩ := above_kv front
  rw [keysPrefix, List.mem_filterMap, Live]
  simp only [stripKv_eq_some]
  constructor
  · rintro ⟨⟨k, v⟩, he, rfl⟩
    obtain ⟨hpre, hv⟩ := (FlushCore.mem_scanPrefix h hend).mp he
    exact ⟨Option.isSome_iff_exists.mpr ⟨v, hv⟩, (List.prefix_append_right_inj _).mp hpre⟩
  · rintro ⟨hlive, hpre⟩
    obtain ⟨v, hv⟩ := Option.isSome_iff_exists.mp hlive
    exact ⟨(kv key, v), (FlushCore.mem_scanPrefix h hend).mpr
      ⟨(List.prefix_append_right_inj _).mpr hpre, hv⟩, rfl⟩

theorem nodup_keysPrefix {core : FlushCore} (h : core.Placed) (front : Bytes) :
    (keysPrefix core front).Nodup := by
  obtain ⟨end', hend⟩ := above_kv front
  have hbound : prefixEnd (kv front) = end' := by
    rw [(prefixEnd_spec _).1, hend]
    rfl
  rw [keysPrefix, FlushCore.scanPrefix, hbound, if_neg (above_ne_nil hend), List.Nodup,
    List.pairwise_filterMap]
  refine (FlushCore.scan_sorted h _ _ _).imp fun {a b} hlt => ?_
  intro key ha key' hb heq
  refine hlt.key_ne ?_
  rw [stripKv_eq_some.mp ha, stripKv_eq_some.mp hb, heq]


theorem takeWhile_literal (pattern : Bytes) :
    ∀ b ∈ pattern.takeWhile fun b => !isMeta b, isMeta b = false := by
  intro b hb
  simpa using List.mem_takeWhile_imp hb

theorem literal_eq_length {pattern : Bytes} :
    (pattern.takeWhile fun b => !isMeta b).length = pattern.length ↔ ¬ Wild pattern := by
  constructor
  · rintro hlen ⟨b, hb, hmeta⟩
    rw [← (List.takeWhile_prefix _).eq_of_length hlen] at hb
    rw [takeWhile_literal pattern b hb] at hmeta
    cases hmeta
  · intro hwild
    rw [List.takeWhile_eq_self_iff.mpr]
    intro b hb
    rw [Bool.not_eq_true']
    exact Bool.eq_false_iff.mpr fun hmeta => hwild ⟨b, hb, hmeta⟩

theorem glob_accepts {pat key : Bytes} : glob_match pat key = some true ↔ InLanguage pat key := by
  obtain ⟨matched, hmatch, hiff⟩ := glob_match_iff pat key
  rw [hmatch, Option.some.injEq, hiff]

theorem nodup_KEYS {core : FlushCore} (h : core.Placed) (expiry : ExpiryIndex) (now : UInt64)
    (args : List Bytes) :
    (KEYS core expiry now args).Nodup := by
  rw [KEYS, keys_glob]
  split
  · exact nodup_keysPrefix h _
  · exact (nodup_keysPrefix h _).filter _

/-- With a metacharacter the answer is what is live, has no deadline that has passed, and
matches. -/
theorem mem_KEYS_wild {core : FlushCore} (h : core.Placed) (expiry : ExpiryIndex) (now : UInt64)
    {pat : Bytes} (hwild : Wild pat) (key : Bytes) :
    key ∈ KEYS core expiry now [pat] ↔
      Live core key ∧ expiry.is_expired key now = false ∧ InLanguage pat key := by
  rw [KEYS, List.head?_cons, Option.getD_some, keys_glob, if_neg fun h => literal_eq_length.mp h hwild,
    List.mem_filter, mem_keysPrefix h, ← List.prefix_iff_eq_take.mp (List.takeWhile_prefix _),
    Bool.and_eq_true, decide_eq_true_eq, glob_accepts, Bool.not_eq_true']
  constructor
  · rintro ⟨⟨hlive, _⟩, hlang, hexp⟩
    exact ⟨hlive, hexp, hlang⟩
  · rintro ⟨hlive, hexp, hlang⟩
    refine ⟨⟨hlive, ?_⟩, hlang, hexp⟩
    have hsplit := hlang
    rw [← List.takeWhile_append_dropWhile (p := fun b => !isMeta b) (l := pat)] at hsplit
    obtain ⟨s', hs, _⟩ := (language_literal (takeWhile_literal pat)).mp hsplit
    exact ⟨s', hs.symm⟩

theorem mem_KEYS_plain {core : FlushCore} (h : core.Placed) (expiry : ExpiryIndex) (now : UInt64)
    {pat : Bytes} (hplain : ¬ Wild pat) (key : Bytes) :
    key ∈ KEYS core expiry now [pat] ↔ Live core key ∧ pat <+: key := by
  rw [KEYS, List.head?_cons, Option.getD_some, keys_glob, if_pos (literal_eq_length.mpr hplain),
    mem_keysPrefix h]

/-- **Patterns and KEYS.**  The matcher decides the language of every pattern.  In every
state that the engine can reach, `KEYS` with a metacharacter answers exactly the live keys
in the language, and without one, of the keys whose deadline has not passed, exactly the
live ones that begin with the pattern. -/
theorem keys_exact :
    (∀ pat s : Bytes, ∃ matched, glob_match pat s = some matched ∧
      (matched = true ↔ InLanguage pat s)) ∧
    ∀ {ρ : Type} (o : Opened) (sync_writes : Bool) (s : Engine ρ),
      Run Engine.step (fun _ _ => True) (Engine.start o sync_writes) s →
      ∀ (expiry : ExpiryIndex) (now : UInt64) (pat : Bytes),
        (KEYS s.core expiry now [pat]).Nodup ∧
        (Wild pat → ∀ key, key ∈ KEYS s.core expiry now [pat] ↔
          Live s.core key ∧ expiry.is_expired key now = false ∧ InLanguage pat key) ∧
        (¬ Wild pat → ∀ key, expiry.is_expired key now = false →
          (key ∈ KEYS s.core expiry now [pat] ↔ Live s.core key ∧ pat <+: key)) := by
  refine ⟨glob_match_iff, ?_⟩
  intro ρ o sync_writes s hrun expiry now pat
  have hplaced : s.core.Placed :=
    Run.invariant (P := fun s : Engine ρ => s.core.Placed)
      (fun s act s' h _ hst => Engine.placed_step h (Engine.step_cases hst)) hrun o.placed
  refine ⟨nodup_KEYS hplaced expiry now [pat], fun hwild => mem_KEYS_wild hplaced expiry now hwild, ?_⟩
  intro hplain key _
  exact mem_KEYS_plain hplaced expiry now hplain key

/-! ## A store with one key -/

/-- The key `ab` is written. -/
def abWrite : List (Act Unit) :=
  [.submit (.write (Std.ExtTreeMap.ofList [(kv [97, 98], Value.bytes [])])), .drain] ++
    Engine.flusherWorks 39

/-- The key `ab` is live, and the only one. -/
def abLive (s : Engine Unit) : Bool :=
  (s.core.get_at (kv [97, 98]) s.core.visible_ts).isSome &&
    decide (keysPrefix s.core [] = [[97, 98]])

theorem ab_run :
    ∃ s : Engine Unit,
      Run Engine.step (fun _ _ => True) (Engine.start Opened.fresh true) s ∧ abLive s = true := by
  have hsome : (exec Engine.step (fun _ _ => true) (Engine.start Opened.fresh true)
      abWrite).any abLive = true := by
    decide +kernel
  obtain ⟨hs, hlive⟩ := (Option.any_eq_true_iff_get _ _).mp hsome
  exact ⟨_, .of_exec (fun _ _ _ => trivial) (Option.some_get hs).symm, hlive⟩

/-- `KEYS a?` finds the key `ab`. -/
theorem keys_exact_question :
    ∃ s : Engine Unit,
      Run Engine.step (fun _ _ => True) (Engine.start Opened.fresh true) s ∧
      [97, 98] ∈ KEYS s.core .empty 0 [[97, QUESTION]] := by
  obtain ⟨s, hrun, hlive⟩ := ab_run
  rw [abLive, Bool.and_eq_true] at hlive
  refine ⟨s, hrun, ?_⟩
  obtain ⟨_, hwild, _⟩ := keys_exact.2 Opened.fresh true s hrun .empty 0 [97, QUESTION]
  exact (hwild ⟨QUESTION, by decide, by decide⟩ [97, 98]).mpr
    ⟨hlive.1, by decide, glob_accepts.mp (by decide)⟩

/-- `KEYS a` finds the key `ab`, which the pattern does not describe. -/
theorem plain_pattern_is_a_front :
    ¬ ∀ (o : Opened) (sync_writes : Bool) (s : Engine Unit),
      Run Engine.step (fun _ _ => True) (Engine.start o sync_writes) s →
      ∀ (expiry : ExpiryIndex) (now : UInt64) (pat key : Bytes),
        key ∈ KEYS s.core expiry now [pat] ↔
          Live s.core key ∧ expiry.is_expired key now = false ∧ InLanguage pat key := by
  intro h
  obtain ⟨s, hrun, hlive⟩ := ab_run
  rw [abLive, Bool.and_eq_true, decide_eq_true_eq] at hlive
  have hplaced : s.core.Placed :=
    Run.invariant (P := fun s : Engine Unit => s.core.Placed)
      (fun s act s' h _ hst => Engine.placed_step h (Engine.step_cases hst)) hrun Opened.fresh.placed
  have hplain : ¬ Wild [97] := literal_eq_length.mp (by decide)
  have hmem : [97, 98] ∈ KEYS s.core .empty 0 [[97]] :=
    (mem_KEYS_plain hplaced .empty 0 hplain [97, 98]).mpr ⟨hlive.1, by decide⟩
  have hlang := ((h Opened.fresh true s hrun .empty 0 [97] [97, 98]).mp hmem).2.2
  exact absurd (glob_accepts.mpr hlang) (by decide)

end Keys
end StrikeDB
