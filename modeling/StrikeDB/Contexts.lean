import StrikeDB.Replies
import StrikeDB.Text
import StrikeDB.Views

/-!
# StrikeDB: the execution context

The helpers that commands on collections share: the header of a collection and its
codec, loading a key, storing and dropping a header, and visiting elements.

**Results.**
* `decode_encode`: a header is read as it was written.
* `wp_each`: the pages of `each` visit what one unlimited scan returns.
* `wp_delete_elements`: nothing of the element families is left.
-/

namespace StrikeDB

/-! ## Words -/

/-- The highest bit. -/
def TOP : UInt64 := (1 : UInt64) <<< (63 : UInt64)

/-- Flipping the highest bit adds half the range. -/
theorem xor_top (x : UInt64) : (x ^^^ TOP).toNat = (x.toNat + 2 ^ 63) % 2 ^ 64 := by
  have hx := x.toNat_lt
  have htop : TOP.toNat = 2 ^ 63 := by decide
  rw [UInt64.toNat_xor, htop]
  refine Nat.eq_of_testBit_eq fun j => ?_
  rw [Nat.testBit_xor, Nat.testBit_two_pow, Nat.testBit_mod_two_pow, Nat.add_comm]
  rcases Nat.lt_trichotomy j 63 with hlt | heq | hgt
  · have hne : decide (63 = j) = false := decide_eq_false (by omega)
    have hlow : decide (j < 64) = true := decide_eq_true (by omega)
    rw [Nat.testBit_two_pow_add_gt hlt, hne, hlow]
    simp
  · subst heq
    rw [Nat.testBit_two_pow_add_eq]
    simp
  · have hbig : x.toNat.testBit j = false :=
      Nat.testBit_lt_two_pow (lt_of_lt_of_le hx (Nat.pow_le_pow_right (by omega) (by omega)))
    have hne : decide (63 = j) = false := decide_eq_false (by omega)
    have hhigh : decide (j < 64) = false := decide_eq_false (by omega)
    rw [hbig, hne, hhigh]
    simp

theorem toNat_ofInt (i : Int) : (Int64.ofInt i).toUInt64.toNat = (i % 2 ^ 64).toNat := by
  change (BitVec.ofInt 64 i).toNat = _
  rw [BitVec.toNat_ofInt]
  rfl

theorem toInt_ofNat {n : Nat} (h : n < 2 ^ 64) :
    (UInt64.ofNat n).toInt64.toInt = if n < 2 ^ 63 then (n : Int) else (n : Int) - 2 ^ 64 := by
  change (BitVec.ofNat 64 n).toInt = _
  rw [BitVec.toInt_eq_toNat_cond, BitVec.toNat_ofNat, Nat.mod_eq_of_lt h]
  split <;> split <;> omega

/-- The integers of an `i64`. -/
def IsI64 (i : Int) : Prop := -2 ^ 63 ≤ i ∧ i < 2 ^ 63

instance (i : Int) : Decidable (IsI64 i) := inferInstanceAs (Decidable (_ ∧ _))

namespace Ctx

/-! ## Headers -/

/-- The header of a collection. -/
structure Meta where
  ty : UInt8
  len : Nat
  head : Int
  tail : Int
  ver : Nat
  /-- Of streams only. -/
  ext : UInt64 × UInt64 × UInt64
deriving DecidableEq

namespace Meta

def new (ty : UInt8) : Meta := { ty := ty, len := 0, head := 0, tail := 0, ver := 0, ext := (0, 0, 0) }

/-- `to_le_bytes` of an `i64`. -/
def leInt (i : Int) : Bytes := leBytes 8 (Int64.ofInt i).toUInt64.toNat

def extBytes (m : Meta) : Bytes :=
  if m.ty = 5 then
    leBytes 8 m.ext.1.toNat ++ leBytes 8 m.ext.2.1.toNat ++ leBytes 8 m.ext.2.2.toNat
  else []

def encode (m : Meta) : Bytes :=
  m.ty :: (leBytes 8 m.len ++ leInt m.head ++ leInt m.tail ++ leBytes 8 m.ver ++ m.extBytes)

/-- The unsigned integer at a place. -/
def u (b : Bytes) (i : Nat) : Nat := leNat ((b.drop i).take 8)

/-- The signed integer at a place. -/
def i64 (b : Bytes) (i : Nat) : Int := (UInt64.ofNat (u b i)).toInt64.toInt

def decode (b : Bytes) : Option Meta :=
  match b with
  | [] => none
  | ty :: _ =>
      if b.length ≠ 33 ∧ b.length ≠ 57 then none
      else
        some
          { ty := ty, len := u b 1, head := i64 b 9, tail := i64 b 17, ver := u b 25
            ext :=
              if b.length = 57 then
                (UInt64.ofNat (u b 33), UInt64.ofNat (u b 41), UInt64.ofNat (u b 49))
              else (0, 0, 0) }

theorem leInt_length (i : Int) : (leInt i).length = 8 := leBytes_length ..

/-- The fields of a header fit their eight bytes. -/
structure Fits (m : Meta) : Prop where
  len : m.len < 2 ^ 64
  head : IsI64 m.head
  tail : IsI64 m.tail

theorem toInt64_leInt {i : Int} (h : IsI64 i) :
    (UInt64.ofNat (leNat (leInt i))).toInt64.toInt = i := by
  obtain ⟨hlow, hhigh⟩ := h
  have hfits : (Int64.ofInt i).toUInt64.toNat < 256 ^ 8 := by
    have hlt := (Int64.ofInt i).toUInt64.toNat_lt
    norm_num at hlt ⊢
    exact hlt
  have hnat := toNat_ofInt i
  have hlt := (Int64.ofInt i).toUInt64.toNat_lt
  rw [leInt, leNat_leBytes _ _ hfits, toInt_ofNat hlt, hnat]
  split <;> omega

/-- A header that is no stream's is read as it was written, its version modulo `2 ^ 64`. -/
theorem decode_encode {m : Meta} (h : m.Fits) (hty : m.ty ≠ 5) :
    decode m.encode = some { m with ver := m.ver % 2 ^ 64, ext := (0, 0, 0) } := by
  have hlen : m.encode.length = 33 := by
    simp [encode, extBytes, hty, leInt_length]
  have hver : leNat (leBytes 8 m.ver) = m.ver % 2 ^ 64 := by
    have hmod : ∀ (w n : Nat), leBytes w n = leBytes w (n % 256 ^ w) := by
      intro w
      induction w with
      | zero => exact fun _ => rfl
      | succ w ih =>
          intro n
          have hlow : UInt8.ofNat n = UInt8.ofNat (n % 256 ^ (w + 1)) := by
            rw [← UInt8.toNat_inj, UInt8.toNat_ofNat', UInt8.toNat_ofNat']
            exact (Nat.mod_mod_of_dvd n (dvd_pow_self 256 (Nat.succ_ne_zero w))).symm
          have hdiv : n % 256 ^ (w + 1) / 256 = n / 256 % 256 ^ w := by
            rw [pow_succ', Nat.mod_mul_right_div_self]
          rw [leBytes, leBytes, ih (n / 256), ← hlow, hdiv]
    rw [hmod, leNat_leBytes]
    · norm_num
    · exact Nat.mod_lt _ (by norm_num)
  have hlenfits : leNat (leBytes 8 m.len) = m.len := by
    refine leNat_leBytes _ _ ?_
    have hlt := h.len
    norm_num at hlt ⊢
    exact hlt
  have hparts : u m.encode 1 = m.len ∧ i64 m.encode 9 = m.head ∧ i64 m.encode 17 = m.tail ∧
      u m.encode 25 = m.ver % 2 ^ 64 := by
    refine ⟨?_, ?_, ?_, ?_⟩
    · simp [u, encode, hlenfits]
    · simp only [i64, u, encode, List.append_assoc, List.drop_succ_cons]
      rw [List.drop_append_of_le_length (by simp), List.drop_of_length_le (by simp),
        List.nil_append, List.take_append_of_le_length (by simp [leInt_length]),
        List.take_of_length_le (by simp [leInt_length])]
      exact toInt64_leInt h.head
    · simp only [i64, u, encode, List.append_assoc, List.drop_succ_cons]
      have hdrop : (leBytes 8 m.len ++ (leInt m.head ++ (leInt m.tail ++
          (leBytes 8 m.ver ++ m.extBytes)))).drop 16 =
          leInt m.tail ++ (leBytes 8 m.ver ++ m.extBytes) := by
        rw [← List.append_assoc]
        exact List.drop_left' (by simp [leInt_length])
      rw [hdrop, List.take_append_of_le_length (by simp [leInt_length]),
        List.take_of_length_le (by simp [leInt_length])]
      exact toInt64_leInt h.tail
    · simp only [u, encode, List.append_assoc, List.drop_succ_cons]
      have hdrop : (leBytes 8 m.len ++ (leInt m.head ++ (leInt m.tail ++
          (leBytes 8 m.ver ++ m.extBytes)))).drop 24 = leBytes 8 m.ver ++ m.extBytes := by
        rw [← List.append_assoc, ← List.append_assoc]
        exact List.drop_left' (by simp [leInt_length])
      rw [hdrop, List.take_append_of_le_length (by simp), List.take_of_length_le (by simp), hver]
  obtain ⟨hl, hh, ht, hv⟩ := hparts
  have hdecode : decode m.encode = some
      { ty := m.ty, len := u m.encode 1, head := i64 m.encode 9, tail := i64 m.encode 17
        ver := u m.encode 25
        ext :=
          if m.encode.length = 57 then
            (UInt64.ofNat (u m.encode 33), UInt64.ofNat (u m.encode 41),
              UInt64.ofNat (u m.encode 49))
          else (0, 0, 0) } := by
    change (if m.encode.length ≠ 33 ∧ m.encode.length ≠ 57 then none else _) = _
    rw [if_neg (by omega)]
  rw [hdecode, hl, hh, ht, hv, hlen, if_neg (by decide)]

end Meta

/-! ## Loading and storing -/

inductive Ent where
  | absent
  | str (b : Bytes)
  | coll (m : Meta)

structure Entry where
  ent : Ent
  ttl : Option UInt64

def Entry.exists_ (e : Entry) : Bool :=
  match e.ent with
  | .absent => false
  | _ => true

def err (msg : String) : Resp := Replies.err (utf8 msg)

def WRONGTYPE : Resp := err wrongTypeMsg

/-- `usize::MAX` -/
def usize_max : Nat := 2 ^ 64 - 1

end Ctx

/-- What a command runs with: the time, whether it may only read, and how the
standard library writes a float. -/
structure Ctx where
  now : UInt64
  readonly : Bool
  fmt_f64 : UInt64 → Bytes

namespace Ctx

def val_bytes (cx : Ctx) : Value → Bytes
  | .bytes b => b
  | .int i => Text.intText i.toInt
  | .float f => cx.fmt_f64 f
  | _ => []

/-- Element keys are no deadlines. -/
def elemKey (key : Bytes) (sub : UInt8) (rest : Bytes) : PlainKey :=
  ⟨Elements.ekey key sub rest, by
    rw [Elements.ekey, Elements.ebase_eq]
    simp [expPrefix, Elements.tagged]⟩

/-- Delete a key that a scan has found. -/
def deleteFound (k : Key) : R Unit :=
  if h : expPrefix <+: k then pure () else delete ⟨k, h⟩

def deleteAll : List Key → R Unit
  | [] => pure ()
  | k :: ks => do
      deleteFound k
      deleteAll ks

def delete_elements (key : Bytes) : List UInt8 → R Unit
  | [] => pure ()
  | sub :: subs => do
      let (s, stop) := Elements.erange key sub
      let l ← scan_range s s stop usize_max false
      deleteAll (l.map Prod.fst)
      delete_elements key subs

/-- Remove a key entirely: value or header, every element, and its deadline. -/
def delete_all (key : Bytes) (e : Entry) : R Unit := do
  match e.ent with
  | .coll m => delete_elements key (type_subs m.ty)
  | _ => pure ()
  if e.exists_ then delete (.kv key)
  set_ttl key e.ttl none

/-- What is stored under a key. -/
def entOf (cx : Ctx) : Option Value → Except Resp Ent
  | none => .ok .absent
  | some (.bytes b) => .ok (.str b)
  | some (.int i) => .ok (.str (Text.intText i.toInt))
  | some (.float f) => .ok (.str (cx.fmt_f64 f))
  | some (.metaBytes b) =>
      match Meta.decode b with
      | some m => .ok (.coll m)
      | none => .error (err "corrupt collection header")
  | some _ => .error WRONGTYPE

/-- Read a key's current entry, deleting it first if its deadline has passed. -/
def load (cx : Ctx) (key : Bytes) : R Entry := do
  let ttl := deadlineOf (← get (expk key))
  let raw ← get (kv key)
  match cx.entOf raw with
  | .error e => throw e
  | .ok ent =>
      let e : Entry := { ent := ent, ttl := ttl }
      match ttl with
      | none => pure e
      | some at_ =>
          if at_ ≤ cx.now then
            if cx.readonly then pure { ent := .absent, ttl := none }
            else do
              delete_all key e
              pure { ent := .absent, ttl := none }
          else pure e

/-- The header of a collection of type `ty`, if the key is there. -/
def coll (cx : Ctx) (key : Bytes) (ty : UInt8) : R (Option (Meta × Option UInt64)) := do
  let e ← cx.load key
  match e.ent with
  | .absent => pure none
  | .coll m => if m.ty = ty then pure (some (m, e.ttl)) else throw WRONGTYPE
  | .str _ => throw WRONGTYPE

/-- Persist a header; an emptied collection disappears, with its deadline. -/
def put_meta (key : Bytes) (m : Meta) (ttl : Option UInt64) : R Unit :=
  if m.len = 0 then do
    delete (.kv key)
    set_ttl key ttl none
  else put (.kv key) (.metaBytes { m with ver := m.ver + 1 }.encode)

/-- Visit `[start, stop)` in pages; `f` returns false to stop. -/
def each {σ : Type} (hint : Key) (reverse : Bool) (f : σ → Key → Value → σ × Bool) :
    Nat → Key → Key → σ → R σ
  | 0, _, _, st => pure st
  | fuel + 1, s, e, st => do
      let page ← scan_range hint s e Elements.PAGE reverse
      match page.getLast? with
      | none => pure st
      | some last =>
          match Elements.visit f st page with
          | (st, false) => pure st
          | (st, true) =>
              if page.length < Elements.PAGE then pure st
              else if reverse then each hint reverse f fuel s last.1 st
              else each hint reverse f fuel (last.1 ++ [0]) e st

/-- The elements of a family by the rests of their keys. -/
def elements (key : Bytes) (sub : UInt8) : R (List (Bytes × Value)) := do
  let (s, e) := Elements.erange key sub
  let l ← scan_range s s e usize_max false
  pure (l.map fun kv => (kv.1.drop s.length, kv.2))

/-! ## What the helpers do to a view -/

section Views

variable {γ : Type} {Q : Except Resp γ → View → Prop} {v : View}

/-- The pages of `each` visit what one unlimited scan returns, in order, until `f`
stops. -/
theorem wp_each {σ : Type} (f : σ → Key → Value → σ × Bool) (reverse : Bool) (fuel : Nat)
    {hint start stop : Key} (htogether : Together hint start stop) {l : List (Key × Value)}
    (hl : Lists v start stop l) (hfuel : l.length < fuel) (st : σ) {g : σ → R γ}
    (h : (g (Elements.visit f st (inDirection reverse l)).1).wp Q v) :
    (each hint reverse f fuel start stop st >>= g).wp Q v := by
  induction fuel generalizing start stop l st with
  | zero => omega
  | succ fuel ih =>
      rw [each, bind_assoc, wp_scan_range]
      refine ⟨htogether, fun l' hl' => ?_⟩
      obtain rfl := hl.unique hl'
      cases hlast : ((inDirection reverse l).take Elements.PAGE).getLast? with
      | none =>
          have hnil := List.getLast?_eq_none_iff.mp hlast
          have hempty : inDirection reverse l = [] := by
            rcases List.take_eq_nil_iff.mp hnil with hzero | hempty
            · exact absurd hzero (by decide)
            · exact hempty
          rw [hempty] at h
          exact h
      | some last =>
          have hsplit := Elements.visit_append f st ((inDirection reverse l).take Elements.PAGE)
            ((inDirection reverse l).drop Elements.PAGE)
          rw [List.take_append_drop] at hsplit
          rw [hsplit] at h
          simp only
          cases hvisit : Elements.visit f st ((inDirection reverse l).take Elements.PAGE) with
          | mk st' go =>
              rw [hvisit] at h
              cases go with
              | false => exact h
              | true =>
                  simp only at h ⊢
                  by_cases hfull : ((inDirection reverse l).take Elements.PAGE).length <
                      Elements.PAGE
                  · have hshort : (inDirection reverse l).length < Elements.PAGE := by
                      rw [List.length_take] at hfull
                      omega
                    rw [if_pos hfull]
                    rw [List.drop_of_length_le (Nat.le_of_lt hshort)] at h
                    exact h
                  · rw [if_neg hfull]
                    have hin : FlushCore.inRange start stop last.1 = true :=
                      ((hl.mem last).mp (mem_inDirection.mp
                        (List.mem_of_mem_take (List.mem_of_getLast? hlast)))).1
                    have hrest := Elements.lists_rest hl reverse hlast
                    have hless : (inDirection reverse
                        ((inDirection reverse l).drop Elements.PAGE)).length < fuel := by
                      have hpos : 0 < Elements.PAGE := by decide
                      rw [List.length_take, inDirection_length] at hfull
                      rw [inDirection_length, List.length_drop, inDirection_length]
                      omega
                    have hgo := ih (Elements.together_next htogether hin reverse) hrest hless st'
                    rw [Elements.inDirection_inDirection] at hgo
                    cases reverse with
                    | false => exact hgo h
                    | true => exact hgo h

/-- The view without some keys. -/
def eraseKeys (v : View) (ks : List Key) : View := fun k => if k ∈ ks then none else v k

theorem wp_deleteAll {ks : List Key} (hks : ∀ k ∈ ks, ¬ expPrefix <+: k) {g : Unit → R γ} :
    (deleteAll ks >>= g).wp Q v ↔ (g ()).wp Q (eraseKeys v ks) := by
  induction ks generalizing v with
  | nil =>
      have hsame : eraseKeys v [] = v := by
        funext k
        simp [eraseKeys]
      rw [hsame]
      rfl
  | cons k ks ih =>
      obtain ⟨hk, hrest⟩ := List.forall_mem_cons.mp hks
      obtain ⟨p, hp, hdelete⟩ : ∃ p : PlainKey, p.val = k ∧ deleteFound k = delete p :=
        ⟨⟨k, hk⟩, rfl, dif_neg hk⟩
      rw [deleteAll, hdelete, bind_assoc, wp_delete, ih hrest, hp]
      have hsame : eraseKeys (v.set k none) ks = eraseKeys v (k :: ks) := by
        funext a
        unfold eraseKeys View.set
        by_cases hmem : a ∈ ks
        · rw [if_pos hmem, if_pos (List.mem_cons_of_mem _ hmem)]
        · by_cases ha : a = k
          · subst ha
            rw [if_neg hmem, if_pos List.mem_cons_self, Function.update_self]
          · rw [if_neg hmem, if_neg (by simp [ha, hmem]), Function.update_of_ne ha]
      rw [hsame]

/-- The view without the elements of a family. -/
def dropFamily (v : View) (key : Bytes) (sub : UInt8) : View :=
  fun k => if ebase key sub <+: k then none else v k

/-- A family of a non-empty user key that one scan can list. -/
structure Listed (v : View) (key : Bytes) (sub : UInt8) (l : List (Key × Value)) : Prop where
  lists : Lists v (Elements.erange key sub).1 (Elements.erange key sub).2 l
  short : l.length ≤ usize_max

theorem together_family {key : Bytes} (hkey : key ≠ []) (sub : UInt8) :
    Together (Elements.erange key sub).1 (Elements.erange key sub).1 (Elements.erange key sub).2 :=
  Elements.together_of_tagged hkey (Elements.tagged_prefix_ebase key sub)
    (Elements.tagged_prefix_ebase key sub) (Elements.tagged_prefix_ebase key (sub + 1))

theorem plain_of_family {key : Bytes} {sub : UInt8} {k : Key} (h : ebase key sub <+: k) :
    ¬ expPrefix <+: k := by
  obtain ⟨rest, rfl⟩ := h
  rw [Elements.ebase_eq]
  simp [expPrefix, Elements.tagged]

theorem eraseKeys_family {key : Bytes} {sub : UInt8} (hsub : sub ≠ 0xFF) {l : List (Key × Value)}
    (hl : Lists v (Elements.erange key sub).1 (Elements.erange key sub).2 l) :
    eraseKeys v (l.map Prod.fst) = dropFamily v key sub := by
  funext k
  unfold eraseKeys dropFamily
  by_cases hfam : ebase key sub <+: k
  · rw [if_pos hfam]
    split
    · rfl
    · next hnot =>
        cases hv : v k with
        | none => rfl
        | some x =>
            have hmem := (hl.mem (k, x)).mpr ⟨(Elements.inRange_erange hsub k).mpr hfam, hv⟩
            exact absurd (List.mem_map.mpr ⟨_, hmem, rfl⟩) hnot
  · rw [if_neg hfam, if_neg]
    intro hmem
    obtain ⟨e, he, rfl⟩ := List.mem_map.mp hmem
    exact hfam ((Elements.inRange_erange hsub e.1).mp ((hl.mem e).mp he).1)

/-- Nothing of a family is left. -/
theorem wp_delete_elements_cons {key : Bytes} (hkey : key ≠ []) {sub : UInt8} (hsub : sub ≠ 0xFF)
    {subs : List UInt8} {l : List (Key × Value)} (hl : Listed v key sub l) {g : Unit → R γ}
    (h : (delete_elements key subs >>= g).wp Q (dropFamily v key sub)) :
    (delete_elements key (sub :: subs) >>= g).wp Q v := by
  rw [delete_elements, bind_assoc, wp_scan_range]
  refine ⟨together_family hkey sub, fun l' hl' => ?_⟩
  obtain rfl := hl.lists.unique hl'
  have htake : (inDirection false l).take usize_max = l := List.take_of_length_le hl.short
  have hplain : ∀ k ∈ l.map Prod.fst, ¬ expPrefix <+: k := by
    intro k hk
    obtain ⟨e, he, rfl⟩ := List.mem_map.mp hk
    exact plain_of_family ((Elements.inRange_erange hsub e.1).mp ((hl.lists.mem e).mp he).1)
  rw [htake, bind_assoc, wp_deleteAll hplain, eraseKeys_family hsub hl.lists]
  exact h

theorem wp_set_ttl_none {key : Bytes} {had : Option UInt64} {g : Unit → R γ} :
    (set_ttl key had none >>= g).wp Q v ↔
      (g ()).wp Q (if had.isSome then v.set (expk key) none else v) := by
  rw [R.wp_bind]
  cases had <;> rfl

theorem wp_elements {key : Bytes} (hkey : key ≠ []) {sub : UInt8} {l : List (Key × Value)}
    (hl : Listed v key sub l) {g : List (Bytes × Value) → R γ}
    (h : (g (l.map fun kv => (kv.1.drop (ebase key sub).length, kv.2))).wp Q v) :
    (elements key sub >>= g).wp Q v := by
  rw [elements, bind_assoc, wp_scan_range]
  refine ⟨together_family hkey sub, fun l' hl' => ?_⟩
  obtain rfl := hl.lists.unique hl'
  have htake : (inDirection false l).take usize_max = l := List.take_of_length_le hl.short
  rw [htake]
  exact h

end Views

end Ctx
end StrikeDB
