import StrikeDB.Sights
import StrikeDB.StreamGroups

/-!
# StrikeDB: the keys of consumer groups

`StreamGroups` has what the stream commands do to one key; here is how XGROUP does it in
the store.  A group, its pending entries and its consumers are element keys of the
stream.  Those of the pending entries and of the consumers begin with the length and the
name of the group.

**Results.**
* `compare_id_bytes`: IDs are in the order of their bytes.
* `inRange_prefix`: what lies between a prefix and the prefix followed by `\xff\xff`.
* `group_part_apart`: the entries of two groups have no common beginning.
-/

namespace StrikeDB
namespace XGroup

open Ctx StrikeDB.Stream

def T_STREAM : UInt8 := 5
def SUB_XENT : UInt8 := 0x78
def SUB_XGRP : UInt8 := 0x67
def SUB_XPEL : UInt8 := 0x70
def SUB_XCON : UInt8 := 0x71

/-! ## Encodings -/

def id_bytes (id : Id) : Bytes := beBytes 8 id.ms.toNat ++ beBytes 8 id.seq.toNat

def id_from (b : Bytes) : Id :=
  ⟨UInt64.ofNat (beNat (b.take 8)), UInt64.ofNat (beNat ((b.drop 8).take 8))⟩

def as_bytes : Value → Bytes
  | .bytes b => b
  | _ => []

def u64_at (b : Bytes) (i : Nat) : UInt64 :=
  if i + 8 ≤ b.length then UInt64.ofNat (leNat ((b.drop i).take 8)) else 0

/-- The length of a name, as a `u32`, and the name. -/
def group_part (g : Bytes) : Bytes := beBytes 4 g.length ++ g

def Pel.enc (p : Pel) : Bytes := leBytes 8 p.time ++ leBytes 8 p.count ++ p.owner

def Pel.dec (b : Bytes) : Pel :=
  { time := (u64_at b 0).toNat, count := (u64_at b 8).toNat, owner := b.drop 16 }

/-! ## Keys -/

def ent_key (key : Bytes) (id : Id) : PlainKey := elemKey key SUB_XENT (id_bytes id)
def group_key (key g : Bytes) : PlainKey := elemKey key SUB_XGRP g

/-- What the keys of a group's pending entries begin with. -/
def pelBase (key g : Bytes) : PlainKey := elemKey key SUB_XPEL (group_part g)

/-- What the keys of a group's consumers begin with. -/
def conBase (key g : Bytes) : PlainKey := elemKey key SUB_XCON (group_part g)

def pel_key (key g : Bytes) (id : Id) : PlainKey :=
  elemKey key SUB_XPEL (group_part g ++ id_bytes id)

def con_key (key g name : Bytes) : PlainKey := elemKey key SUB_XCON (group_part g ++ name)

theorem pel_key_val (key g : Bytes) (id : Id) :
    (pel_key key g id).val = (pelBase key g).val ++ id_bytes id :=
  (List.append_assoc _ _ _).symm

theorem con_key_val (key g name : Bytes) :
    (con_key key g name).val = (conBase key g).val ++ name :=
  (List.append_assoc _ _ _).symm

theorem family_pelBase (key g : Bytes) : ebase key SUB_XPEL <+: (pelBase key g).val :=
  ⟨group_part g, rfl⟩

theorem family_conBase (key g : Bytes) : ebase key SUB_XCON <+: (conBase key g).val :=
  ⟨group_part g, rfl⟩

theorem family_group_key (key g : Bytes) : ebase key SUB_XGRP <+: (group_key key g).val :=
  ⟨g, rfl⟩

/-! ## The order of the keys -/

@[simp] theorem id_bytes_length (id : Id) : (id_bytes id).length = 16 := by
  simp [id_bytes]

theorem id_from_id_bytes (id : Id) : id_from (id_bytes id) = id := by
  have hfits : ∀ n : UInt64, n.toNat < 256 ^ 8 := by
    intro n
    have hlt := n.toNat_lt
    norm_num at hlt ⊢
    exact hlt
  have hms : (id_bytes id).take 8 = beBytes 8 id.ms.toNat := List.take_left' (by simp)
  have hseq : ((id_bytes id).drop 8).take 8 = beBytes 8 id.seq.toNat := by
    rw [id_bytes, List.drop_left' (by simp)]
    exact List.take_of_length_le (by simp)
  rw [id_from, hms, hseq, beNat_beBytes (hfits _), beNat_beBytes (hfits _), UInt64.ofNat_toNat,
    UInt64.ofNat_toNat]

theorem id_bytes_injective {id id' : Id} (h : id_bytes id = id_bytes id') : id = id' := by
  rw [← id_from_id_bytes id, h, id_from_id_bytes]

/-- IDs are in the order of their bytes. -/
theorem compare_id_bytes (a b : Id) :
    compare (id_bytes a) (id_bytes b) =
      (compare a.ms.toNat b.ms.toNat).then (compare a.seq.toNat b.seq.toNat) := by
  have hfits : ∀ n : UInt64, n.toNat < 256 ^ 8 := by
    intro n
    have hlt := n.toNat_lt
    norm_num at hlt ⊢
    exact hlt
  rw [id_bytes, id_bytes, compare_append_of_length (by simp), compare_beBytes (hfits _) (hfits _),
    compare_beBytes (hfits _) (hfits _)]

theorem compare_append_left (p a b : Bytes) : compare (p ++ a) (p ++ b) = compare a b := by
  have hself : compare p p = .eq := Std.LawfulEqCmp.compare_eq_iff_eq.mpr rfl
  rw [compare_append_of_length rfl, hself, Ordering.eq_then]

/-- Every ID lies between the smallest and the largest. -/
theorem inRange_ids (p : Bytes) (id : Id) :
    FlushCore.inRange (p ++ id_bytes ID_MIN) (p ++ id_bytes ID_MAX ++ [0]) (p ++ id_bytes id) =
      true := by
  have hlow : (compare (id_bytes ID_MIN) (id_bytes id)).isLE = true := by
    rw [compare_id_bytes]
    have hms : (compare (0 : Nat) id.ms.toNat).isLE = true :=
      Nat.isLE_compare.mpr (Nat.zero_le _)
    have hseq : (compare (0 : Nat) id.seq.toNat).isLE = true :=
      Nat.isLE_compare.mpr (Nat.zero_le _)
    change ((compare 0 id.ms.toNat).then (compare 0 id.seq.toNat)).isLE = true
    cases hc : compare 0 id.ms.toNat with
    | lt => rfl
    | eq => exact hseq
    | gt =>
        rw [hc] at hms
        cases hms
  have hhigh : (compare (id_bytes ID_MAX) (id_bytes id)).isLT = false := by
    rw [compare_id_bytes]
    have hmax : U64_MAX.toNat = 2 ^ 64 - 1 := by decide
    have hms : compare U64_MAX.toNat id.ms.toNat ≠ .lt := by
      rw [ne_eq, Nat.compare_eq_lt, hmax]
      have hlt := id.ms.toNat_lt
      omega
    have hseq : compare U64_MAX.toNat id.seq.toNat ≠ .lt := by
      rw [ne_eq, Nat.compare_eq_lt, hmax]
      have hlt := id.seq.toNat_lt
      omega
    change ((compare U64_MAX.toNat id.ms.toNat).then (compare U64_MAX.toNat id.seq.toNat)).isLT =
      false
    cases hc : compare U64_MAX.toNat id.ms.toNat with
    | lt => exact absurd hc hms
    | eq =>
        cases hd : compare U64_MAX.toNat id.seq.toNat with
        | lt => exact absurd hd hseq
        | eq => rfl
        | gt => rfl
    | gt => rfl
  have hstop : (compare (id_bytes id) (id_bytes ID_MAX ++ [0])).isLT = true := by
    have hle := Elements.succ_isLE (id_bytes ID_MAX) (id_bytes id)
    rw [hhigh] at hle
    have hswap : compare (id_bytes ID_MAX ++ [0]) (id_bytes id) =
        (compare (id_bytes id) (id_bytes ID_MAX ++ [0])).swap := Std.OrientedCmp.eq_swap
    rw [hswap] at hle
    cases hc : compare (id_bytes id) (id_bytes ID_MAX ++ [0]) with
    | lt => rfl
    | eq =>
        rw [hc] at hle
        cases hle
    | gt =>
        rw [hc] at hle
        cases hle
  simp only [FlushCore.inRange, List.append_assoc, compare_append_left, hlow, hstop, Bool.and_self]

theorem compare_ffff (rest : Bytes) :
    (compare rest [0xff, 0xff]).isLT = true ↔ ¬ ([0xff, 0xff] : Bytes) <+: rest := by
  have hbyte : ∀ b : UInt8, b ≠ 0xff → compare b 0xff = .lt := by
    intro b hb
    rw [Std.compare_eq_lt]
    rcases UInt8.lt_or_lt_of_ne hb with h | h
    · exact h
    · exact absurd h (not_lt_ff b)
  have hself : compare (0xff : UInt8) 0xff = .eq := rfl
  match rest with
  | [] => simp
  | [b] =>
      rw [List.compare_cons_cons]
      by_cases hb : b = 0xff
      · subst hb
        simp
      · rw [hbyte b hb]
        simp
  | b :: c :: rest =>
      rw [List.compare_cons_cons, List.compare_cons_cons]
      by_cases hb : b = 0xff
      · subst hb
        by_cases hc : c = 0xff
        · subst hc
          rw [hself]
          cases rest <;> simp
        · rw [hself, hbyte c hc]
          simpa using fun h => hc h.symm
      · rw [hbyte b hb]
        simpa using fun h => absurd h.symm hb

/-- What lies between a prefix and the prefix followed by `\xff\xff`. -/
theorem inRange_prefix (p rest : Bytes) :
    FlushCore.inRange p (p ++ [0xff, 0xff]) (p ++ rest) = true ↔
      ¬ ([0xff, 0xff] : Bytes) <+: rest := by
  have hlow : (compare p (p ++ rest)).isLE = true := by
    have h := compare_append_left p [] rest
    rw [List.append_nil] at h
    rw [h]
    cases rest <;> rfl
  rw [FlushCore.inRange, hlow, Bool.true_and, compare_append_left]
  exact compare_ffff rest

theorem inPrefixRange_iff (id : Id) :
    inPrefixRange id = true ↔ ¬ ([0xff, 0xff] : Bytes) <+: id_bytes id := by
  have hbyte : ∀ n : Nat, (0xff : UInt8) = UInt8.ofNat n ↔ n % 256 = 255 := by
    intro n
    rw [← UInt8.toNat_inj, UInt8.toNat_ofNat']
    exact eq_comm
  have hlt := id.ms.toNat_lt
  have hbound : (0xFFFF000000000000 : UInt64).toNat = 0xFFFF000000000000 := by decide
  have hbytes : id_bytes id =
      UInt8.ofNat (id.ms.toNat / 256 / 256 / 256 / 256 / 256 / 256 / 256) ::
        UInt8.ofNat (id.ms.toNat / 256 / 256 / 256 / 256 / 256 / 256) ::
          (id_bytes id).drop 2 := by
    simp [id_bytes, beBytes, leBytes]
  rw [inPrefixRange, decide_eq_true_eq, UInt64.lt_iff_toNat_lt, hbound, hbytes,
    List.cons_prefix_cons, List.cons_prefix_cons, hbyte, hbyte]
  simp only [List.nil_prefix, and_true]
  omega

/-- The entries of two groups have no common beginning, unless a name is as long as four
bytes cannot tell. -/
theorem group_part_apart {g g' rest : Bytes} (hg : g.length < 2 ^ 32) (hg' : g'.length < 2 ^ 32)
    (h : group_part g <+: group_part g' ++ rest) : g = g' := by
  obtain ⟨tail, heq⟩ := h
  simp only [group_part, List.append_assoc] at heq
  obtain ⟨hlen, hrest⟩ := List.append_inj heq (by simp)
  have hfits : ∀ n, n < 2 ^ 32 → n < 256 ^ 4 := by
    intro n hn
    norm_num at hn ⊢
    exact hn
  have hsame : g.length = g'.length := by
    rw [← beNat_beBytes (hfits _ hg), hlen, beNat_beBytes (hfits _ hg')]
  exact (List.append_inj hrest hsame).1

/-! ## State -/

structure Head where
  m : Meta
  last : Id
  added : UInt64
  maxdel : Id

def new_stream : Head := { m := Meta.new T_STREAM, last := ID_MIN, added := 0, maxdel := ID_MIN }

def load (cx : Ctx) (key : Bytes) : R (Option Head) := do
  match ← cx.coll key T_STREAM with
  | none => pure none
  | some (m, _) =>
      pure (some
        { m := m, last := ⟨(Int64.ofInt m.head).toUInt64, (Int64.ofInt m.tail).toUInt64⟩
          added := m.ext.1, maxdel := ⟨m.ext.2.1, m.ext.2.2⟩ })

/-- Store the header and the counters. -/
def save (key : Bytes) (s : Head) : R Head := do
  let m : Meta :=
    { s.m with
      ver := s.m.ver + 1
      head := s.last.ms.toInt64.toInt
      tail := s.last.seq.toInt64.toInt
      ext := (s.added, s.maxdel.ms, s.maxdel.seq) }
  put (.kv key) (.metaBytes m.encode)
  pure { s with m := m }

/-- The ID of the first entry. -/
def first_id (key : Bytes) : R (Option Id) :=
  each (ebase key SUB_XENT) false
    (fun _ k _ => (some (id_from (k.drop (ebase key SUB_XENT).length)), false))
    usize_max (ent_key key ID_MIN).val ((ent_key key ID_MAX).val ++ [0]) none

def load_group (key g : Bytes) : R (Option Group) := do
  let v ← get (group_key key g).val
  pure (v.map fun v =>
    let b := as_bytes v
    { last := ⟨u64_at b 0, u64_at b 8⟩, read := (u64_at b 16).toInt64.toInt })

def save_group (key g : Bytes) (gr : Group) : R Unit :=
  put (group_key key g) (.bytes
    (leBytes 8 gr.last.ms.toNat ++ leBytes 8 gr.last.seq.toNat ++
      leBytes 8 (Int64.ofInt gr.read).toUInt64.toNat))

/-- The pending entries of a group between two IDs that `keep` takes. -/
def pel_range (key g : Bytes) (lo hi : Id) (keep : Pel → Bool) : R (List (Id × Pel)) :=
  if lo > hi then pure []
  else
    let base := (pelBase key g).val
    each base false
      (fun out k v =>
        let p := Pel.dec (as_bytes v)
        (if keep p then out ++ [(id_from (k.drop base.length), p)] else out, true))
      usize_max (pel_key key g lo).val ((pel_key key g hi).val ++ [0]) []

def load_con (key g name : Bytes) : R (Option (UInt64 × Int)) := do
  let v ← get (con_key key g name).val
  pure (v.map fun v => (u64_at (as_bytes v) 0, (u64_at (as_bytes v) 8).toInt64.toInt))

def save_con (key g name : Bytes) (seen : UInt64) (active : Int) : R Unit :=
  put (con_key key g name)
    (.bytes (leBytes 8 seen.toNat ++ leBytes 8 (Int64.ofInt active).toUInt64.toNat))

def delete_prefix (start : Key) : R Unit := do
  let l ← scan_range start start (start ++ [0xff, 0xff]) usize_max false
  Ctx.deleteAll (l.map Prod.fst)

def estimate_read (key : Bytes) (s : Head) (id : Id) : R Int := do
  if s.added = 0 then pure 0
  else if s.m.len = 0 ∧ id ≤ s.last then pure s.added.toInt64.toInt
  else if id = s.last then pure s.added.toInt64.toInt
  else if id > s.last then pure (-1)
  else do
    let first := (← first_id key).getD ID_MAX
    if s.maxdel = ID_MIN ∨ s.maxdel < first then
      if id < first then pure (s.added - UInt64.ofNat s.m.len).toInt64.toInt
      else if id = first then pure (s.added - UInt64.ofNat s.m.len + 1).toInt64.toInt
      else pure (-1)
    else pure (-1)

/-! ## XGROUP -/

def ofExcept {α : Type} : Except Resp α → R α
  | .ok a => pure a
  | .error e => throw e

def okResp : Resp := .simple (utf8 "OK")

/-- The group is created, unless it exists. -/
def createGroup (key g : Bytes) (explicit : Option Id) (read : Option Int) (s : Head) : R Resp := do
  match ← load_group key g with
  | some _ => throw (utf8Err "BUSYGROUP Consumer Group name already exists")
  | none => do
      let id := explicit.getD s.last
      let read ←
        match read with
        | some read => pure read
        | none => estimate_read key s id
      save_group key g { last := id, read := read }
      let _ ← save key s
      pure okResp

def create (cx : Ctx) (key g id_arg : Bytes) (opts : List Bytes) : R Resp := do
  let (mkstream, read) ← ofExcept (parseCreateOpts opts.length (false, none) opts)
  let explicit ← ofExcept (parseGroupId id_arg)
  let s ←
    match ← load cx key with
    | some s => pure s
    | none => if mkstream then save key new_stream else throw need_key
  createGroup key g explicit read s

def setId (cx : Ctx) (key g id_arg : Bytes) (opts : List Bytes) : R Resp := do
  let explicit ← ofExcept (parseGroupId id_arg)
  let read ← ofExcept (parse_entries_read opts)
  match ← load cx key with
  | none => throw need_key
  | some s =>
      match ← load_group key g with
      | none => throw (formatErr (Replies.no_such_group key g))
      | some _ => do
          let id := explicit.getD s.last
          let read ←
            match read with
            | some read => pure read
            | none => estimate_read key s id
          save_group key g { last := id, read := read }
          pure okResp

def destroy (cx : Ctx) (key g : Bytes) : R Resp := do
  match ← load cx key with
  | none => throw need_key
  | some _ =>
      match ← load_group key g with
      | none => pure (.int 0)
      | some _ => do
          delete (group_key key g)
          delete_prefix (pelBase key g).val
          delete_prefix (conBase key g).val
          pure (.int 1)

def deletePels (key g : Bytes) : List (Id × Pel) → R Unit
  | [] => pure ()
  | (id, _) :: pend => do
      delete (pel_key key g id)
      deletePels key g pend

/-- CREATECONSUMER and DELCONSUMER. -/
def consumer (cx : Ctx) (isCreate : Bool) (key g c : Bytes) : R Resp := do
  match ← load cx key with
  | none => throw need_key
  | some _ =>
      match ← load_group key g with
      | none => throw (formatErr (Replies.no_such_group key g))
      | some _ =>
          match ← load_con key g c with
          | some _ =>
              if isCreate then pure (.int 0)
              else do
                let pend ← pel_range key g ID_MIN ID_MAX fun p => p.owner == c
                deletePels key g pend
                delete (con_key key g c)
                pure (.int (.ofNat pend.length))
          | none =>
              if isCreate then do
                save_con key g c cx.now (-1)
                pure (.int 1)
              else pure (.int 0)

def xgroup (cx : Ctx) (a : List Bytes) : R Resp :=
  match parseGroupCmd a with
  | .error e => throw e
  | .ok x =>
      match x.sub, x.rest with
      | .create, id_arg :: opts => create cx x.key x.g id_arg opts
      | .setId, id_arg :: opts => setId cx x.key x.g id_arg opts
      | .destroy, [] => destroy cx x.key x.g
      | .createConsumer, [c] => consumer cx true x.key x.g c
      | .delConsumer, [c] => consumer cx false x.key x.g c
      | sub, _ => throw sub.usage

end XGroup
end StrikeDB
