import StrikeDB.Bytes
import Std.Data.ExtTreeMap

/-!
# StrikeDB: values and their binary codec

Every view of the database stores a `Value` under a key.  Floats are kept as
their bit patterns: the codec moves bits and never computes with them.

`decode_encode`: a value whose length fields fit their four bytes is decoded
to itself, whatever bytes follow it.
-/

namespace StrikeDB

/-- A value of the substrate. -/
inductive Value where
  | bytes (b : Bytes)
  | int (i : Int64)
  | float (bits : UInt64)
  | vector (v : List UInt32)
  | row (map : Std.ExtTreeMap String Bytes)
  /-- Marks a delete at some version. -/
  | tombstone
  /-- Header of a Redis collection, opaque to the engine. -/
  | metaBytes (b : Bytes)
deriving DecidableEq

namespace Value

def T_BYTES : UInt8 := 1
def T_INT : UInt8 := 2
def T_VECTOR : UInt8 := 3
def T_ROW : UInt8 := 4
def T_TOMB : UInt8 := 5
def T_FLOAT : UInt8 := 6
def T_META : UInt8 := 7

/-- `!matches!(v, Value::Tombstone)`. -/
def isLive : Value → Bool
  | .tombstone => false
  | _ => true

/-- `put_u32`. -/
def put_u32 (n : Nat) : Bytes := leBytes 4 n

/-- `String::as_bytes`. -/
def strBytes (s : String) : Bytes := s.toByteArray.data.toList

/-- `String::from_utf8`. -/
def fromUtf8 (b : Bytes) : Option String := String.fromUTF8? ⟨b.toArray⟩

/-- One column of a row: its name and its cell, each with its length. -/
def encodeColumn (kv : String × Bytes) : Bytes :=
  put_u32 (strBytes kv.1).length ++ strBytes kv.1 ++
    (put_u32 kv.2.length ++ kv.2)

/-- Serialize to bytes. -/
def encode : Value → Bytes
  | .bytes b => T_BYTES :: (put_u32 b.length ++ b)
  | .int i => T_INT :: leBytes 8 i.toUInt64.toNat
  | .float f => T_FLOAT :: leBytes 8 f.toNat
  | .vector v =>
      T_VECTOR :: (put_u32 v.length ++ v.flatMap fun f => leBytes 4 f.toNat)
  | .row map =>
      T_ROW :: (put_u32 map.toList.length ++ map.toList.flatMap encodeColumn)
  | .tombstone => [T_TOMB]
  | .metaBytes b => T_META :: (put_u32 b.length ++ b)

/-- The `n` floats of a vector. -/
def decodeFloats : Nat → Bytes → Option (List UInt32)
  | 0, _ => some []
  | n + 1, buf => do
      let (x, buf) ← getUInt 4 buf
      let xs ← decodeFloats n buf
      pure (UInt32.ofNat x :: xs)

/-- The `n` columns of a row, inserted one by one. -/
def decodeColumns :
    Nat → Bytes → Std.ExtTreeMap String Bytes → Option (Std.ExtTreeMap String Bytes)
  | 0, _, map => some map
  | n + 1, buf, map => do
      let (kl, buf) ← getUInt 4 buf
      let (kb, buf) ← getBytes kl buf
      let k ← fromUtf8 kb
      let (vl, buf) ← getUInt 4 buf
      let (v, buf) ← getBytes vl buf
      decodeColumns n buf (map.insert k v)

/-- Deserialize from bytes; bytes behind the value are ignored. -/
def decode : Bytes → Option Value
  | [] => none
  | tag :: buf =>
      if tag = T_BYTES then do
        let (n, buf) ← getUInt 4 buf
        let (b, _) ← getBytes n buf
        pure (.bytes b)
      else if tag = T_INT then do
        let (n, _) ← getUInt 8 buf
        pure (.int (UInt64.ofNat n).toInt64)
      else if tag = T_FLOAT then do
        let (n, _) ← getUInt 8 buf
        pure (.float (UInt64.ofNat n))
      else if tag = T_VECTOR then do
        let (n, buf) ← getUInt 4 buf
        let v ← decodeFloats n buf
        pure (.vector v)
      else if tag = T_ROW then do
        let (n, buf) ← getUInt 4 buf
        let map ← decodeColumns n buf ∅
        pure (.row map)
      else if tag = T_TOMB then some .tombstone
      else if tag = T_META then do
        let (n, buf) ← getUInt 4 buf
        let (b, _) ← getBytes n buf
        pure (.metaBytes b)
      else none

/-- Every length field of the encoding fits its four bytes. -/
def Fits (v : Value) : Prop := v.encode.length < 256 ^ 4

theorem fromUtf8_strBytes (s : String) :
    fromUtf8 (strBytes s) = some s := by
  unfold fromUtf8 strBytes String.fromUTF8?
  simp only [Array.toArray_toList]
  rw [dif_pos s.isValidUTF8]
  rfl

theorem decodeFloats_flatMap (v : List UInt32) (rest : Bytes) :
    decodeFloats v.length ((v.flatMap fun f => leBytes 4 f.toNat) ++ rest) = some v := by
  induction v with
  | nil => rfl
  | cons f v ih =>
      rw [List.flatMap_cons, List.append_assoc, List.length_cons, decodeFloats,
        getUInt_leBytes_append 4 _ f.toNat_lt]
      simp [ih]

/-- Columns are read back in the order they were written. -/
theorem decodeColumns_flatMap
    (cols : List (String × Bytes)) (rest : Bytes)
    (map : Std.ExtTreeMap String Bytes)
    (hk : ∀ kv ∈ cols, (strBytes kv.1).length < 256 ^ 4)
    (hv : ∀ kv ∈ cols, kv.2.length < 256 ^ 4) :
    decodeColumns cols.length (cols.flatMap encodeColumn ++ rest) map =
      some (cols.foldl (fun m kv => m.insert kv.1 kv.2) map) := by
  induction cols generalizing map with
  | nil => rfl
  | cons kv cols ih =>
      have hkv : (strBytes kv.1).length < 256 ^ 4 := hk kv (by simp)
      have hvv : kv.2.length < 256 ^ 4 := hv kv (by simp)
      have ih' := ih (map.insert kv.1 kv.2)
        (fun x hx => hk x (List.mem_cons_of_mem _ hx))
        (fun x hx => hv x (List.mem_cons_of_mem _ hx))
      rw [List.flatMap_cons, List.length_cons, decodeColumns, encodeColumn, put_u32, put_u32]
      simp only [List.append_assoc]
      rw [getUInt_leBytes_append 4 _ hkv]
      simp only [Option.bind_eq_bind, Option.bind_some]
      rw [getBytes_append]
      simp only [Option.bind_some]
      rw [fromUtf8_strBytes]
      simp only [Option.bind_some]
      rw [getUInt_leBytes_append 4 _ hvv]
      simp only [Option.bind_some]
      rw [getBytes_append]
      simp only [Option.bind_some]
      exact ih'

/-- Inserting the entries of a map in order into the empty one rebuilds it. -/
theorem foldl_insert_toList (map : Std.ExtTreeMap String Bytes) :
    map.toList.foldl (fun m kv => m.insert kv.1 kv.2) ∅ = map := by
  have hfold :
      map.toList.foldl (fun m kv => m.insert kv.1 kv.2) ∅ =
        (∅ : Std.ExtTreeMap String Bytes).insertMany map.toList :=
    Std.ExtTreeMap.insertMany_list_eq_foldl.symm
  rw [hfold]
  apply Std.ExtTreeMap.ext_getElem?
  intro k
  cases hk : map[k]? with
  | none =>
      rw [Std.ExtTreeMap.getElem?_insertMany_list_of_contains_eq_false]
      · simp
      · rw [Std.ExtTreeMap.map_fst_toList_eq_keys]
        have hnot : k ∉ map.keys := by
          rw [Std.ExtTreeMap.mem_keys, Std.ExtTreeMap.mem_iff_isSome_getElem?, hk]
          simp
        simpa using hnot
  | some v =>
      exact Std.ExtTreeMap.getElem?_insertMany_list_of_mem
        (k := k) (by simp) Std.ExtTreeMap.distinct_keys_toList
        (Std.ExtTreeMap.mem_toList_iff_getElem?_eq_some.mpr hk)

theorem length_le_of_mem_flatMap
    {α : Type} {f : α → Bytes} {a : α} {l : List α} (h : a ∈ l) :
    (f a).length ≤ (l.flatMap f).length := by
  induction l with
  | nil => simp at h
  | cons b l ih =>
      rw [List.flatMap_cons, List.length_append]
      rcases List.mem_cons.mp h with rfl | h
      · omega
      · have := ih h
        omega

theorem length_le_flatMap
    {α : Type} {f : α → Bytes} {l : List α} (h : ∀ a ∈ l, 1 ≤ (f a).length) :
    l.length ≤ (l.flatMap f).length := by
  induction l with
  | nil => simp
  | cons b l ih =>
      have hb := h b (by simp)
      have := ih fun a ha => h a (List.mem_cons_of_mem _ ha)
      rw [List.flatMap_cons, List.length_append, List.length_cons]
      omega

/-- The columns of an encoded row fit their length fields. -/
theorem columns_fit
    {map : Std.ExtTreeMap String Bytes} (h : (Value.row map).Fits) :
    map.toList.length < 256 ^ 4 ∧
      ∀ kv ∈ map.toList,
        (strBytes kv.1).length < 256 ^ 4 ∧ kv.2.length < 256 ^ 4 := by
  have hlen : (map.toList.flatMap encodeColumn).length < 256 ^ 4 := by
    simp only [Fits, encode, put_u32, List.length_cons, List.length_append,
      leBytes_length] at h
    omega
  refine ⟨?_, ?_⟩
  · refine lt_of_le_of_lt (length_le_flatMap fun kv _ => ?_) hlen
    simp [encodeColumn, put_u32]
    omega
  · intro kv hkv
    have hcol := length_le_of_mem_flatMap (f := encodeColumn) hkv
    simp only [encodeColumn, put_u32, List.length_append, leBytes_length] at hcol
    constructor <;> omega

/-- A value that fits its length fields is decoded to itself. -/
theorem decode_encode
    (v : Value) (hv : v.Fits) (rest : Bytes) :
    decode (v.encode ++ rest) = some v := by
  cases v with
  | bytes b =>
      have hb : b.length < 256 ^ 4 := by
        simp only [Fits, encode, List.length_cons, List.length_append] at hv
        omega
      simp [encode, decode, put_u32, getUInt_leBytes_append 4 _ hb, getBytes_append]
  | int i =>
      have hi : i.toUInt64.toNat < 256 ^ 8 := i.toUInt64.toNat_lt
      have hback : (UInt64.ofNat i.toUInt64.toNat).toInt64 = i := by
        rw [UInt64.ofNat_toNat]
        rfl
      simp only [encode, decode, T_INT, T_BYTES, List.cons_append,
        getUInt_leBytes_append 8 _ hi]
      simp only [Option.bind_eq_bind, Option.bind_some, hback]
      rfl
  | float f =>
      have hf : f.toNat < 256 ^ 8 := f.toNat_lt
      simp [encode, decode, T_INT, T_BYTES, T_FLOAT, getUInt_leBytes_append 8 _ hf]
  | vector v =>
      have hn : v.length < 256 ^ 4 := by
        have := length_le_flatMap (f := fun f : UInt32 => leBytes 4 f.toNat) (l := v)
          (fun f _ => by simp)
        simp only [Fits, encode, List.length_cons, List.length_append] at hv
        omega
      simp [encode, decode, T_INT, T_BYTES, T_FLOAT, T_VECTOR, put_u32,
        getUInt_leBytes_append 4 _ hn, decodeFloats_flatMap]
  | row map =>
      obtain ⟨hn, hcols⟩ := columns_fit hv
      have hdec := decodeColumns_flatMap map.toList rest ∅
        (fun kv h => (hcols kv h).1) (fun kv h => (hcols kv h).2)
      rw [foldl_insert_toList] at hdec
      simp only [encode, decode, T_INT, T_BYTES, T_FLOAT, T_VECTOR, T_ROW, put_u32,
        List.cons_append, List.append_assoc, getUInt_leBytes_append 4 _ hn]
      simp only [Option.bind_eq_bind, Option.bind_some, hdec]
      rfl
  | tombstone => simp [encode, decode, T_INT, T_BYTES, T_FLOAT, T_VECTOR, T_ROW, T_TOMB]
  | metaBytes b =>
      have hb : b.length < 256 ^ 4 := by
        simp only [Fits, encode, List.length_cons, List.length_append] at hv
        omega
      simp [encode, decode, T_INT, T_BYTES, T_FLOAT, T_VECTOR, T_ROW, T_TOMB, T_META,
        put_u32, getUInt_leBytes_append 4 _ hb, getBytes_append]

end Value
end StrikeDB
