import StrikeDB.Value

/-!
# StrikeDB: mutations and the records of the log

A commit is written as one tagged record: a single mutation, or a batch with
its count.  `decode_records_commit_record` says that the record of a commit
gives back exactly the mutations of the commit, so that a frame is applied
whole or not at all.
-/

namespace StrikeDB

abbrev Key := Bytes

/-- A committed mutation, as written to the log. -/
structure Mutation where
  key : Key
  value : Value
  ts : Nat
deriving DecidableEq

namespace Mutation

def encode (m : Mutation) : Bytes :=
  leBytes 8 m.ts ++ (leBytes 4 m.key.length ++ (m.key ++ m.value.encode))

def decode (buf : Bytes) : Option Mutation := do
  let (ts, buf) ← getUInt 8 buf
  let (kl, buf) ← getUInt 4 buf
  let (key, buf) ← getBytes kl buf
  let value ← Value.decode buf
  pure { key := key, value := value, ts := ts }

/-- The timestamp is a `u64` and the encoding fits a length field. -/
def Fits (m : Mutation) : Prop := m.ts < 256 ^ 8 ∧ m.encode.length < 256 ^ 4

theorem decode_encode {m : Mutation} (h : m.Fits) :
    decode m.encode = some m := by
  obtain ⟨hts, hlen⟩ := h
  have hparts : m.key.length < 256 ^ 4 ∧ m.value.Fits := by
    simp only [encode, List.length_append, leBytes_length] at hlen
    constructor
    · omega
    · unfold Value.Fits
      omega
  have hval := Value.decode_encode m.value hparts.2 []
  rw [List.append_nil] at hval
  unfold decode encode
  rw [getUInt_leBytes_append 8 _ hts]
  simp only [Option.bind_eq_bind, Option.bind_some]
  rw [getUInt_leBytes_append 4 _ hparts.1]
  simp only [Option.bind_some]
  rw [getBytes_append]
  simp only [Option.bind_some]
  rw [hval]
  rfl

end Mutation

def WAL_TAG_SINGLE : UInt8 := 0x01
def WAL_TAG_BATCH : UInt8 := 0x02

def encode_single_record (m : Mutation) : Bytes := WAL_TAG_SINGLE :: m.encode

/-- One mutation of a batch, with its length. -/
def encodeItem (m : Mutation) : Bytes := leBytes 4 m.encode.length ++ m.encode

def encode_batch_record (muts : List Mutation) : Bytes :=
  WAL_TAG_BATCH :: (leBytes 8 muts.length ++ muts.flatMap encodeItem)

/-- The frame payload the flusher writes for the mutations of one commit. -/
def commit_record (muts : List Mutation) : Bytes :=
  match muts with
  | [m] => encode_single_record m
  | muts => encode_batch_record muts

/-- The loop over the items of a batch: stops where an item runs past the end,
skips an item that does not decode. -/
def decodeItems : Nat → Bytes → List Mutation
  | 0, _ => []
  | count + 1, buf =>
      match getUInt 4 buf with
      | none => []
      | some (len, buf) =>
          match getBytes len buf with
          | none => []
          | some (item, buf) =>
              (Mutation.decode item).toList ++ decodeItems count buf

/-- Decode one frame into mutations; untagged records are legacy ones. -/
def decode_records (rec : Bytes) : List Mutation :=
  match rec with
  | [] => (Mutation.decode []).toList
  | tag :: buf =>
      if tag = WAL_TAG_BATCH then
        match getUInt 8 buf with
        | none => []
        | some (count, buf) => decodeItems count buf
      else if tag = WAL_TAG_SINGLE then (Mutation.decode buf).toList
      else (Mutation.decode (tag :: buf)).toList

theorem decodeItems_flatMap
    (muts : List Mutation) (h : ∀ m ∈ muts, m.Fits) (rest : Bytes) :
    decodeItems muts.length (muts.flatMap encodeItem ++ rest) = muts := by
  induction muts with
  | nil => rfl
  | cons m muts ih =>
      have hm : m.Fits := h m (by simp)
      rw [List.flatMap_cons, List.append_assoc, List.length_cons, decodeItems, encodeItem,
        List.append_assoc, getUInt_leBytes_append 4 _ hm.2]
      simp only
      rw [getBytes_append]
      simp only
      rw [Mutation.decode_encode hm, ih fun x hx => h x (List.mem_cons_of_mem _ hx)]
      simp

/-- The mutations of a record that fits a frame fit their length fields. -/
theorem fits_of_commit_record
    {muts : List Mutation} (hlen : (commit_record muts).length < 256 ^ 4)
    (hts : ∀ m ∈ muts, m.ts < 256 ^ 8) :
    muts.length < 256 ^ 4 ∧ ∀ m ∈ muts, m.Fits := by
  have hbatch : ∀ ms : List Mutation, (encode_batch_record ms).length < 256 ^ 4 →
      ms.length < 256 ^ 4 ∧ ∀ m ∈ ms, m.encode.length < 256 ^ 4 := by
    intro ms hms
    simp only [encode_batch_record, List.length_cons, List.length_append, leBytes_length] at hms
    refine ⟨?_, ?_⟩
    · have := Value.length_le_flatMap (f := encodeItem) (l := ms)
        (fun m _ => by simp [encodeItem]; omega)
      omega
    · intro m hm
      have := Value.length_le_of_mem_flatMap (f := encodeItem) hm
      simp only [encodeItem, List.length_append, leBytes_length] at this
      omega
  match muts, hlen, hts with
  | [], hlen, hts => simp
  | [m], hlen, hts =>
      simp only [commit_record, encode_single_record, List.length_cons] at hlen
      refine ⟨by simp, ?_⟩
      intro m' hm'
      rw [List.mem_singleton] at hm'
      subst hm'
      exact ⟨hts m' (by simp), by omega⟩
  | m :: m' :: ms, hlen, hts =>
      obtain ⟨hn, hall⟩ := hbatch (m :: m' :: ms) hlen
      exact ⟨hn, fun x hx => ⟨hts x hx, hall x hx⟩⟩

/-- The record of a commit decodes to the mutations of the commit. -/
theorem decode_records_commit_record
    {muts : List Mutation} (hlen : (commit_record muts).length < 256 ^ 4)
    (hts : ∀ m ∈ muts, m.ts < 256 ^ 8) :
    decode_records (commit_record muts) = muts := by
  obtain ⟨hn, hfits⟩ := fits_of_commit_record hlen hts
  have hbatch : ∀ ms : List Mutation, ms.length < 256 ^ 4 → (∀ m ∈ ms, m.Fits) →
      decode_records (encode_batch_record ms) = ms := by
    intro ms hms hall
    have hitems := decodeItems_flatMap ms hall []
    rw [List.append_nil] at hitems
    have hcount : ms.length < 256 ^ 8 := by omega
    simp only [encode_batch_record, decode_records, if_true,
      getUInt_leBytes_append 8 _ hcount]
    exact hitems
  match muts, hn, hfits with
  | [], hn, hfits => exact hbatch [] hn hfits
  | [m], hn, hfits =>
      have hdec := Mutation.decode_encode (hfits m (by simp))
      simp [commit_record, encode_single_record, decode_records, WAL_TAG_SINGLE,
        WAL_TAG_BATCH, hdec]
  | m :: m' :: ms, hn, hfits => exact hbatch (m :: m' :: ms) hn hfits

end StrikeDB
