import StrikeDB.Mutation
import StrikeDB.Crc

/-!
# StrikeDB: the snapshot file

`[count u64][len u32, mutation]*[crc32 u32]`: what a checkpoint writes and what
`load_snapshot` reads.  Unlike a log it is all or nothing: any damage makes the
whole file unreadable.

`load_snapshot_snapshotFile`: what was written is read back.
-/

namespace StrikeDB

inductive SnapshotError where
  | tooShort
  | crcMismatch
  | truncated
  | recordOverrun
deriving DecidableEq, Repr

namespace SnapshotError

def text : SnapshotError → String
  | .tooShort => "snapshot too short"
  | .crcMismatch => "snapshot crc mismatch"
  | .truncated => "snapshot truncated"
  | .recordOverrun => "snapshot record overrun"

end SnapshotError

/-- What `emit` has written when `count` is the header and `ms` were copied. -/
def snapshotBody (count : Nat) (ms : List Mutation) : Bytes :=
  leBytes 8 count ++ ms.flatMap encodeItem

/-- The finished file, with its checksum. -/
def snapshotFile (ms : List Mutation) : Bytes :=
  snapshotBody ms.length ms ++ leBytes 4 (Crc.crcNat (snapshotBody ms.length ms))

/-- The loop over the `n` records; a record that does not decode is skipped. -/
def loadRecords : Nat → Bytes → Except SnapshotError (List Mutation)
  | 0, _ => .ok []
  | n + 1, rest =>
      match getUInt 4 rest with
      | none => .error .truncated
      | some (len, rest) =>
          match getBytes len rest with
          | none => .error .recordOverrun
          | some (rec_, rest) =>
              match loadRecords n rest with
              | .error e => .error e
              | .ok out => .ok ((Mutation.decode rec_).toList ++ out)

def load_snapshot (body : Bytes) : Except SnapshotError (List Mutation) :=
  if body.length < 12 then .error .tooShort
  else
    let payload := body.take (body.length - 4)
    if Crc.crcNat payload ≠ leNat (body.drop (body.length - 4)) then .error .crcMismatch
    else loadRecords (leNat (payload.take 8)) (payload.drop 8)

theorem loadRecords_flatMap
    {ms : List Mutation} (h : ∀ m ∈ ms, m.Fits) :
    loadRecords ms.length (ms.flatMap encodeItem) = .ok ms := by
  induction ms with
  | nil => rfl
  | cons m ms ih =>
      have hm := h m (by simp)
      have hrest := ih fun x hx => h x (List.mem_cons_of_mem _ hx)
      have hsplit : (m :: ms).flatMap encodeItem =
          leBytes 4 m.encode.length ++ (m.encode ++ ms.flatMap encodeItem) := by
        simp [encodeItem]
      rw [hsplit, List.length_cons, loadRecords, getUInt_leBytes_append 4 _ hm.2]
      simp only [getBytes_append, hrest, Mutation.decode_encode hm, Option.toList_some,
        List.singleton_append]

/-- A snapshot is read back as it was written. -/
theorem load_snapshot_snapshotFile
    {ms : List Mutation} (hlen : ms.length < 256 ^ 8) (h : ∀ m ∈ ms, m.Fits) :
    load_snapshot (snapshotFile ms) = .ok ms := by
  have htake : (snapshotFile ms).take ((snapshotFile ms).length - 4) =
      snapshotBody ms.length ms := by
    simp [snapshotFile]
  have hdrop : (snapshotFile ms).drop ((snapshotFile ms).length - 4) =
      leBytes 4 (Crc.crcNat (snapshotBody ms.length ms)) := by
    simp [snapshotFile]
  have hcount : (snapshotBody ms.length ms).take 8 = leBytes 8 ms.length := by
    simp [snapshotBody]
  have hbody : (snapshotBody ms.length ms).drop 8 = ms.flatMap encodeItem := by
    simp [snapshotBody]
  have hlong : ¬ (snapshotFile ms).length < 12 := by
    simp [snapshotFile, snapshotBody]
    omega
  rw [load_snapshot, if_neg hlong]
  simp only
  rw [htake, hdrop, leNat_leBytes 4 _ (Crc.crcNat_lt _), if_neg (by simp), hcount, hbody,
    leNat_leBytes 8 _ hlen, loadRecords_flatMap h]

end StrikeDB
