import StrikeDB.Mutation
import StrikeDB.Wal

/-!
# StrikeDB: log files and crashes

A file and what a crash leaves of it: the bytes that were synced, and any number of
those appended behind them.

A log consists of commit frames.  `readable_image`: of frames with some bytes of
further ones behind them the reader takes the whole frames, and the opened log is cut
exactly behind them.
-/

namespace StrikeDB

structure File where
  data : Bytes
  /-- The contents at the last fsync. -/
  synced : Bytes
deriving DecidableEq

/-- A file whose bytes are all synced. -/
def File.safe (data : Bytes) : File := { data := data, synced := data }

/-! ## Logs of commits -/

/-- The frames of a list of commits. -/
def commitFrames (cs : List (List Mutation)) : Bytes := encodeFrames (cs.map commit_record)

@[simp] theorem commitFrames_nil : commitFrames [] = [] := rfl

@[simp] theorem commitFrames_append (cs ds : List (List Mutation)) :
    commitFrames (cs ++ ds) = commitFrames cs ++ commitFrames ds := by
  simp [commitFrames]

/-- A commit that has a frame in a log. -/
structure Framed (ms : List Mutation) : Prop where
  ne_nil : ms ≠ []
  length_lt : (commit_record ms).length < 256 ^ 4
  ts_lt : ∀ m ∈ ms, m.ts < 256 ^ 8

theorem Framed.fits {ms : List Mutation} (h : Framed ms) : ∀ m ∈ ms, m.Fits :=
  (fits_of_commit_record h.length_lt h.ts_lt).2

/-- The mutations of the frames of a log, in order. -/
def logRecords (file : Bytes) : List Mutation := (Wal.records file).flatMap decode_records

/-- A log file as `Wal::open` and `replay_with` leave it. -/
def replayed (file : Bytes) : Wal := (Wal.replay_with (Wal.open file) true).1

theorem replayed_eq (file : Bytes) :
    replayed file =
      { file := set_len (file.length - (Framing.scan Crc.crcNat file).2.length) file
        good_len := file.length - (Framing.scan Crc.crcNat file).2.length
        poisoned := false } := by
  unfold replayed Wal.replay_with Wal.open
  rw [Wal.replay_loop_eq_scan]
  simp only
  split_ifs with hlt
  · rfl
  · have hlen : file.length - (Framing.scan Crc.crcNat file).2.length = file.length := by omega
    simp [hlen, set_len]

theorem decode_frames {cs : List (List Mutation)} (h : ∀ c ∈ cs, Framed c) :
    (cs.map commit_record).flatMap decode_records = cs.flatten := by
  induction cs with
  | nil => rfl
  | cons c cs ih =>
      have hc := h c (by simp)
      rw [List.map_cons, List.flatMap_cons, List.flatten_cons,
        decode_records_commit_record hc.length_lt hc.ts_lt,
        ih fun x hx => h x (List.mem_cons_of_mem _ hx)]

theorem fits_commit_records {cs : List (List Mutation)} (h : ∀ c ∈ cs, Framed c) :
    ∀ p ∈ cs.map commit_record, Framing.Fits p := by
  intro p hp
  obtain ⟨c, hc, rfl⟩ := List.mem_map.mp hp
  exact (h c hc).length_lt

/-- Frames, then some bytes of further frames: what the reader makes of them. -/
theorem scan_commitFrames
    {cs ds : List (List Mutation)} (h : ∀ c ∈ cs ++ ds, Framed c)
    {t : Bytes} (ht : t <+: commitFrames ds) :
    ∃ n, (Framing.scan Crc.crcNat (commitFrames cs ++ t)).1 =
        (cs ++ ds.take n).map commit_record ∧
      commitFrames cs ++ t = commitFrames (cs ++ ds.take n) ++
        (Framing.scan Crc.crcNat (commitFrames cs ++ t)).2 := by
  have hds := fits_commit_records fun c hc => h c (List.mem_append_right _ hc)
  have hcs := fits_commit_records fun c hc => h c (List.mem_append_left _ hc)
  obtain ⟨n, hscan, hsplit⟩ := Framing.scan_of_prefix Crc.crcNat_lt hds ht
  have happ := Framing.scan_stream_append Crc.crcNat_lt hcs t
  refine ⟨n, ?_, ?_⟩
  · rw [commitFrames, encodeFrames, happ, List.map_append, List.map_take]
    simp only [hscan]
  · rw [commitFrames_append, List.append_assoc, commitFrames, encodeFrames, happ]
    simp only
    congr 1
    rw [commitFrames, encodeFrames, List.map_take]
    exact hsplit

/-- A crash leaves the sure commits and the first few of the others. -/
theorem readable_image
    {cs ds : List (List Mutation)} (h : ∀ c ∈ cs ++ ds, Framed c)
    {t : Bytes} (ht : t <+: commitFrames ds) :
    ∃ n, logRecords (commitFrames cs ++ t) = (cs ++ ds.take n).flatten ∧
      replayed (commitFrames cs ++ t) = Wal.open (commitFrames (cs ++ ds.take n)) := by
  obtain ⟨n, hscan, hsplit⟩ := scan_commitFrames h ht
  refine ⟨n, ?_, ?_⟩
  · rw [logRecords, Wal.records_eq_scan, hscan]
    refine decode_frames ?_
    intro c hc
    refine h c ?_
    rcases List.mem_append.mp hc with hc | hc
    · exact List.mem_append_left _ hc
    · exact List.mem_append_right _ (List.mem_of_mem_take hc)
  · have hlen := (congrArg List.length hsplit).trans List.length_append
    have hcut : (commitFrames cs ++ t).length -
        (Framing.scan Crc.crcNat (commitFrames cs ++ t)).2.length =
          (commitFrames (cs ++ ds.take n)).length := by omega
    have htake : (commitFrames cs ++ t).take (commitFrames (cs ++ ds.take n)).length =
        commitFrames (cs ++ ds.take n) := by
      rw [hsplit, List.take_left]
    have hzero : (commitFrames (cs ++ ds.take n)).length - (commitFrames cs ++ t).length = 0 := by
      omega
    rw [replayed_eq, hcut, set_len, htake, hzero]
    simp [Wal.open]

end StrikeDB
