import StrikeDB.Framing
import StrikeDB.Crc

/-!
# StrikeDB: the write-ahead log

`Wal` of `wal.rs` with the contents of its file made explicit.  Each operation
takes the outcome of the system calls it makes as an argument: a write may stop
after any number of bytes, and the truncation that rolls it back or an `fsync`
may fail.

The replay loop is the reader of `StrikeDB.Framing` for CRC32
(`replay_loop_eq_scan`), so everything known about cut logs holds for it.
-/

namespace StrikeDB

/-- The errors that the storage engine returns. -/
inductive IoError where
  /-- An error reported by the operating system. -/
  | os
  /-- `check_poisoned` refused the call. -/
  | walDisabled
  /-- `frame_header` refused a payload of this length. -/
  | frameTooLarge (len : Nat)
  /-- The two passes of `write_snapshot_at` disagree. -/
  | snapshotChanged
deriving DecidableEq, Repr

namespace IoError

/-- `to_string`; the text of an operating-system error is not the program's. -/
def text : IoError → String
  | .os => "os error"
  | .walDisabled =>
      "WAL disabled after an fsync failure; restart the server to recover"
  | .frameTooLarge len =>
      s!"WAL frame of {len} bytes exceeds the 4 GiB frame limit"
  | .snapshotChanged => "snapshot changed while pinned (bug)"

end IoError

/-- The log: its file, the length of the intact prefix, and the flag that an
unrepairable failure sets. -/
structure Wal where
  file : Bytes
  good_len : Nat
  poisoned : Bool
deriving DecidableEq

/-- How `write_all` ends: completely, or with an error after `n` bytes, in which
case `setLenOk` says whether the truncation of `rollback` succeeds. -/
inductive WriteIo where
  | done
  | short (n : Nat) (setLenOk : Bool)
deriving DecidableEq

/-- Largest payload one frame can carry. -/
def MAX_FRAME : Nat := 4294967295

/-- `File::set_len`: cut, or extend with zeros. -/
def set_len (n : Nat) (f : Bytes) : Bytes :=
  f.take n ++ List.replicate (n - f.length) 0

/-- The header of a frame, unless the payload is too long for it. -/
def frame_header (payload : Bytes) : Except IoError Bytes :=
  if payload.length > MAX_FRAME then .error (.frameTooLarge payload.length)
  else .ok (leBytes 4 payload.length ++ leBytes 4 (Crc.crcNat payload))

/-- The buffer that `append_frames` builds. -/
def frames_buf : List Bytes → Except IoError Bytes
  | [] => .ok []
  | p :: ps => do
      let h ← frame_header p
      let rest ← frames_buf ps
      pure (h ++ (p ++ rest))

namespace Wal

/-- `Wal::open` on a file with these contents. -/
def «open» (file : Bytes) : Wal :=
  { file := file, good_len := file.length, poisoned := false }

def check_poisoned (w : Wal) : Except IoError Unit :=
  if w.poisoned then .error .walDisabled else .ok ()

/-- Discard anything past `good_len`. -/
def rollback (w : Wal) (setLenOk : Bool) : Wal :=
  if setLenOk then { w with file := set_len w.good_len w.file }
  else { w with poisoned := true }

/-- Append several frames as one contiguous write, without `fsync`. -/
def append_frames (w : Wal) (payloads : List Bytes) (io : WriteIo) :
    Wal × Except IoError Unit :=
  match w.check_poisoned with
  | .error e => (w, .error e)
  | .ok () =>
      match frames_buf payloads with
      | .error e => (w, .error e)
      | .ok buf =>
          match io with
          | .done =>
              ({ w with file := w.file ++ buf, good_len := w.good_len + buf.length }, .ok ())
          | .short n setLenOk =>
              -- `write_all` of nothing makes no system call
              if buf = [] then (w, .ok ())
              else (rollback { w with file := w.file ++ buf.take n } setLenOk, .error .os)

/-- `fsync` the log; a failure disables it for good. -/
def sync (w : Wal) (syncOk : Bool) : Wal × Except IoError Unit :=
  match w.check_poisoned with
  | .error e => (w, .error e)
  | .ok () =>
      if syncOk then (w, .ok ()) else ({ w with poisoned := true }, .error .os)

/-- Truncate the whole log. -/
def truncate (w : Wal) (setLenOk syncOk : Bool) : Wal × Except IoError Unit :=
  match w.check_poisoned with
  | .error e => (w, .error e)
  | .ok () =>
      if setLenOk then
        sync { w with file := set_len 0 w.file, good_len := 0 } syncOk
      else (w, .error .os)

/-- The loop of `replay_with`: `rest` is what the reader has not taken yet.
Gives the payloads in order and the final `good_offset`. -/
def replay_loop (file_len : Nat) : Nat → Nat → Bytes → List Bytes × Nat
  | 0, good_offset, _ => ([], good_offset)
  | fuel + 1, good_offset, rest =>
      if rest.length < 8 then ([], good_offset)
      else
        let len := leNat (rest.take 4)
        let want_crc := leNat ((rest.drop 4).take 4)
        if good_offset + 8 + len > file_len then ([], good_offset)
        else
          let payload := (rest.drop 8).take len
          if Crc.crcNat payload ≠ want_crc then ([], good_offset)
          else
            let r := replay_loop file_len fuel (good_offset + 8 + len) ((rest.drop 8).drop len)
            (payload :: r.1, r.2)

/-- Stream every intact record, then cut the file behind the last one.  The
bytes past it are saved first; if that fails the file is left alone. -/
def replay_with (w : Wal) (saveOk : Bool) :
    Wal × List Bytes × Except IoError Unit :=
  let r := replay_loop w.file.length w.file.length 0 w.file
  if r.2 < w.file.length then
    if saveOk then ({ w with file := set_len r.2 w.file, good_len := r.2 }, r.1, .ok ())
    else (w, r.1, .error .os)
  else ({ w with good_len := r.2 }, r.1, .ok ())

/-- The records that `replay` collects from a file with these contents. -/
def records (file : Bytes) : List Bytes :=
  (replay_with (Wal.open file) true).2.1

end Wal

/-! ## Frames -/

/-- The frame format of the log is the generic one with CRC32. -/
def encodeFrames (ps : List Bytes) : Bytes := Framing.stream Crc.crcNat ps

@[simp] theorem encodeFrames_nil : encodeFrames [] = [] := rfl

@[simp] theorem encodeFrames_append (ps qs : List Bytes) :
    encodeFrames (ps ++ qs) = encodeFrames ps ++ encodeFrames qs :=
  Framing.stream_append ps qs

theorem fits_iff (p : Bytes) :
    Framing.Fits p ↔ ¬ p.length > MAX_FRAME := by
  unfold Framing.Fits MAX_FRAME
  omega

/-- A batch is refused when some payload is too long, and otherwise becomes the
concatenation of its frames. -/
theorem frames_buf_eq_ok_iff (ps : List Bytes) (buf : Bytes) :
    frames_buf ps = .ok buf ↔
      (∀ p ∈ ps, Framing.Fits p) ∧ buf = encodeFrames ps := by
  induction ps generalizing buf with
  | nil =>
      simp [frames_buf, eq_comm]
  | cons p ps ih =>
      by_cases hp : Framing.Fits p
      · have hhead : frame_header p =
            .ok (leBytes 4 p.length ++ leBytes 4 (Crc.crcNat p)) := by
          rw [frame_header, if_neg ((fits_iff p).mp hp)]
        have hframe : encodeFrames (p :: ps) =
            leBytes 4 p.length ++ leBytes 4 (Crc.crcNat p) ++ (p ++ encodeFrames ps) := by
          simp [encodeFrames, Framing.frame]
        rw [frames_buf, hhead, hframe]
        cases hrest : frames_buf ps with
        | error e =>
            have hnot : ¬ ∀ q ∈ ps, Framing.Fits q := by
              intro hall
              have := (ih (encodeFrames ps)).mpr ⟨hall, rfl⟩
              rw [hrest] at this
              cases this
            simp [bind, Except.bind, hp]
            intro hall
            exact absurd hall hnot
        | ok rest =>
            obtain ⟨hall, rfl⟩ := (ih rest).mp hrest
            simp only [bind, Except.bind, pure, Except.pure, Except.ok.injEq,
              List.forall_mem_cons]
            constructor
            · rintro rfl
              exact ⟨⟨hp, hall⟩, rfl⟩
            · rintro ⟨_, rfl⟩
              rfl
      · have hhead : frame_header p = .error (.frameTooLarge p.length) := by
          rw [frame_header, if_pos]
          by_contra hle
          exact hp ((fits_iff p).mpr hle)
        rw [frames_buf, hhead]
        simp [bind, Except.bind, hp]

namespace Wal

theorem frames_buf_ne_os (ps : List Bytes) :
    frames_buf ps ≠ .error .os := by
  induction ps with
  | nil => simp [frames_buf]
  | cons p ps ih =>
      rw [frames_buf, frame_header]
      split
      · simp [bind, Except.bind]
      · cases hrest : frames_buf ps with
        | error e =>
            rw [hrest] at ih
            simpa [bind, Except.bind] using ih
        | ok rest => simp [bind, Except.bind, pure, Except.pure]

/-- Everything `append_frames` can do: refuse, write all frames, write some
bytes and cut them off again, or write some bytes and disable the log. -/
theorem append_frames_cases (w : Wal) (ps : List Bytes) (io : WriteIo) :
    (∃ e, e ≠ .os ∧ w.append_frames ps io = (w, .error e)) ∨
    (w.poisoned = false ∧ (∀ p ∈ ps, Framing.Fits p) ∧
      w.append_frames ps io =
        ({ w with file := w.file ++ encodeFrames ps
                  good_len := w.good_len + (encodeFrames ps).length }, .ok ())) ∨
    (∃ n, io = .short n true ∧ w.poisoned = false ∧
      w.append_frames ps io =
        ({ w with file := set_len w.good_len (w.file ++ (encodeFrames ps).take n) },
          .error .os)) ∨
    (∃ n, io = .short n false ∧ w.poisoned = false ∧ (∀ p ∈ ps, Framing.Fits p) ∧
      w.append_frames ps io =
        ({ w with file := w.file ++ (encodeFrames ps).take n, poisoned := true },
          .error .os)) := by
  unfold append_frames check_poisoned
  cases hw : w.poisoned with
  | true => exact Or.inl ⟨.walDisabled, by simp, by simp⟩
  | false =>
      cases hbuf : frames_buf ps with
      | error e =>
          refine Or.inl ⟨e, ?_, by simp⟩
          rintro rfl
          exact frames_buf_ne_os ps hbuf
      | ok buf =>
          obtain ⟨hfits, rfl⟩ := (frames_buf_eq_ok_iff ps buf).mp hbuf
          cases io with
          | done => exact Or.inr (Or.inl ⟨rfl, hfits, by simp⟩)
          | short n setLenOk =>
              by_cases hnil : encodeFrames ps = []
              · refine Or.inr (Or.inl ⟨rfl, hfits, ?_⟩)
                cases w
                simp_all
              · cases setLenOk with
                | true => exact Or.inr (Or.inr (Or.inl ⟨n, rfl, rfl, by simp [hnil, rollback]⟩))
                | false =>
                    exact Or.inr (Or.inr (Or.inr ⟨n, rfl, rfl, hfits, by simp [hnil, rollback]⟩))

/-- Everything `sync` can do. -/
theorem sync_cases (w : Wal) (ok : Bool) :
    (w.poisoned = true ∧ w.sync ok = (w, .error .walDisabled)) ∨
    (w.poisoned = false ∧ ok = true ∧ w.sync ok = (w, .ok ())) ∨
    (w.poisoned = false ∧ ok = false ∧
      w.sync ok = ({ w with poisoned := true }, .error .os)) := by
  unfold sync check_poisoned
  cases hw : w.poisoned <;> cases ok <;> simp

/-- The replay loop is the generic reader. -/
theorem replay_loop_eq_scanLoop
    (fuel good_offset : Nat) (rest : Bytes) :
    replay_loop (good_offset + rest.length) fuel good_offset rest =
      ((Framing.scanLoop Crc.crcNat fuel rest).1,
        good_offset + rest.length - (Framing.scanLoop Crc.crcNat fuel rest).2.length) := by
  induction fuel generalizing good_offset rest with
  | zero => simp [replay_loop, Framing.scanLoop]
  | succ fuel ih =>
      rw [replay_loop, Framing.scanLoop, Framing.readFrame]
      by_cases h8 : rest.length < 8
      · rw [if_pos h8, if_neg (by omega)]
        simp
      · rw [if_neg h8]
        simp only
        by_cases hrun : good_offset + 8 + leNat (rest.take 4) > good_offset + rest.length
        · rw [if_pos hrun, if_neg (by omega)]
          simp
        · rw [if_neg hrun]
          by_cases hcrc : Crc.crcNat ((rest.drop 8).take (leNat (rest.take 4))) =
              leNat ((rest.drop 4).take 4)
          · have hlen : good_offset + rest.length =
                (good_offset + 8 + leNat (rest.take 4)) +
                  ((rest.drop 8).drop (leNat (rest.take 4))).length := by
              simp only [List.length_drop]
              omega
            rw [if_neg (by simpa using hcrc), if_pos ⟨by omega, by omega, hcrc⟩]
            simp only
            rw [hlen, ih]
          · rw [if_pos hcrc, if_neg (fun h => hcrc h.2.2)]
            simp

/-- What replay delivers and where it cuts the file. -/
theorem replay_loop_eq_scan (file : Bytes) :
    replay_loop file.length file.length 0 file =
      ((Framing.scan Crc.crcNat file).1,
        file.length - (Framing.scan Crc.crcNat file).2.length) := by
  have h := replay_loop_eq_scanLoop file.length 0 file
  simpa [Framing.scan] using h

theorem records_eq_scan (file : Bytes) :
    records file = (Framing.scan Crc.crcNat file).1 := by
  unfold records replay_with Wal.open
  rw [replay_loop_eq_scan]
  simp only
  split_ifs <;> rfl

end Wal
end StrikeDB
