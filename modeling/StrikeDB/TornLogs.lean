import StrikeDB.Mutation
import StrikeDB.WalRuns

/-!
# StrikeDB: logs that end in the middle of a frame

A crash cuts the log at any byte.  Opening it replays the frames that lie wholly
before the cut and leaves a clean log of exactly these (`replay_take`), so the
results on runs of a clean log hold from there on.

**Results.**
* `replay_take`: what replay delivers of a cut log, and what it leaves.
* `torn_logs_replay`: frames appended afterwards are delivered behind them, and
  the record of a commit gives back its mutations.
-/

namespace StrikeDB
namespace WalRuns

/-- The frames that lie wholly before the cut are a clean log again. -/
def CleanLog.cutAt (l : CleanLog) (cut : Nat) : CleanLog where
  payloads := Framing.whole l.payloads cut
  fits p hp := l.fits p ((Framing.whole_prefix _ _).subset hp)

/-- Opening a log that was cut at any byte and replaying it. -/
theorem replay_take (l : CleanLog) (cut : Nat) :
    (Wal.open (l.bytes.take cut)).replay_with true =
      (Wal.open (l.cutAt cut).bytes, (l.cutAt cut).payloads, .ok ()) := by
  obtain ⟨hread, hfile⟩ := Framing.scan_take Crc.crcNat_lt l.fits cut
  change (Framing.scan Crc.crcNat (l.bytes.take cut)).1 = (l.cutAt cut).payloads at hread
  change l.bytes.take cut =
    (l.cutAt cut).bytes ++ (Framing.scan Crc.crcNat (l.bytes.take cut)).2 at hfile
  generalize l.bytes.take cut = file at hread hfile ⊢
  unfold Wal.replay_with Wal.open
  simp only [Wal.replay_loop_eq_scan, hread, if_true]
  generalize (Framing.scan Crc.crcNat file).2 = torn at hfile ⊢
  subst hfile
  rw [List.length_append, Nat.add_sub_cancel]
  by_cases htorn : torn = []
  · subst htorn
    simp
  · have hpos : 0 < torn.length := List.length_pos_of_ne_nil htorn
    have hset : set_len (l.cutAt cut).bytes.length ((l.cutAt cut).bytes ++ torn) =
        (l.cutAt cut).bytes := by
      simp [set_len]
    rw [if_pos (by omega), hset]

theorem cutAt_length (l : CleanLog) : l.cutAt l.bytes.length = l := by
  have hwhole : (l.cutAt l.bytes.length).payloads = l.payloads :=
    Framing.whole_of_length_le le_rfl
  cases l
  unfold CleanLog.cutAt at hwhole ⊢
  congr

/-- A log that was not cut is left as it is. -/
theorem replay_clean (l : CleanLog) :
    (Wal.open l.bytes).replay_with true = (Wal.open l.bytes, l.payloads, .ok ()) := by
  have hall := replay_take l l.bytes.length
  rwa [List.take_length, cutAt_length] at hall

/-- Appends without a failure. -/
def appends (batches : List CleanLog) : List WalCall :=
  batches.map fun b => .append b.payloads .done

theorem acked_appends {w : Wal} (hw : w.poisoned = false) (batches : List CleanLog) :
    acked (run w (appends batches)).2 = batches.flatMap CleanLog.payloads ∧
      (run w (appends batches)).1.poisoned = false := by
  induction batches generalizing w with
  | nil => exact ⟨rfl, hw⟩
  | cons b batches ih =>
      have hbuf : frames_buf b.payloads = .ok (encodeFrames b.payloads) :=
        (frames_buf_eq_ok_iff _ _).mpr ⟨b.fits, rfl⟩
      have happend : w.append_frames b.payloads .done =
          ({ w with
              file := w.file ++ encodeFrames b.payloads
              good_len := w.good_len + (encodeFrames b.payloads).length }, .ok ()) := by
        simp [Wal.append_frames, Wal.check_poisoned, hw, hbuf]
      obtain ⟨hrest, hclean⟩ := ih (w := (w.append_frames b.payloads .done).1)
        (by rw [happend]; exact hw)
      constructor
      · rw [List.flatMap_cons, ← hrest]
        simp [appends, run, perform, acked, ackedOf, happend]
      · exact hclean

/-- **Torn logs replay to a prefix.**  A log of whole frames is cut at any byte and
opened.  Replay delivers exactly the payloads of the frames wholly before the cut
and leaves exactly these frames; frames that are appended afterwards are delivered
behind them by the next replay; and the record of a commit among the delivered
payloads decodes to the mutations of the commit. -/
theorem torn_logs_replay (l : CleanLog) (cut : Nat) :
    ∃ w, (Wal.open (l.bytes.take cut)).replay_with true =
        (w, Framing.whole l.payloads cut, .ok ()) ∧
      w.file = encodeFrames (Framing.whole l.payloads cut) ∧
      w.good_len = w.file.length ∧
      (∀ batches : List CleanLog,
        ((Wal.open (run w (appends batches)).1.file).replay_with true).2 =
          (Framing.whole l.payloads cut ++ batches.flatMap CleanLog.payloads, .ok ())) ∧
      ∀ muts : List Mutation, (∀ m ∈ muts, m.ts < 2 ^ 64) →
        commit_record muts ∈ Framing.whole l.payloads cut →
        decode_records (commit_record muts) = muts := by
  refine ⟨_, replay_take l cut, rfl, rfl, fun batches => ?_, fun muts hts hmem => ?_⟩
  · obtain ⟨hacked, hclean⟩ := acked_appends (w := Wal.open (l.cutAt cut).bytes) rfl batches
    obtain ⟨torn, hinv, _⟩ := run_inv (appends batches) (logInv_open (l.cutAt cut))
    obtain rfl := hinv.clean hclean
    rw [hacked] at hinv
    have hfile : (run (Wal.open (l.cutAt cut).bytes) (appends batches)).1.file =
        CleanLog.bytes ⟨_, hinv.fits⟩ := by
      rw [hinv.file_eq, List.append_nil]
      rfl
    rw [hfile, replay_clean]
    rfl
  · exact decode_records_commit_record ((l.cutAt cut).fits _ hmem) hts

/-- A delete, and a log that ends inside of the frame behind it. -/
def deleteOfA : List Mutation := [{ key := [0x61], value := .tombstone, ts := 7 }]

theorem torn_logs_replay_delete :
    decode_records (commit_record deleteOfA) = deleteOfA := by
  obtain ⟨_, _, _, _, _, hdecode⟩ :=
    torn_logs_replay ⟨[commit_record deleteOfA, [0x00]], by decide⟩ 25
  exact hdecode deleteOfA (by decide) (by decide)

end WalRuns
end StrikeDB
