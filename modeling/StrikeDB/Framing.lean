import StrikeDB.Bytes

/-!
# Checksummed length-prefixed framing

A log is a concatenation of frames `[len][sum payload][payload]`, both header
fields being four little-endian bytes.  The reader takes frames from the front
and stops at the first one that is torn (runs past the end) or fails its
checksum.  Nothing here depends on which checksum is used: the results are
about *truncated* logs, and truncation is caught by the length field alone.

* `scan_stream_append`: intact frames in front are always delivered.
* `scan_torn`: a proper prefix of a frame delivers nothing.
* `scan_of_prefix`: a log cut at any byte delivers a prefix of its payloads.
* `scan_take`: those of the frames that lie wholly before the cut (`whole`).
-/

namespace StrikeDB
namespace Framing

/-- The largest payload length a four-byte length field can hold. -/
def Fits (p : Bytes) : Prop := p.length < 256 ^ 4

instance (p : Bytes) : Decidable (Fits p) := inferInstanceAs (Decidable (_ < _))

/-- The payloads whose frames lie wholly before the cut. -/
def whole : List Bytes → Nat → List Bytes
  | [], _ => []
  | p :: ps, cut => if p.length + 8 ≤ cut then p :: whole ps (cut - (p.length + 8)) else []

theorem whole_prefix (ps : List Bytes) (cut : Nat) : whole ps cut <+: ps := by
  induction ps generalizing cut with
  | nil => exact List.prefix_rfl
  | cons p ps ih =>
      rw [whole]
      split
      · exact (List.prefix_cons_inj p).mpr (ih _)
      · exact List.nil_prefix

section Reader

variable (sum : Bytes → Nat)

/-- One frame: the length, the checksum, the payload. -/
def frame (p : Bytes) : Bytes :=
  leBytes 4 p.length ++ (leBytes 4 (sum p) ++ p)

/-- The frames of a list of payloads, one after the other. -/
def stream (ps : List Bytes) : Bytes :=
  ps.flatMap (frame sum)

/-- The payload of the first frame, if it is intact, and what follows it. -/
def readFrame (raw : Bytes) : Option (Bytes × Bytes) :=
  if 8 ≤ raw.length ∧ 8 + leNat (raw.take 4) ≤ raw.length ∧
      sum ((raw.drop 8).take (leNat (raw.take 4))) = leNat ((raw.drop 4).take 4) then
    some ((raw.drop 8).take (leNat (raw.take 4)), (raw.drop 8).drop (leNat (raw.take 4)))
  else none

/-- The intact frames at the front, and the first byte string that is none. -/
def scanLoop : Nat → Bytes → List Bytes × Bytes
  | 0, raw => ([], raw)
  | fuel + 1, raw =>
      match readFrame sum raw with
      | none => ([], raw)
      | some (p, rest) => (p :: (scanLoop fuel rest).1, (scanLoop fuel rest).2)

/-- The reader; a frame has at least eight bytes, so the length is fuel enough. -/
def scan (raw : Bytes) : List Bytes × Bytes :=
  scanLoop sum raw.length raw

end Reader

variable {sum : Bytes → Nat}

@[simp] theorem stream_nil : stream sum [] = [] := rfl

@[simp] theorem stream_cons (p : Bytes) (ps : List Bytes) :
    stream sum (p :: ps) = frame sum p ++ stream sum ps := by
  simp [stream]

@[simp] theorem stream_append (ps qs : List Bytes) :
    stream sum (ps ++ qs) = stream sum ps ++ stream sum qs := by
  simp [stream]

@[simp] theorem frame_length (p : Bytes) :
    (frame sum p).length = p.length + 8 := by
  simp [frame]
  omega

/-- Nothing is lost where the cut is behind the last frame. -/
theorem whole_of_length_le {ps : List Bytes} {cut : Nat} (h : (stream sum ps).length ≤ cut) :
    whole ps cut = ps := by
  induction ps generalizing cut with
  | nil => rfl
  | cons p ps ih =>
      rw [stream_cons, List.length_append, frame_length] at h
      rw [whole, if_pos (by omega), ih (by omega)]

/-- A frame that was read takes at least its eight header bytes. -/
theorem readFrame_length
    {raw p rest : Bytes}
    (h : readFrame sum raw = some (p, rest)) :
    rest.length + 8 ≤ raw.length := by
  unfold readFrame at h
  split at h
  · rename_i hlen
    simp only [Option.some.injEq, Prod.mk.injEq] at h
    rw [← h.2]
    simp only [List.length_drop]
    omega
  · simp at h

/-- More fuel than bytes changes nothing. -/
theorem scanLoop_fuel
    (raw : Bytes) (fuel fuel' : Nat)
    (h : raw.length ≤ fuel) (h' : raw.length ≤ fuel') :
    scanLoop sum fuel raw = scanLoop sum fuel' raw := by
  induction fuel generalizing raw fuel' with
  | zero =>
      have hnil : raw = [] := List.eq_nil_of_length_eq_zero (by omega)
      subst hnil
      cases fuel' with
      | zero => rfl
      | succ f => simp [scanLoop, readFrame]
  | succ fuel ih =>
      cases fuel' with
      | zero =>
          have hnil : raw = [] := List.eq_nil_of_length_eq_zero (by omega)
          subst hnil
          simp [scanLoop, readFrame]
      | succ fuel' =>
          rw [scanLoop, scanLoop]
          cases hr : readFrame sum raw with
          | none => rfl
          | some pr =>
              obtain ⟨p, rest⟩ := pr
              have := readFrame_length hr
              simp only
              rw [ih rest fuel' (by omega) (by omega)]

/-- Unfolding of the reader by one frame. -/
theorem scan_eq (raw : Bytes) :
    scan sum raw =
      match readFrame sum raw with
      | none => ([], raw)
      | some (p, rest) => (p :: (scan sum rest).1, (scan sum rest).2) := by
  unfold scan
  cases hraw : raw.length with
  | zero =>
      have hnil : raw = [] := List.eq_nil_of_length_eq_zero hraw
      subst hnil
      simp [scanLoop, readFrame]
  | succ n =>
      rw [scanLoop]
      cases hr : readFrame sum raw with
      | none => rfl
      | some pr =>
          obtain ⟨p, rest⟩ := pr
          have := readFrame_length hr
          simp only
          rw [scanLoop_fuel rest n rest.length (by omega) (by omega)]

@[simp] theorem scan_nil : scan sum [] = ([], []) := by
  rfl

/-- A proper prefix of a frame holds no intact frame. -/
theorem readFrame_torn
    {p t : Bytes} (hp : Fits p)
    (hpre : t <+: frame sum p) (hlt : t.length < (frame sum p).length) :
    readFrame sum t = none := by
  unfold readFrame
  rw [if_neg]
  rintro ⟨h8, hrun, _⟩
  have hlen : leNat (t.take 4) = p.length := by
    have htake : t.take 4 = leBytes 4 p.length := by
      rw [List.prefix_iff_eq_take.mp hpre, List.take_take, Nat.min_eq_left (by omega)]
      simp [frame]
    rw [htake, leNat_leBytes 4 _ hp]
  rw [hlen] at hrun
  simp at hlt
  omega

theorem scan_torn
    {p t : Bytes} (hp : Fits p)
    (hpre : t <+: frame sum p) (hlt : t.length < (frame sum p).length) :
    scan sum t = ([], t) := by
  rw [scan_eq, readFrame_torn hp hpre hlt]

/-- A log cut at any byte consists of whole frames and a torn one. -/
theorem prefix_stream
    {ps : List Bytes} {c : Bytes} (hc : c <+: stream sum ps) :
    ∃ n t, c = stream sum (ps.take n) ++ t ∧
      (t = [] ∨ ∃ p ∈ ps, t <+: frame sum p ∧ t.length < (frame sum p).length) := by
  induction ps generalizing c with
  | nil =>
      refine ⟨0, [], ?_, Or.inl rfl⟩
      simpa using hc
  | cons p ps ih =>
      rw [stream_cons] at hc
      by_cases hlt : c.length < (frame sum p).length
      · refine ⟨0, c, by simp, Or.inr ⟨p, by simp, ?_, hlt⟩⟩
        exact List.prefix_of_prefix_length_le hc (List.prefix_append _ _) (by omega)
      · obtain ⟨c', rfl⟩ : frame sum p <+: c :=
          List.prefix_of_prefix_length_le (List.prefix_append _ _) hc (by omega)
        obtain ⟨n, t, hct, ht⟩ := ih ((List.prefix_append_right_inj _).mp hc)
        refine ⟨n + 1, t, by simp [hct], ?_⟩
        rcases ht with h | ⟨q, hq, h⟩
        · exact Or.inl h
        · exact Or.inr ⟨q, List.mem_cons_of_mem _ hq, h⟩

section Stream

variable (hsum : ∀ p, sum p < 256 ^ 4)
include hsum

/-- An intact frame in front is read back, whatever follows it. -/
theorem readFrame_frame_append
    {p : Bytes} (hp : Fits p) (rest : Bytes) :
    readFrame sum (frame sum p ++ rest) = some (p, rest) := by
  have hlen : leNat ((frame sum p ++ rest).take 4) = p.length := by
    have : (frame sum p ++ rest).take 4 = leBytes 4 p.length := by
      simp [frame]
    rw [this, leNat_leBytes 4 _ hp]
  have hcrc : leNat (((frame sum p ++ rest).drop 4).take 4) = sum p := by
    have : ((frame sum p ++ rest).drop 4).take 4 = leBytes 4 (sum p) := by
      simp [frame]
    rw [this, leNat_leBytes 4 _ (hsum p)]
  have hbody : (frame sum p ++ rest).drop 8 = p ++ rest := by
    have h8 : (leBytes 4 p.length ++ leBytes 4 (sum p)).length = 8 := by simp
    have : frame sum p ++ rest =
        (leBytes 4 p.length ++ leBytes 4 (sum p)) ++ (p ++ rest) := by
      simp [frame]
    rw [this, ← h8, List.drop_left]
  unfold readFrame
  rw [hlen, hcrc, hbody]
  simp
  omega

/-- Intact frames in front are delivered, and the reader goes on behind them. -/
theorem scan_stream_append
    {ps : List Bytes} (hps : ∀ p ∈ ps, Fits p) (rest : Bytes) :
    scan sum (stream sum ps ++ rest) =
      (ps ++ (scan sum rest).1, (scan sum rest).2) := by
  induction ps with
  | nil => simp
  | cons p ps ih =>
      rw [stream_cons, List.append_assoc, scan_eq,
        readFrame_frame_append hsum (hps p (by simp))]
      simp only
      rw [ih (fun q hq => hps q (List.mem_cons_of_mem _ hq))]
      simp

/-- A log cut at any byte delivers a prefix of its payloads, and the reader
stops exactly behind the last whole frame. -/
theorem scan_of_prefix
    {ps : List Bytes} (hps : ∀ p ∈ ps, Fits p)
    {c : Bytes} (hc : c <+: stream sum ps) :
    ∃ n, (scan sum c).1 = ps.take n ∧
      c = stream sum (ps.take n) ++ (scan sum c).2 := by
  obtain ⟨n, t, rfl, ht⟩ := prefix_stream hc
  have hscan : scan sum t = ([], t) := by
    rcases ht with rfl | ⟨p, hp, hpre, hlt⟩
    · simp
    · exact scan_torn (hps p hp) hpre hlt
  refine ⟨n, ?_, ?_⟩
  · rw [scan_stream_append hsum (fun p hp => hps p (List.mem_of_mem_take hp)), hscan]
    simp
  · rw [scan_stream_append hsum (fun p hp => hps p (List.mem_of_mem_take hp)), hscan]

/-- A log cut at any byte delivers the payloads of the frames wholly before the
cut, and the reader stops behind the last of them. -/
theorem scan_take
    {ps : List Bytes} (hps : ∀ p ∈ ps, Fits p) (cut : Nat) :
    (scan sum ((stream sum ps).take cut)).1 = whole ps cut ∧
      (stream sum ps).take cut =
        stream sum (whole ps cut) ++ (scan sum ((stream sum ps).take cut)).2 := by
  induction ps generalizing cut with
  | nil => simp [whole]
  | cons p ps ih =>
      have hp : Fits p := hps p (by simp)
      rw [whole, stream_cons]
      by_cases hcut : p.length + 8 ≤ cut
      · obtain ⟨hread, hrest⟩ := ih (fun q hq => hps q (List.mem_cons_of_mem _ hq))
          (cut - (p.length + 8))
        have htake : (frame sum p ++ stream sum ps).take cut =
            frame sum p ++ (stream sum ps).take (cut - (p.length + 8)) := by
          rw [List.take_append, frame_length, List.take_of_length_le]
          rw [frame_length]
          exact hcut
        rw [if_pos hcut, htake, scan_eq, readFrame_frame_append hsum hp]
        refine ⟨congrArg (p :: ·) hread, ?_⟩
        simp only [stream_cons, List.append_assoc]
        rw [← hrest]
      · have hlt : ((frame sum p ++ stream sum ps).take cut).length < (frame sum p).length := by
          rw [List.length_take, frame_length]
          omega
        have hpre : (frame sum p ++ stream sum ps).take cut <+: frame sum p :=
          List.prefix_of_prefix_length_le (List.take_prefix _ _) (List.prefix_append _ _) hlt.le
        rw [if_neg hcut, scan_torn hp hpre hlt]
        exact ⟨rfl, rfl⟩

/-- Whole frames are read back exactly. -/
theorem scan_stream
    {ps : List Bytes} (hps : ∀ p ∈ ps, Fits p) :
    scan sum (stream sum ps) = (ps, []) := by
  have h := scan_stream_append hsum hps []
  simpa using h

end Stream

end Framing
end StrikeDB
