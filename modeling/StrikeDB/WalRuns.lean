import StrikeDB.Wal

/-!
# StrikeDB: runs of the log under write, rollback and fsync failures

A run is a list of `append_frames` and `sync` calls, each with the outcome of
its system calls.  The invariant is `LogInv`: the file is the frames of the
appends that returned `Ok`, then a torn rest that is empty unless the log is
poisoned.  One step lemma per call carries it, and the results on whole runs
are read off it.
-/

namespace StrikeDB
namespace WalRuns

/-- A log of whole frames, as an empty or freshly replayed file is. -/
structure CleanLog where
  payloads : List Bytes
  fits : ∀ p ∈ payloads, Framing.Fits p

def CleanLog.bytes (l : CleanLog) : Bytes := encodeFrames l.payloads

/-- A call on the log with the outcome of its system calls. -/
inductive WalCall where
  | append (payloads : List Bytes) (io : WriteIo)
  | sync (ok : Bool)
deriving DecidableEq

/-- A call and what it returned. -/
abbrev WalEvent := WalCall × Except IoError Unit

def perform (w : Wal) : WalCall → Wal × Except IoError Unit
  | .append payloads io => w.append_frames payloads io
  | .sync ok => w.sync ok

/-- The log after a sequence of calls, and the trace of their results. -/
def run (w : Wal) : List WalCall → Wal × List WalEvent
  | [] => (w, [])
  | c :: cs =>
      let r := perform w c
      let rest := run r.1 cs
      (rest.1, (c, r.2) :: rest.2)

/-- The payloads of one event, if it is an append that returned `Ok`. -/
def ackedOf : WalEvent → List Bytes
  | (.append ps _, .ok ()) => ps
  | _ => []

/-- The payloads of the appends that returned `Ok`, in order. -/
def acked (trace : List WalEvent) : List Bytes := trace.flatMap ackedOf

/-- A failure that could not be repaired: a write whose rollback failed too, or
a failed `fsync`. -/
def Unrepaired : WalEvent → Prop
  | (.append _ (.short _ false), .error .os) => True
  | (.sync false, .error .os) => True
  | _ => False

/-- `good` are the payloads of the intact prefix and `torn` is the rest. -/
structure LogInv (good : List Bytes) (torn : Bytes) (w : Wal) : Prop where
  file_eq : w.file = encodeFrames good ++ torn
  good_len_eq : w.good_len = (encodeFrames good).length
  fits : ∀ p ∈ good, Framing.Fits p
  clean : w.poisoned = false → torn = []

theorem logInv_open (l : CleanLog) :
    LogInv l.payloads [] (Wal.open l.bytes) where
  file_eq := by simp [Wal.open, CleanLog.bytes]
  good_len_eq := rfl
  fits := l.fits
  clean := fun _ => rfl

/-- A disabled log is left alone, and stays disabled. -/
theorem perform_poisoned
    {w : Wal} (hw : w.poisoned = true) (c : WalCall) :
    perform w c = (w, .error .walDisabled) := by
  cases c <;> simp [perform, Wal.append_frames, Wal.sync, Wal.check_poisoned, hw]

theorem run_poisoned
    {w : Wal} (hw : w.poisoned = true) (cs : List WalCall) :
    run w cs = (w, cs.map fun c => (c, .error .walDisabled)) := by
  induction cs with
  | nil => rfl
  | cons c cs ih => simp [run, perform_poisoned hw, ih]

/-- A call that could not be repaired has disabled the log. -/
theorem poisoned_of_unrepaired
    {w : Wal} {c : WalCall} (h : Unrepaired (c, (perform w c).2)) :
    (perform w c).1.poisoned = true := by
  cases c with
  | append ps io =>
      rw [perform] at h ⊢
      rcases w.append_frames_cases ps io with
        ⟨e, he, heq⟩ | ⟨_, _, heq⟩ | ⟨n, rfl, _, heq⟩ | ⟨n, rfl, _, _, heq⟩ <;>
        rw [heq] at h ⊢
      · cases io <;> cases e <;> simp_all [Unrepaired]
      · cases io <;> simp [Unrepaired] at h
      · simp [Unrepaired] at h
  | sync ok =>
      rw [perform] at h ⊢
      rcases w.sync_cases ok with ⟨hw, heq⟩ | ⟨_, rfl, heq⟩ | ⟨_, rfl, heq⟩ <;>
        rw [heq] at h ⊢
      · exact hw
      · simp [Unrepaired] at h

/-- What an append does to the invariant. -/
theorem append_inv
    {good : List Bytes} {torn : Bytes} {w : Wal} (h : LogInv good torn w)
    (ps : List Bytes) (io : WriteIo) :
    ∃ torn', LogInv (good ++ ackedOf (.append ps io, (w.append_frames ps io).2)) torn'
        (w.append_frames ps io).1 ∧
      (torn' = torn ∨
        ∃ n, io = .short n false ∧ (w.append_frames ps io).2 = .error .os ∧
          (∀ p ∈ ps, Framing.Fits p) ∧ torn' <+: encodeFrames ps) := by
  have hfile : w.poisoned = false → w.file = encodeFrames good := by
    intro hw
    simpa [h.clean hw] using h.file_eq
  rcases w.append_frames_cases ps io with
    ⟨e, _, heq⟩ | ⟨hw, hfits, heq⟩ | ⟨n, rfl, hw, heq⟩ | ⟨n, rfl, hw, hfits, heq⟩ <;>
    rw [heq]
  · refine ⟨torn, ?_, Or.inl rfl⟩
    simpa [ackedOf] using h
  · refine ⟨[], ?_, Or.inl (h.clean hw).symm⟩
    exact
      { file_eq := by simp [hfile hw, ackedOf]
        good_len_eq := by simp [h.good_len_eq, ackedOf]
        fits := by
          intro p hp
          rcases List.mem_append.mp hp with hp | hp
          · exact h.fits p hp
          · exact hfits p hp
        clean := fun _ => rfl }
  · -- the rollback cuts the file exactly behind the good frames
    refine ⟨[], ?_, Or.inl (h.clean hw).symm⟩
    exact
      { file_eq := by simp [hfile hw, h.good_len_eq, set_len, ackedOf]
        good_len_eq := by simp [h.good_len_eq, ackedOf]
        fits := by simpa [ackedOf] using h.fits
        clean := fun _ => rfl }
  · refine ⟨(encodeFrames ps).take n, ?_, Or.inr ⟨n, rfl, rfl, hfits, List.take_prefix _ _⟩⟩
    exact
      { file_eq := by simp [hfile hw, ackedOf]
        good_len_eq := by simp [h.good_len_eq, ackedOf]
        fits := by simpa [ackedOf] using h.fits
        clean := by simp }

/-- `sync` never touches the file. -/
theorem sync_inv
    {good : List Bytes} {torn : Bytes} {w : Wal} (h : LogInv good torn w) (ok : Bool) :
    LogInv good torn (w.sync ok).1 := by
  rcases w.sync_cases ok with ⟨_, heq⟩ | ⟨_, _, heq⟩ | ⟨_, _, heq⟩ <;> rw [heq]
  · exact h
  · exact h
  · exact
      { file_eq := h.file_eq
        good_len_eq := h.good_len_eq
        fits := h.fits
        clean := by simp }

/-- Where a torn rest of the log can come from. -/
def TornBy (trace : List WalEvent) (torn : Bytes) : Prop :=
  ∃ ps n, (WalCall.append ps (.short n false), Except.error IoError.os) ∈ trace ∧
    (∀ p ∈ ps, Framing.Fits p) ∧ torn <+: encodeFrames ps

theorem run_inv
    (cs : List WalCall) {good : List Bytes} {torn : Bytes} {w : Wal}
    (h : LogInv good torn w) :
    ∃ torn', LogInv (good ++ acked (run w cs).2) torn' (run w cs).1 ∧
      (torn' = torn ∨ TornBy (run w cs).2 torn') := by
  induction cs generalizing good torn w with
  | nil =>
      refine ⟨torn, ?_, Or.inl rfl⟩
      simpa [run, acked] using h
  | cons c cs ih =>
      have hstep : ∃ torn', LogInv (good ++ ackedOf (c, (perform w c).2)) torn' (perform w c).1 ∧
          (torn' = torn ∨ TornBy [(c, (perform w c).2)] torn') := by
        cases c with
        | append ps io =>
            obtain ⟨torn', hinv, htorn⟩ := append_inv h ps io
            refine ⟨torn', hinv, ?_⟩
            rcases htorn with htorn | ⟨n, rfl, herr, hfits, hpre⟩
            · exact Or.inl htorn
            · exact Or.inr ⟨ps, n, by simp [perform, herr], hfits, hpre⟩
        | sync ok =>
            refine ⟨torn, ?_, Or.inl rfl⟩
            have hnone : ackedOf (.sync ok, (perform w (.sync ok)).2) = [] := by
              simp [ackedOf]
            rw [hnone, List.append_nil]
            exact sync_inv h ok
      obtain ⟨torn₁, h₁, ht₁⟩ := hstep
      obtain ⟨torn₂, h₂, ht₂⟩ := ih h₁
      refine ⟨torn₂, ?_, ?_⟩
      · simpa [run, acked, List.append_assoc] using h₂
      · rcases ht₂ with rfl | ⟨ps, n, hmem, hfits, hpre⟩
        · rcases ht₁ with ht₁ | ⟨ps, n, hmem, hfits, hpre⟩
          · exact Or.inl ht₁
          · refine Or.inr ⟨ps, n, ?_, hfits, hpre⟩
            rw [List.mem_singleton] at hmem
            simp [run, hmem]
        · exact Or.inr ⟨ps, n, by simp [run, hmem], hfits, hpre⟩

/-- What replay delivers from a log in the invariant. -/
theorem records_of_inv
    {good : List Bytes} {torn : Bytes} {w : Wal} (h : LogInv good torn w) :
    Wal.records w.file = good ++ (Framing.scan Crc.crcNat torn).1 := by
  rw [Wal.records_eq_scan, h.file_eq, encodeFrames,
    Framing.scan_stream_append Crc.crcNat_lt h.fits]

/-- An append behind an unrepaired failure is refused. -/
theorem refused_after_unrepaired
    (cs : List WalCall) (w : Wal) (pre post : List WalEvent) (e : WalEvent)
    (htrace : (run w cs).2 = pre ++ e :: post) (he : Unrepaired e) :
    ∀ e' ∈ post, e'.2 = .error .walDisabled := by
  induction cs generalizing w pre with
  | nil => simp [run] at htrace
  | cons c cs ih =>
      cases pre with
      | nil =>
          simp only [run, List.nil_append, List.cons.injEq] at htrace
          obtain ⟨rfl, rfl⟩ := htrace
          rw [run_poisoned (poisoned_of_unrepaired he)]
          intro e' he'
          obtain ⟨c', _, rfl⟩ := List.mem_map.mp he'
          rfl
      | cons e₀ pre =>
          simp only [run, List.cons_append, List.cons.injEq] at htrace
          exact ih _ pre htrace.2

/-- **Append failures never corrupt the log.**  After any calls on a clean log:
the file up to the recorded good length is exactly the frames of the appends
that returned `Ok`; every call behind an unrepairable failure is refused; and
replay delivers the payloads of those appends and at most whole frames of one
append that reported an error and could not be rolled back. -/
theorem append_failures_keep_log (l : CleanLog) (cs : List WalCall) :
    ((run (Wal.open l.bytes) cs).1.file.take (run (Wal.open l.bytes) cs).1.good_len =
        encodeFrames (l.payloads ++ acked (run (Wal.open l.bytes) cs).2) ∧
      (run (Wal.open l.bytes) cs).1.good_len ≤ (run (Wal.open l.bytes) cs).1.file.length) ∧
    (∀ pre e post, (run (Wal.open l.bytes) cs).2 = pre ++ e :: post → Unrepaired e →
      ∀ e' ∈ post, e'.2 = .error .walDisabled) ∧
    ∃ extra,
      Wal.records (run (Wal.open l.bytes) cs).1.file =
        l.payloads ++ acked (run (Wal.open l.bytes) cs).2 ++ extra ∧
      (extra = [] ∨
        ∃ ps n, (WalCall.append ps (.short n false), Except.error IoError.os) ∈
            (run (Wal.open l.bytes) cs).2 ∧ extra <+: ps) := by
  obtain ⟨torn, hinv, htorn⟩ := run_inv cs (logInv_open l)
  refine ⟨⟨?_, ?_⟩, ?_, (Framing.scan Crc.crcNat torn).1, records_of_inv hinv, ?_⟩
  · rw [hinv.good_len_eq, hinv.file_eq, List.take_left]
  · rw [hinv.good_len_eq, hinv.file_eq, List.length_append]
    omega
  · intro pre e post htrace he
    exact refused_after_unrepaired cs _ pre post e htrace he
  · rcases htorn with rfl | ⟨ps, n, hmem, hfits, hpre⟩
    · left
      simp
    · right
      obtain ⟨m, hscan, _⟩ := Framing.scan_of_prefix Crc.crcNat_lt hfits hpre
      exact ⟨ps, n, hmem, by rw [hscan]; exact List.take_prefix _ _⟩

end WalRuns
end StrikeDB
