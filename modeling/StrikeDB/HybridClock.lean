import Mathlib.Data.List.Pairwise
import Mathlib.Tactic

/-!
# StrikeDB: the hybrid logical clock

A timestamp is a time in milliseconds and a counter of 32 bits.  `now` takes the time of
day when that has advanced and counts otherwise; `update` also takes what another node
sent.  The counter is added to with the wrapping arithmetic of a release build.

**Results.**
* `step_lt`, `step_overflows`: what is returned is above the clock and the remote timestamp,
  unless the counter that is added to is at its end.
* `monotone_iff`: a run returns ever greater timestamps exactly when no call of it adds to
  a counter at its end.
-/

namespace StrikeDB
namespace Hlc

structure Timestamp where
  physical : UInt64
  logical : UInt32
deriving DecidableEq, Repr

namespace Timestamp

/-- The derived order: by the time, then by the counter. -/
def lt (a b : Timestamp) : Prop :=
  a.physical < b.physical ∨ a.physical = b.physical ∧ a.logical < b.logical

instance : LT Timestamp := ⟨lt⟩

instance (a b : Timestamp) : Decidable (a < b) := inferInstanceAs (Decidable (_ ∨ _))

end Timestamp

/-- The timestamp of a clock that was never used. -/
def new : Timestamp := { physical := 0, logical := 0 }

/-- A local event, at the time of day `pt`. -/
def now (s : Timestamp) (pt : UInt64) : Timestamp :=
  if pt > s.physical then { physical := pt, logical := 0 }
  else { s with logical := s.logical + 1 }

/-- Merge a timestamp of another node, at the time of day `pt`. -/
def update (s : Timestamp) (pt : UInt64) (remote : Timestamp) : Timestamp :=
  let max_p := max (max pt s.physical) remote.physical
  { physical := max_p
    logical :=
      if max_p = s.physical ∧ max_p = remote.physical then max s.logical remote.logical + 1
      else if max_p = s.physical then s.logical + 1
      else if max_p = remote.physical then remote.logical + 1
      else 0 }

/-! ## Calls -/

inductive Call where
  | now (pt : UInt64)
  | update (pt : UInt64) (remote : Timestamp)

/-- The state after a call is what the call returns. -/
def step (s : Timestamp) : Call → Timestamp
  | .now pt => Hlc.now s pt
  | .update pt remote => Hlc.update s pt remote

/-- The counter that a call adds to, if it does. -/
def counted (s : Timestamp) : Call → Option UInt32
  | .now pt => if pt > s.physical then none else some s.logical
  | .update pt remote =>
      let max_p := max (max pt s.physical) remote.physical
      if max_p = s.physical ∧ max_p = remote.physical then some (max s.logical remote.logical)
      else if max_p = s.physical then some s.logical
      else if max_p = remote.physical then some remote.logical
      else none

/-- The call adds to a counter at its end. -/
def Overflows (s : Timestamp) (c : Call) : Prop := counted s c = some 0xFFFFFFFF

instance (s : Timestamp) (c : Call) : Decidable (Overflows s c) :=
  inferInstanceAs (Decidable (_ = _))

/-- What `update` received. -/
def Call.remote : Call → Option Timestamp
  | .now _ => none
  | .update _ remote => some remote

/-- What a run of calls returns. -/
def run : Timestamp → List Call → List Timestamp
  | _, [] => []
  | s, c :: calls => step s c :: run (step s c) calls

/-- The calls of a run, each with the clock before it. -/
def calledAt : Timestamp → List Call → List (Timestamp × Call)
  | _, [] => []
  | s, c :: calls => (s, c) :: calledAt (step s c) calls

/-- The clock of a run keeps its promises. -/
structure Monotone (s : Timestamp) (calls : List Call) : Prop where
  /-- Each timestamp is above every one returned before. -/
  increasing : (run s calls).Pairwise (· < ·)
  above_remote : ∀ e ∈ calledAt s calls, ∀ r, e.2.remote = some r → r < step e.1 e.2
  /-- What is added to is one more afterwards. -/
  no_wrap : ∀ e ∈ calledAt s calls, ∀ n, counted e.1 e.2 = some n →
    (step e.1 e.2).logical.toNat = n.toNat + 1

/-! ## One call -/

theorem lt_iff (a b : Timestamp) :
    a < b ↔ a.physical.toNat < b.physical.toNat ∨
      a.physical.toNat = b.physical.toNat ∧ a.logical.toNat < b.logical.toNat := by
  change (_ ∨ _) ↔ _
  rw [UInt64.lt_iff_toNat_lt, UInt32.lt_iff_toNat_lt, UInt64.toNat_inj]

theorem lt_trans {a b c : Timestamp} (hab : a < b) (hbc : b < c) : a < c := by
  rw [lt_iff] at *
  omega

instance : IsTrans Timestamp (· < ·) := ⟨fun _ _ _ => lt_trans⟩

theorem toNat_succ (n : UInt32) (h : n ≠ 0xFFFFFFFF) : (n + 1).toNat = n.toNat + 1 := by
  have hne : n.toNat ≠ 4294967295 := fun hn => h (UInt32.toNat_inj.mp hn)
  have hlt : n.toNat < 4294967296 := n.toNat_lt
  rw [UInt32.toNat_add]
  simp only [UInt32.reduceToNat]
  omega

theorem toNat_max64 (a b : UInt64) : (max a b).toNat = max a.toNat b.toNat := by
  rw [show max a b = if a ≤ b then b else a from rfl]
  split
  · rename_i h
    rw [UInt64.le_iff_toNat_le] at h
    omega
  · rename_i h
    rw [UInt64.le_iff_toNat_le] at h
    omega

theorem toNat_max32 (a b : UInt32) : (max a b).toNat = max a.toNat b.toNat := by
  rw [show max a b = if a ≤ b then b else a from rfl]
  split
  · rename_i h
    rw [UInt32.le_iff_toNat_le] at h
    omega
  · rename_i h
    rw [UInt32.le_iff_toNat_le] at h
    omega

/-- What is returned has the counter after the one that is added to, or zero. -/
theorem step_logical (s : Timestamp) (c : Call) :
    (step s c).logical = ((counted s c).map (· + 1)).getD 0 := by
  cases c with
  | now pt =>
      simp only [step, now, counted]
      split <;> rfl
  | update pt remote =>
      simp only [step, update, counted]
      split_ifs <;> rfl

/-- What a call can do: its time is not before that of the clock or the remote timestamp,
and it adds to the greatest counter among those of its time. -/
structure Merged (s : Timestamp) (c : Call) (p : UInt64) : Prop where
  clock : s.physical.toNat ≤ p.toNat
  remote : ∀ r, c.remote = some r → r.physical.toNat ≤ p.toNat
  clock_counted : p = s.physical → ∃ n, counted s c = some n ∧ s.logical.toNat ≤ n.toNat
  remote_counted : ∀ r, c.remote = some r → p = r.physical →
    ∃ n, counted s c = some n ∧ r.logical.toNat ≤ n.toNat
  source : ∀ n, counted s c = some n →
    p = s.physical ∧ n = s.logical ∨ ∃ r, c.remote = some r ∧ p = r.physical ∧ n = r.logical

theorem step_merged (s : Timestamp) (c : Call) : Merged s c (step s c).physical := by
  cases c with
  | now pt =>
      by_cases hpt : pt > s.physical
      · have hstep : (step s (.now pt)).physical = pt := by rw [step, now, if_pos hpt]
        have hlt := UInt64.lt_iff_toNat_lt.mp hpt
        rw [hstep]
        refine ⟨Nat.le_of_lt hlt, nofun, ?_, nofun, ?_⟩
        · rintro rfl
          omega
        · intro n hn
          rw [counted, if_pos hpt] at hn
          cases hn
      · have hstep : (step s (.now pt)).physical = s.physical := by rw [step, now, if_neg hpt]
        have hcount : counted s (.now pt) = some s.logical := if_neg hpt
        rw [hstep]
        refine ⟨Nat.le_refl _, nofun, fun _ => ⟨_, hcount, Nat.le_refl _⟩, nofun, ?_⟩
        intro n hn
        exact Or.inl ⟨rfl, (Option.some.inj (hcount.symm.trans hn)).symm⟩
  | update pt remote =>
      have hmax := toNat_max64 (max pt s.physical) remote.physical
      have hinner := toNat_max64 pt s.physical
      have hlogical := toNat_max32 s.logical remote.logical
      change Merged s (.update pt remote) (max (max pt s.physical) remote.physical)
      refine ⟨by omega, ?_, ?_, ?_, ?_⟩
      · rintro r ⟨⟩
        omega
      · intro hs
        by_cases hr : max (max pt s.physical) remote.physical = remote.physical
        · exact ⟨_, if_pos ⟨hs, hr⟩, by omega⟩
        · refine ⟨s.logical, ?_, Nat.le_refl _⟩
          rw [counted, if_neg fun h => hr h.2, if_pos hs]
      · rintro r ⟨⟩ hr
        by_cases hs : max (max pt s.physical) remote.physical = s.physical
        · exact ⟨_, if_pos ⟨hs, hr⟩, by omega⟩
        · refine ⟨remote.logical, ?_, Nat.le_refl _⟩
          rw [counted, if_neg fun h => hs h.1, if_neg hs, if_pos hr]
      · intro n hn
        simp only [counted] at hn
        split at hn
        · rename_i h
          cases hn
          have hor : max s.logical remote.logical = remote.logical ∨
              max s.logical remote.logical = s.logical := ite_eq_or_eq ..
          rcases hor with hremote | hclock
          · exact Or.inr ⟨remote, rfl, h.2, hremote⟩
          · exact Or.inl ⟨h.1, hclock⟩
        · split at hn
          · rename_i hs
            cases hn
            exact Or.inl ⟨hs, rfl⟩
          · split at hn
            · rename_i hr
              cases hn
              exact Or.inr ⟨remote, rfl, hr, rfl⟩
            · cases hn

/-- A timestamp whose counter is added to, if its time is the one returned, is passed. -/
theorem lt_of_counted {t s : Timestamp} {c : Call} (h : ¬ Overflows s c)
    (hle : t.physical.toNat ≤ (step s c).physical.toNat)
    (hcount : (step s c).physical = t.physical → ∃ n, counted s c = some n ∧ t.logical.toNat ≤ n.toNat) :
    t < step s c := by
  rw [lt_iff]
  rcases Nat.lt_or_eq_of_le hle with hlt | heq
  · exact Or.inl hlt
  · obtain ⟨n, hn, hbound⟩ := hcount (UInt64.toNat_inj.mp heq.symm)
    have hsucc := toNat_succ n fun hmax => h (hn.trans (congrArg some hmax))
    have hlogical := step_logical s c
    rw [hn] at hlogical
    change (step s c).logical = n + 1 at hlogical
    refine Or.inr ⟨heq, ?_⟩
    rw [hlogical]
    omega

/-- A call that does not overflow returns more than the clock and the remote timestamp. -/
theorem step_lt {s : Timestamp} {c : Call} (h : ¬ Overflows s c) :
    s < step s c ∧ ∀ r, c.remote = some r → r < step s c := by
  have hm := step_merged s c
  exact ⟨lt_of_counted h hm.clock hm.clock_counted,
    fun r hr => lt_of_counted h (hm.remote r hr) (hm.remote_counted r hr)⟩

/-- A call that overflows does not pass the timestamp whose counter it adds to. -/
theorem step_overflows {s : Timestamp} {c : Call} (h : Overflows s c) :
    s.logical = 0xFFFFFFFF ∧ ¬ s < step s c ∨ ∃ r, c.remote = some r ∧ ¬ r < step s c := by
  have hlogical := step_logical s c
  unfold Overflows at h
  rw [h] at hlogical
  change (step s c).logical = 0 at hlogical
  have hzero : (step s c).logical.toNat = 0 := by
    rw [hlogical]
    rfl
  rcases (step_merged s c).source _ h with ⟨hp, hn⟩ | ⟨r, hr, hp, hn⟩
  · refine Or.inl ⟨hn.symm, ?_⟩
    rw [lt_iff, hp]
    omega
  · refine Or.inr ⟨r, hr, ?_⟩
    rw [lt_iff, hp]
    omega

/-! ## Runs -/

/-- From a clock that was returned before. -/
theorem chain_iff (s : Timestamp) (calls : List Call) :
    ((s :: run s calls).IsChain (· < ·) ∧
        ∀ e ∈ calledAt s calls, ∀ r, e.2.remote = some r → r < step e.1 e.2) ↔
      ∀ e ∈ calledAt s calls, ¬ Overflows e.1 e.2 := by
  induction calls generalizing s with
  | nil => simp [run, calledAt]
  | cons c calls ih =>
      rw [run, calledAt, List.isChain_cons_cons, List.forall_mem_cons, List.forall_mem_cons,
        ← ih (step s c)]
      constructor
      · rintro ⟨⟨hlt, hrest⟩, hremote, hremotes⟩
        refine ⟨fun hover => ?_, hrest, hremotes⟩
        rcases step_overflows hover with ⟨_, hnot⟩ | ⟨r, hr, hnot⟩
        · exact hnot hlt
        · exact hnot (hremote r hr)
      · rintro ⟨hfits, hrest, hremotes⟩
        obtain ⟨hlt, hremote⟩ := step_lt hfits
        exact ⟨⟨hlt, hrest⟩, hremote, hremotes⟩

/-- The order of what is returned alone says whether a call overflows. -/
theorem increasing_iff (calls : List Call) :
    ((run new calls).Pairwise (· < ·) ∧
        ∀ e ∈ calledAt new calls, ∀ r, e.2.remote = some r → r < step e.1 e.2) ↔
      ∀ e ∈ calledAt new calls, ¬ Overflows e.1 e.2 := by
  cases calls with
  | nil => simp [run, calledAt]
  | cons c calls =>
      rw [run, calledAt, List.forall_mem_cons, List.forall_mem_cons, ← chain_iff,
        List.isChain_iff_pairwise]
      constructor
      · rintro ⟨hrun, hremote, hremotes⟩
        refine ⟨fun hover => ?_, hrun, hremotes⟩
        rcases step_overflows hover with ⟨hzero, _⟩ | ⟨r, hr, hnot⟩
        · cases hzero
        · exact hnot (hremote r hr)
      · rintro ⟨hfits, hrun, hremotes⟩
        exact ⟨hrun, (step_lt hfits).2, hremotes⟩

theorem no_wrap_of_fits {s : Timestamp} {c : Call} (h : ¬ Overflows s c) {n : UInt32}
    (hn : counted s c = some n) : (step s c).logical.toNat = n.toNat + 1 := by
  rw [step_logical, hn]
  exact toNat_succ n fun hmax => h (hn.trans (congrArg some hmax))

/-- A clock keeps its promises exactly as long as no call adds to a counter at its end. -/
theorem monotone_iff (calls : List Call) :
    Monotone new calls ↔ ∀ e ∈ calledAt new calls, ¬ Overflows e.1 e.2 := by
  constructor
  · intro h
    exact (increasing_iff calls).mp ⟨h.increasing, h.above_remote⟩
  · intro h
    obtain ⟨hincreasing, hremote⟩ := (increasing_iff calls).mpr h
    exact ⟨hincreasing, hremote, fun e he n hn => no_wrap_of_fits (h e he) hn⟩

/-- Another node sends a counter at its end. -/
theorem hostile_remote :
    ¬ Monotone new [.update 0 { physical := 5, logical := 0xFFFFFFFF }] := by
  intro h
  have hpassed := h.above_remote (new, .update 0 { physical := 5, logical := 0xFFFFFFFF })
    (by simp [calledAt]) { physical := 5, logical := 0xFFFFFFFF } rfl
  revert hpassed
  decide

end Hlc
end StrikeDB
