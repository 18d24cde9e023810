import StrikeDB.EngineLedger
import StrikeDB.ShardViews

/-!
# StrikeDB: where an engine starts

`Opened` is a store as `Engine::open` leaves it, together with the keyspace that
it holds; `Engine.start` is the engine with no thread at work on it.  The
invariants of a running engine hold there.
-/

namespace StrikeDB

section Opening

variable {ρ : Type}

/-- A store as `Engine::open` leaves it, with the keyspace it holds. -/
structure Opened where
  core : FlushCore
  wal : Wal
  keyspace : Keyspace
  placed : core.Placed
  reflects : ∀ k, Reflects (core.chain k) keyspace[k]?
  bound : ∀ (k : Key) (w : Nat × Value), keyspace[k]? = some w → w.1 ≤ core.visible_ts
  clock_lt : core.visible_ts < 2 ^ 64 - 1
  active_empty : core.active = ∅

/-- A store opened on an empty directory. -/
def Opened.fresh : Opened where
  core :=
    { shards := fun _ => ∅, visible_ts := 0, kv_live := 0, active := ∅, graveyard := []
      gc_horizon := 0, last_appended := 0 }
  wal := Wal.open []
  keyspace := ∅
  placed := by intro i k c hc; simp at hc
  reflects := by
    intro k
    simp only [FlushCore.chain, Std.ExtTreeMap.getElem?_empty]
    exact .never
  bound := by intro k w hw; simp at hw
  clock_lt := by decide
  active_empty := rfl

namespace Engine

/-- The engine right after it was opened. -/
def start (o : Opened) (sync_writes : Bool) : Engine ρ :=
  { core := o.core, sync_writes := sync_writes, clock := o.core.visible_ts, wal := o.wal
    write_queue := [], phase := fun _ => .idle, txns := [], pins := [], base := o.keyspace
    history := [], logged := [], replies := [] }

theorem timely_start (o : Opened) (sync_writes : Bool) :
    (start o sync_writes : Engine ρ).Timely where
  alone := Or.inl rfl
  mode := fun _ => rfl
  sorted := List.Pairwise.nil
  fresh := by simp [start, pending, busy, Phase.batch]
  muts_ts := by simp [start, pending, busy, Phase.batch]
  visible_le := le_rfl
  clock_lt := o.clock_lt
  resolved := by simp [start, busy, Phase.job]
  flushLast := List.Pairwise.nil
  wipe_ran := by simp [start, busy, Phase.Wipes]

theorem reflected_start (o : Opened) (sync_writes : Bool) :
    (start o sync_writes : Engine ρ).Reflected where
  chains := o.reflects
  bound := o.bound

theorem shaped_start (o : Opened) (sync_writes : Bool) :
    (start o sync_writes : Engine ρ).Shaped := by
  intro a
  cases a <;> trivial

theorem ledger_start (o : Opened) (sync_writes : Bool) :
    (start o sync_writes : Engine ρ).Ledger where
  sorted := List.Pairwise.nil
  history_le := by simp [start]
  replies_le := by simp [start]
  versions := by
    intro k c hc v hv
    have hk := o.reflects k
    rw [show o.core.chain k = some c from hc] at hk
    obtain ⟨w, hw⟩ := hk.latest_ts
    exact Or.inl ((hk.version_le hv).trans (o.bound k _ hw))
  logged := by simp [start]

/-! ### Runs that execute -/

/-- A test that only ordinary steps pass. -/
def ordinaryStep (s : Engine ρ) : Act ρ → Bool
  | .submit (.flush_all _) => match s.phase .direct with
    | .idle => true
    | _ => false
  | .submit _ | .txnCommit _ => s.sync_writes
  | .drain => s.write_queue.length ≤ 1
  | _ => true

theorem ordinary_of_ordinaryStep
    {s : Engine ρ} {act : Act ρ} (h : s.ordinaryStep act = true) :
    s.Ordinary act := by
  cases act with
  | submit r =>
      cases r with
      | flush_all bak =>
          simp only [ordinaryStep] at h
          split at h
          · next hidle => exact hidle
          · cases h
      | write _ => exact Or.inl h
      | incr _ _ => exact Or.inl h
      | op _ => exact Or.inl h
  | txnCommit id => exact Or.inl h
  | drain =>
      simp only [ordinaryStep, decide_eq_true_eq] at h
      cases hq : s.write_queue with
      | nil => simp [Ordinary, hq, FlushLast]
      | cons pw rest =>
          rw [hq, List.length_cons] at h
          have hrest : rest = [] := List.length_eq_zero_iff.mp (by omega)
          simp [Ordinary, hq, hrest, FlushLast]
  | _ => trivial

/-- The flusher works for `n` steps, and no system call fails. -/
def flusherWorks (n : Nat) : List (Act ρ) :=
  List.replicate n (.work .flusher { write := .done, syncOk := true, filesOk := true })

end Engine
end Opening
end StrikeDB
