import StrikeDB.ReducerVm
import StrikeDB.Serializability

/-!
# StrikeDB: the reducer runtime

Callers invoke named reducer programs.  An invocation passes the circuit breaker of its
name, takes the lock of its shard, runs in a fresh transaction, commits, and is recorded
with the breaker.  A step of `proceed` is what its thread does under one lock or in one
round of the machine, so other clients of the engine, the flusher and other invocations
go on in between.

The breaker is read and written under the mutex `breakers`, in separate moments.  The
`log` of these moments, newest first, and the timestamp `submitted` that a commit
reserved are kept for the statements only.  The bulkhead is an exclusive lock, so its
guard is the stage of the call that holds it.

`proceed_cases` lists what the thread of a call can do.
-/

namespace StrikeDB
namespace Compute

/-- Outcome of a reducer invocation. -/
inductive ReducerResult where
  | ok (fuel_used : Nat) (output : Option Int64)
  | aborted (e : VmError)
  | quarantined
deriving DecidableEq

structure Breaker where
  consecutive_errors : UInt32
  /-- 0 = open, 1 = quarantined. -/
  quarantined : UInt64

/-- FNV-1a hash of the key, mod shard count: the bulkhead of a call. -/
def shard_of (key : Bytes) (n : Nat) : Nat := (fnv1a key).toNat % n

/-- Where the thread of an invocation stands. -/
inductive Stage where
  | entered
  /-- Past the circuit breaker. -/
  | admitted
  /-- Holds the lock of its shard. -/
  | guarded
  | running (vm : Vm) (pc : Nat)
  /-- The program has returned. -/
  | finished (vm : Vm) (output : Option Int64)
  /-- Waits for the answer to its commit. -/
  | committing (vm : Vm) (output : Option Int64)
  /-- `commit` returned Ok. -/
  | succeeded (vm : Vm) (output : Option Int64)
  /-- `commit` returned an error. -/
  | refused
  /-- The program ended with an error. -/
  | failed (e : VmError)
  /-- The error is recorded, the transaction is still there. -/
  | unwinding (e : VmError)
  | returned (r : ReducerResult)
  | crashed

namespace Stage

/-- Is the lock of the shard held? -/
def holds : Stage → Bool
  | entered | admitted | returned _ => false
  | _ => true

/-- Does the outcome still depend on what the transaction has read? -/
def reads : Stage → Bool
  | running _ _ | finished _ _ | committing _ _ => true
  | _ => false

end Stage

structure Call where
  id : Nat
  name : String
  shard_key : Bytes
  prog : Program
  stage : Stage
  submitted : Option Nat

/-- The moments of the circuit breakers. -/
inductive Note where
  | checked (id : Nat) (name : String) (refused : Bool)
  | recorded (name : String) (ok : Bool)
  | reenabled (name : String)

structure Runtime (ρ : Type) where
  engine : Engine ρ
  shard_count : Nat
  breakers : String → Option Breaker
  default_fuel : Nat
  error_threshold : UInt32
  calls : List Call
  log : List Note

inductive RuntimeAct (ρ : Type) where
  /-- A step of the engine that is not made for an invocation. -/
  | other (act : Act ρ)
  | invoke (id : Nat) (name : String) (shard_key : Bytes) (prog : Program)
  /-- The next step of the thread of an invocation. -/
  | proceed (id : Nat)
  | reenable (name : String)

section Runtime

variable {ρ : Type}

/-- The transaction that a step of the engine works on. -/
def slotOf : Act ρ → Option Nat
  | .begin_ id | .txnGet id _ | .txnPut id _ _ | .txnCommit id | .txnDrop id => some id
  | _ => none

namespace Runtime

def new (engine : Engine ρ) (shard_count : Nat) : Runtime ρ :=
  { engine := engine, shard_count := max shard_count 1, breakers := fun _ => none
    default_fuel := 100000, error_threshold := 3, calls := [], log := [] }

def call (s : Runtime ρ) (id : Nat) : Option Call := s.calls.find? fun c => c.id = id

def setCall (s : Runtime ρ) (c : Call) : Runtime ρ :=
  { s with calls := s.calls.map fun d => if d.id = c.id then c else d }

/-- `c` goes on to another stage, with the engine as it is then. -/
def toStage (s : Runtime ρ) (c : Call) (e : Engine ρ) (stage : Stage) : Runtime ρ :=
  ({ s with engine := e }).setCall { c with stage := stage }

def setBreaker (s : Runtime ρ) (name : String) (br : Breaker) : Runtime ρ :=
  { s with breakers := Function.update s.breakers name (some br) }

/-- The circuit breaker check of `invoke`. -/
def check (s : Runtime ρ) (c : Call) : Runtime ρ :=
  let br := (s.breakers c.name).getD { consecutive_errors := 0, quarantined := 0 }
  let refused := br.quarantined = 1
  ({ s.setBreaker c.name br with
    log := .checked c.id c.name (decide refused) :: s.log }).setCall
      { c with stage := if refused then .returned .quarantined else .admitted }

def record_success (s : Runtime ρ) (name : String) : Runtime ρ :=
  let s := { s with log := .recorded name true :: s.log }
  match s.breakers name with
  | none => s
  | some br => s.setBreaker name { br with consecutive_errors := 0 }

def record_error (s : Runtime ρ) (name : String) : Runtime ρ :=
  let s := { s with log := .recorded name false :: s.log }
  match s.breakers name with
  | none => s
  | some br =>
      let n := br.consecutive_errors + 1
      s.setBreaker name
        { consecutive_errors := n
          quarantined := if s.error_threshold ≤ n then 1 else br.quarantined }

/-- Manually re-enable a quarantined reducer. -/
def reenable (s : Runtime ρ) (name : String) : Runtime ρ :=
  let s := { s with log := .reenabled name :: s.log }
  match s.breakers name with
  | none => s
  | some _ => s.setBreaker name { consecutive_errors := 0, quarantined := 0 }

def is_quarantined (s : Runtime ρ) (name : String) : Bool :=
  (s.breakers name).any fun br => br.quarantined = 1

/-- Does another invocation hold the lock of this shard? -/
def busyShard (s : Runtime ρ) (c : Call) : Bool :=
  s.calls.any fun d =>
    d.stage.holds && shard_of d.shard_key s.shard_count = shard_of c.shard_key s.shard_count

/-- One round of `vm.run`. -/
def round (s : Runtime ρ) (c : Call) (vm : Vm) (pc : Nat) : Option (Runtime ρ) :=
  match vm.round c.prog pc with
  | .go vm pc => some (s.toStage c s.engine (.running vm pc))
  | .load vm key pc =>
      match s.engine.slot c.id with
      | none => none
      | some t =>
          (s.engine.txnGet c.id key).map fun e =>
            s.toStage c e (.running (vm.push (intOf (t.txn.get s.engine.core key).1)) pc)
  | .store vm key v pc =>
      (s.engine.txnPut c.id key (some (.int v))).map fun e =>
        s.toStage c e (.running vm pc)
  | .halt vm (.ok output) => some (s.toStage c s.engine (.finished vm output))
  | .halt _ (.error e) => some (s.toStage c s.engine (.failed e))
  | .panic => some (s.toStage c s.engine .crashed)

/-- The answer to the commit of a call. -/
def answer (s : Runtime ρ) (c : Call) : Option (Reply ρ) :=
  c.submitted.bind fun ts => (s.engine.replies.find? fun r => r.1 = ts).map Prod.snd

/-- What `invoke` does with the answer. -/
def settled (vm : Vm) (output : Option Int64) : Reply ρ → Stage
  | .ok _ _ => .succeeded vm output
  | _ => .refused

/-- The next step of the thread of `c`. -/
def proceed (s : Runtime ρ) (c : Call) : Option (Runtime ρ) :=
  match c.stage with
  | .entered => some (s.check c)
  | .admitted => if s.busyShard c then none else some (s.toStage c s.engine .guarded)
  | .guarded =>
      (s.engine.begin_ c.id).map fun e => s.toStage c e (.running (Vm.new s.default_fuel) 0)
  | .running vm pc => s.round c vm pc
  | .finished vm output =>
      (s.engine.txnCommit c.id).map fun e =>
        s.toStage { c with submitted := some (s.engine.clock + 1) } e (.committing vm output)
  | .committing vm output =>
      match s.answer c with
      | none => none
      | some rep =>
          (s.engine.txnDrop c.id).map fun e => s.toStage c e (settled vm output rep)
  | .succeeded vm output =>
      some ((s.record_success c.name).toStage c s.engine
        (.returned (.ok vm.fuel_used output)))
  | .refused =>
      some ((s.record_error c.name).toStage c s.engine
        (.returned (.aborted (.trap "commit conflict"))))
  | .failed e => some ((s.record_error c.name).toStage c s.engine (.unwinding e))
  | .unwinding e =>
      (s.engine.txnDrop c.id).map fun e' => s.toStage c e' (.returned (.aborted e))
  | .returned _ | .crashed => none

def step (s : Runtime ρ) : RuntimeAct ρ → Option (Runtime ρ)
  | .other act =>
      if ((slotOf act).bind s.call).isSome then none
      else (s.engine.step act).map fun e => { s with engine := e }
  | .invoke id name shard_key prog =>
      if (s.call id).isSome || (s.engine.slot id).isSome then none
      else
        some { s with
          calls := { id := id, name := name, shard_key := shard_key, prog := prog
                     stage := .entered, submitted := none } :: s.calls }
  | .proceed id => (s.call id).bind s.proceed
  | .reenable name => some (s.reenable name)

/-! ### The steps of a thread, case by case -/

/-- What the thread of `c` can do next. -/
inductive Proceeds (s : Runtime ρ) (c : Call) : Runtime ρ → Prop
  | check (hc : c.stage = .entered) : Proceeds s c (s.check c)
  | lock (hc : c.stage = .admitted) : Proceeds s c (s.toStage c s.engine .guarded)
  | begin_ {e} (hc : c.stage = .guarded) (he : s.engine.begin_ c.id = some e) :
      Proceeds s c (s.toStage c e (.running (Vm.new s.default_fuel) 0))
  | go {vm pc vm' pc'} (hc : c.stage = .running vm pc)
      (hr : vm.round c.prog pc = .go vm' pc') :
      Proceeds s c (s.toStage c s.engine (.running vm' pc'))
  | load {vm pc vm' key pc' t e} (hc : c.stage = .running vm pc)
      (hr : vm.round c.prog pc = .load vm' key pc') (ht : s.engine.slot c.id = some t)
      (he : s.engine.txnGet c.id key = some e) :
      Proceeds s c
        (s.toStage c e (.running (vm'.push (intOf (t.txn.get s.engine.core key).1)) pc'))
  | store {vm pc vm' key v pc' e} (hc : c.stage = .running vm pc)
      (hr : vm.round c.prog pc = .store vm' key v pc')
      (he : s.engine.txnPut c.id key (some (.int v)) = some e) :
      Proceeds s c (s.toStage c e (.running vm' pc'))
  | finish {vm pc vm' output} (hc : c.stage = .running vm pc)
      (hr : vm.round c.prog pc = .halt vm' (.ok output)) :
      Proceeds s c (s.toStage c s.engine (.finished vm' output))
  | fail {vm pc vm' e} (hc : c.stage = .running vm pc)
      (hr : vm.round c.prog pc = .halt vm' (.error e)) :
      Proceeds s c (s.toStage c s.engine (.failed e))
  | crash {vm pc} (hc : c.stage = .running vm pc) (hr : vm.round c.prog pc = .panic) :
      Proceeds s c (s.toStage c s.engine .crashed)
  | commit {vm output e} (hc : c.stage = .finished vm output)
      (he : s.engine.txnCommit c.id = some e) :
      Proceeds s c
        (s.toStage { c with submitted := some (s.engine.clock + 1) } e (.committing vm output))
  | settle {vm output rep e} (hc : c.stage = .committing vm output)
      (ha : s.answer c = some rep) (he : s.engine.txnDrop c.id = some e) :
      Proceeds s c (s.toStage c e (settled vm output rep))
  | succeed {vm output} (hc : c.stage = .succeeded vm output) :
      Proceeds s c
        ((s.record_success c.name).toStage c s.engine (.returned (.ok vm.fuel_used output)))
  | refuse (hc : c.stage = .refused) :
      Proceeds s c
        ((s.record_error c.name).toStage c s.engine
          (.returned (.aborted (.trap "commit conflict"))))
  | record {e} (hc : c.stage = .failed e) :
      Proceeds s c ((s.record_error c.name).toStage c s.engine (.unwinding e))
  | unwind {e e'} (hc : c.stage = .unwinding e) (he : s.engine.txnDrop c.id = some e') :
      Proceeds s c (s.toStage c e' (.returned (.aborted e)))

theorem proceeds_of_round
    {s s' : Runtime ρ} {c : Call} {vm : Vm} {pc : Nat} (hc : c.stage = .running vm pc)
    (h : s.round c vm pc = some s') :
    Proceeds s c s' := by
  rw [round] at h
  cases hr : vm.round c.prog pc with
  | go vm' pc' =>
      simp only [hr, Option.some.injEq] at h
      subst h
      exact .go hc hr
  | load vm' key pc' =>
      simp only [hr] at h
      split at h
      · cases h
      · next t ht =>
          obtain ⟨e, he, rfl⟩ := Option.map_eq_some_iff.mp h
          exact .load hc hr ht he
  | store vm' key v pc' =>
      simp only [hr] at h
      obtain ⟨e, he, rfl⟩ := Option.map_eq_some_iff.mp h
      exact .store hc hr he
  | halt vm' result =>
      cases result with
      | ok output =>
          simp only [hr, Option.some.injEq] at h
          subst h
          exact .finish hc hr
      | error e =>
          simp only [hr, Option.some.injEq] at h
          subst h
          exact .fail hc hr
  | panic =>
      simp only [hr, Option.some.injEq] at h
      subst h
      exact .crash hc hr

theorem proceed_cases {s s' : Runtime ρ} {c : Call} (h : s.proceed c = some s') :
    Proceeds s c s' := by
  rw [proceed] at h
  cases hc : c.stage with
  | entered =>
      simp only [hc, Option.some.injEq] at h
      subst h
      exact .check hc
  | admitted =>
      simp only [hc] at h
      split at h
      · cases h
      · cases h
        exact .lock hc
  | guarded =>
      simp only [hc] at h
      obtain ⟨e, he, rfl⟩ := Option.map_eq_some_iff.mp h
      exact .begin_ hc he
  | running vm pc =>
      simp only [hc] at h
      exact proceeds_of_round hc h
  | finished vm output =>
      simp only [hc] at h
      obtain ⟨e, he, rfl⟩ := Option.map_eq_some_iff.mp h
      exact .commit hc he
  | committing vm output =>
      simp only [hc] at h
      split at h
      · cases h
      · next rep ha =>
          obtain ⟨e, he, rfl⟩ := Option.map_eq_some_iff.mp h
          exact .settle hc ha he
  | succeeded vm output =>
      simp only [hc, Option.some.injEq] at h
      subst h
      exact .succeed hc
  | refused =>
      simp only [hc, Option.some.injEq] at h
      subst h
      exact .refuse hc
  | failed e =>
      simp only [hc, Option.some.injEq] at h
      subst h
      exact .record hc
  | unwinding e =>
      simp only [hc] at h
      obtain ⟨e', he, rfl⟩ := Option.map_eq_some_iff.mp h
      exact .unwind hc he
  | returned r => simp only [hc, reduceCtorEq] at h
  | crashed => simp only [hc, reduceCtorEq] at h

end Runtime
end Runtime
end Compute
end StrikeDB
