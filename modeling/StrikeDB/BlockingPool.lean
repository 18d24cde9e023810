import StrikeDB.Runs
import Mathlib.Data.List.Basic
import Mathlib.Data.List.Range

/-!
# StrikeDB: the blocking pool

Batches that must wait run on a pool of threads.  A submission starts a thread only when
the threads that are idle do not suffice, and `idle` counts every thread that has not come
back from its wait: those asleep, those notified and those about to time out.  The threads
take turns under one lock; between its turns a thread runs a job, sleeps, or is on its way
to the lock.  A job may run for ever.

**Results.**

* `Inv.step`: what one step of one thread preserves.
* `Inv.drains`: where enough threads are on their way, their next turns empty the queue.
* `pool_never_strands`: after every run the queued jobs have enough threads on their way,
  or the pool is at its maximum with no thread asleep; every job submitted is queued or was
  taken once, and both counters are exact.
-/

namespace StrikeDB
namespace BlockingPool

/-! ## The queue and its turns -/

/-- Jobs are numbered in the order of their submission. -/
structure PoolQ where
  jobs : List Nat
  idle : Nat
  threads : Nat
deriving DecidableEq

/-- Where a thread of the pool is. -/
inductive Phase where
  /-- Spawned, and not yet at the lock. -/
  | starting
  | running (job : Nat)
  /-- Done with a job, and on its way to the lock. -/
  | free
  /-- In `wait_timeout`, not notified. -/
  | asleep
  /-- Notified or timed out, and on its way to the lock. -/
  | waking
  /-- Returned from `work`. -/
  | retired
deriving DecidableEq

namespace Phase

/-- On its way to the lock, where it takes a job if there is one. -/
def arriving : Phase → Bool
  | starting => true
  | free => true
  | waking => true
  | _ => false

def sleeping : Phase → Bool
  | asleep => true
  | _ => false

/-- Woken, and not yet back from the wait. -/
def woken : Phase → Bool
  | waking => true
  | _ => false

/-- Counted by `idle`. -/
def waiting : Phase → Bool
  | asleep => true
  | waking => true
  | _ => false

def live : Phase → Bool
  | retired => false
  | _ => true

theorem of_arriving {a : Phase} (h : a.arriving = true) :
    a.sleeping = false ∧ a.live = true ∧ a.waiting = a.woken := by
  cases a with
  | starting => exact ⟨rfl, rfl, rfl⟩
  | free => exact ⟨rfl, rfl, rfl⟩
  | waking => exact ⟨rfl, rfl, rfl⟩
  | running => cases h
  | asleep => cases h
  | retired => cases h

end Phase

/-- What a submission does beside queueing. -/
inductive Signal where
  | notify_one
  | spawn
  /-- Queued: the next free thread takes it. -/
  | queued
deriving DecidableEq

namespace PoolQ

/-- `Pool::submit`, under the lock. -/
def submit (max : Nat) (q : PoolQ) (job : Nat) : PoolQ × Signal :=
  let q := { q with jobs := q.jobs ++ [job] }
  if q.idle > q.jobs.length - 1 then (q, .notify_one)
  else if q.threads < max then ({ q with threads := q.threads + 1 }, .spawn)
  else (q, .queued)

/-- The loop of `Pool::work` from the lock up to a job or to the wait. -/
def turn (q : PoolQ) : PoolQ × Phase :=
  match q.jobs with
  | job :: jobs => ({ q with jobs := jobs }, .running job)
  | [] => ({ q with idle := q.idle + 1 }, .asleep)

/-- The loop of `Pool::work` from the return of `wait_timeout`. -/
def woken (q : PoolQ) (timed_out : Bool) : PoolQ × Phase :=
  let q := { q with idle := q.idle - 1 }
  if timed_out && q.jobs.isEmpty then ({ q with threads := q.threads - 1 }, .retired)
  else q.turn

/-- Jobs are waiting for a free thread. -/
def backlogged (q : PoolQ) : Bool := !q.jobs.isEmpty

end PoolQ

/-! ## The threads together -/

structure State where
  q : PoolQ
  /-- The threads in the order they were spawned. -/
  workers : List Phase
  /-- The number of jobs submitted. -/
  submitted : Nat
  /-- Each job taken, with the thread that took it. -/
  taken : List (Nat × Nat)
deriving DecidableEq

inductive Act where
  /-- A submission; where it notifies, `target` is woken if it is asleep. -/
  | submit (target : Nat)
  /-- A thread that was spawned or has done its job locks and goes on. -/
  | enter (w : Nat)
  /-- A job ends. -/
  | finish (w : Nat)
  /-- A wait ends without a notification: the time is up, or for no reason. -/
  | wake (w : Nat)
  /-- A thread back from its wait locks and goes on. -/
  | reenter (w : Nat) (timed_out : Bool)
deriving DecidableEq

namespace State

def new : State :=
  { q := { jobs := [], idle := 0, threads := 0 }, workers := [], submitted := 0, taken := [] }

/-- `Condvar::notify_one`: one of the threads asleep, if any, is woken. -/
def notify_one (s : State) (target : Nat) : Option State :=
  if .asleep ∈ s.workers then
    if s.workers[target]? = some .asleep then
      some { s with workers := s.workers.set target .waking }
    else none
  else some s

/-- What thread `w` does in its turn. -/
def takeTurn (s : State) (w : Nat) (r : PoolQ × Phase) : State :=
  { s with
    q := r.1
    workers := s.workers.set w r.2
    taken :=
      match r.2 with
      | .running job => s.taken ++ [(job, w)]
      | _ => s.taken }

end State

/-- One step of one thread. -/
def step (max : Nat) (s : State) : Act → Option State
  | .submit target =>
      let r := s.q.submit max s.submitted
      let t := { s with q := r.1, submitted := s.submitted + 1 }
      match r.2 with
      | .notify_one => t.notify_one target
      | .spawn => some { t with workers := t.workers ++ [.starting] }
      | .queued => some t
  | .enter w =>
      if s.workers[w]? = some .starting ∨ s.workers[w]? = some .free then
        some (s.takeTurn w s.q.turn)
      else none
  | .finish w =>
      match s.workers[w]? with
      | some (.running _) => some { s with workers := s.workers.set w .free }
      | _ => none
  | .wake w =>
      if s.workers[w]? = some .asleep then
        some { s with workers := s.workers.set w .waking }
      else none
  | .reenter w timed_out =>
      if s.workers[w]? = some .waking then
        some (s.takeTurn w (s.q.woken timed_out))
      else none

/-! ## What holds between the turns -/

namespace State

variable (s : State)

def asleep : Nat := s.workers.countP Phase.sleeping

def waking : Nat := s.workers.countP Phase.woken

def arriving : Nat := s.workers.countP Phase.arriving

def waiting : Nat := s.workers.countP Phase.waiting

def live : Nat := s.workers.countP Phase.live

end State

/-- The invariant of the pool. -/
structure Inv (max : Nat) (s : State) : Prop where
  idle : s.q.idle = s.waiting
  threads : s.q.threads = s.live
  bound : s.q.threads ≤ max
  /-- While a thread sleeps, those woken suffice for the queue. -/
  woken : 0 < s.asleep → s.q.jobs.length ≤ s.waking
  enough : s.q.jobs.length ≤ s.arriving ∨ s.q.threads = max ∧ s.asleep = 0
  /-- The jobs submitted, in order: those taken, and those queued. -/
  once : s.taken.map Prod.fst ++ s.q.jobs = List.range s.submitted
  holder : ∀ w job, s.workers[w]? = some (.running job) → (job, w) ∈ s.taken

/-! ## Counting threads -/

theorem countP_set_add
    {α : Type} (p : α → Bool) {l : List α} {i : Nat} {a : α} (h : l[i]? = some a) (b : α) :
    (l.set i b).countP p + (p a).toNat = l.countP p + (p b).toNat := by
  induction l generalizing i with
  | nil => simp at h
  | cons c l ih =>
      cases i with
      | zero =>
          obtain rfl : c = a := by simpa using h
          rw [List.set_cons_zero, List.countP_cons, List.countP_cons]
          cases p c <;> cases p b <;> simp
      | succ i =>
          rw [List.getElem?_cons_succ] at h
          have ih := ih h
          rw [List.set_cons_succ, List.countP_cons, List.countP_cons]
          omega

/-- One thread goes from phase `a` to phase `b`. -/
theorem counts_set
    {s : State} {w : Nat} {a : Phase} (h : s.workers[w]? = some a) (b : Phase) (t : State)
    (ht : t.workers = s.workers.set w b) :
    t.asleep + a.sleeping.toNat = s.asleep + b.sleeping.toNat ∧
    t.waking + a.woken.toNat = s.waking + b.woken.toNat ∧
    t.arriving + a.arriving.toNat = s.arriving + b.arriving.toNat ∧
    t.live + a.live.toNat = s.live + b.live.toNat := by
  unfold State.asleep State.waking State.arriving State.live
  rw [ht]
  exact ⟨countP_set_add _ h b, countP_set_add _ h b, countP_set_add _ h b, countP_set_add _ h b⟩

theorem waiting_eq (s : State) : s.waiting = s.asleep + s.waking := by
  unfold State.waiting State.asleep State.waking
  induction s.workers with
  | nil => rfl
  | cons a l ih =>
      rw [List.countP_cons, List.countP_cons, List.countP_cons, ih]
      cases a <;> simp [Phase.waiting, Phase.sleeping, Phase.woken] <;> omega

theorem waking_le_arriving (s : State) : s.waking ≤ s.arriving :=
  List.countP_mono_left fun a _ ha => by
    cases a with
    | waking => rfl
    | _ => cases ha

/-- A thread that changes its phase outside a job leaves the holders of jobs as they are. -/
theorem holder_set
    {s t : State} {w : Nat} {b : Phase}
    (h : ∀ v job, s.workers[v]? = some (.running job) → (job, v) ∈ s.taken)
    (ht : t.workers = s.workers.set w b) (htaken : ∀ e ∈ s.taken, e ∈ t.taken)
    (hb : ∀ job, b = .running job → (job, w) ∈ t.taken) :
    ∀ v job, t.workers[v]? = some (.running job) → (job, v) ∈ t.taken := by
  intro v job hv
  rw [ht, List.getElem?_set] at hv
  by_cases hvw : w = v
  · rw [if_pos hvw] at hv
    split at hv
    · rw [← hvw]
      exact hb job (Option.some.inj hv)
    · cases hv
  · rw [if_neg hvw] at hv
    exact htaken _ (h v job hv)

/-! ## What one step preserves -/

section Steps

variable {max : Nat} {s t : State} {w : Nat} {a : Phase}

/-- A thread on its way finds no job and goes to sleep. -/
theorem Inv.sleep
    (h : Inv max s) (hw : s.workers[w]? = some a) (ha : a.arriving = true)
    (hjobs : s.q.jobs = []) :
    Inv max (s.takeTurn w { s.q with idle := s.q.idle - a.waiting.toNat }.turn) := by
  obtain ⟨t, ht⟩ : ∃ t, t = s.takeTurn w
      { s.q with idle := s.q.idle - a.waiting.toNat }.turn := ⟨_, rfl⟩
  have hq : t.q = { s.q with idle := s.q.idle - a.waiting.toNat + 1 } := by
    rw [ht]
    simp [State.takeTurn, PoolQ.turn, hjobs]
  have hworkers : t.workers = s.workers.set w .asleep := by
    rw [ht]
    simp [State.takeTurn, PoolQ.turn, hjobs]
  have htaken : t.taken = s.taken := by
    rw [ht]
    simp [State.takeTurn, PoolQ.turn, hjobs]
  have hsub : t.submitted = s.submitted := by rw [ht]; rfl
  rw [← ht]
  obtain ⟨hsleeping, hlive, hwaiting⟩ := Phase.of_arriving ha
  obtain ⟨hcs, hcw, -, hcl⟩ := counts_set hw .asleep t hworkers
  rw [hsleeping] at hcs
  rw [hlive] at hcl
  have hidle := h.idle
  have hthreads := h.threads
  have hs := waiting_eq s
  have ht := waiting_eq t
  simp only [Phase.sleeping, Phase.woken, Phase.live, Bool.toNat_true, Bool.toNat_false] at *
  refine
    { idle := ?_, threads := ?_, bound := ?_, woken := ?_, enough := ?_, once := ?_
      holder := holder_set h.holder hworkers (by rw [htaken]; exact fun e he => he)
        fun job hj => by cases hj }
  · rw [hq, hwaiting]
    simp only
    omega
  · rw [hq]
    simp only
    omega
  · rw [hq]
    exact h.bound
  · rw [hq, hjobs]
    exact fun _ => Nat.zero_le _
  · rw [hq, hjobs]
    exact Or.inl (Nat.zero_le _)
  · rw [hq, htaken, hsub]
    exact h.once

/-- A thread on its way takes the first job. -/
theorem Inv.take
    (h : Inv max s) (hw : s.workers[w]? = some a) (ha : a.arriving = true)
    {job : Nat} {jobs : List Nat} (hjobs : s.q.jobs = job :: jobs) :
    Inv max (s.takeTurn w { s.q with idle := s.q.idle - a.waiting.toNat }.turn) := by
  obtain ⟨t, ht⟩ : ∃ t, t = s.takeTurn w
      { s.q with idle := s.q.idle - a.waiting.toNat }.turn := ⟨_, rfl⟩
  have hq : t.q = { s.q with jobs := jobs, idle := s.q.idle - a.waiting.toNat } := by
    rw [ht]
    simp [State.takeTurn, PoolQ.turn, hjobs]
  have hworkers : t.workers = s.workers.set w (.running job) := by
    rw [ht]
    simp [State.takeTurn, PoolQ.turn, hjobs]
  have htaken : t.taken = s.taken ++ [(job, w)] := by
    rw [ht]
    simp [State.takeTurn, PoolQ.turn, hjobs]
  have hsub : t.submitted = s.submitted := by rw [ht]; rfl
  rw [← ht]
  obtain ⟨hsleeping, hlive, hwaiting⟩ := Phase.of_arriving ha
  obtain ⟨hcs, hcw, hca, hcl⟩ := counts_set hw (.running job) t hworkers
  rw [hsleeping] at hcs
  rw [hlive] at hcl
  rw [ha] at hca
  have hidle := h.idle
  have hthreads := h.threads
  have hwoken := h.woken
  have henough := h.enough
  have hs := waiting_eq s
  have ht := waiting_eq t
  have hone : a.woken.toNat ≤ 1 := Bool.toNat_le a.woken
  rw [hjobs, List.length_cons] at hwoken henough
  simp only [Phase.sleeping, Phase.woken, Phase.live, Phase.arriving, Bool.toNat_true,
    Bool.toNat_false] at *
  refine
    { idle := ?_, threads := ?_, bound := ?_, woken := ?_, enough := ?_, once := ?_
      holder := holder_set h.holder hworkers
        (by rw [htaken]; exact fun e he => List.mem_append_left _ he)
        fun j hj => by
          cases hj
          rw [htaken]
          exact List.mem_append_right _ (List.mem_singleton_self _) }
  · rw [hq, hwaiting]
    simp only
    omega
  · rw [hq]
    simp only
    omega
  · rw [hq]
    exact h.bound
  · rw [hq]
    simp only
    omega
  · rw [hq]
    simp only
    omega
  · rw [hq, htaken, hsub, ← h.once, hjobs]
    simp

/-- A thread whose time is up finds no job and returns. -/
theorem Inv.retire
    (h : Inv max s) (hw : s.workers[w]? = some .waking) (hjobs : s.q.jobs = []) :
    Inv max (s.takeTurn w
      ({ s.q with idle := s.q.idle - 1, threads := s.q.threads - 1 }, .retired)) := by
  obtain ⟨hcs, hcw, -, hcl⟩ := counts_set hw .retired (s.takeTurn w
    ({ s.q with idle := s.q.idle - 1, threads := s.q.threads - 1 }, .retired)) rfl
  have hidle := h.idle
  have hthreads := h.threads
  have hbound := h.bound
  have hs := waiting_eq s
  have ht := waiting_eq (s.takeTurn w
    ({ s.q with idle := s.q.idle - 1, threads := s.q.threads - 1 }, .retired))
  simp only [Phase.sleeping, Phase.woken, Phase.live, Bool.toNat_true, Bool.toNat_false] at *
  refine
    { idle := ?_, threads := ?_, bound := ?_, woken := ?_, enough := ?_, once := h.once
      holder := holder_set h.holder rfl (fun e he => he) fun job hj => by cases hj }
  · show s.q.idle - 1 = _
    omega
  · show s.q.threads - 1 = _
    omega
  · show s.q.threads - 1 ≤ max
    omega
  · intro _
    show s.q.jobs.length ≤ _
    rw [hjobs]
    exact Nat.zero_le _
  · refine Or.inl ?_
    show s.q.jobs.length ≤ _
    rw [hjobs]
    exact Nat.zero_le _

/-- A thread takes its turn, where the lock finds it on its way. -/
theorem Inv.turn
    (h : Inv max s) (hw : s.workers[w]? = some a) (ha : a.arriving = true) :
    Inv max (s.takeTurn w { s.q with idle := s.q.idle - a.waiting.toNat }.turn) := by
  cases hjobs : s.q.jobs with
  | nil => exact h.sleep hw ha hjobs
  | cons job jobs => exact h.take hw ha hjobs

/-- A thread sets out for the lock: its wait ends, or its job does. -/
theorem Inv.rouse
    (h : Inv max s) {b : Phase} (hw : s.workers[w]? = some a) (ha : a.arriving = false)
    (hb : b.arriving = true) (hlive : a.live = true) (hwait : a.waiting = b.waiting) :
    Inv max { s with workers := s.workers.set w b } := by
  obtain ⟨t, ht⟩ : ∃ t, t = { s with workers := s.workers.set w b } := ⟨_, rfl⟩
  have hworkers : t.workers = s.workers.set w b := by rw [ht]
  have hq : t.q = s.q := by rw [ht]
  have htaken : t.taken = s.taken := by rw [ht]
  have hsub : t.submitted = s.submitted := by rw [ht]
  rw [← ht]
  obtain ⟨hsleeping, hblive, -⟩ := Phase.of_arriving hb
  obtain ⟨hcs, hcw, hca, hcl⟩ := counts_set hw b t hworkers
  have hcwait : t.waiting + a.waiting.toNat = s.waiting + b.waiting.toNat := by
    unfold State.waiting
    rw [hworkers]
    exact countP_set_add _ hw b
  have hawake : a.woken = false := by
    cases a with
    | waking => cases ha
    | _ => rfl
  rw [hsleeping] at hcs
  rw [hawake] at hcw
  rw [ha, hb] at hca
  rw [hlive, hblive] at hcl
  rw [hwait] at hcwait
  have hidle := h.idle
  have hthreads := h.threads
  have hwoken := h.woken
  have henough := h.enough
  simp only [Bool.toNat_true, Bool.toNat_false] at *
  refine
    { idle := ?_, threads := ?_, bound := ?_, woken := ?_, enough := ?_, once := ?_
      holder := holder_set h.holder hworkers (by rw [htaken]; exact fun e he => he)
        fun job hj => by
          rw [hj] at hb
          cases hb }
  · rw [hq]
    omega
  · rw [hq]
    omega
  · rw [hq]
    exact h.bound
  · rw [hq]
    omega
  · rw [hq]
    omega
  · rw [hq, htaken, hsub]
    exact h.once

/-- A submission notifies: a sleeping thread is woken, or those awake suffice. -/
theorem Inv.notify
    (h : Inv max s) (hidle : s.q.idle > s.q.jobs.length) {target : Nat}
    (hstep : { s with q := { s.q with jobs := s.q.jobs ++ [s.submitted] },
                      submitted := s.submitted + 1 }.notify_one target = some t) :
    Inv max t := by
  have hwait := waiting_eq s
  have hle := waking_le_arriving s
  have hidle' := h.idle
  have hjobs : (s.q.jobs ++ [s.submitted]).length = s.q.jobs.length + 1 := by simp
  have honce : s.taken.map Prod.fst ++ (s.q.jobs ++ [s.submitted]) =
      List.range (s.submitted + 1) := by
    rw [← List.append_assoc, h.once, List.range_succ]
  unfold State.notify_one at hstep
  split at hstep
  · rename_i hasleep
    split at hstep
    · rename_i htarget
      cases hstep
      have htarget : s.workers[target]? = some .asleep := htarget
      have hroused := h.rouse htarget rfl (b := .waking) rfl rfl rfl
      have hpos : 0 < s.asleep := List.countP_pos_iff.mpr ⟨.asleep, hasleep, rfl⟩
      have hold := h.woken hpos
      obtain ⟨-, hcw, -, -⟩ :=
        counts_set htarget .waking { s with workers := s.workers.set target .waking } rfl
      have hle' := waking_le_arriving { s with workers := s.workers.set target .waking }
      simp only [Phase.woken, Bool.toNat_true, Bool.toNat_false] at hcw
      exact
        { idle := hroused.idle, threads := hroused.threads, bound := hroused.bound
          woken := fun _ => by
            show (s.q.jobs ++ [s.submitted]).length ≤
              State.waking { s with workers := s.workers.set target .waking }
            omega
          enough := Or.inl (by
            show (s.q.jobs ++ [s.submitted]).length ≤
              State.arriving { s with workers := s.workers.set target .waking }
            omega)
          once := honce
          holder := hroused.holder }
    · cases hstep
  · rename_i hnone
    cases hstep
    have hzero : s.asleep = 0 := by
      refine List.countP_eq_zero.mpr fun a ha => ?_
      cases a with
      | asleep => exact absurd ha hnone
      | _ => exact Bool.false_ne_true
    exact
      { idle := h.idle, threads := h.threads, bound := h.bound
        woken := fun hpos => absurd hpos (by
          show ¬ 0 < s.asleep
          omega)
        enough := Or.inl (by
          show (s.q.jobs ++ [s.submitted]).length ≤ s.arriving
          omega)
        once := honce
        holder := h.holder }

/-- A submission finds no idle thread to spare: it starts one, unless there are enough. -/
theorem Inv.crowded
    (h : Inv max s) (hidle : ¬ s.q.idle > s.q.jobs.length) : s.asleep = 0 := by
  have hwait := waiting_eq s
  have hidle' := h.idle
  have hwoken := h.woken
  omega

theorem Inv.spawn
    (h : Inv max s) (hidle : ¬ s.q.idle > s.q.jobs.length) (hthreads : s.q.threads < max) :
    Inv max { s with
      q := { s.q with jobs := s.q.jobs ++ [s.submitted], threads := s.q.threads + 1 }
      workers := s.workers ++ [.starting]
      submitted := s.submitted + 1 } := by
  obtain ⟨t, ht⟩ : ∃ t : State, t = { s with
      q := { s.q with jobs := s.q.jobs ++ [s.submitted], threads := s.q.threads + 1 }
      workers := s.workers ++ [.starting]
      submitted := s.submitted + 1 } := ⟨_, rfl⟩
  have hworkers : t.workers = s.workers ++ [.starting] := by rw [ht]
  have hasleep : t.asleep = s.asleep := by simp [State.asleep, hworkers, Phase.sleeping]
  have hwaiting : t.waiting = s.waiting := by simp [State.waiting, hworkers, Phase.waiting]
  have harriving : t.arriving = s.arriving + 1 := by
    simp [State.arriving, hworkers, Phase.arriving]
  have hlive : t.live = s.live + 1 := by simp [State.live, hworkers, Phase.live]
  have hq : t.q = { s.q with jobs := s.q.jobs ++ [s.submitted], threads := s.q.threads + 1 } := by
    rw [ht]
  have htaken : t.taken = s.taken := by rw [ht]
  have hsub : t.submitted = s.submitted + 1 := by rw [ht]
  rw [← ht]
  have hzero := h.crowded hidle
  have henough := h.enough
  refine
    { idle := ?_, threads := ?_, bound := ?_, woken := ?_, enough := Or.inl ?_, once := ?_
      holder := ?_ }
  · rw [hq, hwaiting]
    exact h.idle
  · rw [hq, hlive, ← h.threads]
  · rw [hq]
    exact hthreads
  · intro hpos
    omega
  · rw [hq, harriving, List.length_append, List.length_singleton]
    omega
  · rw [hq, htaken, hsub, List.range_succ, ← h.once, List.append_assoc]
  · intro v job hv
    rw [htaken]
    rw [hworkers] at hv
    refine h.holder v job ?_
    rw [List.getElem?_append] at hv
    split at hv
    · exact hv
    · rw [List.getElem?_singleton] at hv
      split at hv <;> cases hv

/-- All threads there may be are at work: the job is queued. -/
theorem Inv.queue
    (h : Inv max s) (hidle : ¬ s.q.idle > s.q.jobs.length) (hthreads : ¬ s.q.threads < max) :
    Inv max { s with
      q := { s.q with jobs := s.q.jobs ++ [s.submitted] }
      submitted := s.submitted + 1 } := by
  have hzero := h.crowded hidle
  have hbound := h.bound
  refine
    { idle := h.idle, threads := h.threads, bound := h.bound, woken := ?_, enough := ?_
      once := ?_, holder := h.holder }
  · intro hpos
    exact absurd (show 0 < s.asleep from hpos) (by omega)
  · refine Or.inr ⟨?_, hzero⟩
    show s.q.threads = max
    omega
  · show s.taken.map Prod.fst ++ (s.q.jobs ++ [s.submitted]) = List.range (s.submitted + 1)
    rw [← List.append_assoc, h.once, List.range_succ]

theorem Inv.step
    {act : Act} (h : Inv max s) (hstep : step max s act = some t) : Inv max t := by
  cases act with
  | submit target =>
      rw [BlockingPool.step] at hstep
      unfold PoolQ.submit at hstep
      simp only [List.length_append, List.length_singleton, Nat.add_sub_cancel] at hstep
      by_cases hidle : s.q.idle > s.q.jobs.length
      · simp only [hidle, if_true] at hstep
        exact h.notify hidle hstep
      · simp only [hidle, if_false] at hstep
        by_cases hthreads : s.q.threads < max
        · simp only [hthreads, if_true] at hstep
          cases hstep
          exact h.spawn hidle hthreads
        · simp only [hthreads, if_false] at hstep
          cases hstep
          exact h.queue hidle hthreads
  | enter w =>
      rw [BlockingPool.step] at hstep
      split at hstep
      · rename_i hw
        cases hstep
        rcases hw with hw | hw
        · exact h.turn hw rfl
        · exact h.turn hw rfl
      · cases hstep
  | finish w =>
      rw [BlockingPool.step] at hstep
      split at hstep
      · rename_i job hw
        cases hstep
        exact h.rouse hw rfl rfl rfl rfl
      · cases hstep
  | wake w =>
      rw [BlockingPool.step] at hstep
      split at hstep
      · rename_i hw
        cases hstep
        exact h.rouse hw rfl rfl rfl rfl
      · cases hstep
  | reenter w timed_out =>
      rw [BlockingPool.step] at hstep
      split at hstep
      · rename_i hw
        cases hstep
        unfold PoolQ.woken
        by_cases hleave : timed_out && s.q.jobs.isEmpty
        · rw [if_pos hleave]
          rw [Bool.and_eq_true, List.isEmpty_iff] at hleave
          exact h.retire hw hleave.2
        · rw [if_neg hleave]
          exact h.turn hw rfl
      · cases hstep

theorem inv_new (max : Nat) : Inv max State.new :=
  { idle := rfl, threads := rfl, bound := Nat.zero_le max, woken := fun _ => Nat.zero_le _
    enough := Or.inl (Nat.zero_le _), once := rfl
    holder := fun w job hw => by simp [State.new] at hw }

end Steps

/-! ## Every run -/

/-- The turns of the threads that are on their way to the lock. -/
def Act.isTurn : Act → Prop
  | .enter _ => True
  | .reenter _ _ => True
  | _ => False

/-- A thread on its way takes the first job in its next turn. -/
theorem exists_take
    {max : Nat} {s : State} (h : Inv max s) {job : Nat} {jobs : List Nat}
    (hjobs : s.q.jobs = job :: jobs) (hpos : 0 < s.arriving) :
    ∃ act t, Act.isTurn act ∧ step max s act = some t ∧ Inv max t ∧ t.q.jobs = jobs ∧
      t.arriving + 1 = s.arriving := by
  obtain ⟨a, hmem, ha⟩ := List.countP_pos_iff.mp hpos
  obtain ⟨w, hw⟩ := List.mem_iff_getElem?.mp hmem
  have hturn : ∀ q : PoolQ, q.jobs = job :: jobs → (s.takeTurn w q.turn).q.jobs = jobs ∧
      (s.takeTurn w q.turn).arriving + 1 = s.arriving := by
    intro q hq
    have hcounts := (counts_set hw (.running job) (s.takeTurn w q.turn)
      (by simp [State.takeTurn, PoolQ.turn, hq])).2.2.1
    rw [ha] at hcounts
    refine ⟨by simp [State.takeTurn, PoolQ.turn, hq], ?_⟩
    simpa [Phase.arriving] using hcounts
  cases a with
  | starting =>
      have hst : step max s (.enter w) = some (s.takeTurn w s.q.turn) := by
        rw [step, if_pos (Or.inl hw)]
      exact ⟨.enter w, _, trivial, hst, h.step hst, hturn _ hjobs⟩
  | free =>
      have hst : step max s (.enter w) = some (s.takeTurn w s.q.turn) := by
        rw [step, if_pos (Or.inr hw)]
      exact ⟨.enter w, _, trivial, hst, h.step hst, hturn _ hjobs⟩
  | waking =>
      have hst : step max s (.reenter w false) =
          some (s.takeTurn w { s.q with idle := s.q.idle - 1 }.turn) := by
        rw [step, if_pos hw]
        rfl
      exact ⟨.reenter w false, _, trivial, hst, h.step hst, hturn _ hjobs⟩
  | running => cases ha
  | asleep => cases ha
  | retired => cases ha

/-- Where enough threads are on their way, their turns alone empty the queue. -/
theorem Inv.drains
    {max : Nat} {s : State} (h : Inv max s) (henough : s.q.jobs.length ≤ s.arriving) :
    ∃ t, Run (BlockingPool.step max) (fun _ a => Act.isTurn a) s t ∧ t.q.jobs = [] := by
  induction hjobs : s.q.jobs generalizing s with
  | nil => exact ⟨s, .refl s, hjobs⟩
  | cons job jobs ih =>
      rw [hjobs, List.length_cons] at henough
      obtain ⟨act, t, hturn, hst, ht, htjobs, harriving⟩ := exists_take h hjobs (by omega)
      obtain ⟨u, hrun, hu⟩ := ih ht (by rw [htjobs]; omega) htjobs
      exact ⟨u, Run.trans (.tail (.refl s) hturn hst) hrun, hu⟩

/-- In every run of the pool, whatever the order of submissions, notifications, time-outs
and jobs that end or do not: the queued jobs have enough threads on their way to empty the
queue, or there are as many threads as there may be and none of them sleeps; the jobs
submitted are those taken, each once, and those queued; a running job is held by the thread
that took it; and both counters are exact. -/
theorem pool_never_strands
    (max : Nat) {s : State} (hrun : Run (step max) (fun _ _ => True) State.new s) :
    (s.q.jobs.length ≤ s.arriving ∧
        (∃ t, Run (step max) (fun _ a => Act.isTurn a) s t ∧ t.q.jobs = []) ∨
      s.q.threads = max ∧ Phase.asleep ∉ s.workers) ∧
    s.taken.map Prod.fst ++ s.q.jobs = List.range s.submitted ∧
    (∀ w job, s.workers[w]? = some (.running job) → (job, w) ∈ s.taken) ∧
    s.q.idle = s.waiting ∧ s.q.threads = s.live ∧ s.q.threads ≤ max := by
  have h : Inv max s :=
    hrun.invariant (fun _ _ _ hs _ hst => Inv.step hs hst) (inv_new max)
  refine ⟨?_, h.once, h.holder, h.idle, h.threads, h.bound⟩
  rcases h.enough with henough | ⟨hmax, hnone⟩
  · exact Or.inl ⟨henough, h.drains henough⟩
  · refine Or.inr ⟨hmax, fun hmem => ?_⟩
    have hpos : 0 < s.asleep := List.countP_pos_iff.mpr ⟨.asleep, hmem, rfl⟩
    omega

/-- One thread in a job that does not end, and a second job behind it. -/
theorem pool_never_strands_full :
    let s : State :=
      { q := { jobs := [1], idle := 0, threads := 1 }, workers := [.running 0], submitted := 2
        taken := [(0, 0)] }
    (s.q.jobs.length ≤ s.arriving ∧
        (∃ t, Run (step 1) (fun _ a => Act.isTurn a) s t ∧ t.q.jobs = []) ∨
      s.q.threads = 1 ∧ Phase.asleep ∉ s.workers) ∧
    s.taken.map Prod.fst ++ s.q.jobs = List.range s.submitted ∧
    (∀ w job, s.workers[w]? = some (.running job) → (job, w) ∈ s.taken) ∧
    s.q.idle = s.waiting ∧ s.q.threads = s.live ∧ s.q.threads ≤ 1 :=
  pool_never_strands 1
    (Run.of_exec (fun _ _ _ => trivial)
      (show exec (step 1) (fun _ _ => true) State.new [.submit 0, .enter 0, .submit 0] = some _
        from by decide))

end BlockingPool
end StrikeDB
