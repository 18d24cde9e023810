import StrikeDB.Programs
import StrikeDB.Text
import StrikeDB.Value

/-!
# StrikeDB: the cache debugger

A cache beside the engine, and a read that compares what the cache serves with what the
engine holds.  The read takes the engine's value first and the cached entry after it, and
other threads may write, delete, fill and invalidate between the two.

**Results.**

* `HitInv.step`, `AlarmInv.step`: what one step of any thread preserves.
* `hit_sound`: a value served as fresh was the engine's at some instant of the call.
* `alarm_sound`: a stale hit or a phantom was one at some instant of the call, as long as
  every fill of the key between the two reads finds the engine's value as it was read.
* `refilled_alarm`: a write and its fill between the two reads raise a false alarm.
-/

namespace StrikeDB
namespace Mitm

open Text (natText intText)

/-! ## The debugger -/

inductive Verdict where
  | Hit
  | StaleHit
  | Miss
  | Phantom
deriving DecidableEq

/-- A cached value, and the version of the key when it was cached. -/
structure CacheEntry where
  value : Bytes
  populated_at_ver : UInt64
deriving DecidableEq

/-- One intercepted access. -/
structure Trace where
  seq : UInt64
  op : Bytes
  key : Bytes
  verdict : Verdict
  cached_ver : UInt64
  engine_ver : UInt64
  note : Bytes

/-- What the threads share.  `engine` is what the engine answers at this instant. -/
structure Shared where
  engine : Bytes → Option Value
  cache : Bytes → Option CacheEntry
  /-- Per-key version, bumped after every write the debugger makes. -/
  ver : Bytes → UInt64
  seq : UInt64
  traces : List Trace
  max_traces : Nat

/-- The key of the engine that the debugger guards. -/
def ek (key : Bytes) : Bytes := utf8 "src:" ++ key

/-- The bytes of an engine value. -/
def bytesOf : Option Value → Option Bytes
  | some (.bytes b) => some b
  | some (.int i) => some (intText i.toInt)
  | _ => none

namespace Shared

def engine_value (s : Shared) (key : Bytes) : Option Bytes := bytesOf (s.engine (ek key))

/-- The ring of traces. -/
def record (s : Shared) (t : Trace) : Shared :=
  let traces := s.traces ++ [t]
  { s with traces := traces.drop (traces.length - s.max_traces) }

end Shared

/-! ## Accesses -/

/-- One access to what is shared, under its lock. -/
inductive Call where
  | ver_get (key : Bytes)
  | ver_bump (key : Bytes)
  | engine_get (key : Bytes)
  | engine_put (key : Bytes) (value : Value)
  | engine_delete (key : Bytes)
  | cache_read (key : Bytes)
  | cache_insert (key : Bytes) (entry : CacheEntry)
  | cache_remove (key : Bytes)
  | next_seq
  | record (t : Trace)

def Answer : Call → Type
  | .ver_get _ => UInt64
  | .ver_bump _ => UInt64
  | .engine_get _ => Option Value
  | .engine_put _ _ => Bool
  | .engine_delete _ => Bool
  | .cache_read _ => Option CacheEntry
  | .cache_insert _ _ => Unit
  | .cache_remove _ => Unit
  | .next_seq => UInt64
  | .record _ => Unit

/-- The state after an access, and its answer; a write to the engine may fail. -/
def answer (s : Shared) (ok : Bool) : (c : Call) → Shared × Answer c
  | .ver_get key => (s, s.ver key)
  | .ver_bump key =>
      ({ s with ver := fun k => if k = key then s.ver key + 1 else s.ver k }, s.ver key + 1)
  | .engine_get key => (s, s.engine key)
  | .engine_put key value =>
      if ok then
        ({ s with engine := fun k => if k = key then some value else s.engine k }, true)
      else (s, false)
  | .engine_delete key =>
      if ok then ({ s with engine := fun k => if k = key then none else s.engine k }, true)
      else (s, false)
  | .cache_read key => (s, s.cache key)
  | .cache_insert key entry =>
      ({ s with cache := fun k => if k = key then some entry else s.cache k }, ())
  | .cache_remove key =>
      ({ s with cache := fun k => if k = key then none else s.cache k }, ())
  | .next_seq => ({ s with seq := s.seq + 1 }, s.seq + 1)
  | .record t => (s.record t, ())

abbrev Program := Prog Call Answer

def access (c : Call) : Program (Answer c) := Prog.lift c

/-- `source_set`: the new version, or nothing where the engine fails. -/
def source_set (key value : Bytes) : Program (Option UInt64) := do
  let written : Bool ← access (.engine_put (ek key) (.bytes value))
  if written then
    let nv : UInt64 ← access (.ver_bump key)
    return some nv
  else return none

def source_del (key : Bytes) : Program (Option UInt64) := do
  let written : Bool ← access (.engine_delete (ek key))
  if written then
    let nv : UInt64 ← access (.ver_bump key)
    return some nv
  else return none

def cache_set (key value : Bytes) : Program Unit := do
  let ver ← access (.ver_get key)
  let _ ← access (.cache_insert key { value := value, populated_at_ver := ver })
  let seq ← access .next_seq
  let _ ← access (.record
    { seq := seq, op := utf8 "SET", key := key, verdict := .Hit, cached_ver := ver
      engine_ver := ver, note := utf8 "cache populated" })
  return ()

def cache_invalidate (key : Bytes) : Program Unit := do
  let _ ← access (.cache_remove key)
  let seq ← access .next_seq
  let ev ← access (.ver_get key)
  let _ ← access (.record
    { seq := seq, op := utf8 "INVALIDATE", key := key, verdict := .Miss, cached_ver := 0
      engine_ver := ev, note := utf8 "cache invalidated" })
  return ()

/-! ## One read of the cache -/

/-- What `cache_get` makes of the two values it has read. -/
def judge (engine_ver : UInt64) (engine_val : Option Bytes) (cached : Option CacheEntry) :
    Option Bytes × Verdict × UInt64 × Bytes :=
  match cached, engine_val with
  | none, _ => (none, .Miss, 0, utf8 "not cached")
  | some c, some ev =>
      if c.value = ev then (some c.value, .Hit, c.populated_at_ver, utf8 "fresh")
      else
        (some c.value, .StaleHit, c.populated_at_ver,
          utf8 "STALE: cached v" ++ natText c.populated_at_ver.toNat ++ utf8 " != engine v" ++
            natText engine_ver.toNat ++ utf8 " (" ++ natText c.value.length ++
            utf8 " bytes vs " ++ natText ev.length ++ utf8 " bytes)")
  | some c, none =>
      (some c.value, .Phantom, c.populated_at_ver,
        utf8 "PHANTOM: cached but engine has no value (missed invalidation)")

/-- How far one `cache_get` has come, with its local variables. -/
inductive Getter where
  | start
  | versioned (engine_ver : UInt64)
  | sourced (engine_ver : UInt64) (engine_val : Option Bytes)
  | judged (engine_ver : UInt64) (out : Option Bytes × Verdict × UInt64 × Bytes)
  | numbered (engine_ver : UInt64) (out : Option Bytes × Verdict × UInt64 × Bytes) (seq : UInt64)
  | done (value : Option Bytes) (verdict : Verdict)

/-- What the call returns, once it has judged. -/
def Getter.verdict : Getter → Option (Option Bytes × Verdict)
  | .judged _ out => some (out.1, out.2.1)
  | .numbered _ out _ => some (out.1, out.2.1)
  | .done value verdict => some (value, verdict)
  | _ => none

/-- The next access of `cache_get`. -/
def Getter.step (key : Bytes) (s : Shared) : Getter → Option (Shared × Getter)
  | .start => some (s, .versioned (s.ver key))
  | .versioned v => some (s, .sourced v (s.engine_value key))
  | .sourced v val => some (s, .judged v (judge v val (s.cache key)))
  | .judged v out => some ({ s with seq := s.seq + 1 }, .numbered v out (s.seq + 1))
  | .numbered v out seq =>
      some (s.record
        { seq := seq, op := utf8 "GET", key := key, verdict := out.2.1
          cached_ver := out.2.2.1, engine_ver := v, note := out.2.2.2 }, .done out.1 out.2.1)
  | .done _ _ => none

/-! ## The threads together -/

structure Sys where
  shared : Shared
  getter : Getter
  /-- The other threads, each with what it has still to do: any program at all. -/
  others : List (Program Unit)

inductive Act where
  | getter
  /-- Another thread makes its next access; `ok` is whether a write succeeds. -/
  | other (i : Nat) (ok : Bool)

/-- A system, and every instant of the call so far. -/
structure Watched where
  now : Sys
  seen : List Sys

def Sys.step (key : Bytes) (s : Sys) : Act → Option Sys
  | .getter => (s.getter.step key s.shared).map fun r => { s with shared := r.1, getter := r.2 }
  | .other i ok =>
      match s.others[i]? with
      | some (.call c next) =>
          let r := answer s.shared ok c
          some { s with shared := r.1, others := s.others.set i (next r.2) }
      | _ => none

namespace Watched

def start (shared : Shared) (others : List (Program Unit)) : Watched :=
  let s : Sys := { shared := shared, getter := .start, others := others }
  { now := s, seen := [s] }

def step (key : Bytes) (w : Watched) (a : Act) : Option Watched :=
  (w.now.step key a).map fun s => { now := s, seen := w.seen ++ [s] }

end Watched

/-! ## What the verdicts mean -/

/-- The value cached for the key at an instant. -/
def Sys.cached (s : Sys) (key : Bytes) : Option Bytes := (s.shared.cache key).map CacheEntry.value

def Sys.source (s : Sys) (key : Bytes) : Option Bytes := s.shared.engine_value key

/-- A verdict that holds at an instant. -/
def Verdict.At (key : Bytes) (s : Sys) : Verdict → Prop
  | .Hit => True
  | .Miss => True
  | .StaleHit => ∃ c v, s.cached key = some c ∧ s.source key = some v ∧ c ≠ v
  | .Phantom => s.cached key ≠ none ∧ s.source key = none

/-- Between the two reads, another thread fills the key only where the engine's value is the
one that was read. -/
def FillsCurrent (key : Bytes) (w : Watched) : Act → Prop
  | .getter => True
  | .other i _ =>
      ∀ v val entry next, w.now.getter = .sourced v val →
        w.now.others[i]? = some (.call (.cache_insert key entry) next) →
        w.now.source key = val

/-! ## What one step preserves -/

section Steps

variable {key : Bytes} {w w' : Watched} {a : Act}

/-- What one step of one thread is. -/
theorem step_cases (h : w.step key a = some w') :
    (∃ shared g, a = .getter ∧ w.now.getter.step key w.now.shared = some (shared, g) ∧
      w'.now = { w.now with shared := shared, getter := g } ∧ w'.seen = w.seen ++ [w'.now]) ∨
    (∃ i ok c next, a = .other i ok ∧ w.now.others[i]? = some (.call c next) ∧
      w'.now = { w.now with shared := (answer w.now.shared ok c).1
                            others := w.now.others.set i (next (answer w.now.shared ok c).2) } ∧
      w'.seen = w.seen ++ [w'.now]) := by
  unfold Watched.step at h
  obtain ⟨s, hs, rfl⟩ := Option.map_eq_some_iff.mp h
  cases a with
  | getter =>
      obtain ⟨r, hr, rfl⟩ := Option.map_eq_some_iff.mp hs
      exact Or.inl ⟨r.1, r.2, rfl, hr, rfl, rfl⟩
  | other i ok =>
      unfold Sys.step at hs
      cases hp : w.now.others[i]? with
      | none =>
          simp only [hp] at hs
          cases hs
      | some p =>
          cases p with
          | ret u =>
              simp only [hp] at hs
              cases hs
          | call c next =>
              simp only [hp, Option.some.injEq] at hs
              exact Or.inr ⟨i, ok, c, next, rfl, hp, hs.symm, rfl⟩

/-- An access of another thread leaves the cached entry, removes it, or is a fill. -/
theorem answer_cache (s : Shared) (ok : Bool) (c : Call) (key : Bytes) :
    (answer s ok c).1.cache key = s.cache key ∨ (answer s ok c).1.cache key = none ∨
      ∃ entry, c = .cache_insert key entry ∧ (answer s ok c).1.engine = s.engine := by
  cases c with
  | engine_put k v =>
      refine Or.inl ?_
      unfold answer
      cases ok <;> rfl
  | engine_delete k =>
      refine Or.inl ?_
      unfold answer
      cases ok <;> rfl
  | cache_insert k entry =>
      by_cases hk : key = k
      · exact Or.inr (Or.inr ⟨entry, by rw [hk], rfl⟩)
      · exact Or.inl (if_neg hk)
  | cache_remove k =>
      by_cases hk : key = k
      · exact Or.inr (Or.inl (if_pos hk))
      · exact Or.inl (if_neg hk)
  | _ => exact Or.inl rfl

/-- An instant of the call stays one. -/
theorem seen_mono (h : w.step key a = some w') : ∀ t ∈ w.seen, t ∈ w'.seen := by
  intro t ht
  rcases step_cases h with ⟨_, _, -, -, -, hseen⟩ | ⟨_, _, _, _, -, -, -, hseen⟩
  · rw [hseen]
    exact List.mem_append_left _ ht
  · rw [hseen]
    exact List.mem_append_left _ ht

theorem now_mem (h : w.step key a = some w') : w'.now ∈ w'.seen := by
  rcases step_cases h with ⟨_, _, -, -, -, hseen⟩ | ⟨_, _, _, _, -, -, -, hseen⟩
  · rw [hseen]
    exact List.mem_append_right _ (List.mem_singleton_self _)
  · rw [hseen]
    exact List.mem_append_right _ (List.mem_singleton_self _)

/-! ## Hits -/

/-- The value read from the engine was there at an instant of the call, and so was one served
as fresh. -/
structure HitInv (key : Bytes) (w : Watched) : Prop where
  now_mem : w.now ∈ w.seen
  sourced : ∀ v val, w.now.getter = .sourced v val → ∃ t ∈ w.seen, t.source key = val
  served : ∀ value, w.now.getter.verdict = some (value, .Hit) →
    ∃ t ∈ w.seen, t.source key = value ∧ value ≠ none

/-- A hit serves the value that the engine had. -/
theorem judge_hit {v : UInt64} {val value : Option Bytes} {cached : Option CacheEntry}
    (h : (judge v val cached).1 = value) (hhit : (judge v val cached).2.1 = .Hit) :
    val = value ∧ value ≠ none := by
  unfold judge at h hhit
  cases cached with
  | none => cases hhit
  | some c =>
      cases val with
      | none => cases hhit
      | some ev =>
          simp only at h hhit
          by_cases heq : c.value = ev
          · rw [if_pos heq] at h
            rw [← h, heq]
            exact ⟨rfl, Option.some_ne_none _⟩
          · rw [if_neg heq] at hhit
            cases hhit

/-- What one step of the read does: it takes a value, judges what it has, or goes on with
its verdict. -/
theorem getter_cases
    {s s' : Shared} {g g' : Getter} (h : g.step key s = some (s', g')) :
    (∃ v, g' = .versioned v) ∨
    (∃ v, g' = .sourced v (s.engine_value key) ∧ s' = s) ∨
    (∃ v val, g = .sourced v val ∧ g' = .judged v (judge v val (s.cache key))) ∨
    (g'.verdict = g.verdict ∧ ∀ v val, g' ≠ .sourced v val) := by
  cases g with
  | start =>
      cases h
      exact Or.inl ⟨_, rfl⟩
  | versioned v =>
      cases h
      exact Or.inr (Or.inl ⟨v, rfl, rfl⟩)
  | sourced v val =>
      cases h
      exact Or.inr (Or.inr (Or.inl ⟨v, val, rfl, rfl⟩))
  | judged v out =>
      cases h
      exact Or.inr (Or.inr (Or.inr ⟨rfl, fun _ _ => by simp⟩))
  | numbered v out seq =>
      cases h
      exact Or.inr (Or.inr (Or.inr ⟨rfl, fun _ _ => by simp⟩))
  | done value verdict => cases h

theorem HitInv.step (hi : HitInv key w) (h : w.step key a = some w') : HitInv key w' := by
  have hmem := Mitm.now_mem h
  have hmono := seen_mono h
  rcases step_cases h with ⟨shared, g, -, hg, hnow, -⟩ | ⟨i, ok, c, next, -, -, hnow, -⟩
  · have hgetter : w'.now.getter = g := by rw [hnow]
    refine ⟨hmem, ?_, ?_⟩ <;> rw [hgetter]
    · intro v val hval
      rcases getter_cases hg with ⟨_, hg'⟩ | ⟨_, hg', -⟩ | ⟨_, _, -, hg'⟩ | ⟨-, hne⟩
      · cases hg'.symm.trans hval
      · cases hg'.symm.trans hval
        exact ⟨w.now, hmono _ hi.now_mem, rfl⟩
      · cases hg'.symm.trans hval
      · exact absurd hval (hne v val)
    · intro value hv
      rcases getter_cases hg with ⟨_, rfl⟩ | ⟨_, rfl, -⟩ | ⟨u, val, hstage, rfl⟩ | ⟨hsame, -⟩
      · cases hv
      · cases hv
      · simp only [Getter.verdict, Option.some.injEq, Prod.mk.injEq] at hv
        obtain ⟨t, ht, hs⟩ := hi.sourced u val hstage
        obtain ⟨heq, hne⟩ := judge_hit hv.1 hv.2
        exact ⟨t, hmono t ht, hs.trans heq, hne⟩
      · obtain ⟨t, ht, hs⟩ := hi.served value (hsame ▸ hv)
        exact ⟨t, hmono t ht, hs⟩
  · have hgetter : w'.now.getter = w.now.getter := by rw [hnow]
    refine ⟨hmem, ?_, ?_⟩ <;> rw [hgetter]
    · intro v val hval
      obtain ⟨t, ht, hs⟩ := hi.sourced v val hval
      exact ⟨t, hmono t ht, hs⟩
    · intro value hv
      obtain ⟨t, ht, hs⟩ := hi.served value hv
      exact ⟨t, hmono t ht, hs⟩

/-! ## Alarms -/

/-- While the read has the engine's value and not the cached one, what is cached stood beside
that value at an instant of the call; a verdict held at an instant. -/
structure AlarmInv (key : Bytes) (w : Watched) : Prop where
  now_mem : w.now ∈ w.seen
  beside : ∀ v val, w.now.getter = .sourced v val → ∀ c, w.now.cached key = some c →
    ∃ t ∈ w.seen, t.cached key = some c ∧ t.source key = val
  held : ∀ value verdict, w.now.getter.verdict = some (value, verdict) →
    ∃ t ∈ w.seen, verdict.At key t

/-- A verdict holds at an instant where the two values stood beside each other. -/
theorem judge_at
    {seen : List Sys} {now : Sys} {v : UInt64} {val : Option Bytes} (hnow : now ∈ seen)
    (h : ∀ c, now.cached key = some c →
      ∃ t ∈ seen, t.cached key = some c ∧ t.source key = val) :
    ∃ t ∈ seen, (judge v val (now.shared.cache key)).2.1.At key t := by
  cases hc : now.shared.cache key with
  | none => exact ⟨now, hnow, trivial⟩
  | some c =>
      obtain ⟨t, ht, hcached, hsource⟩ := h c.value (by unfold Sys.cached; rw [hc]; rfl)
      refine ⟨t, ht, ?_⟩
      cases val with
      | none => exact ⟨by rw [hcached]; exact Option.some_ne_none _, hsource⟩
      | some ev =>
          unfold judge
          dsimp only
          by_cases heq : c.value = ev
          · rw [if_pos heq]
            trivial
          · rw [if_neg heq]
            exact ⟨c.value, ev, hcached, hsource, heq⟩

theorem AlarmInv.step
    (hi : AlarmInv key w) (hok : FillsCurrent key w a) (h : w.step key a = some w') :
    AlarmInv key w' := by
  have hmem := Mitm.now_mem h
  have hmono := seen_mono h
  rcases step_cases h with ⟨shared, g, -, hg, hnow, -⟩ | ⟨i, ok, c, next, ha, hi', hnow, -⟩
  · have hgetter : w'.now.getter = g := by rw [hnow]
    refine ⟨hmem, ?_, ?_⟩
    · intro v val hval c hc
      rw [hgetter] at hval
      rcases getter_cases hg with ⟨_, hg'⟩ | ⟨_, hg', hshared⟩ | ⟨_, _, -, hg'⟩ | ⟨-, hne⟩
      · cases hg'.symm.trans hval
      · cases hg'.symm.trans hval
        refine ⟨w'.now, hmem, hc, ?_⟩
        rw [hnow, hshared]
        rfl
      · cases hg'.symm.trans hval
      · exact absurd hval (hne v val)
    · intro value verdict hv
      rw [hgetter] at hv
      rcases getter_cases hg with ⟨_, rfl⟩ | ⟨_, rfl, -⟩ | ⟨u, val, hstage, rfl⟩ | ⟨hsame, -⟩
      · cases hv
      · cases hv
      · simp only [Getter.verdict, Option.some.injEq, Prod.mk.injEq] at hv
        obtain ⟨t, ht, hat⟩ := judge_at (v := u) hi.now_mem (hi.beside u val hstage)
        rw [hv.2] at hat
        exact ⟨t, hmono t ht, hat⟩
      · obtain ⟨t, ht, hat⟩ := hi.held value verdict (hsame ▸ hv)
        exact ⟨t, hmono t ht, hat⟩
  · have hgetter : w'.now.getter = w.now.getter := by rw [hnow]
    refine ⟨hmem, ?_, ?_⟩ <;> rw [hgetter]
    · intro v val hval c' hc
      have hcache : w'.now.cached key =
          ((answer w.now.shared ok c).1.cache key).map CacheEntry.value := by rw [hnow]; rfl
      rcases answer_cache w.now.shared ok c key with hsame | hnone | ⟨entry, rfl, hengine⟩
      · -- nothing changed in the cache
        rw [hcache, hsame] at hc
        obtain ⟨t, ht, hs⟩ := hi.beside v val hval c' hc
        exact ⟨t, hmono t ht, hs⟩
      · rw [hcache, hnone] at hc
        cases hc
      · -- a fill, which the engine's value has not left
        rw [ha] at hok
        have hcurrent := hok v val entry next hval hi'
        refine ⟨w'.now, hmem, hc, ?_⟩
        rw [← hcurrent, hnow]
        unfold Sys.source Shared.engine_value
        rw [hengine]
    · intro value verdict hv
      obtain ⟨t, ht, hat⟩ := hi.held value verdict hv
      exact ⟨t, hmono t ht, hat⟩

end Steps

/-! ## Every run -/

section Runs

variable {key : Bytes} {shared : Shared} {others : List (Program Unit)} {w : Watched}

/-- A value served as fresh was the engine's at some instant of the call. -/
theorem hit_sound
    (hrun : Run (Watched.step key) (fun _ _ => True) (Watched.start shared others) w)
    {value : Option Bytes} (hdone : w.now.getter = .done value .Hit) :
    ∃ t ∈ w.seen, t.source key = value ∧ value ≠ none := by
  have hstart : HitInv key (Watched.start shared others) :=
    { now_mem := List.mem_singleton_self _
      sourced := fun v val h => by cases h
      served := fun value h => by cases h }
  have hinv := hrun.invariant (fun _ _ _ hs _ hst => HitInv.step hs hst) hstart
  exact hinv.served value (by rw [hdone]; rfl)

/-- Where every fill between the two reads finds the engine's value as it was read, a verdict
held at some instant of the call. -/
theorem alarm_sound
    (hrun : Run (Watched.step key) (FillsCurrent key) (Watched.start shared others) w)
    {value : Option Bytes} {verdict : Verdict} (hdone : w.now.getter = .done value verdict) :
    ∃ t ∈ w.seen, verdict.At key t := by
  have hstart : AlarmInv key (Watched.start shared others) :=
    { now_mem := List.mem_singleton_self _
      beside := fun v val h => by cases h
      held := fun value verdict h => by cases h }
  have hinv := hrun.invariant (fun _ _ _ hs hok hst => AlarmInv.step hs hok hst) hstart
  exact hinv.held value verdict (by rw [hdone]; rfl)

end Runs

/-- Whatever the other threads run: a value that `cache_get` serves as fresh was the engine's at
some instant of the call; and where every fill of the key between its two reads finds the
engine's value as it was read, a stale hit or a phantom was one at some instant of the call. -/
theorem verdicts_sound (key : Bytes) (shared : Shared) (others : List (Program Unit)) :
    (∀ w value, Run (Watched.step key) (fun _ _ => True) (Watched.start shared others) w →
      w.now.getter = .done value .Hit →
      ∃ t ∈ w.seen, t.source key = value ∧ value ≠ none) ∧
    (∀ w value verdict, Run (Watched.step key) (FillsCurrent key)
        (Watched.start shared others) w →
      w.now.getter = .done value verdict → ∃ t ∈ w.seen, verdict.At key t) :=
  ⟨fun _ _ hrun => hit_sound hrun, fun _ _ _ hrun => alarm_sound hrun⟩

/-! ## A false alarm -/

/-- Nothing is cached yet; the source holds one value. -/
def uncached : Shared :=
  { engine := fun k => if k = ek [0x6b] then some (.bytes [0x61]) else none
    cache := fun _ => none, ver := fun _ => 0, seq := 0, traces := [], max_traces := 16 }

/-- A correct writer: it writes the source and fills the cache with what it wrote. -/
def writer : Program Unit := do
  let _ ← source_set [0x6b] [0x62]
  cache_set [0x6b] [0x62]

/-- The writer runs between the two reads. -/
def refill : List Act :=
  [.getter, .getter, .other 0 true, .other 0 true, .other 0 true, .other 0 true, .getter, .getter,
    .getter]

/-- Are the two values there and different? -/
def Sys.differs (s : Sys) (key : Bytes) : Bool :=
  match s.cached key, s.source key with
  | some c, some v => c != v
  | _, _ => false

theorem differs_of_stale {key : Bytes} {s : Sys} (h : Verdict.StaleHit.At key s) :
    s.differs key = true := by
  obtain ⟨c, v, hc, hv, hne⟩ := h
  unfold Sys.differs
  rw [hc, hv]
  exact bne_iff_ne.mpr hne

/-- A finished read that raised the alarm although the two values never differed. -/
def Watched.alarmed (w : Watched) (key : Bytes) : Bool :=
  (match w.now.getter with
    | .done _ .StaleHit => true
    | _ => false) && w.seen.all fun s => !s.differs key

/-- A read is told that the cache is stale, and at no instant of the call it was. -/
theorem refilled_alarm :
    ¬ ∀ w value verdict, Run (Watched.step [0x6b]) (fun _ _ => True)
        (Watched.start uncached [writer]) w →
      w.now.getter = .done value verdict → ∃ t ∈ w.seen, verdict.At [0x6b] t := by
  intro h
  have hexec : ((exec (Watched.step [0x6b]) (fun _ _ => true) (Watched.start uncached [writer])
      refill).map fun w => w.alarmed [0x6b]) = some true := by decide +kernel
  obtain ⟨w, hw, halarm⟩ := Option.map_eq_some_iff.mp hexec
  have hrun : Run (Watched.step [0x6b]) (fun _ _ => True) (Watched.start uncached [writer]) w :=
    Run.of_exec (fun _ _ _ => trivial) hw
  unfold Watched.alarmed at halarm
  rw [Bool.and_eq_true, List.all_eq_true] at halarm
  obtain ⟨hdone, hnever⟩ := halarm
  split at hdone
  · rename_i value hgetter
    obtain ⟨t, ht, hat⟩ := h w value .StaleHit hrun hgetter
    have := hnever t ht
    rw [differs_of_stale hat] at this
    cases this
  · cases hdone

end Mitm
end StrikeDB
