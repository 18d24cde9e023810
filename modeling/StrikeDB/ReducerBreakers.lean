import StrikeDB.ReducerRuntime

/-!
# StrikeDB: the circuit breakers of the reducers

The check of an invocation and the record of its outcome are separate moments, between
which other invocations of the same reducer are checked and recorded.  What a breaker
holds is a function of the outcomes recorded since the reducer was last re-enabled: it
is quarantined when three failures in a row are among them, and until then it counts
the failures at the end.  A success that is recorded late resets the count but not the
quarantine.

**Results.**
* `Tracks.success`, `Tracks.failure`: the two records keep this.
* `BreakerInv.step`: so does every step of the runtime.
* `BreakerInv.refused`: an invocation is refused exactly in quarantine.
-/

namespace StrikeDB

/-! ### Failures in a row -/

namespace InARow

/-- The failures that a list of outcomes starts with. -/
def failures (rs : List Bool) : Nat := (rs.takeWhile fun ok => !ok).length

/-- Three failures stand in a row. -/
def Three (rs : List Bool) : Prop := List.replicate 3 false <:+: rs

instance (rs : List Bool) : Decidable (Three rs) :=
  inferInstanceAs (Decidable (List.replicate 3 false <:+: rs))

theorem prefix_iff (n : Nat) (rs : List Bool) :
    List.replicate n false <+: rs ↔ n ≤ failures rs := by
  induction n generalizing rs with
  | zero => simp
  | succ n ih =>
      cases rs with
      | nil => simp [failures, List.replicate_succ]
      | cons ok rs =>
          cases ok with
          | true => simp [failures, List.replicate_succ]
          | false =>
              rw [List.replicate_succ, List.cons_prefix_cons, ih rs]
              simp [failures]

theorem three_cons_true (rs : List Bool) : Three (true :: rs) ↔ Three rs := by
  rw [Three, Three, List.infix_cons_iff, prefix_iff]
  simp [failures]

theorem three_cons_false (rs : List Bool) :
    Three (false :: rs) ↔ 2 ≤ failures rs ∨ Three rs := by
  rw [Three, Three, List.infix_cons_iff, prefix_iff]
  simp [failures]

theorem failures_lt {rs : List Bool} (h : ¬ Three rs) : failures rs < 3 := by
  by_contra hge
  exact h ((prefix_iff 3 rs).mpr (by omega)).isInfix

end InARow

namespace Compute

open InARow

/-- The outcomes of a reducer since it was last re-enabled, newest first. -/
def since (name : String) : List Note → List Bool
  | [] => []
  | .recorded n ok :: log => if n = name then ok :: since name log else since name log
  | .reenabled n :: log => if n = name then [] else since name log
  | .checked _ _ _ :: log => since name log

/-- What a breaker holds after these outcomes. -/
def Tracks (rs : List Bool) : Option Breaker → Prop
  | none => rs = []
  | some br =>
      (br.quarantined = 1 ↔ Three rs) ∧
        (¬ Three rs → br.consecutive_errors.toNat = failures rs)

theorem Tracks.new : Tracks [] (some { consecutive_errors := 0, quarantined := 0 }) :=
  ⟨by decide, fun _ => rfl⟩

/-- The breaker that the check finds or makes. -/
theorem Tracks.getD {rs : List Bool} {b : Option Breaker} (h : Tracks rs b) :
    Tracks rs (some (b.getD { consecutive_errors := 0, quarantined := 0 })) := by
  cases b with
  | none =>
      have hnil : rs = [] := h
      rw [hnil]
      exact Tracks.new
  | some br => exact h

theorem Tracks.success {rs : List Bool} {br : Breaker} (h : Tracks rs (some br)) :
    Tracks (true :: rs) (some { br with consecutive_errors := 0 }) := by
  refine ⟨h.1.trans (three_cons_true rs).symm, fun _ => ?_⟩
  simp [failures]

theorem Tracks.failure {rs : List Bool} {br : Breaker} (h : Tracks rs (some br)) :
    Tracks (false :: rs) (some
      { consecutive_errors := br.consecutive_errors + 1
        quarantined := if 3 ≤ br.consecutive_errors + 1 then 1 else br.quarantined }) := by
  obtain ⟨hquarantined, hcount⟩ := h
  by_cases hthree : Three rs
  · -- in quarantine the count no longer matters
    have hset : (if 3 ≤ br.consecutive_errors + 1 then 1 else br.quarantined) = 1 := by
      split
      · rfl
      · exact hquarantined.mpr hthree
    have hstill : Three (false :: rs) := (three_cons_false rs).mpr (Or.inr hthree)
    exact ⟨⟨fun _ => hstill, fun _ => hset⟩, fun hno => absurd hstill hno⟩
  · have hcount := hcount hthree
    have hlt := failures_lt hthree
    have hnext : (br.consecutive_errors + 1).toNat = failures rs + 1 := by
      rw [UInt32.toNat_add, hcount]
      exact Nat.mod_eq_of_lt (by
        have : (1 : UInt32).toNat = 1 := rfl
        omega)
    have hreach : 3 ≤ br.consecutive_errors + 1 ↔ 2 ≤ failures rs := by
      rw [UInt32.le_iff_toNat_le, hnext]
      exact ⟨fun h => by
        have : (3 : UInt32).toNat = 3 := rfl
        omega, fun h => by
        have : (3 : UInt32).toNat = 3 := rfl
        omega⟩
    refine ⟨?_, fun _ => ?_⟩
    · rw [three_cons_false]
      by_cases htwo : 2 ≤ failures rs
      · simp [hreach.mpr htwo, htwo]
      · have hzero : br.quarantined ≠ 1 := fun h => hthree (hquarantined.mp h)
        simp [mt hreach.mp htwo, htwo, hzero, hthree]
    · rw [hnext]
      simp [failures]

section Runtime

variable {ρ : Type}

/-- An invocation was refused exactly in quarantine. -/
def Exact (log : List Note) : Prop :=
  ∀ post id name refused pre, log = post ++ .checked id name refused :: pre →
    (refused = true ↔ Three (since name pre))

theorem Exact.cons {log : List Note} (h : Exact log) {n : Note}
    (hn : ∀ id name refused, n = .checked id name refused →
      (refused = true ↔ Three (since name log))) :
    Exact (n :: log) := by
  intro post id name refused pre heq
  cases post with
  | nil =>
      obtain ⟨hhead, htail⟩ := List.cons.inj heq
      rw [← htail]
      exact hn id name refused hhead
  | cons m post =>
      obtain ⟨_, htail⟩ := List.cons.inj heq
      exact h post id name refused pre htail

/-- The invocation is past its check, which has decided about it. -/
def Checked (s : Runtime ρ) (c : Call) : Prop :=
  (s.breakers c.name).isSome ∧
    ∃ refused, .checked c.id c.name refused ∈ s.log ∧
      (c.stage = .returned .quarantined ↔ refused = true)

/-- What the runtime keeps about its breakers. -/
structure BreakerInv (s : Runtime ρ) : Prop where
  threshold : s.error_threshold = 3
  tracks : ∀ name, Tracks (since name s.log) (s.breakers name)
  checked : ∀ c ∈ s.calls, c.stage ≠ .entered → Checked s c
  exact : Exact s.log

namespace Runtime

/-- What replacing a call does to the others. -/
theorem mem_setCall {s : Runtime ρ} {c d : Call} (hd : d ∈ (s.setCall c).calls) :
    d = c ∨ d ∈ s.calls ∧ d.id ≠ c.id := by
  obtain ⟨d', hd', rfl⟩ := List.mem_map.mp hd
  by_cases hid : d'.id = c.id
  · rw [if_pos hid]
    exact Or.inl rfl
  · rw [if_neg hid]
    exact Or.inr ⟨hd', hid⟩

theorem call_mem {s : Runtime ρ} {id : Nat} {c : Call} (h : s.call id = some c) :
    c ∈ s.calls ∧ c.id = id :=
  ⟨List.mem_of_find?_eq_some h, by simpa using List.find?_some h⟩

theorem since_of_ne {name n : String} (hne : n ≠ name) (log : List Note) :
    (∀ ok, since name (.recorded n ok :: log) = since name log) ∧
      since name (.reenabled n :: log) = since name log :=
  ⟨fun _ => if_neg hne, if_neg hne⟩

/-- What a moment of the breaker of `name` leaves alone. -/
structure Moment (s s' : Runtime ρ) (name : String) (n : Note) : Prop where
  threshold : s'.error_threshold = s.error_threshold
  calls : s'.calls = s.calls
  engine : s'.engine = s.engine
  fuel : s'.default_fuel = s.default_fuel
  log : s'.log = n :: s.log
  others : ∀ m, m ≠ name → s'.breakers m = s.breakers m
  known : ∀ m, (s.breakers m).isSome → (s'.breakers m).isSome

theorem moment_setBreaker (s : Runtime ρ) (name : String) (n : Note) (br : Breaker) :
    Moment s ({ s with log := n :: s.log }.setBreaker name br) name n where
  threshold := rfl
  calls := rfl
  engine := rfl
  fuel := rfl
  log := rfl
  others := fun m hm => Function.update_of_ne hm _ _
  known := by
    intro m hm
    by_cases h : m = name
    · subst h
      simp [setBreaker]
    · show (Function.update s.breakers name (some br) m).isSome
      rw [Function.update_of_ne h]
      exact hm

theorem moment_none (s : Runtime ρ) (name : String) (n : Note) :
    Moment s { s with log := n :: s.log } name n where
  threshold := rfl
  calls := rfl
  engine := rfl
  fuel := rfl
  log := rfl
  others := fun _ _ => rfl
  known := fun _ h => h

theorem moment_record_success (s : Runtime ρ) (name : String) :
    Moment s (s.record_success name) name (.recorded name true) := by
  rw [record_success]
  dsimp only
  split
  · exact moment_none s name _
  · exact moment_setBreaker s name _ _

theorem moment_record_error (s : Runtime ρ) (name : String) :
    Moment s (s.record_error name) name (.recorded name false) := by
  rw [record_error]
  dsimp only
  split
  · exact moment_none s name _
  · exact moment_setBreaker s name _ _

theorem moment_reenable (s : Runtime ρ) (name : String) :
    Moment s (s.reenable name) name (.reenabled name) := by
  rw [reenable]
  dsimp only
  split
  · exact moment_none s name _
  · exact moment_setBreaker s name _ _

end Runtime

open Compute.Runtime

/-- What a moment keeps, if it keeps the breaker it is about. -/
theorem BreakerInv.moment
    {s s' : Runtime ρ} (h : BreakerInv s) {name : String} {n : Note}
    (hm : Moment s s' name n) (hne : ∀ m, m ≠ name → since m (n :: s.log) = since m s.log)
    (hself : Tracks (since name (n :: s.log)) (s'.breakers name))
    (hn : ∀ id m refused, n = .checked id m refused →
      (refused = true ↔ Three (since m s.log))) :
    BreakerInv s' where
  threshold := hm.threshold.trans h.threshold
  tracks := by
    intro m
    rw [hm.log]
    by_cases heq : m = name
    · subst heq
      exact hself
    · rw [hne m heq, hm.others m heq]
      exact h.tracks m
  checked := by
    intro c hc hstage
    rw [hm.calls] at hc
    obtain ⟨hsome, refused, hmem, hiff⟩ := h.checked c hc hstage
    refine ⟨hm.known _ hsome, refused, ?_, hiff⟩
    rw [hm.log]
    exact List.mem_cons_of_mem _ hmem
  exact := by
    rw [hm.log]
    exact h.exact.cons hn

theorem BreakerInv.record_success
    {s : Runtime ρ} (h : BreakerInv s) {name : String} (hknown : (s.breakers name).isSome) :
    BreakerInv (s.record_success name) := by
  refine h.moment (moment_record_success s name) ?_ ?_ (by simp)
  · intro m hm
    exact (since_of_ne hm.symm s.log).1 true
  · obtain ⟨br, hbr⟩ := Option.isSome_iff_exists.mp hknown
    have ht := h.tracks name
    rw [hbr] at ht
    simp only [Runtime.record_success, hbr, setBreaker, Function.update_self, since, if_true]
    exact ht.success

theorem BreakerInv.record_error
    {s : Runtime ρ} (h : BreakerInv s) {name : String} (hknown : (s.breakers name).isSome) :
    BreakerInv (s.record_error name) := by
  refine h.moment (moment_record_error s name) ?_ ?_ (by simp)
  · intro m hm
    exact (since_of_ne hm.symm s.log).1 false
  · obtain ⟨br, hbr⟩ := Option.isSome_iff_exists.mp hknown
    have ht := h.tracks name
    rw [hbr] at ht
    simp only [Runtime.record_error, hbr, setBreaker, Function.update_self, since, if_true,
      h.threshold]
    exact ht.failure

theorem BreakerInv.reenable {s : Runtime ρ} (h : BreakerInv s) (name : String) :
    BreakerInv (s.reenable name) := by
  refine h.moment (moment_reenable s name) ?_ ?_ (by simp)
  · intro m hm
    exact (since_of_ne hm.symm s.log).2
  · have ht := h.tracks name
    simp only [Runtime.reenable, since, if_true]
    cases hb : s.breakers name with
    | none =>
        show Tracks [] (s.breakers name)
        rw [hb]
        rfl
    | some br =>
        simp only [setBreaker, Function.update_self]
        exact Tracks.new

/-- A call that is past its check goes on to another stage. -/
theorem BreakerInv.toStage
    {s : Runtime ρ} (h : BreakerInv s) {c c' : Call} (hc : Checked s c) {e : Engine ρ}
    (hold : c.stage ≠ .returned .quarantined) {stage : Stage} (hid : c'.id = c.id)
    (hname : c'.name = c.name) (hnew : stage ≠ .returned .quarantined) :
    BreakerInv (s.toStage c' e stage) where
  threshold := h.threshold
  tracks := h.tracks
  checked := by
    intro d hd hstage
    rcases mem_setCall hd with rfl | ⟨hd, _⟩
    · obtain ⟨hsome, refused, hmem, hiff⟩ := hc
      have hfalse : refused ≠ true := fun hr => hold (hiff.mpr hr)
      refine ⟨?_, refused, ?_, ?_⟩
      · show (s.breakers c'.name).isSome
        rw [hname]
        exact hsome
      · show Note.checked c'.id c'.name refused ∈ s.log
        rw [hid, hname]
        exact hmem
      · exact ⟨fun hq => absurd hq hnew, fun hr => absurd hr hfalse⟩
    · exact h.checked d hd hstage
  exact := h.exact

/-- The check of an invocation. -/
theorem BreakerInv.check
    {s : Runtime ρ} (h : BreakerInv s) (c : Call) : BreakerInv (s.check c) := by
  obtain ⟨br, hbr⟩ : ∃ br, br = (s.breakers c.name).getD
    { consecutive_errors := 0, quarantined := 0 } := ⟨_, rfl⟩
  have htrack : Tracks (since c.name s.log) (some br) := hbr ▸ (h.tracks c.name).getD
  obtain ⟨n, hn⟩ : ∃ n, n = Note.checked c.id c.name (decide (br.quarantined = 1)) := ⟨_, rfl⟩
  have hinv : BreakerInv ({ s with log := n :: s.log }.setBreaker c.name br) := by
    refine h.moment (moment_setBreaker s c.name n br) ?_ ?_ ?_
    · intro m _
      rw [hn, since]
    · simp only [setBreaker, Function.update_self, hn, since]
      exact htrack
    · intro id m refused heq
      rw [hn] at heq
      cases heq
      rw [decide_eq_true_iff]
      exact htrack.1
  have hdef : s.check c = ({ s with log := n :: s.log }.setBreaker c.name br).setCall
      { c with stage := if br.quarantined = 1 then .returned .quarantined else .admitted } := by
    rw [hn, hbr]
    rfl
  rw [hdef]
  refine ⟨hinv.threshold, hinv.tracks, ?_, hinv.exact⟩
  intro d hd hstage
  rcases mem_setCall hd with rfl | ⟨hd, _⟩
  · refine ⟨?_, decide (br.quarantined = 1), ?_, ?_⟩
    · simp [setBreaker, Runtime.setCall]
    · rw [← hn]
      exact List.mem_cons_self
    · rw [decide_eq_true_iff]
      split <;> simp_all
  · exact hinv.checked d hd hstage

theorem settled_ne (vm : Vm) (output : Option Int64) (rep : Reply ρ) :
    settled vm output rep ≠ .returned .quarantined := by
  intro h
  cases rep <;> cases h

/-- Every step of the thread of an invocation keeps it. -/
theorem BreakerInv.proceed
    {s s' : Runtime ρ} (h : BreakerInv s) {c : Call} (hc : c ∈ s.calls)
    (hp : Proceeds s c s') :
    BreakerInv s' := by
  have hchecked : c.stage ≠ .entered → Checked s c := h.checked c hc
  cases hp with
  | check _ => exact h.check c
  | lock hs =>
      exact h.toStage (hchecked (by simp [hs])) (by simp [hs]) rfl rfl (by simp)
  | begin_ hs _ => exact h.toStage (hchecked (by simp [hs])) (by simp [hs]) rfl rfl (by simp)
  | go hs _ => exact h.toStage (hchecked (by simp [hs])) (by simp [hs]) rfl rfl (by simp)
  | load hs _ _ _ => exact h.toStage (hchecked (by simp [hs])) (by simp [hs]) rfl rfl (by simp)
  | store hs _ _ => exact h.toStage (hchecked (by simp [hs])) (by simp [hs]) rfl rfl (by simp)
  | finish hs _ => exact h.toStage (hchecked (by simp [hs])) (by simp [hs]) rfl rfl (by simp)
  | fail hs _ => exact h.toStage (hchecked (by simp [hs])) (by simp [hs]) rfl rfl (by simp)
  | crash hs _ => exact h.toStage (hchecked (by simp [hs])) (by simp [hs]) rfl rfl (by simp)
  | commit hs _ => exact h.toStage (hchecked (by simp [hs])) (by simp [hs]) rfl rfl (by simp)
  | settle hs _ _ =>
      exact h.toStage (hchecked (by simp [hs])) (by simp [hs]) rfl rfl (settled_ne _ _ _)
  | unwind hs _ => exact h.toStage (hchecked (by simp [hs])) (by simp [hs]) rfl rfl (by simp)
  | succeed hs =>
      have hm := moment_record_success s c.name
      have hinv := h.record_success (hchecked (by simp [hs])).1
      exact hinv.toStage (hinv.checked c (hm.calls ▸ hc) (by simp [hs])) (by simp [hs]) rfl rfl
        (by simp)
  | refuse hs =>
      have hm := moment_record_error s c.name
      have hinv := h.record_error (hchecked (by simp [hs])).1
      exact hinv.toStage (hinv.checked c (hm.calls ▸ hc) (by simp [hs])) (by simp [hs]) rfl rfl
        (by simp)
  | record hs =>
      have hm := moment_record_error s c.name
      have hinv := h.record_error (hchecked (by simp [hs])).1
      exact hinv.toStage (hinv.checked c (hm.calls ▸ hc) (by simp [hs])) (by simp [hs]) rfl rfl
        (by simp)

/-- Every step of the runtime keeps what is known about the breakers. -/
theorem BreakerInv.step
    {s s' : Runtime ρ} {act : RuntimeAct ρ} (h : BreakerInv s) (hst : s.step act = some s') :
    BreakerInv s' := by
  cases act with
  | other act =>
      rw [Runtime.step] at hst
      split at hst
      · cases hst
      · obtain ⟨e, _, rfl⟩ := Option.map_eq_some_iff.mp hst
        exact ⟨h.threshold, h.tracks, h.checked, h.exact⟩
  | invoke id name shard_key prog =>
      rw [Runtime.step] at hst
      split at hst
      · cases hst
      · cases hst
        refine ⟨h.threshold, h.tracks, ?_, h.exact⟩
        intro d hd hstage
        rcases List.mem_cons.mp hd with rfl | hd
        · exact absurd rfl hstage
        · exact h.checked d hd hstage
  | proceed id =>
      obtain ⟨c, hc, hp⟩ := Option.bind_eq_some_iff.mp hst
      exact h.proceed (call_mem hc).1 (proceed_cases hp)
  | reenable name =>
      cases hst
      exact h.reenable name

theorem BreakerInv.new (e : Engine ρ) (shard_count : Nat) :
    BreakerInv (Runtime.new e shard_count) where
  threshold := rfl
  tracks := fun _ => rfl
  checked := by simp [Runtime.new]
  exact := by
    intro post id name refused pre heq
    cases post <;> cases heq

end Runtime
end Compute
end StrikeDB
