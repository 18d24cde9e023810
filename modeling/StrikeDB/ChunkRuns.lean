import StrikeDB.ChunkAccounts

/-!
# StrikeDB: runs on a table of chunks

A run mixes the calls on the table with the eviction loop.  A chunk counts as used when it is
inserted, looked up or promoted, and `used` remembers how many lookups and promotions there
were at that time.

**Results.**
* `step_accounted_iff`: what a call needs to keep the counters exact.
* `correct_iff`: the accounting of a run is exact exactly when its calls fit.
-/

namespace StrikeDB
namespace Vmt

open Chunks

/-! ## Runs -/

/-- The table and the evictor, how many lookups and promotions there were, and how many there
were when a chunk was last inserted, looked up or promoted. -/
structure State where
  vmt : VugvaVmt
  stats : EvictionStats
  ticks : Nat
  used : ChunkId → Nat

def State.init : State :=
  { vmt := .new, stats := { total_evictions := 0, bytes_evicted := 0 }, ticks := 0
    used := fun _ => 0 }

/-- The eviction loop, from a table. -/
def State.evict (config : VugvaConfig) (order : VugvaVmt.HashOrder) (fuel : Nat) (s : State) :
    Option Eviction :=
  evict_to_target config order fuel { vmt := s.vmt, stats := s.stats, evicted := 0, victims := [] }

/-- More steps than chunks are not needed. -/
def State.enough (s : State) : Nat := s.vmt.chunks.metas.length + 1

def step (config : VugvaConfig) (s : State) : Call → State
  | .insert chunk =>
      { s with
        vmt := (s.vmt.insert chunk).1
        used := Function.update s.used chunk.id s.ticks }
  | .get id =>
      { s with
        vmt := (s.vmt.get id).1
        ticks := s.ticks + 1
        used := Function.update s.used id (s.ticks + 1) }
  | .promote_to_vram id =>
      { s with
        vmt := (s.vmt.promote_to_vram id).1
        ticks := s.ticks + 1
        used := Function.update s.used id (s.ticks + 1) }
  | .evict_to_ram id data => { s with vmt := (s.vmt.evict_to_ram id data).1 }
  | .remove id => { s with vmt := (s.vmt.remove id).1 }
  | .evict_to_target order =>
      match s.evict config order s.enough with
      | some e => { s with vmt := e.vmt, stats := e.stats }
      | none => s

/-- The calls on the table that a call makes, each with the table that it meets. -/
def makes (config : VugvaConfig) (s : State) : Call → List (VugvaVmt × Call)
  | .evict_to_target order =>
      match s.evict config order s.enough with
      | some e => e.victims.map fun v => (v.1, .evict_to_ram v.2 placeholder)
      | none => []
  | c => [(s.vmt, c)]

/-- The calls on the table in a run. -/
def taken (config : VugvaConfig) : State → List Call → List (VugvaVmt × Call)
  | _, [] => []
  | s, c :: calls => makes config s c ++ taken config (step config s c) calls

/-- The calls of a run, each with the state before it. -/
def calledAt (config : VugvaConfig) : State → List Call → List (State × Call)
  | _, [] => []
  | s, c :: calls => (s, c) :: calledAt config (step config s c) calls

/-- The states of a run, the first included. -/
def visited (config : VugvaConfig) : State → List Call → List State
  | s, [] => [s]
  | s, c :: calls => s :: visited config (step config s c) calls

/-- The times of the table are those of the run, in 64 bits. -/
structure Stamped (s : State) : Prop where
  clock : s.vmt.clock = UInt64.ofNat s.ticks
  last_access : ∀ m ∈ s.vmt.chunks.metas, m.last_access = UInt64.ofNat (s.used m.id)

/-- The loop ends, with the ratio at or below the watermark or with VRAM empty, and takes the
chunks that were used least recently. -/
def Drains (config : VugvaConfig) (order : VugvaVmt.HashOrder) (s : State) : Prop :=
  ∀ fuel, s.vmt.chunks.metas.length < fuel → ∃ e, s.evict config order fuel = some e ∧
    (VugvaVmt.ratio config (e.vmt.chunks.usage .vram) ≤ config.lru_high_watermark ∨
      ∀ m ∈ e.vmt.chunks.metas, m.tier ≠ .vram) ∧
    Moves s.vmt (e.victims.map Prod.snd) e.vmt ∧ e.evicted = e.victims.length

/-- The accounting of a run is exact. -/
structure Correct (config : VugvaConfig) (s : State) (calls : List Call) : Prop where
  accounted : ∀ s' ∈ visited config s calls, Accounted s'.vmt
  /-- Also within the eviction loop. -/
  between : ∀ e ∈ taken config s calls, Accounted e.1
  stamped : ∀ s' ∈ visited config s calls, Stamped s'
  drains : ∀ e ∈ calledAt config s calls, ∀ order, e.2 = .evict_to_target order →
    Drains config order e.1

section Runs

variable {config : VugvaConfig} {s : State}

theorem in_vram_le (cs : Chunks) : cs.total in_vram ≤ cs.metas.length := by
  rw [total]
  induction cs.metas with
  | nil => exact Nat.le_refl _
  | cons m metas ih =>
      rw [List.map_cons, List.sum_cons, List.length_cons, in_vram]
      split <;> omega

theorem evict_ends (config : VugvaConfig) (order : VugvaVmt.HashOrder) {fuel : Nat} {s : State}
    (h : s.vmt.chunks.metas.length < fuel) :
    ∃ vs stats vmt, s.evict config order fuel =
        some { vmt := vmt, stats := stats, evicted := vs.length, victims := vs } ∧
      Evicts config s.vmt vs vmt := by
  have hfuel : s.vmt.chunks.total in_vram < fuel := Nat.lt_of_le_of_lt (in_vram_le _) h
  obtain ⟨vs, stats, vmt, hloop, hevicts⟩ := @evict_to_target_evicts config order fuel
    { vmt := s.vmt, stats := s.stats, evicted := 0, victims := [] } hfuel
  refine ⟨vs, stats, vmt, ?_, hevicts⟩
  rw [State.evict, hloop, Nat.zero_add, List.nil_append]

/-- A call keeps the counters exact, and those that it makes meet exact ones, exactly when they
fit. -/
theorem step_accounted_iff (h : Accounted s.vmt) (c : Call) :
    (Accounted (step config s c).vmt ∧ ∀ e ∈ makes config s c, Accounted e.1) ↔
      ∀ e ∈ makes config s c, Fits e.1 e.2 := by
  have hone : ∀ {c : Call} {vmt : VugvaVmt}, (Accounted vmt ↔ Fits s.vmt c) →
      ((Accounted vmt ∧ ∀ e ∈ [(s.vmt, c)], Accounted e.1) ↔
        ∀ e ∈ [(s.vmt, c)], Fits e.1 e.2) := by
    intro c vmt hiff
    simp only [List.mem_singleton, forall_eq, h, and_true, hiff]
  cases c with
  | insert chunk => exact hone (insert_accounted_iff h chunk)
  | get id => exact hone (iff_of_true (get_accounted h id) trivial)
  | promote_to_vram id => exact hone (promote_accounted_iff h id)
  | evict_to_ram id data => exact hone (evict_accounted_iff h id data)
  | remove id => exact hone (iff_of_true (remove_accounted h id) trivial)
  | evict_to_target order =>
      obtain ⟨vs, stats, vmt, hloop, hevicts⟩ :=
        evict_ends config order (Nat.lt_succ_self s.vmt.chunks.metas.length)
      have haccounted := evicts_accounted_iff h hevicts
      simp only [step, makes, State.enough, Nat.succ_eq_add_one] at hloop ⊢
      rw [hloop]
      simp only [List.forall_mem_map]
      rw [← haccounted, and_comm]

/-- The times of a table whose entries come from another. -/
theorem stamped_of {s s' : State} (h : Stamped s) (hticks : s'.ticks = s.ticks)
    (hused : s'.used = s.used) (hclock : s'.vmt.clock = s.vmt.clock)
    (hfrom : ∀ m' ∈ s'.vmt.chunks.metas, ∃ m ∈ s.vmt.chunks.metas,
      m.id = m'.id ∧ m.last_access = m'.last_access) : Stamped s' where
  clock := by rw [hclock, hticks, h.clock]
  last_access := by
    intro m' hm'
    obtain ⟨m, hm, hid, hlast⟩ := hfrom m' hm'
    rw [← hlast, ← hid, hused, h.last_access m hm]

/-- The times of a table where a chunk is used. -/
theorem stamped_put {s s' : State} {m : ChunkMeta} {n : Nat} (h : Stamped s)
    (hclock : s'.vmt.clock = UInt64.ofNat s'.ticks)
    (hused : s'.used = Function.update s.used m.id n)
    (hchunks : s'.vmt.chunks = s.vmt.chunks.put m)
    (hlast : m.last_access = UInt64.ofNat n) : Stamped s' where
  clock := hclock
  last_access := by
    intro m' hm'
    rw [hchunks, mem_put] at hm'
    rw [hused]
    rcases hm' with rfl | ⟨hm', hid⟩
    · rw [Function.update_self, hlast]
    · rw [Function.update_of_ne hid, h.last_access m' hm']

/-- The times of a table where a chunk is looked for in vain. -/
theorem stamped_miss {s s' : State} {id : ChunkId} {n : Nat} (h : Stamped s)
    (hnone : s.vmt.chunks.find id = none) (hclock : s'.vmt.clock = UInt64.ofNat s'.ticks)
    (hused : s'.used = Function.update s.used id n) (hchunks : s'.vmt.chunks = s.vmt.chunks) :
    Stamped s' where
  clock := hclock
  last_access := by
    intro m hm
    rw [hchunks] at hm
    have hid : m.id ≠ id := by
      rintro rfl
      rw [find_of_mem hm] at hnone
      cases hnone
    rw [hused, Function.update_of_ne hid, h.last_access m hm]

theorem clock_succ (h : Stamped s) : s.vmt.clock + 1 = UInt64.ofNat (s.ticks + 1) := by
  rw [h.clock, UInt64.ofNat_add]
  rfl

theorem evicts_clock {vs : List (VugvaVmt × ChunkId)} {v v' : VugvaVmt}
    (h : Evicts config v vs v') : v'.clock = v.clock := by
  induction vs generalizing v with
  | nil => rw [h.1]
  | cons w vs ih =>
      obtain ⟨_, _, ⟨m, hm⟩, hrest⟩ := h
      rw [ih hrest, (evict_moves placeholder hm.find hm.tier).2.2]

theorem stamped_get (h : Stamped s) (id : ChunkId) : Stamped (step config s (.get id)) := by
  cases hfind : s.vmt.chunks.find id with
  | none =>
      have hget : (s.vmt.get id).1.clock = s.vmt.clock + 1 ∧
          (s.vmt.get id).1.chunks = s.vmt.chunks := by
        rw [VugvaVmt.get, hfind]
        exact ⟨rfl, rfl⟩
      exact stamped_miss h hfind (hget.1.trans (clock_succ h)) rfl hget.2
  | some m =>
      obtain ⟨_, rfl⟩ := find_some hfind
      have hget : (s.vmt.get m.id).1.clock = s.vmt.clock + 1 ∧
          (s.vmt.get m.id).1.chunks = s.vmt.chunks.put
            { m with
              last_access := s.vmt.clock + 1
              access_count := m.access_count + 1
              state := .hot } := by
        rw [VugvaVmt.get, hfind]
        exact ⟨rfl, rfl⟩
      exact stamped_put h (hget.1.trans (clock_succ h)) (by rfl) hget.2 (clock_succ h)

theorem stamped_promote (h : Stamped s) (id : ChunkId) :
    Stamped (step config s (.promote_to_vram id)) := by
  cases hfind : s.vmt.chunks.find id with
  | none =>
      have hpromote : (s.vmt.promote_to_vram id).1.clock = s.vmt.clock + 1 ∧
          (s.vmt.promote_to_vram id).1.chunks = s.vmt.chunks := by
        rw [VugvaVmt.promote_to_vram, hfind]
        exact ⟨rfl, rfl⟩
      exact stamped_miss h hfind (hpromote.1.trans (clock_succ h)) rfl hpromote.2
  | some m =>
      obtain ⟨_, rfl⟩ := find_some hfind
      -- in each tier the chunk is stamped with the clock
      have hpromote : (s.vmt.promote_to_vram m.id).1.clock = s.vmt.clock + 1 ∧
          ∃ m', (s.vmt.promote_to_vram m.id).1.chunks = s.vmt.chunks.put m' ∧
            m'.id = m.id ∧ m'.last_access = s.vmt.clock + 1 := by
        rw [VugvaVmt.promote_to_vram, hfind]
        dsimp only
        split
        · exact ⟨rfl, _, rfl, rfl, rfl⟩
        · exact ⟨rfl, _, rfl, rfl, rfl⟩
        · exact ⟨rfl, _, rfl, rfl, rfl⟩
      obtain ⟨hclock, m', hchunks, hid, hlast⟩ := hpromote
      refine stamped_put (m := m') h (hclock.trans (clock_succ h)) ?_ hchunks
        (hlast.trans (clock_succ h))
      rw [hid]
      rfl

theorem step_stamped (h : Stamped s) (c : Call) : Stamped (step config s c) := by
  cases c with
  | insert chunk =>
      have hchunks : (s.vmt.insert chunk).1.chunks = s.vmt.chunks.put (s.vmt.registered chunk) := by
        unfold VugvaVmt.insert
        cases chunk.tier <;> rfl
      have hclock : (s.vmt.insert chunk).1.clock = s.vmt.clock := by
        unfold VugvaVmt.insert
        cases chunk.tier <;> rfl
      exact stamped_put h (hclock.trans h.clock) rfl hchunks h.clock
  | get id => exact stamped_get h id
  | promote_to_vram id => exact stamped_promote h id
  | evict_to_ram id data =>
      refine stamped_of (s := s) h rfl rfl ?_ ?_
      · change (s.vmt.evict_to_ram id data).1.clock = _
        unfold VugvaVmt.evict_to_ram
        split
        · rfl
        · split <;> rfl
      · change ∀ m' ∈ (s.vmt.evict_to_ram id data).1.chunks.metas, _
        unfold VugvaVmt.evict_to_ram
        intro m' hm'
        split at hm'
        · exact ⟨m', hm', rfl, rfl⟩
        · next m hfind =>
            split at hm'
            · rcases mem_put.mp hm' with rfl | ⟨hm', _⟩
              · exact ⟨m, (find_some hfind).1, rfl, rfl⟩
              · exact ⟨m', hm', rfl, rfl⟩
            · exact ⟨m', hm', rfl, rfl⟩
  | remove id =>
      refine stamped_of (s := s) h rfl rfl ?_ ?_
      · change (s.vmt.remove id).1.clock = _
        unfold VugvaVmt.remove
        split <;> rfl
      · change ∀ m' ∈ (s.vmt.remove id).1.chunks.metas, _
        unfold VugvaVmt.remove
        intro m' hm'
        split at hm'
        · exact ⟨m', hm', rfl, rfl⟩
        · exact ⟨m', (mem_erase.mp hm').1, rfl, rfl⟩
  | evict_to_target order =>
      obtain ⟨vs, stats, vmt, hloop, hevicts⟩ :=
        evict_ends config order (Nat.lt_succ_self s.vmt.chunks.metas.length)
      have hmoves := evicts_moves hevicts
      have hstep : step config s (.evict_to_target order) = { s with vmt := vmt, stats := stats } := by
        simp only [step, State.enough, Nat.succ_eq_add_one] at hloop ⊢
        rw [hloop]
      rw [hstep]
      refine stamped_of h rfl rfl (evicts_clock hevicts) ?_
      intro m' hm'
      have hfind := find_of_mem hm'
      by_cases hid : m'.id ∈ vs.map Prod.snd
      · obtain ⟨m, hm, _, hram⟩ := hmoves.moved _ hid
        rw [hfind] at hram
        cases hram
        exact ⟨m, (find_some hm).1, rfl, rfl⟩
      · rw [hmoves.others _ hid] at hfind
        exact ⟨m', (find_some hfind).1, rfl, rfl⟩

/-- A loop that leaves exact counters drains VRAM. -/
theorem drains_of_accounted {order : VugvaVmt.HashOrder}
    (haccounted : Accounted (step config s (.evict_to_target order)).vmt) :
    Drains config order s := by
  intro fuel hfuel
  obtain ⟨vs, stats, vmt, hloop, hevicts⟩ :=
    evict_ends config order (Nat.lt_succ_self s.vmt.chunks.metas.length)
  rw [step, State.enough, hloop] at haccounted
  refine ⟨_, evict_to_target_mono hfuel hloop, ?_, evicts_moves hevicts, rfl⟩
  rcases evicts_ended hevicts with hlow | hempty
  · refine Or.inl ?_
    rw [VugvaVmt.needs_eviction, decide_eq_false_iff_not, VugvaVmt.vram_usage_ratio,
      haccounted.vram] at hlow
    exact le_of_not_gt hlow
  · exact Or.inr hempty

/-- From a state that is accounted and stamped. -/
theorem correct_run_iff (haccounted : Accounted s.vmt) (hstamped : Stamped s)
    (calls : List Call) :
    Correct config s calls ↔ ∀ e ∈ taken config s calls, Fits e.1 e.2 := by
  induction calls generalizing s with
  | nil =>
      refine ⟨fun _ => nofun, fun _ => ⟨?_, nofun, ?_, nofun⟩⟩
      · intro s' hs'
        rw [List.mem_singleton.mp hs']
        exact haccounted
      · intro s' hs'
        rw [List.mem_singleton.mp hs']
        exact hstamped
  | cons c calls ih =>
      have hstep := @step_accounted_iff config _ haccounted c
      have hnext := @step_stamped config _ hstamped c
      rw [taken, List.forall_mem_append]
      constructor
      · intro h
        have hbetween := h.between
        rw [taken, List.forall_mem_append] at hbetween
        have hvisited := h.accounted
        rw [visited, List.forall_mem_cons] at hvisited
        have hafter : Accounted (step config s c).vmt := by
          cases calls with
          | nil => exact hvisited.2 _ List.mem_cons_self
          | cons c' calls => exact hvisited.2 _ List.mem_cons_self
        refine ⟨hstep.mp ⟨hafter, hbetween.1⟩, (ih hafter hnext).mp ?_⟩
        refine ⟨hvisited.2, hbetween.2, ?_, ?_⟩
        · exact fun s' hs' => h.stamped s' (List.mem_cons_of_mem _ hs')
        · exact fun e he => h.drains e (List.mem_cons_of_mem _ he)
      · rintro ⟨hfits, hmore⟩
        obtain ⟨hafter, hbetween⟩ := hstep.mpr hfits
        have hrest := (ih hafter hnext).mpr hmore
        refine ⟨?_, ?_, ?_, ?_⟩
        · rw [visited, List.forall_mem_cons]
          exact ⟨haccounted, hrest.accounted⟩
        · rw [taken, List.forall_mem_append]
          exact ⟨hbetween, hrest.between⟩
        · rw [visited, List.forall_mem_cons]
          exact ⟨hstamped, hrest.stamped⟩
        · rw [calledAt, List.forall_mem_cons]
          refine ⟨?_, hrest.drains⟩
          rintro order rfl
          exact drains_of_accounted hafter

/-- The accounting of a run is exact exactly when each chunk that is inserted replaces nothing
that counts, and no counter overflows. -/
theorem correct_iff (config : VugvaConfig) (calls : List Call) :
    Correct config .init calls ↔ ∀ e ∈ taken config .init calls, Fits e.1 e.2 :=
  correct_run_iff accounted_new ⟨rfl, fun _ hm => absurd hm List.not_mem_nil⟩ calls

end Runs

/-- A chunk of four bytes in VRAM. -/
def sample : Chunk :=
  { id := 1, tier := .vram, state := .hot, data := [0, 0, 0, 0], size := 4 }

/-- `VugvaConfig::default` -/
def defaultConfig : VugvaConfig :=
  { vram_capacity := 6 * 1024 * 1024 * 1024, lru_high_watermark := 85 / 100 }

/-- Inserted twice, it counts twice. -/
theorem inserted_twice :
    ¬ Correct defaultConfig .init [.insert sample, .insert sample] := by
  intro h
  have haccounted := h.accounted
    (step defaultConfig (step defaultConfig .init (.insert sample)) (.insert sample))
    (by simp [visited])
  have hvram : (8 : Nat) = 4 := haccounted.vram
  cases hvram

end Vmt
end StrikeDB
