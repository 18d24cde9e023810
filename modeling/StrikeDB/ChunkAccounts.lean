import StrikeDB.ChunkTable

/-!
# StrikeDB: the accounts of a table of chunks

**Results.**
* `insert_accounted_iff`, `promote_accounted_iff`, `evict_accounted_iff`: what each call needs
  to keep the counters exact.
* `evict_to_target_evicts`: the eviction loop ends, at the watermark or with VRAM empty.
* `evicts_moves`: it moves chunks in the order of their last access.
* `evicts_accounted_iff`: what it needs to keep the counters exact.
-/

namespace StrikeDB
namespace Vmt

open Chunks

/-- The counters are the bytes of the tiers, what is subtracted from them is there, and the
data are those of the chunks in RAM. -/
structure Accounted (s : VugvaVmt) : Prop where
  vram : s.vram_used.toNat = s.chunks.usage .vram
  ram : s.ram_used.toNat = s.chunks.usage .ram
  no_underflow : ∀ m ∈ s.chunks.metas,
    (m.tier = .vram → m.size ≤ s.vram_used) ∧ (m.tier = .ram → m.size ≤ s.ram_used)
  stored : ∀ id, (s.ram_store id).isSome = true ↔ ∃ m, s.chunks.find id = some m ∧ m.tier = .ram

/-- The sums are enough. -/
theorem accounted_iff (s : VugvaVmt) :
    Accounted s ↔ s.vram_used.toNat = s.chunks.usage .vram ∧
      s.ram_used.toNat = s.chunks.usage .ram ∧
      ∀ id, (s.ram_store id).isSome = true ↔ ∃ m, s.chunks.find id = some m ∧ m.tier = .ram := by
  constructor
  · exact fun h => ⟨h.vram, h.ram, h.stored⟩
  · rintro ⟨hvram, hram, hstored⟩
    refine ⟨hvram, hram, fun m hm => ⟨fun ht => ?_, fun ht => ?_⟩, hstored⟩
    · rw [UInt64.le_iff_toNat_le, hvram, ← ht]
      exact size_le_usage hm
    · rw [UInt64.le_iff_toNat_le, hram, ← ht]
      exact size_le_usage hm

theorem accounted_new : Accounted .new := by
  refine (accounted_iff _).mpr ⟨rfl, rfl, fun id => ?_⟩
  constructor
  · exact nofun
  · rintro ⟨m, hm, _⟩
    cases hm

/-! ## The calls -/

/-- What was in use and what is added fit in `usize`. -/
def Room (used size : UInt64) : Prop := used.toNat + size.toNat < 2 ^ 64

theorem sub_toNat_of_le {used size : UInt64} (h : size.toNat ≤ used.toNat) :
    (used - size).toNat = used.toNat - size.toNat :=
  UInt64.toNat_sub_of_le used size (UInt64.le_iff_toNat_le.mpr h)

/-- A chunk may take the place of one that counts nothing and keeps no data behind. -/
def Replaces (s : VugvaVmt) (chunk : Chunk) : Prop :=
  ∀ old, s.chunks.find chunk.id = some old →
    old.tier = .nvme ∨ old.size = 0 ∧ (old.tier = .ram → chunk.tier = .ram)

inductive Call where
  | insert (chunk : Chunk)
  | get (id : ChunkId)
  | promote_to_vram (id : ChunkId)
  | evict_to_ram (id : ChunkId) (data : Data)
  | remove (id : ChunkId)
  | evict_to_target (order : VugvaVmt.HashOrder)

/-- An inserted chunk replaces nothing that counts, and a counter that is added to does not
overflow. -/
def Fits (s : VugvaVmt) : Call → Prop
  | .insert chunk => Replaces s chunk ∧
      (chunk.tier = .vram → Room s.vram_used chunk.size) ∧
      (chunk.tier = .ram → Room s.ram_used chunk.size)
  | .promote_to_vram id => ∀ m, s.chunks.find id = some m → m.tier ≠ .vram →
      Room s.vram_used m.size
  | .evict_to_ram id _ => ∀ m, s.chunks.find id = some m → m.tier = .vram →
      Room s.ram_used m.size
  | _ => True

section Calls

variable {s : VugvaVmt}

/-- The bytes of a tier where a chunk takes the place of another. -/
theorem usage_replace (t : Tier) {cs : Chunks} {m m' : ChunkMeta} (h : cs.find m'.id = some m) :
    (cs.put m').usage t + weight t m = cs.usage t + weight t m' := by
  rw [usage_put, usage_find t h]
  omega

theorem weight_self {t : Tier} {m : ChunkMeta} (h : m.tier = t) : weight t m = m.size.toNat :=
  if_pos h

theorem weight_other {t : Tier} {m : ChunkMeta} (h : m.tier ≠ t) : weight t m = 0 := if_neg h

/-- A chunk of the same tier and size in its place. -/
theorem accounted_touch (h : Accounted s) {m m' : ChunkMeta} (hfind : s.chunks.find m'.id = some m)
    (htier : m'.tier = m.tier) (hsize : m'.size = m.size) (clock : UInt64) :
    Accounted { s with clock := clock, chunks := s.chunks.put m' } := by
  have husage : ∀ t, (s.chunks.put m').usage t = s.chunks.usage t := by
    intro t
    have hreplace := usage_replace t hfind
    rw [weight, weight, htier, hsize] at hreplace
    omega
  refine (accounted_iff _).mpr ⟨h.vram.trans (husage .vram).symm, h.ram.trans (husage .ram).symm, ?_⟩
  intro id
  dsimp only
  rw [h.stored, find_put]
  split
  · next hid =>
      subst hid
      rw [hfind]
      simp [htier]
  · rfl

/-- What the chunk with an id adds to the bytes of a tier. -/
def weightAt (t : Tier) (cs : Chunks) (id : ChunkId) : Nat := ((cs.find id).map (weight t)).getD 0

theorem usage_eq (t : Tier) (cs : Chunks) (id : ChunkId) :
    cs.usage t = weightAt t cs id + (cs.erase id).usage t := by
  unfold weightAt
  cases hfind : cs.find id with
  | none =>
      rw [usage_absent t hfind]
      exact (Nat.zero_add _).symm
  | some m => exact usage_find t hfind

theorem weightAt_eq_zero (t : Tier) (cs : Chunks) (id : ChunkId) :
    weightAt t cs id = 0 ↔ ∀ m, cs.find id = some m → m.tier = t → m.size = 0 := by
  unfold weightAt weight
  cases hfind : cs.find id with
  | none => simp
  | some m =>
      simp only [Option.map_some, Option.getD_some, Option.some.injEq, forall_eq']
      split
      · next h => simp [h, ← UInt64.toNat_inj]
      · next h => simp [h]

/-- A counter that is added to is exact after it where nothing was to be subtracted. -/
theorem counter_iff {used size : UInt64} {old rest : Nat} (h : used.toNat = old + rest) :
    (used + size).toNat = size.toNat + rest ↔ old = 0 ∧ Room used size := by
  have hused : used.toNat < 2 ^ 64 := used.toNat_lt
  have hsize : size.toNat < 2 ^ 64 := size.toNat_lt
  rw [UInt64.toNat_add, Room]
  omega

/-- A chunk that is not in RAM leaves no data behind. -/
theorem stored_put_iff (h : Accounted s) {m : ChunkMeta} (hm : m.tier ≠ .ram) :
    (∀ id, (s.ram_store id).isSome = true ↔
      ∃ m', (s.chunks.put m).find id = some m' ∧ m'.tier = .ram) ↔
    ∀ old, s.chunks.find m.id = some old → old.tier ≠ .ram := by
  constructor
  · intro hstored old hold hram
    have hsome := (h.stored m.id).mpr ⟨old, hold, hram⟩
    obtain ⟨m', hm', hram'⟩ := (hstored m.id).mp hsome
    rw [find_put, if_pos rfl] at hm'
    cases hm'
    exact hm hram'
  · intro hold id
    rw [h.stored, find_put]
    split
    · next hid =>
        subst hid
        constructor
        · rintro ⟨old, hfind, hram⟩
          exact absurd hram (hold old hfind)
        · rintro ⟨m', hm', hram⟩
          cases hm'
          exact absurd hram hm
    · rfl

/-- A chunk in RAM comes with its data. -/
theorem stored_put_ram (h : Accounted s) {m : ChunkMeta} (hm : m.tier = .ram) (data : Data)
    (id : ChunkId) :
    (Function.update s.ram_store m.id (some data) id).isSome = true ↔
      ∃ m', (s.chunks.put m).find id = some m' ∧ m'.tier = .ram := by
  rw [find_put]
  by_cases hid : id = m.id
  · subst hid
    rw [Function.update_self, if_pos rfl]
    simp [hm]
  · rw [Function.update_of_ne hid, if_neg hid]
    exact h.stored id

/-- An insertion keeps the counters exact exactly when it fits. -/
theorem insert_accounted_iff (h : Accounted s) (chunk : Chunk) :
    Accounted (s.insert chunk).1 ↔ Fits s (.insert chunk) := by
  have hvram := h.vram
  have hram := h.ram
  rw [usage_eq .vram s.chunks chunk.id] at hvram
  rw [usage_eq .ram s.chunks chunk.id] at hram
  have hold : (weightAt .vram s.chunks chunk.id = 0 ∧ weightAt .ram s.chunks chunk.id = 0 ∧
      (chunk.tier ≠ .ram → ∀ old, s.chunks.find chunk.id = some old → old.tier ≠ .ram)) ↔
      Replaces s chunk := by
    rw [weightAt_eq_zero, weightAt_eq_zero, Replaces]
    cases hfind : s.chunks.find chunk.id with
    | none => simp
    | some old =>
        simp only [Option.some.injEq, forall_eq']
        cases old.tier <;> simp
  rw [accounted_iff, Fits, ← hold]
  have hid : (s.registered chunk).id = chunk.id := rfl
  have hsize : (s.registered chunk).size = chunk.size := rfl
  have hnew : (s.registered chunk).tier = chunk.tier := rfl
  unfold VugvaVmt.insert
  cases htier : chunk.tier with
  | vram =>
      rw [htier] at hnew
      dsimp only
      rw [stored_put_iff h (by rw [hnew]; decide), usage_put, usage_put, weight_self hnew,
        weight_other (t := .ram) (by rw [hnew]; decide), hid, hsize, counter_iff hvram, hram]
      simp
      tauto
  | ram =>
      rw [htier] at hnew
      have hstored := stored_put_ram h hnew chunk.data
      dsimp only
      rw [usage_put, usage_put, weight_self hnew,
        weight_other (t := .vram) (by rw [hnew]; decide), hid, hsize, counter_iff hram, hvram]
      rw [hid] at hstored
      simp [hstored]
      tauto
  | nvme =>
      rw [htier] at hnew
      dsimp only
      rw [stored_put_iff h (by rw [hnew]; decide), usage_put, usage_put,
        weight_other (t := .vram) (by rw [hnew]; decide),
        weight_other (t := .ram) (by rw [hnew]; decide), hid, hvram, hram]
      simp

theorem get_accounted (h : Accounted s) (id : ChunkId) : Accounted (s.get id).1 := by
  unfold VugvaVmt.get
  cases hfind : s.chunks.find id with
  | none => exact (accounted_iff _).mpr ⟨h.vram, h.ram, h.stored⟩
  | some m =>
      obtain ⟨_, rfl⟩ := find_some hfind
      have htouch : s.chunks.find
          { m with
            last_access := s.clock + 1
            access_count := m.access_count + 1
            state := .hot }.id = some m := hfind
      exact accounted_touch h htouch rfl rfl _

/-- Data that go with a chunk that leaves RAM. -/
theorem stored_drop (h : Accounted s) {cs : Chunks} {id : ChunkId}
    (hother : ∀ id', id' ≠ id → cs.find id' = s.chunks.find id')
    (hgone : ∀ m, cs.find id = some m → m.tier ≠ .ram) (id' : ChunkId) :
    (Function.update s.ram_store id none id').isSome = true ↔
      ∃ m, cs.find id' = some m ∧ m.tier = .ram := by
  by_cases hid : id' = id
  · subst hid
    rw [Function.update_self]
    constructor
    · exact nofun
    · rintro ⟨m, hm, hram⟩
      exact absurd hram (hgone m hm)
  · rw [Function.update_of_ne hid, hother _ hid]
    exact h.stored id'

/-- A promotion keeps the counters exact exactly when it fits. -/
theorem promote_accounted_iff (h : Accounted s) (id : ChunkId) :
    Accounted (s.promote_to_vram id).1 ↔ Fits s (.promote_to_vram id) := by
  simp only [Fits]
  unfold VugvaVmt.promote_to_vram
  cases hfind : s.chunks.find id with
  | none =>
      simp only [reduceCtorEq, false_imp_iff, implies_true, iff_true]
      exact (accounted_iff _).mpr ⟨h.vram, h.ram, h.stored⟩
  | some m =>
      obtain ⟨hmem, rfl⟩ := find_some hfind
      simp only [Option.some.injEq, forall_eq']
      have hvram := h.vram
      have hram := h.ram
      rw [usage_find _ hfind] at hvram hram
      have hnew : ∀ c, weight .vram { m with tier := .vram, state := .hot, last_access := c } =
          m.size.toNat := fun c => weight_self rfl
      have hnone : ∀ c, weight .ram { m with tier := .vram, state := .hot, last_access := c } = 0 :=
        fun c => weight_other (by simp)
      cases htier : m.tier with
      | vram =>
          simp only [ne_eq, not_true_eq_false, false_imp_iff, iff_true]
          have htouch : s.chunks.find { m with last_access := s.clock + 1 }.id = some m := hfind
          have hsame := accounted_touch h htouch rfl rfl (s.clock + 1)
          rw [htier] at hsame
          exact hsame
      | ram =>
          rw [weight_other (by rw [htier]; decide)] at hvram
          rw [weight_self htier] at hram
          have hsub : (s.ram_used - m.size).toNat = s.ram_used.toNat - m.size.toNat :=
            sub_toNat_of_le (by omega)
          rw [accounted_iff]
          dsimp only
          rw [usage_put, usage_put, hnew, hnone, counter_iff hvram, hsub]
          simp only [ne_eq, reduceCtorEq, not_false_eq_true, true_imp_iff, true_and]
          refine and_iff_left ⟨by omega, stored_drop h (fun id' hid => ?_) ?_⟩
          · rw [find_put, if_neg hid]
          · intro m' hm'
            rw [find_put, if_pos rfl] at hm'
            cases hm'
            exact nofun
      | nvme =>
          rw [weight_other (by rw [htier]; decide)] at hvram
          rw [weight_other (by rw [htier]; decide)] at hram
          rw [accounted_iff]
          dsimp only
          rw [usage_put, usage_put, hnew, hnone, counter_iff hvram,
            stored_put_iff h (by simp)]
          simp only [ne_eq, reduceCtorEq, not_false_eq_true, true_imp_iff, true_and]
          refine and_iff_left ⟨hram, ?_⟩
          intro old hold
          rw [hfind] at hold
          cases hold
          rw [htier]
          decide

/-- An eviction keeps the counters exact exactly when it fits. -/
theorem evict_accounted_iff (h : Accounted s) (id : ChunkId) (data : Data) :
    Accounted (s.evict_to_ram id data).1 ↔ Fits s (.evict_to_ram id data) := by
  simp only [Fits]
  unfold VugvaVmt.evict_to_ram
  cases hfind : s.chunks.find id with
  | none => simpa using h
  | some m =>
      obtain ⟨hmem, rfl⟩ := find_some hfind
      simp only [Option.some.injEq, forall_eq']
      by_cases htier : m.tier = .vram
      · have hvram := h.vram
        have hram := h.ram
        rw [usage_find _ hfind] at hvram hram
        rw [weight_self htier] at hvram
        rw [weight_other (by rw [htier]; decide)] at hram
        have hnew : weight .ram { m with tier := .ram, state := .cold } = m.size.toNat :=
          weight_self rfl
        have hnone : weight .vram { m with tier := .ram, state := .cold } = 0 :=
          weight_other (by simp)
        have hsub : (s.vram_used - m.size).toNat = s.vram_used.toNat - m.size.toNat :=
          sub_toNat_of_le (by omega)
        have hstored := stored_put_ram h (m := { m with tier := .ram, state := .cold }) rfl data
        rw [if_pos htier, accounted_iff]
        dsimp only
        rw [usage_put, usage_put, hnew, hnone, counter_iff hram, hsub]
        simp only [htier, true_imp_iff, true_and]
        exact ⟨fun hall => hall.2.1, fun hroom => ⟨by omega, hroom, hstored⟩⟩
      · rw [if_neg htier]
        simpa [htier] using h

theorem remove_accounted (h : Accounted s) (id : ChunkId) : Accounted (s.remove id).1 := by
  unfold VugvaVmt.remove
  cases hfind : s.chunks.find id with
  | none => exact h
  | some m =>
      obtain ⟨hmem, rfl⟩ := find_some hfind
      have hvram := h.vram
      have hram := h.ram
      rw [usage_find _ hfind] at hvram hram
      refine (accounted_iff _).mpr ⟨?_, ?_, stored_drop h (fun id' hid => ?_) ?_⟩
      · dsimp only
        split
        · next htier =>
            rw [weight_self htier] at hvram
            rw [sub_toNat_of_le (by omega)]
            omega
        · next htier =>
            rw [weight_other htier] at hvram
            omega
      · dsimp only
        split
        · next htier =>
            rw [weight_self htier] at hram
            rw [sub_toNat_of_le (by omega)]
            omega
        · next htier =>
            rw [weight_other htier] at hram
            omega
      · rw [find_erase, if_neg hid]
      · intro m' hm'
        rw [find_erase, if_pos rfl] at hm'
        cases hm'

end Calls

/-! ## The eviction loop -/

section Loop

variable {config : VugvaConfig} {order : VugvaVmt.HashOrder} {s s' : VugvaVmt}

/-- The chunk is in VRAM, and none in VRAM has an older access. -/
structure Oldest (s : VugvaVmt) (id : ChunkId) (m : ChunkMeta) : Prop where
  find : s.chunks.find id = some m
  tier : m.tier = .vram
  oldest : ∀ m' ∈ s.chunks.metas, m'.tier = .vram → m.last_access.toNat ≤ m'.last_access.toNat

theorem mem_vram {m : ChunkMeta} :
    m ∈ (order.values s.chunks.metas).filter (fun m => m.tier = .vram) ↔
      m ∈ s.chunks.metas ∧ m.tier = .vram := by
  rw [List.mem_filter, (order.perm _).mem_iff, decide_eq_true_iff]

theorem lru_some {id : ChunkId} (h : s.lru_candidate order = some id) : ∃ m, Oldest s id m := by
  obtain ⟨m, hm, rfl⟩ := Option.map_eq_some_iff.mp h
  obtain ⟨hmem, htier⟩ := mem_vram.mp (List.argmin_mem hm)
  refine ⟨m, find_of_mem hmem, htier, ?_⟩
  intro m' hm' htier'
  have hmem' : m' ∈ (order.values s.chunks.metas).filter (fun m => m.tier = .vram) :=
    mem_vram.mpr ⟨hm', htier'⟩
  exact List.le_of_mem_argmin (f := fun m : ChunkMeta => m.last_access.toNat) hmem' hm

theorem lru_none (h : s.lru_candidate order = none) : ∀ m ∈ s.chunks.metas, m.tier ≠ .vram := by
  intro m hm htier
  have hnil := List.argmin_eq_none.mp (Option.map_eq_none_iff.mp h)
  have hmem : m ∈ (order.values s.chunks.metas).filter (fun m => m.tier = .vram) :=
    mem_vram.mpr ⟨hm, htier⟩
  rw [hnil] at hmem
  cases hmem

/-- The table after the eviction of a chunk in VRAM. -/
theorem evict_moves {id : ChunkId} {m : ChunkMeta} (data : Data) (hfind : s.chunks.find id = some m)
    (htier : m.tier = .vram) :
    (s.evict_to_ram id data).2 = true ∧
      (s.evict_to_ram id data).1.chunks = s.chunks.put { m with tier := .ram, state := .cold } ∧
      (s.evict_to_ram id data).1.clock = s.clock := by
  unfold VugvaVmt.evict_to_ram
  rw [hfind]
  dsimp only
  rw [if_pos htier]
  exact ⟨rfl, rfl, rfl⟩

/-- The chunks in VRAM. -/
def in_vram (m : ChunkMeta) : Nat := if m.tier = .vram then 1 else 0

theorem evict_fewer {id : ChunkId} {m : ChunkMeta} (data : Data)
    (hfind : s.chunks.find id = some m) (htier : m.tier = .vram) :
    (s.evict_to_ram id data).1.chunks.total in_vram + 1 = s.chunks.total in_vram := by
  obtain ⟨_, rfl⟩ := find_some hfind
  rw [(evict_moves data hfind htier).2.1, total_put, total_find _ hfind]
  simp only [in_vram, htier, if_true]
  rw [if_neg (by decide)]
  omega

/-- The loop moves chunks one after the other, each the oldest in VRAM of the table that it
meets, as long as the watermark is exceeded. -/
def Evicts (config : VugvaConfig) : VugvaVmt → List (VugvaVmt × ChunkId) → VugvaVmt → Prop
  | s, [], s' => s' = s ∧
      (s.needs_eviction config = false ∨ ∀ m ∈ s.chunks.metas, m.tier ≠ .vram)
  | s, v :: vs, s' => v.1 = s ∧ s.needs_eviction config = true ∧ (∃ m, Oldest s v.2 m) ∧
      Evicts config (s.evict_to_ram v.2 placeholder).1 vs s'

theorem evict_to_target_evicts {fuel : Nat} {e : Eviction}
    (hfuel : e.vmt.chunks.total in_vram < fuel) :
    ∃ vs stats vmt, evict_to_target config order fuel e =
        some { vmt := vmt, stats := stats, evicted := e.evicted + vs.length
               victims := e.victims ++ vs } ∧
      Evicts config e.vmt vs vmt := by
  induction fuel generalizing e with
  | zero => exact absurd hfuel (Nat.not_lt_zero _)
  | succ fuel ih =>
      rw [evict_to_target]
      cases hneeds : e.vmt.needs_eviction config with
      | false =>
          refine ⟨[], e.stats, e.vmt, ?_, rfl, Or.inl hneeds⟩
          simp
      | true =>
          rw [if_pos rfl]
          cases hlru : e.vmt.lru_candidate order with
          | none =>
              refine ⟨[], e.stats, e.vmt, ?_, rfl, Or.inr (lru_none hlru)⟩
              simp
          | some id =>
              obtain ⟨m, hm⟩ := lru_some hlru
              obtain ⟨hsome, _⟩ := evict_moves placeholder hm.find hm.tier
              have hfewer := evict_fewer placeholder hm.find hm.tier
              dsimp only
              rw [show e.vmt.evict_to_ram id placeholder =
                ((e.vmt.evict_to_ram id placeholder).1, true) from Prod.ext rfl hsome]
              obtain ⟨vs, stats, vmt, hloop, hevicts⟩ := ih
                (e := { vmt := (e.vmt.evict_to_ram id placeholder).1
                        stats :=
                          { total_evictions := e.stats.total_evictions + 1
                            bytes_evicted := e.stats.bytes_evicted + 4096 }
                        evicted := e.evicted + 1
                        victims := e.victims ++ [(e.vmt, id)] }) (by dsimp only; omega)
              refine ⟨(e.vmt, id) :: vs, stats, vmt, ?_, rfl, hneeds, ⟨m, hm⟩, hevicts⟩
              dsimp only
              rw [hloop, List.length_cons, List.append_assoc, List.singleton_append,
                Nat.add_assoc, Nat.add_comm 1]

/-- More fuel changes nothing. -/
theorem evict_to_target_mono {fuel fuel' : Nat} (hle : fuel ≤ fuel') {e e' : Eviction}
    (h : evict_to_target config order fuel e = some e') :
    evict_to_target config order fuel' e = some e' := by
  induction fuel generalizing fuel' e with
  | zero => cases h
  | succ fuel ih =>
      obtain ⟨more, rfl⟩ : ∃ more, fuel' = more + 1 := ⟨fuel' - 1, by omega⟩
      rw [evict_to_target] at h ⊢
      cases hneeds : e.vmt.needs_eviction config with
      | false => simpa [hneeds] using h
      | true =>
          rw [hneeds, if_pos rfl] at h
          rw [if_pos rfl]
          cases hlru : e.vmt.lru_candidate order with
          | none => simpa [hlru] using h
          | some id =>
              rw [hlru] at h
              dsimp only at h ⊢
              cases hevict : e.vmt.evict_to_ram id placeholder with
              | mk vmt moved =>
                  rw [hevict] at h
                  cases moved with
                  | false => exact h
                  | true => exact ih (Nat.le_of_succ_le_succ hle) h

/-- When a chunk of the table was last accessed. -/
def stamp (s : VugvaVmt) (id : ChunkId) : Nat :=
  ((s.chunks.find id).map fun m => m.last_access.toNat).getD 0

theorem find_evicted {id : ChunkId} {m : ChunkMeta} (hm : Oldest s id m) (id' : ChunkId) :
    (s.evict_to_ram id placeholder).1.chunks.find id' =
      if id' = id then some { m with tier := .ram, state := .cold } else s.chunks.find id' := by
  obtain ⟨_, rfl⟩ := find_some hm.find
  rw [(evict_moves placeholder hm.find hm.tier).2.1, find_put]

theorem stamp_evicted {id : ChunkId} {m : ChunkMeta} (hm : Oldest s id m) (id' : ChunkId) :
    stamp (s.evict_to_ram id placeholder).1 id' = stamp s id' := by
  rw [stamp, stamp, find_evicted hm]
  split
  · next hid =>
      rw [hid, hm.find]
      rfl
  · rfl

/-- What the loop does to the table: it moves the victims from VRAM to RAM, in the order of
their last access and each before any that stays, and leaves the others. -/
structure Moves (s : VugvaVmt) (ids : List ChunkId) (s' : VugvaVmt) : Prop where
  moved : ∀ id ∈ ids, ∃ m, s.chunks.find id = some m ∧ m.tier = .vram ∧
    s'.chunks.find id = some { m with tier := .ram, state := .cold }
  others : ∀ id, id ∉ ids → s'.chunks.find id = s.chunks.find id
  in_order : ids.Pairwise fun a b => stamp s a ≤ stamp s b
  oldest : ∀ id ∈ ids, ∀ m ∈ s'.chunks.metas, m.tier = .vram → stamp s id ≤ m.last_access.toNat

theorem evicts_moves {vs : List (VugvaVmt × ChunkId)} (h : Evicts config s vs s') :
    Moves s (vs.map Prod.snd) s' := by
  induction vs generalizing s with
  | nil =>
      obtain ⟨rfl, _⟩ := h
      exact ⟨nofun, fun _ _ => rfl, List.Pairwise.nil, nofun⟩
  | cons v vs ih =>
      obtain ⟨_, _, ⟨m, hm⟩, hrest⟩ := h
      have hmoves := ih hrest
      have hstamp : stamp s v.2 = m.last_access.toNat := by rw [stamp, hm.find]; rfl
      -- a chunk that is moved is not moved again
      have hfresh : v.2 ∉ vs.map Prod.snd := by
        intro hmem
        obtain ⟨m', hfind, htier, _⟩ := hmoves.moved _ hmem
        rw [find_evicted hm, if_pos rfl] at hfind
        cases hfind
        cases htier
      have hbefore : ∀ id, id ≠ v.2 →
          (s.evict_to_ram v.2 placeholder).1.chunks.find id = s.chunks.find id := by
        intro id hid
        rw [find_evicted hm, if_neg hid]
      have hlater : ∀ id ∈ vs.map Prod.snd, id ≠ v.2 := by
        rintro id hid rfl
        exact hfresh hid
      refine ⟨?_, ?_, ?_, ?_⟩
      · rw [List.map_cons, List.forall_mem_cons]
        constructor
        · refine ⟨m, hm.find, hm.tier, ?_⟩
          rw [hmoves.others _ hfresh, find_evicted hm, if_pos rfl]
        · intro id hid
          rw [← hbefore id (hlater id hid)]
          exact hmoves.moved id hid
      · intro id hid
        rw [List.map_cons, List.mem_cons, not_or] at hid
        rw [hmoves.others id hid.2, hbefore id hid.1]
      · rw [List.map_cons, List.pairwise_cons]
        constructor
        · intro id hid
          obtain ⟨m', hfind, htier, _⟩ := hmoves.moved id hid
          rw [hbefore id (hlater id hid)] at hfind
          rw [hstamp, stamp, hfind]
          exact hm.oldest m' (find_some hfind).1 htier
        · refine hmoves.in_order.imp ?_
          intro a b hab
          rwa [stamp_evicted hm, stamp_evicted hm] at hab
      · rw [List.map_cons, List.forall_mem_cons]
        constructor
        · intro m' hm' htier
          have hfind := find_of_mem hm'
          have hstay : m'.id ∉ vs.map Prod.snd := by
            intro hmem
            obtain ⟨m'', _, _, hram⟩ := hmoves.moved _ hmem
            rw [hfind] at hram
            cases hram
            cases htier
          have hne : m'.id ≠ v.2 := by
            intro hid
            rw [hmoves.others _ hstay, find_evicted hm, if_pos hid] at hfind
            cases hfind
            cases htier
          rw [hmoves.others _ hstay, hbefore _ hne] at hfind
          rw [hstamp]
          exact hm.oldest m' (find_some hfind).1 htier
        · intro id hid m' hm' htier
          rw [← stamp_evicted hm]
          exact hmoves.oldest id hid m' hm' htier

theorem evicts_ended {vs : List (VugvaVmt × ChunkId)} (h : Evicts config s vs s') :
    s'.needs_eviction config = false ∨ ∀ m ∈ s'.chunks.metas, m.tier ≠ .vram := by
  induction vs generalizing s with
  | nil =>
      obtain ⟨rfl, hend⟩ := h
      exact hend
  | cons v vs ih => exact ih h.2.2.2

/-- The counters stay exact in the loop exactly when each of its evictions fits. -/
theorem evicts_accounted_iff {vs : List (VugvaVmt × ChunkId)} (hs : Accounted s)
    (h : Evicts config s vs s') :
    ((∀ v ∈ vs, Accounted v.1) ∧ Accounted s') ↔
      ∀ v ∈ vs, Fits v.1 (.evict_to_ram v.2 placeholder) := by
  induction vs generalizing s with
  | nil =>
      obtain ⟨rfl, _⟩ := h
      exact ⟨fun _ => nofun, fun _ => ⟨nofun, hs⟩⟩
  | cons v vs ih =>
      obtain ⟨rfl, _, _, hrest⟩ := h
      have hhead := evict_accounted_iff hs v.2 placeholder
      rw [List.forall_mem_cons, List.forall_mem_cons]
      constructor
      · rintro ⟨⟨_, hmid⟩, hend⟩
        have hnext : Accounted (v.1.evict_to_ram v.2 placeholder).1 := by
          cases vs with
          | nil =>
              obtain ⟨rfl, _⟩ := hrest
              exact hend
          | cons w ws =>
              rw [← hrest.1]
              exact hmid w List.mem_cons_self
        exact ⟨hhead.mp hnext, (ih hnext hrest).mp ⟨hmid, hend⟩⟩
      · rintro ⟨hfits, hmore⟩
        have hnext := hhead.mpr hfits
        obtain ⟨hmid, hend⟩ := (ih hnext hrest).mpr hmore
        exact ⟨⟨hs, hmid⟩, hend⟩

end Loop

end Vmt
end StrikeDB
