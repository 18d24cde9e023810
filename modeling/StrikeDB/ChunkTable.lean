import Mathlib.Algebra.Order.Field.Rat
import Mathlib.Data.List.MinMax
import Mathlib.Tactic

/-!
# StrikeDB: the table of chunks

The virtual memory table knows the tier of each chunk, keeps the data of the chunks in RAM,
and counts the bytes in VRAM and in RAM by adding and subtracting sizes.  Capacities and the
watermark are exact numbers here.

**Results.**
* `find_put`, `find_erase`: the map of the table.
* `total_put`, `total_find`: what one chunk adds to a sum over all.
-/

namespace StrikeDB
namespace Vmt

inductive Tier where
  | vram
  | ram
  | nvme
deriving DecidableEq

inductive ChunkState where
  | hot
  | warm
  | cold
  | transferring
deriving DecidableEq

abbrev ChunkId := UInt64

abbrev Data := List UInt8

/-- A data block; `placeholder` makes one of any size without data. -/
structure Chunk where
  id : ChunkId
  tier : Tier
  state : ChunkState
  data : Data
  size : UInt64

structure ChunkMeta where
  id : ChunkId
  tier : Tier
  state : ChunkState
  size : UInt64
  last_access : UInt64
  access_count : UInt64

structure VugvaConfig where
  vram_capacity : UInt64
  lru_high_watermark : ℚ

/-! ## The map of the table -/

/-- The entries of the map, one for each id. -/
structure Chunks where
  metas : List ChunkMeta
  nodup : (metas.map ChunkMeta.id).Nodup

namespace Chunks

def empty : Chunks := { metas := [], nodup := List.nodup_nil }

def find (cs : Chunks) (id : ChunkId) : Option ChunkMeta := cs.metas.find? fun m => m.id = id

def erase (cs : Chunks) (id : ChunkId) : Chunks :=
  { metas := cs.metas.filter fun m => m.id ≠ id
    nodup := cs.nodup.sublist (List.filter_sublist.map _) }

def put (cs : Chunks) (m : ChunkMeta) : Chunks :=
  { metas := m :: (cs.erase m.id).metas
    nodup := by
      rw [List.map_cons, List.nodup_cons]
      refine ⟨?_, (cs.erase m.id).nodup⟩
      intro hmem
      obtain ⟨m', hm', hid⟩ := List.mem_map.mp hmem
      simpa [hid] using (List.mem_filter.mp hm').2 }

theorem find_some {cs : Chunks} {id : ChunkId} {m : ChunkMeta} (h : cs.find id = some m) :
    m ∈ cs.metas ∧ m.id = id :=
  ⟨List.mem_of_find?_eq_some h, by simpa using List.find?_some h⟩

theorem find_of_mem {cs : Chunks} {m : ChunkMeta} (h : m ∈ cs.metas) : cs.find m.id = some m := by
  cases hfind : cs.find m.id with
  | none =>
      have hno := List.find?_eq_none.mp hfind m h
      simp at hno
  | some m' =>
      obtain ⟨hmem, hid⟩ := find_some hfind
      rw [List.inj_on_of_nodup_map cs.nodup hmem h hid]

theorem mem_erase {cs : Chunks} {id : ChunkId} {m : ChunkMeta} :
    m ∈ (cs.erase id).metas ↔ m ∈ cs.metas ∧ m.id ≠ id := by
  rw [erase, List.mem_filter, decide_eq_true_iff]

theorem mem_put {cs : Chunks} {m m' : ChunkMeta} :
    m' ∈ (cs.put m).metas ↔ m' = m ∨ m' ∈ cs.metas ∧ m'.id ≠ m.id := by
  rw [put, List.mem_cons, mem_erase]

/-- Which chunk an id names is what the members say. -/
theorem find_eq_some_iff {cs : Chunks} {id : ChunkId} {m : ChunkMeta} :
    cs.find id = some m ↔ m ∈ cs.metas ∧ m.id = id := by
  constructor
  · exact find_some
  · rintro ⟨hmem, rfl⟩
    exact find_of_mem hmem

theorem find_put (cs : Chunks) (m : ChunkMeta) (id : ChunkId) :
    (cs.put m).find id = if id = m.id then some m else cs.find id := by
  ext m'
  rw [find_eq_some_iff, mem_put]
  split
  · next h =>
      subst h
      rw [Option.some_inj]
      constructor
      · rintro ⟨rfl | ⟨_, hne⟩, hid⟩
        · rfl
        · exact absurd hid hne
      · rintro rfl
        exact ⟨Or.inl rfl, rfl⟩
  · next h =>
      rw [find_eq_some_iff]
      constructor
      · rintro ⟨rfl | ⟨hmem, _⟩, hid⟩
        · exact absurd hid.symm h
        · exact ⟨hmem, hid⟩
      · rintro ⟨hmem, rfl⟩
        exact ⟨Or.inr ⟨hmem, h⟩, rfl⟩

theorem find_erase (cs : Chunks) (id id' : ChunkId) :
    (cs.erase id).find id' = if id' = id then none else cs.find id' := by
  ext m
  rw [find_eq_some_iff, mem_erase]
  split
  · next h =>
      subst h
      constructor
      · rintro ⟨⟨_, hne⟩, hid⟩
        exact absurd hid hne
      · exact nofun
  · next h =>
      rw [find_eq_some_iff]
      constructor
      · rintro ⟨⟨hmem, _⟩, hid⟩
        exact ⟨hmem, hid⟩
      · rintro ⟨hmem, rfl⟩
        exact ⟨⟨hmem, h⟩, rfl⟩

/-- The sum of a weight of the chunks. -/
def total (w : ChunkMeta → Nat) (cs : Chunks) : Nat := (cs.metas.map w).sum

theorem total_put (w : ChunkMeta → Nat) (cs : Chunks) (m : ChunkMeta) :
    (cs.put m).total w = w m + (cs.erase m.id).total w := by
  rw [total, put, List.map_cons, List.sum_cons, total]

theorem total_find (w : ChunkMeta → Nat) {cs : Chunks} {id : ChunkId} {m : ChunkMeta}
    (h : cs.find id = some m) : cs.total w = w m + (cs.erase id).total w := by
  obtain ⟨hmem, rfl⟩ := find_some h
  obtain ⟨front, back, hsplit⟩ := List.append_of_mem hmem
  have hnodup := cs.nodup
  have hkeep : (cs.erase m.id).metas = front ++ back := by
    rw [hsplit, List.map_append, List.map_cons, List.nodup_middle, List.nodup_cons,
      List.mem_append] at hnodup
    have hfront : ∀ m' ∈ front, m'.id ≠ m.id :=
      fun m' hm' hid => hnodup.1 (Or.inl (List.mem_map.mpr ⟨m', hm', hid⟩))
    have hback : ∀ m' ∈ back, m'.id ≠ m.id :=
      fun m' hm' hid => hnodup.1 (Or.inr (List.mem_map.mpr ⟨m', hm', hid⟩))
    change cs.metas.filter _ = _
    rw [hsplit, List.filter_append, List.filter_cons_of_neg (by simp),
      List.filter_eq_self.mpr fun m' hm' => decide_eq_true (hfront m' hm'),
      List.filter_eq_self.mpr fun m' hm' => decide_eq_true (hback m' hm')]
  rw [total, total, hkeep, hsplit, List.map_append, List.map_append, List.map_cons,
    List.sum_append, List.sum_append, List.sum_cons]
  omega

theorem erase_absent {cs : Chunks} {id : ChunkId} (h : cs.find id = none) :
    (cs.erase id).metas = cs.metas := by
  refine List.filter_eq_self.mpr ?_
  intro m hm
  have hno := List.find?_eq_none.mp h m hm
  simpa using hno

/-- What a chunk adds to the bytes of a tier. -/
def weight (t : Tier) (m : ChunkMeta) : Nat := if m.tier = t then m.size.toNat else 0

/-- The bytes of a tier. -/
def usage (t : Tier) (cs : Chunks) : Nat := cs.total (weight t)

theorem usage_put (t : Tier) (cs : Chunks) (m : ChunkMeta) :
    (cs.put m).usage t = weight t m + (cs.erase m.id).usage t :=
  total_put _ cs m

theorem usage_find (t : Tier) {cs : Chunks} {id : ChunkId} {m : ChunkMeta}
    (h : cs.find id = some m) : cs.usage t = weight t m + (cs.erase id).usage t :=
  total_find _ h

theorem usage_absent (t : Tier) {cs : Chunks} {id : ChunkId} (h : cs.find id = none) :
    cs.usage t = (cs.erase id).usage t := by
  rw [usage, usage, total, total, erase_absent h]

/-- A chunk is no larger than its tier. -/
theorem size_le_usage {cs : Chunks} {m : ChunkMeta} (h : m ∈ cs.metas) :
    m.size.toNat ≤ cs.usage m.tier := by
  rw [usage_find m.tier (find_of_mem h), weight, if_pos rfl]
  exact Nat.le_add_right _ _

end Chunks

/-! ## The table -/

structure VugvaVmt where
  chunks : Chunks
  /-- Only for chunks in the RAM tier. -/
  ram_store : ChunkId → Option Data
  vram_used : UInt64
  ram_used : UInt64
  clock : UInt64

namespace VugvaVmt

def new : VugvaVmt :=
  { chunks := .empty, ram_store := fun _ => none, vram_used := 0, ram_used := 0, clock := 0 }

/-- The entry of a chunk that is registered now. -/
def registered (s : VugvaVmt) (chunk : Chunk) : ChunkMeta :=
  { id := chunk.id
    tier := chunk.tier
    state := chunk.state
    size := chunk.size
    last_access := s.clock
    access_count := 1 }

def insert (s : VugvaVmt) (chunk : Chunk) : VugvaVmt × ChunkId :=
  let chunks := s.chunks.put (registered s chunk)
  match chunk.tier with
  | .vram => ({ s with chunks := chunks, vram_used := s.vram_used + chunk.size }, chunk.id)
  | .ram =>
      ({ s with
          chunks := chunks
          ram_store := Function.update s.ram_store chunk.id (some chunk.data)
          ram_used := s.ram_used + chunk.size }, chunk.id)
  | .nvme => ({ s with chunks := chunks }, chunk.id)

def get (s : VugvaVmt) (id : ChunkId) : VugvaVmt × Option Tier :=
  let clock := s.clock + 1
  match s.chunks.find id with
  | some m =>
      ({ s with
          clock := clock
          chunks := s.chunks.put
            { m with last_access := clock, access_count := m.access_count + 1, state := .hot } },
        some m.tier)
  | none => ({ s with clock := clock }, none)

def promote_to_vram (s : VugvaVmt) (id : ChunkId) : VugvaVmt × Option Data :=
  let clock := s.clock + 1
  match s.chunks.find id with
  | none => ({ s with clock := clock }, none)
  | some m =>
      let promoted := { m with tier := .vram, state := .hot, last_access := clock }
      match m.tier with
      | .vram =>
          ({ s with clock := clock, chunks := s.chunks.put { m with last_access := clock } }, none)
      | .ram =>
          ({ s with
              clock := clock
              chunks := s.chunks.put promoted
              ram_store := Function.update s.ram_store id none
              ram_used := s.ram_used - m.size
              vram_used := s.vram_used + m.size },
            some ((s.ram_store id).getD []))
      | .nvme =>
          ({ s with
              clock := clock
              chunks := s.chunks.put promoted
              vram_used := s.vram_used + m.size },
            some (List.replicate m.size.toNat 0))

def evict_to_ram (s : VugvaVmt) (id : ChunkId) (data : Data) : VugvaVmt × Bool :=
  match s.chunks.find id with
  | none => (s, false)
  | some m =>
      if m.tier = .vram then
        ({ s with
            chunks := s.chunks.put { m with tier := .ram, state := .cold }
            vram_used := s.vram_used - m.size
            ram_store := Function.update s.ram_store id (some data)
            ram_used := s.ram_used + m.size }, true)
      else (s, false)

def remove (s : VugvaVmt) (id : ChunkId) : VugvaVmt × Option Data :=
  match s.chunks.find id with
  | none => (s, none)
  | some m =>
      ({ s with
          chunks := s.chunks.erase id
          vram_used := if m.tier = .vram then s.vram_used - m.size else s.vram_used
          ram_used := if m.tier = .ram then s.ram_used - m.size else s.ram_used
          ram_store := Function.update s.ram_store id none },
        s.ram_store id)

/-- The order in which a hash map is walked. -/
structure HashOrder where
  values : List ChunkMeta → List ChunkMeta
  perm : ∀ metas, (values metas).Perm metas

/-- The oldest access in VRAM, the first of several. -/
def lru_candidate (order : HashOrder) (s : VugvaVmt) : Option ChunkId :=
  (((order.values s.chunks.metas).filter fun m => m.tier = .vram).argmin
    fun m => m.last_access.toNat).map ChunkMeta.id

/-- What part of VRAM a number of bytes is. -/
def ratio (config : VugvaConfig) (bytes : Nat) : ℚ :=
  if config.vram_capacity = 0 then 0
  else (bytes : ℚ) / (config.vram_capacity.toNat : ℚ)

def vram_usage_ratio (config : VugvaConfig) (s : VugvaVmt) : ℚ := ratio config s.vram_used.toNat

def needs_eviction (config : VugvaConfig) (s : VugvaVmt) : Bool :=
  vram_usage_ratio config s > config.lru_high_watermark

end VugvaVmt

/-! ## The evictor -/

structure EvictionStats where
  total_evictions : UInt64
  bytes_evicted : UInt64

def placeholder : Data := List.replicate 4096 0

/-- Where the loop of `evict_to_target` is: what it returns, and what it moved so far, each
chunk with the table before. -/
structure Eviction where
  vmt : VugvaVmt
  stats : EvictionStats
  evicted : Nat
  victims : List (VugvaVmt × ChunkId)

/-- Nothing is yielded where the fuel does not suffice. -/
def evict_to_target (config : VugvaConfig) (order : VugvaVmt.HashOrder) :
    Nat → Eviction → Option Eviction
  | 0, _ => none
  | fuel + 1, e =>
      if e.vmt.needs_eviction config then
        match e.vmt.lru_candidate order with
        | some lru_id =>
            match e.vmt.evict_to_ram lru_id placeholder with
            | (vmt, true) =>
                evict_to_target config order fuel
                  { vmt := vmt
                    stats :=
                      { total_evictions := e.stats.total_evictions + 1
                        bytes_evicted := e.stats.bytes_evicted + 4096 }
                    evicted := e.evicted + 1
                    victims := e.victims ++ [(e.vmt, lru_id)] }
            | (vmt, false) => some { e with vmt := vmt }
        | none => some e
      else some e

end Vmt
end StrikeDB
