import Mathlib.Data.List.Basic
import Mathlib.Tactic

/-!
# StrikeDB: the DMA command rings

One ring of 1024 descriptors for each GPU.  The engine writes descriptors and advances the
producer index, the consumer reads and acknowledges them.  Both indices run freely in 32 bits
(a release build wraps), and the sizes of transfers are narrowed to 32 bits.

A run mixes transfers of all kinds to all GPUs with calls of the consumers.  `asked` and
`acked` record, for each ring, the transfers that were accepted and the descriptors that were
acknowledged.

**Results.**
* `lawful_submit`: what one accepted transfer preserves, and when.
* `lossless_iff`: the rings are lossless queues throughout a run exactly when every accepted
  transfer is below 4 GiB and none is number 2^32 of its ring.
-/

namespace StrikeDB
namespace Dma

structure DmaDescriptor where
  src_addr : UInt64
  dst_addr : UInt64
  size : UInt32
  src_ordinal : UInt32
  dst_ordinal : UInt32
  priority : UInt32
  flags : UInt32
deriving DecidableEq

/-- The destination is host memory. -/
def DMA_FLAG_WRITEBACK : UInt32 := 1

def DmaDescriptor.zero : DmaDescriptor :=
  { src_addr := 0, dst_addr := 0, size := 0, src_ordinal := 0, dst_ordinal := 0, priority := 0
    flags := 0 }

abbrev CAPACITY : Nat := 1024

structure DmaRing where
  ring : Fin CAPACITY → DmaDescriptor
  consumer : UInt32
  submitted : UInt32
  completed : UInt32

inductive VugvaError where
  | dmaRingFull
  | invalidGpu (gpu : Nat)
deriving DecidableEq

def saturating_sub (a b : UInt32) : UInt32 := if b ≤ a then a - b else 0

namespace DmaRing

def capacity : UInt32 := 1024
def mask : UInt32 := capacity - 1

def new : DmaRing :=
  { ring := fun _ => .zero, consumer := 0, submitted := 0, completed := 0 }

/-- `index & mask` -/
def slot (index : UInt32) : Fin CAPACITY :=
  ⟨(index &&& mask).toNat, by
    rw [UInt32.toNat_and]
    exact lt_of_le_of_lt Nat.and_le_right (by decide)⟩

def pending_count (r : DmaRing) : UInt32 := saturating_sub r.submitted r.consumer

def is_full (r : DmaRing) : Bool := r.pending_count ≥ capacity

def submit (r : DmaRing) (desc : DmaDescriptor) : Except VugvaError (UInt32 × DmaRing) :=
  if r.is_full then .error .dmaRingFull
  else
    let s := slot r.submitted
    .ok (UInt32.ofNat s.val,
      { r with ring := Function.update r.ring s desc, submitted := r.submitted + 1 })

def peek (r : DmaRing) : Option DmaDescriptor :=
  if r.consumer ≥ r.submitted then none else some (r.ring (slot r.consumer))

/-- `ack`, `mark_complete` included. -/
def ack (r : DmaRing) : DmaRing :=
  { r with consumer := r.consumer + 1, completed := r.completed + 1 }

end DmaRing

/-! ## The engine -/

inductive Direction where
  | dram_to_vram (dst_gpu : Nat)
  | vram_to_dram (src_gpu : Nat)
  | vram_to_vram (src_gpu dst_gpu : Nat)
deriving DecidableEq

/-- What the engine is asked to move; sizes are `usize`. -/
structure Transfer where
  direction : Direction
  src_addr : UInt64
  dst_addr : UInt64
  size_bytes : UInt64
  priority : UInt32
deriving DecidableEq

namespace Transfer

/-- The GPU whose ring takes the transfer. -/
def gpu (t : Transfer) : Nat :=
  match t.direction with
  | .dram_to_vram dst => dst
  | .vram_to_dram src => src
  | .vram_to_vram _ dst => dst

/-- The greatest GPU that the transfer names. -/
def named (t : Transfer) : Nat :=
  match t.direction with
  | .dram_to_vram dst => dst
  | .vram_to_dram src => src
  | .vram_to_vram src dst => max src dst

/-- `as u32` for the size and the ordinals. -/
def descriptor (t : Transfer) : DmaDescriptor :=
  { src_addr := t.src_addr
    dst_addr := t.dst_addr
    size := t.size_bytes.toUInt32
    src_ordinal :=
      match t.direction with
      | .dram_to_vram dst => UInt32.ofNat dst
      | .vram_to_dram src => UInt32.ofNat src
      | .vram_to_vram src _ => UInt32.ofNat src
    dst_ordinal :=
      match t.direction with
      | .dram_to_vram dst => UInt32.ofNat dst
      | .vram_to_dram src => UInt32.ofNat src
      | .vram_to_vram _ dst => UInt32.ofNat dst
    priority := t.priority
    flags :=
      match t.direction with
      | .vram_to_dram _ => DMA_FLAG_WRITEBACK
      | _ => 0 }

theorem gpu_le_named (t : Transfer) : t.gpu ≤ t.named := by
  unfold gpu named
  cases t.direction with
  | dram_to_vram | vram_to_dram => exact le_refl _
  | vram_to_vram src dst => exact le_max_right src dst

end Transfer

/-- One ring for each of `num_gpus` GPUs. -/
abbrev DmaEngine (num_gpus : Nat) := Fin num_gpus → DmaRing

variable {num_gpus : Nat}

/-- `submit_dram_to_vram`, `submit_vram_to_dram` and `submit_vram_to_vram`: they differ in the
GPUs that they check, the ordinals and the flag. -/
def DmaEngine.submit (e : DmaEngine num_gpus) (t : Transfer) :
    Except VugvaError (UInt32 × DmaEngine num_gpus) :=
  if h : t.named < num_gpus then
    let g : Fin num_gpus := ⟨t.gpu, lt_of_le_of_lt t.gpu_le_named h⟩
    ((e g).submit t.descriptor).map fun r => (r.1, Function.update e g r.2)
  else .error (.invalidGpu t.named)

/-! ## Runs -/

inductive Step (num_gpus : Nat) where
  | submit (t : Transfer)
  | peek (g : Fin num_gpus)
  | ack (g : Fin num_gpus)

/-- The rings, with what was accepted, peeked and acknowledged. -/
structure State (num_gpus : Nat) where
  rings : DmaEngine num_gpus
  asked : Fin num_gpus → List Transfer
  /-- The descriptor that was peeked and not yet acknowledged. -/
  peeked : Fin num_gpus → Option DmaDescriptor
  acked : Fin num_gpus → List DmaDescriptor

def State.init : State num_gpus :=
  { rings := fun _ => .new, asked := fun _ => [], peeked := fun _ => none, acked := fun _ => [] }

/-- A consumer acknowledges only what it has peeked. -/
def step (s : State num_gpus) : Step num_gpus → State num_gpus
  | .submit t =>
      if h : t.named < num_gpus then
        let g : Fin num_gpus := ⟨t.gpu, lt_of_le_of_lt t.gpu_le_named h⟩
        match s.rings.submit t with
        | .ok (_, rings) =>
            { s with rings := rings, asked := Function.update s.asked g (s.asked g ++ [t]) }
        | .error _ => s
      else s
  | .peek g =>
      match (s.rings g).peek with
      | some d => { s with peeked := Function.update s.peeked g (some d) }
      | none => s
  | .ack g =>
      match s.peeked g with
      | some d =>
          { s with
            rings := Function.update s.rings g (s.rings g).ack
            peeked := Function.update s.peeked g none
            acked := Function.update s.acked g (s.acked g ++ [d]) }
      | none => s

/-- The steps of a run, each with the state before it. -/
def taken : State num_gpus → List (Step num_gpus) → List (State num_gpus × Step num_gpus)
  | _, [] => []
  | s, c :: steps => (s, c) :: taken (step s c) steps

/-- The states of a run, the first included. -/
def visited : State num_gpus → List (Step num_gpus) → List (State num_gpus)
  | s, [] => [s]
  | s, c :: steps => s :: visited (step s c) steps

/-- The descriptor describes the transfer, with the size that was asked for. -/
def Describes (d : DmaDescriptor) (t : Transfer) : Prop :=
  d = t.descriptor ∧ d.size.toNat = t.size_bytes.toNat

/-- One ring is a lossless queue. -/
structure Lossless (r : DmaRing) (asked : List Transfer) (peeked : Option DmaDescriptor)
    (acked : List DmaDescriptor) : Prop where
  /-- What was acknowledged is what was accepted, in order and each once. -/
  fifo : List.Forall₂ Describes acked (asked.take acked.length)
  no_more : acked.length ≤ asked.length
  /-- What is not acknowledged is still there. -/
  held : ∀ i (h : i < asked.length), acked.length ≤ i →
    Describes (r.ring ⟨i % CAPACITY, Nat.mod_lt _ (by decide)⟩) asked[i]
  /-- A consumer sees the oldest of these. -/
  peek_eq : r.peek = (asked.drop acked.length).head?.map Transfer.descriptor
  peeked_eq : ∀ d, peeked = some d → r.peek = some d
  pending : r.pending_count.toNat = asked.length - acked.length
  bounded : r.pending_count.toNat ≤ CAPACITY
  /-- Another descriptor is refused exactly when the ring is full of these. -/
  refused : ∀ d, (r.submit d = .error .dmaRingFull ↔ asked.length - acked.length = CAPACITY)

/-- Every ring is. -/
def Lawful (s : State num_gpus) : Prop :=
  ∀ g, Lossless (s.rings g) (s.asked g) (s.peeked g) (s.acked g)

/-- A transfer that is accepted is below 4 GiB, and the index of its ring is not at its end. -/
def Fits (s : State num_gpus) : Step num_gpus → Prop
  | .submit t => ∀ h : t.named < num_gpus,
      let r := s.rings ⟨t.gpu, lt_of_le_of_lt t.gpu_le_named h⟩
      r.is_full = false → t.size_bytes.toNat < 2 ^ 32 ∧ r.submitted.toNat + 1 < 2 ^ 32
  | _ => True

/-! ## One ring -/

theorem slot_eq {index : UInt32} {i : Nat} (h : index.toNat = i) :
    DmaRing.slot index = ⟨i % CAPACITY, Nat.mod_lt _ (by decide)⟩ := by
  rw [Fin.mk.injEq]
  change (index &&& DmaRing.mask).toNat = i % CAPACITY
  rw [UInt32.toNat_and, h]
  exact Nat.and_two_pow_sub_one_eq_mod i 10

theorem toNat_succ_index {n : UInt32} (h : n.toNat + 1 < 2 ^ 32) :
    (n + 1).toNat = n.toNat + 1 := by
  rw [UInt32.toNat_add]
  exact Nat.mod_eq_of_lt h

theorem saturating_sub_toNat (a b : UInt32) :
    (saturating_sub a b).toNat = a.toNat - b.toNat := by
  unfold saturating_sub
  split
  · rename_i h
    exact UInt32.toNat_sub_of_le a b h
  · rename_i h
    rw [UInt32.le_iff_toNat_le] at h
    change 0 = _
    omega

/-- The indices count what was accepted and acknowledged, and the slots between them hold
what is pending. -/
structure Queue (r : DmaRing) (asked : List Transfer) (peeked : Option DmaDescriptor)
    (acked : List DmaDescriptor) : Prop where
  submitted : r.submitted.toNat = asked.length
  consumer : r.consumer.toNat = acked.length
  no_more : acked.length ≤ asked.length
  bounded : asked.length - acked.length ≤ CAPACITY
  fifo : List.Forall₂ Describes acked (asked.take acked.length)
  held : ∀ i (h : i < asked.length), acked.length ≤ i →
    Describes (r.ring ⟨i % CAPACITY, Nat.mod_lt _ (by decide)⟩) asked[i]
  peeked_eq : ∀ d, peeked = some d → r.peek = some d

section Ring

variable {r : DmaRing} {asked : List Transfer} {peeked : Option DmaDescriptor}
  {acked : List DmaDescriptor}

theorem queue_new : Queue .new [] none [] where
  submitted := rfl
  consumer := rfl
  no_more := Nat.le_refl _
  bounded := Nat.zero_le _
  fifo := List.Forall₂.nil
  held := fun _ h => absurd h (Nat.not_lt_zero _)
  peeked_eq := nofun

theorem Queue.pending (h : Queue r asked peeked acked) :
    r.pending_count.toNat = asked.length - acked.length := by
  rw [DmaRing.pending_count, saturating_sub_toNat, h.submitted, h.consumer]

theorem Queue.is_full_iff (h : Queue r asked peeked acked) :
    r.is_full = true ↔ asked.length - acked.length = CAPACITY := by
  have hbound := h.bounded
  rw [DmaRing.is_full, decide_eq_true_iff, ge_iff_le, UInt32.le_iff_toNat_le, h.pending]
  change CAPACITY ≤ _ ↔ _
  omega

theorem Queue.peek_none (h : Queue r asked peeked acked) (hempty : asked.length ≤ acked.length) :
    r.peek = none := by
  refine if_pos ?_
  rw [ge_iff_le, UInt32.le_iff_toNat_le, h.submitted, h.consumer]
  exact hempty

theorem Queue.peek_some (h : Queue r asked peeked acked) (hlt : acked.length < asked.length) :
    ∃ d, r.peek = some d ∧ Describes d asked[acked.length] := by
  refine ⟨_, if_neg ?_, ?_⟩
  · rw [ge_iff_le, UInt32.le_iff_toNat_le, h.submitted, h.consumer]
    exact Nat.not_le.mpr hlt
  · rw [slot_eq h.consumer]
    exact h.held acked.length hlt (Nat.le_refl _)

theorem Queue.lossless (h : Queue r asked peeked acked) : Lossless r asked peeked acked where
  fifo := h.fifo
  no_more := h.no_more
  held := h.held
  peek_eq := by
    rcases Nat.lt_or_ge acked.length asked.length with hlt | hge
    · obtain ⟨d, hd, hdesc, _⟩ := h.peek_some hlt
      rw [hd, List.head?_drop, List.getElem?_eq_getElem hlt, hdesc]
      rfl
    · rw [h.peek_none hge, List.drop_eq_nil_of_le hge]
      rfl
  peeked_eq := h.peeked_eq
  pending := h.pending
  bounded := by
    rw [h.pending]
    exact h.bounded
  refused := by
    intro d
    rw [← h.is_full_iff, DmaRing.submit]
    split
    · rename_i hfull
      simp [hfull]
    · rename_i hfull
      simp [hfull]

theorem describes_descriptor {t : Transfer} (h : t.size_bytes.toNat < 2 ^ 32) :
    Describes t.descriptor t := by
  refine ⟨rfl, ?_⟩
  change t.size_bytes.toUInt32.toNat = _
  rw [UInt64.toNat_toUInt32]
  exact Nat.mod_eq_of_lt h

/-- A descriptor that is accepted goes to the end of the queue.  Its slot is not one of those
that are pending: these are fewer than the slots of the ring. -/
theorem Queue.submit (h : Queue r asked peeked acked) {t : Transfer} (hopen : r.is_full = false)
    (hsize : t.size_bytes.toNat < 2 ^ 32) (hindex : r.submitted.toNat + 1 < 2 ^ 32) :
    Queue
      { r with
        ring := Function.update r.ring (DmaRing.slot r.submitted) t.descriptor
        submitted := r.submitted + 1 }
      (asked ++ [t]) peeked acked := by
  have hroom : asked.length - acked.length < CAPACITY := by
    have hne : ¬ asked.length - acked.length = CAPACITY := by
      rw [← h.is_full_iff, hopen]
      exact Bool.false_ne_true
    exact lt_of_le_of_ne h.bounded hne
  have hmore := h.no_more
  rw [slot_eq h.submitted]
  -- a pending slot is not the one that is written
  have hother : ∀ i < asked.length, acked.length ≤ i →
      (⟨i % CAPACITY, Nat.mod_lt _ (by decide)⟩ : Fin CAPACITY) ≠
        ⟨asked.length % CAPACITY, Nat.mod_lt _ (by decide)⟩ := by
    intro i hi hle heq
    have hmod := Fin.mk.inj heq
    simp only [CAPACITY] at hmod hroom
    omega
  refine ⟨?_, h.consumer, ?_, ?_, ?_, ?_, ?_⟩
  · change (r.submitted + 1).toNat = _
    rw [toNat_succ_index hindex, h.submitted, List.length_append, List.length_singleton]
  · rw [List.length_append]
    omega
  · rw [List.length_append, List.length_singleton]
    omega
  · rw [List.take_append_of_le_length hmore]
    exact h.fifo
  · intro i hi hle
    dsimp only
    rcases Nat.lt_or_ge i asked.length with hlt | hge
    · rw [Function.update_of_ne (hother i hlt hle), List.getElem_append_left hlt]
      exact h.held i hlt hle
    · rw [List.length_append, List.length_singleton] at hi
      obtain rfl : i = asked.length := by omega
      rw [Function.update_self, List.getElem_concat_length rfl]
      exact describes_descriptor hsize
  · intro d hd
    have hpeek := h.peeked_eq d hd
    have hlt : acked.length < asked.length := by
      rcases Nat.lt_or_ge acked.length asked.length with hlt | hge
      · exact hlt
      · rw [h.peek_none hge] at hpeek
        cases hpeek
    rw [← hpeek, DmaRing.peek, DmaRing.peek, if_neg, if_neg]
    · dsimp only
      rw [slot_eq h.consumer, Function.update_of_ne (hother _ hlt (Nat.le_refl _))]
    · rw [ge_iff_le, UInt32.le_iff_toNat_le, h.submitted, h.consumer]
      omega
    · rw [ge_iff_le, UInt32.le_iff_toNat_le, toNat_succ_index hindex, h.submitted, h.consumer]
      omega

/-- What is acknowledged is the oldest of the queue. -/
theorem Queue.ack (h : Queue r asked peeked acked) {d : DmaDescriptor}
    (hd : peeked = some d) : Queue r.ack asked none (acked ++ [d]) := by
  have hpeek := h.peeked_eq d hd
  have hlt : acked.length < asked.length := by
    rcases Nat.lt_or_ge acked.length asked.length with hlt | hge
    · exact hlt
    · rw [h.peek_none hge] at hpeek
      cases hpeek
  have hdesc : Describes d asked[acked.length] := by
    obtain ⟨d', hd', hdesc⟩ := h.peek_some hlt
    rw [hpeek] at hd'
    cases hd'
    exact hdesc
  have hbound := h.bounded
  have hindex : r.consumer.toNat + 1 < 2 ^ 32 := by
    have hsubmitted : r.submitted.toNat < 2 ^ 32 := r.submitted.toNat_lt
    rw [h.submitted] at hsubmitted
    rw [h.consumer]
    omega
  refine ⟨h.submitted, ?_, ?_, ?_, ?_, ?_, nofun⟩
  · change (r.consumer + 1).toNat = _
    rw [toNat_succ_index hindex, h.consumer, List.length_append, List.length_singleton]
  · rw [List.length_append, List.length_singleton]
    exact hlt
  · rw [List.length_append, List.length_singleton]
    omega
  · rw [List.length_append, List.length_singleton, ← List.take_append_getElem hlt]
    exact List.rel_append h.fifo (List.Forall₂.cons hdesc List.Forall₂.nil)
  · intro i hi hle
    rw [List.length_append, List.length_singleton] at hle
    exact h.held i hi (Nat.le_of_succ_le hle)

end Ring

/-! ## Runs of the engine -/

/-- Every ring is a queue. -/
def Sound (s : State num_gpus) : Prop :=
  ∀ g, Queue (s.rings g) (s.asked g) (s.peeked g) (s.acked g)

theorem sound_init : Sound (State.init : State num_gpus) := fun _ => queue_new

theorem Sound.lawful {s : State num_gpus} (h : Sound s) : Lawful s := fun g => (h g).lossless

theorem step_accepted {s : State num_gpus} {t : Transfer} (h : t.named < num_gpus)
    (hopen : (s.rings ⟨t.gpu, lt_of_le_of_lt t.gpu_le_named h⟩).is_full = false) :
    let g : Fin num_gpus := ⟨t.gpu, lt_of_le_of_lt t.gpu_le_named h⟩
    step s (.submit t) =
      { s with
        rings := Function.update s.rings g
          { s.rings g with
            ring := Function.update (s.rings g).ring (DmaRing.slot (s.rings g).submitted)
              t.descriptor
            submitted := (s.rings g).submitted + 1 }
        asked := Function.update s.asked g (s.asked g ++ [t]) } := by
  simp [step, h, DmaEngine.submit, DmaRing.submit, hopen, Except.map]

theorem step_refused {s : State num_gpus} {t : Transfer}
    (hrefused : ∀ h : t.named < num_gpus,
      (s.rings ⟨t.gpu, lt_of_le_of_lt t.gpu_le_named h⟩).is_full = true) :
    step s (.submit t) = s := by
  by_cases h : t.named < num_gpus
  · simp [step, h, DmaEngine.submit, DmaRing.submit, hrefused h, Except.map]
  · simp [step, h]

/-- One transfer that fits keeps the queues. -/
theorem lawful_submit {s : State num_gpus} (hs : Sound s) {t : Transfer}
    (hfits : Fits s (.submit t)) : Sound (step s (.submit t)) := by
  by_cases hrefused : ∀ h : t.named < num_gpus,
      (s.rings ⟨t.gpu, lt_of_le_of_lt t.gpu_le_named h⟩).is_full = true
  · rw [step_refused hrefused]
    exact hs
  · push Not at hrefused
    obtain ⟨hnamed, hopen⟩ := hrefused
    have hopen := Bool.eq_false_of_not_eq_true hopen
    obtain ⟨hsize, hindex⟩ := hfits hnamed hopen
    rw [step_accepted hnamed hopen]
    intro g
    dsimp only
    by_cases hg : g = ⟨t.gpu, lt_of_le_of_lt t.gpu_le_named hnamed⟩
    · subst hg
      rw [Function.update_self, Function.update_self]
      exact (hs _).submit hopen hsize hindex
    · rw [Function.update_of_ne hg, Function.update_of_ne hg]
      exact hs g

theorem sound_step {s : State num_gpus} (hs : Sound s) {c : Step num_gpus} (hfits : Fits s c) :
    Sound (step s c) := by
  cases c with
  | submit t => exact lawful_submit hs hfits
  | peek g =>
      cases hpeek : (s.rings g).peek with
      | none =>
          simp only [step, hpeek]
          exact hs
      | some d =>
          simp only [step, hpeek]
          intro g'
          dsimp only
          by_cases hg : g' = g
          · subst hg
            rw [Function.update_self]
            exact { hs g' with peeked_eq := fun d' hd' => by rw [hpeek, hd'] }
          · rw [Function.update_of_ne hg]
            exact hs g'
  | ack g =>
      cases hpeeked : s.peeked g with
      | none =>
          simp only [step, hpeeked]
          exact hs
      | some d =>
          simp only [step, hpeeked]
          intro g'
          dsimp only
          by_cases hg : g' = g
          · subst hg
            rw [Function.update_self, Function.update_self, Function.update_self]
            exact (hs g').ack hpeeked
          · rw [Function.update_of_ne hg, Function.update_of_ne hg, Function.update_of_ne hg]
            exact hs g'

/-- A transfer that does not fit breaks its ring at once: its size is cut, or the producer
index is back at the start. -/
theorem fits_of_lawful {s : State num_gpus} (hs : Lawful s) {c : Step num_gpus}
    (hnext : Lawful (step s c)) : Fits s c := by
  cases c with
  | peek g => trivial
  | ack g => trivial
  | submit t =>
      intro hnamed r hopen
      rw [step_accepted hnamed hopen] at hnext
      have hmore := (hs ⟨t.gpu, lt_of_le_of_lt t.gpu_le_named hnamed⟩).no_more
      have hring := hnext ⟨t.gpu, lt_of_le_of_lt t.gpu_le_named hnamed⟩
      simp only [Function.update_self] at hring
      constructor
      · have hsize := (hring.held (s.asked _).length (by simp) hmore).2
        rw [List.getElem_concat_length rfl] at hsize
        rw [← hsize]
        exact UInt32.toNat_lt _
      · by_contra hend
        have hpending := hring.pending
        have hlt : r.submitted.toNat < 2 ^ 32 := r.submitted.toNat_lt
        have hzero : (r.submitted + 1).toNat = 0 := by
          rw [UInt32.toNat_add]
          change (r.submitted.toNat + 1) % 2 ^ 32 = 0
          rw [show r.submitted.toNat + 1 = 2 ^ 32 by omega, Nat.mod_self]
        rw [DmaRing.pending_count, saturating_sub_toNat, List.length_append,
          List.length_singleton] at hpending
        change (r.submitted + 1).toNat - _ = _ at hpending
        omega

/-! ## Runs -/

theorem lawful_run_iff {s : State num_gpus} (hs : Sound s) (steps : List (Step num_gpus)) :
    (∀ s' ∈ visited s steps, Lawful s') ↔ ∀ e ∈ taken s steps, Fits e.1 e.2 := by
  induction steps generalizing s with
  | nil =>
      simp only [visited, taken, List.mem_singleton, forall_eq, List.not_mem_nil, false_imp_iff,
        implies_true, iff_true]
      exact hs.lawful
  | cons c steps ih =>
      rw [visited, taken, List.forall_mem_cons, List.forall_mem_cons]
      constructor
      · rintro ⟨_, hrest⟩
        have hnext : Lawful (step s c) := by
          cases steps with
          | nil => exact hrest _ (by simp [visited])
          | cons c' steps => exact hrest _ (by simp [visited])
        have hfits := fits_of_lawful hs.lawful hnext
        exact ⟨hfits, (ih (sound_step hs hfits)).mp hrest⟩
      · rintro ⟨hfits, hrest⟩
        exact ⟨hs.lawful, (ih (sound_step hs hfits)).mpr hrest⟩

/-- In a run the rings are lossless queues exactly when every transfer that is accepted is
below 4 GiB and comes before the producer index of its ring wraps. -/
theorem lossless_iff (steps : List (Step num_gpus)) :
    (∀ s ∈ visited State.init steps, Lawful s) ↔ ∀ e ∈ taken State.init steps, Fits e.1 e.2 :=
  lawful_run_iff sound_init steps

/-- A transfer of 4 GiB and one byte. -/
def large : Transfer :=
  { direction := .dram_to_vram 0, src_addr := 0, dst_addr := 0, size_bytes := 0x100000001
    priority := 0 }

/-- It is queued as a transfer of one byte. -/
theorem large_cut : ¬ ∀ s ∈ visited (State.init : State 1) [.submit large], Lawful s := by
  intro h
  have hring := h (step State.init (.submit large)) (by simp [visited]) 0
  have hheld := (hring.held 0 (by decide) (Nat.zero_le _)).2
  revert hheld
  decide +kernel

end Dma
end StrikeDB
