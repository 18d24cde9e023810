import StrikeDB.RangeGaps

/-!
# StrikeDB: allocators in 64 bits

The allocator of a region and the DRAM pool of a GPU, in the arithmetic of `usize`: what an
operation yields, and whether it went past the end.

**Results.**
* `allocate_exact`, `free_exact`: where nothing wraps, the calls are those on numbers.
* `lawful_run_iff`: a run keeps the law of an allocator exactly when its calls fit.
* `allocators_lawful_iff`: this for the allocator of a region and for the pool.
-/

namespace StrikeDB
namespace Words

/-! ## Arithmetic -/

abbrev SIZE : Nat := 2 ^ 64

/-- A value, and whether an operation on the way to it went past the end of the type. -/
structure Arith (α : Type) where
  val : α
  wraps : Bool

instance : Monad Arith where
  pure v := ⟨v, false⟩
  bind x f := ⟨(f x.val).val, x.wraps || (f x.val).wraps⟩

namespace Arith

variable {α β : Type}

@[simp] theorem pure_val (v : α) : (pure v : Arith α).val = v := rfl

@[simp] theorem pure_wraps (v : α) : (pure v : Arith α).wraps = false := rfl

theorem bind_wraps {x : Arith α} (f : α → Arith β) (h : x.wraps = true) :
    (x >>= f).wraps = true := by
  change (x.wraps || (f x.val).wraps) = true
  rw [h, Bool.true_or]

theorem pure_then (v : α) (f : α → Arith β) : (pure v >>= f) = f v := rfl

end Arith

def add (a b : Nat) : Arith Nat := ⟨(a + b) % SIZE, decide (SIZE ≤ a + b)⟩

def sub (a b : Nat) : Arith Nat := ⟨(a + SIZE - b) % SIZE, decide (a < b)⟩

theorem add_exact {a b : Nat} (h : a + b < SIZE) : add a b = pure (a + b) := by
  rw [add, Nat.mod_eq_of_lt h, decide_eq_false (Nat.not_le.mpr h)]
  rfl

theorem add_wraps {a b : Nat} (h : SIZE ≤ a + b) : (add a b).wraps = true :=
  decide_eq_true h

theorem sub_exact {a b : Nat} (h : b ≤ a) (ha : a < SIZE) : sub a b = pure (a - b) := by
  rw [sub, decide_eq_false (Nat.not_lt.mpr h), show a + SIZE - b = a - b + SIZE by omega,
    Nat.add_mod_right, Nat.mod_eq_of_lt (by omega)]
  rfl

/-- `iter().sum()` -/
def sum : List Nat → Arith Nat
  | [] => pure 0
  | n :: ns => do
      let rest ← sum ns
      add n rest

theorem sum_exact {ns : List Nat} (h : ns.sum < SIZE) : sum ns = pure ns.sum := by
  induction ns with
  | nil => rfl
  | cons n ns ih =>
      rw [List.sum_cons] at h
      rw [sum, ih (by omega), Arith.pure_then, add_exact h, List.sum_cons]

/-! ## The code -/

structure DramOom where
  requested : Nat
  available : Nat
  capacity : Nat
deriving DecidableEq

def used (a : RangeAllocator) : Arith Nat := do
  let free ← sum (a.free_blocks.map Prod.snd)
  sub a.offset free

/-- What both allocators do with a size that is aligned. -/
def carve (a : RangeAllocator) (aligned : Nat) :
    Arith (Except DramOom (Nat × RangeAllocator)) :=
  match RangeAllocator.bestFit aligned a.free_blocks 0 none with
  | some (i, _) =>
      match a.free_blocks[i]? with
      | some (off, len) =>
          if len = aligned then
            pure (.ok (off, { a with free_blocks := a.free_blocks.eraseIdx i }))
          else do
            let tail ← add off aligned
            let left ← sub len aligned
            pure (.ok (off, { a with free_blocks := a.free_blocks.set i (tail, left) }))
      | none => pure (.error ⟨aligned, 0, a.capacity⟩)
  | none => do
      let top ← add a.offset aligned
      if top > a.capacity then do
        let handed ← used a
        let available ← sub a.capacity handed
        pure (.error ⟨aligned, available, a.capacity⟩)
      else do
        let top' ← add a.offset aligned
        pure (.ok (a.offset, { a with offset := top' }))

/-- The block with its right neighbour, if they touch, and what is behind. -/
def coalesceRight (off len : Nat) : List (Nat × Nat) → Arith (Nat × List (Nat × Nat))
  | [] => pure (len, [])
  | (no, nl) :: post => do
      let fin ← add off len
      if fin = no then do
        let joined ← add len nl
        pure (joined, post)
      else pure (len, (no, nl) :: post)

/-- The block with its left neighbour, if they touch, and what is before. -/
def coalesceLeft (off len : Nat) (pre : List (Nat × Nat)) :
    Arith (List (Nat × Nat) × Nat × Nat) :=
  match pre.getLast? with
  | some (po, pl) => do
      let fin ← add po pl
      if fin = off then do
        let joined ← add pl len
        pure (pre.dropLast, po, joined)
      else pure (pre, off, len)
  | none => pure (pre, off, len)

/-- Put a range back between the blocks before it and those behind. -/
def putBack (a : RangeAllocator) (off len : Nat) (pre post : List (Nat × Nat)) :
    Arith RangeAllocator := do
  let right ← coalesceRight off len post
  let left ← coalesceLeft off right.1 pre
  let fin ← add left.2.1 left.2.2
  if fin = a.offset then
    pure { a with offset := left.2.1, free_blocks := left.1 ++ right.2 }
  else pure { a with free_blocks := left.1 ++ left.2 :: right.2 }

/-- What both allocators do to take back a range of a length that is aligned. -/
def giveBack (a : RangeAllocator) (off len : Nat) : Arith RangeAllocator :=
  if len = 0 then pure a
  else do
    let fin ← add off len
    if fin > a.offset then pure a
    else
      let pre := a.free_blocks.takeWhile fun b => b.1 < off
      let post := a.free_blocks.dropWhile fun b => b.1 < off
      if post.head?.any (fun b => fin > b.1) then pure a
      else
        match pre.getLast? with
        | some (po, pl) => do
            let before ← add po pl
            if before > off then pure a else putBack a off len pre post
        | none => putBack a off len pre post

/-! `RangeAllocator` itself, offsets into the region -/

namespace Range

/-- `(bytes + ALIGN - 1) & !(ALIGN - 1)` -/
def align (bytes : Nat) : Arith Nat := do
  let more ← add bytes RangeAllocator.ALIGN
  let less ← sub more 1
  pure (less &&& (SIZE - 1 - (RangeAllocator.ALIGN - 1)))

def allocate (a : RangeAllocator) (bytes : Nat) :
    Arith (Except DramOom (Nat × RangeAllocator)) := do
  let aligned ← align bytes
  carve a aligned

def free (a : RangeAllocator) (off bytes : Nat) : Arith RangeAllocator := do
  let len ← align bytes
  giveBack a off len

end Range

/-! `DramPool`, pointers into a mapping at `base_ptr` -/

namespace DramPool

/-- `(bytes + 63) & !63` -/
def align (bytes : Nat) : Arith Nat := do
  let more ← add bytes 63
  pure (more &&& (SIZE - 1 - 63))

def allocate (base_ptr : Nat) (a : RangeAllocator) (bytes : Nat) :
    Arith (Except DramOom (Nat × RangeAllocator)) := do
  let aligned ← align bytes
  let carved ← carve a aligned
  match carved with
  | .ok (off, a') => do
      let ptr ← add base_ptr off
      pure (.ok (ptr, a'))
  | .error e => pure (.error e)

def free (base_ptr : Nat) (a : RangeAllocator) (ptr bytes : Nat) : Arith RangeAllocator :=
  if ptr < base_ptr then pure a
  else do
    let fin ← add base_ptr a.capacity
    if ptr ≥ fin then pure a
    else do
      let off ← sub ptr base_ptr
      let len ← align bytes
      giveBack a off len

end DramPool

/-! ## Calls that fit -/

/-- The mask clears the low bits. -/
theorem and_mask {n : Nat} (h : n < SIZE) : n &&& (SIZE - 1 - 63) = n / 64 * 64 := by
  have hdiv := Nat.div_add_mod n 64
  have hmod : n % 64 < 64 := Nat.mod_lt _ (by decide)
  rw [show SIZE - 1 - 63 = 2 ^ 6 * (2 ^ 58 - 1) by decide]
  apply Nat.eq_of_testBit_eq
  intro i
  rw [Nat.testBit_and, Nat.testBit_two_pow_mul, Nat.testBit_two_pow_sub_one,
    show n / 64 * 64 = 2 ^ 6 * (n / 2 ^ 6) by omega, Nat.testBit_two_pow_mul,
    Nat.testBit_div_two_pow]
  by_cases hi : 6 ≤ i
  · simp only [hi, decide_true, Bool.true_and, Nat.sub_add_cancel]
    by_cases hlt : i < 64
    · rw [decide_eq_true (by omega), Bool.and_true]
    · rw [Nat.testBit_lt_two_pow (Nat.lt_of_lt_of_le h (Nat.pow_le_pow_right (by decide)
        (by omega : 64 ≤ i)))]
      rfl
  · simp [hi]

theorem Range.align_exact {bytes : Nat} (h : bytes + RangeAllocator.ALIGN < SIZE) :
    Range.align bytes = pure (RangeAllocator.align bytes) := by
  have hone : 1 ≤ bytes + RangeAllocator.ALIGN := Nat.le_add_left 1 _
  rw [Range.align, add_exact h, Arith.pure_then, sub_exact hone h, Arith.pure_then]
  exact congrArg pure (and_mask (Nat.lt_of_le_of_lt (Nat.sub_le _ _) h))

theorem Range.align_wraps {bytes : Nat} (h : SIZE ≤ bytes + RangeAllocator.ALIGN) :
    (Range.align bytes).wraps = true := by
  rw [Range.align]
  exact Arith.bind_wraps _ (add_wraps h)

theorem DramPool.align_exact {bytes : Nat} (h : bytes + 63 < SIZE) :
    DramPool.align bytes = pure (RangeAllocator.align bytes) := by
  rw [DramPool.align, add_exact h, Arith.pure_then]
  exact congrArg pure (and_mask h)

theorem DramPool.align_wraps {bytes : Nat} (h : SIZE ≤ bytes + 63) :
    (DramPool.align bytes).wraps = true := by
  rw [DramPool.align]
  exact Arith.bind_wraps _ (add_wraps h)

section Exact

variable {a : RangeAllocator} {off len bytes : Nat}

theorem sum_le {blocks : List (Nat × Nat)} {low bound : Nat}
    (h : RangeAllocator.Tidy blocks bound) (hlow : ∀ b ∈ blocks, low ≤ b.1) (hle : low ≤ bound) :
    low + (blocks.map Prod.snd).sum ≤ bound := by
  induction blocks generalizing low with
  | nil => exact hle
  | cons b blocks ih =>
      obtain ⟨hhead, hsorted⟩ := List.pairwise_cons.mp h.sorted
      have hrest := ih
        ⟨hsorted, fun c hc => h.nonempty c (List.mem_cons_of_mem _ hc),
          fun c hc => h.below c (List.mem_cons_of_mem _ hc)⟩ hhead (h.below b List.mem_cons_self)
      have hb := hlow b List.mem_cons_self
      rw [List.map_cons, List.sum_cons]
      omega

/-- What is used is known exactly. -/
theorem used_exact (h : a.WF) (hcap : a.capacity < SIZE) :
    used a = pure (a.offset - (a.free_blocks.map Prod.snd).sum) := by
  have hsum : 0 + (a.free_blocks.map Prod.snd).sum ≤ a.offset :=
    sum_le h.tidy (fun _ _ => Nat.zero_le _) (Nat.zero_le _)
  have hfits := h.fits
  rw [used, sum_exact (by omega), Arith.pure_then, sub_exact (by omega) (by omega)]

/-- The aligned size fits in a block, or the region has room for its end to be computed. -/
def Grows (a : RangeAllocator) (aligned : Nat) : Prop :=
  (∀ b ∈ a.free_blocks, b.2 < aligned) → a.offset + aligned < SIZE

def outcome (a : RangeAllocator) (bytes : Nat) : Except DramOom (Nat × RangeAllocator) :=
  match a.allocate bytes with
  | some r => .ok r
  | none => .error ⟨RangeAllocator.align bytes, a.capacity - a.used, a.capacity⟩

theorem carve_exact (h : a.WF) (hcap : a.capacity < SIZE)
    (hgrows : Grows a (RangeAllocator.align bytes)) :
    carve a (RangeAllocator.align bytes) = pure (outcome a bytes) := by
  have hfits := h.fits
  unfold carve outcome RangeAllocator.allocate
  dsimp only
  cases hbest : RangeAllocator.bestFit (RangeAllocator.align bytes) a.free_blocks 0 none with
  | none =>
      have htop := hgrows (RangeAllocator.bestFit_none hbest).2
      have hused := used_exact h hcap
      dsimp only
      rw [add_exact htop, Arith.pure_then, Arith.pure_then]
      by_cases hfull : a.offset + RangeAllocator.align bytes > a.capacity
      · rw [if_pos hfull, if_pos hfull, hused, Arith.pure_then, sub_exact (by omega) hcap,
          Arith.pure_then]
        rfl
      · rw [if_neg hfull, if_neg hfull]
  | some best =>
      obtain ⟨i, l⟩ := best
      rcases RangeAllocator.bestFit_spec hbest with hnone | ⟨k, o, rfl, hk, hle⟩
      · cases hnone
      · have hbelow : o + l ≤ a.offset := h.tidy.below _ (List.mem_of_getElem? hk)
        dsimp only
        rw [Nat.zero_add, hk]
        dsimp only
        by_cases heq : l = RangeAllocator.align bytes
        · rw [if_pos heq, if_pos heq]
        · rw [if_neg heq, if_neg heq, add_exact (by omega), Arith.pure_then,
            sub_exact hle (by omega), Arith.pure_then]

theorem carve_wraps {aligned : Nat} (hblocks : ∀ b ∈ a.free_blocks, b.2 < aligned)
    (htop : SIZE ≤ a.offset + aligned) : (carve a aligned).wraps = true := by
  unfold carve
  cases hbest : RangeAllocator.bestFit aligned a.free_blocks 0 none with
  | none =>
      exact Arith.bind_wraps _ (add_wraps htop)
  | some best =>
      obtain ⟨i, l⟩ := best
      rcases RangeAllocator.bestFit_spec hbest with hnone | ⟨k, o, _, hk, hle⟩
      · cases hnone
      · have hlt : l < aligned := hblocks _ (List.mem_of_getElem? hk)
        omega

theorem coalesceRight_exact {post : List (Nat × Nat)} (hend : off + len < SIZE)
    (hpost : ∀ b ∈ post, b.1 + b.2 < SIZE) :
    coalesceRight off len post = pure (RangeAllocator.coalesceRight off len post) ∧
      off + (RangeAllocator.coalesceRight off len post).1 < SIZE := by
  cases post with
  | nil => exact ⟨rfl, hend⟩
  | cons b post =>
      obtain ⟨no, nl⟩ := b
      have hb : no + nl < SIZE := hpost _ List.mem_cons_self
      rw [coalesceRight, RangeAllocator.coalesceRight, add_exact hend, Arith.pure_then]
      by_cases htouch : off + len = no
      · rw [if_pos htouch, if_pos htouch, add_exact (by omega)]
        exact ⟨rfl, by simp only; omega⟩
      · rw [if_neg htouch, if_neg htouch]
        exact ⟨rfl, hend⟩

theorem coalesceLeft_exact {pre : List (Nat × Nat)} (hend : off + len < SIZE)
    (hpre : ∀ b ∈ pre, b.1 + b.2 < SIZE) :
    coalesceLeft off len pre = pure (RangeAllocator.coalesceLeft off len pre) ∧
      (RangeAllocator.coalesceLeft off len pre).2.1 +
        (RangeAllocator.coalesceLeft off len pre).2.2 < SIZE := by
  unfold coalesceLeft RangeAllocator.coalesceLeft
  cases hlast : pre.getLast? with
  | none => exact ⟨rfl, hend⟩
  | some b =>
      obtain ⟨po, pl⟩ := b
      have hb : po + pl < SIZE := hpre _ (List.mem_of_getLast? hlast)
      dsimp only
      rw [add_exact hb, Arith.pure_then]
      by_cases htouch : po + pl = off
      · rw [if_pos htouch, if_pos htouch, add_exact (by omega)]
        exact ⟨rfl, by simp only; omega⟩
      · rw [if_neg htouch, if_neg htouch]
        exact ⟨rfl, hend⟩

theorem giveBack_exact (h : a.WF) (hcap : a.capacity < SIZE)
    (hend : RangeAllocator.align bytes ≠ 0 → off + RangeAllocator.align bytes < SIZE) :
    giveBack a off (RangeAllocator.align bytes) = pure (a.free off bytes) := by
  have hfits := h.fits
  unfold giveBack RangeAllocator.free
  by_cases hzero : RangeAllocator.align bytes = 0
  · rw [if_pos hzero, if_pos (Or.inl hzero)]
  · have hfin := hend hzero
    rw [if_neg hzero, add_exact hfin, Arith.pure_then]
    by_cases hout : off + RangeAllocator.align bytes > a.offset
    · rw [if_pos hout, if_pos (Or.inr hout)]
    · rw [if_neg hout, if_neg (not_or.mpr ⟨hzero, hout⟩)]
      have hblocks : ∀ b ∈ a.free_blocks, b.1 + b.2 < SIZE := by
        intro b hb
        have hbelow := h.tidy.below b hb
        omega
      have hpre : ∀ b ∈ a.free_blocks.takeWhile (fun b => b.1 < off), b.1 + b.2 < SIZE :=
        fun b hb => hblocks b ((List.takeWhile_sublist _).subset hb)
      have hpost : ∀ b ∈ a.free_blocks.dropWhile (fun b => b.1 < off), b.1 + b.2 < SIZE :=
        fun b hb => hblocks b ((List.dropWhile_sublist _).subset hb)
      generalize a.free_blocks.takeWhile (fun b => b.1 < off) = pre at *
      generalize a.free_blocks.dropWhile (fun b => b.1 < off) = post at *
      dsimp only
      split
      · rfl
      · obtain ⟨hright, hrightEnd⟩ := coalesceRight_exact hfin hpost
        obtain ⟨hleft, hleftEnd⟩ := coalesceLeft_exact hrightEnd hpre
        have hput : putBack a off (RangeAllocator.align bytes) pre post =
            pure (let right := RangeAllocator.coalesceRight off (RangeAllocator.align bytes) post
              let left := RangeAllocator.coalesceLeft off right.1 pre
              if left.2.1 + left.2.2 = a.offset then
                { a with offset := left.2.1, free_blocks := left.1 ++ right.2 }
              else { a with free_blocks := left.1 ++ left.2 :: right.2 }) := by
          rw [putBack, hright, Arith.pure_then, hleft, Arith.pure_then, add_exact hleftEnd,
            Arith.pure_then]
          dsimp only
          split <;> rfl
        cases hlast : pre.getLast? with
        | none =>
            dsimp only
            rw [hput]
            simp
        | some b =>
            obtain ⟨po, pl⟩ := b
            dsimp only
            rw [add_exact (hpre _ (List.mem_of_getLast? hlast)), Arith.pure_then, hput]
            simp only [Option.any_some, decide_eq_true_eq]
            split <;> rfl

theorem giveBack_wraps {len : Nat} (hpos : len ≠ 0) (hend : SIZE ≤ off + len) :
    (giveBack a off len).wraps = true := by
  rw [giveBack, if_neg hpos]
  exact Arith.bind_wraps _ (add_wraps hend)

end Exact

/-! ## Runs -/

/-- Where the region begins, and the two calls. -/
structure Allocator where
  base : Nat
  allocate : RangeAllocator → Nat → Arith (Except DramOom (Nat × RangeAllocator))
  free : RangeAllocator → Nat → Nat → Arith RangeAllocator

def Range.allocator : Allocator := { base := 0, allocate := Range.allocate, free := Range.free }

def DramPool.allocator (base_ptr : Nat) : Allocator :=
  { base := base_ptr, allocate := DramPool.allocate base_ptr, free := DramPool.free base_ptr }

inductive Call where
  | allocate (bytes : UInt64)
  | free (addr bytes : UInt64)

/-- Does a call wrap? -/
def Allocator.wraps (c : Allocator) (a : RangeAllocator) : Call → Bool
  | .allocate bytes => (c.allocate a bytes.toNat).wraps
  | .free addr bytes => (c.free a addr.toNat bytes.toNat).wraps

/-- The allocator, and what was handed out and not returned: addresses and the sizes that
were asked for. -/
structure State where
  ranges : RangeAllocator
  live : List (Nat × Nat)

def State.init (capacity : UInt64) : State :=
  { ranges := RangeAllocator.new capacity.toNat, live := [] }

def step (c : Allocator) (s : State) : Call → State
  | .allocate bytes =>
      match (c.allocate s.ranges bytes.toNat).val with
      | .ok (addr, ranges) => { ranges := ranges, live := (addr, bytes.toNat) :: s.live }
      | .error _ => s
  | .free addr bytes =>
      { ranges := (c.free s.ranges addr.toNat bytes.toNat).val
        live := s.live.erase (addr.toNat, bytes.toNat) }

/-- The calls of a run, each with the state before it. -/
def taken (c : Allocator) : State → List Call → List (State × Call)
  | _, [] => []
  | s, call :: calls => (s, call) :: taken c (step c s call) calls

/-- The states of a run, the first included. -/
def visited (c : Allocator) : State → List Call → List State
  | s, [] => [s]
  | s, call :: calls => s :: visited c (step c s call) calls

/-- The range of a size at an address, rounded up. -/
def held (l : Nat × Nat) : Nat × Nat := (l.1, RangeAllocator.align l.2)

def Disjoint (b c : Nat × Nat) : Prop :=
  ∀ x, ¬ (RangeAllocator.covers x b = true ∧ RangeAllocator.covers x c = true)

/-- No address of the range is in use, and it lies in the region. -/
structure Gap (base capacity : Nat) (s : State) (b : Nat × Nat) : Prop where
  inside : base ≤ b.1 ∧ b.1 + b.2 ≤ base + capacity
  unused : ∀ l ∈ s.live, Disjoint b (held l)

/-- A range is returned as it was handed out, or lies outside, or is in part free. -/
def Legal (base capacity : Nat) (s : State) : Call → Prop
  | .allocate _ => True
  | .free addr bytes =>
      (addr.toNat, bytes.toNat) ∈ s.live ∨
      addr.toNat < base ∨ base + capacity < addr.toNat + RangeAllocator.align bytes.toNat ∨
      ∃ x, RangeAllocator.covers x (held (addr.toNat, bytes.toNat)) = true ∧
        ∀ l ∈ s.live, RangeAllocator.covers x (held l) = false

/-- What holds of an allocator between any two calls. -/
structure Lawful (base capacity : Nat) (s : State) : Prop where
  aligned : ∀ l ∈ s.live, RangeAllocator.ALIGN ∣ l.1
  disjoint : s.live.Pairwise fun l m => Disjoint (held l) (held m)
  inside : ∀ l ∈ s.live, base ≤ l.1 ∧ l.1 + RangeAllocator.align l.2 ≤ base + capacity
  /-- The blocks are in order and no two touch. -/
  coalesced : s.ranges.free_blocks.Pairwise fun b c => b.1 + b.2 < c.1
  nonempty : ∀ b ∈ s.ranges.free_blocks, 0 < b.2
  below : ∀ b ∈ s.ranges.free_blocks, b.1 + b.2 < s.ranges.offset
  apart : ∀ b ∈ s.ranges.free_blocks, ∀ l ∈ s.live, Disjoint (base + b.1, b.2) (held l)
  used : used s.ranges = pure (s.live.map fun l => RangeAllocator.align l.2).sum

/-- What holds of a call: no arithmetic wraps, an allocation is refused only where no gap of
its size is, and one that a block fits comes from the smallest of these. -/
structure Answers (c : Allocator) (capacity : Nat) (s : State) (call : Call) : Prop where
  no_wrap : c.wraps s.ranges call = false
  refused : ∀ bytes e, call = .allocate bytes → (c.allocate s.ranges bytes.toNat).val = .error e →
    ∀ x, ¬ Gap c.base capacity s (x, RangeAllocator.align bytes.toNat)
  best : ∀ bytes addr ranges, call = .allocate bytes →
    (c.allocate s.ranges bytes.toNat).val = .ok (addr, ranges) →
    ∀ b ∈ s.ranges.free_blocks, RangeAllocator.align bytes.toNat ≤ b.2 →
      ∃ b' ∈ s.ranges.free_blocks, addr = c.base + b'.1 ∧
        RangeAllocator.align bytes.toNat ≤ b'.2 ∧ b'.2 ≤ b.2

/-- A run that keeps the law. -/
structure Correct (c : Allocator) (capacity : Nat) (s : State) (calls : List Call) : Prop where
  lawful : ∀ s' ∈ visited c s calls, Lawful c.base capacity s'
  answers : ∀ e ∈ taken c s calls, Answers c capacity e.1 e.2

/-- Rounding `bytes` up does not wrap, nor does the end of what is allocated or returned. -/
def Range.Fits (a : RangeAllocator) : Call → Prop
  | .allocate bytes =>
      bytes.toNat + RangeAllocator.ALIGN < SIZE ∧ Grows a (RangeAllocator.align bytes.toNat)
  | .free off bytes =>
      bytes.toNat + RangeAllocator.ALIGN < SIZE ∧
        (RangeAllocator.align bytes.toNat ≠ 0 →
          off.toNat + RangeAllocator.align bytes.toNat < SIZE)

/-- A pointer outside of the pool is not looked at. -/
def DramPool.Fits (base_ptr : Nat) (a : RangeAllocator) : Call → Prop
  | .allocate bytes =>
      bytes.toNat + 63 < SIZE ∧ Grows a (RangeAllocator.align bytes.toNat)
  | .free ptr bytes => base_ptr ≤ ptr.toNat → ptr.toNat < base_ptr + a.capacity →
      bytes.toNat + 63 < SIZE ∧
        (RangeAllocator.align bytes.toNat ≠ 0 →
          ptr.toNat - base_ptr + RangeAllocator.align bytes.toNat < SIZE)

/-- With addresses instead of offsets. -/
def located (base : Nat) :
    Except DramOom (Nat × RangeAllocator) → Except DramOom (Nat × RangeAllocator)
  | .ok (off, a) => .ok (base + off, a)
  | .error e => .error e

/-- Calls that fit are those on numbers, the others wrap. -/
structure Implements (c : Allocator) (capacity : Nat) (fits : RangeAllocator → Call → Prop) :
    Prop where
  allocate_exact : ∀ a bytes, a.WF → a.capacity = capacity → fits a (.allocate bytes) →
    c.allocate a bytes.toNat = pure (located c.base (outcome a bytes.toNat))
  free_exact : ∀ a addr bytes, a.WF → a.capacity = capacity → fits a (.free addr bytes) →
    c.free a addr.toNat bytes.toNat =
      pure (if c.base ≤ addr.toNat then a.free (addr.toNat - c.base) bytes.toNat else a)
  wraps : ∀ a call, a.WF → a.capacity = capacity → ¬ fits a call → c.wraps a call = true

theorem located_zero (r : Except DramOom (Nat × RangeAllocator)) : located 0 r = r := by
  cases r with
  | ok p => rw [located, Nat.zero_add]
  | error e => rfl

theorem Range.implements {capacity : Nat} (hcap : capacity < SIZE) :
    Implements Range.allocator capacity Range.Fits where
  allocate_exact := by
    rintro a bytes h rfl ⟨hsize, hgrows⟩
    change Range.allocate a bytes.toNat = pure (located 0 _)
    rw [Range.allocate, Range.align_exact hsize, Arith.pure_then, carve_exact h hcap hgrows,
      located_zero]
  free_exact := by
    rintro a off bytes h rfl ⟨hsize, hend⟩
    change Range.free a off.toNat bytes.toNat =
      pure (if 0 ≤ off.toNat then a.free (off.toNat - 0) bytes.toNat else a)
    rw [Range.free, Range.align_exact hsize, Arith.pure_then, giveBack_exact h hcap hend,
      if_pos (Nat.zero_le _), Nat.sub_zero]
  wraps := by
    intro a call h hcapacity hfits
    cases call with
    | allocate bytes =>
        simp only [Allocator.wraps, Range.allocator]
        by_cases hsize : bytes.toNat + RangeAllocator.ALIGN < SIZE
        · have hgrows : ¬ Grows a (RangeAllocator.align bytes.toNat) :=
            fun hgrows => hfits ⟨hsize, hgrows⟩
          rw [Grows, Classical.not_imp, Nat.not_lt] at hgrows
          rw [Range.allocate, Range.align_exact hsize, Arith.pure_then]
          exact carve_wraps hgrows.1 hgrows.2
        · rw [Range.allocate]
          exact Arith.bind_wraps _ (Range.align_wraps (Nat.le_of_not_lt hsize))
    | free off bytes =>
        simp only [Allocator.wraps, Range.allocator]
        by_cases hsize : bytes.toNat + RangeAllocator.ALIGN < SIZE
        · have hend : ¬ (RangeAllocator.align bytes.toNat ≠ 0 →
              off.toNat + RangeAllocator.align bytes.toNat < SIZE) :=
            fun hend => hfits ⟨hsize, hend⟩
          rw [Classical.not_imp, Nat.not_lt] at hend
          rw [Range.free, Range.align_exact hsize, Arith.pure_then]
          exact giveBack_wraps hend.1 hend.2
        · rw [Range.free]
          exact Arith.bind_wraps _ (Range.align_wraps (Nat.le_of_not_lt hsize))

/-- What is handed out lies in the region. -/
theorem allocate_le {a a' : RangeAllocator} {bytes off : Nat} (h : a.WF)
    (hal : a.allocate bytes = some (off, a')) : off ≤ a.capacity := by
  have hfits := h.fits
  rcases RangeAllocator.allocate_cases hal with ⟨pre, len, post, hblocks, _⟩ | ⟨_, rfl, _⟩
  · have hmem : (off, len) ∈ a.free_blocks := by simp [hblocks]
    have hbelow : off + len ≤ a.offset := h.tidy.below _ hmem
    omega
  · exact hfits

theorem DramPool.implements {base_ptr capacity : Nat} (hmapped : base_ptr + capacity < SIZE) :
    Implements (DramPool.allocator base_ptr) capacity (DramPool.Fits base_ptr) where
  allocate_exact := by
    rintro a bytes h rfl ⟨hsize, hgrows⟩
    change DramPool.allocate base_ptr a bytes.toNat = pure (located base_ptr _)
    rw [DramPool.allocate, DramPool.align_exact hsize, Arith.pure_then,
      carve_exact h (by omega) hgrows, Arith.pure_then, outcome]
    cases hal : a.allocate bytes.toNat with
    | none => rfl
    | some r =>
        obtain ⟨off, a'⟩ := r
        have hle := allocate_le h hal
        dsimp only
        rw [add_exact (by omega)]
        rfl
  free_exact := by
    rintro a ptr bytes h rfl hfits
    change DramPool.free base_ptr a ptr.toNat bytes.toNat =
      pure (if base_ptr ≤ ptr.toNat then a.free (ptr.toNat - base_ptr) bytes.toNat else a)
    rw [DramPool.free]
    by_cases hbelow : ptr.toNat < base_ptr
    · rw [if_pos hbelow, if_neg (Nat.not_le.mpr hbelow)]
    · have hge := Nat.le_of_not_lt hbelow
      rw [if_neg hbelow, if_pos hge, add_exact hmapped, Arith.pure_then]
      by_cases habove : ptr.toNat ≥ base_ptr + a.capacity
      · have hin := h.fits
        rw [if_pos habove, RangeAllocator.free, if_pos (by omega)]
      · obtain ⟨hsize, hend⟩ := hfits hge (Nat.lt_of_not_le habove)
        have hptr : ptr.toNat < SIZE := ptr.toNat_lt
        rw [if_neg habove, sub_exact hge hptr, Arith.pure_then, DramPool.align_exact hsize,
          Arith.pure_then, giveBack_exact h (by omega) hend]
  wraps := by
    rintro a call h rfl hfits
    cases call with
    | allocate bytes =>
        simp only [Allocator.wraps, DramPool.allocator]
        by_cases hsize : bytes.toNat + 63 < SIZE
        · have hgrows : ¬ Grows a (RangeAllocator.align bytes.toNat) :=
            fun hgrows => hfits ⟨hsize, hgrows⟩
          rw [Grows, Classical.not_imp, Nat.not_lt] at hgrows
          rw [DramPool.allocate, DramPool.align_exact hsize, Arith.pure_then]
          exact Arith.bind_wraps _ (carve_wraps hgrows.1 hgrows.2)
        · rw [DramPool.allocate]
          exact Arith.bind_wraps _ (DramPool.align_wraps (Nat.le_of_not_lt hsize))
    | free ptr bytes =>
        simp only [Allocator.wraps, DramPool.allocator]
        simp only [DramPool.Fits, Classical.not_imp] at hfits
        obtain ⟨hge, hlt, hfits⟩ := hfits
        have hptr : ptr.toNat < SIZE := ptr.toNat_lt
        rw [DramPool.free, if_neg (Nat.not_lt.mpr hge), add_exact hmapped, Arith.pure_then,
          if_neg (Nat.not_le.mpr hlt), sub_exact hge hptr, Arith.pure_then]
        by_cases hsize : bytes.toNat + 63 < SIZE
        · have hend : ¬ (RangeAllocator.align bytes.toNat ≠ 0 →
              ptr.toNat - base_ptr + RangeAllocator.align bytes.toNat < SIZE) :=
            fun hend => hfits ⟨hsize, hend⟩
          rw [Classical.not_imp, Nat.not_lt] at hend
          rw [DramPool.align_exact hsize, Arith.pure_then]
          exact giveBack_wraps hend.1 hend.2
        · exact Arith.bind_wraps _ (DramPool.align_wraps (Nat.le_of_not_lt hsize))

/-! ## The invariant -/

/-- What is in use, as ranges of offsets. -/
def spans (base : Nat) (live : List (Nat × Nat)) : List (Nat × Nat) :=
  live.map fun l => (l.1 - base, RangeAllocator.align l.2)

/-- Every address is either available or in use, once. -/
structure Sound (base capacity : Nat) (s : State) : Prop where
  kept : s.ranges.Kept
  capacity_eq : s.ranges.capacity = capacity
  live : ∀ l ∈ s.live, base ≤ l.1 ∧ RangeAllocator.ALIGN ∣ l.1 ∧
    l.1 + RangeAllocator.align l.2 ≤ base + capacity
  once : ∀ x, s.ranges.avail x + RangeAllocator.count (spans base s.live) x = 1

theorem disjoint_of_count {blocks : List (Nat × Nat)}
    (h : ∀ x, RangeAllocator.count blocks x ≤ 1) : blocks.Pairwise Disjoint := by
  induction blocks with
  | nil => exact List.Pairwise.nil
  | cons b blocks ih =>
      refine List.pairwise_cons.mpr ⟨?_, ih fun x => ?_⟩
      · rintro c hc x ⟨hb, hcov⟩
        have hle := h x
        have hpos := RangeAllocator.count_pos_of_mem hc hcov
        rw [RangeAllocator.count_cons, if_pos hb] at hle
        omega
      · have hle := h x
        rw [RangeAllocator.count_cons] at hle
        omega

section Sound

variable {base capacity : Nat} {s : State}

theorem sound_init (base : Nat) (capacity : UInt64) :
    Sound base capacity.toNat (State.init capacity) where
  kept := RangeAllocator.kept_new _
  capacity_eq := rfl
  live := nofun
  once := fun x => RangeAllocator.avail_new _ x

/-- Addresses and offsets. -/
theorem covers_held {l : Nat × Nat} (hl : base ≤ l.1) (x : Nat) :
    RangeAllocator.covers x (held l) = true ↔
      base ≤ x ∧
        RangeAllocator.covers (x - base) (l.1 - base, RangeAllocator.align l.2) = true := by
  rw [RangeAllocator.covers_iff, RangeAllocator.covers_iff]
  simp only [held]
  omega

theorem Sound.avail_eq_zero (h : Sound base capacity s) {l : Nat × Nat} (hl : l ∈ s.live) {x : Nat}
    (hx : RangeAllocator.covers x (l.1 - base, RangeAllocator.align l.2) = true) :
    s.ranges.avail x = 0 := by
  have hpos : 0 < RangeAllocator.count (spans base s.live) x :=
    RangeAllocator.count_pos_of_mem (List.mem_map_of_mem hl) hx
  have honce := h.once x
  omega

theorem Sound.lawful (h : Sound base capacity s) (hcap : capacity < SIZE) :
    Lawful base capacity s where
  aligned := fun l hl => (h.live l hl).2.1
  disjoint := by
    have hspans : (spans base s.live).Pairwise Disjoint := by
      refine disjoint_of_count fun x => ?_
      have honce := h.once x
      omega
    refine (List.pairwise_map.mp hspans).imp_of_mem ?_
    rintro l m hl hm hdisjoint x ⟨hx, hx'⟩
    rw [covers_held (h.live l hl).1] at hx
    rw [covers_held (h.live m hm).1] at hx'
    exact hdisjoint _ ⟨hx.2, hx'.2⟩
  inside := fun l hl => ⟨(h.live l hl).1, (h.live l hl).2.2⟩
  coalesced := h.kept.apart.gaps
  nonempty := h.kept.wf.tidy.nonempty
  below := h.kept.apart.below
  apart := by
    rintro b hb l hl x ⟨hx, hx'⟩
    rw [covers_held (h.live l hl).1] at hx'
    have hzero := h.avail_eq_zero hl hx'.2
    have hcov : RangeAllocator.covers (x - base) b = true := by
      rw [RangeAllocator.covers_iff] at hx ⊢
      simp only at hx
      omega
    have hpos := RangeAllocator.count_pos_of_mem hb hcov
    rw [RangeAllocator.avail] at hzero
    omega
  used := by
    have hsum := RangeAllocator.used_eq h.kept.wf h.once
    rw [used_exact h.kept.wf (by rw [h.capacity_eq]; exact hcap)]
    refine congrArg pure ?_
    rw [spans, List.map_map] at hsum
    change _ + (s.live.map fun l => RangeAllocator.align l.2).sum = _ at hsum
    omega

/-- An allocation that is granted. -/
theorem Sound.allocate (h : Sound base capacity s) (hbase : RangeAllocator.ALIGN ∣ base)
    {bytes off : Nat} {a' : RangeAllocator} (hal : s.ranges.allocate bytes = some (off, a')) :
    Sound base capacity { ranges := a', live := (base + off, bytes) :: s.live } := by
  obtain ⟨_, hcapacity, havail⟩ := RangeAllocator.allocate_spec h.kept.wf hal
  obtain ⟨hkept, hoff, hend⟩ := RangeAllocator.kept_allocate h.kept hal
  rw [h.capacity_eq] at hcapacity hend
  refine ⟨hkept, hcapacity, List.forall_mem_cons.mpr ⟨⟨Nat.le_add_right _ _, ?_, ?_⟩, h.live⟩, ?_⟩
  · exact Nat.dvd_add hbase hoff
  · simp only
    omega
  · intro x
    have honce := h.once x
    rw [havail x] at honce
    rw [spans, List.map_cons, RangeAllocator.count_cons]
    simp only [Nat.add_sub_cancel_left]
    rw [spans] at honce
    omega

/-- A range in use that is returned. -/
theorem Sound.free (h : Sound base capacity s) (hbase : RangeAllocator.ALIGN ∣ base)
    {addr bytes : Nat} (hl : (addr, bytes) ∈ s.live) :
    Sound base capacity
      { ranges := s.ranges.free (addr - base) bytes, live := s.live.erase (addr, bytes) } := by
  obtain ⟨hge, hmul, _⟩ := h.live _ hl
  have hbusy : ∀ x, RangeAllocator.covers x (addr - base, RangeAllocator.align bytes) = true →
      s.ranges.avail x = 0 := fun x hx => h.avail_eq_zero hl hx
  obtain ⟨_, hcapacity, havail⟩ := RangeAllocator.free_spec h.kept.wf hbusy
  refine ⟨RangeAllocator.kept_free h.kept (Nat.dvd_sub hmul hbase) hbusy,
    hcapacity.trans h.capacity_eq, fun l hmem => h.live l (List.mem_of_mem_erase hmem), ?_⟩
  intro x
  have honce := h.once x
  have hperm : (spans base s.live).Perm
      ((addr - base, RangeAllocator.align bytes) :: spans base (s.live.erase (addr, bytes))) :=
    (List.perm_cons_erase hl).map _
  rw [RangeAllocator.count, hperm.countP_eq] at honce
  change _ + RangeAllocator.count (_ :: _) x = 1 at honce
  rw [RangeAllocator.count_cons] at honce
  simp only [havail x]
  omega

/-- A range that is not in use is dropped. -/
theorem Sound.free_bogus (h : Sound base capacity s) {addr bytes : UInt64}
    (hlegal : Legal base capacity s (.free addr bytes))
    (hl : (addr.toNat, bytes.toNat) ∉ s.live) (hge : base ≤ addr.toNat) :
    s.ranges.free (addr.toNat - base) bytes.toNat = s.ranges := by
  have hfits := h.kept.wf.fits
  have hcapacity := h.capacity_eq
  rcases hlegal with hmem | hbelow | habove | ⟨x, hx, hfree⟩
  · exact absurd hmem hl
  · omega
  · rw [RangeAllocator.free, if_pos (by omega)]
  · have hin := (@covers_held base (addr.toNat, bytes.toNat) hge x).mp hx
    refine RangeAllocator.free_bogus h.kept.wf hin.2 ?_
    have hzero : RangeAllocator.count (spans base s.live) (x - base) = 0 := by
      refine List.countP_eq_zero.mpr ?_
      intro b hb hcov
      obtain ⟨l, hmem, rfl⟩ := List.mem_map.mp hb
      have hheld := (covers_held (h.live l hmem).1 x).mpr ⟨hin.1, hcov⟩
      rw [hfree l hmem] at hheld
      cases hheld
    have honce := h.once (x - base)
    omega

/-- Where an allocation is refused there is no gap. -/
theorem Sound.refused (h : Sound base capacity s) {bytes : Nat}
    (hal : s.ranges.allocate bytes = none) (x : Nat) :
    ¬ Gap base capacity s (x, RangeAllocator.align bytes) := by
  intro hgap
  obtain ⟨hblocks, hend⟩ := RangeAllocator.allocate_none hal
  obtain ⟨hge, hle⟩ := hgap.inside
  simp only at hge hle
  have hcapacity := h.capacity_eq
  obtain ⟨y, hxy, hy, havail⟩ := RangeAllocator.no_gap (x := x - base) h.kept hblocks hend (by omega)
  have honce := h.once y
  have hpos : 0 < RangeAllocator.count (spans base s.live) y := by omega
  obtain ⟨b, hb, hcov⟩ := List.countP_pos_iff.mp hpos
  obtain ⟨l, hl, rfl⟩ := List.mem_map.mp hb
  refine hgap.unused l hl (base + y) ⟨?_, (covers_held (h.live l hl).1 _).mpr ⟨by omega, ?_⟩⟩
  · rw [RangeAllocator.covers_iff]
    simp only
    omega
  · rw [Nat.add_sub_cancel_left]
    exact hcov

end Sound

/-! ## Runs that keep the law -/

section Runs

variable {c : Allocator} {capacity : Nat} {fits : RangeAllocator → Call → Prop} {s : State}

theorem step_sound (hc : Implements c capacity fits) (hbase : RangeAllocator.ALIGN ∣ c.base)
    (h : Sound c.base capacity s) {call : Call} (hlegal : Legal c.base capacity s call)
    (hfits : fits s.ranges call) :
    Sound c.base capacity (step c s call) := by
  cases call with
  | allocate bytes =>
      rw [step, hc.allocate_exact _ _ h.kept.wf h.capacity_eq hfits, Arith.pure_val, outcome]
      cases hal : s.ranges.allocate bytes.toNat with
      | none => exact h
      | some r =>
          obtain ⟨off, a'⟩ := r
          exact h.allocate hbase hal
  | free addr bytes =>
      rw [step, hc.free_exact _ _ _ h.kept.wf h.capacity_eq hfits, Arith.pure_val]
      by_cases hl : (addr.toNat, bytes.toNat) ∈ s.live
      · rw [if_pos (h.live _ hl).1]
        exact h.free hbase hl
      · rw [List.erase_of_not_mem hl]
        split
        · next hge =>
            rw [h.free_bogus hlegal hl hge]
            exact h
        · exact h

theorem step_answers (hc : Implements c capacity fits) (h : Sound c.base capacity s) {call : Call}
    (hfits : fits s.ranges call) : Answers c capacity s call where
  no_wrap := by
    cases call with
    | allocate bytes =>
        rw [Allocator.wraps, hc.allocate_exact _ _ h.kept.wf h.capacity_eq hfits,
          Arith.pure_wraps]
    | free addr bytes =>
        rw [Allocator.wraps, hc.free_exact _ _ _ h.kept.wf h.capacity_eq hfits, Arith.pure_wraps]
  refused := by
    rintro bytes e rfl herr x
    rw [hc.allocate_exact _ _ h.kept.wf h.capacity_eq hfits, Arith.pure_val, outcome] at herr
    cases hal : s.ranges.allocate bytes.toNat with
    | none => exact h.refused hal x
    | some r =>
        rw [hal] at herr
        cases herr
  best := by
    rintro bytes addr ranges rfl hok b hb hle
    rw [hc.allocate_exact _ _ h.kept.wf h.capacity_eq hfits, Arith.pure_val, outcome] at hok
    cases hal : s.ranges.allocate bytes.toNat with
    | none =>
        rw [hal] at hok
        cases hok
    | some r =>
        obtain ⟨off, a'⟩ := r
        rw [hal] at hok
        cases hok
        rcases RangeAllocator.allocate_cases hal with
          ⟨pre, len, post, hblocks, hfit, hmin, _⟩ | ⟨hnone, _⟩
        · exact ⟨(off, len), by simp [hblocks], rfl, hfit, hmin b hb hle⟩
        · have hlt := hnone b hb
          omega

theorem lawful_run_iff (hc : Implements c capacity fits) (hbase : RangeAllocator.ALIGN ∣ c.base)
    (hcap : capacity < SIZE) (h : Sound c.base capacity s) {calls : List Call}
    (hlegal : ∀ e ∈ taken c s calls, Legal c.base capacity e.1 e.2) :
    Correct c capacity s calls ↔ ∀ e ∈ taken c s calls, fits e.1.ranges e.2 := by
  induction calls generalizing s with
  | nil =>
      refine ⟨fun _ => nofun, fun _ => ⟨?_, nofun⟩⟩
      intro s' hs'
      rw [List.mem_singleton.mp hs']
      exact h.lawful hcap
  | cons call calls ih =>
      rw [taken, List.forall_mem_cons] at hlegal ⊢
      obtain ⟨hhead, hrest⟩ := hlegal
      constructor
      · rintro ⟨hlawful, hanswers⟩
        rw [visited, List.forall_mem_cons] at hlawful
        rw [taken, List.forall_mem_cons] at hanswers
        have hfits : fits s.ranges call := by
          by_contra hnot
          have hwraps := hc.wraps _ _ h.kept.wf h.capacity_eq hnot
          rw [hanswers.1.no_wrap] at hwraps
          cases hwraps
        refine ⟨hfits, (ih (step_sound hc hbase h hhead hfits) hrest).mp ?_⟩
        exact ⟨hlawful.2, hanswers.2⟩
      · rintro ⟨hfits, hmore⟩
        have hnext := (ih (step_sound hc hbase h hhead hfits) hrest).mpr hmore
        constructor
        · rw [visited, List.forall_mem_cons]
          exact ⟨h.lawful hcap, hnext.lawful⟩
        · rw [taken, List.forall_mem_cons]
          exact ⟨step_answers hc h hfits, hnext.answers⟩

end Runs

/-- What the kernel promises of a mapping: it begins at a page and ends below the end of the
address space. -/
structure Mapped (base_ptr capacity : UInt64) : Prop where
  page : 4096 ∣ base_ptr.toNat
  fits : base_ptr.toNat + capacity.toNat < SIZE

/-- Both allocators keep the law in a run exactly when no size is so large that rounding it up
or adding it to an offset goes past the end of `usize`. -/
theorem allocators_lawful_iff (capacity : UInt64) (calls : List Call) :
    ((∀ e ∈ taken Range.allocator (State.init capacity) calls,
        Legal 0 capacity.toNat e.1 e.2) →
      (Correct Range.allocator capacity.toNat (State.init capacity) calls ↔
        ∀ e ∈ taken Range.allocator (State.init capacity) calls, Range.Fits e.1.ranges e.2)) ∧
    ∀ base_ptr : UInt64, Mapped base_ptr capacity →
      let c := DramPool.allocator base_ptr.toNat
      (∀ e ∈ taken c (State.init capacity) calls,
        Legal base_ptr.toNat capacity.toNat e.1 e.2) →
      (Correct c capacity.toNat (State.init capacity) calls ↔
        ∀ e ∈ taken c (State.init capacity) calls,
          DramPool.Fits base_ptr.toNat e.1.ranges e.2) := by
  have hcap : capacity.toNat < SIZE := capacity.toNat_lt
  constructor
  · intro hlegal
    exact lawful_run_iff (Range.implements hcap) (Nat.dvd_zero _) hcap (sound_init 0 capacity)
      hlegal
  · intro base_ptr hmapped c hlegal
    have hbase : RangeAllocator.ALIGN ∣ base_ptr.toNat :=
      Nat.dvd_trans (by decide) hmapped.page
    exact lawful_run_iff (DramPool.implements hmapped.fits) hbase hcap
      (sound_init base_ptr.toNat capacity) hlegal

/-- A size is handed out and returned. -/
theorem allocators_lawful_small :
    Correct Range.allocator 4096 (State.init 4096) [.allocate 1, .free 0 1] ∧
      Correct (DramPool.allocator 0x10000000) 4096 (State.init 4096)
        [.allocate 1, .free 0x10000000 1] := by
  constructor
  · refine ((allocators_lawful_iff 4096 [.allocate 1, .free 0 1]).1 ?_).mpr ?_
    · rw [taken, taken, List.forall_mem_cons, List.forall_mem_cons]
      exact ⟨trivial, Or.inl (by decide +kernel), nofun⟩
    · rw [taken, taken, List.forall_mem_cons, List.forall_mem_cons]
      exact ⟨⟨by decide +kernel, fun _ => by decide +kernel⟩,
        ⟨by decide +kernel, fun _ => by decide +kernel⟩, nofun⟩
  · have hmapped : Mapped 0x10000000 4096 := ⟨by decide +kernel, by decide +kernel⟩
    refine ((allocators_lawful_iff 4096 [.allocate 1, .free 0x10000000 1]).2 0x10000000 hmapped
      ?_).mpr ?_
    · rw [taken, taken, List.forall_mem_cons, List.forall_mem_cons]
      exact ⟨trivial, Or.inl (by decide +kernel), nofun⟩
    · rw [taken, taken, List.forall_mem_cons, List.forall_mem_cons]
      exact ⟨⟨by decide +kernel, fun _ => by decide +kernel⟩,
        fun _ _ => ⟨by decide +kernel, fun _ => by decide +kernel⟩, nofun⟩

/-- The greatest size is rounded up to nothing, and granted. -/
theorem greatest_size_granted :
    (∀ e ∈ taken Range.allocator (State.init 4096) [.allocate 0xFFFFFFFFFFFFFFFF],
      Legal 0 4096 e.1 e.2) ∧
    ¬ Correct Range.allocator 4096 (State.init 4096) [.allocate 0xFFFFFFFFFFFFFFFF] := by
  constructor
  · rw [taken, List.forall_mem_cons]
    exact ⟨trivial, nofun⟩
  · intro h
    have hlive : (step Range.allocator (State.init 4096) (.allocate 0xFFFFFFFFFFFFFFFF)).live =
        [(0, 0xFFFFFFFFFFFFFFFF)] := by decide +kernel
    have hlawful := h.lawful (step Range.allocator (State.init 4096) (.allocate 0xFFFFFFFFFFFFFFFF))
      (by rw [visited, visited]; simp)
    have hinside := (hlawful.inside (0, 0xFFFFFFFFFFFFFFFF) (by rw [hlive]; simp)).2
    revert hinside
    decide +kernel

end Words
end StrikeDB
