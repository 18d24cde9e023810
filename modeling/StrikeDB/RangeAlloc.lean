import Mathlib

/-!
# StrikeDB: ranges of a fixed region

The DRAM pools and the spill file hand out ranges of a region of fixed size and take
them back: best fit among the returned ranges, which are kept sorted and merged with
their neighbours, or the next part of the region that was never used.

**Results.**
* `allocate_spec`: what is handed out was available, and nothing else changes.
* `free_spec`: a range that is in use becomes available again.
-/

namespace StrikeDB

/-- Best-fit allocator over `[0, capacity)`. -/
structure RangeAllocator where
  capacity : Nat
  /-- High-water mark. -/
  offset : Nat
  /-- Returned ranges, sorted by offset and coalesced. -/
  free_blocks : List (Nat × Nat)

namespace RangeAllocator

def ALIGN : Nat := 64

def new (capacity : Nat) : RangeAllocator := { capacity := capacity, offset := 0, free_blocks := [] }

/-- Round up to `ALIGN`. -/
def align (bytes : Nat) : Nat := (bytes + (ALIGN - 1)) / ALIGN * ALIGN

/-- Bytes currently handed out. -/
def used (a : RangeAllocator) : Nat := a.offset - (a.free_blocks.map Prod.snd).sum

/-- The smallest block that is large enough, the first of several: its index and its
length. -/
def bestFit (aligned : Nat) : List (Nat × Nat) → Nat → Option (Nat × Nat) → Option (Nat × Nat)
  | [], _, best => best
  | (_, len) :: blocks, i, best =>
      bestFit aligned blocks (i + 1)
        (if aligned ≤ len ∧ best.all (fun b => len < b.2) then some (i, len) else best)

def allocate (a : RangeAllocator) (bytes : Nat) : Option (Nat × RangeAllocator) :=
  let aligned := align bytes
  match bestFit aligned a.free_blocks 0 none with
  | some (i, _) =>
      match a.free_blocks[i]? with
      | some (off, len) =>
          if len = aligned then some (off, { a with free_blocks := a.free_blocks.eraseIdx i })
          else
            some (off, { a with
              free_blocks := a.free_blocks.set i (off + aligned, len - aligned) })
      | none => none
  | none =>
      if a.offset + aligned > a.capacity then none
      else some (a.offset, { a with offset := a.offset + aligned })

/-- The block with its right neighbour, if they touch, and what is behind. -/
def coalesceRight (off len : Nat) : List (Nat × Nat) → Nat × List (Nat × Nat)
  | [] => (len, [])
  | (no, nl) :: post => if off + len = no then (len + nl, post) else (len, (no, nl) :: post)

/-- The block with its left neighbour, if they touch, and what is before. -/
def coalesceLeft (off len : Nat) (pre : List (Nat × Nat)) : List (Nat × Nat) × Nat × Nat :=
  match pre.getLast? with
  | some (po, pl) => if po + pl = off then (pre.dropLast, po, pl + len) else (pre, off, len)
  | none => (pre, off, len)

/-- Return a range.  What is out of bounds or overlaps something free is dropped. -/
def free (a : RangeAllocator) (off bytes : Nat) : RangeAllocator :=
  let len := align bytes
  if len = 0 ∨ off + len > a.offset then a
  else
    let pre := a.free_blocks.takeWhile fun b => b.1 < off
    let post := a.free_blocks.dropWhile fun b => b.1 < off
    if post.head?.any (fun b => off + len > b.1) then a
    else if pre.getLast?.any (fun b => b.1 + b.2 > off) then a
    else
      let right := coalesceRight off len post
      let left := coalesceLeft off right.1 pre
      if left.2.1 + left.2.2 = a.offset then
        { a with offset := left.2.1, free_blocks := left.1 ++ right.2 }
      else { a with free_blocks := left.1 ++ left.2 :: right.2 }

/-! ## What is available -/

/-- Does the range hold the address? -/
def covers (x : Nat) (b : Nat × Nat) : Bool := b.1 ≤ x && x < b.1 + b.2

/-- How often a list of ranges holds an address. -/
def count (blocks : List (Nat × Nat)) (x : Nat) : Nat := blocks.countP (covers x)

/-- Is the address available, and how often? -/
def avail (a : RangeAllocator) (x : Nat) : Nat :=
  count a.free_blocks x + if a.offset ≤ x then 1 else 0

/-- Ranges in order, none of them empty, all below a bound. -/
structure Tidy (blocks : List (Nat × Nat)) (bound : Nat) : Prop where
  sorted : blocks.Pairwise fun b c => b.1 + b.2 ≤ c.1
  nonempty : ∀ b ∈ blocks, 0 < b.2
  below : ∀ b ∈ blocks, b.1 + b.2 ≤ bound

structure WF (a : RangeAllocator) : Prop where
  tidy : Tidy a.free_blocks a.offset
  fits : a.offset ≤ a.capacity

theorem wf_new (capacity : Nat) : (new capacity).WF where
  tidy := ⟨List.Pairwise.nil, by simp [new], by simp [new]⟩
  fits := Nat.zero_le _

theorem avail_new (capacity x : Nat) : (new capacity).avail x = 1 := by
  simp [avail, new, count]

namespace Tidy

variable {pre post : List (Nat × Nat)} {b c : Nat × Nat} {bound : Nat}

theorem split (h : Tidy (pre ++ b :: post) bound) :
    Tidy pre b.1 ∧ Tidy post bound ∧ (∀ c ∈ post, b.1 + b.2 ≤ c.1) ∧
      (∀ c ∈ pre, ∀ d ∈ post, c.1 + c.2 ≤ d.1) ∧ 0 < b.2 ∧ b.1 + b.2 ≤ bound := by
  have hsorted := h.sorted
  rw [List.pairwise_append, List.pairwise_cons] at hsorted
  obtain ⟨hpre, ⟨hhead, hpost⟩, hcross⟩ := hsorted
  refine ⟨⟨hpre, ?_, ?_⟩, ⟨hpost, ?_, ?_⟩, hhead, ?_, h.nonempty b (by simp), h.below b (by simp)⟩
  · exact fun c hc => h.nonempty c (by simp [hc])
  · exact fun c hc => hcross c hc b List.mem_cons_self
  · exact fun c hc => h.nonempty c (by simp [hc])
  · exact fun c hc => h.below c (by simp [hc])
  · exact fun c hc d hd => hcross c hc d (List.mem_cons_of_mem _ hd)

theorem join (hpre : Tidy pre b.1) (hpost : Tidy post bound) (hhead : ∀ c ∈ post, b.1 + b.2 ≤ c.1)
    (hpos : 0 < b.2) (hbound : b.1 + b.2 ≤ bound) : Tidy (pre ++ b :: post) bound := by
  have hcross : ∀ c ∈ pre, c.1 + c.2 ≤ b.1 := hpre.below
  refine ⟨?_, ?_, ?_⟩
  · rw [List.pairwise_append, List.pairwise_cons]
    refine ⟨hpre.sorted, ⟨hhead, hpost.sorted⟩, ?_⟩
    intro c hc d hd
    have hcb := hcross c hc
    rcases List.mem_cons.mp hd with rfl | hd
    · exact hcb
    · have := hhead d hd
      omega
  · intro c hc
    rcases List.mem_append.mp hc with hc | hc
    · exact hpre.nonempty c hc
    · rcases List.mem_cons.mp hc with rfl | hc
      · exact hpos
      · exact hpost.nonempty c hc
  · intro c hc
    rcases List.mem_append.mp hc with hc | hc
    · have := hcross c hc
      omega
    · rcases List.mem_cons.mp hc with rfl | hc
      · exact hbound
      · exact hpost.below c hc

theorem erase (h : Tidy (pre ++ b :: post) bound) : Tidy (pre ++ post) bound := by
  obtain ⟨hpre, hpost, _, hcross, _, hbound⟩ := h.split
  refine ⟨List.pairwise_append.mpr ⟨hpre.sorted, hpost.sorted, hcross⟩, ?_, ?_⟩
  · exact fun c hc => (List.mem_append.mp hc).elim (hpre.nonempty c) (hpost.nonempty c)
  · intro c hc
    rcases List.mem_append.mp hc with hc | hc
    · have := hpre.below c hc
      omega
    · exact hpost.below c hc

/-- A part of a block in its place. -/
theorem shrink (h : Tidy (pre ++ b :: post) bound) (hle : b.1 ≤ c.1) (hend : c.1 + c.2 ≤ b.1 + b.2)
    (hpos : 0 < c.2) : Tidy (pre ++ c :: post) bound := by
  obtain ⟨hpre, hpost, hhead, _, _, hbound⟩ := h.split
  refine join ⟨hpre.sorted, hpre.nonempty, ?_⟩ hpost ?_ hpos (by omega)
  · exact fun d hd => Nat.le_trans (hpre.below d hd) hle
  · exact fun d hd => Nat.le_trans hend (hhead d hd)

/-- Two blocks that touch become one. -/
theorem merge {off m n : Nat} (h : Tidy (pre ++ (off, m) :: (off + m, n) :: post) bound) :
    Tidy (pre ++ (off, m + n) :: post) bound := by
  obtain ⟨hpre, hrest, _, _, hm, _⟩ := h.split
  have hrest : Tidy ([] ++ (off + m, n) :: post) bound := hrest
  obtain ⟨_, hpost, hhead, _, _, hbound⟩ := hrest.split
  simp only at hhead hbound hm
  refine join hpre hpost ?_ (by simp only; omega) (by simp only; omega)
  intro c hc
  have := hhead c hc
  simp only
  omega

end Tidy

@[simp] theorem count_nil (x : Nat) : count [] x = 0 := rfl

@[simp] theorem count_cons (b : Nat × Nat) (l : List (Nat × Nat)) (x : Nat) :
    count (b :: l) x = count l x + if covers x b then 1 else 0 := by
  simp [count, List.countP_cons]

@[simp] theorem count_append (l l' : List (Nat × Nat)) (x : Nat) :
    count (l ++ l') x = count l x + count l' x := by
  simp [count]

theorem covers_iff (x : Nat) (b : Nat × Nat) : covers x b = true ↔ b.1 ≤ x ∧ x < b.1 + b.2 := by
  simp [covers]

/-- A range in two parts. -/
theorem covers_add (x off m n : Nat) :
    (if covers x (off, m + n) then 1 else 0) =
      (if covers x (off, m) then 1 else 0) + if covers x (off + m, n) then (1 : Nat) else 0 := by
  simp only [covers_iff]
  split <;> split <;> split <;> omega

theorem count_pos_of_mem {blocks : List (Nat × Nat)} {b : Nat × Nat} (hb : b ∈ blocks) {x : Nat}
    (hx : covers x b = true) : 0 < count blocks x :=
  List.countP_pos_iff.mpr ⟨b, hb, hx⟩

/-! ## Allocation -/

theorem bestFit_spec {aligned : Nat} {blocks : List (Nat × Nat)} {i j : Nat}
    {best : Option (Nat × Nat)} {len : Nat} (h : bestFit aligned blocks i best = some (j, len)) :
    best = some (j, len) ∨ ∃ k off, j = i + k ∧ blocks[k]? = some (off, len) ∧ aligned ≤ len := by
  induction blocks generalizing i best with
  | nil => exact Or.inl h
  | cons b blocks ih =>
      obtain ⟨off, l⟩ := b
      rw [bestFit] at h
      rcases ih h with hbest | ⟨k, off', rfl, hk, hle⟩
      · split at hbest
        · next hc =>
            obtain ⟨rfl, rfl⟩ := Prod.mk.inj (Option.some.inj hbest)
            exact Or.inr ⟨0, off, rfl, rfl, hc.1⟩
        · exact Or.inl hbest
      · exact Or.inr ⟨k + 1, off', by omega, hk, hle⟩

/-- A block of a list, and the rest. -/
theorem split_at {blocks : List (Nat × Nat)} {i : Nat} {b : Nat × Nat} (h : blocks[i]? = some b) :
    ∃ pre post, blocks = pre ++ b :: post ∧ blocks.eraseIdx i = pre ++ post ∧
      ∀ b', blocks.set i b' = pre ++ b' :: post := by
  obtain ⟨hi, rfl⟩ := List.getElem?_eq_some_iff.mp h
  refine ⟨blocks.take i, blocks.drop (i + 1), ?_, ?_, ?_⟩
  · rw [List.getElem_cons_drop, List.take_append_drop]
  · exact List.eraseIdx_eq_take_drop_succ blocks i
  · intro b'
    rw [List.set_eq_take_append_cons_drop, if_pos hi]

/-- What is handed out was available, and nothing else changes. -/
theorem allocate_spec {a a' : RangeAllocator} {bytes off : Nat} (h : a.WF)
    (hal : a.allocate bytes = some (off, a')) :
    a'.WF ∧ a'.capacity = a.capacity ∧
      ∀ x, a.avail x = a'.avail x + if covers x (off, align bytes) then 1 else 0 := by
  unfold allocate at hal
  cases hbest : bestFit (align bytes) a.free_blocks 0 none with
  | none =>
      simp only [hbest] at hal
      split at hal
      · cases hal
      · next hfits =>
          obtain ⟨rfl, rfl⟩ := Prod.mk.inj (Option.some.inj hal)
          refine ⟨⟨⟨h.tidy.sorted, h.tidy.nonempty, ?_⟩, by simp only; omega⟩, rfl, ?_⟩
          · intro b hb
            exact Nat.le_trans (h.tidy.below b hb) (Nat.le_add_right _ _)
          · intro x
            simp only [avail, covers_iff]
            split <;> split <;> split <;> omega
  | some best =>
      obtain ⟨i, len⟩ := best
      simp only [hbest] at hal
      rcases bestFit_spec hbest with hnone | ⟨k, off', rfl, hk, hle⟩
      · cases hnone
      · rw [Nat.zero_add, hk] at hal
        simp only at hal
        obtain ⟨pre, post, hblocks, herase, hset⟩ := split_at hk
        have htidy := h.tidy
        rw [hblocks] at htidy
        split at hal
        · next heq =>
            obtain ⟨rfl, rfl⟩ := Prod.mk.inj (Option.some.inj hal)
            refine ⟨⟨?_, h.fits⟩, rfl, ?_⟩
            · show Tidy (a.free_blocks.eraseIdx k) a.offset
              rw [herase]
              exact htidy.erase
            · intro x
              simp only [avail, herase]
              rw [hblocks, count_append, count_append, count_cons, heq]
              omega
        · next hne =>
            obtain ⟨rfl, rfl⟩ := Prod.mk.inj (Option.some.inj hal)
            refine ⟨⟨?_, h.fits⟩, rfl, ?_⟩
            · show Tidy (a.free_blocks.set k _) a.offset
              rw [hset]
              exact htidy.shrink (by simp only; omega) (by simp only; omega) (by simp only; omega)
            · intro x
              simp only [avail, hset]
              have hsplit := covers_add x off' (align bytes) (len - align bytes)
              rw [Nat.add_sub_cancel' hle] at hsplit
              rw [hblocks, count_append, count_append, count_cons, count_cons, hsplit]
              omega

/-! ## Release -/

theorem coalesceRight_spec {pre post : List (Nat × Nat)} {off len bound : Nat}
    (h : Tidy (pre ++ (off, len) :: post) bound) :
    Tidy (pre ++ (off, (coalesceRight off len post).1) :: (coalesceRight off len post).2) bound ∧
      ∀ x, count ((off, (coalesceRight off len post).1) :: (coalesceRight off len post).2) x =
        count ((off, len) :: post) x := by
  cases post with
  | nil => exact ⟨h, fun _ => rfl⟩
  | cons b post =>
      obtain ⟨no, nl⟩ := b
      rw [coalesceRight]
      split
      · next htouch =>
          subst htouch
          refine ⟨h.merge, ?_⟩
          intro x
          simp only [count_cons, covers_add]
          omega
      · exact ⟨h, fun _ => rfl⟩

theorem coalesceLeft_spec {pre post : List (Nat × Nat)} {off len bound : Nat}
    (h : Tidy (pre ++ (off, len) :: post) bound) :
    Tidy ((coalesceLeft off len pre).1 ++ (coalesceLeft off len pre).2 :: post) bound ∧
      ∀ x, count ((coalesceLeft off len pre).1 ++ (coalesceLeft off len pre).2 :: post) x =
        count (pre ++ (off, len) :: post) x := by
  unfold coalesceLeft
  cases hlast : pre.getLast? with
  | none => exact ⟨h, fun _ => rfl⟩
  | some b =>
      obtain ⟨po, pl⟩ := b
      obtain ⟨pre', rfl⟩ := List.getLast?_eq_some_iff.mp hlast
      simp only
      split
      · next htouch =>
          subst htouch
          rw [List.dropLast_concat, List.append_assoc] at *
          refine ⟨h.merge, ?_⟩
          intro x
          simp only [count_append, count_cons, covers_add, List.singleton_append]
          omega
      · exact ⟨h, fun _ => rfl⟩

/-- What is in use lies between the blocks before it and those behind. -/
theorem around {blocks : List (Nat × Nat)} {bound off len : Nat} (h : Tidy blocks bound)
    (hpos : 0 < len) (hbusy : ∀ x, covers x (off, len) = true → count blocks x = 0) :
    (∀ b ∈ blocks.takeWhile (fun b => b.1 < off), b.1 + b.2 ≤ off) ∧
      ∀ b ∈ blocks.dropWhile (fun b => b.1 < off), off + len ≤ b.1 := by
  have hsplit : blocks.takeWhile (fun b => b.1 < off) ++ blocks.dropWhile (fun b => b.1 < off) =
      blocks := List.takeWhile_append_dropWhile
  -- no block holds an address of the range
  have hdisjoint : ∀ b ∈ blocks, ∀ x, ¬ (covers x b = true ∧ covers x (off, len) = true) := by
    rintro b hb x ⟨hx, hrange⟩
    have := count_pos_of_mem hb hx
    have := hbusy x hrange
    omega
  have hmem : ∀ b, b ∈ blocks.takeWhile (fun b => b.1 < off) ∨
      b ∈ blocks.dropWhile (fun b => b.1 < off) → b ∈ blocks := by
    intro b hb
    rw [← hsplit]
    exact List.mem_append.mpr hb
  constructor
  · intro b hb
    have hlt : b.1 < off := by simpa using List.all_eq_true.mp List.all_takeWhile b hb
    have hno := hdisjoint b (hmem b (Or.inl hb)) off
    simp only [covers_iff] at hno
    omega
  · intro b hb
    have hge : off ≤ b.1 := by
      have hsorted := h.sorted
      rw [← hsplit, List.pairwise_append] at hsorted
      have hhead := List.head?_dropWhile_not (fun b : Nat × Nat => b.1 < off) blocks
      cases hdrop : blocks.dropWhile (fun b => b.1 < off) with
      | nil =>
          rw [hdrop] at hb
          cases hb
      | cons c rest =>
          rw [hdrop] at hhead hb hsorted
          have hc : off ≤ c.1 := by simpa using hhead
          rcases List.mem_cons.mp hb with rfl | hb
          · exact hc
          · have := (List.pairwise_cons.mp hsorted.2.1).1 b hb
            omega
    have hpos' := h.nonempty b (hmem b (Or.inr hb))
    have hno := hdisjoint b (hmem b (Or.inr hb)) b.1
    simp only [covers_iff] at hno
    omega

/-- A range that is in use is not dropped: it goes between the blocks before it and those
behind. -/
theorem free_eq {a : RangeAllocator} {off bytes : Nat} (h : a.WF) (hpos : 0 < align bytes)
    (hbusy : ∀ x, covers x (off, align bytes) = true → a.avail x = 0) :
    ∃ pre post, a.free_blocks = pre ++ post ∧ (∀ b ∈ pre, b.1 + b.2 ≤ off) ∧
      (∀ b ∈ post, off + align bytes ≤ b.1) ∧ off + align bytes ≤ a.offset ∧
      a.free off bytes =
        let right := coalesceRight off (align bytes) post
        let left := coalesceLeft off right.1 pre
        if left.2.1 + left.2.2 = a.offset then
          { a with offset := left.2.1, free_blocks := left.1 ++ right.2 }
        else { a with free_blocks := left.1 ++ left.2 :: right.2 } := by
  have hin : off + align bytes ≤ a.offset := by
    by_contra hout
    have hcov : covers (off + align bytes - 1) (off, align bytes) = true := by
      rw [covers_iff]
      simp only
      omega
    have hav := hbusy _ hcov
    simp only [avail] at hav
    split at hav <;> omega
  obtain ⟨hpre, hpost⟩ := around h.tidy hpos fun x hx => by
    have := hbusy x hx
    simp only [avail] at this
    omega
  refine ⟨_, _, List.takeWhile_append_dropWhile.symm, hpre, hpost, hin, ?_⟩
  unfold free
  generalize a.free_blocks.takeWhile (fun b => b.1 < off) = pre at *
  generalize a.free_blocks.dropWhile (fun b => b.1 < off) = post at *
  have hhead : post.head?.any (fun b => decide (off + align bytes > b.1)) = false := by
    cases hp : post.head? with
    | none => rfl
    | some b =>
        have := hpost b (List.mem_of_head? hp)
        simp only [Option.any_some, decide_eq_false_iff_not]
        omega
  have hlast : pre.getLast?.any (fun b => decide (b.1 + b.2 > off)) = false := by
    cases hp : pre.getLast? with
    | none => rfl
    | some b =>
        have := hpre b (List.mem_of_getLast? hp)
        simp only [Option.any_some, decide_eq_false_iff_not]
        omega
  simp only [hhead, hlast, Bool.false_eq_true, if_false]
  rw [if_neg (by omega)]

/-- A range that is in use becomes available again. -/
theorem free_spec {a : RangeAllocator} {off bytes : Nat} (h : a.WF)
    (hbusy : ∀ x, covers x (off, align bytes) = true → a.avail x = 0) :
    (a.free off bytes).WF ∧ (a.free off bytes).capacity = a.capacity ∧
      ∀ x, (a.free off bytes).avail x =
        a.avail x + if covers x (off, align bytes) then 1 else 0 := by
  rcases Nat.eq_zero_or_pos (align bytes) with hzero | hpos
  · have hno : ∀ x, ¬ covers x (off, align bytes) = true := by
      intro x
      rw [covers_iff, hzero]
      simp only
      omega
    rw [free, if_pos (Or.inl hzero)]
    refine ⟨h, rfl, ?_⟩
    intro x
    rw [if_neg (hno x)]
    rfl
  · obtain ⟨pre, post, hsplit, hpre, hpost, hin, hfree⟩ := free_eq h hpos hbusy
    rw [hfree]
    have htidy := h.tidy
    rw [hsplit] at htidy
    have hjoined : Tidy (pre ++ (off, align bytes) :: post) a.offset := by
      have hsorted := List.pairwise_append.mp htidy.sorted
      refine .join ⟨hsorted.1, ?_, hpre⟩ ⟨hsorted.2.1, ?_, ?_⟩ hpost hpos hin
      · exact fun b hb => htidy.nonempty b (List.mem_append_left _ hb)
      · exact fun b hb => htidy.nonempty b (List.mem_append_right _ hb)
      · exact fun b hb => htidy.below b (List.mem_append_right _ hb)
    obtain ⟨hright, hcountR⟩ := coalesceRight_spec hjoined
    obtain ⟨hleft, hcountL⟩ := coalesceLeft_spec hright
    have hcount : ∀ x, count ((coalesceLeft off (coalesceRight off (align bytes) post).1 pre).1 ++
        (coalesceLeft off (coalesceRight off (align bytes) post).1 pre).2 ::
          (coalesceRight off (align bytes) post).2) x =
        count a.free_blocks x + if covers x (off, align bytes) then 1 else 0 := by
      intro x
      have hr := hcountR x
      rw [hcountL, hsplit, count_append, count_append, hr, count_cons]
      omega
    dsimp only
    generalize coalesceLeft off (coalesceRight off (align bytes) post).1 pre = left at *
    generalize (coalesceRight off (align bytes) post).2 = rest at *
    obtain ⟨hfront, hback, hafter, _, hsome, hbound⟩ := hleft.split
    split
    · next htop =>
        -- the block touches the high-water mark, so nothing is behind it
        have hnil : rest = [] := by
          refine List.eq_nil_iff_forall_not_mem.mpr ?_
          intro c hc
          have := hafter c hc
          have := hback.below c hc
          have := hback.nonempty c hc
          omega
        subst hnil
        refine ⟨⟨?_, by have := h.fits; simp only; omega⟩, rfl, ?_⟩
        · simpa using hfront
        · intro x
          have hx := hcount x
          simp only [count_append, count_cons, count_nil] at hx
          simp only [avail, List.append_nil]
          generalize (if covers x (off, align bytes) = true then 1 else 0) = new at hx ⊢
          simp only [covers_iff] at hx
          split at hx <;> split <;> split <;> omega
    · refine ⟨⟨hleft, h.fits⟩, rfl, ?_⟩
      intro x
      have hx := hcount x
      simp only [avail]
      omega

end RangeAllocator
end StrikeDB
