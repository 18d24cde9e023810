import StrikeDB.RangeAlloc

/-!
# StrikeDB: the gaps of a region

The returned ranges never touch each other or the high-water mark, so that a gap between
ranges in use is a single block.

**Results.**
* `kept_allocate`, `kept_free`: blocks stay apart from each other, at multiples of 64.
* `no_gap`: where no block is large enough and the rest of the region is not, no gap is.
* `free_bogus`: returning what is not all in use changes nothing.
* `used_eq`: what is used is what was handed out.
-/

namespace StrikeDB
namespace RangeAllocator

/-- Blocks in order, with something in use between any two and above the last. -/
structure Apart (blocks : List (Nat × Nat)) (bound : Nat) : Prop where
  gaps : blocks.Pairwise fun b c => b.1 + b.2 < c.1
  below : ∀ b ∈ blocks, b.1 + b.2 < bound

def Multiple (b : Nat × Nat) : Prop := ALIGN ∣ b.1 ∧ ALIGN ∣ b.2

structure Kept (a : RangeAllocator) : Prop where
  wf : a.WF
  apart : Apart a.free_blocks a.offset
  offset_multiple : ALIGN ∣ a.offset
  blocks_multiple : ∀ b ∈ a.free_blocks, Multiple b

theorem kept_new (capacity : Nat) : (new capacity).Kept where
  wf := wf_new capacity
  apart := ⟨List.Pairwise.nil, by simp [new]⟩
  offset_multiple := Nat.dvd_zero _
  blocks_multiple := by simp [new]

theorem align_multiple (bytes : Nat) : ALIGN ∣ align bytes := Nat.dvd_mul_left _ _

/-! ## Allocation -/

theorem bestFit_none {aligned : Nat} {blocks : List (Nat × Nat)} {i : Nat}
    {best : Option (Nat × Nat)} (h : bestFit aligned blocks i best = none) :
    best = none ∧ ∀ b ∈ blocks, b.2 < aligned := by
  induction blocks generalizing i best with
  | nil => exact ⟨h, nofun⟩
  | cons b blocks ih =>
      obtain ⟨off, len⟩ := b
      rw [bestFit] at h
      obtain ⟨hbest, hblocks⟩ := ih h
      split at hbest
      · cases hbest
      · next hc =>
          subst hbest
          have hlt : len < aligned := Nat.lt_of_not_le fun hle => hc ⟨hle, rfl⟩
          exact ⟨rfl, List.forall_mem_cons.mpr ⟨hlt, hblocks⟩⟩

/-- No block that is large enough is smaller than the one that is taken. -/
theorem bestFit_le {aligned : Nat} {blocks : List (Nat × Nat)} {i j len : Nat}
    {best : Option (Nat × Nat)} (h : bestFit aligned blocks i best = some (j, len)) :
    (∀ b ∈ blocks, aligned ≤ b.2 → len ≤ b.2) ∧ ∀ c, best = some c → len ≤ c.2 := by
  induction blocks generalizing i best with
  | nil =>
      refine ⟨nofun, ?_⟩
      intro c hc
      rw [bestFit, hc] at h
      cases h
      exact Nat.le_refl _
  | cons b blocks ih =>
      obtain ⟨off, l⟩ := b
      rw [bestFit] at h
      obtain ⟨hblocks, hbest⟩ := ih h
      split at hbest
      · next hc =>
          have hle := hbest _ rfl
          refine ⟨List.forall_mem_cons.mpr ⟨fun _ => hle, hblocks⟩, ?_⟩
          rintro c rfl
          have hlt : l < c.2 := by simpa using hc.2
          omega
      · next hc =>
          refine ⟨List.forall_mem_cons.mpr ⟨?_, hblocks⟩, hbest⟩
          intro hfit
          cases best with
          | none => exact absurd ⟨hfit, rfl⟩ hc
          | some c =>
              have hle := hbest c rfl
              have hge : ¬ l < c.2 := fun hlt => hc ⟨hfit, by simpa using hlt⟩
              simp only
              omega

/-- What an allocation can do: take the front of the smallest block that is large enough, or,
where none is, extend the part of the region that was used. -/
theorem allocate_cases {a a' : RangeAllocator} {bytes off : Nat}
    (hal : a.allocate bytes = some (off, a')) :
    (∃ pre len post, a.free_blocks = pre ++ (off, len) :: post ∧ align bytes ≤ len ∧
      (∀ b ∈ a.free_blocks, align bytes ≤ b.2 → len ≤ b.2) ∧
      (len = align bytes ∧ a' = { a with free_blocks := pre ++ post } ∨
        align bytes < len ∧
          a' = { a with
            free_blocks := pre ++ (off + align bytes, len - align bytes) :: post })) ∨
    ((∀ b ∈ a.free_blocks, b.2 < align bytes) ∧ off = a.offset ∧
      a.offset + align bytes ≤ a.capacity ∧ a' = { a with offset := a.offset + align bytes }) := by
  unfold allocate at hal
  cases hbest : bestFit (align bytes) a.free_blocks 0 none with
  | none =>
      simp only [hbest] at hal
      split at hal
      · cases hal
      · next hfits =>
          obtain ⟨rfl, rfl⟩ := Prod.mk.inj (Option.some.inj hal)
          exact Or.inr ⟨(bestFit_none hbest).2, rfl, Nat.le_of_not_lt hfits, rfl⟩
  | some best =>
      obtain ⟨i, len⟩ := best
      simp only [hbest] at hal
      rcases bestFit_spec hbest with hnone | ⟨k, off', rfl, hk, hle⟩
      · cases hnone
      · rw [Nat.zero_add, hk] at hal
        simp only at hal
        obtain ⟨pre, post, hblocks, herase, hset⟩ := split_at hk
        have hmin := (bestFit_le hbest).1
        split at hal
        · next heq =>
            obtain ⟨rfl, rfl⟩ := Prod.mk.inj (Option.some.inj hal)
            refine Or.inl ⟨pre, len, post, hblocks, hle, hmin, Or.inl ⟨heq, ?_⟩⟩
            rw [herase]
        · next hne =>
            obtain ⟨rfl, rfl⟩ := Prod.mk.inj (Option.some.inj hal)
            refine Or.inl ⟨pre, len, post, hblocks, hle, hmin, Or.inr ⟨by omega, ?_⟩⟩
            rw [hset]

/-- A refused allocation fits in no block and not in the rest of the region. -/
theorem allocate_none {a : RangeAllocator} {bytes : Nat} (hal : a.allocate bytes = none) :
    (∀ b ∈ a.free_blocks, b.2 < align bytes) ∧ a.capacity < a.offset + align bytes := by
  unfold allocate at hal
  cases hbest : bestFit (align bytes) a.free_blocks 0 none with
  | none =>
      simp only [hbest] at hal
      split at hal
      · next hfull => exact ⟨(bestFit_none hbest).2, hfull⟩
      · cases hal
  | some best =>
      obtain ⟨i, len⟩ := best
      simp only [hbest] at hal
      rcases bestFit_spec hbest with hnone | ⟨k, off', rfl, hk, _⟩
      · cases hnone
      · rw [Nat.zero_add, hk] at hal
        simp only at hal
        split at hal <;> cases hal

theorem Apart.erase {pre post : List (Nat × Nat)} {b : Nat × Nat} {bound : Nat}
    (h : Apart (pre ++ b :: post) bound) : Apart (pre ++ post) bound where
  gaps := h.gaps.sublist (List.Sublist.append_left (List.sublist_cons_self b post) pre)
  below := by
    intro c hc
    refine h.below c ?_
    rcases List.mem_append.mp hc with hc | hc
    · exact List.mem_append_left _ hc
    · exact List.mem_append_right _ (List.mem_cons_of_mem _ hc)

/-- A part of a block in its place. -/
theorem Apart.shrink {pre post : List (Nat × Nat)} {b c : Nat × Nat} {bound : Nat}
    (h : Apart (pre ++ b :: post) bound) (hle : b.1 ≤ c.1) (hend : c.1 + c.2 ≤ b.1 + b.2) :
    Apart (pre ++ c :: post) bound := by
  have hgaps := h.gaps
  rw [List.pairwise_append, List.pairwise_cons] at hgaps
  obtain ⟨hpre, ⟨hhead, hpost⟩, hcross⟩ := hgaps
  constructor
  · rw [List.pairwise_append, List.pairwise_cons]
    refine ⟨hpre, ⟨fun d hd => ?_, hpost⟩, ?_⟩
    · exact Nat.lt_of_le_of_lt hend (hhead d hd)
    · intro d hd e he
      rcases List.mem_cons.mp he with rfl | he
      · exact Nat.lt_of_lt_of_le (hcross d hd b List.mem_cons_self) hle
      · exact hcross d hd e (List.mem_cons_of_mem _ he)
  · intro d hd
    rcases List.mem_append.mp hd with hd | hd
    · exact h.below d (List.mem_append_left _ hd)
    · rcases List.mem_cons.mp hd with rfl | hd
      · exact Nat.lt_of_le_of_lt hend (h.below b (by simp))
      · exact h.below d (List.mem_append_right _ (List.mem_cons_of_mem _ hd))

theorem kept_allocate {a a' : RangeAllocator} {bytes off : Nat} (h : a.Kept)
    (hal : a.allocate bytes = some (off, a')) :
    a'.Kept ∧ ALIGN ∣ off ∧ off + align bytes ≤ a.capacity := by
  have hwf := (allocate_spec h.wf hal).1
  have hmultiple := align_multiple bytes
  rcases allocate_cases hal with ⟨pre, len, post, hblocks, hle, _, hrest⟩ | ⟨_, rfl, hfits, rfl⟩
  · have hmem : (off, len) ∈ a.free_blocks := by simp [hblocks]
    obtain ⟨hoff, hlen⟩ := h.blocks_multiple _ hmem
    have hend : off + align bytes ≤ a.capacity := by
      have hbelow : off + len ≤ a.offset := h.wf.tidy.below _ hmem
      have hfits := h.wf.fits
      omega
    have hapart := h.apart
    have hblock := h.blocks_multiple
    rw [hblocks] at hapart hblock
    rcases hrest with ⟨_, rfl⟩ | ⟨hlt, rfl⟩
    · refine ⟨⟨hwf, hapart.erase, h.offset_multiple, ?_⟩, hoff, hend⟩
      intro b hb
      refine hblock b ?_
      rcases List.mem_append.mp hb with hb | hb
      · exact List.mem_append_left _ hb
      · exact List.mem_append_right _ (List.mem_cons_of_mem _ hb)
    · refine ⟨⟨hwf, ?_, h.offset_multiple, ?_⟩, hoff, hend⟩
      · exact hapart.shrink (Nat.le_add_right _ _) (by simp only; omega)
      · intro b hb
        rcases List.mem_append.mp hb with hb | hb
        · exact hblock b (List.mem_append_left _ hb)
        · rcases List.mem_cons.mp hb with rfl | hb
          · exact ⟨Nat.dvd_add hoff hmultiple, Nat.dvd_sub hlen hmultiple⟩
          · exact hblock b (List.mem_append_right _ (List.mem_cons_of_mem _ hb))
  · refine ⟨⟨hwf, ⟨h.apart.gaps, ?_⟩, ?_, h.blocks_multiple⟩, h.offset_multiple, hfits⟩
    · intro b hb
      exact Nat.lt_of_lt_of_le (h.apart.below b hb) (Nat.le_add_right _ _)
    · exact Nat.dvd_add h.offset_multiple hmultiple

/-! ## Release -/

/-- The block that is returned, once it took its right neighbour in, does not touch the next. -/
theorem coalesceRight_apart {off len : Nat} {post : List (Nat × Nat)}
    (hpost : post.Pairwise fun b c => b.1 + b.2 < c.1) (hafter : ∀ b ∈ post, off + len ≤ b.1) :
    (coalesceRight off len post).2.Pairwise (fun b c => b.1 + b.2 < c.1) ∧
      (∀ b ∈ (coalesceRight off len post).2, off + (coalesceRight off len post).1 < b.1) ∧
      (∀ b ∈ (coalesceRight off len post).2, b ∈ post) ∧
      ((∀ b ∈ post, Multiple b) → ALIGN ∣ len → ALIGN ∣ (coalesceRight off len post).1) := by
  cases post with
  | nil => exact ⟨List.Pairwise.nil, nofun, nofun, fun _ hlen => hlen⟩
  | cons b post =>
      obtain ⟨no, nl⟩ := b
      obtain ⟨hhead, hrest⟩ := List.pairwise_cons.mp hpost
      rw [coalesceRight]
      split
      · next htouch =>
          refine ⟨hrest, ?_, fun c hc => List.mem_cons_of_mem _ hc, ?_⟩
          · intro c hc
            have hlt : no + nl < c.1 := hhead c hc
            simp only
            omega
          · exact fun hmul hlen => Nat.dvd_add hlen (hmul _ List.mem_cons_self).2
      · next hapart =>
          have hle : off + len ≤ no := hafter _ List.mem_cons_self
          refine ⟨hpost, ?_, fun c hc => hc, fun _ hlen => hlen⟩
          intro c hc
          rcases List.mem_cons.mp hc with rfl | hc
          · simp only
            omega
          · have hlt : no + nl < c.1 := hhead c hc
            simp only
            omega

/-- The same on the left; its end stays where it is. -/
theorem coalesceLeft_apart {off len : Nat} {pre : List (Nat × Nat)}
    (hpre : pre.Pairwise fun b c => b.1 + b.2 < c.1) (hbefore : ∀ b ∈ pre, b.1 + b.2 ≤ off) :
    (coalesceLeft off len pre).1.Pairwise (fun b c => b.1 + b.2 < c.1) ∧
      (∀ b ∈ (coalesceLeft off len pre).1, b.1 + b.2 < (coalesceLeft off len pre).2.1) ∧
      (∀ b ∈ (coalesceLeft off len pre).1, b ∈ pre) ∧
      (coalesceLeft off len pre).2.1 ≤ off ∧
      (coalesceLeft off len pre).2.1 + (coalesceLeft off len pre).2.2 = off + len ∧
      ((∀ b ∈ pre, Multiple b) → Multiple (off, len) → Multiple (coalesceLeft off len pre).2) := by
  unfold coalesceLeft
  cases hlast : pre.getLast? with
  | none =>
      obtain rfl := List.getLast?_eq_none_iff.mp hlast
      exact ⟨List.Pairwise.nil, nofun, nofun, Nat.le_refl _, rfl, fun _ hnew => hnew⟩
  | some b =>
      obtain ⟨po, pl⟩ := b
      obtain ⟨front, rfl⟩ := List.getLast?_eq_some_iff.mp hlast
      obtain ⟨hfront, _, hcross⟩ := List.pairwise_append.mp hpre
      have hlt : ∀ b ∈ front, b.1 + b.2 < po := fun b hb => hcross b hb _ List.mem_cons_self
      simp only
      split
      · next htouch =>
          rw [List.dropLast_concat]
          refine ⟨hfront, hlt, fun b hb => List.mem_append_left _ hb, by simp only; omega,
            by simp only; omega, ?_⟩
          intro hmul hnew
          obtain ⟨hpo, hpl⟩ := hmul (po, pl) (by simp)
          exact ⟨hpo, Nat.dvd_add hpl hnew.2⟩
      · next hapart =>
          have hle : po + pl ≤ off := hbefore (po, pl) (by simp)
          refine ⟨hpre, ?_, fun b hb => hb, Nat.le_refl _, rfl, fun _ hnew => hnew⟩
          intro b hb
          rcases List.mem_append.mp hb with hb | hb
          · have := hlt b hb
            simp only
            omega
          · cases List.mem_singleton.mp hb
            simp only
            omega

theorem kept_free {a : RangeAllocator} {off bytes : Nat} (h : a.Kept) (hoff : ALIGN ∣ off)
    (hbusy : ∀ x, covers x (off, align bytes) = true → a.avail x = 0) :
    (a.free off bytes).Kept := by
  have hwf := (free_spec h.wf hbusy).1
  rcases Nat.eq_zero_or_pos (align bytes) with hzero | hpos
  · rw [free, if_pos (Or.inl hzero)]
    exact h
  · obtain ⟨pre, post, hsplit, hpre, hpost, hin, hfree⟩ := free_eq h.wf hpos hbusy
    have hgaps := h.apart.gaps
    have hmul := h.blocks_multiple
    have hbelow := h.apart.below
    rw [hsplit] at hgaps hmul hbelow
    obtain ⟨hgpre, hgpost, _⟩ := List.pairwise_append.mp hgaps
    obtain ⟨hright, hnext, hrightmem, hrightmul⟩ := coalesceRight_apart hgpost hpost
    have hend : off + (coalesceRight off (align bytes) post).1 ≤ a.offset := by
      cases hp : post with
      | nil => exact hin
      | cons b rest =>
          rw [hp] at hbelow
          have hb := hbelow b (by simp)
          rw [coalesceRight]
          split
          · simp only
            omega
          · exact hin
    obtain ⟨hleft, hprev, hleftmem, hstart, hsame, hleftmul⟩ :=
      @coalesceLeft_apart off (coalesceRight off (align bytes) post).1 _ hgpre hpre
    have hblock := hleftmul (fun b hb => hmul b (List.mem_append_left _ hb))
      ⟨hoff, hrightmul (fun b hb => hmul b (List.mem_append_right _ hb)) (align_multiple _)⟩
    rw [hfree] at hwf ⊢
    dsimp only at hwf ⊢
    generalize coalesceLeft off (coalesceRight off (align bytes) post).1 pre = left at *
    generalize coalesceRight off (align bytes) post = right at *
    split
    · next htop =>
        -- the block touches the high-water mark, so nothing is behind it
        have hnil : right.2 = [] := by
          refine List.eq_nil_iff_forall_not_mem.mpr ?_
          intro c hc
          have := hnext c hc
          have := hbelow c (List.mem_append_right _ (hrightmem c hc))
          omega
        rw [if_pos htop] at hwf
        rw [hnil, List.append_nil] at hwf ⊢
        refine ⟨hwf, ⟨hleft, hprev⟩, hblock.1, ?_⟩
        exact fun b hb => hmul b (List.mem_append_left _ (hleftmem b hb))
    · next htop =>
        rw [if_neg htop] at hwf
        refine ⟨hwf, ⟨?_, ?_⟩, h.offset_multiple, ?_⟩
        · rw [List.pairwise_append, List.pairwise_cons]
          refine ⟨hleft, ⟨fun c hc => ?_, hright⟩, ?_⟩
          · have := hnext c hc
            omega
          · intro b hb c hc
            have hb' := hprev b hb
            rcases List.mem_cons.mp hc with rfl | hc
            · exact hb'
            · have := hnext c hc
              omega
        · intro b hb
          rcases List.mem_append.mp hb with hb | hb
          · exact hbelow b (List.mem_append_left _ (hleftmem b hb))
          · rcases List.mem_cons.mp hb with rfl | hb
            · change left.2.1 + left.2.2 < a.offset
              omega
            · exact hbelow b (List.mem_append_right _ (hrightmem b hb))
        · intro b hb
          rcases List.mem_append.mp hb with hb | hb
          · exact hmul b (List.mem_append_left _ (hleftmem b hb))
          · rcases List.mem_cons.mp hb with rfl | hb
            · exact hblock
            · exact hmul b (List.mem_append_right _ (hrightmem b hb))

/-- A range that is not all in use is recognised from the blocks and the high-water mark. -/
theorem free_bogus {a : RangeAllocator} {off bytes x : Nat} (h : a.WF)
    (hx : covers x (off, align bytes) = true) (hfree : 0 < a.avail x) : a.free off bytes = a := by
  rw [covers_iff] at hx
  simp only at hx
  unfold free
  by_cases hout : align bytes = 0 ∨ off + align bytes > a.offset
  · exact if_pos hout
  · rw [if_neg hout]
    -- the address is in a block
    have hcount : 0 < count a.free_blocks x := by
      rw [avail, if_neg (by omega)] at hfree
      exact hfree
    obtain ⟨b, hb, hcov⟩ := List.countP_pos_iff.mp hcount
    rw [covers_iff] at hcov
    have hsplit : a.free_blocks = a.free_blocks.takeWhile (fun b => b.1 < off) ++
        a.free_blocks.dropWhile fun b => b.1 < off := List.takeWhile_append_dropWhile.symm
    have hsorted := h.tidy.sorted
    rw [hsplit, List.pairwise_append] at hsorted
    rw [hsplit, List.mem_append] at hb
    have hbefore : ∀ b ∈ a.free_blocks.takeWhile (fun b => b.1 < off), b.1 < off :=
      fun b hb => by simpa using List.all_eq_true.mp List.all_takeWhile b hb
    have hnonempty := h.tidy.nonempty
    rw [hsplit] at hnonempty
    generalize a.free_blocks.takeWhile (fun b => b.1 < off) = pre at *
    generalize a.free_blocks.dropWhile (fun b => b.1 < off) = post at *
    dsimp only
    rcases hb with hb | hb
    · -- the last block before the range reaches as far
      obtain ⟨front, last, rfl⟩ := (List.eq_nil_or_concat pre).resolve_left (List.ne_nil_of_mem hb)
      rw [List.concat_eq_append] at *
      have hreach : off < last.1 + last.2 := by
        rcases List.mem_append.mp hb with hb | hb
        · have hle := (List.pairwise_append.mp hsorted.1).2.2 b hb last List.mem_cons_self
          omega
        · cases List.mem_singleton.mp hb
          omega
      have hlast : (front ++ [last]).getLast?.any (fun b => decide (b.1 + b.2 > off)) = true := by
        rw [List.getLast?_concat]
        simpa using hreach
      rw [hlast]
      split <;> rfl
    · -- the first block behind starts as early
      obtain ⟨first, rest, rfl⟩ := List.exists_cons_of_ne_nil (List.ne_nil_of_mem hb)
      have hreach : first.1 < off + align bytes := by
        rcases List.mem_cons.mp hb with rfl | hb
        · omega
        · have hle := (List.pairwise_cons.mp hsorted.2.1).1 b hb
          omega
      have hhead : (first :: rest).head?.any (fun b => decide (off + align bytes > b.1)) = true := by
        simpa using hreach
      rw [hhead]
      rfl

/-! ## What is left and what is used -/

theorem Apart.either {blocks : List (Nat × Nat)} {bound : Nat} (h : Apart blocks bound)
    {b c : Nat × Nat} (hb : b ∈ blocks) (hc : c ∈ blocks) (hne : b ≠ c) :
    b.1 + b.2 < c.1 ∨ c.1 + c.2 < b.1 := by
  have hsymm : Std.Symm fun b c : Nat × Nat => b.1 + b.2 < c.1 ∨ c.1 + c.2 < b.1 :=
    ⟨fun _ _ => Or.symm⟩
  have heither : blocks.Pairwise fun b c => b.1 + b.2 < c.1 ∨ c.1 + c.2 < b.1 :=
    h.gaps.imp Or.inl
  exact heither.forall hb hc hne

/-- Where no block and no end of the region is long enough, every stretch of that length has
an address in use. -/
theorem no_gap {a : RangeAllocator} {n : Nat} (h : a.Kept) (hblocks : ∀ b ∈ a.free_blocks, b.2 < n)
    (hend : a.capacity < a.offset + n) {x : Nat} (hx : x + n ≤ a.capacity) :
    ∃ y, x ≤ y ∧ y < x + n ∧ a.avail y = 0 := by
  have hfits := h.wf.fits
  have hlt : x < a.offset := by omega
  rcases Nat.eq_zero_or_pos (a.avail x) with hzero | hpos
  · exact ⟨x, Nat.le_refl _, by omega, hzero⟩
  · rw [avail, if_neg (by omega)] at hpos
    obtain ⟨b, hb, hcov⟩ := List.countP_pos_iff.mp hpos
    rw [covers_iff] at hcov
    have hshort := hblocks b hb
    refine ⟨b.1 + b.2, by omega, by omega, ?_⟩
    have hbelow := h.apart.below b hb
    rw [avail, if_neg (by omega), Nat.add_zero]
    by_contra hne
    -- the address after the block is in another block, which touches it
    obtain ⟨c, hc, hcov'⟩ := List.countP_pos_iff.mp (Nat.pos_of_ne_zero hne)
    rw [covers_iff] at hcov'
    have hne' : b ≠ c := by
      rintro rfl
      omega
    have hgap := h.apart.either hb hc hne'
    omega

/-- The lengths of ranges below a bound count the addresses that they hold. -/
theorem sum_count {blocks : List (Nat × Nat)} {bound : Nat}
    (h : ∀ b ∈ blocks, 0 < b.2 → b.1 + b.2 ≤ bound) :
    ∑ x ∈ Finset.range bound, count blocks x = (blocks.map Prod.snd).sum := by
  induction blocks with
  | nil => simp
  | cons b blocks ih =>
      obtain ⟨hb, hblocks⟩ := List.forall_mem_cons.mp h
      have hone : ∑ x ∈ Finset.range bound, (if covers x b then 1 else 0) = b.2 := by
        rw [← Finset.sum_filter, Finset.sum_const, smul_eq_mul, mul_one]
        have hfilter : (Finset.range bound).filter (fun x => covers x b = true) =
            Finset.Ico b.1 (b.1 + b.2) := by
          ext x
          rw [Finset.mem_filter, Finset.mem_range, Finset.mem_Ico, covers_iff]
          omega
        rw [hfilter, Nat.card_Ico]
        omega
      simp only [count_cons]
      rw [Finset.sum_add_distrib, ih hblocks, hone, List.map_cons, List.sum_cons, Nat.add_comm]

/-- What lies below the high-water mark is either in a block or handed out. -/
theorem used_eq {a : RangeAllocator} {live : List (Nat × Nat)} (h : a.WF)
    (hcount : ∀ x, a.avail x + count live x = 1) :
    (a.free_blocks.map Prod.snd).sum + (live.map Prod.snd).sum = a.offset := by
  have hlive : ∀ l ∈ live, 0 < l.2 → l.1 + l.2 ≤ a.offset := by
    intro l hl hpos
    by_contra hout
    have hcov : covers (l.1 + l.2 - 1) l = true := by
      rw [covers_iff]
      omega
    have hcovered := count_pos_of_mem hl hcov
    have honce := hcount (l.1 + l.2 - 1)
    rw [avail, if_pos (by omega)] at honce
    omega
  rw [← sum_count fun b hb _ => h.tidy.below b hb, ← sum_count hlive, ← Finset.sum_add_distrib]
  have hone : ∀ x ∈ Finset.range a.offset, count a.free_blocks x + count live x = 1 := by
    intro x hx
    have hsum := hcount x
    rw [avail, if_neg (Nat.not_le.mpr (Finset.mem_range.mp hx)), Nat.add_zero] at hsum
    exact hsum
  rw [Finset.sum_congr rfl hone, Finset.sum_const, Finset.card_range, smul_eq_mul, mul_one]

end RangeAllocator
end StrikeDB
