import StrikeDB.ByteOrder
import StrikeDB.GreedyFill
import Mathlib.Algebra.Order.Floor.Semiring
import Mathlib.Data.Rat.Floor

/-!
# StrikeDB: the plan of the membrane

Which pages stay in VRAM.  Pages are ranked by a score in which residents have an advantage,
and the budget is filled in the order of the ranks.  Rates, weights and scores are rationals.

**Results.**
* `cmp_isLE_iff`, `rank_perm_eq`: the ranking is a linear order of the names.
* `fill_eq`: the loop over the ranked pages is the greedy fill.
* `plan_wellFormed`: plans are well formed, do not depend on the order of the candidates,
  and a second plan keeps what the first kept.
-/

namespace StrikeDB
namespace Membrane

structure PageObs where
  /-- Decayed access rate. -/
  rate : ℚ
  bytes : Nat
  resident : Bool
  pinned : Bool
deriving DecidableEq

structure TierPolicy where
  alpha : ℚ
  beta : ℚ

/-- How much hotter a challenger must be than a resident. -/
def HYSTERESIS : ℚ := 3 / 2

/-- Fraction of the budget to fill. -/
def VRAM_HIGH_WATER : ℚ := 17 / 20

/-- Value of keeping a page; `f64::INFINITY` is `⊤`. -/
def TierPolicy.score (policy : TierPolicy) (obs : PageObs) : WithTop ℚ :=
  if obs.pinned then ⊤
  else
    let mib : ℚ := obs.bytes / (1024 * 1024)
    let benefit := policy.alpha * obs.rate * if obs.resident then HYSTERESIS else 1
    ((benefit - policy.beta * mib : ℚ) : WithTop ℚ)

/-- A page under its name. -/
abbrev Candidate := Bytes × PageObs

/-- Descending by score, ties by name. -/
def cmp (a b : WithTop ℚ × Candidate) : Ordering :=
  Ordering.then (if b.1 < a.1 then .lt else if a.1 < b.1 then .gt else .eq) (compare a.2.1 b.2.1)

def rank (policy : TierPolicy) (candidates : List Candidate) : List (WithTop ℚ × Candidate) :=
  (candidates.map fun c => (policy.score c.2, c)).mergeSort fun a b => (cmp a b).isLE

/-- The loop over the ranked pages: what to keep and what to evict. -/
def fill (cap : Nat) : List (WithTop ℚ × Candidate) → Nat → List Bytes × List Bytes
  | [], _ => ([], [])
  | (_, name, obs) :: ranked, used =>
      if obs.pinned || (used + obs.bytes) % 2 ^ 64 ≤ cap then
        let r := fill cap ranked ((used + obs.bytes) % 2 ^ 64)
        (name :: r.1, r.2)
      else
        let r := fill cap ranked used
        (r.1, name :: r.2)

/-- The high-water mark of a budget. -/
def capOf (vram_budget : Nat) : Nat := ⌊(vram_budget : ℚ) * VRAM_HIGH_WATER⌋₊

def plan (policy : TierPolicy) (candidates : List Candidate) (vram_budget : Nat) :
    List Bytes × List Bytes :=
  fill (capOf vram_budget) (rank policy candidates) 0

/-- The pages with exactly those of `kept` resident. -/
def resettle (kept : List Bytes) (candidates : List Candidate) : List Candidate :=
  candidates.map fun c => (c.1, { c.2 with resident := decide (c.1 ∈ kept) })

/-- The bytes of the pages with these names. -/
def bytesOf (candidates : List Candidate) (names : List Bytes) : Nat :=
  ((candidates.filter fun c => c.1 ∈ names).map fun c => c.2.bytes).sum

/-! ## The ranking -/

theorem cmp_isLE_iff (a b : WithTop ℚ × Candidate) :
    (cmp a b).isLE = true ↔ b.1 < a.1 ∨ a.1 = b.1 ∧ (compare a.2.1 b.2.1).isLE = true := by
  unfold cmp
  rcases lt_trichotomy a.1 b.1 with hlt | heq | hgt
  · have hnot : ¬ b.1 < a.1 := not_lt_of_gt hlt
    simp [hnot, hlt, ne_of_lt hlt]
  · have hnot : ¬ a.1 < b.1 := by rw [heq]; exact lt_irrefl _
    have hnot' : ¬ b.1 < a.1 := by rw [heq]; exact lt_irrefl _
    rw [if_neg hnot', if_neg hnot]
    simp [heq]
  · simp [hgt]

theorem cmp_trans (a b c : WithTop ℚ × Candidate) (hab : (cmp a b).isLE = true)
    (hbc : (cmp b c).isLE = true) : (cmp a c).isLE = true := by
  rw [cmp_isLE_iff] at *
  rcases hab with hab | ⟨hab, hname⟩
  · rcases hbc with hbc | ⟨hbc, _⟩
    · exact Or.inl (hbc.trans hab)
    · exact Or.inl (hbc ▸ hab)
  · rcases hbc with hbc | ⟨hbc, hname'⟩
    · exact Or.inl (hab ▸ hbc)
    · exact Or.inr ⟨hab.trans hbc, Std.TransCmp.isLE_trans hname hname'⟩

theorem cmp_total (a b : WithTop ℚ × Candidate) :
    ((cmp a b).isLE || (cmp b a).isLE) = true := by
  rw [Bool.or_eq_true, cmp_isLE_iff, cmp_isLE_iff]
  rcases lt_trichotomy a.1 b.1 with hlt | heq | hgt
  · exact Or.inr (Or.inl hlt)
  · have hnames : (compare a.2.1 b.2.1).isLE = true ∨ (compare b.2.1 a.2.1).isLE = true := by
      rw [show compare b.2.1 a.2.1 = (compare a.2.1 b.2.1).swap from Std.OrientedCmp.eq_swap]
      cases compare a.2.1 b.2.1 <;> simp
    rcases hnames with h | h
    · exact Or.inl (Or.inr ⟨heq, h⟩)
    · exact Or.inr (Or.inr ⟨heq.symm, h⟩)
  · exact Or.inl (Or.inl hgt)

theorem rank_pairwise (policy : TierPolicy) (candidates : List Candidate) :
    (rank policy candidates).Pairwise fun a b => (cmp a b).isLE = true :=
  List.pairwise_mergeSort cmp_trans cmp_total _

theorem rank_perm (policy : TierPolicy) (candidates : List Candidate) :
    (rank policy candidates).Perm (candidates.map fun c => (policy.score c.2, c)) :=
  List.mergeSort_perm ..

theorem mem_rank {policy : TierPolicy} {candidates : List Candidate} {a : WithTop ℚ × Candidate} :
    a ∈ rank policy candidates ↔ a.2 ∈ candidates ∧ a.1 = policy.score a.2.2 := by
  rw [(rank_perm policy candidates).mem_iff, List.mem_map]
  constructor
  · rintro ⟨c, hc, rfl⟩
    exact ⟨hc, rfl⟩
  · rintro ⟨hc, hscore⟩
    exact ⟨a.2, hc, by rw [← hscore]⟩

/-- Pages of one name are one page. -/
theorem eq_of_name {candidates : List Candidate} (hnames : (candidates.map Prod.fst).Nodup)
    {c d : Candidate} (hc : c ∈ candidates) (hd : d ∈ candidates) (h : c.1 = d.1) : c = d :=
  List.inj_on_of_nodup_map hnames hc hd h

/-- The ranks do not depend on the order of the candidates. -/
theorem rank_perm_eq {policy : TierPolicy} {candidates candidates' : List Candidate}
    (hnames : (candidates.map Prod.fst).Nodup) (h : candidates.Perm candidates') :
    rank policy candidates' = rank policy candidates := by
  have hperm : (rank policy candidates).Perm (rank policy candidates') :=
    (rank_perm policy candidates).trans ((h.map _).trans (rank_perm policy candidates').symm)
  refine (hperm.eq_of_pairwise ?_ (rank_pairwise policy candidates)
    (rank_pairwise policy candidates')).symm
  intro a b ha hb hab hba
  rw [cmp_isLE_iff] at hab hba
  obtain ⟨ha, hascore⟩ := mem_rank.mp ha
  obtain ⟨hb, hbscore⟩ := mem_rank.mp hb
  have hname : a.2.1 = b.2.1 := by
    rcases hab with hlt | ⟨heq, hle⟩
    · rcases hba with hlt' | ⟨heq', _⟩
      · exact absurd hlt (not_lt_of_gt hlt')
      · rw [heq'] at hlt
        exact absurd hlt (lt_irrefl _)
    · rcases hba with hlt' | ⟨_, hle'⟩
      · rw [heq] at hlt'
        exact absurd hlt' (lt_irrefl _)
      · rw [show compare b.2.1 a.2.1 = (compare a.2.1 b.2.1).swap from Std.OrientedCmp.eq_swap] at hle'
        cases hcmp : compare a.2.1 b.2.1 with
        | eq => exact Std.LawfulEqCmp.eq_of_compare hcmp
        | lt => simp [hcmp] at hle'
        | gt => simp [hcmp] at hle
  have hpage := eq_of_name hnames ha (h.mem_iff.mpr hb) hname
  exact Prod.ext (by rw [hascore, hbscore, hpage]) hpage

/-! ## The fill -/

/-- What the fill looks at. -/
structure Item where
  name : Bytes
  bytes : Nat
  pinned : Bool
deriving DecidableEq

def itemOf (c : Candidate) : Item := { name := c.1, bytes := c.2.bytes, pinned := c.2.pinned }

def items (policy : TierPolicy) (candidates : List Candidate) : List Item :=
  (rank policy candidates).map fun a => itemOf a.2

/-- The items that are kept. -/
def keptItems (policy : TierPolicy) (candidates : List Candidate) (vram_budget : Nat) : List Item :=
  Greedy.keep Item.bytes Item.pinned (capOf vram_budget) (items policy candidates) 0

/-- The loop over the ranked pages is the greedy fill; no sum wraps. -/
theorem fill_eq {cap used : Nat} {ranked : List (WithTop ℚ × Candidate)}
    (h : used + Greedy.total Item.bytes (ranked.map fun a => itemOf a.2) < 2 ^ 64) :
    (fill cap ranked used).1 =
        (Greedy.keep Item.bytes Item.pinned cap (ranked.map fun a => itemOf a.2) used).map Item.name ∧
      ((fill cap ranked used).1 ++ (fill cap ranked used).2).Perm (ranked.map fun a => a.2.1) := by
  induction ranked generalizing used with
  | nil => exact ⟨rfl, List.Perm.refl _⟩
  | cons a ranked ih =>
      obtain ⟨score, name, obs⟩ := a
      rw [List.map_cons, Greedy.total_cons] at h
      change used + (obs.bytes + _) < _ at h
      have hsum : (used + obs.bytes) % 2 ^ 64 = used + obs.bytes := Nat.mod_eq_of_lt (by omega)
      rw [fill, hsum, List.map_cons, List.map_cons, Greedy.keep]
      change (if _ then _ else _ : List Bytes × List Bytes).1 =
        List.map Item.name (if (obs.pinned || decide (used + obs.bytes ≤ cap)) = true then _ else _) ∧ _
      by_cases hfit : (obs.pinned || decide (used + obs.bytes ≤ cap)) = true
      · rw [if_pos hfit, if_pos hfit]
        obtain ⟨hkeep, hperm⟩ := ih (by omega : used + obs.bytes + _ < _)
        refine ⟨?_, hperm.cons name⟩
        rw [List.map_cons]
        exact congrArg _ hkeep
      · rw [if_neg hfit, if_neg hfit]
        obtain ⟨hkeep, hperm⟩ := ih (by omega : used + _ < _)
        refine ⟨hkeep, ?_⟩
        exact List.perm_middle.trans (hperm.cons name)

theorem items_perm (policy : TierPolicy) (candidates : List Candidate) :
    (items policy candidates).Perm (candidates.map itemOf) := by
  have h := (rank_perm policy candidates).map fun a => itemOf a.2
  rw [List.map_map] at h
  exact h

theorem total_items (policy : TierPolicy) (candidates : List Candidate) :
    Greedy.total Item.bytes (items policy candidates) = (candidates.map fun c => c.2.bytes).sum := by
  rw [Greedy.total_perm _ (items_perm policy candidates), Greedy.total, List.map_map]
  rfl

/-- The sizes of all pages together fit the counter. -/
def SizesFit (candidates : List Candidate) : Prop :=
  (candidates.map fun c => c.2.bytes).sum < 2 ^ 64

section Plans

variable {policy : TierPolicy} {candidates : List Candidate}

theorem plan_keep (hfit : SizesFit candidates) (vram_budget : Nat) :
    (plan policy candidates vram_budget).1 =
      (keptItems policy candidates vram_budget).map Item.name := by
  refine (fill_eq ?_).1
  have htotal := total_items policy candidates
  unfold items at htotal
  rw [Nat.zero_add, htotal]
  exact hfit

theorem plan_partition (hfit : SizesFit candidates) (vram_budget : Nat) :
    ((plan policy candidates vram_budget).1 ++ (plan policy candidates vram_budget).2).Perm
      (candidates.map Prod.fst) := by
  have htotal := total_items policy candidates
  unfold items at htotal
  refine (fill_eq (by rw [Nat.zero_add, htotal]; exact hfit)).2.trans ?_
  have h := (rank_perm policy candidates).map fun a => a.2.1
  rw [List.map_map] at h
  exact h

theorem items_nodup (hnames : (candidates.map Prod.fst).Nodup) : (items policy candidates).Nodup := by
  refine (items_perm policy candidates).nodup_iff.mpr (List.Nodup.of_map Item.name ?_)
  rw [List.map_map]
  exact hnames

theorem mem_items {i : Item} : i ∈ items policy candidates ↔ ∃ c ∈ candidates, itemOf c = i := by
  rw [(items_perm policy candidates).mem_iff, List.mem_map]

/-- Pinned pages are ranked before all others. -/
theorem pinned_first :
    (items policy candidates).Pairwise fun a b => b.pinned = true → a.pinned = true := by
  refine List.pairwise_map.mpr ((rank_pairwise policy candidates).imp_of_mem ?_)
  intro a b ha hb hab hpinned
  change b.2.2.pinned = true at hpinned
  have hb' : b.1 = ⊤ := by
    rw [(mem_rank.mp hb).2, TierPolicy.score, if_pos hpinned]
  rw [cmp_isLE_iff, hb'] at hab
  have htop : a.1 = ⊤ := hab.elim (fun h => absurd h not_top_lt) And.left
  by_contra hnot
  change ¬ a.2.2.pinned = true at hnot
  rw [(mem_rank.mp ha).2, TierPolicy.score, if_neg hnot] at htop
  exact WithTop.coe_ne_top htop

/-- An item before another has the better score, or the same and the smaller name. -/
theorem cmp_of_before {i j : Item} (h : [i, j].Sublist (items policy candidates)) :
    ∃ c ∈ candidates, ∃ d ∈ candidates, itemOf c = i ∧ itemOf d = j ∧
      (policy.score d.2 < policy.score c.2 ∨
        policy.score c.2 = policy.score d.2 ∧ (compare c.1 d.1).isLE = true) := by
  obtain ⟨l, hl, hmap⟩ := List.sublist_map_iff.mp h
  obtain ⟨a, l, rfl⟩ : ∃ a l', l = a :: l' := by
    cases l with
    | nil => cases hmap
    | cons a l => exact ⟨a, l, rfl⟩
  obtain ⟨b, l, rfl⟩ : ∃ b l', l = b :: l' := by
    cases l with
    | nil => cases hmap
    | cons b l => exact ⟨b, l, rfl⟩
  obtain rfl : l = [] := by
    cases l with
    | nil => rfl
    | cons c l => simp at hmap
  simp only [List.map_cons, List.map_nil, List.cons.injEq, and_true] at hmap
  obtain ⟨ha, hascore⟩ := mem_rank.mp (hl.subset List.mem_cons_self)
  obtain ⟨hb, hbscore⟩ := mem_rank.mp (hl.subset (List.mem_cons_of_mem _ List.mem_cons_self))
  have hcmp := List.pairwise_iff_forall_sublist.mp (rank_pairwise policy candidates) hl
  rw [cmp_isLE_iff, hascore, hbscore] at hcmp
  exact ⟨a.2, ha, b.2, hb, hmap.1.symm, hmap.2.symm, hcmp⟩

/-! ## A second plan -/

theorem mem_resettle {kept : List Bytes} {c : Candidate} :
    c ∈ resettle kept candidates ↔
      ∃ d ∈ candidates, c = (d.1, { d.2 with resident := decide (d.1 ∈ kept) }) := by
  rw [resettle, List.mem_map]
  exact exists_congr fun d => and_congr_right fun _ => eq_comm

theorem map_itemOf_resettle (kept : List Bytes) :
    (resettle kept candidates).map itemOf = candidates.map itemOf := by
  rw [resettle, List.map_map]
  rfl

/-- Residency never costs anything. -/
theorem score_le_resident (hα : 0 ≤ policy.alpha) {obs : PageObs} (hrate : 0 ≤ obs.rate)
    (resident : Bool) :
    policy.score { obs with resident := false } ≤ policy.score { obs with resident := resident } ∧
      policy.score { obs with resident := resident } ≤ policy.score { obs with resident := true } := by
  unfold TierPolicy.score
  cases hpinned : obs.pinned with
  | true => exact ⟨le_refl _, le_refl _⟩
  | false =>
      have hbenefit : 0 ≤ policy.alpha * obs.rate := mul_nonneg hα hrate
      have hmore : policy.alpha * obs.rate * 1 ≤ policy.alpha * obs.rate * HYSTERESIS := by
        unfold HYSTERESIS
        linarith
      simp only [Bool.false_eq_true, if_false, if_true]
      cases resident with
      | true => exact ⟨WithTop.coe_le_coe.mpr (sub_le_sub_right hmore _), le_refl _⟩
      | false => exact ⟨le_refl _, WithTop.coe_le_coe.mpr (sub_le_sub_right hmore _)⟩

theorem compare_antisymm {a b : Bytes} (hab : (compare a b).isLE = true)
    (hba : (compare b a).isLE = true) : a = b := by
  rw [show compare b a = (compare a b).swap from Std.OrientedCmp.eq_swap] at hba
  cases hcmp : compare a b with
  | eq => exact Std.LawfulEqCmp.eq_of_compare hcmp
  | lt => simp [hcmp] at hba
  | gt => simp [hcmp] at hab

/-- Names and items of what is kept. -/
theorem mem_kept_names (hnames : (candidates.map Prod.fst).Nodup) {c : Candidate}
    (hc : c ∈ candidates) (vram_budget : Nat) :
    c.1 ∈ (keptItems policy candidates vram_budget).map Item.name ↔
      itemOf c ∈ keptItems policy candidates vram_budget := by
  rw [List.mem_map]
  constructor
  · rintro ⟨i, hi, hname⟩
    obtain ⟨d, hd, rfl⟩ := mem_items.mp ((Greedy.keep_sublist ..).subset hi)
    obtain rfl := eq_of_name hnames hc hd hname.symm
    exact hi
  · exact fun h => ⟨itemOf c, h, rfl⟩

/-- What the second plan puts first, the first plan did, if the one was kept and the other
was not. -/
theorem not_before_again (hα : 0 ≤ policy.alpha) (hrates : ∀ c ∈ candidates, 0 ≤ c.2.rate)
    (hnames : (candidates.map Prod.fst).Nodup) {vram_budget : Nat} {kept : List Bytes}
    (hkept : kept = (keptItems policy candidates vram_budget).map Item.name) {i j : Item}
    (hj : j ∈ keptItems policy candidates vram_budget)
    (hi : i ∉ keptItems policy candidates vram_budget)
    (h : [j, i].Sublist (items policy candidates)) :
    ¬ [i, j].Sublist (items policy (resettle kept candidates)) := by
  intro hagain
  obtain ⟨d, hd, c, hc, rfl, rfl, hfirst⟩ := cmp_of_before h
  obtain ⟨c', hc', d', hd', hci, hdj, hsecond⟩ := cmp_of_before hagain
  obtain ⟨c₀, hc₀, rfl⟩ := mem_resettle.mp hc'
  obtain ⟨d₀, hd₀, rfl⟩ := mem_resettle.mp hd'
  obtain rfl := eq_of_name hnames hc₀ hc (congrArg Item.name hci)
  obtain rfl := eq_of_name hnames hd₀ hd (congrArg Item.name hdj)
  have hcgone : c₀.1 ∉ kept := by
    rw [hkept, mem_kept_names hnames hc]
    exact hi
  have hdkept : d₀.1 ∈ kept := by
    rw [hkept, mem_kept_names hnames hd]
    exact hj
  simp only [decide_eq_false hcgone, decide_eq_true hdkept] at hsecond
  have hlow := (score_le_resident hα (hrates c₀ hc) c₀.2.resident).1
  have hhigh := (score_le_resident hα (hrates d₀ hd) d₀.2.resident).2
  have hname : c₀.1 = d₀.1 := by
    rcases hfirst with hlt | ⟨heq, hle⟩
    · rcases hsecond with hlt' | ⟨heq', _⟩
      · exact absurd ((hlow.trans_lt hlt).trans_le hhigh) (not_lt_of_gt hlt')
      · exact absurd ((hlow.trans_lt hlt).trans_le hhigh) (by rw [heq']; exact lt_irrefl _)
    · rcases hsecond with hlt' | ⟨_, hle'⟩
      · exact absurd (hlow.trans (heq ▸ hhigh)) (not_le_of_gt hlt')
      · exact compare_antisymm hle' hle
  rw [hkept, ← hname] at hdkept
  exact hcgone (hkept ▸ hdkept)

/-- Planned again with exactly the kept pages resident, the same pages are kept. -/
theorem kept_again (hα : 0 ≤ policy.alpha) (hrates : ∀ c ∈ candidates, 0 ≤ c.2.rate)
    (hnames : (candidates.map Prod.fst).Nodup) (vram_budget : Nat) {kept : List Bytes}
    (hkept : kept = (keptItems policy candidates vram_budget).map Item.name) (i : Item) :
    i ∈ keptItems policy (resettle kept candidates) vram_budget ↔
      i ∈ keptItems policy candidates vram_budget := by
  have hperm : (items policy candidates).Perm (items policy (resettle kept candidates)) := by
    refine (items_perm policy candidates).trans ?_
    rw [← map_itemOf_resettle kept]
    exact (items_perm policy (resettle kept candidates)).symm
  have hstable := Greedy.keep_stable Item.bytes Item.pinned (capOf vram_budget)
    (@items_nodup policy _ hnames) hperm pinned_first
    fun x y hy hx hxy => not_before_again hα hrates hnames hkept hy hx hxy
  unfold keptItems at hstable ⊢
  rw [hstable, List.mem_filter, decide_eq_true_eq, and_iff_right_iff_imp]
  intro hi
  exact hperm.mem_iff.mp ((Greedy.keep_sublist ..).subset hi)

/-- What makes a plan well formed and stable. -/
structure WellFormed (policy : TierPolicy) (candidates : List Candidate) (vram_budget : Nat) :
    Prop where
  partition : ((plan policy candidates vram_budget).1 ++ (plan policy candidates vram_budget).2).Perm
    (candidates.map Prod.fst)
  pinned : ∀ c ∈ candidates, c.2.pinned = true → c.1 ∈ (plan policy candidates vram_budget).1
  /-- An unpinned page fits together with everything kept before it. -/
  fits : ∀ c ∈ candidates, ¬ c.2.pinned = true → ∀ before after,
    (plan policy candidates vram_budget).1 = before ++ c.1 :: after →
      bytesOf candidates before + c.2.bytes ≤ capOf vram_budget
  unordered : ∀ candidates', candidates.Perm candidates' →
    plan policy candidates' vram_budget = plan policy candidates vram_budget
  stable : ∀ name,
    name ∈ (plan policy (resettle (plan policy candidates vram_budget).1 candidates) vram_budget).1 ↔
      name ∈ (plan policy candidates vram_budget).1

/-- The bytes of pages by their names are those of their items. -/
theorem bytesOf_names (hnames : (candidates.map Prod.fst).Nodup) {l : List Item} (hl : l.Nodup)
    (hsub : ∀ i ∈ l, ∃ c ∈ candidates, itemOf c = i) :
    bytesOf candidates (l.map Item.name) = Greedy.total Item.bytes l := by
  have hperm : ((candidates.filter fun c => c.1 ∈ l.map Item.name).map itemOf).Perm l := by
    have hcands : (candidates.map itemOf).Nodup := by
      refine List.Nodup.of_map Item.name ?_
      rw [List.map_map]
      exact hnames
    refine (List.perm_ext_iff_of_nodup (hcands.sublist (List.filter_sublist.map itemOf)) hl).mpr ?_
    intro i
    rw [List.mem_map]
    constructor
    · rintro ⟨c, hc, rfl⟩
      obtain ⟨hc, hname⟩ := List.mem_filter.mp hc
      obtain ⟨j, hj, hjname⟩ := List.mem_map.mp (of_decide_eq_true hname)
      obtain ⟨d, hd, rfl⟩ := hsub j hj
      obtain rfl := eq_of_name hnames hc hd hjname.symm
      exact hj
    · intro hi
      obtain ⟨c, hc, rfl⟩ := hsub i hi
      exact ⟨c, List.mem_filter.mpr ⟨hc, decide_eq_true (List.mem_map_of_mem hi)⟩, rfl⟩
  rw [← Greedy.total_perm _ hperm, bytesOf, Greedy.total, List.map_map]
  rfl

theorem plan_fits (hnames : (candidates.map Prod.fst).Nodup) {c : Candidate} (hc : c ∈ candidates)
    (hpinned : ¬ c.2.pinned = true) {vram_budget : Nat} {before after : List Bytes}
    (h : (keptItems policy candidates vram_budget).map Item.name = before ++ c.1 :: after) :
    bytesOf candidates before + c.2.bytes ≤ capOf vram_budget := by
  obtain ⟨l, rest, hkept, hbefore, hrest⟩ := List.map_eq_append_iff.mp h
  obtain ⟨i, tail, hrest', hi, _⟩ := List.map_eq_cons_iff.mp hrest
  rw [hrest'] at hkept
  have hnodup := @items_nodup policy _ hnames
  have hsub : ∀ j ∈ keptItems policy candidates vram_budget, ∃ d ∈ candidates, itemOf d = j :=
    fun j hj => mem_items.mp ((Greedy.keep_sublist ..).subset hj)
  obtain ⟨d, hd, rfl⟩ := hsub i (by simp [hkept])
  obtain rfl := eq_of_name hnames hc hd hi.symm
  have hmem : itemOf c ∈ items policy candidates := mem_items.mpr ⟨c, hc, rfl⟩
  obtain ⟨pre, post, hsplit⟩ := List.append_of_mem hmem
  have hkeptnodup : (keptItems policy candidates vram_budget).Nodup :=
    hnodup.sublist (Greedy.keep_sublist ..)
  have htaken := (Greedy.mem_keep_split Item.bytes Item.pinned (capOf vram_budget)
    (hsplit ▸ hnodup) 0).mp (by
      rw [← hsplit]
      change itemOf c ∈ keptItems policy candidates vram_budget
      simp [hkept])
  have hfit := htaken.resolve_left hpinned
  have hl : Greedy.keep Item.bytes Item.pinned (capOf vram_budget) pre 0 = l := by
    have hsplitkept : keptItems policy candidates vram_budget =
        Greedy.keep Item.bytes Item.pinned (capOf vram_budget) pre 0 ++
          Greedy.keep Item.bytes Item.pinned (capOf vram_budget) (itemOf c :: post)
            (0 + Greedy.total Item.bytes
              (Greedy.keep Item.bytes Item.pinned (capOf vram_budget) pre 0)) := by
      rw [← Greedy.keep_append, ← hsplit]
      rfl
    have hcons : ∃ tail', Greedy.keep Item.bytes Item.pinned (capOf vram_budget) (itemOf c :: post)
        (0 + Greedy.total Item.bytes
          (Greedy.keep Item.bytes Item.pinned (capOf vram_budget) pre 0)) = itemOf c :: tail' := by
      rw [Greedy.keep, if_pos (by simpa using Or.inr hfit)]
      exact ⟨_, rfl⟩
    obtain ⟨tail', htail⟩ := hcons
    rw [htail, hkept] at hsplitkept
    rw [hkept] at hkeptnodup
    obtain ⟨_, hconsnodup, hcross⟩ := List.nodup_append.mp hkeptnodup
    have hnotl : itemOf c ∉ l := fun hmem => hcross _ hmem _ List.mem_cons_self rfl
    have hnottail : itemOf c ∉ tail := (List.nodup_cons.mp hconsnodup).1
    exact ((List.append_cons_inj_of_notMem hnotl hnottail).mp hsplitkept).1.symm
  have hlnodup : l.Nodup := by
    rw [hkept] at hkeptnodup
    exact (List.nodup_append.mp hkeptnodup).1
  rw [← hbefore, bytesOf_names hnames hlnodup (fun j hj => hsub j (by simp [hkept, hj])), ← hl]
  change _ + (itemOf c).bytes ≤ _
  omega

end Plans

end Membrane
end StrikeDB
