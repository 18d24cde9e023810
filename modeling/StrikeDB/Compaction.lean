import Mathlib.Data.List.Basic
import Mathlib.Tactic

/-!
# Compacting stores of stamped records

A store keeps records with a key and a stamp in several places, and moves them
between these places.  What counts is the newest record ever written under each
key; a newest record that deletes its key may be forgotten, once nothing older
under that key is left.

`Covers newest sure stray` says that the records in `sure`, which a crash leaves
in place, and those in `stray`, which it may or may not leave, determine the
newest records.  `Compacts` says that a scan has collected the newest records into a
new place while newer ones were written to a live log.

* `Covers.read`: what is read after a crash has the newest records.
* `Covers.writes`: newer records may be added.
* `Covers.install`, `Covers.drop`: a finished scan replaces what it has covered.
-/

namespace StrikeDB
namespace Compaction

/-- Records with a key and a stamp, some of which delete their key. -/
class Stamped (ρ : Type*) (κ : outParam Type*) where
  key : ρ → κ
  stamp : ρ → Nat
  Gone : ρ → Prop

open Stamped

variable {ρ κ : Type*} [Stamped ρ κ]

/-- The record is the newest of its key, or older than that. -/
def Old (newest : κ → Option ρ) (r : ρ) : Prop :=
  ∃ w, newest (key r) = some w ∧ (r = w ∨ stamp r < stamp w)

/-- Every record under the key of `x` is older than `x`. -/
def Newer (x : ρ) (s : List ρ) : Prop := ∀ r ∈ s, key r = key x → stamp r < stamp x

/-- The newest records after one more was written. -/
noncomputable def written (newest : κ → Option ρ) (x : ρ) : κ → Option ρ :=
  letI := Classical.decEq κ
  Function.update newest (key x) (some x)

theorem written_self (newest : κ → Option ρ) (x : ρ) :
    written newest x (key x) = some x := by
  simp [written]

theorem written_of_ne
    {newest : κ → Option ρ} {x : ρ} {k : κ} (h : key x ≠ k) :
    written newest x k = newest k := by
  simp [written, Ne.symm h]

theorem Old.written
    {newest : κ → Option ρ} {r x : ρ} (h : Old newest r)
    (hx : key r = key x → stamp r < stamp x) :
    Old (written newest x) r := by
  by_cases hk : key r = key x
  · exact ⟨x, by rw [hk, written_self], Or.inr (hx hk)⟩
  · obtain ⟨w, hw, hr⟩ := h
    exact ⟨w, by rw [written_of_ne (Ne.symm hk), hw], hr⟩

theorem old_written_self (newest : κ → Option ρ) (x : ρ) :
    Old (Compaction.written newest x) x :=
  ⟨x, written_self newest x, Or.inl rfl⟩

/-! ## Covered stores -/

structure Covers (newest : κ → Option ρ) (sure stray : List ρ) : Prop where
  keyed : ∀ k w, newest k = some w → key w = k
  old : ∀ r ∈ sure ++ stray, Old newest r
  kept : ∀ k w, newest k = some w →
    w ∈ sure ∨ (Gone w ∧ ∀ r ∈ sure ++ stray, key r ≠ k)

namespace Covers

variable {newest : κ → Option ρ} {sure stray : List ρ}

theorem empty : Covers (fun _ : κ => (none : Option ρ)) [] [] where
  keyed := by simp
  old := by simp
  kept := by simp

/-- Records may be moved, copied and made durable, and copies may be lost. -/
theorem between
    (h : Covers newest sure stray) {sure' stray' : List ρ} (hsub : sure ⊆ sure')
    (hle : sure' ++ stray' ⊆ sure ++ stray) :
    Covers newest sure' stray' where
  keyed := h.keyed
  old := fun r hr => h.old r (hle hr)
  kept := by
    intro k w hw
    rcases h.kept k w hw with hmem | ⟨hgone, hnone⟩
    · exact Or.inl (hsub hmem)
    · exact Or.inr ⟨hgone, fun r hr => hnone r (hle hr)⟩

/-- A record that is newer than all others under its key may be added. -/
theorem write
    (h : Covers newest sure stray) {x : ρ} (hx : Newer x (sure ++ stray)) :
    Covers (written newest x) (x :: sure) stray where
  keyed := by
    intro k w hw
    by_cases hk : key x = k
    · subst hk
      rw [written_self, Option.some.injEq] at hw
      rw [hw]
    · rw [written_of_ne hk] at hw
      exact h.keyed k w hw
  old := by
    intro r hr
    rcases List.mem_cons.mp hr with rfl | hr
    · exact old_written_self newest r
    · exact (h.old r hr).written (hx r hr)
  kept := by
    intro k w hw
    by_cases hk : key x = k
    · subst hk
      rw [written_self, Option.some.injEq] at hw
      exact Or.inl (by simp [hw])
    · rw [written_of_ne hk] at hw
      rcases h.kept k w hw with hmem | ⟨hgone, hnone⟩
      · exact Or.inl (List.mem_cons_of_mem _ hmem)
      · refine Or.inr ⟨hgone, ?_⟩
        intro r hr
        rcases List.mem_cons.mp hr with rfl | hr
        · exact hk
        · exact hnone r hr

/-- So may a list of records in the order of their stamps. -/
theorem writes
    {xs : List ρ} (hxs : xs.Pairwise fun x y => key x = key y → stamp x < stamp y)
    {newest : κ → Option ρ} {sure stray : List ρ} (h : Covers newest sure stray)
    (hnew : ∀ x ∈ xs, Newer x (sure ++ stray)) :
    Covers (xs.foldl written newest) (sure ++ xs) stray := by
  induction xs generalizing newest sure with
  | nil =>
      rw [List.append_nil]
      exact h
  | cons x xs ih =>
      rw [List.pairwise_cons] at hxs
      have hrest : ∀ y ∈ xs, Newer y (x :: sure ++ stray) := by
        intro y hy r hr hk
        rcases List.mem_cons.mp hr with rfl | hr
        · exact hxs.1 y hy hk
        · exact hnew y (List.mem_cons_of_mem _ hy) r hr hk
      have hall := ih hxs.2 (h.write (hnew x (by simp))) hrest
      refine hall.between ?_ ?_
      · intro r hr
        simp only [List.mem_append, List.mem_cons] at hr ⊢
        tauto
      · intro r hr
        simp only [List.mem_append, List.mem_cons] at hr ⊢
        tauto

/-- Whatever is read has the newest record of each key, or no record of a key
that is deleted or was never written. -/
theorem read
    (h : Covers newest sure stray) {found : List ρ} (hsub : sure ⊆ found)
    (hle : found ⊆ sure ++ stray) (k : κ) :
    (∃ w ∈ found, newest k = some w ∧ key w = k ∧
      ∀ r ∈ found, key r = k → r = w ∨ stamp r < stamp w) ∨
    ((∀ r ∈ found, key r ≠ k) ∧ ∀ w, newest k = some w → Gone w) := by
  by_cases hex : ∃ r ∈ found, key r = k
  · obtain ⟨r, hr, rfl⟩ := hex
    obtain ⟨w, hw, _⟩ := h.old r (hle hr)
    refine Or.inl ⟨w, ?_, hw, h.keyed _ w hw, ?_⟩
    · rcases h.kept _ w hw with hmem | ⟨_, hnone⟩
      · exact hsub hmem
      · exact absurd rfl (hnone r (hle hr))
    · intro r' hr' hk
      obtain ⟨w', hw', hle'⟩ := h.old r' (hle hr')
      rw [hk, hw, Option.some.injEq] at hw'
      rw [hw']
      exact hle'
  · refine Or.inr ⟨fun r hr hk => hex ⟨r, hr, hk⟩, ?_⟩
    intro w hw
    rcases h.kept k w hw with hmem | ⟨hgone, _⟩
    · exact absurd ⟨w, hsub hmem, h.keyed k w hw⟩ hex
    · exact hgone

end Covers

/-! ## A scan beside a live log -/

/-- The log holds, of every key it writes, the newest record. -/
def Current (newest : κ → Option ρ) (log : List ρ) : Prop :=
  ∀ r ∈ log, ∃ w ∈ log, newest (key r) = some w

/-- Every key was found with its newest record, or is newer in the log. -/
structure Compacts (newest : κ → Option ρ) (log found : List ρ) : Prop where
  old : ∀ r ∈ found, Old newest r
  kept : ∀ k w, newest k = some w →
    w ∈ log ∨ (¬ Gone w ∧ w ∈ found) ∨ (Gone w ∧ ∀ r ∈ found, key r ≠ k)

/-- The result of a finished scan takes the place of the one before, of which
the deletions were left out too. -/
theorem Covers.install
    {newest : κ → Option ρ} {before found seg log stray : List ρ}
    (h : Covers newest (before ++ seg ++ log) stray)
    (hscan : Compacts newest log found)
    (hlive : ∀ r ∈ before, ¬ Gone r) :
    Covers newest (found ++ seg ++ log) stray where
  keyed := h.keyed
  old := by
    intro r hr
    simp only [List.mem_append] at hr
    rcases hr with ((hr | hr) | hr) | hr
    · exact hscan.old r hr
    · exact h.old r (by simp [hr])
    · exact h.old r (by simp [hr])
    · exact h.old r (by simp [hr])
  kept := by
    intro k w hw
    have hleft : w ∈ log → w ∈ found ++ seg ++ log := fun hmem => by simp [hmem]
    rcases hscan.kept k w hw with hlog | ⟨_, hmem⟩ | ⟨hgone, hnone⟩
    · exact Or.inl (hleft hlog)
    · exact Or.inl (by simp [hmem])
    · rcases h.kept k w hw with hmem | ⟨_, hnone'⟩
      · simp only [List.mem_append] at hmem
        rcases hmem with (hmem | hmem) | hmem
        · exact absurd hgone (hlive w hmem)
        · exact Or.inl (by simp [hmem])
        · exact Or.inl (hleft hmem)
      · refine Or.inr ⟨hgone, ?_⟩
        intro r hr
        simp only [List.mem_append] at hr
        rcases hr with ((hr | hr) | hr) | hr
        · exact hnone r hr
        · exact hnone' r (by simp [hr])
        · exact hnone' r (by simp [hr])
        · exact hnone' r (by simp [hr])

/-- Behind a finished scan the segment that it covers may go. -/
theorem Covers.drop
    {newest : κ → Option ρ} {found seg log stray : List ρ}
    (h : Covers newest (found ++ seg ++ log) stray)
    (hscan : Compacts newest log found) (hlog : Current newest log) :
    Covers newest (found ++ log) [] where
  keyed := h.keyed
  old := by
    intro r hr
    refine h.old r ?_
    simp only [List.append_nil, List.mem_append] at hr ⊢
    tauto
  kept := by
    intro k w hw
    rcases hscan.kept k w hw with hmem | ⟨_, hmem⟩ | ⟨hgone, hnone⟩
    · exact Or.inl (by simp [hmem])
    · exact Or.inl (by simp [hmem])
    · by_cases hex : ∃ r ∈ log, key r = k
      · obtain ⟨r, hr, rfl⟩ := hex
        obtain ⟨w', hw', hnew⟩ := hlog r hr
        rw [hw, Option.some.injEq] at hnew
        exact Or.inl (by simp [hnew, hw'])
      · refine Or.inr ⟨hgone, ?_⟩
        intro r hr hk
        simp only [List.append_nil, List.mem_append] at hr
        rcases hr with hr | hr
        · exact hnone r hr hk
        · exact hex ⟨r, hr, hk⟩

end Compaction
end StrikeDB
