import Mathlib.Data.Option.Basic

/-!
# StrikeDB: loops that pay for their rounds

General facts about a loop whose body either goes on with a new state or ends with a
result.  A loop that is `Metered` pays something out of its state for every round that
goes on, so it ends.

**Results.**
* `exists_rounds`: a metered loop ends within as many rounds as it can pay for, plus one.
* `Leads.rounds`: what a loop led to on the way is part of its run.
* `rounds_invariant`: what every round keeps holds at the end.
-/

namespace StrikeDB
namespace Metered

universe u v

variable {σ : Type u} {τ : Type v}

/-- At most `n` rounds of a loop: the result, if it ended. -/
def rounds (body : σ → σ ⊕ τ) : Nat → σ → Option τ
  | 0, _ => none
  | n + 1, s =>
      match body s with
      | .inl s' => rounds body n s'
      | .inr t => some t

/-- The loop comes from one state to another. -/
inductive Leads (body : σ → σ ⊕ τ) : σ → σ → Prop
  | refl (s : σ) : Leads body s s
  | tail {s t t' : σ} : Leads body s t → body t = .inl t' → Leads body s t'

/-- Every round that goes on lowers the meter. -/
def Pays (body : σ → σ ⊕ τ) (meter : σ → Nat) : Prop :=
  ∀ s s', body s = .inl s' → meter s' < meter s

variable {body : σ → σ ⊕ τ} {meter : σ → Nat}

theorem rounds_more {n : Nat} {s : σ} {t : τ} (h : rounds body n s = some t) :
    rounds body (n + 1) s = some t := by
  induction n generalizing s with
  | zero => cases h
  | succ n ih =>
      rw [rounds] at h ⊢
      cases hb : body s with
      | inl s' =>
          rw [hb] at h
          exact ih h
      | inr t' =>
          rw [hb] at h
          exact h

theorem rounds_le {n m : Nat} (hle : n ≤ m) {s : σ} {t : τ} (h : rounds body n s = some t) :
    rounds body m s = some t := by
  induction hle with
  | refl => exact h
  | step _ ih => exact rounds_more ih

/-- A loop that pays ends. -/
theorem exists_rounds (hpays : Pays body meter) {n : Nat} {s : σ} (hn : meter s < n) :
    ∃ t, rounds body n s = some t := by
  induction n generalizing s with
  | zero => exact absurd hn (Nat.not_lt_zero _)
  | succ n ih =>
      rw [rounds]
      cases hb : body s with
      | inl s' =>
          have := hpays s s' hb
          exact ih (by omega)
      | inr t => exact ⟨t, rfl⟩

/-- What a loop led to ends as the loop does. -/
theorem Leads.rounds_eq {s s' : σ} (h : Leads body s s') {n : Nat} {t : τ}
    (hn : rounds body n s' = some t) :
    ∃ m, rounds body m s = some t := by
  induction h generalizing n with
  | refl => exact ⟨n, hn⟩
  | tail _ hb ih =>
      refine @ih (n + 1) ?_
      rw [rounds, hb]
      exact hn

/-- A loop that led to its end has this result, within as many rounds as it could pay. -/
theorem Leads.rounds (hpays : Pays body meter) {s s' : σ} (h : Leads body s s') {t : τ}
    (hend : body s' = .inr t) {n : Nat} (hn : meter s < n) :
    rounds body n s = some t := by
  have hone : Metered.rounds body 1 s' = some t := by
    rw [Metered.rounds, hend]
  obtain ⟨m, hm⟩ := h.rounds_eq hone
  obtain ⟨t', ht'⟩ := exists_rounds hpays hn
  have hmax := rounds_le (Nat.le_max_left n m) ht'
  rw [rounds_le (Nat.le_max_right n m) hm] at hmax
  rw [ht', hmax]

/-- What every round keeps, and what the last one turns it into. -/
theorem rounds_invariant
    {P : σ → Prop} {Q : τ → Prop} (hgo : ∀ s s', P s → body s = .inl s' → P s')
    (hend : ∀ s t, P s → body s = .inr t → Q t) {n : Nat} {s : σ} {t : τ} (hs : P s)
    (h : rounds body n s = some t) :
    Q t := by
  induction n generalizing s with
  | zero => cases h
  | succ n ih =>
      rw [rounds] at h
      cases hb : body s with
      | inl s' =>
          rw [hb] at h
          exact ih (hgo s s' hs hb) h
      | inr t' =>
          rw [hb] at h
          cases h
          exact hend s _ hs hb

end Metered
end StrikeDB
