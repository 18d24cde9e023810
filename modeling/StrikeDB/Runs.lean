import Mathlib.Data.Option.Basic

/-!
# StrikeDB: runs of a partial step function

General facts about a deterministic system `step : σ → α → Option σ`, where
`none` means that the action is disabled.  A run is taken under a condition
`ok` that each of its steps satisfies in the state it starts from: a guarantee
that the theorem about the run assumes, or `fun _ _ => True`.

* `Run.invariant`: what every permitted step preserves, every run preserves.
* `Run.of_exec`: a list of actions that executes is a run.
-/

namespace StrikeDB

universe u v

/-- `t` can be reached from `s` by steps that satisfy `ok`. -/
inductive Run {σ : Type u} {α : Type v} (step : σ → α → Option σ) (ok : σ → α → Prop) :
    σ → σ → Prop
  | refl (s : σ) : Run step ok s s
  | tail {s t t' : σ} {a : α} :
      Run step ok s t →
      ok t a →
      step t a = some t' →
      Run step ok s t'

namespace Run

variable {σ : Type u} {α : Type v} {step : σ → α → Option σ} {ok ok' : σ → α → Prop}

/-- What every permitted step preserves, every run preserves. -/
theorem invariant
    {P : σ → Prop}
    (hstep : ∀ s a s', P s → ok s a → step s a = some s' → P s')
    {s t : σ} (hrun : Run step ok s t) (hs : P s) :
    P t := by
  induction hrun with
  | refl => exact hs
  | tail _ hok hst ih => exact hstep _ _ _ ih hok hst

theorem mono
    (h : ∀ s a, ok s a → ok' s a) {s t : σ} (hrun : Run step ok s t) :
    Run step ok' s t := by
  induction hrun with
  | refl => exact .refl _
  | tail _ hok hst ih => exact .tail ih (h _ _ hok) hst

theorem trans
    {s t t' : σ} (h₁ : Run step ok s t) (h₂ : Run step ok t t') :
    Run step ok s t' := by
  induction h₂ with
  | refl => exact h₁
  | tail _ hok hst ih => exact .tail ih hok hst

end Run

/-- Execute actions as long as they are enabled and pass the test `okb`. -/
def exec {σ : Type u} {α : Type v} (step : σ → α → Option σ) (okb : σ → α → Bool) :
    σ → List α → Option σ
  | s, [] => some s
  | s, a :: acts =>
      if okb s a then
        match step s a with
        | none => none
        | some t => exec step okb t acts
      else none

theorem Run.of_exec
    {σ : Type u} {α : Type v} {step : σ → α → Option σ} {okb : σ → α → Bool}
    {ok : σ → α → Prop} (hok : ∀ s a, okb s a = true → ok s a)
    {acts : List α} {s t : σ} (h : exec step okb s acts = some t) :
    Run step ok s t := by
  have hgen : ∀ (acts : List α) (r : σ), Run step ok s r →
      exec step okb r acts = some t → Run step ok s t := by
    intro acts
    induction acts with
    | nil =>
        intro r hr hexec
        rw [exec, Option.some.injEq] at hexec
        exact hexec ▸ hr
    | cons a acts ih =>
        intro r hr hexec
        rw [exec] at hexec
        split at hexec
        · next hoka =>
            cases hst : step r a with
            | none => simp [hst] at hexec
            | some r' =>
                simp only [hst] at hexec
                exact ih r' (.tail hr (hok _ _ hoka) hst) hexec
        · simp at hexec
  exact hgen acts s (.refl s) h

end StrikeDB
