import StrikeDB.Runs

/-!
# StrikeDB: programs that make calls

A program returns a value, or makes a call and goes on with the answer.  Calls are values
here, so the steps of several programs can be taken in any order, and what a program
may call can be said of the program itself.

* `Within.bind`, `Within.forM`: what may be called, for programs put together.
* `run_congr`: a program that makes only calls which two states answer alike returns the
  same in both.
-/

namespace StrikeDB

/-- A program with calls `C`, answered in `R c`. -/
inductive Prog (C : Type) (R : C → Type) (α : Type) where
  | ret (a : α)
  | call (c : C) (next : R c → Prog C R α)

namespace Prog

variable {C : Type} {R : C → Type} {α β : Type}

def bind : Prog C R α → (α → Prog C R β) → Prog C R β
  | ret a, f => f a
  | call c next, f => call c fun r => (next r).bind f

instance : Monad (Prog C R) where
  pure := ret
  bind := bind

/-- One call. -/
def lift (c : C) : Prog C R (R c) := call c ret

@[simp] theorem pure_eq (a : α) : (pure a : Prog C R α) = ret a := rfl

@[simp] theorem bind_ret (a : α) (f : α → Prog C R β) : (ret a).bind f = f a := rfl

@[simp] theorem ret_bind (a : α) (f : α → Prog C R β) : (ret a >>= f) = f a := rfl

@[simp] theorem call_bind (c : C) (next : R c → Prog C R α) (f : α → Prog C R β) :
    (call c next >>= f) = call c fun r => next r >>= f := rfl

@[simp] theorem lift_bind (c : C) (f : R c → Prog C R β) : (lift c >>= f) = call c f := rfl

/-! ## What a program may call -/

section Within

variable (pre : C → Prop) (post : (c : C) → R c → Prop)

/-- Every call satisfies `pre`, as long as every answer satisfies `post`. -/
def Within : Prog C R α → Prop
  | ret _ => True
  | call c next => pre c ∧ ∀ r, post c r → (next r).Within

variable {pre post}

@[simp] theorem within_ret (a : α) : (ret a : Prog C R α).Within pre post := trivial

@[simp] theorem within_call (c : C) (next : R c → Prog C R α) :
    (call c next).Within pre post ↔ pre c ∧ ∀ r, post c r → (next r).Within pre post :=
  Iff.rfl

theorem Within.bind
    {p : Prog C R α} {f : α → Prog C R β} (hp : p.Within pre post)
    (hf : ∀ a, (f a).Within pre post) :
    (p >>= f).Within pre post := by
  induction p with
  | ret a => exact hf a
  | call c next ih => exact ⟨hp.1, fun r hr => ih r (hp.2 r hr)⟩

theorem Within.forM
    {l : List β} {f : β → Prog C R PUnit} (h : ∀ b ∈ l, (f b).Within pre post) :
    (l.forM f).Within pre post := by
  induction l with
  | nil => exact trivial
  | cons b l ih =>
      have hrest := ih fun x hx => h x (List.mem_cons_of_mem _ hx)
      exact (h b (by simp)).bind fun _ => hrest

theorem Within.mono
    {pre' : C → Prop} {p : Prog C R α} (h : p.Within pre post) (hpre : ∀ c, pre c → pre' c) :
    p.Within pre' post := by
  induction p with
  | ret a => trivial
  | call c next ih => exact ⟨hpre c h.1, fun r hr => ih r (h.2 r hr)⟩

end Within

/-! ## Running one program alone -/

section Run

variable {σ : Type} (answer : σ → (c : C) → σ × R c)

/-- The state that a program leaves, and what it returns. -/
def run : Prog C R α → σ → σ × α
  | ret a, s => (s, a)
  | call c next, s => (next (answer s c).2).run (answer s c).1

variable {answer} {pre : C → Prop} {post : (c : C) → R c → Prop}

/-- A program that makes only calls which related states answer alike returns the same
in both. -/
theorem run_congr
    {rel : σ → σ → Prop}
    (hanswer : ∀ s s' c, rel s s' → pre c →
      (answer s c).2 = (answer s' c).2 ∧ rel (answer s c).1 (answer s' c).1)
    (hpost : ∀ s c, post c (answer s c).2)
    {p : Prog C R α} (hp : p.Within pre post) {s s' : σ} (h : rel s s') :
    (p.run answer s).2 = (p.run answer s').2 := by
  induction p generalizing s s' with
  | ret a => rfl
  | call c next ih =>
      obtain ⟨heq, hrel⟩ := hanswer s s' c h hp.1
      rw [run, run, ← heq]
      exact ih _ (hp.2 _ (hpost s c)) hrel

end Run
end Prog
end StrikeDB
