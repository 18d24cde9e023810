import StrikeDB.MeteredLoop
import StrikeDB.Txn

/-!
# StrikeDB: the virtual machine of the reducers

A small stack machine whose every instruction burns fuel.  One round of its loop is
`Vm.round`: it goes on, asks the transaction for a key, buffers a write in it, or ends.
What the transaction answers is left to whoever runs the program: here `Vm.run` runs it
alone on a store `read`, over its own buffered writes; a reducer runtime answers from
the engine while other clients commit.

A stack is a list with its top first.  Program counters are `usize`; the length of a
`Vec` is below `2 ^ 63`.

**Results.**
* `Vm.round_within`: a round burns fuel, never more than there is, and never panics.
* `Vm.run_total`: every program ends on every store, with an output or an error.
-/

namespace StrikeDB
namespace Compute

inductive Instr where
  | pushInt (v : Int64)
  | pop
  /-- Duplicate the top of stack. -/
  | dup
  | add
  | sub
  | mul
  /-- Load the Int value at key onto the stack (0 if absent or no Int). -/
  | loadInt (key : Key)
  /-- Pop an Int and store it at key. -/
  | storeInt (key : Key)
  | jump (t : UInt64)
  /-- Pop; if zero, jump to index. -/
  | jumpIfZero (t : UInt64)
  /-- Pop the top of stack and return it as the reducer output. -/
  | return_
  | trap (m : String)
deriving DecidableEq

structure Program where
  instrs : List Instr
  len_lt : instrs.length < 2 ^ 63

/-- The classic "increment a counter key" reducer program. -/
def counter_reducer (key : Key) (by_ : Int64) : Program where
  instrs := [.loadInt key, .pushInt by_, .add, .dup, .storeInt key, .return_]
  len_lt := show 6 < 2 ^ 63 by decide

inductive VmError where
  | outOfFuel
  | stackUnderflow
  | badJump (pc : Nat)
  | trap (m : String)
deriving DecidableEq

structure Vm where
  stack : List Int64
  fuel : Nat
  fuel_budget : Nat
  /-- `fuel_used` does not underflow. -/
  metered : fuel ≤ fuel_budget
deriving DecidableEq

/-- What one round of the loop comes to. -/
inductive Round where
  | go (vm : Vm) (pc : Nat)
  /-- `txn.get(key)`; the answer is pushed. -/
  | load (vm : Vm) (key : Key) (pc : Nat)
  | store (vm : Vm) (key : Key) (v : Int64) (pc : Nat)
  | halt (vm : Vm) (result : Except VmError (Option Int64))
  /-- `pc += 1` overflows. -/
  | panic

/-- `pc += 1`. -/
def forward (pc : Nat) (go : Nat → Round) : Round :=
  if pc + 1 < 2 ^ 64 then go (pc + 1) else .panic

namespace Vm

def new (fuel_budget : Nat) : Vm :=
  { stack := [], fuel := fuel_budget, fuel_budget := fuel_budget, metered := Nat.le_refl _ }

def fuel_used (vm : Vm) : Nat := vm.fuel_budget - vm.fuel

def burn (vm : Vm) (cost : Nat) : Except VmError Vm :=
  if vm.fuel < cost then .error .outOfFuel
  else
    .ok { vm with
      fuel := vm.fuel - cost, metered := (Nat.sub_le _ _).trans vm.metered }

def push (vm : Vm) (v : Int64) : Vm := { vm with stack := v :: vm.stack }

def pop (vm : Vm) : Except VmError (Int64 × Vm) :=
  match vm.stack with
  | [] => .error .stackUnderflow
  | v :: rest => .ok (v, { vm with stack := rest })

/-- The arithmetic instructions: `b` is popped before `a`. -/
def binary (vm : Vm) (f : Int64 → Int64 → Int64) (pc : Nat) : Round :=
  match vm.pop with
  | .error e => .halt vm (.error e)
  | .ok (b, vm) =>
      match vm.pop with
      | .error e => .halt vm (.error e)
      | .ok (a, vm) => forward pc (.go (vm.push (f a b)))

/-- The `match` on the instruction. -/
def execute (vm : Vm) (instr : Instr) (pc : Nat) : Round :=
  match instr with
  | .pushInt v => forward pc (.go (vm.push v))
  | .pop =>
      match vm.pop with
      | .error e => .halt vm (.error e)
      | .ok (_, vm) => forward pc (.go vm)
  | .dup =>
      match vm.stack.head? with
      | none => .halt vm (.error .stackUnderflow)
      | some v => forward pc (.go (vm.push v))
  | .add => vm.binary (fun a b => a + b) pc
  | .sub => vm.binary (fun a b => a - b) pc
  | .mul => vm.binary (fun a b => a * b) pc
  | .loadInt key =>
      match vm.burn 10 with
      | .error e => .halt vm (.error e)
      | .ok vm => forward pc (.load vm key)
  | .storeInt key =>
      match vm.burn 10 with
      | .error e => .halt vm (.error e)
      | .ok vm =>
          match vm.pop with
          | .error e => .halt vm (.error e)
          | .ok (v, vm) => forward pc (.store vm key v)
  | .jump t => .go vm t.toNat
  | .jumpIfZero t =>
      match vm.pop with
      | .error e => .halt vm (.error e)
      | .ok (v, vm) => if v = 0 then .go vm t.toNat else forward pc (.go vm)
  | .return_ => .halt { vm with stack := vm.stack.tail } (.ok vm.stack.head?)
  | .trap m => .halt vm (.error (.trap m))

/-- One round of the loop of `Vm::run`. -/
def round (prog : Program) (vm : Vm) (pc : Nat) : Round :=
  match vm.burn 1 with
  | .error e => .halt vm (.error e)
  | .ok vm =>
      match prog.instrs[pc]? with
      | none => .halt vm (.error (.badJump pc))
      | some instr => vm.execute instr pc

end Vm

/-! ### A program alone on a store -/

/-- What `Txn::get` answers over a store `read`: own writes come first. -/
def lookup (writes : ValueMap) (read : Key → Option Value) (key : Key) : Option Value :=
  match writes[key]? with
  | some v => live v
  | none => read key

/-- What `LoadInt` makes of the answer. -/
def intOf : Option Value → Int64
  | some (.int i) => i
  | _ => 0

/-- The loop between two rounds. -/
structure Frame where
  vm : Vm
  pc : Nat
  writes : ValueMap

/-- How a run ends. -/
inductive Ending where
  | returned (vm : Vm) (writes : ValueMap) (result : Except VmError (Option Int64))
  | panicked

/-- One round over a store. -/
def Frame.next (prog : Program) (read : Key → Option Value) (f : Frame) : Frame ⊕ Ending :=
  match f.vm.round prog f.pc with
  | .go vm pc => .inl { f with vm := vm, pc := pc }
  | .load vm key pc =>
      .inl { f with vm := vm.push (intOf (lookup f.writes read key)), pc := pc }
  | .store vm key v pc =>
      .inl { vm := vm, pc := pc, writes := f.writes.insert key (.int v) }
  | .halt vm result => .inr (.returned vm f.writes result)
  | .panic => .inr .panicked

/-- `Vm::run` with a transaction alone on a store; `none` would be a run that has not
ended after `fuel + 1` rounds. -/
def Vm.run (vm : Vm) (prog : Program) (read : Key → Option Value) (writes : ValueMap) :
    Option Ending :=
  Metered.rounds (Frame.next prog read) (vm.fuel + 1) { vm := vm, pc := 0, writes := writes }

/-! ### Fuel -/

namespace Vm

/-- `vm` comes from `vm₀` and has burned fuel. -/
def Spent (vm₀ vm : Vm) : Prop := vm.fuel < vm₀.fuel ∧ vm.fuel_budget = vm₀.fuel_budget

end Vm

/-- A round that starts with `vm₀` keeps within its fuel and does not panic. -/
def Round.Within (vm₀ : Vm) : Round → Prop
  | .go vm _ | .load vm _ _ | .store vm _ _ _ => vm₀.Spent vm
  | .halt vm _ => vm.fuel ≤ vm₀.fuel ∧ vm.fuel_budget = vm₀.fuel_budget
  | .panic => False

theorem forward_of_lt {pc : Nat} (h : pc < 2 ^ 63) (go : Nat → Round) :
    forward pc go = go (pc + 1) :=
  if_pos (by omega)

namespace Vm

variable {vm₀ vm vm' : Vm}

theorem Spent.halt (h : vm₀.Spent vm) (result : Except VmError (Option Int64)) :
    (Round.halt vm result).Within vm₀ :=
  ⟨Nat.le_of_lt h.1, h.2⟩

theorem burn_ok {cost : Nat} (h : vm.burn cost = .ok vm') :
    cost ≤ vm.fuel ∧ vm'.fuel = vm.fuel - cost ∧ vm'.fuel_budget = vm.fuel_budget := by
  rw [burn] at h
  split at h
  · cases h
  · next hge =>
      cases h
      exact ⟨Nat.le_of_not_lt hge, rfl, rfl⟩

theorem Spent.burn {cost : Nat} (h : vm₀.Spent vm) (hb : vm.burn cost = .ok vm') :
    vm₀.Spent vm' := by
  obtain ⟨_, hfuel, hbudget⟩ := burn_ok hb
  have := h.1
  exact ⟨by omega, hbudget.trans h.2⟩

theorem Spent.pop {v : Int64} (h : vm₀.Spent vm) (hp : vm.pop = .ok (v, vm')) :
    vm₀.Spent vm' := by
  rw [Vm.pop] at hp
  split at hp
  · cases hp
  · cases hp
    exact h

theorem Spent.binary (h : vm₀.Spent vm) (f : Int64 → Int64 → Int64) {pc : Nat}
    (hpc : pc < 2 ^ 63) :
    (vm.binary f pc).Within vm₀ := by
  rw [Vm.binary]
  split
  · exact h.halt _
  · next b vm₁ hb =>
      have h₁ := h.pop hb
      split
      · exact h₁.halt _
      · next a vm₂ ha =>
          have h₂ := h₁.pop ha
          rw [forward_of_lt hpc]
          exact h₂

/-- An instruction of the program, after the fuel of its round was burned. -/
theorem Spent.execute (h : vm₀.Spent vm) (instr : Instr) {pc : Nat} (hpc : pc < 2 ^ 63) :
    (vm.execute instr pc).Within vm₀ := by
  cases instr with
  | pushInt v =>
      rw [Vm.execute, forward_of_lt hpc]
      exact h
  | pop =>
      rw [Vm.execute]
      split
      · exact h.halt _
      · next hp =>
          rw [forward_of_lt hpc]
          exact h.pop hp
  | dup =>
      rw [Vm.execute]
      split
      · exact h.halt _
      · rw [forward_of_lt hpc]
        exact h
  | add => exact h.binary _ hpc
  | sub => exact h.binary _ hpc
  | mul => exact h.binary _ hpc
  | loadInt key =>
      rw [Vm.execute]
      split
      · exact h.halt _
      · next hb =>
          rw [forward_of_lt hpc]
          exact h.burn hb
  | storeInt key =>
      rw [Vm.execute]
      split
      · exact h.halt _
      · next hb =>
          have h₁ := h.burn hb
          split
          · exact h₁.halt _
          · next hp =>
              rw [forward_of_lt hpc]
              exact h₁.pop hp
  | jump t => exact h
  | jumpIfZero t =>
      rw [Vm.execute]
      split
      · exact h.halt _
      · next hp =>
          have h₁ := h.pop hp
          split
          · exact h₁
          · rw [forward_of_lt hpc]
            exact h₁
  | return_ => exact ⟨Nat.le_of_lt h.1, h.2⟩
  | trap m => exact h.halt _

/-- A round burns fuel, never more than there is, and never panics. -/
theorem round_within (prog : Program) (vm : Vm) (pc : Nat) :
    (vm.round prog pc).Within vm := by
  rw [round]
  split
  · exact ⟨Nat.le_refl _, rfl⟩
  · next vm₁ hb =>
      obtain ⟨hle, hfuel, hbudget⟩ := burn_ok hb
      have hspent : vm.Spent vm₁ := ⟨by omega, hbudget⟩
      split
      · exact hspent.halt _
      · next instr hinstr =>
          -- the counter points into the program
          obtain ⟨hlt, _⟩ := List.getElem?_eq_some_iff.mp hinstr
          exact hspent.execute instr (hlt.trans prog.len_lt)

end Vm

theorem Frame.pays (prog : Program) (read : Key → Option Value) :
    Metered.Pays (Frame.next prog read) fun f => f.vm.fuel := by
  intro f f' h
  have hw := f.vm.round_within prog f.pc
  rw [Frame.next] at h
  cases hr : f.vm.round prog f.pc with
  | go | load | store =>
      rw [hr] at h hw
      cases h
      exact hw.1
  | halt | panic =>
      rw [hr] at h
      cases h

/-- Every program ends on every store, with an output or an error, and its fuel is
what is left of the budget. -/
theorem Vm.run_total (vm : Vm) (prog : Program) (read : Key → Option Value) (writes : ValueMap) :
    ∃ vm' writes' result, vm.run prog read writes = some (.returned vm' writes' result) ∧
      vm'.fuel_used + vm'.fuel = vm.fuel_budget ∧ vm'.fuel ≤ vm.fuel := by
  obtain ⟨t, ht⟩ := Metered.exists_rounds (Frame.pays prog read)
    (show ({ vm := vm, pc := 0, writes := writes } : Frame).vm.fuel < vm.fuel + 1 from
      Nat.lt_succ_self _)
  have hend := Metered.rounds_invariant
    (P := fun f => f.vm.fuel ≤ vm.fuel ∧ f.vm.fuel_budget = vm.fuel_budget)
    (Q := fun t => ∃ vm' writes' result, t = .returned vm' writes' result ∧
      vm'.fuel ≤ vm.fuel ∧ vm'.fuel_budget = vm.fuel_budget)
    ?_ ?_ ⟨Nat.le_refl _, rfl⟩ ht
  · obtain ⟨vm', writes', result, rfl, hle, hbudget⟩ := hend
    refine ⟨vm', writes', result, ht, ?_, hle⟩
    have := vm'.metered
    rw [fuel_used]
    omega
  · rintro f f' ⟨hle, hbudget⟩ h
    have hw := f.vm.round_within prog f.pc
    rw [Frame.next] at h
    cases hr : f.vm.round prog f.pc with
    | go | load | store =>
        rw [hr] at h hw
        cases h
        exact ⟨hw.1.le.trans hle, hw.2.trans hbudget⟩
    | halt | panic =>
        rw [hr] at h
        cases h
  · rintro f t ⟨hle, hbudget⟩ h
    have hw := f.vm.round_within prog f.pc
    rw [Frame.next] at h
    cases hr : f.vm.round prog f.pc with
    | go | load | store =>
        rw [hr] at h
        cases h
    | halt vm' result =>
        rw [hr] at h hw
        cases h
        exact ⟨vm', f.writes, result, rfl, hw.1.trans hle, hw.2.trans hbudget⟩
    | panic =>
        rw [hr] at hw
        exact hw.elim

end Compute
end StrikeDB
