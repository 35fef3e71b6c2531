import Mathlib.Data.Nat.ModEq
import Mathlib.Data.Set.Function
import Mathlib.Logic.Function.Iterate
import Mathlib.Tactic.Ring

/-!
# Multiply with carry

A generator with the multiplier `a` in base `b`.  Its state is a digit below `b`
and a carry, written as one number, and a step multiplies the digit by `a` and
adds the carry.

`mul_step` is the one fact about it: modulo `a * b - 1` a step divides by `b`.
The other results follow from it.  The numbers strictly between 0 and the modulus
are closed under steps, and no two of them have the same successor.
-/

namespace LinuxFibers.Lib.MultiplyWithCarry

/-- One step from the state `s`. -/
def step (a b s : ℕ) : ℕ := a * (s % b) + s / b

/-- The modulus of the generator. -/
def modulus (a b : ℕ) : ℕ := a * b - 1

/-- The states between the two that a step does not change, 0 and the
modulus. -/
def states (a b : ℕ) : Set ℕ := {s | 0 < s ∧ s < modulus a b}

section Step

variable {a b : ℕ}

/-- A step is a division by the base, modulo the modulus. -/
theorem mul_step (h : 0 < a * b) (s : ℕ) :
    b * step a b s = s + modulus a b * (s % b) := by
  have hm : a * b = modulus a b + 1 := (Nat.sub_add_cancel h).symm
  calc b * step a b s = a * b * (s % b) + b * (s / b) := by rw [step]; ring
    _ = modulus a b * (s % b) + (s % b + b * (s / b)) := by rw [hm]; ring
    _ = s + modulus a b * (s % b) := by rw [Nat.mod_add_div, Nat.add_comm]

/-- The states are closed under steps. -/
theorem step_mem (h : 0 < a * b) {s : ℕ} (hs : s ∈ states a b) : step a b s ∈ states a b := by
  obtain ⟨hpos, hlt⟩ := hs
  have hb : 0 < b := Nat.pos_of_mul_pos_left h
  have hdigit : s % b + 1 ≤ b := Nat.mod_lt s hb
  constructor
  · refine Nat.pos_of_ne_zero fun hzero => ?_
    have hmul := mul_step h s
    rw [hzero] at hmul
    omega
  · refine Nat.lt_of_mul_lt_mul_left (a := b) ?_
    calc b * step a b s = s + modulus a b * (s % b) := mul_step h s
      _ < modulus a b + modulus a b * (s % b) := by omega
      _ = modulus a b * (s % b + 1) := by ring
      _ ≤ modulus a b * b := Nat.mul_le_mul_left _ hdigit
      _ = b * modulus a b := Nat.mul_comm _ _

/-- Two states with one successor are congruent modulo the modulus. -/
theorem step_injOn (h : 0 < a * b) : Set.InjOn (step a b) (states a b) := by
  intro s hs t ht hst
  have hmod : ∀ r, b * step a b r ≡ r [MOD modulus a b] := fun r => by
    rw [mul_step h r]
    exact Nat.modEq_iff_dvd.mpr ⟨-(r % b : ℕ), by push_cast; ring⟩
  have hcongr : s ≡ t [MOD modulus a b] := by
    have hs' := hmod s
    rw [hst] at hs'
    exact hs'.symm.trans (hmod t)
  exact Nat.ModEq.eq_of_lt_of_lt hcongr hs.2 ht.2

theorem iterate_mem (h : 0 < a * b) {s : ℕ} (hs : s ∈ states a b) (n : ℕ) :
    (step a b)^[n] s ∈ states a b := by
  induction n with
  | zero => exact hs
  | succ n ih =>
    rw [Function.iterate_succ_apply']
    exact step_mem h ih

end Step

end LinuxFibers.Lib.MultiplyWithCarry
