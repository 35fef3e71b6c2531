import Mathlib.Data.Rat.Floor
import Mathlib.Tactic.Ring
import Mathlib.Tactic.Linarith

/-!
# Doubles with exact arithmetic

The numbers of a C program that computes with `double`, with every rounding
left out: a value is a rational, an infinity or not-a-number, and the
operations on rationals are exact.  The special values follow IEEE 754, so a
division by zero does not get stuck, it gives an infinity or not-a-number, and
no comparison with not-a-number holds.  Zeros carry no sign, which is the case
of a positive zero.

A conversion to an integer type truncates toward zero.  The C standard leaves
a value outside the range of the type undefined.  `toInt` gives what
`cvttsd2si` of x86-64 gives there, the least value of the type.
-/

namespace LinuxFibers.Lib

/-- A double whose finite values are exact. -/
inductive ExactDouble where
  | fin (q : ℚ)
  | inf (neg : Bool)
  | nan
  deriving DecidableEq

namespace ExactDouble

def add : ExactDouble → ExactDouble → ExactDouble
  | fin a, fin b => fin (a + b)
  | nan, _ => nan
  | _, nan => nan
  | inf s, inf t => if s = t then inf s else nan
  | inf s, fin _ => inf s
  | fin _, inf t => inf t

def mul : ExactDouble → ExactDouble → ExactDouble
  | fin a, fin b => fin (a * b)
  | nan, _ => nan
  | _, nan => nan
  | inf s, inf t => inf (xor s t)
  | inf s, fin b => if b = 0 then nan else inf (xor s (decide (b < 0)))
  | fin a, inf t => if a = 0 then nan else inf (xor (decide (a < 0)) t)

def div : ExactDouble → ExactDouble → ExactDouble
  | fin a, fin b =>
      if b = 0 then if a = 0 then nan else inf (decide (a < 0)) else fin (a / b)
  | nan, _ => nan
  | _, nan => nan
  | inf _, inf _ => nan
  | inf s, fin b => inf (xor s (decide (b < 0)))
  | fin _, inf _ => fin 0

instance : Add ExactDouble := ⟨add⟩
instance : Mul ExactDouble := ⟨mul⟩
instance : Div ExactDouble := ⟨div⟩

/-- The comparison `<`, false as soon as one side is not-a-number. -/
def lt : ExactDouble → ExactDouble → Bool
  | fin a, fin b => decide (a < b)
  | nan, _ => false
  | _, nan => false
  | inf s, inf t => s && !t
  | inf s, fin _ => s
  | fin _, inf t => !t

/-- Truncation toward zero. -/
def trunc (q : ℚ) : ℤ := if 0 ≤ q then ⌊q⌋ else ⌈q⌉

/-- The conversion to a signed integer type of `bits` bits. -/
def toInt (bits : ℕ) : ExactDouble → ℤ
  | fin q =>
      if -2 ^ (bits - 1) ≤ trunc q ∧ trunc q < 2 ^ (bits - 1) then trunc q
      else -2 ^ (bits - 1)
  | _ => -2 ^ (bits - 1)

/-! ## The operations on finite values -/

@[simp] theorem fin_add_fin (a b : ℚ) : fin a + fin b = fin (a + b) := rfl

@[simp] theorem fin_mul_fin (a b : ℚ) : fin a * fin b = fin (a * b) := rfl

@[simp] theorem fin_div_nan (a : ℚ) : fin a / nan = nan := rfl

theorem fin_div_fin {b : ℚ} (a : ℚ) (hb : b ≠ 0) : fin a / fin b = fin (a / b) := by
  change (if b = 0 then _ else fin (a / b)) = _
  rw [if_neg hb]

/-- A division by zero gives no finite value. -/
theorem fin_div_zero (a : ℚ) : fin a / fin 0 = nan ∨ ∃ s, fin a / fin 0 = inf s := by
  change div (fin a) (fin 0) = nan ∨ ∃ s, div (fin a) (fin 0) = inf s
  by_cases ha : a = 0
  · exact Or.inl (by simp [div, ha])
  · exact Or.inr ⟨decide (a < 0), by simp [div, ha]⟩

/-- A quotient with a finite dividend other than zero is a number. -/
theorem div_ne_nan {a : ℚ} (ha : a ≠ 0) (b : ℚ) : fin a / fin b ≠ nan := by
  by_cases hb : b = 0
  · have hdiv : fin a / fin b = inf (decide (a < 0)) := by
      change (if b = 0 then if a = 0 then nan else _ else _) = _
      rw [if_pos hb, if_neg ha]
    rw [hdiv]
    exact fun h => by cases h
  · rw [fin_div_fin a hb]
    exact fun h => by cases h

@[simp] theorem lt_fin (a b : ℚ) : lt (fin a) (fin b) = decide (a < b) := rfl

/-! ## Truncation -/

theorem trunc_of_nonneg {q : ℚ} (hq : 0 ≤ q) : trunc q = ⌊q⌋ := if_pos hq

/-- The conversion of a non-negative value: its integer part where the type
holds it, and the least value of the type elsewhere. -/
theorem toInt_fin_of_nonneg {q : ℚ} (hq : 0 ≤ q) (bits : ℕ) :
    toInt bits (fin q) = if ⌊q⌋ < 2 ^ (bits - 1) then ⌊q⌋ else -2 ^ (bits - 1) := by
  have h0 : 0 ≤ ⌊q⌋ := Int.floor_nonneg.mpr hq
  have hp : (0 : ℤ) < 2 ^ (bits - 1) := by positivity
  have hiff : (-2 ^ (bits - 1) ≤ ⌊q⌋ ∧ ⌊q⌋ < 2 ^ (bits - 1)) ↔ ⌊q⌋ < 2 ^ (bits - 1) :=
    ⟨And.right, fun h => ⟨by omega, h⟩⟩
  simp only [toInt, trunc_of_nonneg hq, hiff]

/-- A quotient that is not finite converts to the least value of the type. -/
theorem toInt_div_zero (bits : ℕ) (a : ℚ) : toInt bits (fin a / fin 0) = -2 ^ (bits - 1) := by
  rcases fin_div_zero a with h | ⟨s, h⟩ <;> rw [h] <;> rfl

theorem toInt_nan (bits : ℕ) : toInt bits nan = -2 ^ (bits - 1) := rfl

end ExactDouble

end LinuxFibers.Lib
