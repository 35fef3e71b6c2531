import Mathlib.Algebra.Group.Nat.Defs
import Mathlib.Data.Nat.Notation

/-!
# Decimal numerals

Lists of digits and their values, for a numeral that is cut to a number of
characters: a list of `n` digits has a value below `10 ^ n`, so a number with more
digits is not the value of its first `n`.
-/

namespace LinuxFibers.Lib

/-- Every character is a decimal digit. -/
def Digits (l : List Char) : Prop := ∀ c ∈ l, c.isDigit = true

theorem digits_toDigits (n : ℕ) : Digits (Nat.toDigits 10 n) :=
  fun _ hc => Nat.isDigit_of_mem_toDigits (by omega) (by omega) hc

theorem Digits.take {l : List Char} (h : Digits l) (n : ℕ) : Digits (l.take n) :=
  fun c hc => h c (List.mem_of_mem_take hc)

theorem value_digit_lt {c : Char} (h : c.isDigit = true) : c.toNat - '0'.toNat < 10 := by
  obtain ⟨hlow, hhigh⟩ := Char.isDigit_iff_toNat.mp h
  have h0 : '0'.toNat = 48 := rfl
  have h9 : '9'.toNat = 57 := rfl
  omega

/-- The value of a list of digits is bounded by its length. -/
theorem Digits.ofDigitChars_lt {l : List Char} (h : Digits l) :
    Nat.ofDigitChars 10 l 0 < 10 ^ l.length := by
  induction l with
  | nil =>
    rw [Nat.ofDigitChars_nil]
    exact Nat.pow_pos (by omega)
  | cons c l ih =>
    have hc := value_digit_lt (h c List.mem_cons_self)
    have hl := ih fun d hd => h d (List.mem_cons_of_mem c hd)
    have hpow : 10 ^ l.length * (c.toNat - '0'.toNat) ≤ 10 ^ l.length * 9 :=
      Nat.mul_le_mul_left _ (by omega)
    rw [Nat.ofDigitChars_cons, Nat.ofDigitChars_eq_ofDigitChars_zero, List.length_cons,
      Nat.mul_zero, Nat.zero_add, Nat.pow_succ]
    omega

/-- The first characters of a numeral that is too long have another value. -/
theorem ofDigitChars_take_lt {n k : ℕ} (h : 10 ^ k ≤ n) :
    Nat.ofDigitChars 10 ((Nat.toDigits 10 n).take k) 0 < n := by
  have hlt := ((digits_toDigits n).take k).ofDigitChars_lt
  have hlen : ((Nat.toDigits 10 n).take k).length ≤ k := by
    rw [List.length_take]
    omega
  have hpow : 10 ^ ((Nat.toDigits 10 n).take k).length ≤ 10 ^ k :=
    Nat.pow_le_pow_right (by omega) hlen
  omega

end LinuxFibers.Lib
