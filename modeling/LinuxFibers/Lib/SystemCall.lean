import Mathlib.Algebra.Group.Int.Defs
import Mathlib.Data.Int.Notation

/-!
# The value of a system call

What the C library makes of the value that a system call returns in the kernel.
The values from -4095 to -1 stand for error numbers and become -1.  A call such
as `ioctl`, which is declared to return `int`, loses the upper half of every
other value.  A caller that widens the `int` again gets the value it was sent
when the value was -1 itself, or fits an `int` and is no error number.
-/

namespace LinuxFibers.Lib

/-- `MAX_ERRNO`. -/
def maxErrno : ℤ := 4095

/-- The value is one of the error numbers. -/
def IsErrno (ret : ℤ) : Prop := -maxErrno ≤ ret ∧ ret ≤ -1

instance (ret : ℤ) : Decidable (IsErrno ret) := inferInstanceAs (Decidable (_ ∧ _))

/-- The `int` that a system call gives its caller. -/
def callInt (ret : ℤ) : BitVec 32 := if IsErrno ret then -1 else BitVec.ofInt 32 ret

theorem callInt_of_errno {ret : ℤ} (h : IsErrno ret) : callInt ret = -1 := if_pos h

theorem toInt_callInt {ret : ℤ} (h : ¬ IsErrno ret) (hlo : -2 ^ 31 ≤ ret) (hhi : ret < 2 ^ 31) :
    (callInt ret).toInt = ret := by
  rw [callInt, if_neg h, BitVec.toInt_ofInt]
  exact Int.bmod_eq_of_le (by omega) (by omega)

/-- A value that is no error number and fits an `int` arrives. -/
theorem signExtend_callInt {ret : ℤ} (h : ¬ IsErrno ret) (hlo : -2 ^ 31 ≤ ret)
    (hhi : ret < 2 ^ 31) : (callInt ret).signExtend 64 = BitVec.ofInt 64 ret := by
  apply BitVec.eq_of_toInt_eq
  rw [BitVec.toInt_signExtend_of_le (by omega), toInt_callInt h hlo hhi, BitVec.toInt_ofInt]
  exact (Int.bmod_eq_of_le (by omega) (by omega)).symm

theorem callInt_ne_neg_one {ret : ℤ} (h0 : 0 ≤ ret) (hhi : ret < 2 ^ 31) : callInt ret ≠ -1 := by
  have hno : ¬ IsErrno ret := by
    intro herr
    have := herr.2
    omega
  intro heq
  have hval := toInt_callInt hno (by omega) hhi
  rw [heq] at hval
  have hneg : (-1 : BitVec 32).toInt = -1 := by decide
  omega

/-- The words that come back whole when they travel as the value of a system
call that is declared `int`. -/
theorem signExtend_callInt_iff (v : BitVec 64) :
    (callInt v.toInt).signExtend 64 = v ↔
      v.toInt = -1 ∨ ¬ IsErrno v.toInt ∧ -2 ^ 31 ≤ v.toInt ∧ v.toInt < 2 ^ 31 := by
  have hone : ((-1 : BitVec 32).signExtend 64).toInt = -1 := by decide
  constructor
  · intro heq
    by_cases herr : IsErrno v.toInt
    · rw [callInt_of_errno herr] at heq
      rw [heq] at hone
      exact Or.inl hone
    · have hval := congrArg BitVec.toInt heq
      rw [BitVec.toInt_signExtend_of_le (by omega)] at hval
      have hlo := BitVec.le_toInt (callInt v.toInt)
      have hhi := BitVec.toInt_lt (x := callInt v.toInt)
      exact Or.inr ⟨herr, by omega, by omega⟩
  · intro h
    rcases h with hneg | ⟨herr, hlo, hhi⟩
    · have herr : IsErrno v.toInt := by
        unfold IsErrno maxErrno
        omega
      rw [callInt_of_errno herr]
      apply BitVec.eq_of_toInt_eq
      rw [hone, hneg]
    · rw [signExtend_callInt herr hlo hhi]
      exact BitVec.ofInt_toInt

end LinuxFibers.Lib
