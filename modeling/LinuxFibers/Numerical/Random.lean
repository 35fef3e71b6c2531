import LinuxFibers.Lib.MultiplyWithCarry
import LinuxFibers.Lib.Run
import Mathlib.Data.Rat.Cast.Order
import Mathlib.Tactic.NormNum

/-!
# The random numbers of `multi_thread/src/numerical.c`

`master_seed` is a 64-bit integer, and its two halves are the states of two
multiply-with-carry generators, `seed1` in the low half and `seed2` in the high
half.  A call that finds `master_seed` at 0 seeds it from `random()`.

`random()` returns a number below `2 ^ 31`, so the seeding sets the low half
only.  `seed2_dead` says that the high half stays 0 for ever, and the second
generator adds nothing to any result.  `random_recurrence` is what the first
generator does: it stays between its two fixed points, so the seeding happens
once.

The results are exact rationals: the 32-bit combination of the halves, plus 1,
times the constant of the source.
-/

namespace LinuxFibers.Numerical

open LinuxFibers.Lib

/-- The 32 low bits of `master_seed`, which a little-endian machine has first. -/
def seed1 (masterSeed : BitVec 64) : BitVec 32 := masterSeed.setWidth 32

/-- The 32 high bits. -/
def seed2 (masterSeed : BitVec 64) : BitVec 32 := (masterSeed >>> 32).setWidth 32

/-- The update of one half, in 32-bit arithmetic. -/
def multiplyWithCarry (multiplier s : BitVec 32) : BitVec 32 :=
  multiplier * (s &&& 0xFFFF#32) + (s >>> 16)

/-- `master_seed` after the test of `Random`, when a call of `random()` returns
`drawn`. -/
def seeded (masterSeed drawn : BitVec 64) : BitVec 64 :=
  if masterSeed = 0 then drawn else masterSeed

/-- `master_seed` after the updates of `Random`. -/
def updated (masterSeed : BitVec 64) : BitVec 64 :=
  multiplyWithCarry 18000 (seed2 masterSeed) ++ multiplyWithCarry 36969 (seed1 masterSeed)

/-- The 32-bit combination of the two halves. -/
def combination (masterSeed : BitVec 64) : BitVec 32 :=
  (seed1 masterSeed <<< 16) + (seed1 masterSeed >>> 16) + seed2 masterSeed

/-- `Random`: its result, and the new `master_seed`. -/
def random (masterSeed drawn : BitVec 64) : ℚ × BitVec 64 :=
  let masterSeed := updated (seeded masterSeed drawn)
  (((combination masterSeed).toNat + 1) * (2328306435454494 / 10 ^ 25), masterSeed)

/-- One call on a thread.  `random()` returns at most `RAND_MAX`. -/
def RandomStep (masterSeed drawn masterSeed' : BitVec 64) : Prop :=
  drawn.toNat < 2 ^ 31 ∧ (random masterSeed drawn).2 = masterSeed'

/-! ## The halves of `master_seed` -/

theorem toNat_seed1 (masterSeed : BitVec 64) :
    (seed1 masterSeed).toNat = masterSeed.toNat % 2 ^ 32 :=
  BitVec.toNat_setWidth 32 masterSeed

theorem toNat_seed2 (masterSeed : BitVec 64) :
    (seed2 masterSeed).toNat = masterSeed.toNat / 2 ^ 32 := by
  have hlt := masterSeed.isLt
  rw [seed2, BitVec.toNat_setWidth, BitVec.toNat_ushiftRight, Nat.shiftRight_eq_div_pow]
  omega

theorem toNat_updated (masterSeed : BitVec 64) :
    (updated masterSeed).toNat =
      (multiplyWithCarry 18000 (seed2 masterSeed)).toNat * 2 ^ 32 +
        (multiplyWithCarry 36969 (seed1 masterSeed)).toNat := by
  have hlt := (multiplyWithCarry 36969 (seed1 masterSeed)).isLt
  rw [updated, BitVec.toNat_append, ← Nat.shiftLeft_add_eq_or_of_lt hlt,
    Nat.shiftLeft_eq]

@[simp] theorem seed1_updated (masterSeed : BitVec 64) :
    seed1 (updated masterSeed) = multiplyWithCarry 36969 (seed1 masterSeed) := by
  have hlt := (multiplyWithCarry 36969 (seed1 masterSeed)).isLt
  refine BitVec.eq_of_toNat_eq ?_
  rw [toNat_seed1, toNat_updated]
  omega

@[simp] theorem seed2_updated (masterSeed : BitVec 64) :
    seed2 (updated masterSeed) = multiplyWithCarry 18000 (seed2 masterSeed) := by
  have hlt := (multiplyWithCarry 36969 (seed1 masterSeed)).isLt
  refine BitVec.eq_of_toNat_eq ?_
  rw [toNat_seed2, toNat_updated]
  omega

/-- No product and no sum of an update wraps. -/
theorem multiplyWithCarry_exact {multiplier : BitVec 32} (hm : multiplier.toNat < 2 ^ 16)
    (s : BitVec 32) :
    multiplier.toNat * (s.toNat % 2 ^ 16) < 2 ^ 32 ∧
      MultiplyWithCarry.step multiplier.toNat (2 ^ 16) s.toNat < 2 ^ 32 ∧
      (multiplyWithCarry multiplier s).toNat =
        MultiplyWithCarry.step multiplier.toNat (2 ^ 16) s.toNat := by
  have hlt := s.isLt
  have hmask : (s &&& 0xFFFF#32).toNat = s.toNat % 2 ^ 16 := by
    rw [BitVec.toNat_and]
    exact Nat.and_two_pow_sub_one_eq_mod s.toNat 16
  have hproduct : multiplier.toNat * (s.toNat % 2 ^ 16) ≤ (2 ^ 16 - 1) * (2 ^ 16 - 1) :=
    Nat.mul_le_mul (by omega) (by omega)
  have hsum : MultiplyWithCarry.step multiplier.toNat (2 ^ 16) s.toNat < 2 ^ 32 := by
    rw [MultiplyWithCarry.step]
    omega
  refine ⟨by omega, hsum, ?_⟩
  rw [multiplyWithCarry, BitVec.toNat_add, BitVec.toNat_mul, hmask, BitVec.toNat_ushiftRight,
    Nat.shiftRight_eq_div_pow, Nat.mod_eq_of_lt (a := multiplier.toNat * _) (by omega)]
  exact Nat.mod_eq_of_lt hsum

/-- The high half at 0 is not left. -/
theorem multiplyWithCarry_zero (multiplier : BitVec 32) : multiplyWithCarry multiplier 0 = 0 := by
  simp [multiplyWithCarry]

/-! ## Runs -/

/-- The states of the low half between its two fixed points. -/
def lowStates : Set (BitVec 32) := {s | 1 ≤ s.toNat ∧ s.toNat ≤ 36969 * 2 ^ 16 - 2}

theorem mem_lowStates {s : BitVec 32} :
    s ∈ lowStates ↔ s.toNat ∈ MultiplyWithCarry.states 36969 (2 ^ 16) := by
  show 1 ≤ s.toNat ∧ s.toNat ≤ 36969 * 2 ^ 16 - 2 ↔ 0 < s.toNat ∧ s.toNat < 36969 * 2 ^ 16 - 1
  omega

theorem toNat_updateLow (s : BitVec 32) :
    (multiplyWithCarry 36969 s).toNat = MultiplyWithCarry.step 36969 (2 ^ 16) s.toNat :=
  (multiplyWithCarry_exact (by decide) s).2.2

theorem updateLow_injOn : Set.InjOn (multiplyWithCarry 36969) lowStates := by
  intro s hs t ht hst
  have hstep := congrArg BitVec.toNat hst
  rw [toNat_updateLow, toNat_updateLow] at hstep
  exact BitVec.eq_of_toNat_eq (MultiplyWithCarry.step_injOn (by decide) (mem_lowStates.mp hs)
    (mem_lowStates.mp ht) hstep)

/-- `master_seed` after `n` calls from the seed `drawn`. -/
structure Running (drawn : BitVec 64) (n : ℕ) (masterSeed : BitVec 64) : Prop where
  low : (seed1 masterSeed).toNat = (MultiplyWithCarry.step 36969 (2 ^ 16))^[n] drawn.toNat
  high : seed2 masterSeed = 0

theorem Running.low_mem {drawn masterSeed : BitVec 64} {n : ℕ} (h : Running drawn n masterSeed)
    (hlt : drawn.toNat < 2 ^ 31) (hne : drawn ≠ 0) : seed1 masterSeed ∈ lowStates := by
  have hpos : drawn.toNat ≠ 0 := fun hzero => hne (BitVec.eq_of_toNat_eq hzero)
  have hstart : drawn.toNat ∈ MultiplyWithCarry.states 36969 (2 ^ 16) := by
    show 0 < drawn.toNat ∧ drawn.toNat < 36969 * 2 ^ 16 - 1
    omega
  rw [mem_lowStates, h.low]
  exact MultiplyWithCarry.iterate_mem (by decide) hstart n

theorem ne_zero_of_low_mem {masterSeed : BitVec 64} (h : seed1 masterSeed ∈ lowStates) :
    masterSeed ≠ 0 := by
  intro hzero
  rw [hzero] at h
  exact absurd h.1 (by decide)

theorem Running.update {drawn masterSeed : BitVec 64} {n : ℕ} (h : Running drawn n masterSeed) :
    Running drawn (n + 1) (updated masterSeed) where
  low := by rw [seed1_updated, toNat_updateLow, h.low, Function.iterate_succ_apply']
  high := by rw [seed2_updated, h.high, multiplyWithCarry_zero]

/-- A seed that `random()` returns sets the low half. -/
theorem running_drawn {drawn : BitVec 64} (hlt : drawn.toNat < 2 ^ 31) :
    Running drawn 0 drawn where
  low := by
    rw [toNat_seed1]
    exact Nat.mod_eq_of_lt (by omega)
  high := by
    refine BitVec.eq_of_toNat_eq ?_
    rw [toNat_seed2]
    exact Nat.div_eq_of_lt (by omega)

/-- The calls of a thread whose first call draws a seed other than 0. -/
theorem running_run {drawn masterSeed : BitVec 64} {later : List (BitVec 64)}
    (h : Run RandomStep 0 (drawn :: later) masterSeed) (hne : drawn ≠ 0) :
    drawn.toNat < 2 ^ 31 ∧ Running drawn (later.length + 1) masterSeed := by
  obtain ⟨first, ⟨hlt, hfirst⟩, hrest⟩ := h.of_cons
  refine ⟨hlt, hrest.invariantTrace
    (I := fun tr masterSeed => Running drawn (tr.length + 1) masterSeed) ?_ ?_⟩
  · intro tr s d t hs hstep
    have hkeep : seeded s d = s := if_neg (ne_zero_of_low_mem (hs.low_mem hlt hne))
    rw [← hstep.2, random, hkeep, List.length_append, List.length_singleton]
    exact hs.update
  · rw [← hfirst]
    exact (running_drawn hlt).update

theorem toNat_combination (masterSeed : BitVec 64) :
    (combination masterSeed).toNat = ((seed1 masterSeed).toNat * 2 ^ 16 +
      (seed1 masterSeed).toNat / 2 ^ 16 + (seed2 masterSeed).toNat) % 2 ^ 32 := by
  rw [combination, BitVec.toNat_add, BitVec.toNat_add, BitVec.toNat_shiftLeft,
    BitVec.toNat_ushiftRight, Nat.shiftLeft_eq, Nat.shiftRight_eq_div_pow]
  omega

/-- The result of a call is computed from the new `master_seed`. -/
theorem random_eq (masterSeed drawn : BitVec 64) :
    (random masterSeed drawn).1 = ((((seed1 (random masterSeed drawn).2).toNat * 2 ^ 16 +
      (seed1 (random masterSeed drawn).2).toNat / 2 ^ 16 +
      (seed2 (random masterSeed drawn).2).toNat) % 2 ^ 32 : ℕ) + 1) *
        (2328306435454494 / 10 ^ 25) := by
  rw [← toNat_combination]
  rfl

/-- The results are strictly between 0 and 1, whatever the seeds are. -/
theorem random_mem (masterSeed drawn : BitVec 64) :
    0 < (random masterSeed drawn).1 ∧ (random masterSeed drawn).1 < 1 := by
  have hk := (combination (updated (seeded masterSeed drawn))).isLt
  have hle : ((combination (updated (seeded masterSeed drawn))).toNat : ℚ) + 1 ≤ 2 ^ 32 := by
    exact_mod_cast hk
  have hpos : (0 : ℚ) < (combination (updated (seeded masterSeed drawn))).toNat + 1 := by positivity
  constructor
  · exact mul_pos hpos (by norm_num)
  · calc (random masterSeed drawn).1 ≤ 2 ^ 32 * (2328306435454494 / 10 ^ 25) :=
        mul_le_mul_of_nonneg_right hle (by norm_num)
      _ < 1 := by norm_num

/-- The recurrence of the low half, for every seed other than 0 and every number
of calls: it stays between its fixed points, no product and no sum of it wraps
and no two states have the same successor.  So no later call draws another seed,
and every result, `k + 1` times the constant with the 32-bit combination `k` of the
new halves, is strictly between 0 and 1. -/
theorem random_recurrence {drawn masterSeed : BitVec 64} {later : List (BitVec 64)}
    (h : Run RandomStep 0 (drawn :: later) masterSeed) (hne : drawn ≠ 0) :
    ((seed1 masterSeed).toNat =
          (MultiplyWithCarry.step 36969 (2 ^ 16))^[later.length + 1] drawn.toNat ∧
        seed1 masterSeed ∈ lowStates) ∧
      (∀ s : BitVec 32, 36969 * (s.toNat % 2 ^ 16) < 2 ^ 32 ∧
        36969 * (s.toNat % 2 ^ 16) + s.toNat / 2 ^ 16 < 2 ^ 32 ∧
        (multiplyWithCarry 36969 s).toNat = 36969 * (s.toNat % 2 ^ 16) + s.toNat / 2 ^ 16) ∧
      Set.InjOn (multiplyWithCarry 36969) lowStates ∧
      (masterSeed ≠ 0 ∧ ∀ again, seeded masterSeed again = masterSeed) ∧
      ∀ s d, (random s d).1 = ((((seed1 (random s d).2).toNat * 2 ^ 16 +
          (seed1 (random s d).2).toNat / 2 ^ 16 + (seed2 (random s d).2).toNat) % 2 ^ 32 : ℕ) + 1) *
            (2328306435454494 / 10 ^ 25) ∧
        0 < (random s d).1 ∧ (random s d).1 < 1 := by
  obtain ⟨hlt, hrun⟩ := running_run h hne
  have hmem := hrun.low_mem hlt hne
  have hseeded := ne_zero_of_low_mem hmem
  exact ⟨⟨hrun.low, hmem⟩,
    multiplyWithCarry_exact (show (36969#32).toNat < 2 ^ 16 by decide), updateLow_injOn,
    ⟨hseeded, fun _ => if_neg hseeded⟩, fun s d => ⟨random_eq s d, random_mem s d⟩⟩

/-- `random_recurrence` after two calls from the seed 1804289383. -/
theorem random_recurrence_twice :
    ∃ masterSeed, seed1 masterSeed = 1994931200#32 ∧ seed1 masterSeed ∈ lowStates ∧
      ∀ again, seeded masterSeed again = masterSeed := by
  have hrun : Run RandomStep 0 [1804289383, 5] (random (random 0 1804289383).2 5).2 :=
    Run.cons ⟨by decide, rfl⟩ (Run.single ⟨by decide, rfl⟩)
  obtain ⟨⟨_, hmem⟩, _, _, ⟨_, hkeep⟩, _⟩ := random_recurrence hrun (by decide)
  exact ⟨_, by decide, hmem, hkeep⟩

/-! ## The high half -/

/-- Both generators have a state other than 0. -/
def BothLive (masterSeed : BitVec 64) : Prop := seed1 masterSeed ≠ 0 ∧ seed2 masterSeed ≠ 0

/-- The second generator is dead, for every seed and after every number of
calls. -/
theorem seed2_dead {drawn masterSeed : BitVec 64} {later : List (BitVec 64)}
    (h : Run RandomStep 0 (drawn :: later) masterSeed) (hne : drawn ≠ 0) :
    seed2 masterSeed = 0 ∧ ¬ BothLive masterSeed := by
  obtain ⟨_, hrun⟩ := running_run h hne
  exact ⟨hrun.high, fun hlive => hlive.2 hrun.high⟩

/-- `seed2_dead` after two calls from the seed 7. -/
theorem seed2_dead_twice :
    seed2 (random (random 0 7).2 0).2 = 0 ∧ ¬ BothLive (random (random 0 7).2 0).2 :=
  seed2_dead (Run.cons ⟨by decide, rfl⟩ (Run.single ⟨by decide, rfl⟩) :
    Run RandomStep 0 [7, 0] _) (by decide)

/-- The first call of a thread for which `random()` returns 1. -/
theorem seed2_not_live :
    Run RandomStep 0 [1] (random 0 1).2 ∧ (random 0 1).2 = 36969 ∧ ¬ BothLive (random 0 1).2 :=
  ⟨Run.single ⟨by decide, rfl⟩, by decide, fun hlive => hlive.2 (by decide)⟩

end LinuxFibers.Numerical
