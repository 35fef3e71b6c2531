import Mathlib.Algebra.Group.Nat.Defs
import Mathlib.Data.Nat.Notation

/-!
# Byte memory

A memory with 64-bit addresses, and loads and stores of any number of bytes in
little-endian order.  Addresses wrap around.

A load after a store reads the value that was stored (`load_store_self`) or does not
see the store (`load_store_of_apart`).
-/

namespace LinuxFibers.Lib

/-- The bytes of the memory. -/
abbrev ByteMemory := BitVec 64 → BitVec 8

/-- The address `b` is one of the `n` addresses from `a` on. -/
def Within (b a : BitVec 64) (n : ℕ) : Prop := (b - a).toNat < n

instance (b a : BitVec 64) (n : ℕ) : Decidable (Within b a n) :=
  inferInstanceAs (Decidable ((b - a).toNat < n))

/-- The `n` addresses from `a` on are none of the `k` addresses from `b` on. -/
def Apart (a : BitVec 64) (n : ℕ) (b : BitVec 64) (k : ℕ) : Prop :=
  ∀ c, Within c a n → ¬ Within c b k

namespace ByteMemory

/-- The `n` bytes from `a` on, the first one in the lowest bits. -/
def load (m : ByteMemory) : (n : ℕ) → BitVec 64 → BitVec (8 * n)
  | 0, _ => 0
  | n + 1, a => (load m n (a + 1#64) ++ m a : BitVec (8 * n + 8))

/-- The memory with `v` in the `n` bytes from `a` on. -/
def store (m : ByteMemory) (n : ℕ) (a : BitVec 64) (v : BitVec (8 * n)) : ByteMemory := fun b =>
  if Within b a n then v.extractLsb' (8 * (b - a).toNat) 8 else m b

end ByteMemory

/-! ## Addresses -/

theorem within_add {a : BitVec 64} {i n : ℕ} (hi : i < n) (hn : n ≤ 2 ^ 64) :
    (a + BitVec.ofNat 64 i - a).toNat = i := by
  have ha := a.isLt
  rw [BitVec.toNat_sub, BitVec.toNat_add, BitVec.toNat_ofNat]
  omega

theorem Apart.symm {a b : BitVec 64} {n k : ℕ} (h : Apart a n b k) : Apart b k a n :=
  fun c hb ha => h c ha hb

theorem within_part {a c : BitVec 64} {n d k : ℕ} (hd : d + k ≤ n) (hn : n ≤ 2 ^ 64)
    (h : Within c (a + BitVec.ofNat 64 d) k) : Within c a n := by
  have ha := a.isLt
  have hc := c.isLt
  rw [Within, BitVec.toNat_sub] at h ⊢
  rw [BitVec.toNat_add, BitVec.toNat_ofNat] at h
  omega

/-- Parts of ranges that are apart. -/
theorem Apart.part {a b : BitVec 64} {n k i j n' k' : ℕ} (h : Apart a n b k)
    (hi : i + n' ≤ n) (hj : j + k' ≤ k) (hn : n ≤ 2 ^ 64) (hk : k ≤ 2 ^ 64) :
    Apart (a + BitVec.ofNat 64 i) n' (b + BitVec.ofNat 64 j) k' :=
  fun c hc hc' => h c (within_part hi hn hc) (within_part hj hk hc')

/-- Ranges that do not wrap around. -/
theorem apart_of_le {a b : BitVec 64} {n k : ℕ} (h : a.toNat + n ≤ b.toNat)
    (hk : b.toNat + k ≤ 2 ^ 64) : Apart a n b k := by
  intro c hc hc'
  have hlt := c.isLt
  rw [Within, BitVec.toNat_sub] at hc hc'
  omega

/-- Parts of one range. -/
theorem apart_add {a : BitVec 64} {i j n k : ℕ} (h : i + n ≤ j ∨ j + k ≤ i)
    (hi : i + n ≤ 2 ^ 64) (hj : j + k ≤ 2 ^ 64) :
    Apart (a + BitVec.ofNat 64 i) n (a + BitVec.ofNat 64 j) k := by
  intro c hc hc'
  have ha := a.isLt
  have hlt := c.isLt
  rw [Within, BitVec.toNat_sub, BitVec.toNat_add, BitVec.toNat_ofNat] at hc hc'
  omega

namespace ByteMemory

variable {m m' : ByteMemory} {n k : ℕ} {a b : BitVec 64}

/-! ## Loads and stores -/

theorem getLsbD_load (m : ByteMemory) (n : ℕ) (a : BitVec 64) {i : ℕ} (hi : i < 8 * n) :
    (m.load n a).getLsbD i = (m (a + BitVec.ofNat 64 (i / 8))).getLsbD (i % 8) := by
  induction n generalizing a i with
  | zero => exact absurd hi (by omega)
  | succ n ih =>
      rw [load]
      show BitVec.getLsbD (_ ++ _) i = _
      rw [BitVec.getLsbD_append]
      by_cases hlt : i < 8
      · rw [if_pos hlt, Nat.div_eq_of_lt hlt, Nat.mod_eq_of_lt hlt, BitVec.add_zero]
      · have hdiv : i / 8 = 1 + (i - 8) / 8 := by omega
        have hmod : i % 8 = (i - 8) % 8 := by omega
        rw [if_neg hlt, ih (a + 1#64) (by omega), hdiv, hmod, BitVec.ofNat_add, BitVec.add_assoc]

/-- A load depends on the bytes that it reads. -/
theorem load_congr (hn : n ≤ 2 ^ 64) (h : ∀ b, Within b a n → m b = m' b) :
    m.load n a = m'.load n a := by
  refine BitVec.eq_of_getLsbD_eq fun i hi => ?_
  rw [getLsbD_load m n a hi, getLsbD_load m' n a hi, h]
  rw [Within, within_add (n := n) (by omega) hn]
  omega

theorem store_of_not_within (h : ¬ Within b a n) (v : BitVec (8 * n)) : m.store n a v b = m b :=
  if_neg h

theorem load_store_self (hn : n ≤ 2 ^ 64) (m : ByteMemory) (a : BitVec 64) (v : BitVec (8 * n)) :
    (m.store n a v).load n a = v := by
  refine BitVec.eq_of_getLsbD_eq fun i hi => ?_
  have hoffset : (a + BitVec.ofNat 64 (i / 8) - a).toNat = i / 8 :=
    within_add (n := n) (by omega) hn
  have hwithin : Within (a + BitVec.ofNat 64 (i / 8)) a n := by
    rw [Within, hoffset]
    omega
  have hmod : i % 8 < 8 := Nat.mod_lt i (by decide)
  rw [getLsbD_load _ n a hi, store, if_pos hwithin, hoffset, BitVec.getLsbD_extractLsb',
    decide_eq_true hmod, Bool.true_and, Nat.div_add_mod]

theorem load_store_of_apart (hn : n ≤ 2 ^ 64) (h : Apart a n b k) (v : BitVec (8 * k)) :
    (m.store k b v).load n a = m.load n a :=
  load_congr hn fun c hc => store_of_not_within (h c hc) v

end ByteMemory

end LinuxFibers.Lib
