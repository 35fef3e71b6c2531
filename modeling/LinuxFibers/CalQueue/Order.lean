import LinuxFibers.CalQueue.Client
import Mathlib.Algebra.Order.Floor.Ring
import Mathlib.Tactic.FieldSimp

/-!
# The order of the events

`calqueueDeq` finds the event with the least priority because three fields
agree: `lastbucket` is the bucket that `buckettop` is the top of, for the width
`cwidth`.  `Aligned` is this agreement.  `localinit` sets it up and the scan
keeps it.

The direct search does not keep it: it moves `lastbucket` to the bucket of the
minimum and leaves `buckettop` where the scan ended.  `Jumps` is the case in
which the two buckets differ.  `calqueueGet_skips_minimum` is a run where the
next dequeue then returns an event that is not the minimum, and
`calqueueGet_least` says that a run without a jump is in order.

Beside `Aligned` there is one more way to be in order.  A quotient that does not
fit an `int`, or a width that is zero or not-a-number, sends every event to
bucket 0.  The queue is then one sorted list, and `Collapsed` says so.
-/

namespace LinuxFibers.CalQueue

open LinuxFibers.Lib

variable {α : Type}

/-- A dequeue jumps: no event is below the top of its bucket in the current
year, and a least event is in another bucket than `lastbucket`. -/
def Jumps (q : Calqueue α) : Prop :=
  (∀ k < q.nbuckets.toNat, ¬ Hit q k) ∧
    ∃ i < q.nbuckets.toNat, (i : ℤ) ≠ q.lastbucket ∧ ∃ e ∈ q.bucket i,
      ∀ j < q.nbuckets.toNat, ∀ f ∈ q.bucket j, e.priority ≤ f.priority

instance (q : Calqueue α) (k : ℕ) : Decidable (Hit q k) :=
  inferInstanceAs (Decidable (headBelow (topAt q k) (q.bucket (wrap q k)) = true))

instance (q : Calqueue α) : Decidable (Jumps q) :=
  inferInstanceAs (Decidable (_ ∧ _))

/-- `buckettop` is the top of `lastbucket` in the year of some virtual bucket
`m`, and no event is in front of it. -/
def Aligned (q : Calqueue α) : Prop :=
  ∃ w : ℚ, 0 < w ∧ q.cwidth = .fin w ∧ ∃ m : ℤ, 0 ≤ m ∧
    q.buckettop = .fin ((m + 3 / 2) * w) ∧ q.lastbucket = m % q.nbuckets ∧ m * w ≤ q.lastprio

/-- From the last priority on every event goes to bucket 0. -/
def Collapsed (q : Calqueue α) : Prop := ∀ p, q.lastprio ≤ p → bucketOf q p = 0

/-- Every bucket of the window is in order of priority. -/
def Sorted (q : Calqueue α) : Prop := ∀ i, 0 ≤ i → i < q.nbuckets → Ascending (q.bucket i)

/-- The buckets are in order and hold the events that belong to them. -/
structure Placed (q : Calqueue α) : Prop where
  ascending : ∀ i, 0 ≤ i → i < q.nbuckets → Ascending (q.bucket i)
  bucket_eq : ∀ i, 0 ≤ i → i < q.nbuckets → ∀ e ∈ q.bucket i, bucketOf q e.priority = i

/-- The invariant of the order. -/
structure InOrder (q : Calqueue α) : Prop extends Placed q where
  lastprio_le : ∀ e ∈ stored q, q.lastprio ≤ e.priority
  front : Aligned q ∨ Collapsed q

/-! ## The bucket of a priority -/

/-- With a positive width a priority goes to its virtual bucket modulo the
number of buckets, and to bucket 0 when the virtual bucket does not fit an
`int`. -/
theorem bucketOf_of_size {q : Calqueue α} (hn : ∃ k : ℕ, 1 ≤ k ∧ k ≤ 15 ∧ q.nbuckets = 2 ^ k)
    {w : ℚ} (hw : 0 < w) (hc : q.cwidth = .fin w) {p : ℚ} (hp : 0 ≤ p) :
    bucketOf q p = if ⌊p / w⌋ < 2 ^ 31 then ⌊p / w⌋ % q.nbuckets else 0 := by
  have hq : 0 ≤ p / w := div_nonneg hp hw.le
  have hf : 0 ≤ ⌊p / w⌋ := Int.floor_nonneg.mpr hq
  rw [bucketOf, hc, ExactDouble.fin_div_fin p hw.ne', ExactDouble.toInt_fin_of_nonneg hq]
  split
  · exact Int.tmod_eq_emod_of_nonneg hf
  · exact Int.tmod_eq_zero_of_dvd ((dvd_neg).mpr (size_dvd hn (by decide)))

theorem bucketOf_eq {q : Calqueue α} (h : Layout q) {w : ℚ} (hw : 0 < w)
    (hc : q.cwidth = .fin w) {p : ℚ} (hp : 0 ≤ p) :
    bucketOf q p = if ⌊p / w⌋ < 2 ^ 31 then ⌊p / w⌋ % q.nbuckets else 0 :=
  bucketOf_of_size h.nbuckets hw hc hp

/-- `localinit` computes the virtual bucket as a `long`. -/
theorem lastbucket_localinit (q : Calqueue α) (base n : ℤ) {w : ℚ} (hw : 0 < w) {p : ℚ}
    (hp : 0 ≤ p) (hlt : ⌊p / w⌋ < 2 ^ 63) :
    (ExactDouble.fin p / .fin w).toInt 64 = ⌊p / w⌋ ∧
      (localinit q base n (.fin w) p).lastbucket = ⌊p / w⌋ % n := by
  have hq : 0 ≤ p / w := div_nonneg hp hw.le
  have hf : 0 ≤ ⌊p / w⌋ := Int.floor_nonneg.mpr hq
  have hlong : (ExactDouble.fin p / .fin w).toInt 64 = ⌊p / w⌋ := by
    rw [ExactDouble.fin_div_fin p hw.ne', ExactDouble.toInt_fin_of_nonneg hq, if_pos hlt]
  refine ⟨hlong, ?_⟩
  simp only [localinit, hlong]
  exact Int.tmod_eq_emod_of_nonneg hf

theorem bucketOf_congr {q q' : Calqueue α} (hw : q'.cwidth = q.cwidth)
    (hn : q'.nbuckets = q.nbuckets) (p : ℚ) : bucketOf q' p = bucketOf q p := by
  rw [bucketOf, bucketOf, hw, hn]

theorem le_floor_div {m : ℤ} {w p : ℚ} (hw : 0 < w) : m ≤ ⌊p / w⌋ ↔ m * w ≤ p := by
  rw [Int.le_floor, le_div_iff₀ hw]

theorem floor_div_lt {m : ℤ} {w p : ℚ} (hw : 0 < w) : ⌊p / w⌋ < m ↔ p < m * w := by
  rw [Int.floor_lt, div_lt_iff₀ hw]

theorem floor_div_mono {w p p' : ℚ} (hw : 0 < w) (h : p ≤ p') : ⌊p / w⌋ ≤ ⌊p' / w⌋ :=
  Int.floor_le_floor (div_le_div_of_nonneg_right h hw.le)

/-- Residues of numbers that are close to each other. -/
theorem eq_of_emod_eq {a b n : ℤ} (h : a % n = b % n) (h1 : a - b < n) (h2 : b - a < n) :
    a = b := by
  have hd : n ∣ a - b := Int.dvd_of_emod_eq_zero (Int.emod_eq_emod_iff_emod_sub_eq_zero.mp h)
  have := Int.eq_zero_of_abs_lt_dvd hd (abs_lt.mpr ⟨by omega, h1⟩)
  omega

/-! ## What `localinit` sets up -/

theorem collapsed_of_large {q : Calqueue α} (h : Layout q) {w : ℚ} (hw : 0 < w)
    (hc : q.cwidth = .fin w) (h0 : 0 ≤ q.lastprio) (hl : 2 ^ 31 ≤ ⌊q.lastprio / w⌋) :
    Collapsed q := by
  intro p hp
  have hle := floor_div_mono hw hp
  rw [bucketOf_eq h hw hc (h0.trans hp), if_neg (by omega)]

/-- `localinit` aligns `lastbucket` and `buckettop`, or sends all events to
bucket 0. -/
theorem front_localinit (q : Calqueue α) {base n : ℤ} {w : ExactDouble} {p : ℚ}
    (h : Sound (localinit q base n w p)) :
    Aligned (localinit q base n w p) ∨ Collapsed (localinit q base n w p) := by
  have hp : 0 ≤ p := h.lastprio_nonneg
  have hneg : (-2 ^ 31 : ℤ).tmod n = 0 :=
    Int.tmod_eq_zero_of_dvd ((dvd_neg).mpr (size_dvd h.nbuckets (by decide)))
  rcases h.width with hw | ⟨x, hx, hw⟩
  · change w = .nan at hw
    subst hw
    exact Or.inr fun r _ => hneg
  · change w = .fin x at hw
    subst hw
    rcases eq_or_lt_of_le hx with rfl | hx
    · refine Or.inr fun r _ => ?_
      change ((ExactDouble.fin r / .fin 0).toInt 32).tmod n = 0
      rw [ExactDouble.toInt_div_zero]
      exact hneg
    · by_cases hlarge : ⌊p / x⌋ < 2 ^ 31
      · have hf : 0 ≤ ⌊p / x⌋ := Int.floor_nonneg.mpr (div_nonneg hp hx.le)
        obtain ⟨hlong, hlast⟩ := lastbucket_localinit q base n hx hp (by omega)
        refine Or.inl ⟨x, hx, rfl, ⌊p / x⌋, hf, ?_, hlast, (le_floor_div hx).mp le_rfl⟩
        simp only [localinit, hlong, ExactDouble.fin_mul_fin, ExactDouble.fin_add_fin]
        congr 1
        ring
      · exact Or.inr (collapsed_of_large h.toLayout hx rfl hp (not_lt.mp hlarge))

theorem bucket_localinit (q : Calqueue α) (base n : ℤ) (w : ExactDouble) (p : ℚ) {i : ℤ}
    (h0 : 0 ≤ i) (hn : i < n) : (localinit q base n w p).bucket i = [] := by
  simp [Calqueue.bucket, localinit, h0, hn]

theorem sorted_localinit (q : Calqueue α) (base n : ℤ) (w : ExactDouble) (p : ℚ) :
    Sorted (localinit q base n w p) := by
  intro i h0 hn
  rw [bucket_localinit q base n w p h0 hn]
  exact List.Pairwise.nil

theorem placed_localinit (q : Calqueue α) (base n : ℤ) (w : ExactDouble) (p : ℚ) :
    Placed (localinit q base n w p) := by
  refine ⟨sorted_localinit q base n w p, fun i h0 hn e he => ?_⟩
  rw [bucket_localinit q base n w p h0 hn] at he
  cases he

/-! ## Insertions -/

theorem Sorted.inserted {q : Calqueue α} (h : Sorted q) (n : Node α) :
    Sorted (inserted q n) := by
  intro i h0 hn
  by_cases hi : i = bucketOf q n.priority
  · subst hi
    rw [bucket_inserted_self q n]
    exact place_ascending (h _ h0 hn)
  · rw [bucket_inserted_ne q hi]
    exact h i h0 hn

theorem Placed.inserted {q : Calqueue α} (h : Placed q) {n : Node α} :
    Placed (inserted q n) := by
  have hsorted : Sorted q := h.ascending
  refine ⟨hsorted.inserted n, fun i h0 hn e he => ?_⟩
  change bucketOf q e.priority = i
  by_cases hi : i = bucketOf q n.priority
  · subst hi
    rw [bucket_inserted_self q n, (place_perm n _).mem_iff] at he
    rcases List.mem_cons.mp he with rfl | he
    · rfl
    · exact h.bucket_eq _ h0 hn e he
  · rw [bucket_inserted_ne q hi] at he
    exact h.bucket_eq i h0 hn e he

theorem Placed.insertAll {l : List (Node α)} :
    ∀ {q : Calqueue α}, Placed q → Placed (insertAll q l) := by
  induction l with
  | nil => intro q h; exact h
  | cons n rest ih => intro q h; exact ih h.inserted

theorem front_of_sameControl {q q' : Calqueue α} (hs : SameControl q q')
    (h : Aligned q ∨ Collapsed q) : Aligned q' ∨ Collapsed q' := by
  rcases h with ⟨w, hw, hc, m, hm, ht, hl, hle⟩ | h
  · exact Or.inl ⟨w, hw, hs.cwidth.trans hc, m, hm, hs.buckettop.trans ht,
      by rw [hs.lastbucket, hs.nbuckets, hl], by rw [hs.lastprio]; exact hle⟩
  · refine Or.inr fun p hp => ?_
    rw [bucketOf_congr hs.cwidth hs.nbuckets]
    exact h p (by rwa [hs.lastprio] at hp)

theorem InOrder.inserted {q : Calqueue α} (h : InOrder q) (hs : Sound q) {n : Node α}
    (hn : 0 ≤ n.priority) (hl : q.lastprio ≤ n.priority) : InOrder (inserted q n) where
  toPlaced := h.toPlaced.inserted
  lastprio_le e he := by
    rw [stored_inserted hs.toLayout hs.width hn] at he
    rcases Multiset.mem_cons.mp he with rfl | he
    · exact hl
    · exact h.lastprio_le e he
  front := front_of_sameControl (sameControl_inserted hs.toLayout hs.width hn) h.front

/-- A rebuilt queue is in order, whatever the order was before. -/
theorem inOrder_of_rebuilt {q q' : Calqueue α} {m : ℤ} (h : Rebuilt q m q')
    (hpos : ∀ e ∈ stored q, 0 ≤ e.priority) (hl : ∀ e ∈ stored q, q.lastprio ≤ e.priority) :
    InOrder q' := by
  obtain ⟨q₁, w, base, L, rfl, _, hs, hL⟩ := h.form
  have hn : ∀ e ∈ L, 0 ≤ e.priority := fun e he => hpos e (by rw [← hL]; exact he)
  obtain ⟨_, hc, _, _⟩ := insertAll_spec hs hn
  refine ⟨(placed_localinit q₁ base m w _).insertAll, fun e he => ?_,
    front_of_sameControl hc (front_localinit q₁ hs)⟩
  rw [h.stored_eq] at he
  rw [h.lastprio_eq]
  exact hl e he

/-! ## Dequeues -/

/-- The head of an ordered bucket is its least event. -/
theorem head_le {e f : Node α} {rest : List (Node α)} (h : Ascending (e :: rest))
    (hf : f ∈ e :: rest) : e.priority ≤ f.priority := by
  rcases List.mem_cons.mp hf with rfl | hf
  · exact le_refl _
  · exact (List.pairwise_cons.mp h).1 f hf

theorem mem_bucketOf {q : Calqueue α} (h : Placed q) {f : Node α} (hf : f ∈ stored q) :
    0 ≤ bucketOf q f.priority ∧ bucketOf q f.priority < q.nbuckets ∧
      f ∈ q.bucket (bucketOf q f.priority) := by
  obtain ⟨i, h0, hn, hmem⟩ := mem_stored.mp hf
  have hb := h.bucket_eq i h0 hn f hmem
  rw [hb]
  exact ⟨h0, hn, hmem⟩

/-- A stored event that belongs to the bucket of the head `e` is not below
`e`. -/
theorem least_of_same_bucket {q : Calqueue α} (h : Placed q) {i : ℤ} {e f : Node α}
    {rest : List (Node α)} (hb : q.bucket i = e :: rest) (hf : f ∈ stored q)
    (hi : bucketOf q f.priority = i) : e.priority ≤ f.priority := by
  obtain ⟨h0, hn, hmem⟩ := mem_bucketOf h hf
  subst hi
  have hasc := h.ascending _ h0 hn
  rw [hb] at hasc hmem
  exact head_le hasc hmem

theorem Sorted.taken {q : Calqueue α} (h : Sorted q) {i : ℤ} {e : Node α}
    {rest : List (Node α)} (hb : q.bucket i = e :: rest) (top : ExactDouble) :
    Sorted (taken q i top e rest) := by
  intro j h0 hn
  by_cases hj : j = i
  · subst hj
    have hasc := h j h0 hn
    rw [hb] at hasc
    rw [bucket_taken_self q j top e rest]
    exact hasc.tail
  · rw [bucket_taken_ne q hj]
    exact h j h0 hn

theorem Placed.taken {q : Calqueue α} (h : Placed q) {i : ℤ} {e : Node α}
    {rest : List (Node α)} (hb : q.bucket i = e :: rest) (top : ExactDouble) :
    Placed (taken q i top e rest) := by
  have hsorted : Sorted q := h.ascending
  refine ⟨hsorted.taken hb top, fun j h0 hn f hf => ?_⟩
  by_cases hj : j = i
  · subst hj
    rw [bucket_taken_self q j top e rest] at hf
    exact h.bucket_eq j h0 hn f (by rw [hb]; exact List.mem_cons_of_mem e hf)
  · rw [bucket_taken_ne q hj] at hf
    exact h.bucket_eq j h0 hn f hf

/-- A bucket top moves up by one width in every round. -/
theorem topAt_eq {q : Calqueue α} {w : ℚ} (hc : q.cwidth = .fin w) {m : ℤ}
    (ht : q.buckettop = .fin ((m + 3 / 2) * w)) (k : ℕ) :
    topAt q k = .fin ((m + k + 3 / 2) * w) := by
  induction k with
  | zero =>
    rw [topAt, ht]
    congr 1
    push_cast
    ring
  | succ k ih =>
    rw [topAt, ih, hc, ExactDouble.fin_add_fin]
    congr 1
    push_cast
    ring

theorem wrap_eq {q : Calqueue α} {m : ℤ} (hn : 0 < q.nbuckets)
    (hl : q.lastbucket = m % q.nbuckets) {k : ℕ} (hk : k ≤ q.nbuckets.toNat) :
    wrap q k = (m + k) % q.nbuckets := by
  have hmod : (m + k) % q.nbuckets = (q.lastbucket + k) % q.nbuckets := by
    rw [hl, Int.emod_add_emod]
  have h0 := Int.emod_nonneg m hn.ne'
  have h1 := Int.emod_lt_of_pos m hn
  rw [hmod, wrap]
  split
  · rw [Int.emod_eq_of_lt (by omega) (by omega)]
  · rw [← Int.sub_emod_right, Int.emod_eq_of_lt (by omega) (by omega)]

/-- The scan passes by a bucket only if its events are not below the top. -/
theorem le_of_not_hit {q : Calqueue α} (h : Placed q) {k : ℕ} (hmiss : ¬ Hit q k) {t : ℚ}
    (ht : topAt q k = .fin t) {f : Node α} (hf : f ∈ stored q)
    (hi : bucketOf q f.priority = wrap q k) : t ≤ f.priority := by
  obtain ⟨h0, hn, hmem⟩ := mem_bucketOf h hf
  rw [hi] at h0 hn hmem
  obtain ⟨e, rest, hb⟩ := List.exists_cons_of_ne_nil (List.ne_nil_of_mem hmem)
  have hasc := h.ascending _ h0 hn
  rw [hb] at hasc hmem
  have hnot : ¬ e.priority < t := by
    intro hlt
    apply hmiss
    simp [Hit, hb, headBelow, ht, hlt]
  exact (not_lt.mp hnot).trans (head_le hasc hmem)

section AlignedDequeue

variable {q : Calqueue α} {w : ℚ} {m : ℤ}

/-- What the two cases of an aligned dequeue start from. -/
structure AlignedAt (q : Calqueue α) (w : ℚ) (m : ℤ) : Prop extends Sound q, InOrder q where
  width_pos : 0 < w
  cwidth_eq : q.cwidth = .fin w
  buckettop_eq : q.buckettop = .fin ((m + 3 / 2) * w)
  lastbucket_eq : q.lastbucket = m % q.nbuckets
  virtual_nonneg : 0 ≤ m
  le_lastprio : m * w ≤ q.lastprio

theorem AlignedAt.bucketOf_stored (h : AlignedAt q w m) {f : Node α} (hf : f ∈ stored q) :
    bucketOf q f.priority =
      if ⌊f.priority / w⌋ < 2 ^ 31 then ⌊f.priority / w⌋ % q.nbuckets else 0 :=
  bucketOf_eq h.toLayout h.width_pos h.cwidth_eq (h.nonneg f hf)

theorem AlignedAt.virtual_le (h : AlignedAt q w m) {f : Node α} (hf : f ∈ stored q) :
    m ≤ ⌊f.priority / w⌋ :=
  (le_floor_div h.width_pos).mpr (h.le_lastprio.trans (h.lastprio_le f hf))

/-- The virtual bucket of an event that is below the top of round `k`. -/
theorem AlignedAt.virtual_le_of_hit (h : AlignedAt q w m) {k : ℕ} {e : Node α}
    {rest : List (Node α)} (hhit : Hit q k) (hb : q.bucket (wrap q k) = e :: rest) :
    ⌊e.priority / w⌋ ≤ m + k + 1 := by
  have hlt : e.priority < (m + k + 3 / 2) * w := by
    simpa [Hit, hb, headBelow, topAt_eq h.cwidth_eq h.buckettop_eq k] using hhit
  have hlt' : e.priority < ((m + k + 2 : ℤ) : ℚ) * w := by
    refine hlt.trans ?_
    push_cast
    exact mul_lt_mul_of_pos_right (by linarith) h.width_pos
  have := (floor_div_lt h.width_pos).mpr hlt'
  omega

/-- The first hit of an aligned scan is the minimum. -/
theorem AlignedAt.least_of_hit (h : AlignedAt q w m) {k : ℕ} (hk : k < q.nbuckets.toNat)
    (hhit : Hit q k) (hmiss : ∀ j < k, ¬ Hit q j) {e : Node α} {rest : List (Node α)}
    (hb : q.bucket (wrap q k) = e :: rest) {f : Node α} (hf : f ∈ stored q) :
    e.priority ≤ f.priority := by
  have h2 := h.two_le
  have hn : 0 < q.nbuckets := by omega
  by_contra hlt
  have hfe : f.priority ≤ e.priority := (not_le.mp hlt).le
  obtain ⟨hw0, hwn⟩ := wrap_mem h.lastbucket_nonneg h.lastbucket_lt hk
  have he : e ∈ stored q := mem_stored.mpr ⟨_, hw0, hwn, by rw [hb]; exact List.mem_cons_self⟩
  have hbe : bucketOf q e.priority = wrap q k :=
    h.bucket_eq _ hw0 hwn e (by rw [hb]; exact List.mem_cons_self)
  have hother : bucketOf q f.priority ≠ wrap q k := fun hi =>
    hlt (least_of_same_bucket h.toPlaced hb hf hi)
  have hve := h.virtual_le_of_hit hhit hb
  have hvf := h.virtual_le hf
  have hvfe := floor_div_mono h.width_pos hfe
  rw [wrap_eq hn h.lastbucket_eq hk.le] at hother hbe
  rw [h.bucketOf_stored he] at hbe
  rw [h.bucketOf_stored hf] at hother
  by_cases hlarge : ⌊f.priority / w⌋ < 2 ^ 31
  · rw [if_pos hlarge] at hother
    -- the virtual bucket of `f` is `m + j`, and `f` was passed by, or shares
    -- the bucket of `e`, or is in the bucket behind it
    obtain ⟨j, hj⟩ : ∃ j : ℕ, ⌊f.priority / w⌋ = m + j :=
      ⟨(⌊f.priority / w⌋ - m).toNat, by omega⟩
    rcases Nat.lt_trichotomy j k with hjk | rfl | hjk
    · have hround : bucketOf q f.priority = wrap q j := by
        rw [h.bucketOf_stored hf, if_pos hlarge, hj, wrap_eq hn h.lastbucket_eq (by omega)]
      have htop := le_of_not_hit h.toPlaced (hmiss j hjk)
        (topAt_eq h.cwidth_eq h.buckettop_eq j) hf hround
      have hbelow : f.priority < ((m + j + 1 : ℤ) : ℚ) * w :=
        (floor_div_lt h.width_pos).mp (by omega)
      push_cast at hbelow
      have : ((m : ℚ) + j + 1) * w < (m + j + 3 / 2) * w :=
        mul_lt_mul_of_pos_right (by linarith) h.width_pos
      linarith
    · exact hother (by rw [hj])
    · have hjv : ⌊e.priority / w⌋ = m + k + 1 := by omega
      rw [if_pos (by omega), hjv] at hbe
      have := eq_of_emod_eq hbe (by omega) (by omega)
      omega
  · rw [if_neg hlarge] at hother
    rw [if_neg (by omega)] at hbe
    exact hother hbe

/-- The front after a dequeue of `e` that ends in the bucket of the virtual
bucket `m'`. -/
theorem AlignedAt.front_taken (h : AlignedAt q w m) {i : ℤ} {e : Node α} {rest : List (Node α)}
    (he : e ∈ stored q) {m' : ℤ} (hm' : 0 ≤ m') (hi : i = m' % q.nbuckets)
    (hv : ⌊e.priority / w⌋ < 2 ^ 31 → m' ≤ ⌊e.priority / w⌋) :
    Aligned (taken q i (.fin ((m' + 3 / 2) * w)) e rest) ∨
      Collapsed (taken q i (.fin ((m' + 3 / 2) * w)) e rest) := by
  by_cases hlarge : ⌊e.priority / w⌋ < 2 ^ 31
  · exact Or.inl ⟨w, h.width_pos, h.cwidth_eq, m', hm', rfl, hi,
      (le_floor_div h.width_pos).mp (hv hlarge)⟩
  · refine Or.inr fun p hp => ?_
    change e.priority ≤ p at hp
    have hle := floor_div_mono h.width_pos hp
    change bucketOf q p = 0
    rw [bucketOf_eq h.toLayout h.width_pos h.cwidth_eq ((h.nonneg e he).trans hp),
      if_neg (by omega)]

end AlignedDequeue

/-- The two ways in which a dequeue finds its event. -/
theorem takeNext_cases {q : Calqueue α} (hs : Sound q) (hne : q.qsize ≠ 0) {e : Node α}
    {q₁ : Calqueue α} (htake : takeNext q = .ok (e, q₁)) :
    ∃ i top rest, 0 ≤ i ∧ i < q.nbuckets ∧ q.bucket i = e :: rest ∧ q₁ = taken q i top e rest ∧
      ((∃ k < q.nbuckets.toNat, i = wrap q k ∧ top = topAt q k ∧ Hit q k ∧
          ∀ j < k, ¬ Hit q j) ∨
        (∀ k < q.nbuckets.toNat, ¬ Hit q k) ∧ top = topAt q q.nbuckets.toNat ∧
          ∀ j : ℕ, j < q.nbuckets.toNat → ∀ f rest', q.bucket j = f :: rest' →
            e.priority ≤ f.priority) := by
  obtain ⟨i, top, e', rest, h0, hn, hfind, hb, htake'⟩ := takeNext_spec hs hne
  obtain ⟨rfl, rfl⟩ := Prod.mk.inj (Except.ok.inj (htake'.symm.trans htake))
  refine ⟨i, top, rest, h0, hn, hb, rfl, ?_⟩
  rcases findBucket_spec hs hne with ⟨k, hk, hf, hhit, hmiss⟩ |
    ⟨i', _, hf, hmiss, g, rest', hg, hmin⟩
  · obtain ⟨rfl, rfl⟩ := Prod.mk.inj (Except.ok.inj (hfind.symm.trans hf))
    exact Or.inl ⟨k, hk, rfl, rfl, hhit, hmiss⟩
  · obtain ⟨rfl, rfl⟩ := Prod.mk.inj (Except.ok.inj (hfind.symm.trans hf))
    obtain ⟨rfl, rfl⟩ := List.cons.inj (hb.symm.trans hg)
    exact Or.inr ⟨hmiss, rfl, hmin⟩

/-- The direct search finds a least event. -/
theorem least_of_direct {q : Calqueue α} (h : Placed q) {e : Node α}
    (hmin : ∀ j : ℕ, j < q.nbuckets.toNat → ∀ f rest, q.bucket j = f :: rest →
      e.priority ≤ f.priority) {f : Node α} (hf : f ∈ stored q) :
    e.priority ≤ f.priority := by
  obtain ⟨hf0, hfn, hmem⟩ := mem_bucketOf h hf
  obtain ⟨x, xs, hx⟩ := List.exists_cons_of_ne_nil (List.ne_nil_of_mem hmem)
  have hasc := h.ascending _ hf0 hfn
  rw [hx] at hasc hmem
  refine le_trans ?_ (head_le hasc hmem)
  refine hmin (bucketOf q f.priority).toNat (by omega) x xs ?_
  rwa [Int.toNat_of_nonneg hf0]

/-- A dequeue of an ordered queue takes a least event. -/
theorem takeNext_least {q : Calqueue α} (hs : Sound q) (h : InOrder q) (hne : q.qsize ≠ 0)
    {e : Node α} {q₁ : Calqueue α} (htake : takeNext q = .ok (e, q₁)) {f : Node α}
    (hf : f ∈ stored q) : e.priority ≤ f.priority := by
  obtain ⟨i, top, rest, h0, hn, hb, _, hcases⟩ := takeNext_cases hs hne htake
  rcases h.front with ⟨w, hw, hc, m, hm, ht, hl, hle⟩ | hcol
  · rcases hcases with ⟨k, hk, rfl, _, hhit, hmiss⟩ | ⟨_, _, hmin⟩
    · have ha : AlignedAt q w m := ⟨hs, h, hw, hc, ht, hl, hm, hle⟩
      exact ha.least_of_hit hk hhit hmiss hb hf
    · exact least_of_direct h.toPlaced hmin hf
  · have hall : ∀ g ∈ stored q, bucketOf q g.priority = 0 := fun g hg =>
      hcol _ (h.lastprio_le g hg)
    have hmem : e ∈ q.bucket i := by rw [hb]; exact List.mem_cons_self
    have he : e ∈ stored q := mem_stored.mpr ⟨i, h0, hn, hmem⟩
    have hbe := h.bucket_eq i h0 hn e hmem
    exact least_of_same_bucket h.toPlaced hb hf (by rw [hall f hf, ← hbe, hall e he])

/-- A dequeue that does not jump leaves the queue in order. -/
theorem takeNext_inOrder {q : Calqueue α} (hs : Sound q) (h : InOrder q) (hne : q.qsize ≠ 0)
    (hjump : ¬ Jumps q) {e : Node α} {q₁ : Calqueue α} (htake : takeNext q = .ok (e, q₁)) :
    InOrder q₁ := by
  have hleast : ∀ f ∈ stored q, e.priority ≤ f.priority := fun f hf =>
    takeNext_least hs h hne htake hf
  obtain ⟨i, top, rest, h0, hn, hb, rfl, hcases⟩ := takeNext_cases hs hne htake
  have hmem : e ∈ q.bucket i := by rw [hb]; exact List.mem_cons_self
  have he : e ∈ stored q := mem_stored.mpr ⟨i, h0, hn, hmem⟩
  have hbe : bucketOf q e.priority = i := h.bucket_eq i h0 hn e hmem
  refine ⟨h.toPlaced.taken hb top, fun f hf => hleast f ?_, ?_⟩
  · rw [stored_taken h0 hn hb top]
    exact Multiset.mem_cons_of_mem hf
  have h2 := hs.two_le
  have hnpos : 0 < q.nbuckets := by omega
  rcases h.front with ⟨w, hw, hc, m, hm, ht, hl, hle⟩ | hcol
  · have ha : AlignedAt q w m := ⟨hs, h, hw, hc, ht, hl, hm, hle⟩
    rcases hcases with ⟨k, hk, rfl, rfl, hhit, hmiss⟩ | ⟨hmiss, rfl, hmin⟩
    · have hve := ha.virtual_le_of_hit hhit hb
      have hvm := ha.virtual_le he
      have hwrap := wrap_eq hnpos hl hk.le
      have htop := topAt_eq hc ht k
      rw [show (m : ℚ) + k + 3 / 2 = ((m + k : ℤ) : ℚ) + 3 / 2 by push_cast; ring] at htop
      rw [htop]
      refine ha.front_taken he (by omega) hwrap fun hsmall => ?_
      rw [ha.bucketOf_stored he, if_pos hsmall, hwrap] at hbe
      have := eq_of_emod_eq hbe (by omega) (by omega)
      omega
    · have hsame : i = q.lastbucket := by
        by_contra hne'
        refine hjump ⟨hmiss, i.toNat, by omega, by omega, e, ?_, fun j hj f hf => ?_⟩
        · rwa [Int.toNat_of_nonneg h0]
        · exact hleast f (mem_stored.mpr ⟨j, by omega, by omega, hf⟩)
      have htop := topAt_eq hc ht q.nbuckets.toNat
      have hcast : ((q.nbuckets.toNat : ℕ) : ℤ) = q.nbuckets := Int.toNat_of_nonneg hnpos.le
      rw [show (m : ℚ) + (q.nbuckets.toNat : ℕ) + 3 / 2 =
        ((m + (q.nbuckets.toNat : ℕ) : ℤ) : ℚ) + 3 / 2 by push_cast; ring] at htop
      rw [htop]
      refine ha.front_taken he (by omega) ?_ fun hsmall => ?_
      · rw [hsame, hl, hcast, Int.add_emod_right]
      · -- round 0 passed by the bucket, so `e` belongs to a later year
        have hround : bucketOf q e.priority = wrap q 0 := by
          rw [hbe, hsame, wrap_eq hnpos hl (by omega), hl]
          simp
        have hge := le_of_not_hit h.toPlaced (hmiss 0 (by omega)) (topAt_eq hc ht 0) he hround
        have hv1 : m + 1 ≤ ⌊e.priority / w⌋ := by
          refine (le_floor_div hw).mpr (le_trans ?_ hge)
          push_cast
          exact mul_le_mul_of_nonneg_right (by linarith) hw.le
        rw [ha.bucketOf_stored he, if_pos hsmall, hsame, hl] at hbe
        by_contra hlt
        have := eq_of_emod_eq hbe (by omega) (by omega)
        omega
  · refine Or.inr fun p hp => ?_
    change bucketOf q p = 0
    exact hcol p ((h.lastprio_le e he).trans hp)

/-! ## Runs -/

/-- The call does not jump. -/
def staysInBucket (q : Calqueue α) : Op α → Bool
  | .put _ => true
  | .get => !decide (Jumps q)

/-- The calls that return, resize well and do not jump. -/
def OrderedStep (c : Client α) (op : Op α) (d : Client α) : Prop :=
  staysInBucket c.queue op = true ∧ WideStep c op d

/-- The invariant of the runs without a jump. -/
structure Ordered (c : Client α) : Prop extends Conserved c where
  inOrder : InOrder c.queue
  lastprio_eq : c.queue.lastprio = lastGot c
  gots_le : ∀ e ∈ c.gots, e.priority ≤ c.queue.lastprio
  ascending : Ascending c.gots

theorem ordered_start (q : Calqueue α) : Ordered (start q) where
  toConserved := conserved_start q
  inOrder := by
    have hs : Sound (localinit q 0 2 (.fin 1) 0) := sound_localinit q
      ⟨1, by decide, by decide, by decide⟩ (Or.inl rfl) (Or.inr ⟨1, by norm_num, rfl⟩) le_rfl
    refine ⟨?_, fun e he => ?_, front_localinit q hs⟩
    · obtain ⟨ha, hb⟩ := placed_localinit q 0 2 (.fin 1) 0
      exact ⟨ha, hb⟩
    · change e ∈ stored (calqueueInit q) at he
      rw [(ready_init q).2] at he
      exact absurd he (Multiset.notMem_zero e)
  lastprio_eq := rfl
  gots_le e he := absurd he List.not_mem_nil
  ascending := List.Pairwise.nil

theorem inOrder_put {c : Client α} (h : Ordered c) {n : Node α} {q' : Calqueue α}
    (hadm : admissible c (.put n) = true)
    (hform : q' = inserted c.queue n ∨ ∃ m, Rebuilt (inserted c.queue n) m q') :
    InOrder q' := by
  obtain ⟨hn, hl⟩ := admissible_put hadm
  have hs := h.ready.toSound
  have hins := h.inOrder.inserted hs hn (h.lastprio_eq.le.trans hl)
  rcases hform with rfl | ⟨m, hm⟩
  · exact hins
  · exact inOrder_of_rebuilt hm (hs.inserted hn).nonneg hins.lastprio_le

theorem inOrder_get {c : Client α} (h : Ordered c) (hne : c.queue.qsize ≠ 0)
    (hjump : ¬ Jumps c.queue) {e : Node α} {q₁ q' : Calqueue α}
    (htake : takeNext c.queue = .ok (e, q₁)) (hst : stored c.queue = e ::ₘ stored q')
    (hform : q' = q₁ ∨ ∃ m, Rebuilt q₁ m q') : InOrder q' := by
  have hs := h.ready.toSound
  have hin := takeNext_inOrder hs h.inOrder hne hjump htake
  rcases hform with rfl | ⟨m, hm⟩
  · exact hin
  · refine inOrder_of_rebuilt hm (fun f hf => hs.nonneg f ?_) hin.lastprio_le
    rw [hst, hm.stored_eq]
    exact Multiset.mem_cons_of_mem hf

theorem ordered_step {c d : Client α} {op : Op α} (h : Ordered c) (hstep : OrderedStep c op d) :
    Ordered d := by
  obtain ⟨hstay, hwide⟩ := hstep
  have hcons := conserved_step h.toConserved hwide
  obtain ⟨hw, hadm, hexec⟩ := hwide
  cases op with
  | put n =>
    obtain ⟨q', hx, _, _, hlp, hform⟩ := exec_put h.ready hadm hw
    cases Except.ok.inj (hx.symm.trans hexec)
    exact ⟨hcons, inOrder_put h hadm hform, hlp.trans h.lastprio_eq,
      fun e he => (h.gots_le e he).trans hlp.ge, h.ascending⟩
  | get =>
    by_cases hempty : c.queue.qsize = 0
    · cases Except.ok.inj ((exec_get_empty hempty).symm.trans hexec)
      exact h
    · have hjump : ¬ Jumps c.queue := by simpa [staysInBucket] using hstay
      obtain ⟨e, q₁, q', hx, htake, _, _, hst, hlp, hform⟩ := exec_get h.ready hempty hw
      cases Except.ok.inj (hx.symm.trans hexec)
      have he : e ∈ stored c.queue := by
        rw [hst]
        exact Multiset.mem_cons_self _ _
      have hbefore : ∀ f ∈ c.gots, f.priority ≤ e.priority := fun f hf =>
        (h.gots_le f hf).trans (h.inOrder.lastprio_le e he)
      refine ⟨hcons, inOrder_get h hempty hjump htake hst hform, ?_, fun f hf => ?_, ?_⟩
      · simp [lastGot, hlp]
      · change f.priority ≤ q'.lastprio
        rw [hlp]
        rcases List.mem_append.mp hf with hf | hf
        · exact hbefore f hf
        · rw [List.mem_singleton.mp hf]
      · refine List.pairwise_append.mpr ⟨h.ascending, List.pairwise_singleton _ _, ?_⟩
        intro f hf g hg
        rw [List.mem_singleton.mp hg]
        exact hbefore f hf

theorem ordered_run {q : Calqueue α} {ops : List (Op α)} {c : Client α}
    (h : Run OrderedStep (start q) ops c) : Ordered c :=
  h.invariant (fun _ _ _ => ordered_step) (ordered_start q)

/-- Every get on a queue that is not empty returns the payload of an event with
the least priority of all that are stored, and the priorities got never
decrease, in a run whose gets do not jump and whose resizes sample separations
that do not sum to a negative number. -/
theorem calqueueGet_least {β : Type} {q : Calqueue (Option β)} {ops : List (Op (Option β))}
    {c : Client (Option β)} (h : Run OrderedStep (start q) ops c) :
    (c.queue.qsize ≠ 0 → resizesWell c.queue .get = true →
      ∃ e q', calqueueDeq c.queue = .ok (some e, q') ∧
        calqueueGet c.queue = .ok (e.payload, q') ∧
        e ∈ stored c.queue ∧ ∀ f ∈ stored c.queue, e.priority ≤ f.priority) ∧
      c.gots.Pairwise fun a b => a.priority ≤ b.priority := by
  have hc := ordered_run h
  refine ⟨fun hne hw => ?_, hc.ascending⟩
  obtain ⟨e, q₁, q', _, htake, hdeq, _, hst, _⟩ := exec_get hc.ready hne hw
  refine ⟨e, q', hdeq, get_of_deq hdeq, ?_, fun f hf =>
    takeNext_least hc.ready.toSound hc.inOrder hne htake hf⟩
  rw [hst]
  exact Multiset.mem_cons_self _ _

/-- `calqueueGet_least` on a run that grows the calendar and reaches the next
year. -/
theorem calqueueGet_least_next_year :
    ∃ c : Client (Option ℕ), c.queue.nbuckets = 4 ∧ c.queue.qsize = 3 ∧
      (c.queue.qsize ≠ 0 → resizesWell c.queue .get = true →
        ∃ e q', calqueueDeq c.queue = .ok (some e, q') ∧
          calqueueGet c.queue = .ok (e.payload, q') ∧
          e ∈ stored c.queue ∧ ∀ f ∈ stored c.queue, e.priority ≤ f.priority) ∧
        c.gots.Pairwise fun a b => a.priority ≤ b.priority := by
  obtain ⟨c, hrun, hp⟩ := exists_run
    (fun c op => staysInBucket c.queue op && resizesWell c.queue op) (start (blank (Option ℕ)))
    [.put ⟨0, some 0⟩, .put ⟨5, some 1⟩, .put ⟨2, some 2⟩, .put ⟨9, some 3⟩, .put ⟨4, some 4⟩,
      .get, .get]
    (fun c => decide (c.queue.nbuckets = 4) && decide (c.queue.qsize = 3)) (by decide +kernel)
  obtain ⟨hn, hsz⟩ := Bool.and_eq_true_iff.mp hp
  have hclean : Run OrderedStep (start (blank (Option ℕ))) _ c := hrun.mono fun c op d h =>
    ⟨(Bool.and_eq_true_iff.mp h.1).1, (Bool.and_eq_true_iff.mp h.1).2, h.2⟩
  exact ⟨c, decide_eq_true_iff.mp hn, decide_eq_true_iff.mp hsz, calqueueGet_least hclean⟩

/-- A jump.  The get of the event at 25/8 leaves `lastbucket` at bucket 1 and
`buckettop` at 7/2, the top of bucket 0, so the next get passes by the event at
29/8 and returns the one at 17/4. -/
theorem calqueueGet_skips_minimum :
    ∃ c : Client ℕ, Run Step (start (blank ℕ))
        [.put ⟨25 / 8, 0⟩, .get, .put ⟨29 / 8, 1⟩, .put ⟨17 / 4, 2⟩] c ∧
      ∃ e q', calqueueDeq c.queue = .ok (some e, q') ∧
        ∃ f ∈ stored c.queue, f.priority < e.priority := by
  obtain ⟨c, hrun, hp⟩ := exists_run (fun _ _ => true) (start (blank ℕ))
    [.put ⟨25 / 8, 0⟩, .get, .put ⟨29 / 8, 1⟩, .put ⟨17 / 4, 2⟩]
    (fun c => decide (c.queue.nbuckets = 2) && match calqueueDeq c.queue with
      | .ok (some e, _) => (c.queue.bucket 1).any fun f => decide (f.priority < e.priority)
      | _ => false) (by decide +kernel)
  obtain ⟨hn, hp⟩ := Bool.and_eq_true_iff.mp hp
  refine ⟨c, hrun.mono fun _ _ _ h => h.2, ?_⟩
  split at hp
  · rename_i e q' hdeq
    obtain ⟨f, hf, hlt⟩ := List.any_eq_true.mp hp
    have hlt2 : 1 < c.queue.nbuckets := by rw [decide_eq_true_iff.mp hn]; decide
    exact ⟨e, q', hdeq, f, mem_stored.mpr ⟨1, by decide, hlt2, hf⟩, decide_eq_true_iff.mp hlt⟩
  · cases hp

end LinuxFibers.CalQueue
