import LinuxFibers.CalQueue.Buckets
import Mathlib.Data.Int.Basic
import Mathlib.Tactic.IntervalCases

/-!
# What every operation of the calendar queue keeps

`Sound` is the invariant that does not speak of order: the window has one of
the fifteen sizes and one of the two places, the control fields belong to that
size, `qsize` counts the stored nodes, and the width is `Usable`.  From it
every calendar index that an operation computes lies in the window, so no
operation stops.

The one thing that `Sound` cannot give is the width after a `resize`.
`new_width` estimates it from the separations of the events that it samples,
and it is usable when the close separations do not sum to a negative number.
`widthOk` says that of a state on which `resize` is called.

The order of the module is the order of the calls: `inserted` and `taken` are
the states after a put and a dequeue without their `resize`, `newWidth_spec`
and `resize_spec` follow, and `put_spec` and `deq_spec` close the circle.
-/

namespace LinuxFibers.CalQueue

open LinuxFibers.Lib

variable {α : Type}

/-- A width with which every priority has a bucket: a non-negative number, or
the not-a-number of a sample without a close separation. -/
def Usable (w : ExactDouble) : Prop := w = .nan ∨ ∃ x : ℚ, 0 ≤ x ∧ w = .fin x

/-- The window and the control fields that depend on its size. -/
structure Layout (q : Calqueue α) : Prop where
  nbuckets : ∃ k : ℕ, 1 ≤ k ∧ k ≤ 15 ∧ q.nbuckets = 2 ^ k
  firstsub : q.firstsub = 0 ∨ q.firstsub = calqspace - q.nbuckets
  lastbucket_nonneg : 0 ≤ q.lastbucket
  lastbucket_lt : q.lastbucket < q.nbuckets
  topThreshold : q.topThreshold = 2 * q.nbuckets
  botThreshold : q.botThreshold = q.nbuckets.tdiv 2 - 2

/-- The invariant of the queue, order aside. -/
structure Sound (q : Calqueue α) : Prop extends Layout q where
  size : q.qsize = (stored q).card
  nonneg : ∀ n ∈ stored q, 0 ≤ n.priority
  lastprio_nonneg : 0 ≤ q.lastprio
  width : Usable q.cwidth

/-! ## Sizes and indices -/

theorem two_le_size {n : ℤ} (h : ∃ k : ℕ, 1 ≤ k ∧ k ≤ 15 ∧ n = 2 ^ k) :
    2 ≤ n ∧ n ≤ maxnbuckets := by
  obtain ⟨k, h1, h15, rfl⟩ := h
  interval_cases k <;> decide

theorem size_dvd {n : ℤ} (h : ∃ k : ℕ, 1 ≤ k ∧ k ≤ 15 ∧ n = 2 ^ k) {m : ℕ} (hm : 15 ≤ m) :
    n ∣ 2 ^ m := by
  obtain ⟨k, _, h15, rfl⟩ := h
  exact pow_dvd_pow 2 (h15.trans hm)

/-- The sizes of the calendar are closed under doubling below the maximum. -/
theorem size_double {n : ℤ} (h : ∃ k : ℕ, 1 ≤ k ∧ k ≤ 15 ∧ n = 2 ^ k) (hlt : n < maxnbuckets) :
    ∃ k : ℕ, 1 ≤ k ∧ k ≤ 15 ∧ 2 * n = 2 ^ k := by
  obtain ⟨k, h1, h15, hk⟩ := h
  refine ⟨k + 1, by omega, ?_, by rw [hk, pow_succ, mul_comm]⟩
  by_contra hk'
  have hk15 : k = 15 := by omega
  rw [hk, hk15] at hlt
  exact absurd hlt (by decide)

/-- They are closed under halving above the minimum. -/
theorem size_half {n : ℤ} (h : ∃ k : ℕ, 1 ≤ k ∧ k ≤ 15 ∧ n = 2 ^ k) (hlt : 2 < n) :
    ∃ k : ℕ, 1 ≤ k ∧ k ≤ 15 ∧ n.tdiv 2 = 2 ^ k := by
  obtain ⟨k, h1, h15, hk⟩ := h
  obtain ⟨j, rfl⟩ : ∃ j, k = j + 1 := ⟨k - 1, by omega⟩
  have hhalf : n.tdiv 2 = n / 2 := Int.tdiv_eq_ediv_of_nonneg (by omega)
  refine ⟨j, ?_, by omega, by rw [hhalf, hk, pow_succ]; omega⟩
  by_contra hj
  have hj0 : j = 0 := by omega
  rw [hk, hj0] at hlt
  exact absurd hlt (by decide)

theorem Layout.two_le {q : Calqueue α} (h : Layout q) : 2 ≤ q.nbuckets :=
  (two_le_size h.nbuckets).1

theorem Layout.le_max {q : Calqueue α} (h : Layout q) : q.nbuckets ≤ maxnbuckets :=
  (two_le_size h.nbuckets).2

/-- A quotient that does not fit its integer type converts to minus a power of
two, and every window size divides it. -/
theorem tmod_toInt_mem {w : ExactDouble} (hw : Usable w) {p : ℚ} (hp : 0 ≤ p) {n : ℤ}
    (hn : 0 < n) {bits : ℕ} (hd : n ∣ 2 ^ (bits - 1)) :
    0 ≤ ((ExactDouble.fin p / w).toInt bits).tmod n ∧
      ((ExactDouble.fin p / w).toInt bits).tmod n < n := by
  have hneg : (-2 ^ (bits - 1) : ℤ).tmod n = 0 :=
    Int.tmod_eq_zero_of_dvd ((dvd_neg).mpr hd)
  rcases hw with rfl | ⟨x, hx, rfl⟩
  · rw [ExactDouble.fin_div_nan, ExactDouble.toInt_nan, hneg]
    omega
  · rcases eq_or_lt_of_le hx with rfl | hx
    · rw [ExactDouble.toInt_div_zero, hneg]
      omega
    · have hq : 0 ≤ p / x := div_nonneg hp hx.le
      rw [ExactDouble.fin_div_fin p hx.ne', ExactDouble.toInt_fin_of_nonneg hq]
      split
      · have hf : 0 ≤ ⌊p / x⌋ := Int.floor_nonneg.mpr hq
        exact ⟨Int.tmod_nonneg _ hf, Int.tmod_lt_of_pos _ hn⟩
      · rw [hneg]
        omega

theorem bucketOf_mem {q : Calqueue α} (h : Layout q) (hw : Usable q.cwidth) {p : ℚ}
    (hp : 0 ≤ p) : 0 ≤ bucketOf q p ∧ bucketOf q p < q.nbuckets :=
  tmod_toInt_mem hw hp (by have := h.two_le; omega) (size_dvd h.nbuckets (by decide))

/-- `localinit` on a usable width sets up a window of its own. -/
theorem layout_localinit (q : Calqueue α) {base n : ℤ} {w : ExactDouble} {p : ℚ}
    (hn : ∃ k : ℕ, 1 ≤ k ∧ k ≤ 15 ∧ n = 2 ^ k) (hbase : base = 0 ∨ base = calqspace - n)
    (hw : Usable w) (hp : 0 ≤ p) : Layout (localinit q base n w p) := by
  have h2 := (two_le_size hn).1
  have hd : n ∣ 2 ^ (64 - 1) := size_dvd hn (by decide)
  have hl := tmod_toInt_mem hw hp (by omega) hd
  exact ⟨hn, hbase, hl.1, hl.2, rfl, rfl⟩

theorem sound_localinit (q : Calqueue α) {base n : ℤ} {w : ExactDouble} {p : ℚ}
    (hn : ∃ k : ℕ, 1 ≤ k ∧ k ≤ 15 ∧ n = 2 ^ k) (hbase : base = 0 ∨ base = calqspace - n)
    (hw : Usable w) (hp : 0 ≤ p) : Sound (localinit q base n w p) where
  toLayout := layout_localinit q hn hbase hw hp
  size := by rw [stored_localinit]; rfl
  nonneg := by simp [stored_localinit]
  lastprio_nonneg := hp
  width := hw

/-! ## Insertions without a resize -/

/-- The state after the insertion of `calqueuePut`. -/
def inserted (q : Calqueue α) (n : Node α) : Calqueue α :=
  { q.setCalendar (bucketOf q n.priority) (place n (q.bucket (bucketOf q n.priority))) with
    qsize := q.qsize + 1 }

/-- The state after the insertion of a list of nodes, one after the other. -/
def insertAll (q : Calqueue α) (l : List (Node α)) : Calqueue α := l.foldl inserted q

/-- `q'` differs from `q` in the buckets of the window and in the size only. -/
structure SameControl (q q' : Calqueue α) : Prop where
  firstsub : q'.firstsub = q.firstsub
  nbuckets : q'.nbuckets = q.nbuckets
  lastbucket : q'.lastbucket = q.lastbucket
  resizeEnabled : q'.resizeEnabled = q.resizeEnabled
  topThreshold : q'.topThreshold = q.topThreshold
  botThreshold : q'.botThreshold = q.botThreshold
  lastprio : q'.lastprio = q.lastprio
  buckettop : q'.buckettop = q.buckettop
  cwidth : q'.cwidth = q.cwidth
  held : q'.held = q.held
  outside : ∀ k, ¬ (q.firstsub ≤ k ∧ k < q.firstsub + q.nbuckets) → q'.calq k = q.calq k

theorem SameControl.refl (q : Calqueue α) : SameControl q q :=
  ⟨rfl, rfl, rfl, rfl, rfl, rfl, rfl, rfl, rfl, rfl, fun _ _ => rfl⟩

theorem SameControl.trans {a b c : Calqueue α} (h : SameControl a b) (h' : SameControl b c) :
    SameControl a c where
  firstsub := h'.firstsub.trans h.firstsub
  nbuckets := h'.nbuckets.trans h.nbuckets
  lastbucket := h'.lastbucket.trans h.lastbucket
  resizeEnabled := h'.resizeEnabled.trans h.resizeEnabled
  topThreshold := h'.topThreshold.trans h.topThreshold
  botThreshold := h'.botThreshold.trans h.botThreshold
  lastprio := h'.lastprio.trans h.lastprio
  buckettop := h'.buckettop.trans h.buckettop
  cwidth := h'.cwidth.trans h.cwidth
  held := h'.held.trans h.held
  outside k hk := by
    rw [h'.outside k (by rw [h.firstsub, h.nbuckets]; exact hk), h.outside k hk]

theorem Confined.of_sameControl {q q' : Calqueue α} (h : Confined q) (hs : SameControl q q') :
    Confined q' := by
  intro k
  rw [hs.held]
  exact h k

theorem Layout.of_sameControl {q q' : Calqueue α} (h : Layout q) (hs : SameControl q q') :
    Layout q' := by
  obtain ⟨hn, hf, hl0, hl, ht, hb⟩ := h
  refine ⟨?_, ?_, ?_, ?_, ?_, ?_⟩ <;>
    simpa only [hs.nbuckets, hs.firstsub, hs.lastbucket, hs.topThreshold, hs.botThreshold]

theorem bucket_inserted_self (q : Calqueue α) (n : Node α) :
    (inserted q n).bucket (bucketOf q n.priority) =
      place n (q.bucket (bucketOf q n.priority)) :=
  bucket_setCalendar_self q (bucketOf q n.priority)
    (place n (q.bucket (bucketOf q n.priority)))

theorem bucket_inserted_ne (q : Calqueue α) {n : Node α} {i : ℤ}
    (h : i ≠ bucketOf q n.priority) : (inserted q n).bucket i = q.bucket i :=
  bucket_setCalendar_ne q h _

/-- An insertion into the window writes nothing outside of it. -/
theorem sameControl_of_mem {q : Calqueue α} {n : Node α} (h0 : 0 ≤ bucketOf q n.priority)
    (hlt : bucketOf q n.priority < q.nbuckets) : SameControl q (inserted q n) := by
  refine ⟨rfl, rfl, rfl, rfl, rfl, rfl, rfl, rfl, rfl, rfl, fun k hk => ?_⟩
  have hne : k ≠ q.firstsub + bucketOf q n.priority := by omega
  exact Function.update_of_ne hne _ _

theorem sameControl_inserted {q : Calqueue α} {n : Node α} (h : Layout q)
    (hw : Usable q.cwidth) (hn : 0 ≤ n.priority) : SameControl q (inserted q n) :=
  sameControl_of_mem (bucketOf_mem h hw hn).1 (bucketOf_mem h hw hn).2

theorem insertNode_of_mem {q : Calqueue α} {n : Node α} (h0 : 0 ≤ bucketOf q n.priority)
    (hlt : bucketOf q n.priority < q.nbuckets) : insertNode q n = .ok (inserted q n) := by
  simp [insertNode, calendar_eq q h0 hlt, bind, Except.bind, pure, Except.pure, inserted]

theorem insertNode_eq {q : Calqueue α} {n : Node α} (h : Layout q) (hw : Usable q.cwidth)
    (hn : 0 ≤ n.priority) : insertNode q n = .ok (inserted q n) :=
  insertNode_of_mem (bucketOf_mem h hw hn).1 (bucketOf_mem h hw hn).2

/-- An insertion into the window adds its node to the stored ones. -/
theorem stored_inserted_of_mem {q : Calqueue α} {n : Node α} (h0 : 0 ≤ bucketOf q n.priority)
    (hlt : bucketOf q n.priority < q.nbuckets) : stored (inserted q n) = n ::ₘ stored q := by
  have hset := stored_setCalendar q h0 hlt (place n (q.bucket (bucketOf q n.priority)))
  rw [Multiset.coe_eq_coe.mpr (place_perm n _), ← Multiset.cons_coe, Multiset.add_cons,
    ← Multiset.cons_add] at hset
  exact add_right_cancel hset

theorem stored_inserted {q : Calqueue α} {n : Node α} (h : Layout q) (hw : Usable q.cwidth)
    (hn : 0 ≤ n.priority) : stored (inserted q n) = n ::ₘ stored q :=
  stored_inserted_of_mem (bucketOf_mem h hw hn).1 (bucketOf_mem h hw hn).2

theorem Sound.inserted {q : Calqueue α} {n : Node α} (h : Sound q) (hn : 0 ≤ n.priority) :
    Sound (inserted q n) where
  toLayout := h.toLayout.of_sameControl (sameControl_inserted h.toLayout h.width hn)
  size := by
    have := h.size
    rw [stored_inserted h.toLayout h.width hn, Multiset.card_cons]
    change q.qsize + 1 = _
    omega
  nonneg := by
    rw [stored_inserted h.toLayout h.width hn]
    intro m hm
    rcases Multiset.mem_cons.mp hm with rfl | hm
    · exact hn
    · exact h.nonneg m hm
  lastprio_nonneg := h.lastprio_nonneg
  width := h.width

/-- What a list of insertions keeps and what it adds. -/
theorem insertAll_spec {l : List (Node α)} :
    ∀ {q : Calqueue α}, Sound q → (∀ n ∈ l, 0 ≤ n.priority) →
      Sound (insertAll q l) ∧ SameControl q (insertAll q l) ∧
        stored (insertAll q l) = ↑l + stored q ∧
        (insertAll q l).qsize = q.qsize + l.length := by
  induction l with
  | nil => intro q h _; exact ⟨h, .refl q, by simp [insertAll], by simp [insertAll]⟩
  | cons n rest ih =>
    intro q h hn
    have hn0 : 0 ≤ n.priority := hn n (by simp)
    obtain ⟨hs, hc, hst, hsz⟩ := ih (h.inserted hn0) (fun m hm => hn m (by simp [hm]))
    refine ⟨hs, (sameControl_inserted h.toLayout h.width hn0).trans hc, ?_, ?_⟩
    · change stored (insertAll (CalQueue.inserted q n) rest) = _
      rw [hst, stored_inserted h.toLayout h.width hn0, Multiset.add_cons, ← Multiset.cons_coe,
        Multiset.cons_add]
    · change (insertAll (CalQueue.inserted q n) rest).qsize = _
      rw [hsz]
      change q.qsize + 1 + (rest.length : ℤ) = _
      push_cast [List.length_cons]
      ring

/-- A `resize` that does nothing while `resizeEnabled` is cleared. -/
def Idle (rsz : Calqueue α → ℤ → Except Fault (Calqueue α)) : Prop :=
  ∀ q n, q.resizeEnabled = false → rsz q n = .ok q

theorem idle_resize (levels : ℕ) : Idle (resize (α := α) levels) := by
  intro q n hq
  cases levels with
  | zero => simp [resize, hq]
  | succ levels => simp [resize, hq, pure, Except.pure]

/-- Puts that cannot grow the calendar are insertions: the resizing is disabled,
or the calendar has room for all the nodes. -/
theorem putAll_eq {rsz : Calqueue α → ℤ → Except Fault (Calqueue α)} (hidle : Idle rsz)
    {l : List (Node α)} :
    ∀ {q : Calqueue α}, Sound q → (∀ n ∈ l, 0 ≤ n.priority) →
      (q.resizeEnabled = false ∨ q.qsize + l.length ≤ q.topThreshold) →
      putAll (putWith rsz) l q = .ok (insertAll q l) := by
  induction l with
  | nil => intro q _ _ _; rfl
  | cons n rest ih =>
    intro q h hn hroom
    have hn0 : 0 ≤ n.priority := hn n (by simp)
    have hput : putWith rsz q n = .ok (inserted q n) := by
      simp only [putWith, insertNode_eq h.toLayout h.width hn0, bind, Except.bind]
      rcases hroom with hoff | hroom
      · rw [hidle _ _ (show (inserted q n).resizeEnabled = false from hoff)]
        split <;> rfl
      · have hg : growing (inserted q n) = false := by
          have : ¬ q.topThreshold < q.qsize + 1 := by
            push_cast [List.length_cons] at hroom
            omega
          change (decide (q.topThreshold < q.qsize + 1) && _) = false
          simp [this]
        simp [hg, pure, Except.pure]
    have hrest := ih (h.inserted hn0) (fun m hm => hn m (by simp [hm])) (by
      rcases hroom with hoff | hroom
      · exact Or.inl hoff
      · refine Or.inr ?_
        change q.qsize + 1 + (rest.length : ℤ) ≤ q.topThreshold
        push_cast [List.length_cons] at hroom
        omega)
    rw [putAll, hput]
    exact hrest

end LinuxFibers.CalQueue
