import LinuxFibers.CalQueue.Basic
import Mathlib.Algebra.BigOperators.Group.Multiset.Basic
import Mathlib.Algebra.BigOperators.Group.Finset.Basic
import Mathlib.Algebra.Order.BigOperators.Group.Multiset
import Mathlib.Data.Multiset.AddSub
import Mathlib.Data.Multiset.Sort

/-!
# The nodes of a window

`stored q` is the multiset of the nodes that are reachable in the buckets of
the current window.  This module says how the writes of the queue change it:
`place` adds one node to a bucket, `takeNode` drops the head of a bucket, and
`localinit` leaves an empty window.

The last group is the direct search and the scan, which only read.
`scan_spec` gives every round of the loop of `calqueueDeq` with the bucket
top it compares against, and `directSearch_spec` says that the direct search
finds a bucket with the least head.
-/

namespace LinuxFibers.CalQueue

open LinuxFibers.Lib

variable {α : Type}

/-- The nodes of the `n` slots from `base` on. -/
def contents (calq : ℤ → List (Node α)) (base : ℤ) (n : ℕ) : Multiset (Node α) :=
  ∑ i ∈ Finset.range n, (calq (base + i) : Multiset (Node α))

/-- The nodes of the current window. -/
def stored (q : Calqueue α) : Multiset (Node α) :=
  contents q.calq q.firstsub q.nbuckets.toNat

/-! ## Reads and writes of one bucket -/

theorem bucket_setCalendar_self (q : Calqueue α) (i : ℤ) (l : List (Node α)) :
    (q.setCalendar i l).bucket i = l := by
  simp [Calqueue.bucket, Calqueue.setCalendar]

theorem bucket_setCalendar_ne (q : Calqueue α) {i j : ℤ} (h : j ≠ i) (l : List (Node α)) :
    (q.setCalendar i l).bucket j = q.bucket j := by
  simp [Calqueue.bucket, Calqueue.setCalendar, h]

theorem calendar_eq (q : Calqueue α) {i : ℤ} (h0 : 0 ≤ i) (hn : i < q.nbuckets) :
    q.calendar i = .ok (q.bucket i) :=
  if_pos (Or.inl ⟨h0, hn⟩)

/-- No slot outside of the window is marked as usable. -/
def Confined (q : Calqueue α) : Prop := ∀ k, q.held k = false

theorem confined_localinit (q : Calqueue α) (qbase nbucks : ℤ) (w : ExactDouble) (p : ℚ) :
    Confined (localinit q qbase nbucks w p) :=
  fun _ => rfl

theorem calendar_ok {q : Calqueue α} {i : ℤ} {l : List (Node α)} (h : q.calendar i = .ok l) :
    q.bucket i = l := by
  rw [Calqueue.calendar] at h
  split at h
  · exact Except.ok.inj h
  · cases h

theorem Confined.calendar_outside {q : Calqueue α} (h : Confined q) {i : ℤ}
    (hi : ¬ (0 ≤ i ∧ i < q.nbuckets)) : q.calendar i = .error (.calendarIndex i) := by
  refine if_neg fun hor => ?_
  rcases hor with hin | hheld
  · exact hi hin
  · rw [h] at hheld
    cases hheld

/-- A read that returns is a read of the window. -/
theorem Confined.mem_of_ok {q : Calqueue α} (h : Confined q) {i : ℤ} {l : List (Node α)}
    (hread : q.calendar i = .ok l) : 0 ≤ i ∧ i < q.nbuckets := by
  by_contra hi
  rw [h.calendar_outside hi] at hread
  cases hread

theorem mem_contents {calq : ℤ → List (Node α)} {base : ℤ} {n : ℕ} {e : Node α} :
    e ∈ contents calq base n ↔ ∃ i : ℕ, i < n ∧ e ∈ calq (base + i) := by
  simp [contents, Multiset.mem_sum]

theorem mem_stored {q : Calqueue α} {e : Node α} :
    e ∈ stored q ↔ ∃ i, 0 ≤ i ∧ i < q.nbuckets ∧ e ∈ q.bucket i := by
  rw [stored, mem_contents]
  constructor
  · rintro ⟨i, hi, he⟩
    exact ⟨i, by omega, by omega, he⟩
  · rintro ⟨i, h0, hn, he⟩
    refine ⟨i.toNat, by omega, ?_⟩
    rwa [Int.toNat_of_nonneg h0]

/-- The write of one bucket exchanges the old list for the new one. -/
theorem contents_update (calq : ℤ → List (Node α)) (base : ℤ) {n k : ℕ} (hk : k < n)
    (l : List (Node α)) :
    contents (Function.update calq (base + k) l) base n + calq (base + k) =
      contents calq base n + l := by
  have hmem : k ∈ Finset.range n := Finset.mem_range.mpr hk
  have hrest : ∀ i ∈ (Finset.range n).erase k,
      (Function.update calq (base + k) l (base + i) : Multiset (Node α)) = calq (base + i) := by
    intro i hi
    have hne : base + (i : ℤ) ≠ base + k := by
      have := Finset.ne_of_mem_erase hi
      omega
    rw [Function.update_of_ne hne]
  rw [contents, contents, ← Finset.add_sum_erase _ _ hmem, ← Finset.add_sum_erase _ _ hmem,
    Finset.sum_congr rfl hrest, Function.update_self]
  abel

theorem stored_setCalendar (q : Calqueue α) {i : ℤ} (h0 : 0 ≤ i) (hn : i < q.nbuckets)
    (l : List (Node α)) :
    stored (q.setCalendar i l) + q.bucket i = stored q + l := by
  have h := contents_update q.calq q.firstsub (show i.toNat < q.nbuckets.toNat by omega) l
  rw [Int.toNat_of_nonneg h0] at h
  exact h

/-- `localinit` leaves no node in its window. -/
theorem stored_localinit (q : Calqueue α) (qbase nbucks : ℤ) (w : ExactDouble) (p : ℚ) :
    stored (localinit q qbase nbucks w p) = 0 := by
  rw [stored, contents]
  refine Finset.sum_eq_zero fun i hi => ?_
  have hi' : (i : ℤ) < nbucks := by
    have := Finset.mem_range.mp hi
    simp only [localinit] at this
    omega
  simp [localinit, hi']

/-! ## The place of a new node -/

theorem placeAfter_perm (n : Node α) (l : List (Node α)) :
    (placeAfter n l).Perm (n :: l) := by
  induction l with
  | nil => exact List.Perm.refl _
  | cons t rest ih =>
    rw [placeAfter]
    split
    · exact (ih.cons t).trans (List.Perm.swap n t rest)
    · exact List.Perm.refl _

/-- `place` adds the new node and keeps the others. -/
theorem place_perm (n : Node α) (l : List (Node α)) : (place n l).Perm (n :: l) := by
  cases l with
  | nil => exact List.Perm.refl _
  | cons t rest =>
    rw [place]
    split
    · exact List.Perm.refl _
    · exact ((placeAfter_perm n rest).cons t).trans (List.Perm.swap n t rest)

/-- The nodes of a bucket list in order of priority. -/
def Ascending (l : List (Node α)) : Prop := l.Pairwise fun a b => a.priority ≤ b.priority

theorem placeAfter_ascending {n : Node α} {l : List (Node α)} (h : Ascending l) :
    Ascending (placeAfter n l) := by
  induction l with
  | nil => exact List.pairwise_singleton _ _
  | cons t rest ih =>
    have hc := List.pairwise_cons.mp h
    rw [placeAfter]
    split
    · rename_i hle
      refine List.pairwise_cons.mpr ⟨fun b hb => ?_, ih hc.2⟩
      rcases List.mem_cons.mp ((placeAfter_perm n rest).mem_iff.mp hb) with rfl | hb
      · exact hle
      · exact hc.1 b hb
    · rename_i hlt
      have hn : n.priority ≤ t.priority := le_of_lt (not_le.mp hlt)
      refine List.pairwise_cons.mpr ⟨fun b hb => ?_, h⟩
      rcases List.mem_cons.mp hb with rfl | hb
      · exact hn
      · exact hn.trans (hc.1 b hb)

/-- `place` keeps a bucket in order. -/
theorem place_ascending {n : Node α} {l : List (Node α)} (h : Ascending l) :
    Ascending (place n l) := by
  cases l with
  | nil => exact List.pairwise_singleton _ _
  | cons t rest =>
    have hc := List.pairwise_cons.mp h
    rw [place]
    split
    · rename_i hlt
      refine List.pairwise_cons.mpr ⟨fun b hb => ?_, h⟩
      rcases List.mem_cons.mp hb with rfl | hb
      · exact hlt.le
      · exact hlt.le.trans (hc.1 b hb)
    · rename_i hge
      refine List.pairwise_cons.mpr ⟨fun b hb => ?_, placeAfter_ascending hc.2⟩
      rcases List.mem_cons.mp ((placeAfter_perm n rest).mem_iff.mp hb) with rfl | hb
      · exact not_lt.mp hge
      · exact hc.1 b hb

/-! ## The scan of one year -/

/-- The bucket that the scan looks at in round `k`. -/
def wrap (q : Calqueue α) (k : ℕ) : ℤ :=
  if q.lastbucket + k < q.nbuckets then q.lastbucket + k else q.lastbucket + k - q.nbuckets

/-- The bucket top that the scan compares against in round `k`. -/
def topAt (q : Calqueue α) : ℕ → ExactDouble
  | 0 => q.buckettop
  | k + 1 => topAt q k + q.cwidth

/-- The scan finds something to take in round `k`. -/
def Hit (q : Calqueue α) (k : ℕ) : Prop := headBelow (topAt q k) (q.bucket (wrap q k)) = true

theorem wrap_mem {q : Calqueue α} {k : ℕ} (h0 : 0 ≤ q.lastbucket)
    (hl : q.lastbucket < q.nbuckets) (hk : k < q.nbuckets.toNat) :
    0 ≤ wrap q k ∧ wrap q k < q.nbuckets := by
  unfold wrap
  split <;> omega

private theorem scan_spec_aux {q : Calqueue α} (h0 : 0 ≤ q.lastbucket)
    (hl : q.lastbucket < q.nbuckets) (rounds : ℕ) :
    ∀ k : ℕ, 0 < rounds → k + rounds = q.nbuckets.toNat → (∀ j < k, ¬ Hit q j) →
      (∃ m < q.nbuckets.toNat, scan q rounds (wrap q k) (topAt q k) =
          .ok (some (wrap q m), topAt q m) ∧ Hit q m ∧ ∀ j < m, ¬ Hit q j) ∨
        scan q rounds (wrap q k) (topAt q k) = .ok (none, topAt q q.nbuckets.toNat) ∧
          ∀ j < q.nbuckets.toNat, ¬ Hit q j := by
  induction rounds with
  | zero => intro k hr; omega
  | succ rounds ih =>
    intro k _ hk hmiss
    obtain ⟨hw0, hwn⟩ := wrap_mem h0 hl (show k < q.nbuckets.toNat by omega)
    have hread : q.calendar (wrap q k) = .ok (q.bucket (wrap q k)) := calendar_eq q hw0 hwn
    by_cases hhit : Hit q k
    · refine Or.inl ⟨k, by omega, ?_, hhit, hmiss⟩
      rw [scan, hread]
      have hb : headBelow (topAt q k) (q.bucket (wrap q k)) = true := hhit
      simp [hb, bind, Except.bind, pure, Except.pure]
    · have hb : headBelow (topAt q k) (q.bucket (wrap q k)) = false :=
        Bool.eq_false_iff.mpr hhit
      have hmiss' : ∀ j < k + 1, ¬ Hit q j := fun j hj => by
        rcases Nat.lt_succ_iff_lt_or_eq.mp hj with h | rfl
        · exact hmiss j h
        · exact hhit
      have hnext : (if wrap q k + 1 = q.nbuckets then 0 else wrap q k + 1) =
          if k + 1 = q.nbuckets.toNat then q.lastbucket else wrap q (k + 1) := by
        unfold wrap
        push_cast
        split_ifs <;> omega
      have hstep : scan q (rounds + 1) (wrap q k) (topAt q k) =
          if k + 1 = q.nbuckets.toNat then .ok (none, topAt q (k + 1))
          else scan q rounds (wrap q (k + 1)) (topAt q (k + 1)) := by
        rw [scan, hread]
        simp only [hb, bind, Except.bind, hnext]
        by_cases hlast : k + 1 = q.nbuckets.toNat
        · simp [hlast, pure, Except.pure, topAt]
        · have hne : wrap q (k + 1) ≠ q.lastbucket := by
            unfold wrap
            push_cast
            split_ifs <;> omega
          simp [hlast, hne, topAt]
      rw [hstep]
      by_cases hlast : k + 1 = q.nbuckets.toNat
      · rw [if_pos hlast, ← hlast]
        exact Or.inr ⟨rfl, hmiss'⟩
      · rw [if_neg hlast]
        exact ih (k + 1) (by omega) (by omega) hmiss'

/-- The scan of `calqueueDeq` takes from the first bucket of the year whose
head is below the top of that round, and reports no bucket when no round finds
one. -/
theorem scan_spec {q : Calqueue α} (h0 : 0 ≤ q.lastbucket) (hl : q.lastbucket < q.nbuckets) :
    (∃ m < q.nbuckets.toNat, scan q q.nbuckets.toNat q.lastbucket q.buckettop =
        .ok (some (wrap q m), topAt q m) ∧ Hit q m ∧ ∀ j < m, ¬ Hit q j) ∨
      scan q q.nbuckets.toNat q.lastbucket q.buckettop =
          .ok (none, topAt q q.nbuckets.toNat) ∧
        ∀ j < q.nbuckets.toNat, ¬ Hit q j := by
  have h := scan_spec_aux h0 hl q.nbuckets.toNat 0 (by omega) (by omega)
    (fun j hj => absurd hj (Nat.not_lt_zero j))
  have hw : wrap q 0 = q.lastbucket := by
    unfold wrap
    split <;> push_cast <;> omega
  rwa [hw, topAt] at h

/-! ## The direct search -/

/-- The direct search over `k` buckets: it found nothing and all are empty, or
it found the bucket with the least head. -/
theorem directSearch_spec (q : Calqueue α) (k : ℕ) :
    ((directSearch q k).1 = -1 ∧ ∀ i : ℕ, i < k → q.bucket i = []) ∨
      ∃ i : ℕ, i < k ∧ (directSearch q k).1 = i ∧ ∃ e rest, q.bucket i = e :: rest ∧
        (directSearch q k).2 = e.priority ∧
        ∀ j : ℕ, j < k → ∀ f rest', q.bucket j = f :: rest' → e.priority ≤ f.priority := by
  induction k with
  | zero => exact Or.inl ⟨rfl, fun i hi => absurd hi (Nat.not_lt_zero i)⟩
  | succ k ih =>
    rw [directSearch]
    cases hb : q.bucket k with
    | nil =>
      simp only [lowerHead]
      rcases ih with ⟨h1, hall⟩ | ⟨i, hi, h1, e, rest, he, h2, hmin⟩
      · refine Or.inl ⟨h1, fun i hi => ?_⟩
        rcases Nat.lt_succ_iff_lt_or_eq.mp hi with h | rfl
        · exact hall i h
        · exact hb
      · refine Or.inr ⟨i, by omega, h1, e, rest, he, h2, fun j hj f rest' hf => ?_⟩
        rcases Nat.lt_succ_iff_lt_or_eq.mp hj with h | rfl
        · exact hmin j h f rest' hf
        · rw [hb] at hf
          exact absurd hf (List.cons_ne_nil _ _).symm
    | cons f rest =>
      have hsame : ∀ g rest', q.bucket k = g :: rest' → g = f := fun g rest' hg => by
        rw [hb] at hg
        exact (List.cons.inj hg).1.symm
      rcases ih with ⟨h1, hall⟩ | ⟨i, hi, h1, e, rest', he, h2, hmin⟩
      · simp only [lowerHead, h1, true_or, if_true]
        refine Or.inr ⟨k, by omega, rfl, f, rest, hb, rfl, fun j hj g rest' hg => ?_⟩
        rcases Nat.lt_succ_iff_lt_or_eq.mp hj with h | rfl
        · rw [hall j h] at hg
          exact absurd hg (List.cons_ne_nil _ _).symm
        · rw [hsame g rest' hg]
      · have hne : (directSearch q k).1 ≠ -1 := by rw [h1]; omega
        simp only [lowerHead, hne, false_or, h2]
        by_cases hlt : f.priority < e.priority
        · rw [if_pos hlt]
          refine Or.inr ⟨k, by omega, rfl, f, rest, hb, rfl, fun j hj g rest'' hg => ?_⟩
          rcases Nat.lt_succ_iff_lt_or_eq.mp hj with h | rfl
          · exact hlt.le.trans (hmin j h g rest'' hg)
          · rw [hsame g rest'' hg]
        · rw [if_neg hlt]
          refine Or.inr ⟨i, by omega, h1, e, rest', he, h2, fun j hj g rest'' hg => ?_⟩
          rcases Nat.lt_succ_iff_lt_or_eq.mp hj with h | rfl
          · exact hmin j h g rest'' hg
          · rw [hsame g rest'' hg]
            exact not_lt.mp hlt

end LinuxFibers.CalQueue
