import LinuxFibers.CalQueue.Sorted
import LinuxFibers.CalQueue.Window

/-!
# The virtual bucket of a priority

The quotient of a priority and the width is its virtual bucket.  `localinit`
converts it to a `long` and `calqueue_put` to an `int`, and nothing bounds the
priorities.  `virtualBucket_agrees_iff` says that the two agree for the
priorities below `2 ^ 31` widths and for no others, in every queue with a
positive width.  Only the window size and the width matter (`Bucketed`), so the
result holds behind a call that left the window as well.

Above that bound the conversion gives the least `int`.  Every window size
divides it, so the event goes to bucket 0, and `bucketOf_eq_virtual_iff` says
when that is still the right one.
-/

namespace LinuxFibers.CalQueue

open LinuxFibers.Lib

variable {α : Type}

/-- The virtual bucket of the event fits an `int`, `calqueue_put` stores the
event in that bucket of the year, and `localinit` makes this bucket current for
the priority of the event. -/
structure VirtualBucketAgrees (q : Calqueue α) (w : ℚ) (n : Node α) : Prop where
  fits : -2 ^ 31 ≤ ⌊n.priority / w⌋ ∧ ⌊n.priority / w⌋ < 2 ^ 31
  stored : ∃ q', insertNode q n = .ok q' ∧
    q'.bucket (⌊n.priority / w⌋ % q.nbuckets) =
      place n (q.bucket (⌊n.priority / w⌋ % q.nbuckets))
  current : ∀ (m : Calqueue α) (base : ℤ),
    (localinit m base q.nbuckets q.cwidth n.priority).lastbucket =
      ⌊n.priority / w⌋ % q.nbuckets

theorem floor_div_lt_int {w p : ℚ} (hw : 0 < w) : ⌊p / w⌋ < 2 ^ 31 ↔ p < 2 ^ 31 * w := by
  have h := floor_div_lt (m := 2 ^ 31) (p := p) hw
  push_cast at h
  exact h

/-- The window has one of the fifteen sizes, and the width is a number or
not-a-number. -/
structure Bucketed (q : Calqueue α) : Prop where
  nbuckets : ∃ k : ℕ, 1 ≤ k ∧ k ≤ 15 ∧ q.nbuckets = 2 ^ k
  width : Numeric q.cwidth

section Bucketed

variable {q : Calqueue α} {w : ℚ}

/-- The bucket of a priority is its virtual bucket of the year, for all
priorities whose virtual bucket fits an `int`, and for those beyond whose
virtual bucket is the first of a year. -/
theorem bucketOf_eq_virtual_iff (h : Bucketed q) (hw : 0 < w) (hc : q.cwidth = .fin w) {p : ℚ}
    (hp : 0 ≤ p) :
    bucketOf q p = ⌊p / w⌋ % q.nbuckets ↔ p < 2 ^ 31 * w ∨ ⌊p / w⌋ % q.nbuckets = 0 := by
  rw [bucketOf_of_size h.nbuckets hw hc hp, ← floor_div_lt_int hw]
  split
  · rename_i hlt
    exact ⟨fun _ => Or.inl hlt, fun _ => rfl⟩
  · rename_i hlarge
    exact ⟨fun hzero => Or.inr hzero.symm, fun hor => (hor.resolve_left hlarge).symm⟩

theorem virtualBucketAgrees_of_lt (h : Bucketed q) (hw : 0 < w) (hc : q.cwidth = .fin w)
    {n : Node α} (hn : 0 ≤ n.priority) (hlt : n.priority < 2 ^ 31 * w) :
    VirtualBucketAgrees q w n := by
  have hfloor : 0 ≤ ⌊n.priority / w⌋ := Int.floor_nonneg.mpr (div_nonneg hn hw.le)
  have hint : ⌊n.priority / w⌋ < 2 ^ 31 := (floor_div_lt_int hw).mpr hlt
  have hbucket : bucketOf q n.priority = ⌊n.priority / w⌋ % q.nbuckets :=
    (bucketOf_eq_virtual_iff h hw hc hn).mpr (Or.inl hlt)
  have h2 := (two_le_size h.nbuckets).1
  have h0 : 0 ≤ ⌊n.priority / w⌋ % q.nbuckets := Int.emod_nonneg _ (by omega)
  have hn' : ⌊n.priority / w⌋ % q.nbuckets < q.nbuckets := Int.emod_lt_of_pos _ (by omega)
  rw [← hbucket] at h0 hn'
  refine ⟨⟨by omega, hint⟩, ⟨inserted q n, insertNode_of_mem h0 hn', ?_⟩, fun m base => ?_⟩
  · rw [← hbucket]
    exact bucket_inserted_self q n
  · rw [hc]
    exact (lastbucket_localinit m base q.nbuckets hw hn (by omega)).2

end Bucketed

/-- Every reachable queue has such a window and width, and in every queue that
has them, with a positive width, the events whose virtual buckets agree are those
with a priority below `2 ^ 31` widths. -/
theorem virtualBucket_agrees_iff :
    (∀ (m q : Calqueue α) (ops : List (Op α)), Run CallStep (calqueueInit m) ops q →
      Bucketed q) ∧
      ∀ q : Calqueue α, Bucketed q → ExactDouble.lt (.fin 0) q.cwidth = true →
        ∃ w : ℚ, q.cwidth = .fin w ∧ 0 < w ∧ ∀ n : Node α, 0 ≤ n.priority →
          (VirtualBucketAgrees q w n ↔ n.priority < 2 ^ 31 * w) := by
  refine ⟨fun m q ops h => ?_, fun q h hpos => ?_⟩
  · obtain ⟨hsettled, hnum⟩ := reachable_run h
    exact ⟨hsettled.nbuckets, hnum⟩
  · rcases h.width with hnan | ⟨w, hc⟩
    · rw [hnan] at hpos
      cases hpos
    · have hw : 0 < w := by
        rw [hc] at hpos
        exact of_decide_eq_true hpos
      refine ⟨w, hc, hw, fun n hn => ⟨fun hagree => ?_, fun hlt => ?_⟩⟩
      · exact (floor_div_lt_int hw).mp hagree.fits.2
      · exact virtualBucketAgrees_of_lt h hw hc hn hlt

/-- `virtualBucket_agrees_iff` after five puts that grow the calendar, which
leaves the width 3. -/
theorem virtualBucket_agrees_iff_grown :
    ∃ q : Calqueue ℕ, q.cwidth = .fin 3 ∧ q.nbuckets = 4 ∧
      (VirtualBucketAgrees q 3 ⟨6442450943, 5⟩ ∧ ¬ VirtualBucketAgrees q 3 ⟨6442450944, 5⟩) := by
  obtain ⟨q, hrun, hp⟩ := Lib.exists_run call (fun _ _ => true) (calqueueInit (blank ℕ))
    [.put ⟨0, 0⟩, .put ⟨1, 1⟩, .put ⟨2, 2⟩, .put ⟨3, 3⟩, .put ⟨4, 4⟩]
    (fun q => decide (q.cwidth = .fin 3) && decide (q.nbuckets = 4)) (by decide +kernel)
  obtain ⟨hwidth, hn⟩ := Bool.and_eq_true_iff.mp hp
  have hc : q.cwidth = .fin 3 := of_decide_eq_true hwidth
  obtain ⟨hreach, hagree⟩ := virtualBucket_agrees_iff (α := ℕ)
  have hbucketed := hreach _ _ _ (hrun.mono fun _ _ _ hs => hs.2)
  obtain ⟨w, hw, _, hiff⟩ := hagree q hbucketed (by rw [hc]; decide +kernel)
  cases ExactDouble.fin.inj (hc.symm.trans hw)
  refine ⟨q, hc, of_decide_eq_true hn, ?_, fun hagree => ?_⟩
  · exact (hiff ⟨6442450943, 5⟩ (by norm_num)).mpr (by norm_num)
  · exact absurd ((hiff ⟨6442450944, 5⟩ (by norm_num)).mp hagree) (by norm_num)

/-- The first put of a run, at 2147483649.  The virtual bucket is odd and
`localinit` makes bucket 1 current for the priority, and `calqueue_put` stores
the event in bucket 0. -/
theorem calqueuePut_misses_virtualBucket :
    ∃ q q' : Calqueue ℕ, Run CallStep (calqueueInit (blank ℕ)) [] q ∧ q.cwidth = .fin 1 ∧
      calqueuePut q 2147483649 7 = .ok q' ∧ q'.bucket 0 = [⟨2147483649, 7⟩] ∧
      q'.bucket 1 = [] ∧ ⌊(2147483649 : ℚ) / 1⌋ % q.nbuckets = 1 ∧
      (localinit q 0 q.nbuckets q.cwidth 2147483649).lastbucket = 1 ∧
      ¬ VirtualBucketAgrees q 1 ⟨2147483649, 7⟩ := by
  refine ⟨calqueueInit (blank ℕ), inserted (calqueueInit (blank ℕ)) ⟨2147483649, 7⟩, .nil, rfl,
    putWith_inserted (by decide +kernel) (by decide +kernel) (Or.inl (by decide +kernel)) 1,
    by decide +kernel, by decide +kernel, by decide +kernel, by decide +kernel, fun hagree => ?_⟩
  exact absurd hagree.fits.2 (by decide +kernel)

end LinuxFibers.CalQueue
