import LinuxFibers.CalQueue.Window
import Mathlib.Data.List.Sort

/-!
# The width of a bucket

`new_width` averages the separations of the events that it samples, drops the
ones that are not below twice the average, and averages the rest.  The rest can
be empty or add up to zero.  After a dequeue that jumps the sample can also be
out of order, and the rest negative.

Two conditions on the queue before the resize rule this out.  `samplesInOrder`
says that no dequeue of the sample jumps, the last one aside.  The sample is
then the least events that are stored (`sampled_priorities`).  `closeGap` is a
condition on the stored priorities alone: two neighbours among the least ones
differ, and by less than twice the mean difference.

`widthFound_iff` is the exact condition for one call of `new_width` that samples
in order, and `newWidth_positive` is about the runs of the queue.
-/

namespace LinuxFibers.CalQueue

open LinuxFibers.Lib

variable {α : Type}

/-! ## The stored priorities -/

/-- The stored priorities in ascending order. -/
def priorities (q : Calqueue α) : List ℚ :=
  ((copyOrder q.calq q.firstsub q.nbuckets.toNat).map Node.priority).insertionSort (· ≤ ·)

/-- The differences of neighbours. -/
def gaps : List ℚ → List ℚ
  | a :: b :: rest => (b - a) :: gaps (b :: rest)
  | _ => []

/-- The distance from the first number to the last. -/
def span (l : List ℚ) : ℚ := l.getLast?.getD 0 - l.head?.getD 0

/-- Two neighbours differ, by less than twice the mean difference. -/
def hasCloseGap (l : List ℚ) : Bool :=
  (gaps l).any fun g => decide (0 < g) && decide (g * ((l.length : ℚ) - 1) < 2 * span l)

/-- The least priorities, as many as `new_width` samples, have a close gap.  A
queue of less than two events is not sampled. -/
def closeGap (q : Calqueue α) : Bool :=
  decide (q.qsize < 2) || hasCloseGap ((priorities q).take (nsamples q).toNat)

/-- The first `n` dequeues do not jump, the last of them aside. -/
def staysFor : ℕ → Calqueue α → Bool
  | n + 2, q => !decide (Jumps q) &&
      match takeNext q with
      | .ok (_, q₁) => staysFor (n + 1) q₁
      | .error _ => true
  | _, _ => true

/-- The dequeues of `new_width` do not jump, the last one aside. -/
def samplesInOrder (q : Calqueue α) : Bool :=
  staysFor (nsamples q).toNat { q with resizeEnabled := false }

/-- The events that `new_width` samples from `q`, in the order of the
dequeues. -/
def sampled (q : Calqueue α) : List (Node α) :=
  match sample (deqWith (resize 0)) (nsamples q).toNat { q with resizeEnabled := false } with
  | .ok (temp, _) => temp
  | .error _ => []

/-- The call of `new_width` on `q` divides by no zero and returns a positive
width. -/
structure WidthFound (q : Calqueue α) : Prop where
  divisors : 2 ≤ q.qsize → nsamples q - 1 ≠ 0 ∧ (closeSeparations (sampled q)).length ≠ 0
  width : ∃ w q', newWidthWith (resize 0) q = .ok (.fin w, q') ∧ 0 < w

/-! ## The separations of a sample -/

theorem separations_eq_gaps (temp : List (Node α)) :
    separations temp = gaps (temp.map Node.priority) := by
  induction temp with
  | nil => rfl
  | cons a rest ih =>
    cases rest with
    | nil => rfl
    | cons b rest =>
      rw [separations, ih]
      rfl

/-- The gaps add up to the distance that they cover. -/
theorem sum_gaps (l : List ℚ) : (gaps l).sum = span l := by
  induction l with
  | nil => exact (sub_self 0).symm
  | cons a rest ih =>
    cases rest with
    | nil => exact (sub_self a).symm
    | cons b rest =>
      rw [gaps, List.sum_cons, ih]
      show b - a + (_ - b) = _ - a
      rw [List.getLast?_cons_cons]
      ring

theorem gaps_nonneg {l : List ℚ} (h : l.Pairwise (· ≤ ·)) : ∀ g ∈ gaps l, 0 ≤ g := by
  induction l with
  | nil => exact fun g hg => absurd hg List.not_mem_nil
  | cons a rest ih =>
    cases rest with
    | nil => exact fun g hg => absurd hg List.not_mem_nil
    | cons b rest =>
      intro g hg
      rcases List.mem_cons.mp hg with heq | hg
      · rw [heq]
        exact sub_nonneg.mpr ((List.pairwise_cons.mp h).1 b List.mem_cons_self)
      · exact ih (List.pairwise_cons.mp h).2 g hg

/-- A sum without negative numbers is positive when one of them is. -/
theorem sum_pos_iff_exists {l : List ℚ} (h : ∀ x ∈ l, 0 ≤ x) :
    0 < l.sum ↔ ∃ x ∈ l, 0 < x := by
  constructor
  · intro hsum
    by_contra hnone
    push Not at hnone
    have hzero : l.sum = 0 :=
      List.sum_eq_zero fun x hx => le_antisymm (hnone x hx) (h x hx)
    exact absurd hsum (by rw [hzero]; exact lt_irrefl 0)
  · intro hex
    obtain ⟨x, hx, hpos⟩ := hex
    exact hpos.trans_le (List.single_le_sum h x hx)

section Ascending

variable {temp : List (Node α)}

theorem closeSeparations_nonneg_of_ascending (h : Ascending temp) :
    ∀ s ∈ closeSeparations temp, 0 ≤ s := by
  intro s hs
  have hmem : s ∈ separations temp := (List.mem_filter.mp hs).1
  rw [separations_eq_gaps] at hmem
  exact gaps_nonneg (List.pairwise_map.mpr h) s hmem

/-- The close separations of a sample in order do not all vanish exactly when
its priorities have a close gap. -/
theorem sum_close_pos_iff (h : Ascending temp) (hlen : 2 ≤ temp.length) :
    0 < (closeSeparations temp).sum ↔ hasCloseGap (temp.map Node.priority) = true := by
  have hmean : ∀ s : ℚ, s < average temp * 2 ↔
      s * ((temp.length : ℚ) - 1) < 2 * span (temp.map Node.priority) := by
    intro s
    have hpos : (0 : ℚ) < (temp.length : ℚ) - 1 := by
      have : (2 : ℚ) ≤ temp.length := by exact_mod_cast hlen
      linarith
    rw [average, separations_eq_gaps, sum_gaps, div_mul_eq_mul_div, lt_div_iff₀ hpos, mul_comm 2]
  rw [sum_pos_iff_exists (closeSeparations_nonneg_of_ascending h), hasCloseGap, List.any_eq_true]
  simp only [closeSeparations, List.mem_filter, separations_eq_gaps, decide_eq_true_iff, hmean,
    Bool.and_eq_true, List.length_map]
  constructor
  · intro hex
    obtain ⟨s, ⟨hs, hclose⟩, hpos⟩ := hex
    exact ⟨s, hs, hpos, hclose⟩
  · intro hex
    obtain ⟨s, hs, hpos, hclose⟩ := hex
    exact ⟨s, ⟨hs, hclose⟩, hpos⟩

end Ascending

theorem sampledWidth_pos_iff (temp : List (Node α)) :
    (∃ w, sampledWidth temp = .fin w ∧ 0 < w) ↔ 0 < (closeSeparations temp).sum := by
  cases hclose : closeSeparations temp with
  | nil =>
    constructor
    · intro h
      obtain ⟨w, hw, _⟩ := h
      have hnan : sampledWidth temp = .nan := by
        rw [sampledWidth, hclose]
        rfl
      rw [hnan] at hw
      cases hw
    · intro h
      exact absurd h (lt_irrefl 0)
  | cons s rest =>
    have hlen : 0 < ((s :: rest).length : ℚ) := by
      rw [List.length_cons]
      positivity
    have hwidth : sampledWidth temp = .fin ((s :: rest).sum / ((s :: rest).length : ℚ) * 3) := by
      rw [sampledWidth, hclose, ExactDouble.fin_div_fin _ hlen.ne', ExactDouble.fin_mul_fin]
    rw [hwidth]
    constructor
    · intro h
      obtain ⟨w, hw, hpos⟩ := h
      rw [← ExactDouble.fin.inj hw] at hpos
      by_contra hsum
      have hle : (s :: rest).sum / ((s :: rest).length : ℚ) ≤ 0 :=
        div_nonpos_of_nonpos_of_nonneg (not_lt.mp hsum) hlen.le
      linarith
    · intro hsum
      exact ⟨_, rfl, by positivity⟩

/-! ## A sample in order -/

theorem InOrder.disabled {q : Calqueue α} (h : InOrder q) :
    InOrder { q with resizeEnabled := false } :=
  ⟨⟨h.ascending, h.bucket_eq⟩, h.lastprio_le, h.front⟩

/-- Dequeues that do not jump take the least events in order. -/
theorem sample_least {rsz : Calqueue α → ℤ → Except Fault (Calqueue α)} (hidle : Idle rsz)
    (n : ℕ) :
    ∀ {q : Calqueue α}, Sound q → InOrder q → q.resizeEnabled = false → (n : ℤ) ≤ q.qsize →
      staysFor n q = true →
      ∃ temp q', sample (deqWith rsz) n q = .ok (temp, q') ∧ temp.length = n ∧
        stored q = ↑temp + stored q' ∧ Ascending temp ∧
        ∀ e ∈ temp, ∀ f ∈ stored q', e.priority ≤ f.priority := by
  induction n with
  | zero =>
    intro q _ _ _ _ _
    exact ⟨[], q, rfl, rfl, by simp, List.Pairwise.nil, fun e he => absurd he List.not_mem_nil⟩
  | succ n ih =>
    intro q h hin hoff hle hstay
    have hne : q.qsize ≠ 0 := by push_cast at hle; omega
    obtain ⟨i, top, e, rest, h0, hn, _, hb, htake⟩ := takeNext_spec h hne
    have hdeq := deqWith_of_disabled hidle hne htake (by exact hoff)
    have hst := stored_taken h0 hn hb top
    have hleast : ∀ f ∈ stored (taken q i top e rest), e.priority ≤ f.priority := by
      intro f hf
      apply takeNext_least h hin hne htake
      rw [hst]
      exact Multiset.mem_cons_of_mem hf
    cases n with
    | zero =>
      refine ⟨[e], taken q i top e rest, ?_, rfl, by rw [hst]; rfl, List.pairwise_singleton _ _, ?_⟩
      · simp [sample, hdeq, bind, Except.bind, pure, Except.pure]
      · intro f hf
        rw [List.mem_singleton.mp hf]
        exact hleast
    | succ n =>
      obtain ⟨hjump, hrest⟩ := Bool.and_eq_true_iff.mp hstay
      rw [htake] at hrest
      have hin' : InOrder (taken q i top e rest) :=
        takeNext_inOrder h hin hne (by simpa using hjump) htake
      obtain ⟨temp, q', hsample, hlen, hst', hasc, hbelow⟩ :=
        ih (h.taken h0 hn hb top) hin' hoff (by
          show ((n + 1 : ℕ) : ℤ) ≤ q.qsize - 1
          push_cast at hle ⊢
          omega) hrest
      have htail : ∀ f ∈ temp, e.priority ≤ f.priority := fun f hf =>
        hleast f (by rw [hst']; exact Multiset.mem_add.mpr (Or.inl hf))
      refine ⟨e :: temp, q', ?_, by rw [List.length_cons, hlen], ?_,
        List.pairwise_cons.mpr ⟨htail, hasc⟩, fun f hf g hg => ?_⟩
      · rw [sample, hdeq]
        show (sample (deqWith rsz) (n + 1) (taken q i top e rest) >>= _) = _
        rw [hsample]
        rfl
      · rw [hst, hst', ← Multiset.cons_coe, Multiset.cons_add]
      · rcases List.mem_cons.mp hf with heq | hf
        · rw [heq]
          exact hleast g (by rw [hst']; exact Multiset.mem_add.mpr (Or.inr hg))
        · exact hbelow f hf g hg

theorem pairwise_priorities (q : Calqueue α) : (priorities q).Pairwise (· ≤ ·) :=
  List.pairwise_insertionSort _ _

theorem coe_priorities (q : Calqueue α) :
    (priorities q : Multiset ℚ) = (stored q).map Node.priority := by
  rw [priorities, Multiset.coe_eq_coe.mpr (List.perm_insertionSort _ _), ← Multiset.map_coe,
    coe_copyOrder]
  rfl

/-- A sample in order has the least stored priorities. -/
theorem take_priorities {q q' : Calqueue α} {temp : List (Node α)}
    (hst : stored q = ↑temp + stored q') (hasc : Ascending temp)
    (hbelow : ∀ e ∈ temp, ∀ f ∈ stored q', e.priority ≤ f.priority) :
    (priorities q).take temp.length = temp.map Node.priority := by
  have hsorted : (temp.map Node.priority ++ priorities q').Pairwise (· ≤ ·) := by
    refine List.pairwise_append.mpr ⟨List.pairwise_map.mpr hasc, pairwise_priorities q', ?_⟩
    intro a ha b hb
    obtain ⟨e, he, hea⟩ := List.mem_map.mp ha
    rw [← Multiset.mem_coe, coe_priorities, Multiset.mem_map] at hb
    obtain ⟨f, hf, hfb⟩ := hb
    rw [← hea, ← hfb]
    exact hbelow e he f hf
  have hperm : (priorities q).Perm (temp.map Node.priority ++ priorities q') := by
    rw [← Multiset.coe_eq_coe, coe_priorities, hst, Multiset.map_add, ← Multiset.coe_add,
      coe_priorities, Multiset.map_coe]
  rw [hperm.eq_of_pairwise' (pairwise_priorities q) hsorted]
  exact List.take_left' (List.length_map _)

/-! ## One call of `new_width` -/

theorem two_le_nsamples {q : Calqueue α} (h : 2 ≤ q.qsize) : 2 ≤ nsamples q := by
  have h10 : q.qsize.tdiv 10 = q.qsize / 10 := Int.tdiv_eq_ediv_of_nonneg (by omega)
  unfold nsamples
  simp only [h10]
  split_ifs <;> omega

theorem sampled_of_ok {q q₁ : Calqueue α} {temp : List (Node α)}
    (hs : sample (deqWith (resize 0)) (nsamples q).toNat { q with resizeEnabled := false } =
      .ok (temp, q₁)) : sampled q = temp := by
  simp only [sampled, hs]

/-- The sample of `new_width` when its dequeues do not jump: in order, with the
least stored priorities. -/
theorem sampled_priorities {q : Calqueue α} (h : Sound q) (hin : InOrder q)
    (hstay : samplesInOrder q = true) :
    Ascending (sampled q) ∧ (sampled q).length = (nsamples q).toNat ∧
      (sampled q).map Node.priority = (priorities q).take (nsamples q).toNat := by
  have hle : ((nsamples q).toNat : ℤ) ≤ q.qsize := by
    have hnonneg : 0 ≤ q.qsize := by
      rw [h.size]
      exact Int.natCast_nonneg _
    have h10 : q.qsize.tdiv 10 = q.qsize / 10 := Int.tdiv_eq_ediv_of_nonneg hnonneg
    unfold nsamples
    simp only [h10]
    split_ifs <;> omega
  obtain ⟨temp, q₁, hsample, hlen, hst, hasc, hbelow⟩ :=
    sample_least (idle_resize 0) (nsamples q).toNat h.disabled hin.disabled rfl hle hstay
  rw [sampled_of_ok hsample]
  refine ⟨hasc, hlen, ?_⟩
  rw [← hlen]
  exact (take_priorities (q := q) hst hasc hbelow).symm

/-- A sample in order does not give a negative width. -/
theorem widthOk_of_samplesInOrder {q : Calqueue α} (h : Sound q) (hin : InOrder q)
    (hstay : samplesInOrder q = true) : widthOk q = true := by
  have hasc := (sampled_priorities h hin hstay).1
  rw [widthOk]
  split
  · rename_i temp q₁ hsample
    rw [sampled_of_ok hsample] at hasc
    exact decide_eq_true (List.sum_nonneg (closeSeparations_nonneg_of_ascending hasc))
  · rfl

/-- `new_width` on a queue of at least two events that is sampled in order
returns a positive width, and divides by no zero, exactly when two of the least
priorities are close. -/
theorem widthFound_iff {q : Calqueue α} (h : Sound q) (hin : InOrder q)
    (hon : q.resizeEnabled = true) (hstay : samplesInOrder q = true) :
    WidthFound q ↔ closeGap q = true := by
  obtain ⟨hasc, hlen, hleast⟩ := sampled_priorities h hin hstay
  obtain ⟨w, q', hw, _⟩ := newWidth_spec h hon (widthOk_of_samplesInOrder h hin hstay)
  rcases newWidth_ok hw with ⟨hsmall, hone⟩ | ⟨hsize, temp, q₁, hsample, hwidth⟩
  · rw [hone] at hw
    exact ⟨fun _ => by simp [closeGap, hsmall],
      fun _ => ⟨fun hsize => absurd hsmall (not_lt.mpr hsize), 1, q', hw, one_pos⟩⟩
  · have h2 := two_le_nsamples hsize
    have hgap : closeGap q = true ↔ 0 < (closeSeparations (sampled q)).sum := by
      rw [sum_close_pos_iff hasc (by omega), hleast, closeGap, Bool.or_eq_true,
        decide_eq_true_iff]
      exact ⟨fun hor => hor.resolve_left (not_lt.mpr hsize), Or.inr⟩
    have htemp := sampled_of_ok hsample
    rw [hgap]
    constructor
    · intro hfound
      obtain ⟨x, q₂, hx, hpos⟩ := hfound.width
      have hwx : w = .fin x := (Prod.mk.inj (Except.ok.inj (hw.symm.trans hx))).1
      rw [htemp]
      exact (sampledWidth_pos_iff temp).mp ⟨x, hwidth.symm.trans hwx, hpos⟩
    · intro hsum
      refine ⟨fun _ => ⟨by omega, fun hnone => ?_⟩, ?_⟩
      · rw [List.eq_nil_of_length_eq_zero hnone] at hsum
        exact absurd hsum (lt_irrefl 0)
      · rw [htemp] at hsum
        obtain ⟨x, hx, hpos⟩ := (sampledWidth_pos_iff temp).mpr hsum
        rw [hwidth, hx] at hw
        exact ⟨x, q', hw, hpos⟩

/-! ## Runs -/

/-- The resize that the call triggers, if it triggers one, samples in order and
finds two of the least priorities close. -/
def resizesSpread (q : Calqueue α) : Op α → Bool
  | .put n => !growing (inserted q n) ||
      samplesInOrder (inserted q n) && closeGap (inserted q n)
  | .get =>
      match takeNext q with
      | .ok (_, q₁) => !shrinking q₁ || samplesInOrder q₁ && closeGap q₁
      | .error _ => true

/-- The calls that return, do not jump, and resize from a sample in order with
a close gap. -/
def SpreadStep (c : Client α) (op : Op α) (d : Client α) : Prop :=
  staysInBucket c.queue op = true ∧ resizesSpread c.queue op = true ∧ Step c op d

theorem samples_of_resizes {q q₁ : Calqueue α} {op : Op α} {newsize : ℤ}
    (h : resizesSpread q op = true) (hr : Resizes q op q₁ newsize) :
    samplesInOrder q₁ = true ∧ closeGap q₁ = true := by
  cases op with
  | put n =>
    obtain ⟨hins, hgrow, _⟩ := hr
    obtain ⟨hq₁, _⟩ := insertNode_ok hins
    rw [hq₁] at hgrow ⊢
    simpa [resizesSpread, hgrow] using h
  | get =>
    obtain ⟨_, ⟨e, htake⟩, hshrink, _⟩ := hr
    simpa [resizesSpread, htake, hshrink] using h

/-- The state that an admissible call without a jump resizes is sound and in
order. -/
theorem Ordered.resized {c : Client α} (h : Ordered c) {op : Op α} {q₁ : Calqueue α}
    {newsize : ℤ} (hadm : admissible c op = true) (hstay : staysInBucket c.queue op = true)
    (hr : Resizes c.queue op q₁ newsize) : Sound q₁ ∧ InOrder q₁ := by
  have hs := h.ready.toSound
  cases op with
  | put n =>
    obtain ⟨hins, _, _⟩ := hr
    obtain ⟨hq₁, _⟩ := insertNode_ok hins
    obtain ⟨hn, hl⟩ := admissible_put hadm
    rw [hq₁]
    exact ⟨hs.inserted hn, h.inOrder.inserted hs hn (h.lastprio_eq.le.trans hl)⟩
  | get =>
    obtain ⟨hne, ⟨e, htake⟩, _, _⟩ := hr
    have hjump : ¬ Jumps c.queue := by simpa [staysInBucket] using hstay
    obtain ⟨i, top, f, rest, h0, hn, _, hb, htake'⟩ := takeNext_spec hs hne
    have hq₁ := (Prod.mk.inj (Except.ok.inj (htake.symm.trans htake'))).2
    refine ⟨?_, takeNext_inOrder hs h.inOrder hne hjump htake⟩
    rw [hq₁]
    exact hs.taken h0 hn hb top

/-- A dequeue that returns had an event to take. -/
theorem qsize_ne_zero_of_takeNext {q q₁ : Calqueue α} {e : Node α} (hs : Sound q)
    (hc : Confined q) (htake : takeNext q = .ok (e, q₁)) : q.qsize ≠ 0 := by
  obtain ⟨i, top, rest, hread, hb, _⟩ := takeNext_ok htake
  obtain ⟨h0, hn⟩ := hc.mem_of_ok hread
  have hst := stored_taken h0 hn hb top
  rw [hs.size, hst, Multiset.card_cons]
  omega

theorem callStep_of_exec {c d : Client α} {op : Op α} (h : exec c op = .ok d) :
    CallStep c.queue op d.queue := by
  cases op with
  | put n =>
    obtain ⟨q', hput, hd⟩ := of_bind h
    rw [← Except.ok.inj hd]
    exact hput
  | get =>
    obtain ⟨⟨r, q'⟩, hdeq, hd⟩ := of_bind h
    rw [← Except.ok.inj hd, CallStep, call_get, hdeq]
    rfl

/-- A resize that samples in order samples separations without a negative
sum. -/
theorem orderedStep_of_spreadStep {c d : Client α} {op : Op α} (h : Ordered c)
    (hset : Settled c.queue) (hstep : SpreadStep c op d) : OrderedStep c op d := by
  obtain ⟨hstay, hspread, hadm, hexec⟩ := hstep
  refine ⟨hstay, ?_, hadm, hexec⟩
  have hwide : ∀ q₁ newsize, Resizes c.queue op q₁ newsize → widthOk q₁ = true := by
    intro q₁ newsize hr
    obtain ⟨hs, hin⟩ := h.resized hadm hstay hr
    exact widthOk_of_samplesInOrder hs hin (samples_of_resizes hspread hr).1
  cases op with
  | put n =>
    have hins := insertNode_eq h.ready.toLayout h.ready.width (admissible_put hadm).1
    rw [resizesWell, Bool.or_eq_true, Bool.not_eq_true']
    cases hgrow : growing (inserted c.queue n) with
    | false => exact Or.inl rfl
    | true => exact Or.inr (hwide _ _ ⟨hins, hgrow, rfl⟩)
  | get =>
    rw [resizesWell]
    split
    · rename_i e q₁ htake
      have hne := qsize_ne_zero_of_takeNext h.ready.toSound hset.confined htake
      rw [Bool.or_eq_true, Bool.not_eq_true']
      cases hshrink : shrinking q₁ with
      | false => exact Or.inl rfl
      | true => exact Or.inr (hwide _ _ ⟨hne, ⟨e, htake⟩, hshrink, rfl⟩)
    · rfl

/-- The invariant of the runs whose samples are in order and have a close
gap. -/
structure Wide (c : Client α) : Prop extends Ordered c where
  settled : Settled c.queue
  width_pos : ExactDouble.lt (.fin 0) c.queue.cwidth = true

theorem wide_start (m : Calqueue α) : Wide (start m) where
  toOrdered := ordered_start m
  settled := settled_init m
  width_pos := rfl

theorem Wide.widthFound_iff {c : Client α} (h : Wide c) {op : Op α} {q₁ : Calqueue α}
    {newsize : ℤ} (hadm : admissible c op = true) (hstay : staysInBucket c.queue op = true)
    (hr : Resizes c.queue op q₁ newsize) (hsample : samplesInOrder q₁ = true) :
    WidthFound q₁ ↔ closeGap q₁ = true := by
  obtain ⟨hs, hin⟩ := h.toOrdered.resized hadm hstay hr
  exact CalQueue.widthFound_iff hs hin (resizable_of_resizes h.settled hr).enabled hsample

theorem wide_step {c d : Client α} {op : Op α} (h : Wide c) (hstep : SpreadStep c op d) :
    Wide d := by
  have hord := ordered_step h.toOrdered (orderedStep_of_spreadStep h.toOrdered h.settled hstep)
  obtain ⟨hstay, hspread, hadm, hexec⟩ := hstep
  have hcall := callStep_of_exec hexec
  refine ⟨hord, settled_step h.settled (widthStep_of_callStep hcall), ?_⟩
  rcases callStep_cwidth h.settled hcall with hsame | ⟨q₁, newsize, w, q₂, hr, hw, hnew⟩
  · rw [hsame]
    exact h.width_pos
  · obtain ⟨hsample, hgap⟩ := samples_of_resizes hspread hr
    have hfound := (h.widthFound_iff hadm hstay hr hsample).mpr hgap
    obtain ⟨x, q₃, hx, hpos⟩ := hfound.width
    have hwx : w = .fin x := (Prod.mk.inj (Except.ok.inj (hw.symm.trans hx))).1
    rw [hnew, hwx]
    exact decide_eq_true hpos

theorem wide_run {m : Calqueue α} {ops : List (Op α)} {c : Client α}
    (h : Run SpreadStep (start m) ops c) : Wide c :=
  h.invariant (fun _ _ _ => wide_step) (wide_start m)

/-- The width is positive in every run whose gets and samples do not jump and
whose resizes find two of the least priorities close.  The next such call that
resizes finds a positive width and divides by no zero exactly when two of the
least priorities are close. -/
theorem newWidth_positive {m : Calqueue α} {ops : List (Op α)} {c : Client α}
    (h : Run SpreadStep (start m) ops c) :
    ExactDouble.lt (.fin 0) c.queue.cwidth = true ∧
      ∀ op q₁ newsize, admissible c op = true → staysInBucket c.queue op = true →
        Resizes c.queue op q₁ newsize → samplesInOrder q₁ = true →
        (WidthFound q₁ ↔ closeGap q₁ = true) :=
  ⟨(wide_run h).width_pos, fun _ _ _ hadm hstay hr hsample =>
    (wide_run h).widthFound_iff hadm hstay hr hsample⟩

/-- `newWidth_positive` after nine puts, two of them at one priority, that grow
the calendar twice. -/
theorem newWidth_positive_grown :
    ∃ c : Client ℕ, c.queue.nbuckets = 8 ∧ c.queue.cwidth = .fin (9 / 4) ∧
      ExactDouble.lt (.fin 0) c.queue.cwidth = true ∧
      ∀ op q₁ newsize, admissible c op = true → staysInBucket c.queue op = true →
        Resizes c.queue op q₁ newsize → samplesInOrder q₁ = true →
        (WidthFound q₁ ↔ closeGap q₁ = true) := by
  obtain ⟨c, hrun, hp⟩ := exists_run
    (fun c op => staysInBucket c.queue op && resizesSpread c.queue op) (start (blank ℕ))
    [.put ⟨0, 0⟩, .put ⟨1, 1⟩, .put ⟨2, 2⟩, .put ⟨3, 3⟩, .put ⟨3, 4⟩, .put ⟨4, 5⟩, .put ⟨5, 6⟩,
      .put ⟨6, 7⟩, .put ⟨7, 8⟩]
    (fun c => decide (c.queue.nbuckets = 8) && decide (c.queue.cwidth = .fin (9 / 4)))
    (by decide +kernel)
  obtain ⟨hn, hw⟩ := Bool.and_eq_true_iff.mp hp
  have hspread : Run SpreadStep (start (blank ℕ)) _ c := hrun.mono fun c op d h =>
    ⟨(Bool.and_eq_true_iff.mp h.1).1, (Bool.and_eq_true_iff.mp h.1).2, h.2⟩
  exact ⟨c, of_decide_eq_true hn, of_decide_eq_true hw, newWidth_positive hspread⟩

/-- Five puts at one priority.  The fifth grows the calendar, `new_width` finds
no separation below twice the average, and the width is `0 / 0`. -/
theorem newWidth_notANumber :
    ∃ c d : Client ℕ, Run Step (start (blank ℕ))
        [.put ⟨1, 0⟩, .put ⟨1, 1⟩, .put ⟨1, 2⟩, .put ⟨1, 3⟩] c ∧
      Step c (.put ⟨1, 4⟩) d ∧
      (closeSeparations (sampled (inserted c.queue ⟨1, 4⟩))).length = 0 ∧
      d.queue.cwidth = .nan ∧ ExactDouble.lt (.fin 0) d.queue.cwidth = false := by
  obtain ⟨c, hrun, hp⟩ := exists_run (fun _ _ => true) (start (blank ℕ))
    [.put ⟨1, 0⟩, .put ⟨1, 1⟩, .put ⟨1, 2⟩, .put ⟨1, 3⟩]
    (fun c => admissible c (.put ⟨1, 4⟩) &&
      decide ((closeSeparations (sampled (inserted c.queue ⟨1, 4⟩))).length = 0) &&
      (exec c (.put ⟨1, 4⟩)).toOption.any fun d : Client ℕ =>
        decide (d.queue.cwidth = .nan))
    (by decide +kernel)
  obtain ⟨hleft, hwidth⟩ := Bool.and_eq_true_iff.mp hp
  obtain ⟨hadm, hclose⟩ := Bool.and_eq_true_iff.mp hleft
  obtain ⟨d, hexec, hwidth⟩ := of_toOption_any hwidth
  have hnan : d.queue.cwidth = .nan := of_decide_eq_true hwidth
  exact ⟨c, d, hrun.mono fun _ _ _ hs => hs.2, ⟨hadm, hexec⟩, of_decide_eq_true hclose, hnan,
    by rw [hnan]; rfl⟩

end LinuxFibers.CalQueue
