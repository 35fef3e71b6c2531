import LinuxFibers.CalQueue.Ties
import LinuxFibers.Lib.Outcome
import Mathlib.Data.Int.ConditionallyCompleteOrder
import Mathlib.Data.Set.Lattice
import Mathlib.Order.CompletePartialOrder
import Mathlib.Order.ConditionallyCompleteLattice.Basic
import Mathlib.Order.Interval.Set.Basic

/-!
# The window of the calendar

`Counted` is the part of the invariant that does not depend on a width: the
window has one of the fifteen sizes and one of the two places, the thresholds
belong to the size, and `qsize` counts the nodes of the window.  Every call
keeps it, whatever width the calendar has and whatever priority is put.

A width can still be bad.  A negative one sends priorities to buckets in front
of the window, and the call that uses such a bucket ends in `LeavesWindow`.  The
run ends there too, although the call of the source uses the slot and goes on;
`LinuxFibers.CalQueue.Stray` is about what comes then.  The results of this
module are `Outcome`s: a call keeps the invariant, or it leaves the window.  It
has no third way to end, so no insertion of a resize starts another resize and
no sample is taken from an empty queue.

`resizeAt` is `resize` with a width of its own choice in the place of the one
that `new_width` returns, and `WidthStep` is a call with any such width.
`exists_callAt` says that the calls of the header are among them.
-/

namespace LinuxFibers.CalQueue

open LinuxFibers.Lib

variable {α : Type}

/-- The slots of the window. -/
def window (q : Calqueue α) : Set ℤ := Set.Ico q.firstsub (q.firstsub + q.nbuckets)

/-- The slots of the window that `resize` sets up. -/
def newWindow (q : Calqueue α) (newsize : ℤ) : Set ℤ :=
  Set.Ico (newBase q newsize) (newBase q newsize + newsize)

/-- The fault of an index outside of the window. -/
def LeavesWindow (f : Fault) : Prop := ∃ i, f = .calendarIndex i

/-- The window and the size of a queue, whatever its width is. -/
structure Counted (q : Calqueue α) : Prop where
  confined : Confined q
  nbuckets : ∃ k : ℕ, 1 ≤ k ∧ k ≤ 15 ∧ q.nbuckets = 2 ^ k
  firstsub : q.firstsub = 0 ∨ q.firstsub = calqspace - q.nbuckets
  topThreshold : q.topThreshold = 2 * q.nbuckets
  botThreshold : q.botThreshold = q.nbuckets.tdiv 2 - 2
  size : q.qsize = (stored q).card

/-- A counted queue between two calls. -/
structure Settled (q : Calqueue α) : Prop extends Counted q where
  enabled : q.resizeEnabled = true
  fits : q.qsize ≤ 2 * q.nbuckets ∨ q.nbuckets = maxnbuckets

theorem counted_localinit (q : Calqueue α) {base n : ℤ} (w : ExactDouble) (p : ℚ)
    (hn : ∃ k : ℕ, 1 ≤ k ∧ k ≤ 15 ∧ n = 2 ^ k) (hbase : base = 0 ∨ base = calqspace - n) :
    Counted (localinit q base n w p) :=
  ⟨confined_localinit q base n w p, hn, hbase, rfl, rfl, by rw [stored_localinit]; rfl⟩

/-- The fields of the scan and the flag are no part of it. -/
theorem Counted.withControl {q : Calqueue α} (h : Counted q) (lastbucket : ℤ) (lastprio : ℚ)
    (buckettop : ExactDouble) (enabled : Bool) :
    Counted { q with
      lastbucket := lastbucket, lastprio := lastprio, buckettop := buckettop,
      resizeEnabled := enabled } :=
  ⟨h.confined, h.nbuckets, h.firstsub, h.topThreshold, h.botThreshold, h.size⟩

theorem Counted.inserted {q : Calqueue α} (h : Counted q) {n : Node α}
    (h0 : 0 ≤ bucketOf q n.priority) (hlt : bucketOf q n.priority < q.nbuckets) :
    Counted (inserted q n) := by
  refine ⟨h.confined, h.nbuckets, h.firstsub, h.topThreshold, h.botThreshold, ?_⟩
  have hsize := h.size
  rw [stored_inserted_of_mem h0 hlt, Multiset.card_cons]
  show q.qsize + 1 = _
  omega

theorem Counted.taken {q : Calqueue α} (h : Counted q) {i : ℤ} (h0 : 0 ≤ i)
    (hn : i < q.nbuckets) {e : Node α} {rest : List (Node α)} (hb : q.bucket i = e :: rest)
    (top : ExactDouble) : Counted (taken q i top e rest) := by
  refine ⟨h.confined, h.nbuckets, h.firstsub, h.topThreshold, h.botThreshold, ?_⟩
  have hsize := h.size
  rw [stored_taken h0 hn hb top, Multiset.card_cons] at hsize
  show q.qsize - 1 = _
  omega

/-! ## Reads, insertions and removals -/

theorem Confined.calendar_outcome {q : Calqueue α} (h : Confined q) (i : ℤ) :
    Outcome LeavesWindow (fun l => 0 ≤ i ∧ i < q.nbuckets ∧ q.bucket i = l) (q.calendar i) := by
  by_cases hi : 0 ≤ i ∧ i < q.nbuckets
  · rw [calendar_eq q hi.1 hi.2]
    exact ⟨hi.1, hi.2, rfl⟩
  · rw [h.calendar_outside hi]
    exact ⟨i, rfl⟩

theorem insertNode_outcome {q : Calqueue α} (h : Counted q) (n : Node α) :
    Outcome LeavesWindow
      (fun q' => Counted q' ∧ SameControl q q' ∧ q'.qsize = q.qsize + 1) (insertNode q n) := by
  refine (h.confined.calendar_outcome (bucketOf q n.priority)).bind fun l hl => ?_
  obtain ⟨h0, hlt, hb⟩ := hl
  subst hb
  exact ⟨h.inserted h0 hlt, sameControl_of_mem h0 hlt, rfl⟩

theorem scan_outcome {q : Calqueue α} (h : Confined q) (rounds : ℕ) :
    ∀ i top, Outcome LeavesWindow (fun r => ∀ j, r.1 = some j → q.bucket j ≠ [])
      (scan q rounds i top) := by
  induction rounds with
  | zero =>
    intro i top
    exact ⟨q.lastbucket, rfl⟩
  | succ rounds ih =>
    intro i top
    rw [scan]
    refine (h.calendar_outcome i).bind fun l hl => ?_
    obtain ⟨_, _, hb⟩ := hl
    split
    · rename_i hbelow
      intro j hj hnil
      rw [← Option.some.inj hj, hb] at hnil
      rw [hnil] at hbelow
      cases hbelow
    · generalize hnext : (if i + 1 = q.nbuckets then 0 else i + 1) = next
      show Outcome LeavesWindow _ (if next = q.lastbucket then .ok (none, top + q.cwidth)
        else scan q rounds next (top + q.cwidth))
      split
      · intro j hj
        cases hj
      · exact ih next _

theorem findBucket_outcome {q : Calqueue α} (h : Confined q) :
    Outcome LeavesWindow (fun r => r.1 = -1 ∨ q.bucket r.1 ≠ []) (findBucket q) := by
  refine (scan_outcome h q.nbuckets.toNat q.lastbucket q.buckettop).bind fun r hr => ?_
  obtain ⟨found, top⟩ := r
  cases found with
  | some i => exact Or.inr (hr i rfl)
  | none =>
    rcases directSearch_spec q q.nbuckets.toNat with ⟨hnone, _⟩ | ⟨i, _, hi, e, rest, hb, _⟩
    · exact Or.inl hnone
    · refine Or.inr ?_
      show q.bucket (directSearch q q.nbuckets.toNat).1 ≠ []
      rw [hi, hb]
      exact List.cons_ne_nil e rest

/-- A removal takes the head of a bucket of the window.  The bucket `-1` of a
search that found nothing is outside of it. -/
theorem takeNext_outcome {q : Calqueue α} (h : Confined q) :
    Outcome LeavesWindow (fun r => ∃ i top rest, 0 ≤ i ∧ i < q.nbuckets ∧
      q.bucket i = r.1 :: rest ∧ r.2 = taken q i top r.1 rest) (takeNext q) := by
  refine (findBucket_outcome h).bind fun r hr => ?_
  obtain ⟨i, top⟩ := r
  refine (h.calendar_outcome i).bind fun l hl => ?_
  obtain ⟨h0, hn, hb⟩ := hl
  cases l with
  | nil =>
    rcases hr with hi | hne
    · exact absurd h0 (by rw [show i = -1 from hi]; decide)
    · exact absurd hb hne
  | cons e rest => exact ⟨i, top, rest, h0, hn, hb, rfl⟩

/-! ## Puts and dequeues that cannot resize -/

/-- An insertion after which the calendar is not too full, or while resizing is
disabled, is the whole put. -/
theorem putWith_outcome {q : Calqueue α} (h : Counted q) (n : Node α)
    (hroom : q.resizeEnabled = false ∨ q.qsize + 1 ≤ q.topThreshold) :
    Outcome LeavesWindow (fun q' => Counted q' ∧ SameControl q q' ∧ q'.qsize = q.qsize + 1)
      (putWith (resize 0) q n) := by
  refine (insertNode_outcome h n).bind fun q₁ h₁ => ?_
  obtain ⟨hcounted, hsame, hsize⟩ := h₁
  split
  · rename_i hgrow
    have hfull : q₁.topThreshold < q₁.qsize :=
      of_decide_eq_true (Bool.and_eq_true_iff.mp hgrow).1
    rcases hroom with hoff | hroom
    · rw [idle_resize 0 q₁ _ (hsame.resizeEnabled.trans hoff)]
      exact ⟨hcounted, hsame, hsize⟩
    · rw [hsame.topThreshold] at hfull
      omega
  · exact ⟨hcounted, hsame, hsize⟩

theorem putAll_outcome {l : List (Node α)} :
    ∀ {q : Calqueue α}, Counted q →
      (q.resizeEnabled = false ∨ q.qsize + l.length ≤ q.topThreshold) →
      Outcome LeavesWindow
        (fun q' => Counted q' ∧ SameControl q q' ∧ q'.qsize = q.qsize + l.length)
        (putAll (putWith (resize 0)) l q) := by
  induction l with
  | nil =>
    intro q h _
    exact ⟨h, .refl q, (Int.add_zero _).symm⟩
  | cons n rest ih =>
    intro q h hroom
    rw [List.length_cons, Int.natCast_succ] at hroom ⊢
    refine (putWith_outcome h n (hroom.imp_right fun hr => by omega)).bind fun q₁ h₁ => ?_
    obtain ⟨hcounted, hsame, hsize⟩ := h₁
    refine (ih hcounted ?_).mono fun q' h' => ?_
    · rw [hsame.resizeEnabled, hsame.topThreshold]
      exact hroom.imp_right fun hr => by omega
    · obtain ⟨hcounted', hsame', hsize'⟩ := h'
      exact ⟨hcounted', hsame.trans hsame', by omega⟩

/-- `new_width` gets as many nodes as it asks for from a queue that counts as
many. -/
theorem sample_outcome (n : ℕ) :
    ∀ {q : Calqueue α}, Counted q → q.resizeEnabled = false → (n : ℤ) ≤ q.qsize →
      Outcome LeavesWindow
        (fun r => Counted r.2 ∧ r.2.resizeEnabled = false ∧ r.2.firstsub = q.firstsub ∧
          r.2.nbuckets = q.nbuckets ∧ r.1.length = n ∧ r.2.qsize = q.qsize - n)
        (sample (deqWith (resize 0)) n q) := by
  induction n with
  | zero =>
    intro q h hoff _
    exact ⟨h, hoff, rfl, rfl, rfl, (Int.sub_zero _).symm⟩
  | succ n ih =>
    intro q h hoff hle
    rw [Int.natCast_succ] at hle ⊢
    have hne : q.qsize ≠ 0 := by omega
    have hdeq : Outcome LeavesWindow (fun r => ∃ e i top rest, r = (some e, taken q i top e rest) ∧
        0 ≤ i ∧ i < q.nbuckets ∧ q.bucket i = e :: rest) (deqWith (resize 0) q) := by
      rw [deqWith, if_neg hne]
      refine (takeNext_outcome h.confined).bind fun r hr => ?_
      obtain ⟨e, q₁⟩ := r
      obtain ⟨i, top, rest, h0, hn, hb, hq₁⟩ := hr
      have htaken : q₁ = taken q i top e rest := hq₁
      subst htaken
      dsimp only
      rw [idle_resize 0 (taken q i top e rest) _ hoff]
      split <;> exact ⟨e, i, top, rest, rfl, h0, hn, hb⟩
    refine hdeq.bind fun r hr => ?_
    obtain ⟨e, i, top, rest, hr, h0, hn, hb⟩ := hr
    subst hr
    have hsize : (taken q i top e rest).qsize = q.qsize - 1 := rfl
    refine (ih (h.taken h0 hn hb top) hoff (by omega)).bind fun r' h' => ?_
    obtain ⟨hcounted, hoff', hf, hnb, hlen, hsize'⟩ := h'
    exact ⟨hcounted, hoff', hf, hnb, by rw [List.length_cons, hlen], by show r'.2.qsize = _; omega⟩

/-! ## `resize` -/

theorem newWidth_outcome {q : Calqueue α} (h : Counted q) (hon : q.resizeEnabled = true) :
    Outcome LeavesWindow
      (fun r => Counted r.2 ∧ r.2.resizeEnabled = true ∧ r.2.firstsub = q.firstsub ∧
        r.2.nbuckets = q.nbuckets ∧ r.2.qsize = q.qsize)
      (newWidthWith (resize 0) q) := by
  rw [newWidthWith]
  split
  · exact ⟨h, hon, rfl, rfl, rfl⟩
  · rename_i hsize
    obtain ⟨hpos, hle⟩ := nsamples_le (not_lt.mp hsize)
    have hoff : Counted { q with resizeEnabled := false } :=
      h.withControl q.lastbucket q.lastprio q.buckettop false
    refine (sample_outcome (nsamples q).toNat hoff rfl ?_).bind fun r hr => ?_
    · show ((nsamples q).toNat : ℤ) ≤ q.qsize
      omega
    obtain ⟨temp, q₁⟩ := r
    obtain ⟨hcounted, hoff₁, hf, hnb, hlen, hsize₁⟩ := hr
    refine (putAll_outcome hcounted (Or.inl hoff₁)).bind fun q₂ h₂ => ?_
    obtain ⟨hcounted₂, hsame, hsize₂⟩ := h₂
    refine ⟨hcounted₂.withControl q.lastbucket q.lastprio q.buckettop true, rfl,
      hsame.firstsub.trans hf, hsame.nbuckets.trans hnb, ?_⟩
    show q₂.qsize = q.qsize
    rw [hsize₂, hsize₁, hlen]
    exact Int.sub_add_cancel q.qsize _

/-- The copy of the first `k` buckets from outside of the new window, when it
has room for their nodes. -/
theorem copyBuckets_outcome {base : ℤ} (k : ℕ) :
    ∀ {q : Calqueue α}, Counted q →
      (∀ i : ℕ, i < k → ¬ (q.firstsub ≤ base + i ∧ base + i < q.firstsub + q.nbuckets)) →
      q.qsize + (copyOrder q.calq base k).length ≤ q.topThreshold →
      Outcome LeavesWindow
        (fun q' => Counted q' ∧ SameControl q q' ∧
          q'.qsize = q.qsize + (copyOrder q.calq base k).length)
        (copyBuckets (putWith (resize 0)) base k q) := by
  induction k with
  | zero =>
    intro q h _ _
    exact ⟨h, .refl q, (Int.add_zero _).symm⟩
  | succ k ih =>
    intro q h hout hroom
    rw [copyOrder, List.length_append, Int.natCast_add] at hroom ⊢
    refine (putAll_outcome h (Or.inr (by omega))).bind fun q₁ h₁ => ?_
    obtain ⟨hcounted, hsame, hsize⟩ := h₁
    have hold : copyOrder q₁.calq base k = copyOrder q.calq base k :=
      copyOrder_congr fun i hi => hsame.outside _ (hout i (by omega))
    refine (ih hcounted (fun i hi => ?_) ?_).mono fun q' h' => ?_
    · rw [hsame.firstsub, hsame.nbuckets]
      exact hout i (by omega)
    · rw [hold, hsize, hsame.topThreshold]
      omega
    · obtain ⟨hcounted', hsame', hsize'⟩ := h'
      rw [hold] at hsize'
      exact ⟨hcounted', hsame.trans hsame', by omega⟩

/-- `resize` with the width `bwidth` in the place of the one that `new_width`
returns. -/
def resizeAt (bwidth : ExactDouble) (q : Calqueue α) (newsize : ℤ) :
    Except Fault (Calqueue α) := do
  if !q.resizeEnabled then return q
  let (_, q) ← newWidthWith (resize 0) q
  copyBuckets (putWith (resize 0)) q.firstsub q.nbuckets.toNat
    (localinit q (newBase q newsize) newsize bwidth q.lastprio)

theorem newWindow_subset {q : Calqueue α} {newsize : ℤ}
    (hn : ∃ k : ℕ, 1 ≤ k ∧ k ≤ 15 ∧ newsize = 2 ^ k) :
    newWindow q newsize ⊆ Set.Ico 0 calqspace := by
  obtain ⟨h2, hmax⟩ := two_le_size hn
  have hspace : calqspace = 65536 := rfl
  have hbuckets : maxnbuckets = 32768 := rfl
  intro k hk
  obtain ⟨hlow, hhigh⟩ := hk
  rcases newBase_cases q newsize with hbase | hbase
  · rw [hbase] at hlow hhigh
    exact ⟨hlow, by omega⟩
  · rw [hbase] at hlow hhigh
    exact ⟨by omega, by omega⟩

theorem Counted.window_subset {q : Calqueue α} (h : Counted q) :
    window q ⊆ Set.Ico 0 calqspace := by
  obtain ⟨h2, hmax⟩ := two_le_size h.nbuckets
  have hspace : calqspace = 65536 := rfl
  have hbuckets : maxnbuckets = 32768 := rfl
  intro k hk
  obtain ⟨hlow, hhigh⟩ := hk
  rcases h.firstsub with hf | hf
  · rw [hf] at hlow hhigh
    exact ⟨hlow, by omega⟩
  · rw [hf] at hlow hhigh
    exact ⟨by omega, by omega⟩

theorem Counted.disjoint_newWindow {q : Calqueue α} (h : Counted q) {newsize : ℤ}
    (hn : ∃ k : ℕ, 1 ≤ k ∧ k ≤ 15 ∧ newsize = 2 ^ k) :
    Disjoint (window q) (newWindow q newsize) := by
  refine Set.disjoint_left.mpr fun k hk hk' => ?_
  obtain ⟨hlow, hhigh⟩ := hk
  obtain ⟨hlow', hhigh'⟩ := hk'
  have hslot : q.firstsub + ((k - q.firstsub).toNat : ℤ) = k := by omega
  refine newBase_disjoint h.nbuckets h.firstsub (two_le_size hn).2
    (show (k - q.firstsub).toNat < q.nbuckets.toNat by omega) ?_
  rw [hslot]
  exact ⟨hlow', hhigh'⟩

/-- `resize` to a size with room for the nodes, with any width. -/
theorem resizeAt_outcome {q : Calqueue α} (h : Counted q) (hon : q.resizeEnabled = true)
    (bwidth : ExactDouble) {newsize : ℤ} (hn : ∃ k : ℕ, 1 ≤ k ∧ k ≤ 15 ∧ newsize = 2 ^ k)
    (hroom : q.qsize ≤ 2 * newsize) :
    Outcome LeavesWindow (fun q' => Settled q' ∧ q'.cwidth = bwidth)
      (resizeAt bwidth q newsize) := by
  have hdo : resizeAt bwidth q newsize = (newWidthWith (resize 0) q >>= fun r =>
      copyBuckets (putWith (resize 0)) r.2.firstsub r.2.nbuckets.toNat
        (localinit r.2 (newBase r.2 newsize) newsize bwidth r.2.lastprio)) := by
    simp only [resizeAt, hon]
    rfl
  rw [hdo]
  refine (newWidth_outcome h hon).bind fun r hr => ?_
  obtain ⟨w, q₁⟩ := r
  obtain ⟨hcounted, hon₁, _, _, hsize⟩ := hr
  have hout : ∀ i : ℕ, i < q₁.nbuckets.toNat → ¬ (newBase q₁ newsize ≤ q₁.firstsub + i ∧
      q₁.firstsub + i < newBase q₁ newsize + newsize) := fun i hi =>
    newBase_disjoint hcounted.nbuckets hcounted.firstsub (two_le_size hn).2 hi
  have hold : copyOrder (localinit q₁ (newBase q₁ newsize) newsize bwidth q₁.lastprio).calq
      q₁.firstsub q₁.nbuckets.toNat = copyOrder q₁.calq q₁.firstsub q₁.nbuckets.toNat :=
    copyOrder_congr fun i hi => if_neg (hout i hi)
  have hlen : ((copyOrder q₁.calq q₁.firstsub q₁.nbuckets.toNat).length : ℤ) = q.qsize := by
    rw [← hsize, hcounted.size, stored, ← coe_copyOrder, Multiset.coe_card]
  have hnew : Counted (localinit q₁ (newBase q₁ newsize) newsize bwidth q₁.lastprio) :=
    counted_localinit q₁ bwidth q₁.lastprio hn (newBase_cases q₁ newsize)
  refine (copyBuckets_outcome q₁.nbuckets.toNat hnew hout ?_).mono fun q' h' => ?_
  · rw [hold, hlen]
    show 0 + q.qsize ≤ 2 * newsize
    omega
  · obtain ⟨hcounted', hsame, hsize'⟩ := h'
    rw [hold, hlen] at hsize'
    refine ⟨⟨hcounted', hsame.resizeEnabled.trans hon₁, Or.inl ?_⟩, hsame.cwidth⟩
    rw [hsize', hsame.nbuckets]
    show 0 + q.qsize ≤ 2 * newsize
    omega

/-! ## Calls and runs -/

/-- A call of the header.  `calqueue_get` leaves the queue that `calqueue_deq`
leaves. -/
def call (q : Calqueue α) : Op α → Except Fault (Calqueue α)
  | .put n => calqueuePut q n.priority n.payload
  | .get => do
      let (_, q) ← calqueueDeq q
      return q

theorem call_get (q : Calqueue α) :
    call q .get = (calqueueDeq q >>= fun r => .ok r.2) :=
  rfl

/-- The call with the width `bwidth` for the `resize` that it makes. -/
def callAt (bwidth : ExactDouble) (q : Calqueue α) : Op α → Except Fault (Calqueue α)
  | .put n => putWith (resizeAt bwidth) q n
  | .get => do
      let (_, q) ← deqWith (resizeAt bwidth) q
      return q

/-- The calls of the header that return. -/
def CallStep (q : Calqueue α) (op : Op α) (q' : Calqueue α) : Prop := call q op = .ok q'

/-- The calls that return, with any width. -/
def WidthStep (q : Calqueue α) (op : Op α) (q' : Calqueue α) : Prop :=
  ∃ bwidth, callAt bwidth q op = .ok q'

/-- The call resizes the state `q₁` to `newsize` buckets. -/
def Resizes (q : Calqueue α) : Op α → Calqueue α → ℤ → Prop
  | .put n, q₁, newsize =>
      insertNode q n = .ok q₁ ∧ growing q₁ = true ∧ newsize = 2 * q₁.nbuckets
  | .get, q₁, newsize =>
      q.qsize ≠ 0 ∧ (∃ e, takeNext q = .ok (e, q₁)) ∧ shrinking q₁ = true ∧
        newsize = q₁.nbuckets.tdiv 2

/-- A `resize` that is called has a size of the calendar to go to, and room for
the nodes there. -/
structure Resizable (q : Calqueue α) (newsize : ℤ) : Prop extends Counted q where
  enabled : q.resizeEnabled = true
  newsize_eq : ∃ k : ℕ, 1 ≤ k ∧ k ≤ 15 ∧ newsize = 2 ^ k
  room : q.qsize ≤ 2 * newsize

theorem resizable_of_growing {q q₁ : Calqueue α} (h : Settled q) (h₁ : Counted q₁)
    (hsame : SameControl q q₁) (hsize : q₁.qsize = q.qsize + 1) (hgrow : growing q₁ = true) :
    Resizable q₁ (2 * q₁.nbuckets) := by
  obtain ⟨hfull, hmax⟩ := Bool.and_eq_true_iff.mp hgrow
  have hlt : q₁.nbuckets < maxnbuckets := of_decide_eq_true hmax
  have h2 := (two_le_size h₁.nbuckets).1
  refine ⟨h₁, hsame.resizeEnabled.trans h.enabled, size_double h₁.nbuckets hlt, ?_⟩
  have hfits := h.fits
  rw [← hsame.nbuckets] at hfits
  omega

theorem resizable_of_shrinking {q₁ : Calqueue α} (h₁ : Counted q₁)
    (hon : q₁.resizeEnabled = true) (hshrink : shrinking q₁ = true) :
    Resizable q₁ (q₁.nbuckets.tdiv 2) := by
  have hsmall : q₁.qsize < q₁.nbuckets.tdiv 2 - 2 := by
    rw [← h₁.botThreshold]
    exact of_decide_eq_true hshrink
  have h2 := (two_le_size h₁.nbuckets).1
  have hsize := h₁.size
  have hhalf : q₁.nbuckets.tdiv 2 = q₁.nbuckets / 2 := Int.tdiv_eq_ediv_of_nonneg (by omega)
  exact ⟨h₁, hon, size_half h₁.nbuckets (by omega), by omega⟩

/-- Every call between two calls, with any width. -/
theorem callAt_outcome {q : Calqueue α} (h : Settled q) (bwidth : ExactDouble) (op : Op α) :
    Outcome LeavesWindow Settled (callAt bwidth q op) := by
  cases op with
  | put n =>
    refine (insertNode_outcome h.toCounted n).bind fun q₁ h₁ => ?_
    obtain ⟨hcounted, hsame, hsize⟩ := h₁
    split
    · rename_i hgrow
      have hr := resizable_of_growing h hcounted hsame hsize hgrow
      exact (resizeAt_outcome hr.toCounted hr.enabled bwidth hr.newsize_eq hr.room).mono
        fun q' hq' => hq'.1
    · rename_i hgrow
      refine ⟨hcounted, hsame.resizeEnabled.trans h.enabled, ?_⟩
      have hmax := (two_le_size hcounted.nbuckets).2
      have htop := hcounted.topThreshold
      have hnot : ¬ (q₁.topThreshold < q₁.qsize ∧ q₁.nbuckets < maxnbuckets) := fun hlt =>
        hgrow (by simp [growing, hlt.1, hlt.2])
      omega
  | get =>
    show Outcome LeavesWindow _ (deqWith (resizeAt bwidth) q >>= fun r => .ok r.2)
    suffices hdeq : Outcome LeavesWindow (fun r => Settled r.2) (deqWith (resizeAt bwidth) q) from
      hdeq.bind fun r hr => hr
    rw [deqWith]
    split
    · exact h
    · refine (takeNext_outcome h.confined).bind fun r hr => ?_
      obtain ⟨e, q₁⟩ := r
      obtain ⟨i, top, rest, h0, hn, hb, hq₁⟩ := hr
      have htaken : q₁ = taken q i top e rest := hq₁
      subst htaken
      have hcounted := h.toCounted.taken h0 hn hb top
      dsimp only
      split
      · rename_i hshrink
        have hr := resizable_of_shrinking hcounted h.enabled hshrink
        exact (resizeAt_outcome hr.toCounted hr.enabled bwidth hr.newsize_eq hr.room).bind
          fun q' hq' => hq'.1
      · refine ⟨hcounted, h.enabled, ?_⟩
        have hfits := h.fits
        show q.qsize - 1 ≤ 2 * q.nbuckets ∨ q.nbuckets = maxnbuckets
        omega

theorem settled_init (m : Calqueue α) : Settled (calqueueInit m) := by
  have hcounted : Counted (localinit m 0 2 (.fin 1) 0) :=
    counted_localinit m (.fin 1) 0 ⟨1, by decide, by decide, rfl⟩ (Or.inl rfl)
  exact ⟨hcounted.withControl _ _ _ true, rfl, Or.inl (show (0 : ℤ) ≤ 2 * 2 by decide)⟩

theorem settled_step {q q' : Calqueue α} {op : Op α} (h : Settled q) (hstep : WidthStep q op q') :
    Settled q' := by
  obtain ⟨bwidth, hcall⟩ := hstep
  exact (callAt_outcome h bwidth op).of_ok hcall

theorem settled_run {m q : Calqueue α} {ops : List (Op α)}
    (h : Run WidthStep (calqueueInit m) ops q) : Settled q :=
  h.invariant (fun _ _ _ => settled_step) (settled_init m)

theorem resizable_of_resizes {q q₁ : Calqueue α} {op : Op α} {newsize : ℤ} (h : Settled q)
    (hr : Resizes q op q₁ newsize) : Resizable q₁ newsize := by
  cases op with
  | put n =>
    obtain ⟨hins, hgrow, hnew⟩ := hr
    obtain ⟨hcounted, hsame, hsize⟩ := (insertNode_outcome h.toCounted n).of_ok hins
    rw [hnew]
    exact resizable_of_growing h hcounted hsame hsize hgrow
  | get =>
    obtain ⟨_, ⟨e, htake⟩, hshrink, hnew⟩ := hr
    obtain ⟨i, top, rest, h0, hn, hb, hq₁⟩ := (takeNext_outcome h.confined).of_ok htake
    have htaken : q₁ = taken q i top e rest := hq₁
    subst htaken
    rw [hnew]
    exact resizable_of_shrinking (h.toCounted.taken h0 hn hb top) h.enabled hshrink

/-! ## The calls of the header are calls with some width -/

/-- `resize` with the width that `new_width` returns is `resize`. -/
theorem resize_eq_resizeAt {q q' : Calqueue α} {w : ExactDouble}
    (hw : newWidthWith (resize 0) q = .ok (w, q')) (newsize : ℤ) :
    resize 1 q newsize = resizeAt w q newsize := by
  cases hon : q.resizeEnabled with
  | false =>
    rw [idle_resize 1 q newsize hon]
    simp [resizeAt, hon, pure, Except.pure]
  | true =>
    rw [resize_succ hon]
    simp [resizeAt, hon, hw, bind, Except.bind]

theorem exists_resizeAt (q : Calqueue α) (newsize : ℤ) :
    ∃ bwidth, resize 1 q newsize = resizeAt bwidth q newsize := by
  cases hw : newWidthWith (resize 0) q with
  | ok r => exact ⟨r.1, resize_eq_resizeAt hw newsize⟩
  | error f =>
    refine ⟨.nan, ?_⟩
    cases hon : q.resizeEnabled with
    | false =>
      rw [idle_resize 1 q newsize hon]
      simp [resizeAt, hon, pure, Except.pure]
    | true =>
      rw [resize_succ hon]
      simp [resizeAt, hon, hw, bind, Except.bind]

/-- A `resize` that returns sets the width that `new_width` returned. -/
theorem resize_cwidth {q q' : Calqueue α} {newsize : ℤ} (h : Resizable q newsize)
    (hres : resize 1 q newsize = .ok q') :
    ∃ w q₂, newWidthWith (resize 0) q = .ok (w, q₂) ∧ q'.cwidth = w := by
  have hbind := hres
  rw [resize_succ h.enabled] at hbind
  obtain ⟨⟨w, q₂⟩, hw, _⟩ := of_bind hbind
  rw [resize_eq_resizeAt hw] at hres
  exact ⟨w, q₂, hw,
    ((resizeAt_outcome h.toCounted h.enabled w h.newsize_eq h.room).of_ok hres).2⟩

section Congr

variable {rsz rsz' : Calqueue α → ℤ → Except Fault (Calqueue α)} {q : Calqueue α}

theorem putWith_congr {n : Node α} (h : ∀ q₁, insertNode q n = .ok q₁ →
    rsz q₁ (2 * q₁.nbuckets) = rsz' q₁ (2 * q₁.nbuckets)) :
    putWith rsz q n = putWith rsz' q n := by
  simp only [putWith]
  cases hins : insertNode q n with
  | error f => rfl
  | ok q₁ => simp only [bind, Except.bind, h q₁ hins]

theorem deqWith_congr (h : ∀ e q₁, takeNext q = .ok (e, q₁) →
    rsz q₁ (q₁.nbuckets.tdiv 2) = rsz' q₁ (q₁.nbuckets.tdiv 2)) :
    deqWith rsz q = deqWith rsz' q := by
  simp only [deqWith]
  cases htake : takeNext q with
  | error f => rfl
  | ok r => simp only [bind, Except.bind, h r.1 r.2 htake]

end Congr

/-- A call of the header is the call with the width that `new_width` returns. -/
theorem exists_callAt (q : Calqueue α) (op : Op α) :
    ∃ bwidth, call q op = callAt bwidth q op := by
  cases op with
  | put n =>
    cases hins : insertNode q n with
    | error f =>
      exact ⟨.nan, putWith_congr fun q₁ hq₁ => by rw [hins] at hq₁; cases hq₁⟩
    | ok q₁ =>
      obtain ⟨bwidth, hres⟩ := exists_resizeAt q₁ (2 * q₁.nbuckets)
      refine ⟨bwidth, putWith_congr fun q₂ hq₂ => ?_⟩
      rw [← Except.ok.inj (hins.symm.trans hq₂)]
      exact hres
  | get =>
    rw [call_get]
    show ∃ bwidth, _ = (deqWith (resizeAt bwidth) q >>= fun r => .ok r.2)
    obtain ⟨bwidth, hdeq⟩ : ∃ bwidth, deqWith (resize 1) q = deqWith (resizeAt bwidth) q := by
      cases htake : takeNext q with
      | error f =>
        exact ⟨.nan, deqWith_congr fun e q₁ hq₁ => by rw [htake] at hq₁; cases hq₁⟩
      | ok r =>
        obtain ⟨bwidth, hres⟩ := exists_resizeAt r.2 (r.2.nbuckets.tdiv 2)
        refine ⟨bwidth, deqWith_congr fun e q₁ hq₁ => ?_⟩
        have hr : r = (e, q₁) := Except.ok.inj (htake.symm.trans hq₁)
        rw [hr] at hres
        exact hres
    exact ⟨bwidth, by rw [calqueueDeq, hdeq]⟩

theorem widthStep_of_callStep {q q' : Calqueue α} {op : Op α} (h : CallStep q op q') :
    WidthStep q op q' := by
  obtain ⟨bwidth, hcall⟩ := exists_callAt q op
  exact ⟨bwidth, hcall.symm.trans h⟩

/-- A call keeps the width, or resizes to the one that `new_width` returns. -/
theorem callStep_cwidth {q q' : Calqueue α} {op : Op α} (h : Settled q)
    (hstep : CallStep q op q') :
    q'.cwidth = q.cwidth ∨ ∃ q₁ newsize w q₂, Resizes q op q₁ newsize ∧
      newWidthWith (resize 0) q₁ = .ok (w, q₂) ∧ q'.cwidth = w := by
  cases op with
  | put n =>
    obtain ⟨q₁, hins, hrest⟩ := of_bind (show putWith (resize 1) q n = .ok q' from hstep)
    split at hrest
    · rename_i hgrow
      have hr : Resizes q (.put n) q₁ (2 * q₁.nbuckets) := ⟨hins, hgrow, rfl⟩
      obtain ⟨w, q₂, hw, hcwidth⟩ := resize_cwidth (resizable_of_resizes h hr) hrest
      exact Or.inr ⟨q₁, _, w, q₂, hr, hw, hcwidth⟩
    · rw [← Except.ok.inj hrest]
      exact Or.inl ((insertNode_outcome h.toCounted n).of_ok hins).2.1.cwidth
  | get =>
    rw [CallStep, call_get] at hstep
    obtain ⟨⟨r, q₃⟩, hdeq, hlast⟩ := of_bind hstep
    have hq₃ : q₃ = q' := Except.ok.inj hlast
    subst hq₃
    rcases deqWith_ok hdeq with ⟨_, _, hsame⟩ | ⟨hne, e, q₁, htake, _, hres⟩
    · exact Or.inl (by rw [hsame])
    · split at hres
      · rename_i hshrink
        have hr : Resizes q .get q₁ (q₁.nbuckets.tdiv 2) := ⟨hne, ⟨e, htake⟩, hshrink, rfl⟩
        obtain ⟨w, q₂, hw, hcwidth⟩ := resize_cwidth (resizable_of_resizes h hr) hres
        exact Or.inr ⟨q₁, _, w, q₂, hr, hw, hcwidth⟩
      · obtain ⟨i, top, rest, _, _, _, hq₁⟩ := (takeNext_outcome h.confined).of_ok htake
        rw [← Except.ok.inj hres]
        exact Or.inl (by rw [show q₁ = taken q i top e rest from hq₁]; rfl)

/-! ## Reachable queues -/

/-- How `new_width` gets its width. -/
theorem newWidth_ok {q q' : Calqueue α} {w : ExactDouble}
    (hw : newWidthWith (resize 0) q = .ok (w, q')) :
    q.qsize < 2 ∧ w = .fin 1 ∨ 2 ≤ q.qsize ∧ ∃ temp q₁,
      sample (deqWith (resize 0)) (nsamples q).toNat { q with resizeEnabled := false } =
        .ok (temp, q₁) ∧ w = sampledWidth temp := by
  rw [newWidthWith] at hw
  split at hw
  · rename_i hsmall
    exact Or.inl ⟨hsmall, (Prod.mk.inj (Except.ok.inj hw)).1.symm⟩
  · rename_i hsize
    obtain ⟨⟨temp, q₁⟩, hsample, hrest⟩ := of_bind hw
    obtain ⟨q₂, _, hlast⟩ := of_bind hrest
    exact Or.inr ⟨not_lt.mp hsize, temp, q₁, hsample,
      (Prod.mk.inj (Except.ok.inj hlast)).1.symm⟩

/-- A width that `new_width` can return: it divides numbers, and `0` by `0` when
no separation is close. -/
def Numeric (w : ExactDouble) : Prop := w = .nan ∨ ∃ x : ℚ, w = .fin x

theorem numeric_sampledWidth (temp : List (Node α)) : Numeric (sampledWidth temp) := by
  rcases hclose : closeSeparations temp with _ | ⟨s, rest⟩
  · exact Or.inl (by simp only [sampledWidth, hclose]; rfl)
  · have hlen : ((s :: rest).length : ℚ) ≠ 0 := Nat.cast_ne_zero.mpr (by simp)
    exact Or.inr ⟨_, by rw [sampledWidth, hclose, ExactDouble.fin_div_fin _ hlen]; rfl⟩

theorem numeric_newWidth {q q' : Calqueue α} {w : ExactDouble}
    (hw : newWidthWith (resize 0) q = .ok (w, q')) : Numeric w := by
  rcases newWidth_ok hw with ⟨_, hone⟩ | ⟨_, temp, _, _, hsampled⟩
  · exact Or.inr ⟨1, hone⟩
  · rw [hsampled]
    exact numeric_sampledWidth temp

/-- A reachable queue has a number for its width, or not-a-number. -/
theorem reachable_run {m q : Calqueue α} {ops : List (Op α)}
    (h : Run CallStep (calqueueInit m) ops q) : Settled q ∧ Numeric q.cwidth := by
  refine h.invariant (I := fun q => Settled q ∧ Numeric q.cwidth) (fun q op q' hq hstep => ?_)
    ⟨settled_init m, Or.inr ⟨1, rfl⟩⟩
  refine ⟨settled_step hq.1 (widthStep_of_callStep hstep), ?_⟩
  rcases callStep_cwidth hq.1 hstep with hsame | ⟨_, _, w, _, _, hw, hnew⟩
  · rw [hsame]
    exact hq.2
  · rw [hnew]
    exact numeric_newWidth hw

/-- The layout of the calendar in every run, with any priorities and with any
widths in the place of those of `new_width`.  The number of buckets is a power
of two between 2 and `maxnbuckets` and the window lies inside `calq`.  The next
call resizes only into a window that lies inside `calq` and does not meet the
window still to be copied, each of the dequeues that sample finds a queue that
counts an event, and the call either returns or uses an index outside of its
window.  The call of the header is one of these calls. -/
theorem calendar_layout {m q : Calqueue α} {ops : List (Op α)}
    (h : Run WidthStep (calqueueInit m) ops q) :
    ((∃ k : ℕ, q.nbuckets = 2 ^ k) ∧ 2 ≤ q.nbuckets ∧ q.nbuckets ≤ maxnbuckets ∧
        window q ⊆ Set.Ico 0 calqspace) ∧
      (∀ op q₁ newsize w q₂, Resizes q op q₁ newsize →
        newWidthWith (resize 0) q₁ = .ok (w, q₂) →
        Disjoint (window q₂) (newWindow q₂ newsize) ∧
          newWindow q₂ newsize ⊆ Set.Ico 0 calqspace) ∧
      (∀ op q₁ newsize, Resizes q op q₁ newsize → 2 ≤ q₁.qsize →
        ∀ (k : ℕ) temp q', (k : ℤ) < nsamples q₁ →
          sample (deqWith (resize 0)) k { q₁ with resizeEnabled := false } = .ok (temp, q') →
          0 < q'.qsize) ∧
      (∀ op bwidth f, callAt bwidth q op = .error f → LeavesWindow f) ∧
      ∀ op, ∃ bwidth, call q op = callAt bwidth q op := by
  have hq := settled_run h
  obtain ⟨k, _, _, hk⟩ := hq.nbuckets
  obtain ⟨h2, hmax⟩ := two_le_size hq.nbuckets
  refine ⟨⟨⟨k, hk⟩, h2, hmax, hq.toCounted.window_subset⟩, ?_, ?_,
    fun op bwidth f => (callAt_outcome hq bwidth op).of_error, exists_callAt q⟩
  · intro op q₁ newsize w q₂ hr hw
    have hres := resizable_of_resizes hq hr
    have hcounted := ((newWidth_outcome hres.toCounted hres.enabled).of_ok hw).1
    exact ⟨hcounted.disjoint_newWindow hres.newsize_eq, newWindow_subset hres.newsize_eq⟩
  · intro op q₁ newsize hr hsize k temp q' hk hs
    have hres := resizable_of_resizes hq hr
    have hle := (nsamples_le hsize).2
    have hoff : Counted { q₁ with resizeEnabled := false } :=
      hres.toCounted.withControl q₁.lastbucket q₁.lastprio q₁.buckettop false
    obtain ⟨_, _, _, _, _, hcount⟩ := (sample_outcome k hoff rfl (hk.le.trans hle)).of_ok hs
    have hleft : q'.qsize = q₁.qsize - k := hcount
    omega

/-- `calendar_layout` after five puts, the last of which grows the calendar to
the other end of `calq`. -/
theorem calendar_layout_grown :
    ∃ q : Calqueue ℕ, q.firstsub = 65532 ∧ q.nbuckets = 4 ∧ window q ⊆ Set.Ico 0 calqspace ∧
      ∀ op bwidth f, callAt bwidth q op = .error f → LeavesWindow f := by
  obtain ⟨q, hrun, hp⟩ := Lib.exists_run call (fun _ _ => true) (calqueueInit (blank ℕ))
    [.put ⟨0, 0⟩, .put ⟨1, 1⟩, .put ⟨2, 2⟩, .put ⟨3, 3⟩, .put ⟨4, 4⟩]
    (fun q => decide (q.firstsub = 65532) && decide (q.nbuckets = 4)) (by decide +kernel)
  obtain ⟨hfirst, hn⟩ := Bool.and_eq_true_iff.mp hp
  have hwide : Run WidthStep (calqueueInit (blank ℕ)) _ q :=
    hrun.mono fun _ _ _ hs => widthStep_of_callStep hs.2
  obtain ⟨⟨_, _, _, hwindow⟩, _, _, hfault, _⟩ := calendar_layout hwide
  exact ⟨q, of_decide_eq_true hfirst, of_decide_eq_true hn, hwindow, hfault⟩

end LinuxFibers.CalQueue
