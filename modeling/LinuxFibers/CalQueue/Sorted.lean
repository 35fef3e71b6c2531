import LinuxFibers.CalQueue.Ties

/-!
# Sorted buckets

`calqueue_put` compares the head of a bucket with `>` and scans behind the head
with `<=`.  Together they find one place: behind all nodes with a priority that
is not greater, in front of all greater ones.  `place_inOrder` says so for every list
in order.

`calqueue_sorted` carries this through the calls: a put or a dequeue that
returns leaves sorted buckets, from any state with sorted buckets.  Nothing else
is asked of the state.  The width, the thresholds and `qsize` may be anything,
so the copy of a `resize` may start another one, and the result holds for every
number of levels of nested calls.
-/

namespace LinuxFibers.CalQueue

open LinuxFibers.Lib

variable {α : Type}

/-! ## The place of a new node -/

/-- `l'` is `l` with the node `n` behind all nodes that are not greater and in
front of all that are. -/
def InsertedInOrder (n : Node α) (l l' : List (Node α)) : Prop :=
  ∃ below above, l = below ++ above ∧ l' = below ++ n :: above ∧
    (∀ e ∈ below, e.priority ≤ n.priority) ∧ ∀ e ∈ above, n.priority < e.priority

theorem insertedInOrder_front {n : Node α} {l : List (Node α)}
    (h : ∀ e ∈ l, n.priority < e.priority) : InsertedInOrder n l (n :: l) :=
  ⟨[], l, rfl, rfl, fun _ he => absurd he List.not_mem_nil, h⟩

theorem InsertedInOrder.cons {n t : Node α} {l l' : List (Node α)} (h : InsertedInOrder n l l')
    (ht : t.priority ≤ n.priority) : InsertedInOrder n (t :: l) (t :: l') := by
  obtain ⟨below, above, hl, hl', hbelow, habove⟩ := h
  refine ⟨t :: below, above, by rw [hl]; rfl, by rw [hl']; rfl, fun e he => ?_, habove⟩
  rcases List.mem_cons.mp he with heq | he
  · rw [heq]
    exact ht
  · exact hbelow e he

theorem placeAfter_inOrder {n : Node α} {l : List (Node α)} (h : Ascending l) :
    InsertedInOrder n l (placeAfter n l) := by
  induction l with
  | nil => exact insertedInOrder_front fun _ he => absurd he List.not_mem_nil
  | cons t rest ih =>
    have htail : Ascending rest := h.tail
    rw [placeAfter]
    split
    · rename_i hle
      exact (ih htail).cons hle
    · rename_i hlt
      exact insertedInOrder_front fun e he => (not_le.mp hlt).trans_le (head_le h he)

/-- The head case and the scan find the one place for a new node. -/
theorem place_inOrder {n : Node α} {l : List (Node α)} (h : Ascending l) :
    InsertedInOrder n l (place n l) := by
  cases l with
  | nil => exact insertedInOrder_front fun _ he => absurd he List.not_mem_nil
  | cons t rest =>
    have htail : Ascending rest := h.tail
    rw [place]
    split
    · rename_i hlt
      exact insertedInOrder_front fun e he => hlt.trans_le (head_le h he)
    · rename_i hge
      exact (placeAfter_inOrder htail).cons (not_lt.mp hge)

/-! ## Puts and dequeues over a `resize` -/

/-- A `resize` that leaves sorted buckets when it returns. -/
def KeepsSorted (rsz : Calqueue α → ℤ → Except Fault (Calqueue α)) : Prop :=
  ∀ q newsize q', Sorted q → rsz q newsize = .ok q' → Sorted q'

section Calls

variable {rsz : Calqueue α → ℤ → Except Fault (Calqueue α)} {q q' : Calqueue α}

theorem putWith_sorted (hr : KeepsSorted rsz) (h : Sorted q) {n : Node α}
    (hput : putWith rsz q n = .ok q') : Sorted q' := by
  obtain ⟨q₁, hins, hrest⟩ := of_bind hput
  obtain ⟨hq₁, _⟩ := insertNode_ok hins
  have hsorted : Sorted q₁ := by
    rw [hq₁]
    exact h.inserted n
  split at hrest
  · exact hr q₁ _ q' hsorted hrest
  · rw [← Except.ok.inj hrest]
    exact hsorted

theorem deqWith_sorted (hr : KeepsSorted rsz) (h : Sorted q) {r : Option (Node α)}
    (hdeq : deqWith rsz q = .ok (r, q')) : Sorted q' := by
  rcases deqWith_ok hdeq with ⟨_, _, hq'⟩ | ⟨_, e, q₁, htake, _, hres⟩
  · rw [hq']
    exact h
  · obtain ⟨i, top, rest, _, hb, hq₁⟩ := takeNext_ok htake
    have hsorted : Sorted q₁ := by
      rw [hq₁]
      exact h.taken hb top
    split at hres
    · exact hr q₁ _ q' hsorted hres
    · rw [← Except.ok.inj hres]
      exact hsorted

theorem sample_sorted (hr : KeepsSorted rsz) (n : ℕ) :
    ∀ {q q' : Calqueue α} {temp : List (Node α)}, Sorted q →
      sample (deqWith rsz) n q = .ok (temp, q') → Sorted q' := by
  induction n with
  | zero =>
    intro q q' temp h hs
    rw [← (Prod.mk.inj (Except.ok.inj hs)).2]
    exact h
  | succ n ih =>
    intro q q' temp h hs
    obtain ⟨⟨r, q₁⟩, hdeq, hcase⟩ := of_bind hs
    cases r with
    | none => cases hcase
    | some e =>
      obtain ⟨⟨tail, q₂⟩, hsample, hlast⟩ := of_bind hcase
      rw [← (Prod.mk.inj (Except.ok.inj hlast)).2]
      exact ih (deqWith_sorted hr h hdeq) hsample

theorem putAll_sorted (hr : KeepsSorted rsz) {l : List (Node α)} :
    ∀ {q q' : Calqueue α}, Sorted q → putAll (putWith rsz) l q = .ok q' → Sorted q' := by
  induction l with
  | nil =>
    intro q q' h hput
    rw [← Except.ok.inj hput]
    exact h
  | cons n rest ih =>
    intro q q' h hput
    obtain ⟨q₁, hfirst, hrest⟩ := of_bind hput
    exact ih (putWith_sorted hr h hfirst) hrest

/-- The sampling and the insertions that put the sample back. -/
theorem newWidth_sorted (hr : KeepsSorted rsz) (h : Sorted q) {w : ExactDouble}
    (hw : newWidthWith rsz q = .ok (w, q')) : Sorted q' := by
  rw [newWidthWith] at hw
  split at hw
  · rw [← (Prod.mk.inj (Except.ok.inj hw)).2]
    exact h
  · obtain ⟨⟨temp, q₁⟩, hsample, hrest⟩ := of_bind hw
    obtain ⟨q₂, hput, hlast⟩ := of_bind hrest
    have hoff : Sorted { q with resizeEnabled := false } := h
    have hsorted : Sorted q₂ := putAll_sorted hr (sample_sorted hr _ hoff hsample) hput
    rw [← (Prod.mk.inj (Except.ok.inj hlast)).2]
    exact hsorted

theorem copyBuckets_sorted (hr : KeepsSorted rsz) {base : ℤ} (k : ℕ) :
    ∀ {q q' : Calqueue α}, Sorted q → copyBuckets (putWith rsz) base k q = .ok q' →
      Sorted q' := by
  induction k with
  | zero =>
    intro q q' h hcopy
    rw [← Except.ok.inj hcopy]
    exact h
  | succ k ih =>
    intro q q' h hcopy
    obtain ⟨q₁, hput, hrest⟩ := of_bind hcopy
    exact ih (putAll_sorted hr h hput) hrest

end Calls

/-- A `resize` starts from an empty window, so the order of the old buckets does
not matter for the new ones. -/
theorem resize_sorted (levels : ℕ) : KeepsSorted (resize (α := α) levels) := by
  induction levels with
  | zero =>
    intro q newsize q' h hres
    rw [resize_zero_ok hres]
    exact h
  | succ levels ih =>
    intro q newsize q' h hres
    cases hon : q.resizeEnabled with
    | false =>
      rw [← Except.ok.inj ((idle_resize _ q newsize hon).symm.trans hres)]
      exact h
    | true =>
      rw [resize_succ hon] at hres
      obtain ⟨⟨w, q₁⟩, _, hcopy⟩ := of_bind hres
      exact copyBuckets_sorted ih _ (sorted_localinit q₁ _ newsize w _) hcopy

/-! ## The functions of the header -/

/-- A put that starts no resize is its insertion. -/
theorem putWith_inserted {q : Calqueue α} {n : Node α} (h0 : 0 ≤ bucketOf q n.priority)
    (hn : bucketOf q n.priority < q.nbuckets)
    (hidle : growing (inserted q n) = false ∨ q.resizeEnabled = false) (levels : ℕ) :
    putWith (resize levels) q n = .ok (inserted q n) := by
  simp only [putWith, insertNode_of_mem h0 hn, bind, Except.bind]
  rcases hidle with hsmall | hoff
  · simp [hsmall, pure, Except.pure]
  · rw [idle_resize levels (inserted q n) _ hoff]
    split <;> rfl

/-- Puts, dequeues and the sampling keep the buckets sorted, with all the calls
that they make, and a put that starts no resize adds its node at the one place
in order and writes no other bucket.  `calqueuePut` and `calqueueDeq` are the
case of one level. -/
theorem calqueue_sorted {q : Calqueue α} (h : Sorted q) (levels : ℕ) :
    (∀ n q', putWith (resize levels) q n = .ok q' → Sorted q') ∧
      (∀ r q', deqWith (resize levels) q = .ok (r, q') → Sorted q') ∧
      (∀ w q', newWidthWith (resize levels) q = .ok (w, q') → Sorted q') ∧
      ∀ n, 0 ≤ bucketOf q n.priority → bucketOf q n.priority < q.nbuckets →
        growing (inserted q n) = false ∨ q.resizeEnabled = false →
        ∃ q', putWith (resize levels) q n = .ok q' ∧
          InsertedInOrder n (q.bucket (bucketOf q n.priority))
            (q'.bucket (bucketOf q n.priority)) ∧
          ∀ k, k ≠ q.firstsub + bucketOf q n.priority → q'.calq k = q.calq k := by
  have hr : KeepsSorted (resize (α := α) levels) := resize_sorted levels
  refine ⟨fun n q' => putWith_sorted hr h, fun r q' => deqWith_sorted hr h,
    fun w q' => newWidth_sorted hr h, fun n h0 hn hidle => ?_⟩
  refine ⟨inserted q n, putWith_inserted h0 hn hidle levels, ?_, fun k hk => ?_⟩
  · rw [bucket_inserted_self q n]
    exact place_inOrder (h _ h0 hn)
  · exact Function.update_of_ne hk _ _

/-- `calqueue_sorted` on a put at 1 into a bucket with nodes at 1 and 3. -/
theorem calqueue_sorted_between :
    ∃ q', calqueuePut (inserted (inserted (calqueueInit (blank ℕ)) ⟨1, 0⟩) ⟨3, 1⟩) 1 2 =
        .ok q' ∧ q'.bucket 1 = [⟨1, 0⟩, ⟨1, 2⟩, ⟨3, 1⟩] ∧ Sorted q' := by
  have hinit : Sorted (calqueueInit (blank ℕ)) := sorted_localinit _ 0 2 (.fin 1) 0
  obtain ⟨hput, _, _, hone⟩ := calqueue_sorted ((hinit.inserted ⟨1, 0⟩).inserted ⟨3, 1⟩) 1
  obtain ⟨q', hq', _⟩ := hone ⟨1, 2⟩ (by decide +kernel) (by decide +kernel)
    (Or.inl (by decide +kernel))
  have hq : q' = inserted (inserted (inserted (calqueueInit (blank ℕ)) ⟨1, 0⟩) ⟨3, 1⟩) ⟨1, 2⟩ :=
    Except.ok.inj (hq'.symm.trans (putWith_inserted (by decide +kernel) (by decide +kernel)
      (Or.inl (by decide +kernel)) 1))
  exact ⟨q', hq', by rw [hq]; decide +kernel, hput ⟨1, 2⟩ q' hq'⟩

end LinuxFibers.CalQueue
