import LinuxFibers.CalQueue.Order
import Mathlib.Data.List.Infix

/-!
# Simultaneous events

`calqueue_put` scans past the nodes of the same priority, so the events of one
priority stand in their bucket in the order of the puts.  `tied p` projects a
list to the priority `p`, and `ties q p` are the stored events of that priority
in the order of their bucket.

A put appends to the ties of its priority and a get takes the first of them.
The copy of `resize` keeps all ties: the events of one priority share a bucket,
which is copied from its head on.  `new_width` does not keep them.  It dequeues
a sample from the front and puts it back behind what the sample left, so a
priority that is sampled in part is rotated.  `splitsTie` says that of a state
on which `resize` is called, and `resize_keepsTies_iff` that nothing else
changes the order.

`Filed` is what a call keeps whenever it returns here, whatever the width is.
`calqueueGet_inTurn` asks for usable widths as well, as `no_event_lost` does: a
call of the source that leaves the window goes on, and a later get can then
return an event from a slot that no window sets up again.
-/

namespace LinuxFibers.CalQueue

open LinuxFibers.Lib

variable {α : Type}

/-! ## The events of one priority -/

/-- The nodes of a list with the priority `p`, in the order of the list. -/
def tied (p : ℚ) (l : List (Node α)) : List (Node α) :=
  l.filter fun e => decide (e.priority = p)

/-- The nodes of the window with the priority `p`, in the order in which
`resize` copies them. -/
def ties (q : Calqueue α) (p : ℚ) : List (Node α) :=
  tied p (copyOrder q.calq q.firstsub q.nbuckets.toNat)

theorem tied_append (p : ℚ) (l l' : List (Node α)) :
    tied p (l ++ l') = tied p l ++ tied p l' :=
  List.filter_append l l'

theorem tied_cons (p : ℚ) (e : Node α) (l : List (Node α)) :
    tied p (e :: l) = tied p [e] ++ tied p l :=
  tied_append p [e] l

theorem tied_eq_nil {p : ℚ} {l : List (Node α)} :
    tied p l = [] ↔ ∀ e ∈ l, e.priority ≠ p := by
  simp [tied, List.filter_eq_nil_iff]

theorem tied_singleton_of_ne {p : ℚ} {e : Node α} (h : e.priority ≠ p) : tied p [e] = [] :=
  tied_eq_nil.mpr fun f hf => by rwa [List.mem_singleton.mp hf]

/-- The order inside one priority does not see that a node is in front of
greater ones. -/
theorem tied_cons_of_lt {p : ℚ} {n t : Node α} {rest : List (Node α)}
    (h : Ascending (t :: rest)) (hlt : n.priority < t.priority) :
    tied p (n :: t :: rest) = tied p (t :: rest ++ [n]) := by
  rw [tied_cons, tied_append]
  by_cases hp : n.priority = p
  · have hnone : tied p (t :: rest) = [] := tied_eq_nil.mpr fun e he => by
      have hle := head_le h he
      rw [← hp]
      exact (hlt.trans_le hle).ne'
    simp [hnone]
  · simp [tied_singleton_of_ne hp]

theorem tied_placeAfter (p : ℚ) {n : Node α} {l : List (Node α)} (h : Ascending l) :
    tied p (placeAfter n l) = tied p (l ++ [n]) := by
  induction l with
  | nil => rfl
  | cons t rest ih =>
    rw [placeAfter]
    split
    · have htail : Ascending rest := h.tail
      rw [tied_cons, ih htail, List.cons_append, tied_cons p t (rest ++ [n])]
    · rename_i hlt
      exact tied_cons_of_lt h (not_le.mp hlt)

/-- The scan of `calqueue_put` puts a node behind the nodes of its priority. -/
theorem tied_place (p : ℚ) {n : Node α} {l : List (Node α)} (h : Ascending l) :
    tied p (place n l) = tied p (l ++ [n]) := by
  cases l with
  | nil => rfl
  | cons t rest =>
    rw [place]
    split
    · rename_i hlt
      exact tied_cons_of_lt h hlt
    · have htail : Ascending rest := h.tail
      rw [tied_cons, tied_placeAfter p htail, List.cons_append, tied_cons p t (rest ++ [n])]

/-! ## One bucket for one priority -/

theorem tied_copyOrder_eq_nil {calq : ℤ → List (Node α)} {base : ℤ} {p : ℚ} (k : ℕ)
    (h : ∀ j : ℕ, j < k → tied p (calq (base + j)) = []) :
    tied p (copyOrder calq base k) = [] := by
  induction k with
  | zero => rfl
  | succ k ih =>
    rw [copyOrder, tied_append, h k (by omega), ih fun j hj => h j (by omega)]
    rfl

theorem tied_copyOrder {calq : ℤ → List (Node α)} {base : ℤ} {p : ℚ} {i : ℕ} (k : ℕ)
    (hi : i < k) (h : ∀ j : ℕ, j < k → j ≠ i → tied p (calq (base + j)) = []) :
    tied p (copyOrder calq base k) = tied p (calq (base + i)) := by
  induction k with
  | zero => omega
  | succ k ih =>
    rw [copyOrder, tied_append]
    by_cases hk : i = k
    · subst hk
      rw [tied_copyOrder_eq_nil i fun j hj => h j (by omega) (by omega), List.append_nil]
    · rw [h k (by omega) (by omega), ih (by omega) fun j hj => h j (by omega)]
      rfl

theorem tied_bucket_of_ne {q : Calqueue α} (h : Placed q) {p : ℚ} {j : ℤ} (h0 : 0 ≤ j)
    (hn : j < q.nbuckets) (hj : j ≠ bucketOf q p) : tied p (q.bucket j) = [] :=
  tied_eq_nil.mpr fun e he hp => hj (by rw [← hp, h.bucket_eq j h0 hn e he])

/-- The ties of a priority are in the bucket of the priority. -/
theorem ties_eq_bucket {q : Calqueue α} (h : Placed q) {p : ℚ} (h0 : 0 ≤ bucketOf q p)
    (hn : bucketOf q p < q.nbuckets) : ties q p = tied p (q.bucket (bucketOf q p)) := by
  have hcopy : ties q p = tied p (q.bucket (bucketOf q p).toNat) :=
    tied_copyOrder q.nbuckets.toNat (by omega) fun j hj hne =>
      tied_bucket_of_ne h (by omega) (by omega) (by omega)
  rwa [Int.toNat_of_nonneg h0] at hcopy

/-- A priority without a bucket has no ties. -/
theorem ties_eq_nil {q : Calqueue α} (h : Placed q) {p : ℚ}
    (hout : ¬ (0 ≤ bucketOf q p ∧ bucketOf q p < q.nbuckets)) : ties q p = [] :=
  tied_copyOrder_eq_nil _ fun j hj =>
    tied_bucket_of_ne h (by omega) (by omega) fun hb => hout (by omega)

theorem ties_localinit (q : Calqueue α) (base n : ℤ) (w : ExactDouble) (s p : ℚ) :
    ties (localinit q base n w s) p = [] := by
  have hempty := stored_localinit q base n w s
  rw [stored, ← coe_copyOrder, Multiset.coe_eq_zero] at hempty
  rw [ties, hempty]
  rfl

/-- An insertion puts its node behind the ties of its priority. -/
theorem ties_inserted {q : Calqueue α} (h : Placed q) {n : Node α}
    (h0 : 0 ≤ bucketOf q n.priority) (hn : bucketOf q n.priority < q.nbuckets) (p : ℚ) :
    ties (inserted q n) p = ties q p ++ tied p [n] := by
  by_cases hin : 0 ≤ bucketOf q p ∧ bucketOf q p < q.nbuckets
  · rw [ties_eq_bucket h hin.1 hin.2, ties_eq_bucket h.inserted hin.1 hin.2]
    show tied p ((inserted q n).bucket (bucketOf q p)) = _
    by_cases hb : bucketOf q p = bucketOf q n.priority
    · rw [hb, bucket_inserted_self, tied_place p (h.ascending _ h0 hn), tied_append]
    · have hp : n.priority ≠ p := fun hp => hb (by rw [hp])
      rw [bucket_inserted_ne q hb, tied_singleton_of_ne hp, List.append_nil]
  · have hp : n.priority ≠ p := fun hp => hin (by rw [← hp]; exact ⟨h0, hn⟩)
    rw [ties_eq_nil h hin, ties_eq_nil h.inserted hin, tied_singleton_of_ne hp]
    rfl

/-- A dequeue takes the first of the ties of its priority. -/
theorem ties_taken {q : Calqueue α} (h : Placed q) {i : ℤ} (h0 : 0 ≤ i) (hn : i < q.nbuckets)
    {e : Node α} {rest : List (Node α)} (hb : q.bucket i = e :: rest) (top : ExactDouble)
    (p : ℚ) : ties q p = tied p [e] ++ ties (taken q i top e rest) p := by
  have he : bucketOf q e.priority = i :=
    h.bucket_eq i h0 hn e (by rw [hb]; exact List.mem_cons_self)
  have h' : Placed (taken q i top e rest) := h.taken hb top
  by_cases hin : 0 ≤ bucketOf q p ∧ bucketOf q p < q.nbuckets
  · rw [ties_eq_bucket h hin.1 hin.2, ties_eq_bucket h' hin.1 hin.2]
    show _ = tied p [e] ++ tied p ((taken q i top e rest).bucket (bucketOf q p))
    by_cases hi : bucketOf q p = i
    · rw [hi, bucket_taken_self, hb, tied_cons]
    · have hp : e.priority ≠ p := fun hp => hi (by rw [← hp, he])
      rw [bucket_taken_ne q hi, tied_singleton_of_ne hp]
      rfl
  · have hp : e.priority ≠ p := fun hp => hin (by rw [← hp, he]; exact ⟨h0, hn⟩)
    rw [ties_eq_nil h hin, ties_eq_nil h' hin, tied_singleton_of_ne hp]
    rfl

/-! ## Calls that return -/

theorem insertNode_ok {q q' : Calqueue α} {n : Node α} (h : insertNode q n = .ok q') :
    q' = inserted q n ∧
      ∃ l, q.calendar (bucketOf q n.priority) = .ok l := by
  obtain ⟨l, hl, hq⟩ := of_bind h
  have hb := calendar_ok hl
  subst hb
  exact ⟨(Except.ok.inj hq).symm, _, hl⟩

theorem Confined.insertNode_mem {q q' : Calqueue α} (hc : Confined q) {n : Node α}
    (h : insertNode q n = .ok q') :
    0 ≤ bucketOf q n.priority ∧ bucketOf q n.priority < q.nbuckets := by
  obtain ⟨_, l, hl⟩ := insertNode_ok h
  exact hc.mem_of_ok hl

theorem takeNext_ok {q q₁ : Calqueue α} {e : Node α} (h : takeNext q = .ok (e, q₁)) :
    ∃ i top rest, q.calendar i = .ok (e :: rest) ∧ q.bucket i = e :: rest ∧
      q₁ = taken q i top e rest := by
  obtain ⟨⟨i, top⟩, _, htake⟩ := of_bind h
  obtain ⟨l, hl, hcase⟩ := of_bind htake
  cases l with
  | nil => cases hcase
  | cons f rest =>
    have heq := Prod.mk.inj (Except.ok.inj hcase)
    have hf : f = e := heq.1
    subst hf
    exact ⟨i, top, rest, hl, calendar_ok hl, heq.2.symm⟩

/-- Below the last level of calls a `resize` that returns does nothing. -/
theorem resize_zero_ok {q q' : Calqueue α} {n : ℤ} (h : resize 0 q n = .ok q') : q' = q := by
  rw [resize] at h
  split at h
  · cases h
  · exact (Except.ok.inj h).symm

theorem putWith_ok {q q' : Calqueue α} (hc : Confined q) {n : Node α}
    (h : putWith (resize 0) q n = .ok q') :
    0 ≤ bucketOf q n.priority ∧ bucketOf q n.priority < q.nbuckets ∧ q' = inserted q n := by
  obtain ⟨q₁, hins, hrest⟩ := of_bind h
  obtain ⟨h0, hn⟩ := hc.insertNode_mem hins
  refine ⟨h0, hn, ?_⟩
  rw [← (insertNode_ok hins).1]
  split at hrest
  · exact resize_zero_ok hrest
  · exact (Except.ok.inj hrest).symm

/-- The dequeue before its `resize`. -/
theorem deqWith_ok {rsz : Calqueue α → ℤ → Except Fault (Calqueue α)} {q q' : Calqueue α}
    {r : Option (Node α)} (h : deqWith rsz q = .ok (r, q')) :
    q.qsize = 0 ∧ r = none ∧ q' = q ∨
      q.qsize ≠ 0 ∧ ∃ e q₁, takeNext q = .ok (e, q₁) ∧ r = some e ∧
        (if shrinking q₁ = true then rsz q₁ (q₁.nbuckets.tdiv 2) else .ok q₁) = .ok q' := by
  rw [deqWith] at h
  split at h
  · rename_i hempty
    have heq := Prod.mk.inj (Except.ok.inj h)
    exact Or.inl ⟨hempty, heq.1.symm, heq.2.symm⟩
  · rename_i hne
    obtain ⟨⟨e, q₁⟩, htake, hrest⟩ := of_bind h
    have hjoin : ((if shrinking q₁ = true then rsz q₁ (q₁.nbuckets.tdiv 2) else .ok q₁) >>=
        fun q => .ok (some e, q)) = .ok (r, q') := by
      rw [← hrest]
      cases hs : shrinking q₁ <;> simp only [hs] <;> rfl
    obtain ⟨q₂, hres, hlast⟩ := of_bind hjoin
    have heq := Prod.mk.inj (Except.ok.inj hlast)
    refine Or.inr ⟨hne, e, q₁, htake, heq.1.symm, ?_⟩
    rw [← heq.2]
    exact hres

/-! ## What a call keeps whenever it returns -/

/-- The window and the buckets of a queue, whatever its width is. -/
structure Filed (q : Calqueue α) : Prop extends Placed q where
  confined : Confined q
  nbuckets : ∃ k : ℕ, 1 ≤ k ∧ k ≤ 15 ∧ q.nbuckets = 2 ^ k
  firstsub : q.firstsub = 0 ∨ q.firstsub = calqspace - q.nbuckets
  botThreshold : q.botThreshold = q.nbuckets.tdiv 2 - 2
  size_nonneg : 0 ≤ q.qsize

theorem filed_localinit (q : Calqueue α) {base n : ℤ} (w : ExactDouble) (s : ℚ)
    (hn : ∃ k : ℕ, 1 ≤ k ∧ k ≤ 15 ∧ n = 2 ^ k) (hbase : base = 0 ∨ base = calqspace - n) :
    Filed (localinit q base n w s) :=
  ⟨placed_localinit q base n w s, confined_localinit q base n w s, hn, hbase, rfl, le_rfl⟩

/-- The fields of the scan and the flag are no part of it. -/
theorem Filed.withControl {q : Calqueue α} (h : Filed q) (lastbucket : ℤ) (lastprio : ℚ)
    (buckettop : ExactDouble) (enabled : Bool) :
    Filed { q with
      lastbucket := lastbucket, lastprio := lastprio, buckettop := buckettop,
      resizeEnabled := enabled } :=
  ⟨⟨h.ascending, h.bucket_eq⟩, h.confined, h.nbuckets, h.firstsub, h.botThreshold,
    h.size_nonneg⟩

theorem Filed.inserted {q : Calqueue α} (h : Filed q) (n : Node α) : Filed (inserted q n) := by
  refine ⟨h.toPlaced.inserted, h.confined, h.nbuckets, h.firstsub, h.botThreshold, ?_⟩
  show 0 ≤ q.qsize + 1
  have := h.size_nonneg
  omega

theorem Filed.taken {q : Calqueue α} (h : Filed q) (hne : q.qsize ≠ 0) {i : ℤ} {e : Node α}
    {rest : List (Node α)} (hb : q.bucket i = e :: rest) (top : ExactDouble) :
    Filed (taken q i top e rest) := by
  refine ⟨h.toPlaced.taken hb top, h.confined, h.nbuckets, h.firstsub, h.botThreshold, ?_⟩
  show 0 ≤ q.qsize - 1
  have := h.size_nonneg
  omega

/-- A dequeue without its `resize` takes the first of the ties of a priority. -/
theorem takeNext_ties {q q₁ : Calqueue α} {e : Node α} (h : Filed q) (hne : q.qsize ≠ 0)
    (htake : takeNext q = .ok (e, q₁)) :
    Filed q₁ ∧ q₁.nbuckets = q.nbuckets ∧ ∀ p, ties q p = tied p [e] ++ ties q₁ p := by
  obtain ⟨i, top, rest, hread, hb, hq₁⟩ := takeNext_ok htake
  obtain ⟨h0, hn⟩ := h.confined.mem_of_ok hread
  subst hq₁
  exact ⟨h.taken hne hb top, rfl, ties_taken h.toPlaced h0 hn hb top⟩

/-- The sample of `new_width` comes from the front of the ties. -/
theorem sample_ties (n : ℕ) :
    ∀ {q q' : Calqueue α} {temp : List (Node α)}, Filed q →
      sample (deqWith (resize 0)) n q = .ok (temp, q') →
      Filed q' ∧ ∀ p, ties q p = tied p temp ++ ties q' p := by
  induction n with
  | zero =>
    intro q q' temp h hs
    have heq := Prod.mk.inj (Except.ok.inj hs)
    rw [← heq.1, ← heq.2]
    exact ⟨h, fun _ => rfl⟩
  | succ n ih =>
    intro q q' temp h hs
    obtain ⟨⟨r, q₂⟩, hdeq, hcase⟩ := of_bind hs
    rcases deqWith_ok hdeq with ⟨_, hr, _⟩ | ⟨hne, e, q₁, htake, hr, hres⟩
    · subst hr
      cases hcase
    · subst hr
      obtain ⟨⟨tail, q₃⟩, hsample, hlast⟩ := of_bind hcase
      have heq := Prod.mk.inj (Except.ok.inj hlast)
      have hq₂ : q₂ = q₁ := by
        split at hres
        · exact resize_zero_ok hres
        · exact (Except.ok.inj hres).symm
      obtain ⟨hfiled, _, htaken⟩ := takeNext_ties h hne htake
      rw [hq₂] at hsample
      obtain ⟨hfiled', hties⟩ := ih hfiled hsample
      rw [← heq.1, ← heq.2]
      refine ⟨hfiled', fun p => ?_⟩
      rw [htaken p, hties p, tied_cons p e tail, List.append_assoc]

/-- The nodes that a loop puts go behind the ties of their priority. -/
theorem putAll_ties {l : List (Node α)} :
    ∀ {q q' : Calqueue α}, Filed q → putAll (putWith (resize 0)) l q = .ok q' →
      Filed q' ∧ SameControl q q' ∧ ∀ p, ties q' p = ties q p ++ tied p l := by
  induction l with
  | nil =>
    intro q q' h hput
    rw [← Except.ok.inj hput]
    exact ⟨h, .refl q, fun p => (List.append_nil _).symm⟩
  | cons n rest ih =>
    intro q q' h hput
    obtain ⟨q₁, hfirst, hrest⟩ := of_bind hput
    obtain ⟨h0, hn, hq₁⟩ := putWith_ok h.confined hfirst
    rw [hq₁] at hrest
    obtain ⟨hfiled, hsame, hties⟩ := ih (h.inserted n) hrest
    refine ⟨hfiled, (sameControl_of_mem h0 hn).trans hsame, fun p => ?_⟩
    rw [hties p, ties_inserted h.toPlaced h0 hn p, List.append_assoc, ← tied_cons]

/-- The copy of the first `k` old buckets: they lie outside of the new window,
so they are still the old ones when their turn comes. -/
theorem copyBuckets_ties {base : ℤ} (k : ℕ) :
    ∀ {q q' : Calqueue α}, Filed q →
      (∀ i : ℕ, i < k → ¬ (q.firstsub ≤ base + i ∧ base + i < q.firstsub + q.nbuckets)) →
      copyBuckets (putWith (resize 0)) base k q = .ok q' →
      Filed q' ∧ ∀ p, ties q' p = ties q p ++ tied p (copyOrder q.calq base k) := by
  induction k with
  | zero =>
    intro q q' h _ hcopy
    rw [← Except.ok.inj hcopy]
    exact ⟨h, fun p => (List.append_nil _).symm⟩
  | succ k ih =>
    intro q q' h hout hcopy
    obtain ⟨q₁, hput, hrest⟩ := of_bind hcopy
    obtain ⟨hfiled, hsame, hties⟩ := putAll_ties h hput
    have hold : copyOrder q₁.calq base k = copyOrder q.calq base k :=
      copyOrder_congr fun i hi => hsame.outside _ (hout i (by omega))
    obtain ⟨hfiled', hties'⟩ := ih hfiled
      (fun i hi => by rw [hsame.firstsub, hsame.nbuckets]; exact hout i (by omega)) hrest
    refine ⟨hfiled', fun p => ?_⟩
    rw [hties' p, hties p, hold, copyOrder, tied_append, List.append_assoc]

/-! ## The one step that reorders -/

/-- When `new_width` samples `q`, it takes some events of a priority and leaves
others. -/
def splitsTie (q : Calqueue α) : Bool :=
  decide (2 ≤ q.qsize) &&
    match sample (deqWith (resize 0)) (nsamples q).toNat { q with resizeEnabled := false } with
    | .ok (temp, q₁) => temp.any fun e => !(ties q₁ e.priority).isEmpty
    | .error _ => false

/-- The sample `temp` of `new_width` leaves `q₁`, and its events go from the
front of their ties to the back. -/
structure Rotated (q : Calqueue α) (temp : List (Node α)) (q₁ q' : Calqueue α) : Prop where
  size : 2 ≤ q.qsize
  sampled : sample (deqWith (resize 0)) (nsamples q).toNat { q with resizeEnabled := false } =
    .ok (temp, q₁)
  before : ∀ p, ties q p = tied p temp ++ ties q₁ p
  after : ∀ p, ties q' p = ties q₁ p ++ tied p temp

theorem newWidth_ties {q q' : Calqueue α} {w : ExactDouble} (h : Filed q)
    (hw : newWidthWith (resize 0) q = .ok (w, q')) :
    Filed q' ∧ (q.qsize < 2 ∧ q' = q ∨ ∃ temp q₁, Rotated q temp q₁ q') := by
  rw [newWidthWith] at hw
  split at hw
  · rename_i hsmall
    have heq := Prod.mk.inj (Except.ok.inj hw)
    rw [← heq.2]
    exact ⟨h, Or.inl ⟨hsmall, rfl⟩⟩
  · rename_i hsize
    obtain ⟨⟨temp, q₁⟩, hsample, hrest⟩ := of_bind hw
    obtain ⟨q₂, hput, hlast⟩ := of_bind hrest
    have hoff : Filed { q with resizeEnabled := false } :=
      h.withControl q.lastbucket q.lastprio q.buckettop false
    obtain ⟨hfiled, hbefore⟩ := sample_ties _ hoff hsample
    obtain ⟨hfiled₂, _, hafter⟩ := putAll_ties hfiled hput
    have heq := Prod.mk.inj (Except.ok.inj hlast)
    rw [← heq.2]
    exact ⟨hfiled₂.withControl q.lastbucket q.lastprio q.buckettop true,
      Or.inr ⟨temp, q₁, not_lt.mp hsize, hsample, hbefore, hafter⟩⟩

/-- A `resize` that returns keeps the ties up to the sample of `new_width`. -/
theorem resize_ties {q q' : Calqueue α} {newsize : ℤ} (h : Filed q)
    (hn : ∃ k : ℕ, 1 ≤ k ∧ k ≤ 15 ∧ newsize = 2 ^ k) (hres : resize 1 q newsize = .ok q') :
    Filed q' ∧ ((q.resizeEnabled = false ∨ q.qsize < 2) ∧ (∀ p, ties q' p = ties q p) ∨
      q.resizeEnabled = true ∧ ∃ temp q₁, Rotated q temp q₁ q') := by
  cases hon : q.resizeEnabled with
  | false =>
    cases Except.ok.inj ((idle_resize 1 q newsize hon).symm.trans hres)
    exact ⟨h, Or.inl ⟨Or.inl rfl, fun _ => rfl⟩⟩
  | true =>
    rw [resize_succ hon] at hres
    obtain ⟨⟨w, q₂⟩, hw, hcopy⟩ := of_bind hres
    obtain ⟨hfiled, hform⟩ := newWidth_ties h hw
    have hout : ∀ i : ℕ, i < q₂.nbuckets.toNat → ¬ (newBase q₂ newsize ≤ q₂.firstsub + i ∧
        q₂.firstsub + i < newBase q₂ newsize + newsize) := fun i hi =>
      newBase_disjoint hfiled.nbuckets hfiled.firstsub (two_le_size hn).2 hi
    have hnew := filed_localinit q₂ w q₂.lastprio hn (newBase_cases q₂ newsize)
    obtain ⟨hfiled', hties⟩ := copyBuckets_ties q₂.nbuckets.toNat hnew hout hcopy
    have hold : copyOrder (localinit q₂ (newBase q₂ newsize) newsize w q₂.lastprio).calq
        q₂.firstsub q₂.nbuckets.toNat = copyOrder q₂.calq q₂.firstsub q₂.nbuckets.toNat :=
      copyOrder_congr fun i hi => if_neg (hout i hi)
    have hcopied : ∀ p, ties q' p = ties q₂ p := fun p => by
      rw [hties p, ties_localinit, hold]
      rfl
    refine ⟨hfiled', ?_⟩
    rcases hform with ⟨hsmall, hsame⟩ | ⟨temp, q₁, hrot⟩
    · subst hsame
      exact Or.inl ⟨Or.inr hsmall, hcopied⟩
    · exact Or.inr ⟨rfl, temp, q₁, hrot.size, hrot.sampled, hrot.before, fun p => by
        rw [hcopied p, hrot.after p]⟩

theorem splitsTie_eq_false_iff {q q' q₁ : Calqueue α} {temp : List (Node α)}
    (h : Rotated q temp q₁ q') :
    splitsTie q = false ↔ ∀ p, tied p temp = [] ∨ ties q₁ p = [] := by
  have hdef : splitsTie q = temp.any fun e => !(ties q₁ e.priority).isEmpty := by
    rw [splitsTie, h.sampled, decide_eq_true h.size]
    rfl
  rw [hdef, List.any_eq_false]
  constructor
  · intro hnone p
    by_cases hp : tied p temp = []
    · exact Or.inl hp
    · obtain ⟨e, he⟩ := List.exists_mem_of_ne_nil _ hp
      obtain ⟨hmem, hprio⟩ := List.mem_filter.mp he
      have hempty := hnone e hmem
      rw [of_decide_eq_true hprio] at hempty
      exact Or.inr (by simpa using hempty)
  · intro hsplit e he
    rcases hsplit e.priority with hsampled | hleft
    · exact absurd rfl (tied_eq_nil.mp hsampled e he)
    · simp [hleft]

/-- A `resize` keeps the order of simultaneous events when its sample splits no
tie. -/
theorem resize_keepsTies {q q' : Calqueue α} {newsize : ℤ} (h : Filed q)
    (hn : ∃ k : ℕ, 1 ≤ k ∧ k ≤ 15 ∧ newsize = 2 ^ k) (hres : resize 1 q newsize = .ok q')
    (hsplit : splitsTie q = false) : Filed q' ∧ ∀ p, ties q' p = ties q p := by
  obtain ⟨hfiled, hform⟩ := resize_ties h hn hres
  refine ⟨hfiled, ?_⟩
  rcases hform with ⟨_, hsame⟩ | ⟨_, temp, q₁, hrot⟩
  · exact hsame
  · intro p
    rw [hrot.before p, hrot.after p]
    rcases (splitsTie_eq_false_iff hrot).mp hsplit p with hsampled | hleft
    · rw [hsampled, List.append_nil, List.nil_append]
    · rw [hleft, List.append_nil, List.nil_append]

/-- For distinct events this is the only case. -/
theorem resize_keepsTies_iff {q q' : Calqueue α} {newsize : ℤ} (h : Filed q)
    (hn : ∃ k : ℕ, 1 ≤ k ∧ k ≤ 15 ∧ newsize = 2 ^ k) (hres : resize 1 q newsize = .ok q')
    (hon : q.resizeEnabled = true) (hdistinct : ∀ p, (ties q p).Nodup) :
    (∀ p, ties q' p = ties q p) ↔ splitsTie q = false := by
  refine ⟨fun hkeep => ?_, fun hsplit => (resize_keepsTies h hn hres hsplit).2⟩
  rcases (resize_ties h hn hres).2 with ⟨hoff | hsmall, _⟩ | ⟨_, temp, q₁, hrot⟩
  · rw [hon] at hoff
    cases hoff
  · simp [splitsTie, show ¬ 2 ≤ q.qsize by omega]
  · refine (splitsTie_eq_false_iff hrot).mpr fun p => ?_
    have hswap : ties q₁ p ++ tied p temp = tied p temp ++ ties q₁ p := by
      rw [← hrot.before p, ← hrot.after p, hkeep p]
    have hnodup := hdistinct p
    rw [hrot.before p] at hnodup
    cases hsampled : tied p temp with
    | nil => exact Or.inl rfl
    | cons a as =>
      cases hleft : ties q₁ p with
      | nil => exact Or.inr rfl
      | cons b bs =>
        rw [hsampled, hleft] at hswap hnodup
        have hab : b = a := (List.cons.inj hswap).1
        subst hab
        simp at hnodup

/-! ## Puts and gets -/

/-- The resize that the call triggers, if it triggers one, splits no tie. -/
def keepsTies (q : Calqueue α) : Op α → Bool
  | .put n => !growing (inserted q n) || !splitsTie (inserted q n)
  | .get =>
      match takeNext q with
      | .ok (_, q₁) => !shrinking q₁ || !splitsTie q₁
      | .error _ => true

/-- A put that returns puts its event behind the ties of its priority. -/
theorem put_ties {q q' : Calqueue α} {n : Node α} (h : Filed q)
    (hkeep : keepsTies q (.put n) = true)
    (hput : calqueuePut q n.priority n.payload = .ok q') :
    Filed q' ∧ ∀ p, ties q' p = ties q p ++ tied p [n] := by
  obtain ⟨q₁, hins, hrest⟩ := of_bind hput
  obtain ⟨h0, hn⟩ := h.confined.insertNode_mem hins
  obtain ⟨hq₁, _⟩ := insertNode_ok hins
  have hties := ties_inserted h.toPlaced h0 hn
  have hfiled := h.inserted n
  subst hq₁
  split at hrest
  · rename_i hgrow
    have hlt : q.nbuckets < maxnbuckets :=
      of_decide_eq_true (Bool.and_eq_true_iff.mp hgrow).2
    have hsplit : splitsTie (inserted q n) = false := by simpa [keepsTies, hgrow] using hkeep
    obtain ⟨hfiled', hsame⟩ :=
      resize_keepsTies hfiled (size_double hfiled.nbuckets hlt) hrest hsplit
    exact ⟨hfiled', fun p => (hsame p).trans (hties p)⟩
  · rw [← Except.ok.inj hrest]
    exact ⟨hfiled, hties⟩

/-- A get that returns an event returns the first of its ties. -/
theorem get_ties {q q' : Calqueue α} {r : Option (Node α)} (h : Filed q)
    (hkeep : keepsTies q .get = true) (hget : calqueueDeq q = .ok (r, q')) :
    Filed q' ∧ ∀ p, ties q p = tied p r.toList ++ ties q' p := by
  rcases deqWith_ok hget with ⟨_, hr, hq'⟩ | ⟨hne, e, q₁, htake, hr, hres⟩
  · rw [hr, hq']
    exact ⟨h, fun _ => rfl⟩
  · obtain ⟨hfiled, hn, hties⟩ := takeNext_ties h hne htake
    subst hr
    split at hres
    · rename_i hshrink
      have hsmall : q₁.qsize < q₁.nbuckets.tdiv 2 - 2 := by
        rw [← hfiled.botThreshold]
        exact of_decide_eq_true hshrink
      have h2 := (two_le_size hfiled.nbuckets).1
      have hsize := hfiled.size_nonneg
      rw [Int.tdiv_eq_ediv_of_nonneg (by omega)] at hsmall
      have hsplit : splitsTie q₁ = false := by simpa [keepsTies, htake, hshrink] using hkeep
      obtain ⟨hfiled', hsame⟩ :=
        resize_keepsTies hfiled (size_half hfiled.nbuckets (by omega)) hres hsplit
      exact ⟨hfiled', fun p => by rw [hsame p]; exact hties p⟩
    · rw [← Except.ok.inj hres]
      exact ⟨hfiled, hties⟩

/-! ## Runs -/

/-- The calls that return, resize well and split no tie. -/
def TieStep (c : Client α) (op : Op α) (d : Client α) : Prop :=
  keepsTies c.queue op = true ∧ WideStep c op d

/-- For every priority the events put are the events got and then the ties that
are stored. -/
structure InTurn (c : Client α) : Prop extends Conserved c where
  filed : Filed c.queue
  order : ∀ p, tied p c.puts = tied p c.gots ++ ties c.queue p

theorem inTurn_start (q : Calqueue α) : InTurn (start q) where
  toConserved := conserved_start q
  filed := by
    have h : Filed (localinit q 0 2 (.fin 1) 0) :=
      filed_localinit q (.fin 1) 0 ⟨1, by decide, by decide, rfl⟩ (Or.inl rfl)
    exact h.withControl _ _ _ true
  order p := (ties_localinit q 0 2 (.fin 1) 0 p).symm

theorem inTurn_step {c d : Client α} {op : Op α} (h : InTurn c) (hstep : TieStep c op d) :
    InTurn d := by
  obtain ⟨hkeep, hwide⟩ := hstep
  have hcons := conserved_step h.toConserved hwide
  obtain ⟨_, _, hexec⟩ := hwide
  cases op with
  | put n =>
    obtain ⟨q', hput, hd⟩ := of_bind hexec
    obtain ⟨hfiled, hties⟩ := put_ties h.filed hkeep hput
    have hd' := Except.ok.inj hd
    subst hd'
    refine ⟨hcons, hfiled, fun p => ?_⟩
    show tied p (c.puts ++ [n]) = tied p c.gots ++ ties q' p
    rw [tied_append, h.order p, hties p, List.append_assoc]
  | get =>
    obtain ⟨⟨r, q'⟩, hget, hd⟩ := of_bind hexec
    obtain ⟨hfiled, hties⟩ := get_ties h.filed hkeep hget
    have hd' := Except.ok.inj hd
    subst hd'
    refine ⟨hcons, hfiled, fun p => ?_⟩
    show tied p c.puts = tied p (c.gots ++ r.toList) ++ ties q' p
    rw [tied_append, h.order p, hties p, List.append_assoc]

theorem inTurn_run {q : Calqueue α} {ops : List (Op α)} {c : Client α}
    (h : Run TieStep (start q) ops c) : InTurn c :=
  h.invariant (fun _ _ _ => inTurn_step) (inTurn_start q)

/-- A dequeue takes the first of the ties of a priority. -/
theorem calqueueDeq_first {q q' : Calqueue α} {e : Node α} (h : Filed q)
    (hdeq : calqueueDeq q = .ok (some e, q')) : ∀ p, tied p [e] <+: ties q p := by
  intro p
  rcases deqWith_ok hdeq with ⟨_, hr, _⟩ | ⟨hne, f, q₁, htake, hr, _⟩
  · cases hr
  · cases hr
    obtain ⟨_, _, hties⟩ := takeNext_ties h hne htake
    exact ⟨ties q₁ p, (hties p).symm⟩

/-- The events of one priority are got in the order in which they were put, in
a run whose resizes split no tie and sample separations that do not sum to a
negative number: the events got so far are the first ones put, and a further get
on a queue that is not empty returns the next one. -/
theorem calqueueGet_inTurn {β : Type} {q : Calqueue (Option β)} {ops : List (Op (Option β))}
    {c : Client (Option β)} (h : Run TieStep (start q) ops c) :
    (∀ p, tied p c.gots <+: tied p c.puts) ∧
      (c.queue.qsize ≠ 0 → resizesWell c.queue .get = true →
        ∃ e q', calqueueDeq c.queue = .ok (some e, q') ∧
          calqueueGet c.queue = .ok (e.payload, q') ∧
          ∀ p, tied p (c.gots ++ [e]) <+: tied p c.puts) := by
  have hc := inTurn_run h
  refine ⟨fun p => ⟨_, (hc.order p).symm⟩, fun hne hw => ?_⟩
  obtain ⟨e, _, q', _, _, hdeq, _⟩ := exec_get hc.ready hne hw
  refine ⟨e, q', hdeq, get_of_deq hdeq, fun p => ?_⟩
  rw [hc.order p, tied_append]
  exact (List.prefix_append_right_inj _).mpr (calqueueDeq_first hc.filed hdeq p)

/-- `calqueueGet_inTurn` on a run that grows the calendar twice with events at 3
in it. -/
theorem calqueueGet_inTurn_growing :
    ∃ c : Client (Option ℕ), c.queue.nbuckets = 8 ∧
      (tied 3 c.gots).map Node.payload = [some 3, some 4] ∧
      (∀ p, tied p c.gots <+: tied p c.puts) ∧
        (c.queue.qsize ≠ 0 → resizesWell c.queue .get = true →
          ∃ e q', calqueueDeq c.queue = .ok (some e, q') ∧
            calqueueGet c.queue = .ok (e.payload, q') ∧
            ∀ p, tied p (c.gots ++ [e]) <+: tied p c.puts) := by
  obtain ⟨c, hrun, hp⟩ := exists_run
    (fun c op => keepsTies c.queue op && resizesWell c.queue op) (start (blank (Option ℕ)))
    [.put ⟨0, some 0⟩, .put ⟨1, some 1⟩, .put ⟨2, some 2⟩, .put ⟨3, some 3⟩, .put ⟨3, some 4⟩,
      .put ⟨4, some 5⟩, .put ⟨5, some 6⟩, .put ⟨6, some 7⟩, .put ⟨7, some 8⟩, .put ⟨3, some 9⟩,
      .put ⟨3, some 10⟩, .get, .get, .get, .get, .get]
    (fun c => decide (c.queue.nbuckets = 8) &&
      decide ((tied 3 c.gots).map Node.payload = [some 3, some 4])) (by decide +kernel)
  obtain ⟨hn, hgots⟩ := Bool.and_eq_true_iff.mp hp
  have hties : Run TieStep (start (blank (Option ℕ))) _ c := hrun.mono fun c op d h =>
    ⟨(Bool.and_eq_true_iff.mp h.1).1, (Bool.and_eq_true_iff.mp h.1).2, h.2⟩
  exact ⟨c, of_decide_eq_true hn, of_decide_eq_true hgots, calqueueGet_inTurn hties⟩

/-- A tie that is split.  The ninth put grows the calendar, and `new_width`
samples the events at 0, 1, 2 and 3 and the first of the two at 4, which it
puts back behind the second.  No get of the run jumps and all resizes sample in
order. -/
theorem calqueueGet_outOfTurn :
    ∃ c : Client ℕ, Run OrderedStep (start (blank ℕ))
        [.put ⟨0, 0⟩, .put ⟨1, 1⟩, .put ⟨2, 2⟩, .put ⟨3, 3⟩, .put ⟨4, 4⟩, .put ⟨4, 5⟩,
          .put ⟨5, 6⟩, .put ⟨6, 7⟩, .put ⟨7, 8⟩, .get, .get, .get, .get, .get, .get] c ∧
      (tied 4 c.puts).map Node.payload = [4, 5] ∧ (tied 4 c.gots).map Node.payload = [5, 4] ∧
      ¬ tied 4 c.gots <+: tied 4 c.puts := by
  obtain ⟨c, hrun, hp⟩ := exists_run
    (fun c op => staysInBucket c.queue op && resizesWell c.queue op) (start (blank ℕ))
    [.put ⟨0, 0⟩, .put ⟨1, 1⟩, .put ⟨2, 2⟩, .put ⟨3, 3⟩, .put ⟨4, 4⟩, .put ⟨4, 5⟩,
      .put ⟨5, 6⟩, .put ⟨6, 7⟩, .put ⟨7, 8⟩, .get, .get, .get, .get, .get, .get]
    (fun c => decide ((tied 4 c.puts).map Node.payload = [4, 5]) &&
      decide ((tied 4 c.gots).map Node.payload = [5, 4])) (by decide +kernel)
  obtain ⟨hputs, hgots⟩ := Bool.and_eq_true_iff.mp hp
  have hordered : Run OrderedStep (start (blank ℕ)) _ c := hrun.mono fun c op d h =>
    ⟨(Bool.and_eq_true_iff.mp h.1).1, (Bool.and_eq_true_iff.mp h.1).2, h.2⟩
  refine ⟨c, hordered, of_decide_eq_true hputs, of_decide_eq_true hgots, fun hpre => ?_⟩
  have hmap := hpre.map Node.payload
  rw [of_decide_eq_true hputs, of_decide_eq_true hgots] at hmap
  exact absurd hmap (by decide)

end LinuxFibers.CalQueue
