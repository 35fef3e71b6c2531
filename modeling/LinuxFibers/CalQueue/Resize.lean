import LinuxFibers.CalQueue.Contents

/-!
# Dequeues and resizes

`takeNext` is the dequeue without its `resize`.  On a sound queue that is not
empty it takes a stored node and leaves a sound queue, whatever the scan finds.
`new_width` is such dequeues and the insertions of the same nodes, and
`resize` copies every node into a window on the other end of `calq`.

`put_spec` and `deq_spec` are the two results that the runs of the queue use.
They hold for every queue that is `Ready`, and they ask for `widthOk` in the
states on which `resize` is called, and for nothing else.
-/

namespace LinuxFibers.CalQueue

open LinuxFibers.Lib

variable {α : Type}

/-! ## Dequeues without a resize -/

/-- The state after the head `e` of bucket `i` was taken. -/
def taken (q : Calqueue α) (i : ℤ) (top : ExactDouble) (e : Node α) (rest : List (Node α)) :
    Calqueue α :=
  { q.setCalendar i rest with
    lastbucket := i, lastprio := e.priority, qsize := q.qsize - 1, buckettop := top }

theorem bucket_taken_self (q : Calqueue α) (i : ℤ) (top : ExactDouble) (e : Node α)
    (rest : List (Node α)) : (taken q i top e rest).bucket i = rest :=
  bucket_setCalendar_self q i rest

theorem bucket_taken_ne (q : Calqueue α) {i j : ℤ} (h : j ≠ i) (top : ExactDouble)
    (e : Node α) (rest : List (Node α)) : (taken q i top e rest).bucket j = q.bucket j :=
  bucket_setCalendar_ne q h rest

/-- A queue that counts a node has one in some bucket. -/
theorem exists_bucket_ne_nil {q : Calqueue α} (h : Sound q) (hne : q.qsize ≠ 0) :
    ∃ i : ℕ, i < q.nbuckets.toNat ∧ q.bucket i ≠ [] := by
  by_contra hall
  push Not at hall
  have hempty : stored q = 0 := Multiset.eq_zero_of_forall_notMem fun e he => by
    obtain ⟨i, h0, hn, hmem⟩ := mem_stored.mp he
    have hi := hall i.toNat (by omega)
    rw [Int.toNat_of_nonneg h0] at hi
    simp [hi] at hmem
  have := h.size
  simp [hempty] at this
  exact hne this

/-- `calqueueDeq` finds a bucket with a node: the one of the first hit of the
scan, or the one of the direct search when there is no hit. -/
theorem findBucket_spec {q : Calqueue α} (h : Sound q) (hne : q.qsize ≠ 0) :
    (∃ m < q.nbuckets.toNat, findBucket q = .ok (wrap q m, topAt q m) ∧ Hit q m ∧
        ∀ j < m, ¬ Hit q j) ∨
      ∃ i : ℕ, i < q.nbuckets.toNat ∧ findBucket q = .ok ((i : ℤ), topAt q q.nbuckets.toNat) ∧
        (∀ j < q.nbuckets.toNat, ¬ Hit q j) ∧ ∃ e rest, q.bucket i = e :: rest ∧
        ∀ j : ℕ, j < q.nbuckets.toNat → ∀ f rest', q.bucket j = f :: rest' →
          e.priority ≤ f.priority := by
  rcases scan_spec h.lastbucket_nonneg h.lastbucket_lt with ⟨m, hm, hscan, hhit, hmiss⟩ |
    ⟨hscan, hmiss⟩
  · refine Or.inl ⟨m, hm, ?_, hhit, hmiss⟩
    simp [findBucket, hscan, bind, Except.bind, pure, Except.pure]
  · rcases directSearch_spec q q.nbuckets.toNat with ⟨_, hall⟩ | ⟨i, hi, h1, e, rest, he, _, hmin⟩
    · obtain ⟨i, hi, hb⟩ := exists_bucket_ne_nil h hne
      exact absurd (hall i hi) hb
    · refine Or.inr ⟨i, hi, ?_, hmiss, e, rest, he, hmin⟩
      simp [findBucket, hscan, bind, Except.bind, pure, Except.pure, h1]

theorem takeNode_eq {q : Calqueue α} {i : ℤ} (h0 : 0 ≤ i) (hn : i < q.nbuckets)
    {e : Node α} {rest : List (Node α)} (hb : q.bucket i = e :: rest) (top : ExactDouble) :
    takeNode q i top = .ok (e, taken q i top e rest) := by
  simp [takeNode, calendar_eq q h0 hn, hb, bind, Except.bind, pure, Except.pure, taken]

/-- A dequeue takes the head of a bucket of the window. -/
theorem takeNext_spec {q : Calqueue α} (h : Sound q) (hne : q.qsize ≠ 0) :
    ∃ i top e rest, 0 ≤ i ∧ i < q.nbuckets ∧ findBucket q = .ok (i, top) ∧
      q.bucket i = e :: rest ∧ takeNext q = .ok (e, taken q i top e rest) := by
  have hfound : ∃ i top, 0 ≤ i ∧ i < q.nbuckets ∧ findBucket q = .ok (i, top) ∧
      q.bucket i ≠ [] := by
    rcases findBucket_spec h hne with ⟨m, hm, hf, hhit, _⟩ | ⟨i, hi, hf, _, e, rest, he, _⟩
    · obtain ⟨h0, hn⟩ := wrap_mem h.lastbucket_nonneg h.lastbucket_lt hm
      refine ⟨_, _, h0, hn, hf, fun hnil => ?_⟩
      simp [Hit, hnil, headBelow] at hhit
    · exact ⟨_, _, by omega, by omega, hf, by simp [he]⟩
  obtain ⟨i, top, h0, hn, hf, hb⟩ := hfound
  obtain ⟨e, rest, he⟩ := List.exists_cons_of_ne_nil hb
  refine ⟨i, top, e, rest, h0, hn, hf, he, ?_⟩
  simp [takeNext, hf, bind, Except.bind, takeNode_eq h0 hn he]

theorem stored_taken {q : Calqueue α} {i : ℤ} (h0 : 0 ≤ i) (hn : i < q.nbuckets)
    {e : Node α} {rest : List (Node α)} (hb : q.bucket i = e :: rest) (top : ExactDouble) :
    stored q = e ::ₘ stored (taken q i top e rest) := by
  have hset := stored_setCalendar q h0 hn rest
  rw [hb, ← Multiset.cons_coe, Multiset.add_cons, ← Multiset.cons_add] at hset
  exact (add_right_cancel hset).symm

theorem Sound.taken {q : Calqueue α} (h : Sound q) {i : ℤ} (h0 : 0 ≤ i) (hn : i < q.nbuckets)
    {e : Node α} {rest : List (Node α)} (hb : q.bucket i = e :: rest) (top : ExactDouble) :
    Sound (taken q i top e rest) where
  nbuckets := h.nbuckets
  firstsub := h.firstsub
  lastbucket_nonneg := h0
  lastbucket_lt := hn
  topThreshold := h.topThreshold
  botThreshold := h.botThreshold
  size := by
    have hs := h.size
    rw [stored_taken h0 hn hb top, Multiset.card_cons] at hs
    change q.qsize - 1 = _
    omega
  nonneg := fun m hm => h.nonneg m (by
    rw [stored_taken h0 hn hb top]
    exact Multiset.mem_cons_of_mem hm)
  lastprio_nonneg := h.nonneg e (by
    rw [stored_taken h0 hn hb top]
    exact Multiset.mem_cons_self e _)
  width := h.width

theorem Sound.disabled {q : Calqueue α} (h : Sound q) :
    Sound { q with resizeEnabled := false } :=
  ⟨⟨h.nbuckets, h.firstsub, h.lastbucket_nonneg, h.lastbucket_lt, h.topThreshold,
    h.botThreshold⟩, h.size, h.nonneg, h.lastprio_nonneg, h.width⟩

/-- A dequeue while resizing is disabled is `takeNext`. -/
theorem deqWith_of_disabled {rsz : Calqueue α → ℤ → Except Fault (Calqueue α)}
    (hidle : Idle rsz) {q q' : Calqueue α} {e : Node α} (hne : q.qsize ≠ 0)
    (htake : takeNext q = .ok (e, q')) (hoff : q'.resizeEnabled = false) :
    deqWith rsz q = .ok (some e, q') := by
  simp only [deqWith, hne, if_false, htake, bind, Except.bind, hidle q' _ hoff]
  split <;> rfl

/-- `new_width` gets as many nodes as it asks for, and they leave the queue. -/
theorem sample_spec {rsz : Calqueue α → ℤ → Except Fault (Calqueue α)} (hidle : Idle rsz)
    (n : ℕ) :
    ∀ {q : Calqueue α}, Sound q → q.resizeEnabled = false → (n : ℤ) ≤ q.qsize →
      ∃ temp q', sample (deqWith rsz) n q = .ok (temp, q') ∧ temp.length = n ∧ Sound q' ∧
        stored q = ↑temp + stored q' ∧ q'.resizeEnabled = false ∧
        q'.firstsub = q.firstsub ∧ q'.nbuckets = q.nbuckets ∧
        q'.cwidth = q.cwidth := by
  induction n with
  | zero =>
    intro q h hoff _
    exact ⟨[], q, rfl, rfl, h, by simp, hoff, rfl, rfl, rfl⟩
  | succ n ih =>
    intro q h hoff hle
    have hne : q.qsize ≠ 0 := by push_cast at hle; omega
    obtain ⟨i, top, e, rest, h0, hn, _, hb, htake⟩ := takeNext_spec h hne
    have hdeq := deqWith_of_disabled hidle hne htake (by exact hoff)
    obtain ⟨temp, q', hsample, hlen, hs, hst, hoff', hf, hnb, hw⟩ :=
      ih (h.taken h0 hn hb top) hoff (by
        change (n : ℤ) ≤ q.qsize - 1
        push_cast at hle
        omega)
    refine ⟨e :: temp, q', ?_, by simp [hlen], hs, ?_, hoff', hf, hnb, hw⟩
    · simp [sample, hdeq, bind, Except.bind, hsample, pure, Except.pure]
    · rw [stored_taken h0 hn hb top, hst, ← Multiset.cons_coe, Multiset.cons_add]

/-! ## `new_width` -/

/-- When `new_width` samples `q`, the close separations of the samples do not
sum to a negative number. -/
def widthOk (q : Calqueue α) : Bool :=
  match sample (deqWith (resize 0)) (nsamples q).toNat { q with resizeEnabled := false } with
  | .ok (temp, _) => decide (0 ≤ (closeSeparations temp).sum)
  | .error _ => true

theorem closeSeparations_nonneg {q q' : Calqueue α} {temp : List (Node α)}
    (hw : widthOk q = true)
    (hs : sample (deqWith (resize 0)) (nsamples q).toNat { q with resizeEnabled := false } =
      .ok (temp, q')) : 0 ≤ (closeSeparations temp).sum := by
  rw [widthOk, hs] at hw
  exact decide_eq_true_iff.mp hw

theorem usable_sampledWidth {temp : List (Node α)} (h : 0 ≤ (closeSeparations temp).sum) :
    Usable (sampledWidth temp) := by
  rcases hl : closeSeparations temp with _ | ⟨s, rest⟩
  · exact Or.inl (by simp only [sampledWidth, hl]; rfl)
  · rw [hl] at h
    have hpos : (0 : ℚ) < ((s :: rest).length : ℚ) := by simp; positivity
    refine Or.inr ⟨(s :: rest).sum / ((s :: rest).length : ℚ) * 3, by positivity, ?_⟩
    rw [sampledWidth, hl, ExactDouble.fin_div_fin _ hpos.ne', ExactDouble.fin_mul_fin]

/-- There are as many nodes as samples, and at least one of each. -/
theorem nsamples_le {q : Calqueue α} (h : 2 ≤ q.qsize) :
    0 ≤ nsamples q ∧ nsamples q ≤ q.qsize := by
  have h10 : q.qsize.tdiv 10 = q.qsize / 10 := Int.tdiv_eq_ediv_of_nonneg (by omega)
  unfold nsamples
  simp only [h10]
  split_ifs <;> omega

/-- `new_width` returns a usable width and gives back the queue it got, up to
the order inside the buckets. -/
theorem newWidth_spec {q : Calqueue α} (h : Sound q) (hon : q.resizeEnabled = true)
    (hw : widthOk q = true) :
    ∃ w q', newWidthWith (resize 0) q = .ok (w, q') ∧ Usable w ∧ Sound q' ∧
      stored q' = stored q ∧ q'.resizeEnabled = true ∧ q'.firstsub = q.firstsub ∧
      q'.nbuckets = q.nbuckets ∧ q'.lastprio = q.lastprio := by
  by_cases hsmall : q.qsize < 2
  · refine ⟨.fin 1, q, ?_, Or.inr ⟨1, by norm_num, rfl⟩, h, rfl, hon, rfl, rfl, rfl⟩
    simp [newWidthWith, hsmall, pure, Except.pure]
  · obtain ⟨hpos, hle⟩ := nsamples_le (not_lt.mp hsmall)
    have hoff := h.disabled
    obtain ⟨temp, q₁, hsample, hlen, hs, hst, hoff₁, hf, hnb, _⟩ :=
      sample_spec (idle_resize 0) (nsamples q).toNat hoff rfl (by
        change ((nsamples q).toNat : ℤ) ≤ q.qsize
        omega)
    have htemp : ∀ n ∈ temp, 0 ≤ n.priority := fun n hn =>
      hoff.nonneg n (by rw [hst]; exact Multiset.mem_add.mpr (Or.inl hn))
    have hput := putAll_eq (idle_resize 0) hs htemp (Or.inl hoff₁)
    obtain ⟨hs₂, hc, hst₂, _⟩ := insertAll_spec hs htemp
    refine ⟨sampledWidth temp, { insertAll q₁ temp with
      lastbucket := q.lastbucket, lastprio := q.lastprio, buckettop := q.buckettop,
      resizeEnabled := true }, ?_,
      usable_sampledWidth (closeSeparations_nonneg hw hsample), ?_, ?_, rfl,
      hc.firstsub.trans hf, hc.nbuckets.trans hnb, rfl⟩
    · simp [newWidthWith, hsmall, hsample, hput, bind, Except.bind, pure, Except.pure]
    · refine ⟨⟨hs₂.nbuckets, hs₂.firstsub, h.lastbucket_nonneg, ?_, hs₂.topThreshold,
        hs₂.botThreshold⟩, hs₂.size, hs₂.nonneg, h.lastprio_nonneg, hs₂.width⟩
      change q.lastbucket < (insertAll q₁ temp).nbuckets
      rw [hc.nbuckets, hnb]
      exact h.lastbucket_lt
    · change stored (insertAll q₁ temp) = stored q
      rw [hst₂, ← hst]
      rfl

/-! ## The copy to the new window -/

/-- The nodes of the first `k` slots from `base` on, in the order in which
`resize` copies them. -/
def copyOrder (calq : ℤ → List (Node α)) (base : ℤ) : ℕ → List (Node α)
  | 0 => []
  | k + 1 => calq (base + k) ++ copyOrder calq base k

theorem coe_copyOrder (calq : ℤ → List (Node α)) (base : ℤ) (k : ℕ) :
    (copyOrder calq base k : Multiset (Node α)) = contents calq base k := by
  induction k with
  | zero => rfl
  | succ k ih =>
    rw [copyOrder, ← Multiset.coe_add, ih, contents, contents, Finset.sum_range_succ, add_comm]

theorem copyOrder_congr {f g : ℤ → List (Node α)} {base : ℤ} {k : ℕ}
    (h : ∀ i : ℕ, i < k → f (base + i) = g (base + i)) :
    copyOrder f base k = copyOrder g base k := by
  induction k with
  | zero => rfl
  | succ k ih => rw [copyOrder, copyOrder, h k (by omega), ih fun i hi => h i (by omega)]

theorem insertAll_append (q : Calqueue α) (l l' : List (Node α)) :
    insertAll q (l ++ l') = insertAll (insertAll q l) l' :=
  List.foldl_append

/-- The copy loop inserts the nodes of the old buckets: the old buckets lie
outside the new window, so no insertion changes one that is still to copy. -/
theorem copyBuckets_eq {rsz : Calqueue α → ℤ → Except Fault (Calqueue α)} (hidle : Idle rsz)
    {base : ℤ} (k : ℕ) :
    ∀ {q : Calqueue α}, Sound q →
      (∀ i : ℕ, i < k → ¬ (q.firstsub ≤ base + i ∧ base + i < q.firstsub + q.nbuckets)) →
      (∀ n ∈ copyOrder q.calq base k, 0 ≤ n.priority) →
      q.qsize + (copyOrder q.calq base k).length ≤ q.topThreshold →
      copyBuckets (putWith rsz) base k q = .ok (insertAll q (copyOrder q.calq base k)) := by
  induction k with
  | zero => intro q _ _ _ _; rfl
  | succ k ih =>
    intro q h hout hn hroom
    simp only [copyOrder, List.length_append, List.mem_append] at hn hroom
    have hn₁ : ∀ n ∈ q.calq (base + k), 0 ≤ n.priority := fun n hm => hn n (Or.inl hm)
    have hput := putAll_eq hidle h hn₁ (Or.inr (by push_cast at hroom; omega))
    obtain ⟨hs, hc, _, hsz⟩ := insertAll_spec h hn₁
    have hsame : copyOrder (insertAll q (q.calq (base + k))).calq base k =
        copyOrder q.calq base k :=
      copyOrder_congr fun i hi => hc.outside _ (hout i (by omega))
    have hrest := ih hs
      (fun i hi => by rw [hc.firstsub, hc.nbuckets]; exact hout i (by omega))
      (fun n hm => hn n (Or.inr (by rwa [hsame] at hm)))
      (by rw [hsame, hsz, hc.topThreshold]; push_cast at hroom; omega)
    rw [copyBuckets, hput]
    simp only [bind, Except.bind, hrest, hsame, copyOrder, insertAll_append]

/-! ## `resize` -/

theorem newBase_cases (q : Calqueue α) (newsize : ℤ) :
    newBase q newsize = 0 ∨ newBase q newsize = calqspace - newsize := by
  unfold newBase
  split
  · exact Or.inr rfl
  · exact Or.inl rfl

/-- The two new windows of a resize are on the other end of `calq`. -/
theorem newBase_disjoint {q : Calqueue α}
    (hn : ∃ k : ℕ, 1 ≤ k ∧ k ≤ 15 ∧ q.nbuckets = 2 ^ k)
    (hf : q.firstsub = 0 ∨ q.firstsub = calqspace - q.nbuckets) {newsize : ℤ}
    (hmax : newsize ≤ maxnbuckets) {i : ℕ} (hi : i < q.nbuckets.toNat) :
    ¬ (newBase q newsize ≤ q.firstsub + i ∧ q.firstsub + i < newBase q newsize + newsize) := by
  obtain ⟨h2, hm⟩ := two_le_size hn
  have hspace : calqspace = 65536 := rfl
  have hbuckets : maxnbuckets = 32768 := rfl
  rcases hf with hf | hf
  · rw [newBase, if_pos hf]
    omega
  · rw [newBase, if_neg (by omega)]
    omega

/-- One level of `resize` while it is enabled. -/
theorem resize_succ {q : Calqueue α} (hon : q.resizeEnabled = true) (levels : ℕ)
    (newsize : ℤ) :
    resize (levels + 1) q newsize = (newWidthWith (resize levels) q).bind fun r =>
      copyBuckets (putWith (resize levels)) r.2.firstsub r.2.nbuckets.toNat
        (localinit r.2 (newBase r.2 newsize) newsize r.1 r.2.lastprio) := by
  simp only [resize, hon]
  rfl

/-- `resize` to a size with room for the nodes rebuilds the queue: the same
nodes, put one by one into an empty window with a usable width. -/
theorem resize_spec {q : Calqueue α} (h : Sound q) (hon : q.resizeEnabled = true)
    (hw : widthOk q = true) {newsize : ℤ} (hn : ∃ k : ℕ, 1 ≤ k ∧ k ≤ 15 ∧ newsize = 2 ^ k)
    (hroom : q.qsize ≤ 2 * newsize) :
    ∃ q₁ w base L, resize 1 q newsize =
        .ok (insertAll (localinit q₁ base newsize w q.lastprio) L) ∧
      Usable w ∧ q₁.resizeEnabled = true ∧
      Sound (localinit q₁ base newsize w q.lastprio) ∧ (L : Multiset (Node α)) = stored q := by
  obtain ⟨w, q₁, hnw, husable, hs₁, hst₁, hon₁, hf, hnb, hlp⟩ := newWidth_spec h hon hw
  have hmax := (two_le_size hn).2
  have hs := sound_localinit q₁ hn (newBase_cases q₁ newsize) husable h.lastprio_nonneg
  have hold : copyOrder (localinit q₁ (newBase q₁ newsize) newsize w q.lastprio).calq
      q₁.firstsub q₁.nbuckets.toNat = copyOrder q₁.calq q₁.firstsub q₁.nbuckets.toNat :=
    copyOrder_congr fun i hi => if_neg (newBase_disjoint hs₁.nbuckets hs₁.firstsub hmax hi)
  have hL : (copyOrder q₁.calq q₁.firstsub q₁.nbuckets.toNat : Multiset (Node α)) = stored q := by
    rw [coe_copyOrder, ← hst₁]
    rfl
  have hlen : ((copyOrder q₁.calq q₁.firstsub q₁.nbuckets.toNat).length : ℤ) = q.qsize := by
    rw [h.size, ← hL, Multiset.coe_card]
  refine ⟨q₁, w, newBase q₁ newsize, copyOrder q₁.calq q₁.firstsub q₁.nbuckets.toNat, ?_,
    husable, hon₁, hs, hL⟩
  have hcopy := copyBuckets_eq (idle_resize 0) q₁.nbuckets.toNat hs
    (fun i hi => newBase_disjoint hs₁.nbuckets hs₁.firstsub hmax hi)
    (fun n hm => h.nonneg n (by rw [← hL, ← hold]; exact hm))
    (by rw [hold, hlen]; change (0 : ℤ) + q.qsize ≤ 2 * newsize; omega)
  rw [hold] at hcopy
  rw [resize_succ hon, hnw]
  simp only [Except.bind, hlp, hcopy]

/-! ## Puts and dequeues -/

/-- A queue between two calls: sound, with resizing enabled, and grown as far
as its size asks for. -/
structure Ready (q : Calqueue α) : Prop extends Sound q where
  enabled : q.resizeEnabled = true
  fits : q.qsize ≤ 2 * q.nbuckets ∨ q.nbuckets = maxnbuckets

theorem ready_init (q : Calqueue α) : Ready (calqueueInit q) ∧ stored (calqueueInit q) = 0 := by
  have hn : ∃ k : ℕ, 1 ≤ k ∧ k ≤ 15 ∧ (2 : ℤ) = 2 ^ k := ⟨1, by decide, by decide, by decide⟩
  have hs := sound_localinit q hn (Or.inl rfl) (Or.inr ⟨1, by norm_num, rfl⟩) (le_refl 0)
  have hst := stored_localinit q 0 2 (.fin 1) 0
  exact ⟨⟨⟨⟨hs.nbuckets, hs.firstsub, hs.lastbucket_nonneg, hs.lastbucket_lt, hs.topThreshold,
    hs.botThreshold⟩, hs.size, hs.nonneg, hs.lastprio_nonneg, hs.width⟩, rfl,
    Or.inl (show (0 : ℤ) ≤ 2 * 2 by decide)⟩, hst⟩

/-- How `resize` leaves a queue: rebuilt from the nodes of `q` in a window of
`n` buckets. -/
structure Rebuilt (q : Calqueue α) (n : ℤ) (q' : Calqueue α) : Prop where
  form : ∃ q₁ w base L, q' = insertAll (localinit q₁ base n w q.lastprio) L ∧ Usable w ∧
    Sound (localinit q₁ base n w q.lastprio) ∧ (L : Multiset (Node α)) = stored q
  ready : Ready q'
  stored_eq : stored q' = stored q
  lastprio_eq : q'.lastprio = q.lastprio

theorem resize_rebuilt {q : Calqueue α} (h : Sound q) (hon : q.resizeEnabled = true)
    (hw : widthOk q = true) {newsize : ℤ} (hn : ∃ k : ℕ, 1 ≤ k ∧ k ≤ 15 ∧ newsize = 2 ^ k)
    (hroom : q.qsize ≤ 2 * newsize) :
    ∃ q', resize 1 q newsize = .ok q' ∧ Rebuilt q newsize q' := by
  obtain ⟨q₁, w, base, L, hres, husable, hon₁, hs, hL⟩ := resize_spec h hon hw hn hroom
  have hpos : ∀ n ∈ L, 0 ≤ n.priority := fun n hm => h.nonneg n (by rw [← hL]; exact hm)
  obtain ⟨hs', hc, hst, hsz⟩ := insertAll_spec hs hpos
  have hst' : stored (insertAll (localinit q₁ base newsize w q.lastprio) L) = stored q := by
    rw [hst, stored_localinit, add_zero, hL]
  refine ⟨_, hres, ⟨q₁, w, base, L, rfl, husable, hs, hL⟩, ⟨hs', ?_, Or.inl ?_⟩, hst',
    hc.lastprio⟩
  · rw [hc.resizeEnabled]
    exact hon₁
  · rw [hs'.size, hst', ← h.size, hc.nbuckets]
    exact hroom

/-- `calqueuePut` on a queue that is ready: the insertion, and a resize when
the calendar is full. -/
theorem put_spec {q : Calqueue α} (h : Ready q) {n : Node α} (hn : 0 ≤ n.priority)
    (hw : growing (inserted q n) = true → widthOk (inserted q n) = true) :
    ∃ q', calqueuePut q n.priority n.payload = .ok q' ∧ Ready q' ∧
      stored q' = n ::ₘ stored q ∧ q'.lastprio = q.lastprio ∧
      (q' = inserted q n ∨ ∃ m, Rebuilt (inserted q n) m q') := by
  have hs := h.toSound.inserted hn
  have hst := stored_inserted h.toLayout h.width hn
  have hput : calqueuePut q n.priority n.payload =
      if growing (inserted q n) = true then resize 1 (inserted q n) (2 * q.nbuckets)
      else .ok (inserted q n) := by
    simp only [calqueuePut, putWith, insertNode_eq h.toLayout h.width hn, bind, Except.bind]
    rfl
  have hsz : (inserted q n).qsize = q.qsize + 1 := rfl
  have htop : (inserted q n).topThreshold = 2 * q.nbuckets := h.topThreshold
  by_cases hg : growing (inserted q n) = true
  · have hlt : 2 * q.nbuckets < q.qsize + 1 ∧ q.nbuckets < maxnbuckets := by
      have := Bool.and_eq_true_iff.mp hg
      rw [decide_eq_true_iff, decide_eq_true_iff, htop, hsz] at this
      exact this
    have hfit : q.qsize ≤ 2 * q.nbuckets := by
      rcases h.fits with hf | hf
      · exact hf
      · omega
    have hnew := size_double h.nbuckets hlt.2
    have h2 := h.two_le
    obtain ⟨q', hres, hreb⟩ := resize_rebuilt hs h.enabled (hw hg) hnew (by rw [hsz]; omega)
    rw [hput, if_pos hg]
    exact ⟨q', hres, hreb.ready, hreb.stored_eq.trans hst, hreb.lastprio_eq, Or.inr ⟨_, hreb⟩⟩
  · rw [hput, if_neg hg]
    refine ⟨_, rfl, ⟨hs, h.enabled, ?_⟩, hst, rfl, Or.inl rfl⟩
    have hng : ¬ (2 * q.nbuckets < q.qsize + 1 ∧ q.nbuckets < maxnbuckets) := fun hlt =>
      hg (Bool.and_eq_true_iff.mpr ⟨by rw [decide_eq_true_iff, htop, hsz]; exact hlt.1,
        by rw [decide_eq_true_iff]; exact hlt.2⟩)
    have hmax := h.le_max
    change q.qsize + 1 ≤ 2 * q.nbuckets ∨ q.nbuckets = maxnbuckets
    omega

theorem deq_empty {q : Calqueue α} (he : q.qsize = 0) : calqueueDeq q = .ok (none, q) := by
  simp [calqueueDeq, deqWith, he, pure, Except.pure]

/-- `calqueueDeq` on a queue that is ready and not empty: the removal of the
node that `takeNext` finds, and a resize when the calendar is sparse. -/
theorem deq_spec {q : Calqueue α} (h : Ready q) (hne : q.qsize ≠ 0)
    (hw : ∀ e q₁, takeNext q = .ok (e, q₁) → shrinking q₁ = true → widthOk q₁ = true) :
    ∃ e q₁ q', takeNext q = .ok (e, q₁) ∧ calqueueDeq q = .ok (some e, q') ∧ Ready q' ∧
      stored q = e ::ₘ stored q' ∧ q'.lastprio = e.priority ∧
      (q' = q₁ ∨ ∃ m, Rebuilt q₁ m q') := by
  obtain ⟨i, top, e, rest, h0, hn, _, hb, htake⟩ := takeNext_spec h.toSound hne
  have hs := h.toSound.taken h0 hn hb top
  have hst := stored_taken h0 hn hb top
  have hdeq : calqueueDeq q =
      (if shrinking (taken q i top e rest) = true
        then resize 1 (taken q i top e rest) (q.nbuckets.tdiv 2)
        else .ok (taken q i top e rest)).bind fun q' => .ok (some e, q') := by
    simp only [calqueueDeq, deqWith, hne, if_false, htake, bind, Except.bind, pure, Except.pure]
    split <;> rfl
  have hsz : (taken q i top e rest).qsize = q.qsize - 1 := rfl
  have h2 := h.two_le
  have hhalf : q.nbuckets.tdiv 2 = q.nbuckets / 2 := Int.tdiv_eq_ediv_of_nonneg (by omega)
  by_cases hg : shrinking (taken q i top e rest) = true
  · have hlt : q.qsize - 1 < q.nbuckets / 2 - 2 := by
      have := decide_eq_true_iff.mp hg
      change q.qsize - 1 < q.botThreshold at this
      rwa [h.botThreshold, hhalf] at this
    have hq : 0 ≤ q.qsize - 1 := by
      have := hs.size
      rw [hsz] at this
      omega
    have hnew := size_half h.nbuckets (by omega)
    obtain ⟨q', hres, hreb⟩ := resize_rebuilt hs h.enabled (hw e _ htake hg) hnew (by
      rw [hsz, hhalf]
      omega)
    refine ⟨e, _, q', htake, ?_, hreb.ready, ?_, hreb.lastprio_eq, Or.inr ⟨_, hreb⟩⟩
    · rw [hdeq, if_pos hg, hres]
      rfl
    · rw [hreb.stored_eq]
      exact hst
  · refine ⟨e, _, _, htake, ?_, ⟨hs, h.enabled, ?_⟩, hst, rfl, Or.inl rfl⟩
    · rw [hdeq, if_neg hg]
      rfl
    · have := h.fits
      change q.qsize - 1 ≤ 2 * q.nbuckets ∨ q.nbuckets = maxnbuckets
      omega

end LinuxFibers.CalQueue
