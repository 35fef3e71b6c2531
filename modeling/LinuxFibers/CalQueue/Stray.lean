import LinuxFibers.CalQueue.Window

/-!
# Calls that leave the window

`calqueue.c` does not check an index of `calendar`.  A call whose index leaves
the window reads or writes another slot of `calq` and goes on.  The functions of
this module follow it as long as that slot holds a list that can be used: it is
outside of the current window, a former `localinit` wrote it, and no node of its
list was freed.

* `strayInit` is `localinit`.  It keeps the marks of the usable slots and takes
  none from the window that is left, whose nodes the copy loop is to free.
* `strayCopy` is the copy loop.  A slot that it has passed keeps its pointer.
  It can be used when the pointer is `NULL`.
* `strayResize`, `strayPut` and `strayDeq` are `resize`, `calqueue_put` and
  `calqueue_deq` over them.  The insertion and the dequeue themselves are the
  ones of `LinuxFibers.CalQueue.Basic`.

`exec_stray` says that a call that stays inside the window does here what it does
there, and `stray_of_run` says it for runs.  `resize_nests` is what the layout
loses behind a call that leaves the window: nodes stay in a slot that no later
window sets up, a later window has that slot in front of it, and a width below
zero leads the gets back to these nodes.  They are counted off although the
window still has more, so a copy meets more nodes than it has room for.
-/

namespace LinuxFibers.CalQueue

open LinuxFibers.Lib

variable {α : Type}

/-- `localinit`.  The slots that can be used stay marked, those of the window
that is left aside. -/
def strayInit (q : Calqueue α) (qbase nbucks : ℤ) (bwidth : ExactDouble) (startprio : ℚ) :
    Calqueue α :=
  { localinit q qbase nbucks bwidth startprio with
    held := fun k =>
      q.held k && !decide (q.firstsub ≤ k ∧ k < q.firstsub + q.nbuckets) }

/-- The copy loop of `resize`.  A slot whose nodes were copied and freed cannot
be used, an empty one can. -/
def strayCopy (put : Calqueue α → Node α → Except Fault (Calqueue α)) (oldbase : ℤ) :
    ℕ → Calqueue α → Except Fault (Calqueue α)
  | 0, q => .ok q
  | k + 1, q => do
      let temp := q.calq (oldbase + k)
      let q ← putAll put temp q
      strayCopy put oldbase k
        { q with held := Function.update q.held (oldbase + k) temp.isEmpty }

/-- `resize`, with the number of levels of nested calls that are left. -/
def strayResize : ℕ → Calqueue α → ℤ → Except Fault (Calqueue α)
  | 0, q, _ => if q.resizeEnabled then .error .nestedResize else .ok q
  | levels + 1, q, newsize => do
      if !q.resizeEnabled then return q
      let (bwidth, q) ← newWidthWith (strayResize levels) q
      strayCopy (putWith (strayResize levels)) q.firstsub q.nbuckets.toNat
        (strayInit q (newBase q newsize) newsize bwidth q.lastprio)

/-- `calqueue_put`. -/
def strayPut (q : Calqueue α) (n : Node α) : Except Fault (Calqueue α) :=
  putWith (strayResize 1) q n

/-- `calqueue_deq`. -/
def strayDeq (q : Calqueue α) : Except Fault (Option (Node α) × Calqueue α) :=
  deqWith (strayResize 1) q

/-- One call of the client. -/
def strayExec (c : Client α) : Op α → Except Fault (Client α)
  | .put n => do
      let q ← strayPut c.queue n
      return { c with queue := q, puts := c.puts ++ [n] }
  | .get => do
      let (e, q) ← strayDeq c.queue
      return { c with queue := q, gots := c.gots ++ e.toList }

/-- The admissible calls that return, whatever slots they use. -/
def StrayStep (c : Client α) (op : Op α) (d : Client α) : Prop :=
  admissible c op = true ∧ strayExec c op = .ok d

/-! ## Calls that stay inside the window -/

/-- `q` with the marks `held`. -/
def remarked (q : Calqueue α) (held : ℤ → Bool) : Calqueue α := { q with held := held }

section Reads

variable {q : Calqueue α} (held : ℤ → Bool)

theorem calendar_remarked (hc : Confined q) {i : ℤ} {l : List (Node α)}
    (h : q.calendar i = .ok l) : (remarked q held).calendar i = .ok l := by
  obtain ⟨h0, hn⟩ := hc.mem_of_ok h
  rw [← calendar_ok h]
  exact calendar_eq (remarked q held) h0 hn

theorem insertNode_remarked (hc : Confined q) {n : Node α} {q' : Calqueue α}
    (h : insertNode q n = .ok q') :
    Confined q' ∧ insertNode (remarked q held) n = .ok (remarked q' held) := by
  obtain ⟨l, hl, hq'⟩ := of_bind h
  have hread := calendar_remarked held hc hl
  rw [← Except.ok.inj hq']
  refine ⟨hc, ?_⟩
  show ((remarked q held).calendar (bucketOf q n.priority) >>= _) = _
  rw [hread]
  rfl

theorem scan_remarked (hc : Confined q) (rounds : ℕ) :
    ∀ {i : ℤ} {top : ExactDouble} {r : Option ℤ × ExactDouble},
      scan q rounds i top = .ok r → scan (remarked q held) rounds i top = .ok r := by
  induction rounds with
  | zero =>
    intro i top r h
    cases h
  | succ rounds ih =>
    intro i top r h
    rw [scan] at h ⊢
    obtain ⟨l, hl, hrest⟩ := of_bind h
    rw [calendar_remarked held hc hl]
    show (if headBelow top l = true then _ else _) = _
    split at hrest
    · rename_i hbelow
      rw [if_pos hbelow]
      exact hrest
    · rename_i hbelow
      rw [if_neg hbelow]
      show (if (if i + 1 = q.nbuckets then 0 else i + 1) = q.lastbucket
        then .ok (none, top + q.cwidth)
        else scan (remarked q held) rounds (if i + 1 = q.nbuckets then 0 else i + 1)
          (top + q.cwidth)) = _
      dsimp only at hrest
      generalize (if i + 1 = q.nbuckets then 0 else i + 1) = next at hrest ⊢
      split at hrest
      · rename_i hlast
        exact (if_pos hlast).trans hrest
      · rename_i hlast
        exact (if_neg hlast).trans (ih hrest)

theorem directSearch_remarked (k : ℕ) :
    directSearch (remarked q held) k = directSearch q k := by
  induction k with
  | zero => rfl
  | succ k ih =>
    rw [directSearch, ih]
    rfl

theorem takeNext_remarked (hc : Confined q) {e : Node α} {q' : Calqueue α}
    (h : takeNext q = .ok (e, q')) :
    Confined q' ∧ takeNext (remarked q held) = .ok (e, remarked q' held) := by
  obtain ⟨⟨i, top⟩, hfind, htake⟩ := of_bind h
  have hfind' : findBucket (remarked q held) = .ok (i, top) := by
    obtain ⟨⟨found, top'⟩, hscan, hcase⟩ := of_bind hfind
    have hscan' : scan (remarked q held) (remarked q held).nbuckets.toNat
        (remarked q held).lastbucket (remarked q held).buckettop = .ok (found, top') :=
      scan_remarked held hc _ hscan
    rw [findBucket, hscan']
    cases found with
    | some j => exact hcase
    | none =>
      show (.ok ((directSearch (remarked q held) _).1, top') : Except Fault _) = _
      rw [directSearch_remarked]
      exact hcase
  obtain ⟨l, hl, hcase⟩ := of_bind htake
  have htake' : takeNode (remarked q held) i top = .ok (e, remarked q' held) := by
    rw [takeNode, calendar_remarked held hc hl]
    cases l with
    | nil => cases hcase
    | cons f rest =>
      obtain ⟨hf, hq'⟩ := Prod.mk.inj (Except.ok.inj hcase)
      rw [← hf, ← hq']
      rfl
  obtain ⟨_, _, _, _, _, hq'⟩ := takeNext_ok h
  refine ⟨by rw [hq']; exact hc, ?_⟩
  rw [takeNext, hfind']
  exact htake'

end Reads

/-- `rsz'` does what `rsz` does, as long as `rsz` returns. -/
def Extends (rsz rsz' : Calqueue α → ℤ → Except Fault (Calqueue α)) : Prop :=
  ∀ q newsize q', Confined q → rsz q newsize = .ok q' →
    Confined q' ∧ ∀ held, ∃ held', rsz' (remarked q held) newsize = .ok (remarked q' held')

section Calls

variable {rsz rsz' : Calqueue α → ℤ → Except Fault (Calqueue α)} {q q' : Calqueue α}

theorem putWith_remarked (hr : Extends rsz rsz') (hc : Confined q) {n : Node α}
    (h : putWith rsz q n = .ok q') :
    Confined q' ∧ ∀ held, ∃ held', putWith rsz' (remarked q held) n = .ok (remarked q' held') := by
  obtain ⟨q₁, hins, hrest⟩ := of_bind h
  have hins' := fun held => (insertNode_remarked held hc hins).2
  have hc₁ := (insertNode_remarked q.held hc hins).1
  have hput : ∀ held, putWith rsz' (remarked q held) n =
      if growing q₁ = true then rsz' (remarked q₁ held) (2 * q₁.nbuckets)
      else .ok (remarked q₁ held) := by
    intro held
    rw [putWith, hins' held]
    rfl
  split at hrest
  · rename_i hgrow
    obtain ⟨hc', hres⟩ := hr q₁ _ q' hc₁ hrest
    refine ⟨hc', fun held => ?_⟩
    rw [hput held, if_pos hgrow]
    exact hres held
  · rename_i hgrow
    rw [← Except.ok.inj hrest]
    refine ⟨hc₁, fun held => ⟨held, ?_⟩⟩
    rw [hput held, if_neg hgrow]

theorem deqWith_remarked (hr : Extends rsz rsz') (hc : Confined q) {r : Option (Node α)}
    (h : deqWith rsz q = .ok (r, q')) :
    Confined q' ∧
      ∀ held, ∃ held', deqWith rsz' (remarked q held) = .ok (r, remarked q' held') := by
  rcases deqWith_ok h with ⟨hempty, hnone, hq'⟩ | ⟨hne, e, q₁, htake, hsome, hres⟩
  · rw [hnone, hq']
    refine ⟨hc, fun held => ⟨held, ?_⟩⟩
    rw [deqWith]
    exact if_pos hempty
  · have hc₁ := (takeNext_remarked q.held hc htake).1
    have hdeq : ∀ held, deqWith rsz' (remarked q held) =
        (if shrinking q₁ = true then rsz' (remarked q₁ held) (q₁.nbuckets.tdiv 2)
          else .ok (remarked q₁ held)) >>= fun q₂ => .ok (some e, q₂) := by
      intro held
      rw [deqWith, if_neg (show (remarked q held).qsize ≠ 0 from hne),
        (takeNext_remarked held hc htake).2]
      cases hshrink : shrinking q₁ <;>
        simp [bind, Except.bind, pure, Except.pure, hshrink, show
          shrinking (remarked q₁ held) = shrinking q₁ from rfl, show
          (remarked q₁ held).nbuckets = q₁.nbuckets from rfl]
    rw [hsome]
    split at hres
    · rename_i hshrink
      obtain ⟨hc', hrest⟩ := hr q₁ _ q' hc₁ hres
      refine ⟨hc', fun held => ?_⟩
      obtain ⟨held', hheld⟩ := hrest held
      refine ⟨held', ?_⟩
      rw [hdeq held, if_pos hshrink, hheld]
      rfl
    · rename_i hshrink
      rw [← Except.ok.inj hres]
      refine ⟨hc₁, fun held => ⟨held, ?_⟩⟩
      rw [hdeq held, if_neg hshrink]
      rfl

theorem sample_remarked (hr : Extends rsz rsz') (n : ℕ) :
    ∀ {q q' : Calqueue α} {temp : List (Node α)}, Confined q →
      sample (deqWith rsz) n q = .ok (temp, q') →
      Confined q' ∧ ∀ held, ∃ held',
        sample (deqWith rsz') n (remarked q held) = .ok (temp, remarked q' held') := by
  induction n with
  | zero =>
    intro q q' temp hc h
    obtain ⟨htemp, hq'⟩ := Prod.mk.inj (Except.ok.inj h)
    rw [← htemp, ← hq']
    exact ⟨hc, fun held => ⟨held, rfl⟩⟩
  | succ n ih =>
    intro q q' temp hc h
    obtain ⟨⟨r, q₁⟩, hdeq, hcase⟩ := of_bind h
    cases r with
    | none => cases hcase
    | some e =>
      obtain ⟨⟨tail, q₂⟩, hsample, hlast⟩ := of_bind hcase
      obtain ⟨htemp, hq'⟩ := Prod.mk.inj (Except.ok.inj hlast)
      obtain ⟨hc₁, hdeq'⟩ := deqWith_remarked hr hc hdeq
      obtain ⟨hc₂, hsample'⟩ := ih hc₁ hsample
      rw [← htemp, ← hq']
      refine ⟨hc₂, fun held => ?_⟩
      obtain ⟨held₁, h₁⟩ := hdeq' held
      obtain ⟨held₂, h₂⟩ := hsample' held₁
      refine ⟨held₂, ?_⟩
      rw [sample, h₁]
      show (sample (deqWith rsz') n (remarked q₁ held₁) >>= _) = _
      rw [h₂]
      rfl

theorem putAll_remarked (hr : Extends rsz rsz') {l : List (Node α)} :
    ∀ {q q' : Calqueue α}, Confined q → putAll (putWith rsz) l q = .ok q' →
      Confined q' ∧ ∀ held, ∃ held',
        putAll (putWith rsz') l (remarked q held) = .ok (remarked q' held') := by
  induction l with
  | nil =>
    intro q q' hc h
    rw [← Except.ok.inj h]
    exact ⟨hc, fun held => ⟨held, rfl⟩⟩
  | cons n rest ih =>
    intro q q' hc h
    obtain ⟨q₁, hfirst, hrest⟩ := of_bind h
    obtain ⟨hc₁, hfirst'⟩ := putWith_remarked hr hc hfirst
    obtain ⟨hc', hrest'⟩ := ih hc₁ hrest
    refine ⟨hc', fun held => ?_⟩
    obtain ⟨held₁, h₁⟩ := hfirst' held
    obtain ⟨held₂, h₂⟩ := hrest' held₁
    refine ⟨held₂, ?_⟩
    rw [putAll, h₁]
    exact h₂

theorem newWidth_remarked (hr : Extends rsz rsz') (hc : Confined q) {w : ExactDouble}
    (h : newWidthWith rsz q = .ok (w, q')) :
    Confined q' ∧
      ∀ held, ∃ held', newWidthWith rsz' (remarked q held) = .ok (w, remarked q' held') := by
  rw [newWidthWith] at h
  split at h
  · rename_i hsmall
    obtain ⟨hw, hq'⟩ := Prod.mk.inj (Except.ok.inj h)
    rw [← hw, ← hq']
    refine ⟨hc, fun held => ⟨held, ?_⟩⟩
    rw [newWidthWith]
    exact if_pos hsmall
  · rename_i hsize
    obtain ⟨⟨temp, q₁⟩, hsample, hrest⟩ := of_bind h
    obtain ⟨q₂, hput, hlast⟩ := of_bind hrest
    obtain ⟨hw, hq'⟩ := Prod.mk.inj (Except.ok.inj hlast)
    obtain ⟨hc₁, hsample'⟩ := sample_remarked hr _ (q := { q with resizeEnabled := false }) hc hsample
    obtain ⟨hc₂, hput'⟩ := putAll_remarked hr hc₁ hput
    rw [← hw, ← hq']
    refine ⟨hc₂, fun held => ?_⟩
    obtain ⟨held₁, h₁⟩ := hsample' held
    obtain ⟨held₂, h₂⟩ := hput' held₁
    refine ⟨held₂, ?_⟩
    rw [newWidthWith, if_neg (show ¬ (remarked q held).qsize < 2 from hsize)]
    show (sample (deqWith rsz') (nsamples q).toNat
      (remarked { q with resizeEnabled := false } held) >>= _) = _
    rw [h₁]
    show (putAll (putWith rsz') temp (remarked q₁ held₁) >>= _) = _
    rw [h₂]
    rfl

theorem strayCopy_remarked (hr : Extends rsz rsz') {base : ℤ} (k : ℕ) :
    ∀ {q q' : Calqueue α}, Confined q → copyBuckets (putWith rsz) base k q = .ok q' →
      Confined q' ∧ ∀ held, ∃ held',
        strayCopy (putWith rsz') base k (remarked q held) = .ok (remarked q' held') := by
  induction k with
  | zero =>
    intro q q' hc h
    rw [← Except.ok.inj h]
    exact ⟨hc, fun held => ⟨held, rfl⟩⟩
  | succ k ih =>
    intro q q' hc h
    obtain ⟨q₁, hput, hrest⟩ := of_bind h
    obtain ⟨hc₁, hput'⟩ := putAll_remarked hr hc hput
    obtain ⟨hc', hrest'⟩ := ih hc₁ hrest
    refine ⟨hc', fun held => ?_⟩
    obtain ⟨held₁, h₁⟩ := hput' held
    obtain ⟨held₂, h₂⟩ :=
      hrest' (Function.update held₁ (base + k) (q.calq (base + k)).isEmpty)
    refine ⟨held₂, ?_⟩
    rw [strayCopy]
    show (putAll (putWith rsz') (q.calq (base + k)) (remarked q held) >>= _) = _
    rw [h₁]
    exact h₂

end Calls

/-- A `resize` that stays inside the window is the `resize` of this module. -/
theorem extends_resize (levels : ℕ) : Extends (resize (α := α) levels) (strayResize levels) := by
  induction levels with
  | zero =>
    intro q newsize q' hc h
    rw [resize_zero_ok h]
    refine ⟨hc, fun held => ⟨held, ?_⟩⟩
    rw [resize] at h
    split at h
    · cases h
    · rename_i hoff
      rw [strayResize]
      exact if_neg hoff
  | succ levels ih =>
    intro q newsize q' hc h
    cases hon : q.resizeEnabled with
    | false =>
      rw [← Except.ok.inj ((idle_resize _ q newsize hon).symm.trans h)]
      refine ⟨hc, fun held => ⟨held, ?_⟩⟩
      simp [strayResize, remarked, hon, pure, Except.pure]
    | true =>
      rw [resize_succ hon] at h
      obtain ⟨⟨w, q₁⟩, hw, hcopy⟩ := of_bind h
      obtain ⟨_, hw'⟩ := newWidth_remarked ih hc hw
      obtain ⟨hc', hcopy'⟩ := strayCopy_remarked ih _ (confined_localinit q₁ _ _ _ _) hcopy
      refine ⟨hc', fun held => ?_⟩
      obtain ⟨held₁, h₁⟩ := hw' held
      obtain ⟨held₂, h₂⟩ := hcopy' fun k =>
        held₁ k && !decide (q₁.firstsub ≤ k ∧ k < q₁.firstsub + q₁.nbuckets)
      refine ⟨held₂, ?_⟩
      simp only [strayResize, show (remarked q held).resizeEnabled = true from hon]
      show (newWidthWith (strayResize levels) (remarked q held) >>= _) = _
      rw [h₁]
      exact h₂

/-- The client with other marks in its queue. -/
def Client.remarked (c : Client α) (held : ℤ → Bool) : Client α :=
  { c with queue := CalQueue.remarked c.queue held }

/-- A call that stays inside the window does the same here. -/
theorem exec_stray {c d : Client α} {op : Op α} (hc : Confined c.queue)
    (h : exec c op = .ok d) :
    Confined d.queue ∧
      ∀ held, ∃ held', strayExec (c.remarked held) op = .ok (d.remarked held') := by
  cases op with
  | put n =>
    obtain ⟨q', hput, hd⟩ := of_bind h
    obtain ⟨hc', hput'⟩ := putWith_remarked (extends_resize 1) hc hput
    rw [← Except.ok.inj hd]
    refine ⟨hc', fun held => ?_⟩
    obtain ⟨held', h'⟩ := hput' held
    refine ⟨held', ?_⟩
    show (putWith (strayResize 1) (CalQueue.remarked c.queue held) n >>= _) = _
    rw [h']
    rfl
  | get =>
    obtain ⟨⟨r, q'⟩, hdeq, hd⟩ := of_bind h
    obtain ⟨hc', hdeq'⟩ := deqWith_remarked (extends_resize 1) hc hdeq
    rw [← Except.ok.inj hd]
    refine ⟨hc', fun held => ?_⟩
    obtain ⟨held', h'⟩ := hdeq' held
    refine ⟨held', ?_⟩
    show (deqWith (strayResize 1) (CalQueue.remarked c.queue held) >>= _) = _
    rw [h']
    rfl

/-- A run of calls that stay inside the window is a run of this module. -/
theorem stray_of_run {m : Calqueue α} {ops : List (Op α)} {c : Client α}
    (h : Run Step (start m) ops c) :
    Confined c.queue ∧ ∃ held, Run StrayStep (start m) ops (c.remarked held) := by
  induction h with
  | nil => exact ⟨confined_localinit m 0 2 (.fin 1) 0, fun _ => false, .nil⟩
  | snoc _ hstep ih =>
    obtain ⟨hc, held, hrun⟩ := ih
    obtain ⟨hadm, hexec⟩ := hstep
    obtain ⟨hc', hexec'⟩ := exec_stray hc hexec
    obtain ⟨held', h'⟩ := hexec' held
    refine ⟨hc', held', hrun.snoc ⟨?_, h'⟩⟩
    rename_i op _
    cases op <;> exact hadm

/-! ## A resize inside of a resize -/

/-- An insertion of the copy loop starts another resize, when `resize` is called
on `q` with the size `newsize`. -/
def copyNests (q : Calqueue α) (newsize : ℤ) : Bool :=
  match newWidthWith (strayResize 0) q with
  | .ok (w, q₁) =>
      decide (faultOf (strayCopy (putWith (strayResize 0)) q₁.firstsub q₁.nbuckets.toNat
        (strayInit q₁ (newBase q₁ newsize) newsize w q₁.lastprio)) = some .nestedResize)
  | .error _ => false

/-- Puts at the priorities `f 0`, ..., `f (n - 1)`. -/
def putsAt (n : ℕ) (f : ℕ → ℚ) : List (Op ℕ) := (List.range n).map fun k => .put ⟨f k, k⟩

/-- The calls in front of the get that `resize_nests` is about. -/
def nestingCalls : List (Op ℕ) :=
  -- 65 events and a window of 64 buckets at slot 65472
  putsAt 48 (fun k => k) ++ putsAt 3 (fun k => 89 / 2 + k) ++ putsAt 1 (fun _ => 144) ++
    putsAt 4 (fun _ => 146) ++ putsAt 1 (fun _ => 148) ++ putsAt 1 (fun _ => 1896) ++
    putsAt 3 (fun _ => 1920) ++ putsAt 1 (fun _ => 1968) ++
    putsAt 3 (fun k => 12000 * (k + 1)) ++
  -- down to 16 buckets at slot 65520 with the width -3/2: five events go to slots in front
  List.replicate 52 .get ++
  -- twenty more follow them, and the last one doubles the calendar
  putsAt 20 (fun k => 170 + 24 * k) ++
  -- back to slot 65520, now with the width -48 and `lastbucket` -7
  List.replicate 1 .get ++ putsAt 17 (fun _ => 2304) ++
  -- events of the slots in front, taken from a count that knows only the window
  List.replicate 18 .get

set_option maxRecDepth 20000 in
/-- A resize in the middle of another one.  After the last get `qsize` is 5 and
the window holds seventeen events.  The get halves the calendar from 16 buckets
to 8, and the copy of the seventeenth event starts a resize to 16 buckets, on the
window that is still being copied. -/
theorem resize_nests :
    ∃ c : Client ℕ, Run StrayStep (start (blank ℕ)) nestingCalls c ∧ c.queue.nbuckets = 16 ∧
      admissible c .get = true ∧
      (∃ e q₁, takeNext c.queue = .ok (e, q₁) ∧ shrinking q₁ = true ∧ copyNests q₁ 8 = true) ∧
      strayExec c .get = .error .nestedResize := by
  obtain ⟨c, hrun, hp⟩ := Lib.exists_run strayExec admissible (start (blank ℕ)) nestingCalls
    (fun c => decide (c.queue.nbuckets = 16) &&
      (takeNext c.queue).toOption.any (fun r => shrinking r.2 && copyNests r.2 8) &&
      decide (faultOf (strayExec c .get) = some .nestedResize)) (by decide +kernel)
  obtain ⟨hleft, hfault⟩ := Bool.and_eq_true_iff.mp hp
  obtain ⟨hn, htake⟩ := Bool.and_eq_true_iff.mp hleft
  obtain ⟨⟨e, q₁⟩, htake, hboth⟩ := of_toOption_any htake
  obtain ⟨hshrink, hnest⟩ := Bool.and_eq_true_iff.mp hboth
  exact ⟨c, hrun, of_decide_eq_true hn, rfl, ⟨e, q₁, htake, hshrink, hnest⟩,
    eq_error_of_faultOf (of_decide_eq_true hfault)⟩

end LinuxFibers.CalQueue
