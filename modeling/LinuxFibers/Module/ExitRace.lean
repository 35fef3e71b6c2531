import LinuxFibers.Module.ConvertSteps
import LinuxFibers.Module.Lifetime

/-!
# Threads that exit at the same time

`preHandler` takes an exit as one step.  The handlers of the threads of a process
can interleave: `Kernel.exitStep` is `Pre_Handler` cut at the search of the record,
the atomic decrement of `count_threads`, the removal of thread and fiber, the test
of `count_threads` and the removal of the record.  `solo_exit` says that a handler
which nobody interrupts is the exit of `preHandler`.

The decrement and the test are two steps.  When two threads both decrement before
either tests, both see zero, and one uses the record that the other freed
(`record_used_after_free`).  When the decrement to zero waits until nobody else is
between its decrement and its test, the record is freed once and never used
afterwards (`freed_once`).
-/

namespace LinuxFibers.Module

open LinuxFibers.Lib HashTable

/-! ## `Pre_Handler` in steps -/

/-- Where a thread is in its call of `Pre_Handler`, with the addresses `process`
and `thread`. -/
inductive Exiting where
  /-- Before the call. -/
  | idle
  /-- The record and the thread were found. -/
  | searched (process thread : ℕ)
  /-- `count_threads` was decremented. -/
  | counted (process thread : ℕ)
  /-- The thread and its fiber are freed. -/
  | removed (process : ℕ)
  /-- `count_threads` was zero. -/
  | last (process : ℕ)
  /-- After the call. -/
  | done
  deriving DecidableEq

/-- The next step of a call. -/
def Kernel.exitStep (k : Kernel) (proId thrId : Pid) : Exiting → Except Fault (Kernel × Exiting)
  | .idle =>
      match searchProcess k proId with
      | none => .ok (k, .done)
      | some process =>
          match searchThread thrId process.obj with
          | none => .ok (k, .done)
          | some thread => .ok (k, .searched process.addr thread.addr)
  | .searched a t => .ok ({ k with countThreads := k.countThreads - 1 }, .counted a t)
  | .counted a t => do
      let p ← k.derefProcess a
      match p.threads.deref t with
      | none => .error (.notLinked t)
      | some thread =>
          let (f, _) ← derefFiber p.fibers thread.activeFiber
          return (kfree (kfree (k.setProcess a (p.exit t f)) t) f, .removed a)
  | .removed a => .ok (k, if k.countThreads = 0 then .last a else .done)
  | .last a => do
      let _ ← k.derefProcess a
      return (kfree (k.delProcess a) a, .done)
  | .done => .ok (k, .done)

/-- The threads of one process in `Pre_Handler`, and how often a process record was
freed. -/
structure ExitRace where
  kernel : Kernel
  call : Pid → Exiting
  frees : ℕ

/-- Nobody has called yet. -/
def ExitRace.start (k : Kernel) : ExitRace := ⟨k, fun _ => .idle, 0⟩

/-- The number of frees after the step of a call. -/
def Exiting.free (c : Exiting) (frees : ℕ) : ℕ :=
  match c with
  | .last _ => frees + 1
  | _ => frees

/-- One step of one thread. -/
def ExitRace.exec (tgid : Pid) (s : ExitRace) (pid : Pid) : Except Fault ExitRace := do
  let (k, c) ← s.kernel.exitStep tgid pid (s.call pid)
  return ⟨k, Function.update s.call pid c, (s.call pid).free s.frees⟩

/-- The steps of the threads of a process. -/
def ExitStep (tgid : Pid) (threads : List Pid) (s : ExitRace) (pid : Pid) (t : ExitRace) : Prop :=
  pid ∈ threads ∧ s.exec tgid pid = .ok t

/-- Between its decrement and the end of its test. -/
def Exiting.isTesting : Exiting → Bool
  | .counted _ _ | .removed _ => true
  | _ => false

/-- The decrement to zero waits for the tests of the other threads. -/
def waits (threads : List Pid) (s : ExitRace) (pid : Pid) : Bool :=
  match s.call pid with
  | .searched _ _ => s.kernel.countThreads != 1 || threads.all fun q => !(s.call q).isTesting
  | _ => true

/-- The steps in which the last decrement waits. -/
def WaitingStep (tgid : Pid) (threads : List Pid) (s : ExitRace) (pid : Pid) (t : ExitRace) :
    Prop :=
  waits threads s pid = true ∧ ExitStep tgid threads s pid t

variable {k k' : Kernel} {tgid pid : Pid} {a : ℕ} {p : ProcessArg} {s t : ExitRace}
  {threads : List Pid}

/-! ## A call that nobody interrupts -/

/-- One step of a call. -/
def ExitOn (tgid pid : Pid) (x y : Kernel × Exiting) : Prop :=
  x.1.exitStep tgid pid x.2 = .ok y

/-- A call that nobody interrupts ends as the exit of one step does. -/
theorem solo_exit (h : KernelOk k) (hx : preHandler k tgid pid = .ok k') :
    Relation.ReflTransGen (ExitOn tgid pid) (k, .idle) (k', .done) := by
  unfold preHandler at hx
  split at hx
  · rename_i hnone
    cases hx
    apply Relation.ReflTransGen.single
    simp only [ExitOn, Kernel.exitStep, hnone]
  · rename_i e he
    split at hx
    · rename_i hnone
      cases hx
      apply Relation.ReflTransGen.single
      simp only [ExitOn, Kernel.exitStep, he, hnone]
    · rename_i th hth
      have hmem := (of_searchProcess he).1
      have hl := h.linked _ _ (record_of_mem h.toTables hmem)
      obtain ⟨⟨f, g⟩, hd, hx⟩ := of_bind hx
      have hderef : ({ k with countThreads := k.countThreads - 1 } : Kernel).derefProcess e.addr =
          .ok e.obj := derefProcess_eq h.unique hmem
      have hthread : e.obj.threads.deref th.addr = some th.obj :=
        deref_of_mem hl.threads_unique (of_searchThread hth).1
      have hsearched : ExitOn tgid pid (k, .idle) (k, .searched e.addr th.addr) := by
        simp only [ExitOn, Kernel.exitStep, he, hth]
      have hcounted : ExitOn tgid pid (k, .searched e.addr th.addr)
          ({ k with countThreads := k.countThreads - 1 }, .counted e.addr th.addr) := rfl
      let k₃ := kfree (kfree ({ k with countThreads := k.countThreads - 1 }.setProcess e.addr
        (e.obj.exit th.addr f)) th.addr) f
      have hremoved : ExitOn tgid pid
          ({ k with countThreads := k.countThreads - 1 }, .counted e.addr th.addr)
          (k₃, .removed e.addr) := by
        simp only [ExitOn, Kernel.exitStep, hderef, bind, Except.bind, hthread, hd]
        rfl
      refine .head hsearched (.head hcounted (.head hremoved ?_))
      have hx : (if k₃.countThreads = 0 then Except.ok (kfree (k₃.delProcess e.addr) e.addr)
          else (.ok k₃ : Except Fault Kernel)) = .ok k' := hx
      by_cases hzero : k₃.countThreads = 0
      · rw [if_pos hzero] at hx
        cases hx
        have hlast : ExitOn tgid pid (k₃, .removed e.addr) (k₃, .last e.addr) := by
          simp only [ExitOn, Kernel.exitStep, hzero, if_true]
        have hmem' : { e with obj := e.obj.exit th.addr f } ∈ k₃.listProcess :=
          mem_modify_self (f := fun _ => e.obj.exit th.addr f) hmem
        have hunique' : k₃.listProcess.UniqueAddr :=
          h.unique.modify e.addr fun _ => e.obj.exit th.addr f
        have hdone : ExitOn tgid pid (k₃, .last e.addr)
            (kfree (k₃.delProcess e.addr) e.addr, .done) := by
          simp only [ExitOn, Kernel.exitStep, derefProcess_eq hunique' hmem', bind, Except.bind]
          rfl
        exact .head hlast (.single hdone)
      · rw [if_neg hzero, Except.ok.injEq] at hx
        rw [← hx]
        apply Relation.ReflTransGen.single
        simp only [ExitOn, Kernel.exitStep, if_neg hzero]

/-! ## The record while it is there -/

/-- The only record is `p`, at `a`. -/
structure Present (tgid : Pid) (k : Kernel) (a : ℕ) (p : ProcessArg) : Prop where
  list : k.listProcess = [⟨hash32 tgid, a, p⟩]
  pid_eq : p.pid = tgid
  linked : Linked k.brk p
  owned : Owned p

/-- The objects that a thread has found are linked. -/
def Exiting.Placed (a : ℕ) (p : ProcessArg) (pid : Pid) : Exiting → Prop
  | .idle => ∃ th ∈ p.threads, th.obj.pid = pid
  | .searched a' t | .counted a' t => a' = a ∧ ∃ th ∈ p.threads, th.addr = t ∧ th.obj.pid = pid
  | .removed a' | .last a' => a' = a
  | .done => True

theorem Present.deref (h : Present tgid k a p) : k.derefProcess a = .ok p := by
  simp [Kernel.derefProcess, h.list, HashTable.deref]

theorem Present.search (h : Present tgid k a p) :
    searchProcess k tgid = some ⟨hash32 tgid, a, p⟩ := by
  simp [searchProcess, h.list, HashTable.search, h.pid_eq]

theorem exitStep_idle (h : Present tgid k a p) (hc : Exiting.Placed a p pid .idle) :
    ∃ t, k.exitStep tgid pid .idle = .ok (k, .searched a t) ∧
      Exiting.Placed a p pid (.searched a t) := by
  obtain ⟨th, hth, rfl⟩ := hc
  refine ⟨th.addr, ?_, rfl, th, hth, rfl, rfl⟩
  simp only [Kernel.exitStep, h.search, searchThread_of_mem h.linked hth]

/-- The removal of a thread leaves the other threads where they are. -/
theorem Exiting.Placed.exit (hl : Linked k.brk p) {th : Entry ThreadArg} (hth : th ∈ p.threads)
    {f : ℕ} {q : Pid} {c : Exiting} (hq : th.obj.pid ≠ q) (hc : c.Placed a p q) :
    c.Placed a (p.exit th.addr f) q := by
  have hkeep : ∀ x ∈ p.threads, x.obj.pid = q → x ∈ (p.exit th.addr f).threads := by
    intro x hx hpid
    apply mem_hashDel.mpr
    refine ⟨hx, fun haddr => hq ?_⟩
    rw [← hl.threads_unique.eq_of_addr hx hth haddr, hpid]
  cases c with
  | idle =>
    obtain ⟨x, hx, hpid⟩ := hc
    exact ⟨x, hkeep x hx hpid, hpid⟩
  | searched | counted =>
    obtain ⟨ha, x, hx, haddr, hpid⟩ := hc
    exact ⟨ha, x, hkeep x hx hpid, haddr, hpid⟩
  | removed | last => exact hc
  | done => trivial

theorem exitStep_counted {b t : ℕ} (h : Present tgid k a p)
    (hc : Exiting.Placed a p pid (.counted b t)) :
    ∃ k' p', k.exitStep tgid pid (.counted b t) = .ok (k', .removed a) ∧ Present tgid k' a p' ∧
      k'.countThreads = k.countThreads ∧
      ∀ q (c : Exiting), q ≠ pid → c.Placed a p q → c.Placed a p' q := by
  obtain ⟨rfl, th, hth, rfl, rfl⟩ := hc
  obtain ⟨f, _, hactive, _, hd⟩ :=
    derefFiber_active h.linked h.owned (searchThread_of_mem h.linked hth)
  let k₂ := kfree (kfree (k.setProcess b (p.exit th.addr f.addr)) th.addr) f.addr
  have hstep : k.exitStep tgid th.obj.pid (.counted b th.addr) = .ok (k₂, .removed b) := by
    simp only [Kernel.exitStep, h.deref, bind, Except.bind,
      deref_of_mem h.linked.threads_unique hth, hd]
    rfl
  have hlist : k₂.listProcess = [⟨hash32 tgid, b, p.exit th.addr f.addr⟩] := by
    show k.listProcess.modify b (fun _ => p.exit th.addr f.addr) = _
    simp [h.list, HashTable.modify]
  refine ⟨k₂, _, hstep, ⟨hlist, h.pid_eq, linked_exit h.linked _ _, ?_⟩, rfl, ?_⟩
  · exact owned_exit h.linked h.owned hth hactive
  · intro q c hq hc
    exact Exiting.Placed.exit h.linked hth (Ne.symm hq) hc

theorem exitStep_last (h : Present tgid k a p) :
    ∃ k', k.exitStep tgid pid (.last a) = .ok (k', .done) ∧ k'.countThreads = k.countThreads := by
  refine ⟨kfree (k.delProcess a) a, ?_, rfl⟩
  simp only [Kernel.exitStep, h.deref, bind, Except.bind]
  rfl

/-! ## The invariant -/

/-- Before the decrement. -/
def Exiting.isPending : Exiting → Bool
  | .idle | .searched _ _ => true
  | _ => false

/-- The test found zero. -/
def Exiting.isLast : Exiting → Bool
  | .last _ => true
  | _ => false

/-- The threads that have not decremented `count_threads` yet. -/
def pending (threads : List Pid) (call : Pid → Exiting) : Finset Pid :=
  threads.toFinset.filter fun q => (call q).isPending = true

/-- How far the threads of the process are. -/
inductive Stage (tgid : Pid) (threads : List Pid) (s : ExitRace) : Prop where
  /-- Some thread has not decremented yet, so nobody tests zero. -/
  | running {a : ℕ} {p : ProcessArg} : Present tgid s.kernel a p →
      (∀ q ∈ threads, (s.call q).Placed a p q) → s.frees = 0 → 0 < s.kernel.countThreads →
      (∀ q ∈ threads, (s.call q).isLast = false) → Stage tgid threads s
  /-- One thread is left, behind its decrement to zero. -/
  | closing {a : ℕ} {p : ProcessArg} {z : Pid} : Present tgid s.kernel a p →
      (∀ q ∈ threads, (s.call q).Placed a p q) → s.frees = 0 → s.kernel.countThreads = 0 →
      z ∈ threads → (s.call z).isTesting = true ∨ (s.call z).isLast = true →
      (∀ q ∈ threads, q ≠ z → s.call q = .done) → Stage tgid threads s
  /-- All threads are done and the record is freed. -/
  | closed : s.frees = 1 → (∀ q ∈ threads, s.call q = .done) → Stage tgid threads s

/-- `count_threads` is the number of threads that have not decremented it. -/
structure Racing (tgid : Pid) (threads : List Pid) (s : ExitRace) : Prop where
  count : s.kernel.countThreads = (pending threads s.call).card
  stage : Stage tgid threads s

theorem mem_pending {call : Pid → Exiting} {q : Pid} :
    q ∈ pending threads call ↔ q ∈ threads ∧ (call q).isPending = true := by
  simp [pending]

/-- A step that is no decrement. -/
theorem pending_same {call : Pid → Exiting} {c : Exiting}
    (hc : c.isPending = (call pid).isPending) :
    pending threads (Function.update call pid c) = pending threads call := by
  ext q
  rw [mem_pending, mem_pending]
  by_cases hq : q = pid
  · rw [hq, Function.update_self, hc]
  · rw [Function.update_of_ne hq]

/-- A decrement. -/
theorem pending_decrement {call : Pid → Exiting} {c : Exiting} (hpid : pid ∈ threads)
    (hbefore : (call pid).isPending = true) (hc : c.isPending = false) :
    (pending threads (Function.update call pid c)).card + 1 = (pending threads call).card := by
  have herase :
      pending threads (Function.update call pid c) = (pending threads call).erase pid := by
    ext q
    rw [Finset.mem_erase, mem_pending, mem_pending]
    by_cases hq : q = pid
    · simp [hq, hc]
    · simp [hq]
  rw [herase]
  exact Finset.card_erase_add_one (mem_pending.mpr ⟨hpid, hbefore⟩)

theorem exec_eq {c : Exiting} (h : s.kernel.exitStep tgid pid (s.call pid) = .ok (k', c)) :
    s.exec tgid pid = .ok ⟨k', Function.update s.call pid c, (s.call pid).free s.frees⟩ := by
  simp only [ExitRace.exec, h, bind, Except.bind]
  rfl

theorem placed_update {call : Pid → Exiting} {p' : ProcessArg} {c : Exiting}
    (h : ∀ q ∈ threads, (call q).Placed a p q)
    (hkeep : ∀ q (c : Exiting), q ≠ pid → c.Placed a p q → c.Placed a p' q)
    (hc : c.Placed a p' pid) : ∀ q ∈ threads, (Function.update call pid c q).Placed a p' q := by
  intro q hq
  by_cases hqp : q = pid
  · rw [hqp, Function.update_self]
    exact hc
  · rw [Function.update_of_ne hqp]
    exact hkeep q _ hqp (h q hq)

/-- The threads that did not move are not behind a test that found zero. -/
theorem not_last_update {call : Pid → Exiting} {c : Exiting}
    (h : ∀ q ∈ threads, (call q).isLast = false) (hc : c.isLast = false) :
    ∀ q ∈ threads, (Function.update call pid c q).isLast = false := by
  intro q hq
  by_cases hqp : q = pid
  · rw [hqp, Function.update_self]
    exact hc
  · rw [Function.update_of_ne hqp]
    exact h q hq

/-- The last thread that decrements is alone, when it has waited. -/
theorem alone_of_waits (hcount : s.kernel.countThreads = (pending threads s.call).card)
    (hone : s.kernel.countThreads = 1) (hpid : pid ∈ threads) {b t : ℕ}
    (hcall : s.call pid = .searched b t) (hwaits : waits threads s pid = true)
    (hlast : ∀ q ∈ threads, (s.call q).isLast = false) :
    ∀ q ∈ threads, q ≠ pid → s.call q = .done := by
  intro q hq hqp
  have hcard : (pending threads s.call).card = 1 := by omega
  have hself : pid ∈ pending threads s.call := mem_pending.mpr ⟨hpid, by rw [hcall]; rfl⟩
  have hpending : (s.call q).isPending = false := by
    by_contra hne
    have hmem : q ∈ pending threads s.call := mem_pending.mpr ⟨hq, by simpa using hne⟩
    exact hqp (Finset.card_le_one.mp (Nat.le_of_eq hcard) q hmem pid hself)
  have htesting : (s.call q).isTesting = false := by
    simp only [waits, hcall, hone, bne_self_eq_false, Bool.false_or, List.all_eq_true,
      Bool.not_eq_true'] at hwaits
    exact hwaits q hq
  have hlast := hlast q hq
  cases hc : s.call q with
  | done => rfl
  | idle | searched =>
    rw [hc] at hpending
    cases hpending
  | counted | removed =>
    rw [hc] at htesting
    cases htesting
  | last =>
    rw [hc] at hlast
    cases hlast

/-! ## Steps -/

/-- Only the removal of the record frees one. -/
theorem free_of_not_last {c : Exiting} (h : c.isLast = false) (frees : ℕ) :
    c.free frees = frees := by
  cases c with
  | last => cases h
  | _ => rfl

/-- A step that is no decrement, while some thread has not decremented yet. -/
theorem racing_noDecrement (hcount : s.kernel.countThreads = (pending threads s.call).card)
    (hplaced : ∀ q ∈ threads, (s.call q).Placed a p q) (hfrees : s.frees = 0)
    (hpos : 0 < s.kernel.countThreads) (hlast : ∀ q ∈ threads, (s.call q).isLast = false)
    (hpid : pid ∈ threads) {c : Exiting} {p' : ProcessArg}
    (hstep : s.kernel.exitStep tgid pid (s.call pid) = .ok (k', c)) (hpres : Present tgid k' a p')
    (hcount' : k'.countThreads = s.kernel.countThreads)
    (hkeep : ∀ q (c : Exiting), q ≠ pid → c.Placed a p q → c.Placed a p' q)
    (hc : c.Placed a p' pid) (hpending : c.isPending = (s.call pid).isPending)
    (hnot : c.isLast = false) :
    ∃ t, s.exec tgid pid = .ok t ∧ Racing tgid threads t := by
  refine ⟨_, exec_eq hstep, ?_, .running hpres (placed_update hplaced hkeep hc) ?_ ?_ ?_⟩
  · rw [pending_same hpending, ← hcount]
    exact hcount'
  · rw [free_of_not_last (hlast pid hpid)]
    exact hfrees
  · rw [← hcount'] at hpos
    exact hpos
  · exact not_last_update hlast hnot

/-- The decrement. -/
theorem racing_decrement (hcount : s.kernel.countThreads = (pending threads s.call).card)
    (hpres : Present tgid s.kernel a p) (hplaced : ∀ q ∈ threads, (s.call q).Placed a p q)
    (hfrees : s.frees = 0) (hpos : 0 < s.kernel.countThreads)
    (hlast : ∀ q ∈ threads, (s.call q).isLast = false) (hpid : pid ∈ threads) {b t : ℕ}
    (hcall : s.call pid = .searched b t) :
    ∃ u, s.exec tgid pid = .ok u ∧ (waits threads s pid = true → Racing tgid threads u) := by
  have hself := hplaced pid hpid
  have hstep : s.kernel.exitStep tgid pid (s.call pid) =
      .ok ({ s.kernel with countThreads := s.kernel.countThreads - 1 }, .counted b t) := by
    rw [hcall]
    rfl
  have hdec := @pending_decrement pid threads s.call (.counted b t) hpid (by rw [hcall]; rfl) rfl
  have hplaced' := placed_update (c := .counted b t) hplaced (fun _ _ _ h => h)
    (by rw [hcall] at hself; exact hself)
  refine ⟨_, exec_eq hstep, fun hwaits => ⟨?_, ?_⟩⟩
  · show s.kernel.countThreads - 1 =
      ((pending threads (Function.update s.call pid (.counted b t))).card : ℤ)
    omega
  · by_cases hone : s.kernel.countThreads = 1
    · refine .closing ⟨hpres.list, hpres.pid_eq, hpres.linked, hpres.owned⟩ hplaced' ?_ ?_ hpid
        (Or.inl ?_) ?_
      · rw [hcall]
        exact hfrees
      · show s.kernel.countThreads - 1 = 0
        omega
      · show (Function.update s.call pid (.counted b t) pid).isTesting = true
        rw [Function.update_self]
        rfl
      · intro q hq hqp
        show Function.update s.call pid (.counted b t) q = .done
        rw [Function.update_of_ne hqp]
        exact alone_of_waits hcount hone hpid hcall hwaits hlast q hq hqp
    · refine .running ⟨hpres.list, hpres.pid_eq, hpres.linked, hpres.owned⟩ hplaced' ?_ ?_
        (not_last_update hlast rfl)
      · rw [hcall]
        exact hfrees
      · show 0 < s.kernel.countThreads - 1
        omega

/-- A step while some thread has not decremented yet. -/
theorem racing_running (hcount : s.kernel.countThreads = (pending threads s.call).card)
    (hpres : Present tgid s.kernel a p) (hplaced : ∀ q ∈ threads, (s.call q).Placed a p q)
    (hfrees : s.frees = 0) (hpos : 0 < s.kernel.countThreads)
    (hlast : ∀ q ∈ threads, (s.call q).isLast = false) (hpid : pid ∈ threads) :
    ∃ t, s.exec tgid pid = .ok t ∧ (waits threads s pid = true → Racing tgid threads t) := by
  have hself := hplaced pid hpid
  cases hcall : s.call pid with
  | idle =>
    rw [hcall] at hself
    obtain ⟨t, hstep, hc⟩ := exitStep_idle hpres hself
    rw [← hcall] at hstep
    obtain ⟨t, ht, hr⟩ := racing_noDecrement hcount hplaced hfrees hpos hlast hpid hstep hpres rfl
      (fun _ _ _ h => h) hc (by rw [hcall]; rfl) rfl
    exact ⟨t, ht, fun _ => hr⟩
  | searched b t => exact racing_decrement hcount hpres hplaced hfrees hpos hlast hpid hcall
  | counted b t =>
    rw [hcall] at hself
    obtain ⟨k', p', hstep, hpres', hcount', hkeep⟩ := exitStep_counted hpres hself
    rw [← hcall] at hstep
    obtain ⟨t, ht, hr⟩ := racing_noDecrement hcount hplaced hfrees hpos hlast hpid hstep hpres'
      hcount' hkeep rfl (by rw [hcall]; rfl) rfl
    exact ⟨t, ht, fun _ => hr⟩
  | removed b =>
    have hne : ¬ s.kernel.countThreads = 0 := by omega
    have hstep : s.kernel.exitStep tgid pid (s.call pid) = .ok (s.kernel, .done) := by
      rw [hcall]
      simp only [Kernel.exitStep, if_neg hne]
    obtain ⟨t, ht, hr⟩ := racing_noDecrement hcount hplaced hfrees hpos hlast hpid hstep hpres rfl
      (fun _ _ _ h => h) trivial (by rw [hcall]; rfl) rfl
    exact ⟨t, ht, fun _ => hr⟩
  | last b =>
    have hnot := hlast pid hpid
    rw [hcall] at hnot
    cases hnot
  | done =>
    have hstep : s.kernel.exitStep tgid pid (s.call pid) = .ok (s.kernel, .done) := by
      rw [hcall]
      rfl
    obtain ⟨t, ht, hr⟩ := racing_noDecrement hcount hplaced hfrees hpos hlast hpid hstep hpres rfl
      (fun _ _ _ h => h) trivial (by rw [hcall]) rfl
    exact ⟨t, ht, fun _ => hr⟩

/-- A step of a thread that is done. -/
theorem exec_done (hcall : s.call pid = .done) : s.exec tgid pid = .ok s := by
  have hstep : s.kernel.exitStep tgid pid (s.call pid) = .ok (s.kernel, .done) := by
    rw [hcall]
    rfl
  rw [exec_eq hstep, ← hcall, Function.update_eq_self, hcall]
  rfl

/-- A step when one thread is left. -/
theorem racing_closing {z : Pid} (hcount : s.kernel.countThreads = (pending threads s.call).card)
    (hpres : Present tgid s.kernel a p) (hplaced : ∀ q ∈ threads, (s.call q).Placed a p q)
    (hfrees : s.frees = 0) (hzero : s.kernel.countThreads = 0) (hz : z ∈ threads)
    (hcall : (s.call z).isTesting = true ∨ (s.call z).isLast = true)
    (hdone : ∀ q ∈ threads, q ≠ z → s.call q = .done) (hpid : pid ∈ threads) :
    ∃ t, s.exec tgid pid = .ok t ∧ Racing tgid threads t := by
  have hothers : ∀ c, ∀ q ∈ threads, q ≠ z → Function.update s.call z c q = .done := by
    intro c q hq hqz
    rw [Function.update_of_ne hqz]
    exact hdone q hq hqz
  by_cases hpz : pid = z
  · subst hpz
    have hself := hplaced pid hpid
    cases hc : s.call pid with
    | counted b t =>
      rw [hc] at hself
      obtain ⟨k', p', hstep, hpres', hcount', hkeep⟩ := exitStep_counted hpres hself
      rw [← hc] at hstep
      refine ⟨_, exec_eq hstep, ?_, .closing hpres' ?_ ?_ ?_ hz (Or.inl ?_) (hothers _)⟩
      · rw [pending_same (by rw [hc]; rfl), ← hcount]
        exact hcount'
      · exact placed_update hplaced hkeep rfl
      · rw [hc]
        exact hfrees
      · rw [← hzero]
        exact hcount'
      · show (Function.update s.call pid (.removed a) pid).isTesting = true
        rw [Function.update_self]
        rfl
    | removed b =>
      have hstep : s.kernel.exitStep tgid pid (s.call pid) = .ok (s.kernel, .last b) := by
        rw [hc]
        simp only [Kernel.exitStep, hzero, if_true]
      rw [hc] at hself
      refine ⟨_, exec_eq hstep, ?_, .closing hpres ?_ ?_ hzero hz (Or.inr ?_) (hothers _)⟩
      · rw [hcount, pending_same (by rw [hc]; rfl)]
      · exact placed_update hplaced (fun _ _ _ h => h) hself
      · rw [hc]
        exact hfrees
      · show (Function.update s.call pid (.last b) pid).isLast = true
        rw [Function.update_self]
        rfl
    | last b =>
      rw [hc] at hself
      have hba : b = a := hself
      subst hba
      obtain ⟨k', hstep, hcount'⟩ := @exitStep_last s.kernel tgid pid b p hpres
      rw [← hc] at hstep
      refine ⟨_, exec_eq hstep, ?_, .closed ?_ ?_⟩
      · rw [pending_same (by rw [hc]; rfl), ← hcount]
        exact hcount'
      · rw [hc]
        exact congrArg Nat.succ hfrees
      · intro q hq
        by_cases hqp : q = pid
        · show Function.update s.call pid .done q = .done
          rw [hqp, Function.update_self]
        · exact hothers .done q hq hqp
    | idle | searched | done =>
      rw [hc] at hcall
      rcases hcall with hcall | hcall <;> cases hcall
  · exact ⟨s, exec_done (hdone pid hpid hpz), hcount,
      .closing hpres hplaced hfrees hzero hz hcall hdone⟩

/-- The next step of every thread returns, and keeps the invariant when the last
decrement waits. -/
theorem racing_exec (h : Racing tgid threads s) (hpid : pid ∈ threads) :
    ∃ t, s.exec tgid pid = .ok t ∧ (waits threads s pid = true → Racing tgid threads t) := by
  cases h.stage with
  | running hpres hplaced hfrees hpos hlast =>
    exact racing_running h.count hpres hplaced hfrees hpos hlast hpid
  | closing hpres hplaced hfrees hzero hz hcall hdone =>
    obtain ⟨t, ht, hr⟩ :=
      racing_closing h.count hpres hplaced hfrees hzero hz hcall hdone hpid
    exact ⟨t, ht, fun _ => hr⟩
  | closed hfrees hdone => exact ⟨s, exec_done (hdone pid hpid), fun _ => h⟩

theorem racing_step (h : Racing tgid threads s) (hs : WaitingStep tgid threads s pid t) :
    Racing tgid threads t := by
  obtain ⟨hwaits, hpid, hexec⟩ := hs
  obtain ⟨u, hu, hr⟩ := racing_exec h hpid
  rw [hexec, Except.ok.injEq] at hu
  rw [hu]
  exact hr hwaits

/-! ## Runs -/

/-- The only record of a kernel. -/
theorem listProcess_singleton (h : Tables k) (hp : k.record tgid = some p)
    (honly : ∀ id, id ≠ tgid → k.record id = none) :
    ∃ a, k.listProcess = [⟨hash32 tgid, a, p⟩] ∧ p.pid = tgid := by
  obtain ⟨e, he, rfl, rfl⟩ := mem_of_record hp
  have hall : ∀ x ∈ k.listProcess, x = e := by
    intro x hx
    have hrec := record_of_mem h hx
    have hpid : x.obj.pid = e.obj.pid := by
      by_contra hne
      rw [honly _ hne] at hrec
      cases hrec
    exact h.pid_inj x hx e he hpid
  have hlist : k.listProcess = [e] := by
    have hnodup := h.unique.nodup
    have hpos := List.length_pos_of_mem he
    rw [List.eq_replicate_of_mem hall, List.nodup_replicate] at hnodup
    rw [List.eq_replicate_of_mem hall]
    have hone : k.listProcess.length = 1 := by omega
    rw [hone]
    rfl
  refine ⟨e.addr, ?_, rfl⟩
  rw [hlist, ← h.bucket_eq e he]

/-- The threads of the only process, before any of them exits. -/
theorem racing_start {context : Pid × Pid → Context} {as : List Action} {s₀ : System}
    (h : Run Step (System.init context) as s₀) (hp : s₀.kernel.record tgid = some p)
    (honly : ∀ id, id ≠ tgid → s₀.kernel.record id = none) (hthreads : p.pids ≠ []) :
    Racing tgid p.pids (ExitRace.start s₀.kernel) := by
  obtain ⟨tr, hrec⟩ := h.exists_recorded
  obtain ⟨hok, hcounted⟩ := counted_run hrec
  obtain ⟨L, hcount, hL⟩ := hcounted.count
  have hlive : L = p.pids.toFinset.image fun pid => (tgid, pid) := by
    ext ⟨id, pid⟩
    rw [hL, Finset.mem_image]
    constructor
    · intro hmem
      by_cases hid : id = tgid
      · subst hid
        rw [hp] at hmem
        exact ⟨pid, List.mem_toFinset.mpr hmem, rfl⟩
      · rw [honly id hid] at hmem
        cases hmem
    · rintro ⟨q, hq, heq⟩
      cases heq
      rw [hp]
      exact List.mem_toFinset.mp hq
  have hpending : pending p.pids (fun _ => .idle) = p.pids.toFinset := by
    simp [pending, Exiting.isPending]
  have hcard : s₀.kernel.countThreads = (p.pids.toFinset.card : ℤ) := by
    rw [hcount, hlive, Finset.card_image_of_injective _ (Prod.mk_right_injective tgid)]
  obtain ⟨a, hlist, hpid⟩ := listProcess_singleton hok.toTables hp honly
  refine ⟨by rw [ExitRace.start, hpending, hcard], ?_⟩
  refine .running ⟨hlist, hpid, hok.linked tgid p hp, hok.owned tgid p hp⟩ ?_ rfl ?_ fun _ _ => rfl
  · intro q hq
    obtain ⟨th, hth, hq⟩ := List.mem_map.mp hq
    exact ⟨th, hth, hq⟩
  · obtain ⟨q, hq⟩ := List.exists_mem_of_ne_nil _ hthreads
    have hpos := Finset.card_pos.mpr ⟨q, List.mem_toFinset.mpr hq⟩
    show 0 < s₀.kernel.countThreads
    omega

/-- The threads of the only process exit.  When the decrement to zero waits for the
tests of the others, no handler uses the record after it was freed, and at the end
the record has been freed once. -/
theorem freed_once {context : Pid × Pid → Context} {as : List Action} {s₀ : System}
    {ps : List Pid} (h : Run Step (System.init context) as s₀)
    (hp : s₀.kernel.record tgid = some p)
    (honly : ∀ id, id ≠ tgid → s₀.kernel.record id = none) (hthreads : p.pids ≠ [])
    (hrace : Run (WaitingStep tgid p.pids) (ExitRace.start s₀.kernel) ps t) :
    (∀ pid ∈ p.pids, ∃ u, t.exec tgid pid = .ok u) ∧ t.frees ≤ 1 ∧
      ((∀ pid ∈ p.pids, t.call pid = .done) → t.frees = 1) := by
  have hracing : Racing tgid p.pids t := hrace.invariant (I := Racing tgid p.pids)
    (fun _ _ _ hs hstep => racing_step hs hstep) (racing_start h hp honly hthreads)
  refine ⟨fun pid hpid => ?_, ?_, fun hdone => ?_⟩
  · obtain ⟨u, hu, _⟩ := racing_exec hracing hpid
    exact ⟨u, hu⟩
  · cases hracing.stage with
    | running _ _ hfrees => omega
    | closing _ _ hfrees => omega
    | closed hfrees => omega
  · have hpending : pending p.pids t.call = ∅ := by
      ext q
      rw [mem_pending]
      constructor
      · rintro ⟨hq, hc⟩
        rw [hdone q hq] at hc
        cases hc
      · intro hq
        cases hq
    have hzero : t.kernel.countThreads = 0 := by
      rw [hracing.count, hpending]
      rfl
    cases hracing.stage with
    | running _ _ _ hpos => omega
    | closing _ _ _ _ hz hcall =>
      rw [hdone _ hz] at hcall
      rcases hcall with hcall | hcall <;> cases hcall
    | closed hfrees => exact hfrees

/-! ## Two threads -/

/-- Threads 7 and 8 of process 7 have converted. -/
def twoConverted : List Action :=
  [.ioctl 7 7 .convertToFiber 0 Env.plain, .ioctl 7 8 .convertToFiber 0 Env.plain]

/-- A run of concrete steps of the two threads, under a condition. -/
theorem exists_exitRun (ok : ExitRace → Pid → Bool) (ps : List Pid) (q : ExitRace → Bool)
    (h : (replay System.exec (fun _ _ => true) (System.init zeroContext) twoConverted).any (fun s =>
      decide ((s.kernel.record 7).map ProcessArg.pids = some [8, 7]) &&
      (s.kernel.listProcess.all fun e => e.obj.pid == 7) &&
      (replay (ExitRace.exec 7) (fun s pid => ok s pid && [8, 7].contains pid)
        (ExitRace.start s.kernel) ps).any q) = true) :
    ∃ s₀ p t, Run Step (System.init zeroContext) twoConverted s₀ ∧ s₀.kernel.record 7 = some p ∧
      p.pids = [8, 7] ∧ (∀ id, id ≠ 7 → s₀.kernel.record id = none) ∧
      Run (fun s pid t => ok s pid = true ∧ ExitStep 7 p.pids s pid t) (ExitRace.start s₀.kernel)
        ps t ∧ q t = true := by
  obtain ⟨s₀, hrun, hp⟩ := exists_run (System.init zeroContext) twoConverted _ h
  simp only [Bool.and_eq_true, decide_eq_true_eq, List.all_eq_true, beq_iff_eq] at hp
  obtain ⟨⟨hrec, hall⟩, hrace⟩ := hp
  obtain ⟨p, hrec, hpids⟩ := Option.map_eq_some_iff.mp hrec
  obtain ⟨t, hrace, hq⟩ := Lib.exists_run (ExitRace.exec 7) _ (ExitRace.start s₀.kernel) ps q hrace
  refine ⟨s₀, p, t, hrun, hrec, hpids, ?_, hrace.mono fun s pid t h => ?_, hq⟩
  · intro id hid
    cases hnone : s₀.kernel.record id with
    | none => rfl
    | some p' =>
      obtain ⟨e, he, rfl, rfl⟩ := mem_of_record hnone
      exact absurd (hall e he) hid
  · rw [Bool.and_eq_true] at h
    rw [hpids]
    exact ⟨h.1.1, by simpa using h.1.2, h.2⟩

/-- `freed_once` for two threads, the second of which decrements after the first
has tested. -/
theorem freed_once_two_threads : ∃ (s₀ : System) (p : ProcessArg) (ps : List Pid) (t : ExitRace),
    s₀.kernel.record 7 = some p ∧ p.pids = [8, 7] ∧
    Run (WaitingStep 7 p.pids) (ExitRace.start s₀.kernel) ps t ∧ t.frees = 1 := by
  obtain ⟨s₀, p, t, hrun, hrec, hpids, honly, hrace, hq⟩ :=
    exists_exitRun (waits [8, 7]) [7, 8, 7, 7, 7, 8, 8, 8, 8]
      (fun t => decide (t.call 7 = .done) && decide (t.call 8 = .done)) (by decide +kernel)
  simp only [Bool.and_eq_true, decide_eq_true_eq] at hq
  have hwaiting : Run (WaitingStep 7 p.pids) (ExitRace.start s₀.kernel)
      [7, 8, 7, 7, 7, 8, 8, 8, 8] t := by
    rw [hpids] at hrace ⊢
    exact hrace
  have hne : p.pids ≠ [] := by
    rw [hpids]
    exact List.cons_ne_nil _ _
  refine ⟨s₀, p, _, t, hrec, hpids, hwaiting,
    (freed_once hrun hrec honly hne hwaiting).2.2 fun pid hpid => ?_⟩
  rw [hpids] at hpid
  rcases List.mem_cons.mp hpid with rfl | hpid
  · exact hq.2
  · rw [List.mem_singleton.mp hpid]
    exact hq.1

/-- Both threads decrement before either tests.  The first frees the record, and
the second uses it. -/
theorem record_used_after_free : ∃ (s₀ : System) (p : ProcessArg) (ps : List Pid) (t : ExitRace)
    (a : ℕ), Run Step (System.init zeroContext) twoConverted s₀ ∧
    s₀.kernel.record 7 = some p ∧ p.pids = [8, 7] ∧
    (∀ id, id ≠ 7 → s₀.kernel.record id = none) ∧
    Run (ExitStep 7 p.pids) (ExitRace.start s₀.kernel) ps t ∧ t.frees = 1 ∧
    t.exec 7 8 = .error (.notLinked a) := by
  obtain ⟨s₀, p, t, hrun, hrec, hpids, honly, hrace, hq⟩ :=
    exists_exitRun (fun _ _ => true) [7, 8, 7, 8, 7, 7, 7]
      (fun t => t.frees == 1 && match t.exec 7 8 with
        | .error (.notLinked _) => true
        | _ => false) (by decide +kernel)
  simp only [Bool.and_eq_true, beq_iff_eq] at hq
  obtain ⟨hfrees, hq⟩ := hq
  split at hq
  · rename_i a hfault
    exact ⟨s₀, p, _, t, a, hrun, hrec, hpids, honly, hrace.mono fun _ _ _ h => h.2, hfrees, hfault⟩
  · cases hq

end LinuxFibers.Module
