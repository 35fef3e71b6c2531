import LinuxFibers.Module.System

/-!
# The ownership of fibers

`Linked` says that the tables of a record are well formed: what is linked where,
and that indices and thread ids are unique.  `Owned` ties the active fibers of
the threads to the `running` flags.  Every request and every exit keeps both, on
every record, and under them no request whose allocations succeed uses a missing
object.

A switch rewrites the two fibers it is about in place.  `switchedFiber` is that
rewriting.
-/

namespace LinuxFibers.Module

open LinuxFibers.Lib HashTable

variable {brk : ℕ} {p : ProcessArg} {cur : Task} {env : Env}

/-- The tables of a record are well formed. -/
structure Linked (brk : ℕ) (p : ProcessArg) : Prop where
  fibers_unique : p.fibers.UniqueAddr
  threads_unique : p.threads.UniqueAddr
  fibers_lt : ∀ f ∈ p.fibers, f.addr < brk
  threads_lt : ∀ t ∈ p.threads, t.addr < brk
  fiber_bucket : ∀ f ∈ p.fibers, f.bucket = fiberBucket f.obj.index
  thread_bucket : ∀ t ∈ p.threads, t.bucket = hash32 t.obj.pid
  index_inj : ∀ f ∈ p.fibers, ∀ f' ∈ p.fibers, f.obj.index = f'.obj.index → f = f'
  index_lt : ∀ f ∈ p.fibers, f.obj.index < p.fiberId
  pid_inj : ∀ t ∈ p.threads, ∀ t' ∈ p.threads, t.obj.pid = t'.obj.pid → t = t'

/-- The running fibers are the active fibers of the threads, one each. -/
structure Owned (p : ProcessArg) : Prop where
  active : ∀ t ∈ p.threads, ∃ f ∈ p.fibers,
    t.obj.activeFiber = some f.addr ∧ f.obj.running = true
  exclusive : ∀ t ∈ p.threads, ∀ t' ∈ p.threads,
    t.obj.activeFiber = t'.obj.activeFiber → t = t'
  owner : ∀ f ∈ p.fibers, f.obj.running = true →
    ∃ t ∈ p.threads, t.obj.activeFiber = some f.addr

/-! ## Searches in a record -/

theorem of_searchThread {id : Pid} {t : Entry ThreadArg} (h : searchThread id p = some t) :
    t ∈ p.threads ∧ t.obj.pid = id := by
  obtain ⟨ht, _, hp⟩ := of_search h
  exact ⟨ht, by simpa using hp⟩

theorem of_searchFiber {index : BitVec 32} {f : Entry FiberArg}
    (h : searchFiber index p = some f) : f ∈ p.fibers ∧ f.obj.index = intToUlong index := by
  obtain ⟨hf, _, hp⟩ := of_search h
  exact ⟨hf, by simpa using hp⟩

theorem searchThread_of_mem (h : Linked brk p) {t : Entry ThreadArg} (ht : t ∈ p.threads) :
    searchThread t.obj.pid p = some t := by
  have honly : ∀ x ∈ p.threads, (x.obj.pid == t.obj.pid) = true → x = t := by
    intro x hx hp
    exact h.pid_inj x hx t ht (by simpa using hp)
  exact (search_eq_some_iff ht (beq_self_eq_true t.obj.pid) honly).mpr (h.thread_bucket t ht)

theorem ne_of_searchThread_none (h : Linked brk p) {id : Pid} (hnone : searchThread id p = none)
    {t : Entry ThreadArg} (ht : t ∈ p.threads) : t.obj.pid ≠ id := by
  rintro rfl
  rw [searchThread_of_mem h ht] at hnone
  cases hnone

/-- The fiber behind the active pointer of a thread. -/
theorem active_of_mem (hl : Linked brk p) (ho : Owned p) {t : Entry ThreadArg}
    (ht : t ∈ p.threads) : ∃ f ∈ p.fibers, t.obj.activeFiber = some f.addr ∧
      f.obj.running = true ∧ p.fibers.deref f.addr = some f.obj := by
  obtain ⟨f, hf, hactive, hrun⟩ := ho.active t ht
  exact ⟨f, hf, hactive, hrun, deref_of_mem hl.fibers_unique hf⟩

/-! ## Records that grow -/

theorem linked_newProcess (brk : ℕ) (id : Pid) : Linked brk (newProcess id) := by
  constructor <;> simp [newProcess, UniqueAddr]

theorem owned_newProcess (id : Pid) : Owned (newProcess id) := by
  constructor <;> simp [newProcess]

theorem Linked.mono {brk' : ℕ} (h : Linked brk p) (hle : brk ≤ brk') : Linked brk' p :=
  { h with
    fibers_lt := fun f hf => Nat.lt_of_lt_of_le (h.fibers_lt f hf) hle
    threads_lt := fun t ht => Nat.lt_of_lt_of_le (h.threads_lt t ht) hle }

/-- A new fiber with the next index. -/
theorem Linked.create {brk' f : ℕ} {fiber : FiberArg} (h : Linked brk p) (hle : brk ≤ brk')
    (hf : brk ≤ f) (hlt : f < brk') (hindex : fiber.index = p.fiberId) :
    Linked brk' (p.create f fiber) where
  fibers_unique := h.fibers_unique.hashAdd fun x hx =>
    Nat.ne_of_lt (Nat.lt_of_lt_of_le (h.fibers_lt x hx) hf)
  threads_unique := h.threads_unique
  fibers_lt x hx := by
    rcases mem_hashAdd.mp hx with rfl | hx
    · exact hlt
    · exact Nat.lt_of_lt_of_le (h.fibers_lt x hx) hle
  threads_lt t ht := Nat.lt_of_lt_of_le (h.threads_lt t ht) hle
  fiber_bucket x hx := by
    rcases mem_hashAdd.mp hx with rfl | hx
    · rfl
    · exact h.fiber_bucket x hx
  thread_bucket := h.thread_bucket
  index_inj x hx x' hx' heq := by
    rcases mem_hashAdd.mp hx with rfl | hx <;> rcases mem_hashAdd.mp hx' with rfl | hx'
    · rfl
    · have := h.index_lt x' hx'
      change fiber.index = x'.obj.index at heq
      omega
    · have := h.index_lt x hx
      change x.obj.index = fiber.index at heq
      omega
    · exact h.index_inj x hx x' hx' heq
  index_lt x hx := by
    change x.obj.index < p.fiberId + 1
    rcases mem_hashAdd.mp hx with rfl | hx
    · change fiber.index < p.fiberId + 1
      omega
    · exact Nat.lt_succ_of_lt (h.index_lt x hx)
  pid_inj := h.pid_inj

/-- A new thread, over a record to which its fiber was added. -/
theorem Linked.addThread {t : ℕ} {thread : ThreadArg} (h : Linked brk p)
    (hnew : ∀ x ∈ p.threads, x.addr ≠ t) (hlt : t < brk)
    (hpid : searchThread thread.pid p = none) :
    Linked brk { p with threads := p.threads.hashAdd (hash32 thread.pid) t thread } where
  fibers_unique := h.fibers_unique
  threads_unique := h.threads_unique.hashAdd hnew
  fibers_lt := h.fibers_lt
  threads_lt x hx := by
    rcases mem_hashAdd.mp hx with rfl | hx
    · exact hlt
    · exact h.threads_lt x hx
  fiber_bucket := h.fiber_bucket
  thread_bucket x hx := by
    rcases mem_hashAdd.mp hx with rfl | hx
    · rfl
    · exact h.thread_bucket x hx
  index_inj := h.index_inj
  index_lt := h.index_lt
  pid_inj x hx x' hx' heq := by
    rcases mem_hashAdd.mp hx with rfl | hx <;> rcases mem_hashAdd.mp hx' with rfl | hx'
    · rfl
    · exact absurd heq.symm (ne_of_searchThread_none h hpid hx')
    · exact absurd heq (ne_of_searchThread_none h hpid hx)
    · exact h.pid_inj x hx x' hx' heq

theorem linked_convert {brk' t f : ℕ} {thrId : Pid} {fiber : FiberArg} (h : Linked brk p)
    (hthread : searchThread thrId p = none) (hle : brk ≤ brk') (ht : brk ≤ t) (ht' : t < brk')
    (hf : brk ≤ f) (hf' : f < brk') (hindex : fiber.index = p.fiberId) :
    Linked brk' (p.convert thrId t f fiber) := by
  have hcreated := h.create hle hf hf' hindex
  have hnew : ∀ x ∈ (p.create f fiber).threads, x.addr ≠ t := fun x hx =>
    Nat.ne_of_lt (Nat.lt_of_lt_of_le (h.threads_lt x hx) ht)
  have hpid : searchThread (ThreadArg.mk thrId (some f)).pid (p.create f fiber) = none := hthread
  exact hcreated.addThread hnew ht' hpid

theorem owned_convert {t f : ℕ} {thrId : Pid} {fiber : FiberArg} (h : Linked brk p)
    (ho : Owned p) (hf : brk ≤ f) (hrun : fiber.running = true) :
    Owned (p.convert thrId t f fiber) := by
  have hne : ∀ x ∈ p.threads, x.obj.activeFiber ≠ some f := by
    intro x hx heq
    obtain ⟨y, hy, hactive, _⟩ := ho.active x hx
    have := h.fibers_lt y hy
    rw [hactive, Option.some.injEq] at heq
    omega
  refine ⟨fun x hx => ?_, fun x hx x' hx' heq => ?_, fun x hx hxrun => ?_⟩
  · rcases mem_hashAdd.mp hx with rfl | hx
    · exact ⟨_, List.mem_cons_self, rfl, hrun⟩
    · obtain ⟨y, hy, hactive, hyrun⟩ := ho.active x hx
      exact ⟨y, List.mem_cons_of_mem _ hy, hactive, hyrun⟩
  · rcases mem_hashAdd.mp hx with rfl | hx <;> rcases mem_hashAdd.mp hx' with rfl | hx'
    · rfl
    · exact absurd heq.symm (hne x' hx')
    · exact absurd heq (hne x hx)
    · exact ho.exclusive x hx x' hx' heq
  · rcases mem_hashAdd.mp hx with rfl | hx
    · exact ⟨_, List.mem_cons_self, rfl⟩
    · obtain ⟨y, hy, hactive⟩ := ho.owner x hx hxrun
      exact ⟨y, List.mem_cons_of_mem _ hy, hactive⟩

theorem owned_create {f : ℕ} {fiber : FiberArg} (ho : Owned p) (hrun : fiber.running = false) :
    Owned (p.create f fiber) := by
  refine ⟨fun x hx => ?_, ho.exclusive, fun x hx hxrun => ?_⟩
  · obtain ⟨y, hy, hactive, hyrun⟩ := ho.active x hx
    exact ⟨y, List.mem_cons_of_mem _ hy, hactive, hyrun⟩
  · rcases mem_hashAdd.mp hx with rfl | hx
    · change fiber.running = true at hxrun
      rw [hrun] at hxrun
      cases hxrun
    · exact ho.owner x hx hxrun

/-! ## Records whose fibers are rewritten -/

/-- A rewriting of the fibers that keeps their indices. -/
theorem Linked.mapFibers (h : Linked brk p) {g : Entry FiberArg → FiberArg}
    (hindex : ∀ f ∈ p.fibers, (g f).index = f.obj.index) :
    Linked brk { p with fibers := p.fibers.mapObj g } where
  fibers_unique := h.fibers_unique.mapObj g
  threads_unique := h.threads_unique
  fibers_lt x hx := by
    obtain ⟨y, hy, rfl⟩ := mem_mapObj.mp hx
    exact h.fibers_lt y hy
  threads_lt := h.threads_lt
  fiber_bucket x hx := by
    obtain ⟨y, hy, rfl⟩ := mem_mapObj.mp hx
    change y.bucket = fiberBucket (g y).index
    rw [hindex y hy]
    exact h.fiber_bucket y hy
  thread_bucket := h.thread_bucket
  index_inj x hx x' hx' heq := by
    obtain ⟨y, hy, rfl⟩ := mem_mapObj.mp hx
    obtain ⟨y', hy', rfl⟩ := mem_mapObj.mp hx'
    change (g y).index = (g y').index at heq
    rw [hindex y hy, hindex y' hy'] at heq
    rw [h.index_inj y hy y' hy' heq]
  index_lt x hx := by
    obtain ⟨y, hy, rfl⟩ := mem_mapObj.mp hx
    change (g y).index < p.fiberId
    rw [hindex y hy]
    exact h.index_lt y hy
  pid_inj := h.pid_inj

/-- A rewriting of the threads that keeps their ids. -/
theorem Linked.mapThreads (h : Linked brk p) {g : Entry ThreadArg → ThreadArg}
    (hpid : ∀ t, (g t).pid = t.obj.pid) :
    Linked brk { p with threads := p.threads.mapObj g } where
  fibers_unique := h.fibers_unique
  threads_unique := h.threads_unique.mapObj g
  fibers_lt := h.fibers_lt
  threads_lt x hx := by
    obtain ⟨y, hy, rfl⟩ := mem_mapObj.mp hx
    exact h.threads_lt y hy
  fiber_bucket := h.fiber_bucket
  thread_bucket x hx := by
    obtain ⟨y, hy, rfl⟩ := mem_mapObj.mp hx
    change y.bucket = hash32 (g y).pid
    rw [hpid]
    exact h.thread_bucket y hy
  index_inj := h.index_inj
  index_lt := h.index_lt
  pid_inj x hx x' hx' heq := by
    obtain ⟨y, hy, rfl⟩ := mem_mapObj.mp hx
    obtain ⟨y', hy', rfl⟩ := mem_mapObj.mp hx'
    change (g y).pid = (g y').pid at heq
    rw [hpid, hpid] at heq
    rw [h.pid_inj y hy y' hy' heq]

/-- A rewriting of the fibers that keeps their flags. -/
theorem Owned.mapFibers (h : Owned p) {g : Entry FiberArg → FiberArg}
    (hrun : ∀ f ∈ p.fibers, (g f).running = f.obj.running) :
    Owned { p with fibers := p.fibers.mapObj g } where
  active t ht := by
    obtain ⟨f, hf, hactive, hfrun⟩ := h.active t ht
    refine ⟨_, mem_mapObj_of_mem g hf, hactive, ?_⟩
    change (g f).running = true
    rw [hrun f hf, hfrun]
  exclusive := h.exclusive
  owner x hx hxrun := by
    obtain ⟨y, hy, rfl⟩ := mem_mapObj.mp hx
    change (g y).running = true at hxrun
    rw [hrun y hy] at hxrun
    exact h.owner y hy hxrun

/-! ## Switches -/

/-- A fiber after a switch from the fiber `a` to the fiber `target`. -/
def switchedFiber (cur : Task) (env : Env) (a : ℕ) (old : FiberArg) (target : ℕ)
    (e : Entry FiberArg) : FiberArg :=
  let f := if e.addr = a then (e.obj.save cur.toContext).stop (env.clock 0) else e.obj
  if e.addr = target then f.start (old.startClock env) else f

/-- A thread after a switch of the thread `thread` to the fiber `target`. -/
def switchedThread (thread target : ℕ) (e : Entry ThreadArg) : ThreadArg :=
  if e.addr = thread then { e.obj with activeFiber := some target } else e.obj

/-- A switch is a rewriting of the fibers and the threads. -/
theorem switch_eq (thread a : ℕ) (old : FiberArg) (target : ℕ) :
    p.switch cur env thread a old target =
      { p with
        fibers := p.fibers.mapObj (switchedFiber cur env a old target)
        threads := p.threads.mapObj (switchedThread thread target) } := by
  have hfibers : (p.switch cur env thread a old target).fibers =
      p.fibers.mapObj (switchedFiber cur env a old target) := by
    unfold ProcessArg.switch
    simp only [modify_eq_mapObj, mapObj_mapObj]
    apply List.map_congr_left
    intro e _
    unfold switchedFiber
    by_cases ha : e.addr = a <;> simp only [ha, if_true, if_false]
  have hthreads : (p.switch cur env thread a old target).threads =
      p.threads.mapObj (switchedThread thread target) :=
    modify_eq_mapObj p.threads thread fun t => { t with activeFiber := some target }
  rw [← hfibers, ← hthreads]
  rfl

theorem stop_index (f : FiberArg) (now : Timespec) : (f.stop now).index = f.index := by
  unfold FiberArg.stop
  split <;> rfl

theorem stop_running (f : FiberArg) (now : Timespec) : (f.stop now).running = false := by
  unfold FiberArg.stop
  split <;> rfl

theorem switchedFiber_index (a : ℕ) (old : FiberArg) (target : ℕ) (e : Entry FiberArg) :
    (switchedFiber cur env a old target e).index = e.obj.index := by
  unfold switchedFiber
  dsimp only
  split <;> split <;> first | rfl | exact stop_index _ _

theorem switchedFiber_running (a : ℕ) (old : FiberArg) (target : ℕ) (e : Entry FiberArg) :
    (switchedFiber cur env a old target e).running =
      if e.addr = target then true else if e.addr = a then false else e.obj.running := by
  unfold switchedFiber
  dsimp only
  by_cases ht : e.addr = target
  · rw [if_pos ht, if_pos ht]
    rfl
  · rw [if_neg ht, if_neg ht]
    by_cases ha : e.addr = a
    · rw [if_pos ha, if_pos ha, stop_running]
    · rw [if_neg ha, if_neg ha]

theorem switchedThread_pid (thread target : ℕ) (e : Entry ThreadArg) :
    (switchedThread thread target e).pid = e.obj.pid := by
  unfold switchedThread
  split <;> rfl

theorem linked_switch (h : Linked brk p) (thread a : ℕ) (old : FiberArg) (target : ℕ) :
    Linked brk (p.switch cur env thread a old target) := by
  rw [switch_eq]
  have hfibers := h.mapFibers fun f _ => @switchedFiber_index cur env a old target f
  exact hfibers.mapThreads (switchedThread_pid thread target)

/-- A switch of the thread `th` to the fiber `fe`, which is not running, hands
the ownership over. -/
theorem owned_switch (hl : Linked brk p) (ho : Owned p) {th : Entry ThreadArg}
    {fe : Entry FiberArg} {a : ℕ} {old : FiberArg} (hth : th ∈ p.threads) (hfe : fe ∈ p.fibers)
    (hstill : fe.obj.running = false) (hactive : th.obj.activeFiber = some a) :
    Owned (p.switch cur env th.addr a old fe.addr) := by
  -- no thread is on the target, because it is not running
  have hfree : ∀ t ∈ p.threads, t.obj.activeFiber ≠ some fe.addr := by
    intro t ht heq
    obtain ⟨f, hf, hf', hrun⟩ := ho.active t ht
    rw [heq, Option.some.injEq] at hf'
    rw [← hl.fibers_unique.eq_of_addr hfe hf hf', hstill] at hrun
    cases hrun
  have hself : (switchedThread th.addr fe.addr th).activeFiber = some fe.addr := by
    rw [switchedThread, if_pos rfl]
  have hother : ∀ t ∈ p.threads, t ≠ th → switchedThread th.addr fe.addr t = t.obj := by
    intro t ht hne
    exact if_neg fun haddr => hne (hl.threads_unique.eq_of_addr ht hth haddr)
  rw [switch_eq]
  refine ⟨fun x hx => ?_, fun x hx x' hx' heq => ?_, fun x hx hrun => ?_⟩
  · obtain ⟨t, ht, rfl⟩ := mem_mapObj.mp hx
    by_cases htt : t = th
    · subst htt
      refine ⟨_, mem_mapObj_of_mem _ hfe, hself, ?_⟩
      exact (switchedFiber_running a old fe.addr fe).trans (if_pos rfl)
    · obtain ⟨f, hf, hf', hrun⟩ := ho.active t ht
      refine ⟨_, mem_mapObj_of_mem _ hf, ?_, ?_⟩
      · change (switchedThread th.addr fe.addr t).activeFiber = some f.addr
        rw [hother t ht htt, hf']
      · have hne : f.addr ≠ fe.addr := fun heq => hfree t ht (by rw [hf', heq])
        have hna : f.addr ≠ a := fun heq =>
          htt (ho.exclusive t ht th hth (by rw [hf', hactive, heq]))
        exact (switchedFiber_running a old fe.addr f).trans (by rw [if_neg hne, if_neg hna, hrun])
  · obtain ⟨t, ht, rfl⟩ := mem_mapObj.mp hx
    obtain ⟨t', ht', rfl⟩ := mem_mapObj.mp hx'
    change (switchedThread th.addr fe.addr t).activeFiber =
      (switchedThread th.addr fe.addr t').activeFiber at heq
    by_cases htt : t = th <;> by_cases htt' : t' = th
    · rw [htt, htt']
    · rw [htt, hself, hother t' ht' htt'] at heq
      exact absurd heq.symm (hfree t' ht')
    · rw [htt', hself, hother t ht htt] at heq
      exact absurd heq (hfree t ht)
    · rw [hother t ht htt, hother t' ht' htt'] at heq
      rw [ho.exclusive t ht t' ht' heq]
  · obtain ⟨f, hf, rfl⟩ := mem_mapObj.mp hx
    change (switchedFiber cur env a old fe.addr f).running = true at hrun
    rw [switchedFiber_running] at hrun
    by_cases hne : f.addr = fe.addr
    · exact ⟨_, mem_mapObj_of_mem _ hth, by rw [hne]; exact hself⟩
    · rw [if_neg hne] at hrun
      by_cases hna : f.addr = a
      · rw [if_pos hna] at hrun
        cases hrun
      · rw [if_neg hna] at hrun
        obtain ⟨t, ht, hf'⟩ := ho.owner f hf hrun
        refine ⟨_, mem_mapObj_of_mem _ ht, ?_⟩
        have htt : t ≠ th := by
          rintro rfl
          rw [hactive, Option.some.injEq] at hf'
          exact hna hf'.symm
        change (switchedThread th.addr fe.addr t).activeFiber = some f.addr
        rw [hother t ht htt, hf']

/-! ## Exits -/

theorem linked_exit (h : Linked brk p) (t f : ℕ) : Linked brk (p.exit t f) where
  fibers_unique := h.fibers_unique.hashDel f
  threads_unique := h.threads_unique.hashDel t
  fibers_lt x hx := h.fibers_lt x (mem_hashDel.mp hx).1
  threads_lt x hx := h.threads_lt x (mem_hashDel.mp hx).1
  fiber_bucket x hx := h.fiber_bucket x (mem_hashDel.mp hx).1
  thread_bucket x hx := h.thread_bucket x (mem_hashDel.mp hx).1
  index_inj x hx x' hx' := h.index_inj x (mem_hashDel.mp hx).1 x' (mem_hashDel.mp hx').1
  index_lt x hx := h.index_lt x (mem_hashDel.mp hx).1
  pid_inj x hx x' hx' := h.pid_inj x (mem_hashDel.mp hx).1 x' (mem_hashDel.mp hx').1

/-- The exit of a thread together with its active fiber. -/
theorem owned_exit (hl : Linked brk p) (ho : Owned p) {th : Entry ThreadArg} {a : ℕ}
    (hth : th ∈ p.threads) (hactive : th.obj.activeFiber = some a) :
    Owned (p.exit th.addr a) := by
  refine ⟨fun x hx => ?_, fun x hx x' hx' => ?_, fun x hx hrun => ?_⟩
  · obtain ⟨hx, hne⟩ := mem_hashDel.mp hx
    obtain ⟨f, hf, hf', hrun⟩ := ho.active x hx
    refine ⟨f, mem_hashDel.mpr ⟨hf, fun heq => hne ?_⟩, hf', hrun⟩
    rw [ho.exclusive x hx th hth (by rw [hf', hactive, heq])]
  · exact ho.exclusive x (mem_hashDel.mp hx).1 x' (mem_hashDel.mp hx').1
  · obtain ⟨hx, hne⟩ := mem_hashDel.mp hx
    obtain ⟨t, ht, hf'⟩ := ho.owner x hx hrun
    refine ⟨t, mem_hashDel.mpr ⟨ht, fun haddr => hne ?_⟩, hf'⟩
    rw [hl.threads_unique.eq_of_addr ht hth haddr, hactive, Option.some.injEq] at hf'
    exact hf'.symm

/-! ## FLS writes -/

/-- A write of a bit changes the bitmap or a register. -/
theorem setBit_eq_with (f : FiberArg) (i : ℕ) (b : Bool) :
    f.setBit i b = { f with
      flsBitmap := (f.setBit i b).flsBitmap
      regs := (f.setBit i b).regs } := by
  unfold FiberArg.setBit
  split
  · rfl
  · split <;> rfl

theorem of_clearBit {f f' : FiberArg} {i : ℤ} (h : clearBit f i = .ok f') :
    f' = f.setBit i.toNat false := by
  obtain ⟨_, _, hf⟩ := of_bind h
  cases hf
  rfl

/-- A write of local storage changes the bitmap, the registers behind it and the
slots only. -/
theorem FlsWrite.eq_with {old f : FiberArg} {arg : Word} {cmd : Command} {ret : ℤ}
    (h : FlsWrite old arg env cmd ret f) :
    f = { old with flsBitmap := f.flsBitmap, regs := f.regs, flsArray := f.flsArray } := by
  cases h with
  | alloc => rw [setBit_eq_with]
  | free _ _ hf =>
    rw [of_clearBit hf, setBit_eq_with]
  | set => rfl

theorem FlsWrite.index_eq {old f : FiberArg} {arg : Word} {cmd : Command} {ret : ℤ}
    (h : FlsWrite old arg env cmd ret f) : f.index = old.index := by
  rw [h.eq_with]

theorem FlsWrite.running_eq {old f : FiberArg} {arg : Word} {cmd : Command} {ret : ℤ}
    (h : FlsWrite old arg env cmd ret f) : f.running = old.running := by
  rw [h.eq_with]

/-! ## The invariant -/

/-- The invariant of the module. -/
structure KernelOk (k : Kernel) : Prop extends Tables k where
  linked : ∀ id p, k.record id = some p → Linked k.brk p
  owned : ∀ id p, k.record id = some p → Owned p

theorem kernelOk_init : KernelOk Kernel.init := by
  have hnone : ∀ id, Kernel.init.record id = none := fun _ => rfl
  refine ⟨⟨List.nodup_nil, ?_, ?_, ?_⟩, ?_, ?_⟩
  · intro e he
    cases he
  · intro e he
    cases he
  · intro e he
    cases he
  · intro id p hp
    rw [hnone] at hp
    cases hp
  · intro id p hp
    rw [hnone] at hp
    cases hp

/-- A write of one fiber that keeps its index and its flag. -/
theorem linked_owned_modify (hl : Linked brk p) (ho : Owned p) (a : ℕ) (f : FiberArg → FiberArg)
    (h : ∀ e ∈ p.fibers, e.addr = a →
      (f e.obj).index = e.obj.index ∧ (f e.obj).running = e.obj.running) :
    Linked brk { p with fibers := p.fibers.modify a f } ∧
      Owned { p with fibers := p.fibers.modify a f } := by
  rw [modify_eq_mapObj]
  constructor
  · apply hl.mapFibers
    intro e he
    split
    · rename_i ha
      exact (h e he ha).1
    · rfl
  · apply ho.mapFibers
    intro e he
    split
    · rename_i ha
      exact (h e he ha).2
    · rfl

theorem linked_owned_change {k : Kernel} {arg : Word} {r : Reply} {cmd : Command}
    {o o' : Option ProcessArg} (hc : Change k cur arg env r cmd o o') (hle : k.brk ≤ r.kernel.brk)
    (hl : ∀ p, o = some p → Linked k.brk p) (ho : ∀ p, o = some p → Owned p) :
    ∀ p, o' = some p → Linked r.kernel.brk p ∧ Owned p := by
  intro p' hp'
  cases hc with
  | idle => exact ⟨(hl p' hp').mono hle, ho p' hp'⟩
  | opened =>
    cases hp'
    exact ⟨linked_newProcess _ _, owned_newProcess _⟩
  | @converted o p t f hsource hthread ht ht' hf hf' =>
    cases hp'
    have hp : Linked k.brk p ∧ Owned p := by
      rcases hsource with heq | ⟨_, rfl⟩
      · exact ⟨hl p heq, ho p heq⟩
      · exact ⟨linked_newProcess _ _, owned_newProcess _⟩
    exact ⟨linked_convert hp.1 hthread hle ht ht' hf hf' rfl, owned_convert hp.1 hp.2 hf rfl⟩
  | created _ hf hf' =>
    cases hp'
    exact ⟨(hl _ rfl).create hle hf hf' rfl, owned_create (ho _ rfl) rfl⟩
  | @failed p fiber =>
    cases hp'
    have hm := linked_owned_modify (hl p rfl) (ho p rfl) fiber.addr FiberArg.fail
      fun e _ _ => ⟨rfl, rfl⟩
    exact ⟨hm.1.mono hle, hm.2⟩
  | switched hfiber hstill hthread hactive =>
    cases hp'
    have hth := (of_searchThread hthread).1
    have hfe := (of_searchFiber hfiber).1
    exact ⟨(linked_switch (hl _ rfl) _ _ _ _).mono hle,
      owned_switch (hl _ rfl) (ho _ rfl) hth hfe hstill hactive⟩
  | @stored cmd p thread a old f hthread hactive hold hw =>
    cases hp'
    have hkeep : ∀ e ∈ p.fibers, e.addr = a →
        f.index = e.obj.index ∧ f.running = e.obj.running := by
      intro e he ha
      rw [(hl p rfl).fibers_unique.obj_of_deref hold he ha]
      exact ⟨hw.index_eq, hw.running_eq⟩
    have hm := linked_owned_modify (hl p rfl) (ho p rfl) a (fun _ => f) hkeep
    exact ⟨hm.1.mono hle, hm.2⟩

theorem kernelOk_request {k : Kernel} {cmd : Command} {arg : Word} {r : Reply} (h : KernelOk k)
    (hr : myIoctl k cur cmd arg env = .ok r) : KernelOk r.kernel := by
  have hq := requested h.toTables hr
  have hrecord : ∀ id p, r.kernel.record id = some p → Linked r.kernel.brk p ∧ Owned p := by
    intro id p hp
    by_cases hid : id = cur.tgid
    · subst hid
      exact linked_owned_change hq.change hq.brk_le (h.linked _) (h.owned _) p hp
    · rw [hq.others id hid] at hp
      exact ⟨(h.linked id p hp).mono hq.brk_le, h.owned id p hp⟩
  exact ⟨hq.tables, fun id p hp => (hrecord id p hp).1, fun id p hp => (hrecord id p hp).2⟩

/-- How a request changes the record of the caller's process. -/
theorem change_of_request {s : System} {id pid : Pid} {cmd : Command} {arg : Word} {r : Reply}
    {o : Option ProcessArg} (hok : KernelOk s.kernel)
    (hr : s.request id pid cmd arg env = .ok r) (ho : r.kernel.record id = o) :
    Change s.kernel (s.task id pid) arg env r cmd (s.kernel.record id) o :=
  ho ▸ (requested hok.toTables hr).change

/-- A request leaves the records of the other processes. -/
theorem record_of_request {s : System} {id pid tgid : Pid} {cmd : Command} {arg : Word}
    {r : Reply} (hok : KernelOk s.kernel) (hr : s.request id pid cmd arg env = .ok r)
    (hid : tgid ≠ id) : r.kernel.record tgid = s.kernel.record tgid :=
  (requested hok.toTables hr).others tgid hid

theorem kernelOk_exit {k k' : Kernel} {proId thrId : Pid} (h : KernelOk k)
    (hx : preHandler k proId thrId = .ok k') : KernelOk k' := by
  have he := exited h.toTables hx
  have hrecord : ∀ id p, k'.record id = some p → Linked k'.brk p ∧ Owned p := by
    intro id p hp
    rw [he.brk_eq]
    by_cases hid : id = proId
    · subst hid
      rcases he.change with ⟨rfl, _⟩ | ⟨e, th, a, old, hfound, hthread, hactive, _, hrem⟩
      · exact ⟨h.linked id p hp, h.owned id p hp⟩
      · obtain ⟨hmem, rfl⟩ := of_searchProcess hfound
        have hrec := record_of_mem h.toTables hmem
        rw [hrem.record] at hp
        split at hp
        · cases hp
        · cases hp
          have hth := (of_searchThread hthread).1
          exact ⟨linked_exit (h.linked _ _ hrec) _ _,
            owned_exit (h.linked _ _ hrec) (h.owned _ _ hrec) hth hactive⟩
    · rw [he.others id hid] at hp
      exact ⟨h.linked id p hp, h.owned id p hp⟩
  exact ⟨he.tables, fun id p hp => (hrecord id p hp).1, fun id p hp => (hrecord id p hp).2⟩

theorem kernelOk_step {s t : System} {a : Action} (h : KernelOk s.kernel) (hs : Step s a t) :
    KernelOk t.kernel :=
  kernel_step (fun _ _ _ _ _ _ h hr => kernelOk_request h hr)
    (fun _ _ _ _ h hx => kernelOk_exit h hx) h hs

/-- No step takes back the number of an object. -/
theorem brk_le_step {s t : System} {m : Action} (hok : KernelOk s.kernel) (h : Step s m t) :
    s.kernel.brk ≤ t.kernel.brk := by
  cases m with
  | user =>
    cases h
    exact Nat.le_refl _
  | ioctl id pid cmd arg env =>
    obtain ⟨r, hr, rfl⟩ := step_ioctl h
    exact (requested hok.toTables hr).brk_le
  | exit id pid =>
    obtain ⟨k', hk, rfl⟩ := step_exit h
    exact Nat.le_of_eq (exited hok.toTables hk).brk_eq.symm

theorem kernelOk_run {context : Pid × Pid → Context} {as : List Action} {s : System}
    (h : Run Step (System.init context) as s) : KernelOk s.kernel :=
  h.invariant (I := fun s => KernelOk s.kernel) (fun _ _ _ hs ha => kernelOk_step hs ha)
    kernelOk_init

/-! ## Requests return -/

/-- The active fiber of a converted thread can be used. -/
theorem derefFiber_active (hl : Linked brk p) (ho : Owned p) {id : Pid} {th : Entry ThreadArg}
    (h : searchThread id p = some th) :
    ∃ f ∈ p.fibers, th.obj.activeFiber = some f.addr ∧ f.obj.running = true ∧
      derefFiber p.fibers th.obj.activeFiber = .ok (f.addr, f.obj) := by
  obtain ⟨f, hf, hactive, hrun, hderef⟩ := active_of_mem hl ho (of_searchThread h).1
  refine ⟨f, hf, hactive, hrun, ?_⟩
  rw [hactive]
  simp only [derefFiber, hderef]

theorem switchToFiber_returns {k : Kernel} (h : KernelOk k) (cur : Task) (arg : Word)
    (env : Env) : ∃ r, switchToFiber k cur arg env = .ok r := by
  unfold switchToFiber
  split
  · exact ⟨_, rfl⟩
  · rename_i e he
    obtain ⟨hmem, _⟩ := of_searchProcess he
    have hrec := record_of_mem h.toTables hmem
    dsimp only
    split
    · exact ⟨_, rfl⟩
    · rename_i fe hfe
      split
      · exact ⟨_, rfl⟩
      · split
        · exact ⟨_, rfl⟩
        · rename_i th hth
          have hl := h.linked _ _ hrec
          obtain ⟨f, hf, _, _, hderef⟩ := derefFiber_active hl (h.owned _ _ hrec) hth
          -- the target is still linked after the save
          have hfe := (of_searchFiber hfe).1
          have hsaved : ∃ next, derefFiber (e.obj.fibers.modify f.addr fun g =>
              g.save cur.toContext) (some fe.addr) = .ok (fe.addr, next) := by
            rw [modify_eq_mapObj]
            have hmem' := mem_mapObj_of_mem (fun x : Entry FiberArg =>
              if x.addr = f.addr then x.obj.save cur.toContext else x.obj) hfe
            have hlinked := deref_of_mem (hl.fibers_unique.mapObj _) hmem'
            simp only [derefFiber, hlinked]
            exact ⟨_, rfl⟩
          obtain ⟨next, hnext⟩ := hsaved
          simp only [hderef, hnext, bind, Except.bind, pure, Except.pure]
          exact ⟨_, rfl⟩

theorem convertToFiber_returns (k : Kernel) (cur : Task) {env : Env}
    (halloc : ∀ kind, env.kzalloc kind = true) : ∃ r, convertToFiber k cur env = .ok r := by
  unfold convertToFiber
  simp only [halloc, kzalloc, if_true]
  split
  · exact ⟨_, rfl⟩
  · split <;> exact ⟨_, rfl⟩

theorem createFiber_returns (k : Kernel) (cur : Task) {env : Env}
    (halloc : ∀ kind, env.kzalloc kind = true) : ∃ r, createFiber k cur env = .ok r := by
  unfold createFiber
  simp only [halloc, kzalloc, if_true]
  split
  · exact ⟨_, rfl⟩
  · split
    · exact ⟨_, rfl⟩
    · split <;> exact ⟨_, rfl⟩

theorem preHandler_returns {k : Kernel} (h : KernelOk k) (proId thrId : Pid) :
    ∃ k', preHandler k proId thrId = .ok k' := by
  unfold preHandler
  split
  · exact ⟨_, rfl⟩
  · rename_i e he
    obtain ⟨hmem, _⟩ := of_searchProcess he
    have hrec := record_of_mem h.toTables hmem
    split
    · exact ⟨_, rfl⟩
    · rename_i th hth
      obtain ⟨f, _, _, _, hderef⟩ :=
        derefFiber_active (h.linked _ _ hrec) (h.owned _ _ hrec) hth
      simp only [hderef, bind, Except.bind, pure, Except.pure]
      split <;> exact ⟨_, rfl⟩

/-- A request on fibers whose allocations succeed returns, and so does an
exit. -/
theorem step_returns {s : System} (h : KernelOk s.kernel) {a : Action} (ha : a.onFibers)
    (halloc : a.allocates) : ∃ t, Step s a t := by
  cases a with
  | user tgid pid c => exact ⟨_, rfl⟩
  | ioctl tgid pid cmd arg env =>
    have hr : ∃ r, s.request tgid pid cmd arg env = .ok r := by
      rcases ha with rfl | rfl | rfl
      · exact convertToFiber_returns _ _ halloc
      · exact createFiber_returns _ _ halloc
      · exact switchToFiber_returns h _ _ _
    obtain ⟨r, hr⟩ := hr
    exact ⟨s.resume tgid pid r, by simp only [Step, System.exec, hr]; rfl⟩
  | exit tgid pid =>
    obtain ⟨k, hk⟩ := preHandler_returns h tgid pid
    exact ⟨{ s with kernel := k }, by simp only [Step, System.exec, hk]; rfl⟩

/-! ## Exclusive ownership -/

/-- A record in which every converted thread owns its active fiber alone. -/
structure Exclusive (p : ProcessArg) : Prop where
  active_running : ∀ t ∈ p.threads, ∃ f ∈ p.fibers,
    t.obj.activeFiber = some f.addr ∧ f.obj.running = true
  active_distinct : ∀ t ∈ p.threads, ∀ t' ∈ p.threads, t ≠ t' →
    t.obj.activeFiber ≠ t'.obj.activeFiber
  running_active : ∀ f ∈ p.fibers, f.obj.running = true →
    ∃! t, t ∈ p.threads ∧ t.obj.activeFiber = some f.addr
  pids_nodup : (p.threads.map fun t => t.obj.pid).Nodup
  indices_nodup : (p.fibers.map fun f => f.obj.index).Nodup
  indices_lt : ∀ f ∈ p.fibers, f.obj.index < p.fiberId

theorem exclusive_of_owned (hl : Linked brk p) (ho : Owned p) : Exclusive p where
  active_running := ho.active
  active_distinct t ht t' ht' hne heq := hne (ho.exclusive t ht t' ht' heq)
  running_active f hf hrun := by
    obtain ⟨t, ht, hactive⟩ := ho.owner f hf hrun
    refine ⟨t, ⟨ht, hactive⟩, ?_⟩
    rintro t' ⟨ht', hactive'⟩
    exact ho.exclusive t' ht' t ht (hactive'.trans hactive.symm)
  pids_nodup := List.Nodup.map_on hl.pid_inj hl.threads_unique.nodup
  indices_nodup := List.Nodup.map_on hl.index_inj hl.fibers_unique.nodup
  indices_lt := hl.index_lt

/-- In every reachable state every process record is `Exclusive`, and every
further request on fibers whose allocations succeed, and every exit, returns. -/
theorem fibers_exclusive {context : Pid × Pid → Context} {as : List Action} {s : System}
    (h : Run Step (System.init context) as s) :
    (∀ e ∈ s.kernel.listProcess, Exclusive e.obj) ∧
      ∀ a : Action, a.onFibers → a.allocates → ∃ t, Step s a t := by
  have hok := kernelOk_run h
  refine ⟨fun e he => ?_, fun a ha halloc => step_returns hok ha halloc⟩
  have hrec := record_of_mem hok.toTables he
  exact exclusive_of_owned (hok.linked _ _ hrec) (hok.owned _ _ hrec)

/-- `fibers_exclusive` after two conversions, a creation, a switch and an
exit. -/
theorem fibers_exclusive_after_exit :
    ∃ s : System,
      (∃ e ∈ s.kernel.listProcess, e.obj.threads.length = 1 ∧ e.obj.fibers.length = 2) ∧
      (∀ e ∈ s.kernel.listProcess, Exclusive e.obj) ∧
        ∀ a : Action, a.onFibers → a.allocates → ∃ t, Step s a t := by
  obtain ⟨s, hrun, hp⟩ := exists_run (System.init zeroContext)
    [.ioctl 7 7 .convertToFiber 0 Env.plain, .ioctl 7 8 .convertToFiber 0 Env.plain,
      .ioctl 7 7 .createFiber 0 Env.plain, .ioctl 7 7 .switchToFiber 2 Env.plain, .exit 7 8]
    (fun s => s.kernel.listProcess.any fun e =>
      e.obj.threads.length == 1 && e.obj.fibers.length == 2) (by decide +kernel)
  obtain ⟨e, he, hp⟩ := List.any_eq_true.mp hp
  obtain ⟨ht, hf⟩ := Bool.and_eq_true_iff.mp hp
  exact ⟨s, ⟨e, he, by simpa using ht, by simpa using hf⟩, fibers_exclusive hrun⟩

end LinuxFibers.Module
