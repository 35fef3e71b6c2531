import LinuxFibers.Module.Ownership

/-!
# A process of the module without addresses

`Process` is what the module keeps for one process, as its threads can know it:
the next index, the fibers by their indices, and the index of the active fiber of
each converted thread.  There are no addresses, no buckets and no other
processes.  `Process.request` and `Process.exit` say what the requests do to it.

One trace of the hash tables is left.  A fiber is linked by its index as an
`unsigned long` and looked up by it as an `int`, so a switch reaches only the
fibers for which the two buckets agree (`Process.find`).

`ProcessArg.toProcess` is the process behind a record.  The lemmas below say what
each write of a record is for the process.
-/

namespace LinuxFibers.Module

open LinuxFibers.Lib HashTable

/-- The fibers and the converted threads of a process. -/
structure Process where
  next : ℕ
  fiber : ℕ → Option FiberArg
  active : Pid → Option ℕ

/-- What the caller of a request gets. -/
structure Answer where
  ret : ℤ
  context : Context
  copied : Option FlsArg

/-- The answer of a request that leaves the context of the task alone. -/
def answer (cur : Task) (o : Option Process) (ret : ℤ) :
    Except Fault (Answer × Option Process) :=
  .ok (⟨ret, cur.toContext, none⟩, o)

namespace Process

/-- A process without threads and fibers. -/
def empty : Process := ⟨0, fun _ => none, fun _ => none⟩

/-- A new fiber, with the next index. -/
def create (P : Process) (f : FiberArg) : Process :=
  { P with next := P.next + 1, fiber := Function.update P.fiber P.next (some f) }

/-- A new thread on a new fiber. -/
def convert (P : Process) (pid : Pid) (f : FiberArg) : Process :=
  { P.create f with active := Function.update P.active pid (some P.next) }

/-- A fiber is written. -/
def store (P : Process) (i : ℕ) (f : FiberArg) : Process :=
  { P with fiber := Function.update P.fiber i (some f) }

/-- A thread leaves the fiber `i` as `old` and enters the fiber `j` as `next`. -/
def switch (P : Process) (pid : Pid) (i j : ℕ) (old next : FiberArg) : Process :=
  { (P.store i old).store j next with active := Function.update P.active pid (some j) }

/-- A thread ends, and its active fiber with it. -/
def exit (P : Process) (pid : Pid) : Process :=
  match P.active pid with
  | none => P
  | some i =>
      { P with
        fiber := Function.update P.fiber i none
        active := Function.update P.active pid none }

/-- The fiber that a switch looks up: the buckets of its index as an
`unsigned long` and of the argument as an `int` have to be the same. -/
def find (P : Process) (arg : Word) : Option FiberArg :=
  let index : BitVec 32 := arg.setWidth 32
  (P.fiber (intToUlong index)).filter fun f => fiberBucket f.index == hash32 index

/-! ## The requests -/

/-- `CONVERTTOFIBER`. -/
def convertToFiber (o : Option Process) (cur : Task) (env : Env) :
    Except Fault (Answer × Option Process) :=
  if o = none ∧ env.kzalloc .processArg = false then answer cur none (-enomem)
  else
    let P := o.getD empty
    if (P.active cur.pid).isSome then answer cur (some P) (-1)
    else if !env.kzalloc .threadArg then answer cur (some P) (-enomem)
    else if !env.kzalloc .fiberArg then .error .nullPointer
    else answer cur (some (P.convert cur.pid (convertedFiber cur env P.next))) P.next

/-- `CREATEFIBER`. -/
def createFiber (o : Option Process) (cur : Task) (env : Env) :
    Except Fault (Answer × Option Process) :=
  if !env.kzalloc .createArg then .error .nullPointer
  else if !env.copyFromUser then answer cur o (-1)
  else match o with
  | none => answer cur none (-1)
  | some P =>
      if (P.active cur.pid).isNone then answer cur (some P) (-1)
      else if !env.kzalloc .fiberArg then .error .nullPointer
      else answer cur (some (P.create (createdFiber cur env.createArg P.next))) P.next

/-- The active fiber of the caller, for a request that answers `ret` to a process
without a record and `ret'` to a thread that was not converted. -/
def onActive (o : Option Process) (cur : Task) (ret ret' : ℤ)
    (request : Process → ℕ → FiberArg → Except Fault (Answer × Option Process)) :
    Except Fault (Answer × Option Process) :=
  match o with
  | none => answer cur none ret
  | some P =>
      match P.active cur.pid with
      | none => answer cur (some P) ret'
      | some i =>
          match P.fiber i with
          | none => .error .nullPointer
          | some f => request P i f

/-- `SWITCHTOFIBER`. -/
def switchToFiber (o : Option Process) (cur : Task) (arg : Word) (env : Env) :
    Except Fault (Answer × Option Process) :=
  match o with
  | none => answer cur none (-1)
  | some P =>
      match P.find arg with
      | none => answer cur (some P) (-1)
      | some target =>
          if target.running then answer cur (some (P.store target.index target.fail)) (-1)
          else onActive (some P) cur (-1) (-1) fun P i old =>
            let P := P.switch cur.pid i target.index ((old.save cur.toContext).stop (env.clock 0))
              (target.start (old.startClock env))
            .ok (⟨0, ⟨target.regs, target.fpuReg⟩, none⟩, some P)

/-- `FLSALLOC`. -/
def flsAlloc (o : Option Process) (cur : Task) : Except Fault (Answer × Option Process) :=
  onActive o cur (-1) (-1) fun P i f => do
    let index ← findFirstZeroBit f
    if index = maxFls then answer cur (some P) (-1)
    else
      let f := f.setBit index true
      let f := { f with flsArray := Function.update f.flsArray index 0 }
      answer cur (some (P.store i f)) index

/-- `FLSFREE`. -/
def flsFree (o : Option Process) (cur : Task) (arg : Word) :
    Except Fault (Answer × Option Process) :=
  onActive o cur 0 0 fun P i f =>
    if 0 < arg.toInt ∧ arg.toInt < maxFls then do
      let f ← clearBit f arg.toInt
      answer cur (some (P.store i f)) 1
    else answer cur (some P) 0

/-- `FLSGETVALUE`. -/
def flsGetValue (o : Option Process) (cur : Task) (env : Env) :
    Except Fault (Answer × Option Process) :=
  if !env.kzalloc .flsArg then answer cur o (-enomem)
  else if !env.copyFromUser then answer cur o (-1)
  else onActive o cur (-1) (-1) fun P _ f => do
    let index := env.flsArg.dwFlsIndex
    if ← testBit f index.toInt then
      if !env.copyToUser then answer cur (some P) (-1)
      else return (⟨1, cur.toContext, some ⟨index, f.flsArray index.toNat⟩⟩, some P)
    else answer cur (some P) (-1)

/-- `FLSSETVALUE`. -/
def flsSetValue (o : Option Process) (cur : Task) (env : Env) :
    Except Fault (Answer × Option Process) :=
  if !env.kzalloc .flsArg then answer cur o (-enomem)
  else if !env.copyFromUser then answer cur o (-1)
  else onActive o cur (-1) 0 fun P i f => do
    let index := env.flsArg.dwFlsIndex
    if ← testBit f index.toInt then
      let values := Function.update f.flsArray index.toNat env.flsArg.lpFlsData
      answer cur (some (P.store i { f with flsArray := values })) 0
    else answer cur (some P) 0

/-- `my_ioctl`, for the process of the caller. -/
def request (o : Option Process) (cur : Task) (cmd : Command) (arg : Word) (env : Env) :
    Except Fault (Answer × Option Process) :=
  match cmd with
  | .convertToFiber => convertToFiber o cur env
  | .createFiber => createFiber o cur env
  | .switchToFiber => switchToFiber o cur arg env
  | .flsAlloc => flsAlloc o cur
  | .flsFree => flsFree o cur arg
  | .flsGetValue => flsGetValue o cur env
  | .flsSetValue => flsSetValue o cur env
  | .other => answer cur o 0

end Process

/-! ## The process behind a record -/

/-- The process that a record stands for. -/
def ProcessArg.toProcess (p : ProcessArg) : Process where
  next := p.fiberId
  fiber i := (p.fibers.find? fun e => e.obj.index == i).map Entry.obj
  active pid := (searchThread pid p).bind fun t =>
    t.obj.activeFiber.bind fun a => (p.fibers.deref a).map FiberArg.index

variable {brk : ℕ} {p : ProcessArg} {pid : Pid} {i : ℕ} {f : FiberArg} {t : Entry ThreadArg}
  {e : Entry FiberArg}

/-- The fibers of the process are the linked ones. -/
theorem fiber_eq_some (hl : Linked brk p) :
    p.toProcess.fiber i = some f ↔ ∃ e ∈ p.fibers, e.obj = f ∧ f.index = i := by
  unfold ProcessArg.toProcess
  rw [Option.map_eq_some_iff]
  constructor
  · rintro ⟨e, he, rfl⟩
    have hi := List.find?_some he
    rw [beq_iff_eq] at hi
    exact ⟨e, List.mem_of_find?_eq_some he, rfl, hi⟩
  · rintro ⟨e, he, rfl, hi⟩
    have hsome : (p.fibers.find? fun x => x.obj.index == i).isSome := by
      rw [List.find?_isSome]
      exact ⟨e, he, beq_iff_eq.mpr hi⟩
    obtain ⟨x, hx⟩ := Option.isSome_iff_exists.mp hsome
    have hxi := List.find?_some hx
    rw [beq_iff_eq, ← hi] at hxi
    rw [hl.index_inj x (List.mem_of_find?_eq_some hx) e he hxi] at hx
    exact ⟨e, hx, rfl⟩

theorem fiber_of_mem (hl : Linked brk p) (he : e ∈ p.fibers) :
    p.toProcess.fiber e.obj.index = some e.obj :=
  (fiber_eq_some hl).mpr ⟨e, he, rfl, rfl⟩

/-- The active fibers of the process are those of the linked threads. -/
theorem active_eq_some (hl : Linked brk p) :
    p.toProcess.active pid = some i ↔ ∃ t ∈ p.threads, ∃ e ∈ p.fibers,
      t.obj.pid = pid ∧ t.obj.activeFiber = some e.addr ∧ e.obj.index = i := by
  simp only [ProcessArg.toProcess, Option.bind_eq_some_iff, Option.map_eq_some_iff]
  constructor
  · rintro ⟨t, ht, a, ha, f, hf, rfl⟩
    obtain ⟨hmem, hpid⟩ := of_searchThread ht
    obtain ⟨e, he, rfl, rfl⟩ := mem_of_deref hf
    exact ⟨t, hmem, e, he, hpid, ha, rfl⟩
  · rintro ⟨t, ht, e, he, rfl, ha, rfl⟩
    exact ⟨t, searchThread_of_mem hl ht, e.addr, ha, e.obj, deref_of_mem hl.fibers_unique he, rfl⟩

/-- Two processes with the same fibers and the same active fibers. -/
theorem process_eq {P Q : Process} (hnext : P.next = Q.next)
    (hfiber : ∀ i f, P.fiber i = some f ↔ Q.fiber i = some f)
    (hactive : ∀ pid i, P.active pid = some i ↔ Q.active pid = some i) : P = Q := by
  obtain ⟨n, x, y⟩ := P
  obtain ⟨n', x', y'⟩ := Q
  obtain rfl : n = n' := hnext
  have hx : x = x' := funext fun i => Option.ext (hfiber i)
  have hy : y = y' := funext fun pid => Option.ext (hactive pid)
  rw [hx, hy]

theorem update_eq_some {α β : Type} [DecidableEq α] {g : α → Option β} {a x : α} {b y : β} :
    Function.update g a (some b) x = some y ↔ x = a ∧ b = y ∨ x ≠ a ∧ g x = some y := by
  by_cases h : x = a
  · subst h
    rw [Function.update_self, Option.some.injEq]
    simp
  · rw [Function.update_of_ne h]
    simp [h]

theorem update_none_eq_some {α β : Type} [DecidableEq α] {g : α → Option β} {a x : α} {y : β} :
    Function.update g a none x = some y ↔ x ≠ a ∧ g x = some y := by
  by_cases h : x = a
  · subst h
    rw [Function.update_self]
    simp
  · rw [Function.update_of_ne h]
    simp [h]

/-! ## The writes of a record -/

/-- No thread is on a fiber that is not linked yet. -/
theorem activeFiber_ne_fresh {a : ℕ} (hl : Linked brk p) (ho : Owned p) (ha : brk ≤ a)
    (ht : t ∈ p.threads) : t.obj.activeFiber ≠ some a := by
  intro heq
  obtain ⟨e, he, hactive, _⟩ := ho.active t ht
  rw [heq, Option.some.injEq] at hactive
  exact Nat.not_lt.mpr ha (hactive ▸ hl.fibers_lt e he)

/-- The fibers of a record with one more. -/
theorem fiber_create {a : ℕ} (hl : Linked brk p) (ha : brk ≤ a) (hi : f.index = p.fiberId) :
    (p.create a f).toProcess.fiber =
      Function.update p.toProcess.fiber p.fiberId (some f) := by
  have hl' : Linked (a + 1) (p.create a f) :=
    hl.create (Nat.le_succ_of_le ha) ha (Nat.lt_succ_self a) hi
  funext i
  apply Option.ext
  intro x
  rw [fiber_eq_some hl', update_eq_some, fiber_eq_some hl]
  constructor
  · rintro ⟨e, he, rfl, rfl⟩
    rcases mem_hashAdd.mp he with rfl | he
    · exact Or.inl ⟨hi, rfl⟩
    · exact Or.inr ⟨Nat.ne_of_lt (hl.index_lt e he), e, he, rfl, rfl⟩
  · rintro (⟨rfl, rfl⟩ | ⟨_, e, he, rfl, rfl⟩)
    · exact ⟨_, List.mem_cons_self, rfl, hi⟩
    · exact ⟨e, List.mem_cons_of_mem _ he, rfl, rfl⟩

theorem toProcess_create {a : ℕ} (hl : Linked brk p) (ho : Owned p) (ha : brk ≤ a)
    (hi : f.index = p.fiberId) : (p.create a f).toProcess = p.toProcess.create f := by
  have hl' : Linked (a + 1) (p.create a f) :=
    hl.create (Nat.le_succ_of_le ha) ha (Nat.lt_succ_self a) hi
  refine process_eq rfl (fun i x => ?_) (fun pid i => ?_)
  · rw [fiber_create hl ha hi]
    exact Iff.rfl
  · show _ ↔ p.toProcess.active pid = some i
    rw [active_eq_some hl', active_eq_some hl]
    constructor
    · rintro ⟨t, ht, e, he, hpid, hactive, rfl⟩
      rcases mem_hashAdd.mp he with rfl | he
      · exact absurd hactive (activeFiber_ne_fresh hl ho ha ht)
      · exact ⟨t, ht, e, he, hpid, hactive, rfl⟩
    · rintro ⟨t, ht, e, he, hpid, hactive, rfl⟩
      exact ⟨t, ht, e, List.mem_cons_of_mem _ he, hpid, hactive, rfl⟩

theorem toProcess_convert {a b : ℕ} (hl : Linked brk p) (ho : Owned p)
    (hthread : searchThread pid p = none) (hb : brk ≤ b) (ha : brk ≤ a)
    (hi : f.index = p.fiberId) : (p.convert pid b a f).toProcess = p.toProcess.convert pid f := by
  have hl' : Linked (a + b + 1) (p.convert pid b a f) :=
    linked_convert hl hthread (by omega) hb (by omega) ha (by omega) hi
  refine process_eq rfl (fun i x => ?_) (fun thr i => ?_)
  · show (p.create a f).toProcess.fiber i = some x ↔ _
    rw [fiber_create hl ha hi]
    exact Iff.rfl
  · show _ ↔ Function.update p.toProcess.active pid (some p.fiberId) thr = some i
    rw [active_eq_some hl', update_eq_some, active_eq_some hl]
    constructor
    · rintro ⟨t, ht, e, he, rfl, hactive, rfl⟩
      rcases mem_hashAdd.mp ht with rfl | ht
      · rcases mem_hashAdd.mp he with rfl | he
        · exact Or.inl ⟨rfl, hi.symm⟩
        · have haddr : a = e.addr := Option.some.inj hactive
          exact absurd (hl.fibers_lt e he) (by omega)
      · rcases mem_hashAdd.mp he with rfl | he
        · exact absurd hactive (activeFiber_ne_fresh hl ho ha ht)
        · exact Or.inr ⟨ne_of_searchThread_none hl hthread ht, t, ht, e, he, rfl, hactive, rfl⟩
    · rintro (⟨rfl, rfl⟩ | ⟨_, t, ht, e, he, rfl, hactive, rfl⟩)
      · exact ⟨_, List.mem_cons_self, _, List.mem_cons_self, rfl, rfl, hi⟩
      · exact ⟨t, List.mem_cons_of_mem _ ht, e, List.mem_cons_of_mem _ he, rfl, hactive, rfl⟩

/-- The record after the write of a fiber is well formed. -/
theorem linked_modify (hl : Linked brk p) (he : e ∈ p.fibers) {g : FiberArg → FiberArg}
    (hg : (g e.obj).index = e.obj.index) :
    Linked brk { p with fibers := p.fibers.modify e.addr g } := by
  rw [modify_eq_mapObj]
  apply hl.mapFibers
  intro x hx
  split
  · rename_i ha
    rw [hl.fibers_unique.eq_of_addr hx he ha, hg]
  · rfl

/-- A write of one fiber that keeps its index. -/
theorem toProcess_modify (hl : Linked brk p) (he : e ∈ p.fibers) {g : FiberArg → FiberArg}
    (hg : (g e.obj).index = e.obj.index) :
    { p with fibers := p.fibers.modify e.addr g }.toProcess =
      p.toProcess.store e.obj.index (g e.obj) := by
  have hl' := linked_modify hl he hg
  refine process_eq rfl (fun i x => ?_) (fun pid i => ?_)
  · show _ ↔ Function.update p.toProcess.fiber e.obj.index (some (g e.obj)) i = some x
    rw [fiber_eq_some hl', update_eq_some, fiber_eq_some hl]
    constructor
    · rintro ⟨y, hy, rfl, rfl⟩
      rcases mem_modify_of_mem hl.fibers_unique he hy with rfl | ⟨hy, hne⟩
      · exact Or.inl ⟨hg, rfl⟩
      · exact Or.inr ⟨fun heq => hne (congrArg Entry.addr (hl.index_inj y hy e he heq)),
          y, hy, rfl, rfl⟩
    · rintro (⟨rfl, rfl⟩ | ⟨hne, y, hy, rfl, rfl⟩)
      · exact ⟨_, mem_modify_self he, rfl, hg⟩
      · refine ⟨y, mem_modify_of_ne hy fun ha => hne ?_, rfl, rfl⟩
        rw [hl.fibers_unique.eq_of_addr hy he ha]
  · show _ ↔ p.toProcess.active pid = some i
    rw [active_eq_some hl', active_eq_some hl]
    constructor
    · rintro ⟨t, ht, y, hy, hpid, hactive, rfl⟩
      rcases mem_modify_of_mem hl.fibers_unique he hy with rfl | ⟨hy, _⟩
      · exact ⟨t, ht, e, he, hpid, hactive, hg.symm⟩
      · exact ⟨t, ht, y, hy, hpid, hactive, rfl⟩
    · rintro ⟨t, ht, y, hy, hpid, hactive, rfl⟩
      by_cases ha : y.addr = e.addr
      · rw [hl.fibers_unique.eq_of_addr hy he ha] at hactive ⊢
        exact ⟨t, ht, _, mem_modify_self he, hpid, hactive, hg⟩
      · exact ⟨t, ht, y, mem_modify_of_ne hy ha, hpid, hactive, rfl⟩

/-- A thread gets another active fiber. -/
theorem toProcess_activate (hl : Linked brk p) (ht : t ∈ p.threads) (he : e ∈ p.fibers) :
    { p with threads := p.threads.modify t.addr fun x =>
      { x with activeFiber := some e.addr } }.toProcess =
      { p.toProcess with
        active := Function.update p.toProcess.active t.obj.pid (some e.obj.index) } := by
  have hl' : Linked brk { p with threads := p.threads.modify t.addr fun x =>
      { x with activeFiber := some e.addr } } := by
    rw [modify_eq_mapObj]
    apply hl.mapThreads
    intro x
    split <;> rfl
  refine process_eq rfl (fun i x => Iff.rfl) (fun pid i => ?_)
  show _ ↔ Function.update p.toProcess.active t.obj.pid (some e.obj.index) pid = some i
  rw [active_eq_some hl', update_eq_some, active_eq_some hl]
  dsimp only
  constructor
  · rintro ⟨x, hx, y, hy, rfl, hactive, rfl⟩
    rcases mem_modify_of_mem hl.threads_unique ht hx with rfl | ⟨hx, hne⟩
    · rw [hl.fibers_unique.eq_of_addr he hy (Option.some.inj hactive)]
      exact Or.inl ⟨rfl, rfl⟩
    · exact Or.inr ⟨fun heq => hne (congrArg Entry.addr (hl.pid_inj x hx t ht heq)),
        x, hx, y, hy, rfl, hactive, rfl⟩
  · rintro (⟨rfl, rfl⟩ | ⟨hne, x, hx, y, hy, rfl, hactive, rfl⟩)
    · refine ⟨_, mem_modify_self ht, e, he, rfl, ?_, rfl⟩
      rfl
    · refine ⟨x, mem_modify_of_ne hx fun ha => hne ?_, y, hy, rfl, hactive, rfl⟩
      rw [hl.threads_unique.eq_of_addr hx ht ha]

theorem modify_modify (table : HashTable FiberArg) (a : ℕ) (g g' : FiberArg → FiberArg) :
    (table.modify a g).modify a g' = table.modify a fun x => g' (g x) := by
  rw [modify_eq_mapObj, modify_eq_mapObj, modify_eq_mapObj, mapObj_mapObj]
  apply List.map_congr_left
  intro x _
  by_cases ha : x.addr = a <;> simp only [ha, if_true, if_false]

theorem toProcess_switch {cur : Task} {env : Env} {target : Entry FiberArg} (hl : Linked brk p)
    (ht : t ∈ p.threads) (he : e ∈ p.fibers) (htarget : target ∈ p.fibers)
    (hne : target.addr ≠ e.addr) :
    (p.switch cur env t.addr e.addr e.obj target.addr).toProcess =
      p.toProcess.switch t.obj.pid e.obj.index target.obj.index
        ((e.obj.save cur.toContext).stop (env.clock 0))
        (target.obj.start (e.obj.startClock env)) := by
  let stopped : FiberArg → FiberArg := fun x => (x.save cur.toContext).stop (env.clock 0)
  let started : FiberArg → FiberArg := fun x => x.start (e.obj.startClock env)
  have hstopped : (stopped e.obj).index = e.obj.index := stop_index _ _
  have hstarted : (started target.obj).index = target.obj.index := rfl
  -- the old fiber, then the target, then the thread
  have hl₁ := linked_modify hl he hstopped
  have hmem₁ : target ∈ p.fibers.modify e.addr stopped := mem_modify_of_ne htarget hne
  have hl₂ := linked_modify hl₁ hmem₁ hstarted
  have hmem₂ : { target with obj := started target.obj } ∈
      (p.fibers.modify e.addr stopped).modify target.addr started := mem_modify_self hmem₁
  have hcompose : ((p.fibers.modify e.addr fun x => x.save cur.toContext).modify e.addr fun x =>
      x.stop (env.clock 0)) = p.fibers.modify e.addr stopped := modify_modify _ _ _ _
  have hswitch : p.switch cur env t.addr e.addr e.obj target.addr =
      { p with
        fibers := (p.fibers.modify e.addr stopped).modify target.addr started
        threads := p.threads.modify t.addr fun x =>
          { x with activeFiber := some target.addr } } := by
    rw [← hcompose]
    rfl
  have h₁ := toProcess_modify hl he hstopped
  have h₂ := toProcess_modify hl₁ hmem₁ hstarted
  have h₃ := toProcess_activate hl₂ ht hmem₂
  rw [hswitch]
  refine h₃.trans ?_
  rw [h₂, h₁]
  rfl

theorem toProcess_exit (hl : Linked brk p) (ho : Owned p) (ht : t ∈ p.threads)
    (he : e ∈ p.fibers) (hactive : t.obj.activeFiber = some e.addr) :
    (p.exit t.addr e.addr).toProcess = p.toProcess.exit t.obj.pid := by
  have hl' := linked_exit hl t.addr e.addr
  have hi : p.toProcess.active t.obj.pid = some e.obj.index :=
    (active_eq_some hl).mpr ⟨t, ht, e, he, rfl, hactive, rfl⟩
  rw [Process.exit, hi]
  refine process_eq rfl (fun i x => ?_) (fun pid i => ?_)
  · show _ ↔ Function.update p.toProcess.fiber e.obj.index none i = some x
    rw [fiber_eq_some hl', update_none_eq_some, fiber_eq_some hl]
    constructor
    · rintro ⟨y, hy, rfl, rfl⟩
      obtain ⟨hy, hne⟩ := mem_hashDel.mp hy
      exact ⟨fun heq => hne (congrArg Entry.addr (hl.index_inj y hy e he heq)), y, hy, rfl, rfl⟩
    · rintro ⟨hne, y, hy, rfl, rfl⟩
      refine ⟨y, mem_hashDel.mpr ⟨hy, fun ha => hne ?_⟩, rfl, rfl⟩
      rw [hl.fibers_unique.eq_of_addr hy he ha]
  · show _ ↔ Function.update p.toProcess.active t.obj.pid none pid = some i
    rw [active_eq_some hl', update_none_eq_some, active_eq_some hl]
    constructor
    · rintro ⟨x, hx, y, hy, rfl, hx', rfl⟩
      obtain ⟨hx, hne⟩ := mem_hashDel.mp hx
      exact ⟨fun heq => hne (congrArg Entry.addr (hl.pid_inj x hx t ht heq)), x, hx, y,
        (mem_hashDel.mp hy).1, rfl, hx', rfl⟩
    · rintro ⟨hne, x, hx, y, hy, rfl, hx', rfl⟩
      have hxt : x.addr ≠ t.addr := by
        intro ha
        exact hne (congrArg (fun t => t.obj.pid) (hl.threads_unique.eq_of_addr hx ht ha))
      have hye : y.addr ≠ e.addr := by
        intro ha
        rw [ha, ← hactive] at hx'
        exact hxt (congrArg Entry.addr (ho.exclusive x hx t ht hx'))
      exact ⟨x, mem_hashDel.mpr ⟨hx, hxt⟩, y, mem_hashDel.mpr ⟨hy, hye⟩, rfl, hx', rfl⟩

end LinuxFibers.Module
