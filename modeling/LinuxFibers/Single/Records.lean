import LinuxFibers.Single.Refinement

/-!
# The records of the single-threaded module

The tables of the two modules are linked in the same way, so the single-threaded
module has no invariant of its own.  The `shape` of its kernel is a kernel of the
multi-threaded module with the same links, indices and flags, and the tables are
well formed when those of the shape are (`KernelOk`).
-/

namespace LinuxFibers.Single

open LinuxFibers.Lib HashTable LinuxFibers.Module

/-! ## The shape of a kernel -/

/-- A fiber of the multi-threaded module with nothing but an index and a flag. -/
def bareFiber (index : ℕ) (running : Bool) : Module.FiberArg where
  flsBitmap := 0
  regs := fun _ => 0
  fpuReg := 0
  index := index
  threadId := 0
  startingPoint := 0
  flsArray := fun _ => 0
  activations := 0
  failedActivations := 0
  startingTime := 0
  totalTime := 0
  name := []
  running := running

def FiberArg.shape (f : FiberArg) : Module.FiberArg := bareFiber f.index f.running

def ThreadArg.shape (t : ThreadArg) : Module.ThreadArg := ⟨t.pid, t.activeFiber⟩

def ProcessArg.shape (p : ProcessArg) : Module.ProcessArg where
  pid := p.pid
  fiberId := p.fiberId
  fibers := p.fibers.image FiberArg.shape
  threads := p.threads.image ThreadArg.shape

def Kernel.shape (k : Kernel) : Module.Kernel where
  listProcess := k.listProcess.image ProcessArg.shape
  countThreads := 0
  allocated := []
  brk := k.brk

/-- The tables are well formed. -/
def KernelOk (k : Kernel) : Prop := Module.KernelOk k.shape

variable {k k' : Kernel} {e : Entry ProcessArg} {p : ProcessArg} {id : Pid}

theorem searchProcess_shape (k : Kernel) (id : Pid) :
    Module.searchProcess k.shape id = (searchProcess k id).map (Entry.image ProcessArg.shape) :=
  search_image fun _ => rfl

theorem record_shape (k : Kernel) (id : Pid) :
    k.shape.record id = (k.record id).map ProcessArg.shape := by
  rw [Module.Kernel.record, searchProcess_shape, Kernel.record, Option.map_map, Option.map_map]
  rfl

theorem searchThread_shape (id : Pid) (p : ProcessArg) :
    Module.searchThread id p.shape = (searchThread id p).map (Entry.image ThreadArg.shape) :=
  search_image fun _ => rfl

theorem shape_setProcess (k : Kernel) (a : ℕ) (p : ProcessArg) :
    (k.setProcess a p).shape = k.shape.setProcess a p.shape := by
  have htable : (k.listProcess.modify a fun _ => p).image ProcessArg.shape =
      (k.listProcess.image ProcessArg.shape).modify a fun _ => p.shape :=
    image_modify a fun _ => rfl
  simp only [Kernel.shape, Kernel.setProcess, Module.Kernel.setProcess, htable]

/-! ## Records -/

theorem of_searchProcess (h : searchProcess k id = some e) :
    e ∈ k.listProcess ∧ e.obj.pid = id := by
  obtain ⟨he, _, hp⟩ := of_search h
  exact ⟨he, by simpa using hp⟩

theorem record_of_searchProcess (h : searchProcess k id = some e) : k.record id = some e.obj := by
  rw [Kernel.record, h]
  rfl

theorem of_searchThread {t : Entry ThreadArg} (h : searchThread id p = some t) :
    t ∈ p.threads ∧ t.obj.pid = id := by
  obtain ⟨ht, _, hp⟩ := of_search h
  exact ⟨ht, by simpa using hp⟩

theorem of_searchFiber {index : BitVec 32} {f : Entry FiberArg}
    (h : searchFiber index p = some f) :
    f ∈ p.fibers ∧ f.obj.index = intToUlong index ∧ f.obj.running = false := by
  obtain ⟨hf, _, hp⟩ := of_search h
  rw [Bool.and_eq_true, beq_iff_eq, Bool.not_eq_true'] at hp
  exact ⟨hf, hp⟩

theorem of_derefFiber {fibers : HashTable FiberArg} {q : Option ℕ} {a : ℕ} {f : FiberArg}
    (h : derefFiber fibers q = .ok (a, f)) : q = some a ∧ fibers.deref a = some f := by
  unfold derefFiber at h
  split at h
  · cases h
  · split at h
    · cases h
    · rename_i hd
      cases h
      exact ⟨rfl, hd⟩

theorem record_of_eq (hl : k'.listProcess = k.listProcess) (id : Pid) :
    k'.record id = k.record id := by
  rw [Kernel.record, Kernel.record, searchProcess, searchProcess, hl]

theorem unique_of_tables (h : Tables k.shape) : k.listProcess.UniqueAddr :=
  (uniqueAddr_image ProcessArg.shape k.listProcess).mp h.unique

/-- The search for a record after a record was written. -/
theorem searchProcess_setProcess (h : Tables k.shape) (he : e ∈ k.listProcess)
    (hp : p.pid = e.obj.pid) (id : Pid) :
    searchProcess (k.setProcess e.addr p) id =
      (searchProcess k id).map fun x => if x.addr = e.addr then { x with obj := p } else x := by
  refine search_modify (f := fun _ => p) fun x hx ha => ?_
  rw [(unique_of_tables h).eq_of_addr hx he ha, hp]

theorem record_setProcess_self (h : Tables k.shape) (hs : searchProcess k id = some e)
    (hp : p.pid = e.obj.pid) : (k.setProcess e.addr p).record id = some p := by
  rw [Kernel.record, searchProcess_setProcess h (of_searchProcess hs).1 hp, hs, Option.map_some,
    if_pos rfl]
  rfl

theorem record_setProcess_ne {id' : Pid} (h : Tables k.shape) (hs : searchProcess k id = some e)
    (hp : p.pid = e.obj.pid) (hid : id' ≠ id) :
    (k.setProcess e.addr p).record id' = k.record id' := by
  obtain ⟨he, hpid⟩ := of_searchProcess hs
  rw [Kernel.record, searchProcess_setProcess h he hp, Kernel.record]
  cases hs' : searchProcess k id' with
  | none => rfl
  | some x =>
    obtain ⟨hx, hxpid⟩ := of_searchProcess hs'
    have hne : x.addr ≠ e.addr := by
      intro ha
      rw [(unique_of_tables h).eq_of_addr hx he ha, hpid] at hxpid
      exact hid hxpid.symm
    rw [Option.map_some, if_neg hne]

theorem tables_setProcess (h : Tables k.shape) (hs : searchProcess k id = some e)
    (hp : p.pid = e.obj.pid) : Tables (k.setProcess e.addr p).shape := by
  rw [shape_setProcess]
  exact h.setProcess (mem_image_of_mem ProcessArg.shape (of_searchProcess hs).1) hp

/-! ## Well-formed records -/

theorem KernelOk.tables (h : KernelOk k) : Tables k.shape := h.toTables

theorem KernelOk.linked (h : KernelOk k) (hp : k.record id = some p) : Linked k.brk p.shape :=
  Module.KernelOk.linked h id p.shape (by rw [record_shape, hp]; rfl)

theorem KernelOk.owned (h : KernelOk k) (hp : k.record id = some p) : Owned p.shape :=
  Module.KernelOk.owned h id p.shape (by rw [record_shape, hp]; rfl)

theorem fibers_unique {brk : ℕ} (h : Linked brk p.shape) : p.fibers.UniqueAddr :=
  (uniqueAddr_image FiberArg.shape p.fibers).mp h.fibers_unique

/-- The active fiber of a converted thread can be used. -/
theorem derefFiber_active {brk : ℕ} (hl : Linked brk p.shape) (ho : Owned p.shape)
    {th : Entry ThreadArg} (h : searchThread id p = some th) :
    ∃ f ∈ p.fibers, th.obj.activeFiber = some f.addr ∧ f.obj.running = true ∧
      derefFiber p.fibers th.obj.activeFiber = .ok (f.addr, f.obj) := by
  have hmem := mem_image_of_mem ThreadArg.shape (of_searchThread h).1
  obtain ⟨x, hx, hactive, hrun, _⟩ := active_of_mem hl ho hmem
  obtain ⟨f, hf, rfl⟩ := of_mem_image hx
  have hactive : th.obj.activeFiber = some f.addr := hactive
  refine ⟨f, hf, hactive, hrun, ?_⟩
  rw [hactive]
  simp only [derefFiber, deref_of_mem (fibers_unique hl) hf]

/-- Two fibers of a record with one index are one. -/
theorem eq_of_index {brk : ℕ} (hl : Linked brk p.shape) {f f' : Entry FiberArg}
    (hf : f ∈ p.fibers) (hf' : f' ∈ p.fibers) (hindex : f.obj.index = f'.obj.index) : f = f' := by
  have himage := hl.index_inj _ (mem_image_of_mem FiberArg.shape hf) _
    (mem_image_of_mem FiberArg.shape hf') hindex
  have haddr : f.addr = f'.addr := congrArg (fun x : Entry Module.FiberArg => x.addr) himage
  exact (fibers_unique hl).eq_of_addr hf hf' haddr

theorem fibers_lt {brk : ℕ} (hl : Linked brk p.shape) {f : Entry FiberArg} (hf : f ∈ p.fibers) :
    f.addr < brk :=
  hl.fibers_lt _ (mem_image_of_mem FiberArg.shape hf)

theorem index_lt {brk : ℕ} (hl : Linked brk p.shape) {f : Entry FiberArg} (hf : f ∈ p.fibers) :
    f.obj.index < p.fiberId :=
  hl.index_lt _ (mem_image_of_mem FiberArg.shape hf)

/-! ## Operations on a record -/

theorem shape_convert (p : ProcessArg) (thrId : Pid) (t f : ℕ) (fiber : FiberArg) :
    (p.convert thrId t f fiber).shape = p.shape.convert thrId t f fiber.shape := rfl

theorem shape_create (p : ProcessArg) (cur : Task) (a f : ℕ) (fiber : FiberArg) :
    (p.create cur a f fiber).shape = p.shape.create f fiber.shape := by
  have htable : (p.fibers.modify a fun g => { g with fpuReg := cur.fpu }).image FiberArg.shape =
      p.fibers.image FiberArg.shape := image_modify_of_eq a fun _ => rfl
  show Module.ProcessArg.mk _ _ (Entry.image FiberArg.shape _ ::
    (p.fibers.modify a fun g => { g with fpuReg := cur.fpu }).image FiberArg.shape) _ = _
  rw [htable]
  rfl

theorem index_switchedFiber (cur : Task) (env : Env) (a target : ℕ) (e : Entry FiberArg) :
    (switchedFiber cur env a target e).index = e.obj.index := by
  unfold switchedFiber
  dsimp only
  split <;> split <;> rfl

theorem running_switchedFiber (cur : Task) (env : Env) (a target : ℕ) (e : Entry FiberArg) :
    (switchedFiber cur env a target e).running =
      if e.addr = target then true else if e.addr = a then false else e.obj.running := by
  unfold switchedFiber
  dsimp only
  by_cases ht : e.addr = target
  · rw [if_pos ht]
    simp only [if_pos ht]
  · rw [if_neg ht, if_neg ht, if_neg ht]
    split <;> rfl

/-- A switch, as the multi-threaded module would see it, with bare fibers. -/
theorem shape_switch (p : ProcessArg) (cur : Task) (env : Env) (env' : Module.Env)
    (thread a target : ℕ) (old : Module.FiberArg) :
    (p.switch cur env thread a target).shape =
      { p.shape.switch cur env' thread a old target with
        fibers := (p.shape.switch cur env' thread a old target).fibers.mapObj fun e =>
          bareFiber e.obj.index e.obj.running } := by
  have hfibers : (p.switch cur env thread a target).fibers.image FiberArg.shape =
      (p.shape.switch cur env' thread a old target).fibers.mapObj fun e =>
        bareFiber e.obj.index e.obj.running := by
    rw [switch_fibers, switch_eq, mapObj_mapObj]
    apply image_mapObj
    intro e _
    show bareFiber (switchedFiber cur env a target e).index _ =
      bareFiber (Module.switchedFiber cur env' a old target (e.image FiberArg.shape)).index
        (Module.switchedFiber cur env' a old target (e.image FiberArg.shape)).running
    rw [switchedFiber_index, switchedFiber_running, index_switchedFiber, running_switchedFiber]
    rfl
  have hthreads : (p.threads.modify thread fun t => { t with activeFiber := some target }).image
      ThreadArg.shape = (p.threads.image ThreadArg.shape).modify thread fun t =>
        { t with activeFiber := some target } := image_modify thread fun _ => rfl
  rw [← hfibers]
  unfold ProcessArg.shape ProcessArg.switch Module.ProcessArg.switch
  rw [hthreads]

theorem shape_modify (p : ProcessArg) (a : ℕ) (f : FiberArg) :
    ({ p with fibers := p.fibers.modify a fun _ => f } : ProcessArg).shape =
      { p.shape with fibers := p.shape.fibers.modify a fun _ => f.shape } := by
  have htable : (p.fibers.modify a fun _ => f).image FiberArg.shape =
      (p.fibers.image FiberArg.shape).modify a fun _ => f.shape := image_modify a fun _ => rfl
  simp only [ProcessArg.shape, htable]

theorem shape_exit (p : ProcessArg) (t f : ℕ) : (p.exit t f).shape = p.shape.exit t f := by
  simp only [ProcessArg.shape, ProcessArg.exit, Module.ProcessArg.exit, image_hashDel]

end LinuxFibers.Single
