import LinuxFibers.Module.System
import LinuxFibers.Single.Types

/-!
# The requests of the single-threaded module

`my_ioctl` and `Pre_Handler` of `single_thread/Module/fiber_ioctl.c`, in the form
of the requests of the multi-threaded module: a request is one step, and a use
of a missing object is a `Fault`.  No result of `kmalloc` or of `copy_from_user`
is tested, so an allocation that fails is a `Fault` where the object is first
used, and a copy that fails leaves the arguments as the memory held them.
-/

namespace LinuxFibers.Single

open LinuxFibers.Lib LinuxFibers.Module

/-- The rest of the kernel, as one request meets it: whether each allocation
succeeds, the arguments that the copy from the user leaves in kernel memory, and
what the memory of a new fiber and of a new `struct fpu` held. -/
structure Env where
  kmalloc : Kind → Bool
  kmallocRegs : Bool
  kmallocFpu : Bool
  createArg : CreateArg
  flsArg : FlsArg
  oldFiber : FiberArg
  oldFpu : Fpu

/-- The end of a request: the value returned, the kernel, and the context of the
current task before `ax` gets the value. -/
structure Reply where
  ret : ℤ
  kernel : Kernel
  context : Context

/-- The end of a request that leaves the context of the task alone. -/
def reply (cur : Task) (k : Kernel) (ret : ℤ) : Except Fault Reply :=
  .ok ⟨ret, k, cur.toContext⟩

/-! ## The heap and the records -/

/-- `kmalloc`, which gives `NULL` when it fails. -/
def kmalloc (k : Kernel) (succeeds : Bool) : Option ℕ × Kernel :=
  if succeeds then (some k.brk, { k with brk := k.brk + 1 }) else (none, k)

/-- The use of a pointer that may be `NULL`. -/
def nonNull (p : Option ℕ) : Except Fault ℕ :=
  match p with
  | none => .error .nullPointer
  | some a => .ok a

/-- The use of the registers and the FPU image of a new fiber. -/
def allocatedFields (env : Env) : Except Fault Unit :=
  if env.kmallocRegs && env.kmallocFpu then .ok () else .error .nullPointer

/-- The write of a process record through its address. -/
def Kernel.setProcess (k : Kernel) (p : ℕ) (process : ProcessArg) : Kernel :=
  { k with listProcess := k.listProcess.modify p fun _ => process }

/-- The fiber behind a pointer. -/
def derefFiber (fibers : HashTable FiberArg) (p : Option ℕ) :
    Except Fault (ℕ × FiberArg) :=
  match p with
  | none => .error .nullPointer
  | some a =>
      match fibers.deref a with
      | none => .error (.notLinked a)
      | some f => .ok (a, f)

/-! ## `CONVERTTOFIBER` -/

/-- A record without threads and fibers. -/
def newProcess (proId : Pid) : ProcessArg := ⟨proId, [], [], 0⟩

/-- The record of the caller's process, which is made when there is none. -/
def findOrAddProcess (k : Kernel) (proId : Pid) (succeeds : Bool) :
    Except Fault (Entry ProcessArg × Kernel) :=
  match searchProcess k proId with
  | some e => .ok (e, k)
  | none => do
      let (process, k) := kmalloc k succeeds
      let a ← nonNull process
      return (⟨hash32 proId, a, newProcess proId⟩,
        { k with listProcess := k.listProcess.hashAdd (hash32 proId) a (newProcess proId) })

/-- The fiber that `CONVERTTOFIBER` fills in. -/
def convertedFiber (cur : Task) (env : Env) (index : ℕ) : FiberArg :=
  { env.oldFiber with index := index, regs := cur.regs, running := true, fpuReg := cur.fpu }

/-- The record after a thread and its fiber were added. -/
def ProcessArg.convert (p : ProcessArg) (thrId : Pid) (t f : ℕ) (fiber : FiberArg) :
    ProcessArg :=
  { p with
    fiberId := p.fiberId + 1
    fibers := p.fibers.hashAdd (fiberBucket fiber.index) f fiber
    threads := p.threads.hashAdd (hash32 thrId) t ⟨thrId, some f⟩ }

/-- `CONVERTTOFIBER`. -/
def convertToFiber (k : Kernel) (cur : Task) (env : Env) : Except Fault Reply := do
  let (fiber, k) := kmalloc k (env.kmalloc .fiberArg)
  let (process, k) ← findOrAddProcess k cur.tgid (env.kmalloc .processArg)
  match searchThread cur.pid process.obj with
  | some _ => reply cur k (-1)
  | none => do
      let (thread, k) := kmalloc k (env.kmalloc .threadArg)
      let t ← nonNull thread
      let f ← nonNull fiber
      allocatedFields env
      let index := process.obj.fiberId
      let p := process.obj.convert cur.pid t f (convertedFiber cur env index)
      reply cur (k.setProcess process.addr p) index

/-! ## `CREATEFIBER` -/

/-- The registers of a fiber that has never run: the copy that `memcpy` makes, and
the eighteen assignments after it. -/
def createdRegs (regs : PtRegs) (args : CreateArg) : PtRegs :=
  let r := [Reg.r15, .r14, .r13, .r12, .r11, .r10, .r9, .r8, .ax, .bx, .cx, .dx, .si].foldl
    (fun r reg => Function.update r reg (regs reg)) regs
  let r := Function.update r .sp args.dwStackPointer
  let r := Function.update r .ip args.lpStartAddress
  let r := Function.update r .di args.lpParameter
  let r := Function.update r .bp (r .sp)
  Function.update r .flags (regs .flags)

/-- The assignments leave what the multi-threaded module writes. -/
theorem createdRegs_eq (regs : PtRegs) (args : CreateArg) :
    createdRegs regs args = Module.createdRegs regs args := by
  funext reg
  cases reg <;> rfl

/-- The fiber that `CREATEFIBER` fills in. -/
def createdFiber (cur : Task) (env : Env) (index : ℕ) : FiberArg :=
  { env.oldFiber with
    running := false
    index := index
    regs := createdRegs cur.regs env.createArg
    fpuReg := cur.fpu }

/-- The record after a fiber was added.  The FPU image goes to the active fiber
`a` as well. -/
def ProcessArg.create (p : ProcessArg) (cur : Task) (a f : ℕ) (fiber : FiberArg) : ProcessArg :=
  { p with
    fiberId := p.fiberId + 1
    fibers := (p.fibers.modify a fun g => { g with fpuReg := cur.fpu }).hashAdd
      (fiberBucket fiber.index) f fiber }

/-- `CREATEFIBER`. -/
def createFiber (k : Kernel) (cur : Task) (env : Env) : Except Fault Reply := do
  let (args, k) := kmalloc k (env.kmalloc .createArg)
  let (fiber, k) := kmalloc k (env.kmalloc .fiberArg)
  let _ ← nonNull args
  match searchProcess k cur.tgid with
  | none => reply cur k (-1)
  | some process =>
      match searchThread cur.pid process.obj with
      | none => reply cur k (-1)
      | some thread => do
          let f ← nonNull fiber
          allocatedFields env
          let (a, _) ← derefFiber process.obj.fibers thread.obj.activeFiber
          let index := process.obj.fiberId
          let p := process.obj.create cur a f (createdFiber cur env index)
          reply cur (k.setProcess process.addr p) index

/-! ## `SWITCHTOFIBER` -/

/-- The registers that a switch assigns, in the order of the assignments. -/
def switchedRegs : List Reg :=
  [.r15, .r14, .r13, .r12, .r11, .r10, .r9, .r8, .ax, .bx, .cx, .dx, .si, .di, .sp, .ip, .bp,
    .flags]

/-- The assignments of one side of a switch. -/
def assignRegs (dst src : PtRegs) : PtRegs := fun r => if r ∈ switchedRegs then src r else dst r

/-- The context saved in a fiber. -/
def FiberArg.save (f : FiberArg) (c : Context) : FiberArg :=
  { f with regs := assignRegs f.regs c.regs, fpuReg := c.fpu }

/-- The fibers at the time of the loads: the target `target` has a new
`struct fpu`, and the active fiber `a` has the context of the caller. -/
def ProcessArg.saved (p : ProcessArg) (cur : Task) (env : Env) (a target : ℕ) :
    HashTable FiberArg :=
  (p.fibers.modify target fun f => { f with fpuReg := env.oldFpu }).modify a fun f =>
    f.save cur.toContext

/-- The record after the flags and the active fiber were changed. -/
def ProcessArg.switch (p : ProcessArg) (cur : Task) (env : Env) (thread a target : ℕ) :
    ProcessArg :=
  let stopped := (p.saved cur env a target).modify a fun f => { f with running := false }
  { p with
    fibers := stopped.modify target fun f => { f with running := true }
    threads := p.threads.modify thread fun t => { t with activeFiber := some target } }

/-- `SWITCHTOFIBER`. -/
def switchToFiber (k : Kernel) (cur : Task) (arg : Word) (env : Env) : Except Fault Reply :=
  match searchProcess k cur.tgid with
  | none => reply cur k (-1)
  | some process =>
      let p := process.obj
      match searchFiber (arg.setWidth 32) p with
      | none => reply cur k (-1)
      | some fiber =>
          match searchThread cur.pid p with
          | none => reply cur k (-1)
          | some thread => do
              if !env.kmallocFpu then .error .nullPointer
              let (a, _) ← derefFiber p.fibers thread.obj.activeFiber
              let (_, next) ← derefFiber (p.saved cur env a fiber.addr) (some fiber.addr)
              let p := p.switch cur env thread.addr a fiber.addr
              return ⟨0, k.setProcess process.addr p,
                ⟨assignRegs cur.regs next.regs, next.fpuReg⟩⟩

/-! ## Fiber local storage -/

/-- The write of the active fiber of a thread. -/
def Kernel.setFiber (k : Kernel) (process : Entry ProcessArg) (a : ℕ) (f : FiberArg) : Kernel :=
  k.setProcess process.addr
    { process.obj with fibers := process.obj.fibers.modify a fun _ => f }

/-- The scan of `find_first_zero_bit` from bit `i` over `n` bits. -/
def zeroBitFrom (f : FiberArg) : ℕ → ℕ → Except Fault ℕ
  | 0, i => .ok i
  | n + 1, i =>
      match f.bit i with
      | none => .error (.flsStorage i)
      | some false => .ok i
      | some true => zeroBitFrom f n (i + 1)

/-- `find_first_zero_bit(fiber->fls_bitmap, MAX_FLS)`. -/
def findFirstZeroBit (f : FiberArg) : Except Fault ℕ := zeroBitFrom f maxFls 0

/-- `test_bit(index, fiber->fls_bitmap)`, which checks no bound. -/
def testBit (f : FiberArg) (index : ℤ) : Except Fault Bool :=
  if index < 0 then .error (.flsStorage index)
  else
    match f.bit index.toNat with
    | none => .error (.flsStorage index)
    | some b => .ok b

/-- `clear_bit(index, fiber->fls_bitmap)`. -/
def clearBit (f : FiberArg) (index : ℤ) : Except Fault FiberArg := do
  let _ ← testBit f index
  return f.setBit index.toNat false

/-- `change_bit(index, fiber->fls_bitmap)`. -/
def changeBit (f : FiberArg) (index : ℕ) : Except Fault FiberArg := do
  let b ← testBit f index
  return f.setBit index !b

/-- The read of `fls_array[index]`. -/
def slot (f : FiberArg) (index : ℕ) : Except Fault Word :=
  if index < maxFls then .ok (f.flsArray index) else .error (.flsStorage index)

/-- The write of `fls_array[index]`. -/
def setSlot (f : FiberArg) (index : ℕ) (value : Word) : Except Fault FiberArg :=
  if index < maxFls then .ok { f with flsArray := Function.update f.flsArray index value }
  else .error (.flsStorage index)

/-- `FLSALLOC`. -/
def flsAlloc (k : Kernel) (cur : Task) : Except Fault Reply :=
  match searchProcess k cur.tgid with
  | none => reply cur k (-1)
  | some process =>
      match searchThread cur.pid process.obj with
      | none => reply cur k (-1)
      | some thread => do
          let (a, fiber) ← derefFiber process.obj.fibers thread.obj.activeFiber
          let index ← findFirstZeroBit fiber
          let fiber ← changeBit fiber index
          let fiber ← setSlot fiber index 0
          reply cur (k.setFiber process a fiber) index

/-- `FLSFREE`.  It gives `true` or `false`. -/
def flsFree (k : Kernel) (cur : Task) (arg : Word) : Except Fault Reply :=
  match searchProcess k cur.tgid with
  | none => reply cur k 0
  | some process =>
      match searchThread cur.pid process.obj with
      | none => reply cur k 0
      | some thread => do
          let (a, fiber) ← derefFiber process.obj.fibers thread.obj.activeFiber
          let fiber ← clearBit fiber arg.toInt
          reply cur (k.setFiber process a fiber) 1

/-- `FLSGETVALUE`, which returns the value itself. -/
def flsGetValue (k : Kernel) (cur : Task) (arg : Word) : Except Fault Reply :=
  match searchProcess k cur.tgid with
  | none => reply cur k (-1)
  | some process =>
      match searchThread cur.pid process.obj with
      | none => reply cur k (-1)
      | some thread => do
          let (_, fiber) ← derefFiber process.obj.fibers thread.obj.activeFiber
          if ← testBit fiber arg.toInt then
            let value ← slot fiber arg.toNat
            reply cur k value.toInt
          else reply cur k (-1)

/-- `FLSSETVALUE`. -/
def flsSetValue (k : Kernel) (cur : Task) (env : Env) : Except Fault Reply := do
  let (args, k) := kmalloc k (env.kmalloc .flsArg)
  let _ ← nonNull args
  match searchProcess k cur.tgid with
  | none => reply cur k (-1)
  | some process =>
      match searchThread cur.pid process.obj with
      | none => reply cur k 0
      | some thread => do
          let (a, fiber) ← derefFiber process.obj.fibers thread.obj.activeFiber
          let index := env.flsArg.dwFlsIndex
          if ← testBit fiber index.toInt then
            let fiber ← setSlot fiber index.toNat env.flsArg.lpFlsData
            reply cur (k.setFiber process a fiber) 0
          else reply cur k 0

/-! ## The two entry points -/

/-- `my_ioctl`. -/
def myIoctl (k : Kernel) (cur : Task) (cmd : Command) (arg : Word) (env : Env) :
    Except Fault Reply :=
  match cmd with
  | .convertToFiber => convertToFiber k cur env
  | .createFiber => createFiber k cur env
  | .switchToFiber => switchToFiber k cur arg env
  | .flsAlloc => flsAlloc k cur
  | .flsFree => flsFree k cur arg
  | .flsGetValue => flsGetValue k cur arg
  | .flsSetValue => flsSetValue k cur env
  | .other => reply cur k 0

/-- The record after a thread and its active fiber were removed. -/
def ProcessArg.exit (p : ProcessArg) (t f : ℕ) : ProcessArg :=
  { p with fibers := p.fibers.hashDel f, threads := p.threads.hashDel t }

/-- `Pre_Handler`, for the current thread that exits.  The record of the process
stays. -/
def preHandler (k : Kernel) (proId thrId : Pid) : Except Fault Kernel :=
  match searchProcess k proId with
  | none => .ok k
  | some process =>
      match searchThread thrId process.obj with
      | none => .ok k
      | some thread => do
          let (f, _) ← derefFiber process.obj.fibers thread.obj.activeFiber
          return k.setProcess process.addr (process.obj.exit thread.addr f)

end LinuxFibers.Single
