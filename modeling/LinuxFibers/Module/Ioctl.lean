import LinuxFibers.Module.Types

/-!
# The requests of the multi-threaded module

`my_ioctl` and `Pre_Handler` of `multi_thread/Module/fiber_ioctl.c`, with one
definition for each command.  A request is one step.  It gets the kernel state,
the current task and an `Env`, which holds what the request asks the rest of the
kernel for: whether each allocation and each copy succeeds, what the user's
memory holds, and the readings of the clock.

A request that would use a missing object, or a bit that `FiberArg.bit` does not
have, ends in a `Fault`.
-/

namespace LinuxFibers.Module

open LinuxFibers.Lib

/-- What stops a request. -/
inductive Fault where
  | nullPointer
  | notLinked (p : ℕ)
  | flsStorage (i : ℤ)
  deriving DecidableEq

/-- The commands of `function_macro.h`. -/
inductive Command where
  | convertToFiber | createFiber | switchToFiber
  | flsAlloc | flsFree | flsGetValue | flsSetValue
  | other
  deriving DecidableEq

/-- `create_arg_t`. -/
structure CreateArg where
  dwStackPointer : Word
  lpStartAddress : Word
  lpParameter : Word

/-- `fls_arg_t`. -/
structure FlsArg where
  dwFlsIndex : Word
  lpFlsData : Word

/-- The types that a request allocates, each at most once. -/
inductive Kind where
  | fiberArg | processArg | threadArg | createArg | flsArg

/-- The rest of the kernel, as one request meets it.  `clock n` is the reading
number `n` of `getnstimeofday`. -/
structure Env where
  kzalloc : Kind → Bool
  copyFromUser : Bool
  copyToUser : Bool
  createArg : CreateArg
  flsArg : FlsArg
  clock : ℕ → Timespec

/-- The end of a request: the value returned, the kernel, the context of the
current task before `ax` gets the value, and what was copied to the user. -/
structure Reply where
  ret : ℤ
  kernel : Kernel
  context : Context
  copied : Option FlsArg

/-- The end of a request that leaves the context of the task alone. -/
def reply (cur : Task) (k : Kernel) (ret : ℤ) : Except Fault Reply :=
  .ok ⟨ret, k, cur.toContext, none⟩

/-- `ENOMEM`. -/
def enomem : ℤ := 12

/-! ## The heap and the records -/

/-- `kzalloc`, which gives `NULL` when it fails. -/
def kzalloc (k : Kernel) (succeeds : Bool) : Option ℕ × Kernel :=
  if succeeds then (some k.brk, { k with allocated := k.brk :: k.allocated, brk := k.brk + 1 })
  else (none, k)

/-- `kfree`. -/
def kfree (k : Kernel) (p : ℕ) : Kernel :=
  { k with allocated := k.allocated.filter (fun q => q != p) }

/-- The write of a process record through its address. -/
def Kernel.setProcess (k : Kernel) (p : ℕ) (process : ProcessArg) : Kernel :=
  { k with listProcess := k.listProcess.modify p fun _ => process }

/-- The fiber behind a pointer. -/
def derefFiber (fibers : HashTable FiberArg) (p : Option ℕ) :
    Except Fault (ℕ × FiberArg) :=
  match p with
  | none => .error .nullPointer
  | some a =>
      match fibers.deref a with
      | none => .error (.notLinked a)
      | some f => .ok (a, f)

/-! ## `CONVERTTOFIBER` -/

/-- A record without threads and fibers. -/
def newProcess (proId : Pid) : ProcessArg := ⟨proId, 0, [], []⟩

/-- The record of the caller's process, which is made when there is none. -/
def findOrAddProcess (k : Kernel) (proId : Pid) (succeeds : Bool) :
    Option (Entry ProcessArg × Kernel) :=
  match searchProcess k proId with
  | some e => some (e, k)
  | none =>
      match kzalloc k succeeds with
      | (none, _) => none
      | (some a, k) =>
          some (⟨hash32 proId, a, newProcess proId⟩,
            { k with listProcess := k.listProcess.hashAdd (hash32 proId) a (newProcess proId) })

/-- The fiber that `CONVERTTOFIBER` fills in.  `bitmap_zero` clears `MAX_FLS`
bits after the registers were copied, and with them the registers. -/
def convertedFiber (cur : Task) (env : Env) (index : ℕ) : FiberArg where
  flsBitmap := 0
  regs := fun _ => 0
  fpuReg := cur.fpu
  index := index
  threadId := cur.pid
  startingPoint := cur.regs .ip
  flsArray := fun _ => 0
  activations := 1
  failedActivations := 0
  startingTime := (env.clock 0).nanoseconds
  totalTime := 0
  name := fiberName index
  running := true

/-- The record after a thread and its fiber were added. -/
def ProcessArg.convert (p : ProcessArg) (thrId : Pid) (t f : ℕ) (fiber : FiberArg) :
    ProcessArg :=
  { p with
    fiberId := p.fiberId + 1
    fibers := p.fibers.hashAdd (fiberBucket fiber.index) f fiber
    threads := p.threads.hashAdd (hash32 thrId) t ⟨thrId, some f⟩ }

/-- `CONVERTTOFIBER`. -/
def convertToFiber (k : Kernel) (cur : Task) (env : Env) : Except Fault Reply :=
  let (fiber, k₁) := kzalloc k (env.kzalloc .fiberArg)
  match findOrAddProcess k₁ cur.tgid (env.kzalloc .processArg) with
  | none => reply cur k₁ (-enomem)
  | some (process, k₂) =>
      match searchThread cur.pid process.obj with
      | some _ => reply cur k₂ (-1)
      | none =>
          match kzalloc k₂ (env.kzalloc .threadArg) with
          | (none, k₃) => reply cur k₃ (-enomem)
          | (some t, k₃) =>
              match fiber with
              | none => .error .nullPointer
              | some f =>
                  let index := process.obj.fiberId
                  let p := process.obj.convert cur.pid t f (convertedFiber cur env index)
                  let k₄ := k₃.setProcess process.addr p
                  reply cur { k₄ with countThreads := k₄.countThreads + 1 } index

/-! ## `CREATEFIBER` -/

/-- The registers of a fiber that has never run. -/
def createdRegs (regs : PtRegs) (args : CreateArg) : PtRegs
  | .sp => args.dwStackPointer
  | .bp => args.dwStackPointer
  | .ip => args.lpStartAddress
  | .di => args.lpParameter
  | r => regs r

/-- The fiber that `CREATEFIBER` fills in. -/
def createdFiber (cur : Task) (args : CreateArg) (index : ℕ) : FiberArg where
  flsBitmap := 0
  regs := createdRegs cur.regs args
  fpuReg := cur.fpu
  index := index
  threadId := cur.pid
  startingPoint := args.lpStartAddress
  flsArray := fun _ => 0
  activations := 0
  failedActivations := 0
  startingTime := 0
  totalTime := 0
  name := fiberName index
  running := false

/-- The record after a fiber was added. -/
def ProcessArg.create (p : ProcessArg) (f : ℕ) (fiber : FiberArg) : ProcessArg :=
  { p with
    fiberId := p.fiberId + 1
    fibers := p.fibers.hashAdd (fiberBucket fiber.index) f fiber }

/-- `CREATEFIBER`. -/
def createFiber (k : Kernel) (cur : Task) (env : Env) : Except Fault Reply :=
  let (args, k₁) := kzalloc k (env.kzalloc .createArg)
  let (fiber, k₂) := kzalloc k₁ (env.kzalloc .fiberArg)
  match args with
  | none => .error .nullPointer
  | some a =>
      if !env.copyFromUser then reply cur k₂ (-1)
      else
        match searchProcess k₂ cur.tgid with
        | none => reply cur k₂ (-1)
        | some process =>
            match searchThread cur.pid process.obj with
            | none => reply cur (kfree k₂ a) (-1)
            | some _ =>
                match fiber with
                | none => .error .nullPointer
                | some f =>
                    let index := process.obj.fiberId
                    let p := process.obj.create f (createdFiber cur env.createArg index)
                    reply cur (kfree (k₂.setProcess process.addr p) a) index

/-! ## `SWITCHTOFIBER` -/

/-- The accounting of a fiber that is switched away from. -/
def FiberArg.stop (f : FiberArg) (now : Timespec) : FiberArg :=
  if f.startingTime ≠ 0 then
    { f with
      running := false
      totalTime := f.totalTime + (now.nanoseconds - f.startingTime) / 1000 }
  else { f with running := false }

/-- The reading of the clock that starts the target of a switch: it is the
second one when the old fiber was timed. -/
def FiberArg.startClock (old : FiberArg) (env : Env) : Timespec :=
  if old.startingTime ≠ 0 then env.clock 1 else env.clock 0

/-- The accounting of a fiber that is switched to. -/
def FiberArg.start (f : FiberArg) (now : Timespec) : FiberArg :=
  { f with
    running := true
    activations := f.activations + 1
    startingTime := now.nanoseconds }

/-- The context saved in a fiber. -/
def FiberArg.save (f : FiberArg) (c : Context) : FiberArg :=
  { f with regs := c.regs, fpuReg := c.fpu }

/-- A switch to a running fiber is counted. -/
def FiberArg.fail (f : FiberArg) : FiberArg :=
  { f with failedActivations := f.failedActivations + 1 }

/-- The record after the fiber `a` of the thread was saved and stopped and the
fiber `target` was started. -/
def ProcessArg.switch (p : ProcessArg) (cur : Task) (env : Env) (thread a : ℕ)
    (old : FiberArg) (target : ℕ) : ProcessArg :=
  let saved := p.fibers.modify a fun f => f.save cur.toContext
  let stopped := saved.modify a fun f => f.stop (env.clock 0)
  { p with
    fibers := stopped.modify target fun f => f.start (old.startClock env)
    threads := p.threads.modify thread fun t => { t with activeFiber := some target } }

/-- `SWITCHTOFIBER`. -/
def switchToFiber (k : Kernel) (cur : Task) (arg : Word) (env : Env) : Except Fault Reply :=
  match searchProcess k cur.tgid with
  | none => reply cur k (-1)
  | some process =>
      let p := process.obj
      match searchFiber (arg.setWidth 32) p with
      | none => reply cur k (-1)
      | some fiber =>
          if fiber.obj.running then
            let fibers := p.fibers.modify fiber.addr FiberArg.fail
            reply cur (k.setProcess process.addr { p with fibers := fibers }) (-1)
          else
            match searchThread cur.pid p with
            | none => reply cur k (-1)
            | some thread => do
                let (a, old) ← derefFiber p.fibers thread.obj.activeFiber
                let saved := p.fibers.modify a fun f => f.save cur.toContext
                let (_, next) ← derefFiber saved (some fiber.addr)
                let p := p.switch cur env thread.addr a old fiber.addr
                return ⟨0, k.setProcess process.addr p, ⟨next.regs, next.fpuReg⟩, none⟩

/-! ## Fiber local storage -/

/-- The write of the active fiber of a thread. -/
def Kernel.setFiber (k : Kernel) (process : Entry ProcessArg) (a : ℕ) (f : FiberArg) : Kernel :=
  k.setProcess process.addr
    { process.obj with fibers := process.obj.fibers.modify a fun _ => f }

/-- The scan of `find_first_zero_bit` from bit `i` over `n` bits. -/
def zeroBitFrom (f : FiberArg) : ℕ → ℕ → Except Fault ℕ
  | 0, i => .ok i
  | n + 1, i =>
      match f.bit i with
      | none => .error (.flsStorage i)
      | some false => .ok i
      | some true => zeroBitFrom f n (i + 1)

/-- `find_first_zero_bit(fiber->fls_bitmap, MAX_FLS)`. -/
def findFirstZeroBit (f : FiberArg) : Except Fault ℕ := zeroBitFrom f maxFls 0

/-- `test_bit(index, fiber->fls_bitmap)`, which checks no bound. -/
def testBit (f : FiberArg) (index : ℤ) : Except Fault Bool :=
  if index < 0 then .error (.flsStorage index)
  else
    match f.bit index.toNat with
    | none => .error (.flsStorage index)
    | some b => .ok b

/-- `clear_bit(index, fiber->fls_bitmap)`. -/
def clearBit (f : FiberArg) (index : ℤ) : Except Fault FiberArg := do
  let _ ← testBit f index
  return f.setBit index.toNat false

/-- `FLSALLOC`. -/
def flsAlloc (k : Kernel) (cur : Task) : Except Fault Reply :=
  match searchProcess k cur.tgid with
  | none => reply cur k (-1)
  | some process =>
      match searchThread cur.pid process.obj with
      | none => reply cur k (-1)
      | some thread => do
          let (a, fiber) ← derefFiber process.obj.fibers thread.obj.activeFiber
          let index ← findFirstZeroBit fiber
          if index = maxFls then reply cur k (-1)
          else
            let fiber := fiber.setBit index true
            let fiber := { fiber with flsArray := Function.update fiber.flsArray index 0 }
            reply cur (k.setFiber process a fiber) index

/-- `FLSFREE`.  It gives `true` or `false`. -/
def flsFree (k : Kernel) (cur : Task) (arg : Word) : Except Fault Reply :=
  match searchProcess k cur.tgid with
  | none => reply cur k 0
  | some process =>
      match searchThread cur.pid process.obj with
      | none => reply cur k 0
      | some thread =>
          if 0 < arg.toInt ∧ arg.toInt < maxFls then do
            let (a, fiber) ← derefFiber process.obj.fibers thread.obj.activeFiber
            let fiber ← clearBit fiber arg.toInt
            reply cur (k.setFiber process a fiber) 1
          else reply cur k 0

/-- `FLSGETVALUE`, with the reading of `test_bit` as a parameter. -/
def flsGetValueWith (test : FiberArg → ℤ → Except Fault Bool) (k : Kernel) (cur : Task)
    (env : Env) : Except Fault Reply :=
  match kzalloc k (env.kzalloc .flsArg) with
  | (none, k) => reply cur k (-enomem)
  | (some args, k) =>
      if !env.copyFromUser then reply cur k (-1)
      else
        match searchProcess k cur.tgid with
        | none => reply cur k (-1)
        | some process =>
            match searchThread cur.pid process.obj with
            | none => reply cur (kfree k args) (-1)
            | some thread => do
                let (_, fiber) ← derefFiber process.obj.fibers thread.obj.activeFiber
                let index := env.flsArg.dwFlsIndex
                if ← test fiber index.toInt then
                  if !env.copyToUser then reply cur k (-1)
                  else
                    let out : FlsArg := ⟨index, fiber.flsArray index.toNat⟩
                    return ⟨1, kfree k args, cur.toContext, some out⟩
                else reply cur (kfree k args) (-1)

/-- `FLSGETVALUE`. -/
def flsGetValue : Kernel → Task → Env → Except Fault Reply := flsGetValueWith testBit

/-- `FLSSETVALUE`, with the reading of `test_bit` as a parameter. -/
def flsSetValueWith (test : FiberArg → ℤ → Except Fault Bool) (k : Kernel) (cur : Task)
    (env : Env) : Except Fault Reply :=
  match kzalloc k (env.kzalloc .flsArg) with
  | (none, k) => reply cur k (-enomem)
  | (some args, k) =>
      if !env.copyFromUser then reply cur k (-1)
      else
        match searchProcess k cur.tgid with
        | none => reply cur k (-1)
        | some process =>
            match searchThread cur.pid process.obj with
            | none => reply cur (kfree k args) 0
            | some thread => do
                let (a, fiber) ← derefFiber process.obj.fibers thread.obj.activeFiber
                let index := env.flsArg.dwFlsIndex
                if ← test fiber index.toInt then
                  let values := Function.update fiber.flsArray index.toNat env.flsArg.lpFlsData
                  reply cur (kfree (k.setFiber process a { fiber with flsArray := values }) args) 0
                else reply cur (kfree k args) 0

/-- `FLSSETVALUE`. -/
def flsSetValue : Kernel → Task → Env → Except Fault Reply := flsSetValueWith testBit

/-! ## The two entry points -/

/-- `my_ioctl`. -/
def myIoctl (k : Kernel) (cur : Task) (cmd : Command) (arg : Word) (env : Env) :
    Except Fault Reply :=
  match cmd with
  | .convertToFiber => convertToFiber k cur env
  | .createFiber => createFiber k cur env
  | .switchToFiber => switchToFiber k cur arg env
  | .flsAlloc => flsAlloc k cur
  | .flsFree => flsFree k cur arg
  | .flsGetValue => flsGetValue k cur env
  | .flsSetValue => flsSetValue k cur env
  | .other => reply cur k 0

/-- The record after a thread and its active fiber were removed. -/
def ProcessArg.exit (p : ProcessArg) (t f : ℕ) : ProcessArg :=
  { p with fibers := p.fibers.hashDel f, threads := p.threads.hashDel t }

/-- `Pre_Handler`, for the current thread that exits. -/
def preHandler (k : Kernel) (proId thrId : Pid) : Except Fault Kernel :=
  match searchProcess k proId with
  | none => .ok k
  | some process =>
      match searchThread thrId process.obj with
      | none => .ok k
      | some thread => do
          let (f, _) ← derefFiber process.obj.fibers thread.obj.activeFiber
          let k := k.setProcess process.addr (process.obj.exit thread.addr f)
          let k := kfree (kfree { k with countThreads := k.countThreads - 1 } thread.addr) f
          if k.countThreads = 0 then
            return kfree { k with listProcess := k.listProcess.hashDel process.addr } process.addr
          else return k

end LinuxFibers.Module
