import LinuxFibers.Module.Types

/-!
# The data of the single-threaded module

The structures of `single_thread/Module/fiber_ioctl.h`.  The registers, the FPU
image, the hash functions and the numbering of objects are those of the
multi-threaded module.

* A fiber has two more allocations, its `struct pt_regs` and its `struct fpu`.
  Each belongs to one fiber, so its contents stand in the record in the place of
  the pointer.
* `kmalloc` does not clear.  What the memory held is given by the environment of
  a request.
* The fields `fls_in` and `set_bitmap` of a fiber are never used.
-/

namespace LinuxFibers.Single

open LinuxFibers.Lib LinuxFibers.Module

/-! ## `fiber_arg_t`, `thread_arg_t` and `process_arg_t` -/

/-- `fiber_arg_t`.  `flsBitmap` has `sizeof(MAX_FLS)` bits, which is one word. -/
structure FiberArg where
  running : Bool
  index : ℕ
  regs : PtRegs
  flsBitmap : Word
  flsArray : ℕ → Word
  fpuReg : Fpu

/-- `thread_arg_t`. -/
structure ThreadArg where
  pid : Pid
  activeFiber : Option ℕ

/-- `process_arg_t`. -/
structure ProcessArg where
  pid : Pid
  fibers : HashTable FiberArg
  threads : HashTable ThreadArg
  fiberId : ℕ

/-- The globals of the module.  `brk` is the number of the next object. -/
structure Kernel where
  listProcess : HashTable ProcessArg
  brk : ℕ

/-- The state after `fiber_ioctl_init`. -/
def Kernel.init : Kernel := ⟨[], 0⟩

/-! ## The bits behind `fls_bitmap`

After the one word of `fls_bitmap` come the words of `fls_array`.  What follows
them, the pointer to the FPU image, has no bits here. -/

/-- The slot of `fls_array` that holds bit `i`. -/
def slotOfBit (i : ℕ) : ℕ := i / 64 - 1

/-- The read of bit `i`. -/
def FiberArg.bit (f : FiberArg) (i : ℕ) : Option Bool :=
  if i < 64 then some (f.flsBitmap.getLsbD i)
  else if slotOfBit i < maxFls then some ((f.flsArray (slotOfBit i)).getLsbD (i % 64))
  else none

/-- The write of bit `i`. -/
def FiberArg.setBit (f : FiberArg) (i : ℕ) (b : Bool) : FiberArg :=
  if i < 64 then { f with flsBitmap := putBit f.flsBitmap i b }
  else
    let slot := slotOfBit i
    { f with
      flsArray := Function.update f.flsArray slot (putBit (f.flsArray slot) (i % 64) b) }

/-! ## Searches -/

/-- `search_process`. -/
def searchProcess (k : Kernel) (procId : Pid) : Option (Entry ProcessArg) :=
  k.listProcess.search (hash32 procId) fun p => p.pid == procId

/-- `search_thread`. -/
def searchThread (thrId : Pid) (process : ProcessArg) : Option (Entry ThreadArg) :=
  process.threads.search (hash32 thrId) fun t => t.pid == thrId

/-- `search_fiber`, which passes running fibers by. -/
def searchFiber (index : BitVec 32) (process : ProcessArg) : Option (Entry FiberArg) :=
  process.fibers.search (hash32 index) fun f => f.index == intToUlong index && !f.running

end LinuxFibers.Single
