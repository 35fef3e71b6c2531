import LinuxFibers.Lib.HashTable
import Mathlib.Data.Int.Notation
import Mathlib.Data.Nat.Notation
import Mathlib.Logic.Function.Basic

/-!
# The data of the multi-threaded module

The structures of `multi_thread/Module/fiber_ioctl.h`, the two hash functions
of the tables, and the part of the machine that the module reads and writes.

* A pointer is the number of an allocation.  Freed memory is not given out
  again.
* The `int` and `unsigned long` values of the machine are bit vectors.  The
  counters `fiber_id`, `index` and the activations have 64 bits and only grow
  by one, so they are numbers.
* The locks are left out, because a request is one step.
* `hlist_node` fields are the links of `HashTable`.
-/

namespace LinuxFibers.Module

open LinuxFibers.Lib

/-- `pid_t`. -/
abbrev Pid := BitVec 32

/-- `unsigned long`. -/
abbrev Word := BitVec 64

/-- `MAX_FLS`. -/
def maxFls : ℕ := 4096

/-! ## Registers -/

/-- The fields of `struct pt_regs`. -/
inductive Reg where
  | r15 | r14 | r13 | r12 | bp | bx | r11 | r10 | r9 | r8 | ax | cx | dx | si | di
  | origAx | ip | cs | flags | sp | ss
  deriving DecidableEq

/-- The words of `struct pt_regs` in memory order. -/
def Reg.layout : List Reg :=
  [.r15, .r14, .r13, .r12, .bp, .bx, .r11, .r10, .r9, .r8, .ax, .cx, .dx, .si, .di,
    .origAx, .ip, .cs, .flags, .sp, .ss]

/-- `struct pt_regs`. -/
abbrev PtRegs := Reg → Word

/-- The image that `fxsave` writes and `fxrstor` reads. -/
abbrev Fpu := BitVec 4096

/-- `task_pt_regs(current)` and the FPU registers of the current task. -/
structure Context where
  regs : PtRegs
  fpu : Fpu

/-- `current`: its `tgid`, its `pid` and its context. -/
structure Task extends Context where
  tgid : Pid
  pid : Pid

/-- `struct timespec`. -/
structure Timespec where
  tvSec : Word
  tvNsec : Word

/-- The nanoseconds that the module computes from a `timespec`. -/
def Timespec.nanoseconds (ts : Timespec) : Word := ts.tvNsec + ts.tvSec * 1000000000

/-! ## `fiber_arg_t`, `thread_arg_t` and `process_arg_t` -/

/-- `fiber_arg_t`.  `flsBitmap` has `sizeof(MAX_FLS)` bits, which is one word. -/
structure FiberArg where
  flsBitmap : Word
  regs : PtRegs
  fpuReg : Fpu
  index : ℕ
  threadId : Pid
  startingPoint : Word
  flsArray : ℕ → Word
  activations : ℕ
  failedActivations : ℕ
  startingTime : Word
  totalTime : Word
  name : List Char
  running : Bool

/-- `thread_arg_t`. -/
structure ThreadArg where
  pid : Pid
  activeFiber : Option ℕ

/-- `process_arg_t`. -/
structure ProcessArg where
  pid : Pid
  fiberId : ℕ
  fibers : HashTable FiberArg
  threads : HashTable ThreadArg

/-- The globals of the module, and the objects of `kzalloc` that are not freed.
`brk` is the number of the next object. -/
structure Kernel where
  listProcess : HashTable ProcessArg
  countThreads : ℤ
  allocated : List ℕ
  brk : ℕ

/-- The state after `fiber_ioctl_init`. -/
def Kernel.init : Kernel := ⟨[], 0, [], 0⟩

/-- `snprintf(fiber->name, 8, "%lu", index)`. -/
def fiberName (index : ℕ) : List Char := (Nat.toDigits 10 index).take 7

/-! ## The bits behind `fls_bitmap`

`set_bit` and its relatives count bits from the start of the bitmap and know no
end.  After the one word of `fls_bitmap` come the words of `regs`.  What follows
them, the list pointers and the FPU image, has no bits here. -/

/-- The word with bit `j` set to `b`. -/
def putBit (w : Word) (j : ℕ) (b : Bool) : Word :=
  if b then w ||| BitVec.twoPow 64 j else w &&& ~~~ BitVec.twoPow 64 j

/-- The register that holds bit `i`. -/
def regOfBit (i : ℕ) : Option Reg := if i < 64 then none else Reg.layout[i / 64 - 1]?

/-- The read of bit `i`. -/
def FiberArg.bit (f : FiberArg) (i : ℕ) : Option Bool :=
  if i < 64 then some (f.flsBitmap.getLsbD i)
  else (regOfBit i).map fun r => (f.regs r).getLsbD (i % 64)

/-- The write of bit `i`. -/
def FiberArg.setBit (f : FiberArg) (i : ℕ) (b : Bool) : FiberArg :=
  if i < 64 then { f with flsBitmap := putBit f.flsBitmap i b }
  else match regOfBit i with
    | some r => { f with regs := Function.update f.regs r (putBit (f.regs r) (i % 64) b) }
    | none => f

/-! ## Hash functions and searches -/

/-- `hash_32` to 10 bits, the bucket of a key of at most four bytes. -/
@[irreducible] def hash32 (key : BitVec 32) : ℕ := ((key * 0x61C88647#32) >>> 22).toNat

/-- `hash_64` to 10 bits, the bucket of a longer key. -/
@[irreducible] def hash64 (key : BitVec 64) : ℕ := ((key * 0x61C8864680B583EB#64) >>> 54).toNat

/-- The bucket in which a fiber is inserted: its key is an `unsigned long`. -/
def fiberBucket (index : ℕ) : ℕ := hash64 (BitVec.ofNat 64 index)

/-- The value of an `int` in a comparison with an `unsigned long`. -/
def intToUlong (index : BitVec 32) : ℕ := (index.signExtend 64).toNat

/-- `search_process`. -/
def searchProcess (k : Kernel) (procId : Pid) : Option (Entry ProcessArg) :=
  k.listProcess.search (hash32 procId) fun p => p.pid == procId

/-- `search_thread`. -/
def searchThread (thrId : Pid) (process : ProcessArg) : Option (Entry ThreadArg) :=
  process.threads.search (hash32 thrId) fun t => t.pid == thrId

/-- `search_fiber`. -/
def searchFiber (index : BitVec 32) (process : ProcessArg) : Option (Entry FiberArg) :=
  process.fibers.search (hash32 index) fun f => f.index == intToUlong index

end LinuxFibers.Module
