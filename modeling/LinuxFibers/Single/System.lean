import LinuxFibers.Single.Ioctl

/-!
# Runs of the single-threaded module

The kernel together with the context of every thread, and the actions of the
threads, as for the multi-threaded module.
-/

namespace LinuxFibers.Single

open LinuxFibers.Lib LinuxFibers.Module

/-- The kernel, and the context of the thread with a `tgid` and a `pid`. -/
structure System where
  kernel : Kernel
  context : Pid × Pid → Context

/-- The system after the module was loaded. -/
def System.init (context : Pid × Pid → Context) : System := ⟨Kernel.init, context⟩

/-- A step of the thread `pid` of the process `tgid`. -/
inductive Action where
  | user (tgid pid : Pid) (c : Context)
  | ioctl (tgid pid : Pid) (cmd : Command) (arg : Word) (env : Env)
  | exit (tgid pid : Pid)

/-- The record of a process. -/
def Kernel.record (k : Kernel) (id : Pid) : Option ProcessArg :=
  (searchProcess k id).map Entry.obj

namespace System

/-- `current` when the thread makes a request. -/
def task (s : System) (tgid pid : Pid) : Task :=
  { s.context (tgid, pid) with tgid := tgid, pid := pid }

/-- A request of a thread. -/
def request (s : System) (tgid pid : Pid) (cmd : Command) (arg : Word) (env : Env) :
    Except Fault Reply :=
  myIoctl s.kernel (s.task tgid pid) cmd arg env

/-- The system after a request, with the value of the request in `ax`. -/
def resume (s : System) (tgid pid : Pid) (r : Reply) : System where
  kernel := r.kernel
  context := Function.update s.context (tgid, pid)
    { r.context with regs := Function.update r.context.regs .ax (BitVec.ofInt 64 r.ret) }

/-- One action. -/
def exec (s : System) : Action → Except Fault System
  | .user tgid pid c => .ok { s with context := Function.update s.context (tgid, pid) c }
  | .ioctl tgid pid cmd arg env => do
      let r ← s.request tgid pid cmd arg env
      return s.resume tgid pid r
  | .exit tgid pid => do
      let k ← preHandler s.kernel tgid pid
      return { s with kernel := k }

/-- The index of the active fiber of a thread. -/
def activeIndex (s : System) (tgid pid : Pid) : Option ℕ := do
  let p ← s.kernel.record tgid
  let thread ← searchThread pid p
  let a ← thread.obj.activeFiber
  let f ← p.fibers.deref a
  return f.index

end System

/-- The actions that return. -/
def Step (s : System) (a : Action) (t : System) : Prop := s.exec a = .ok t

/-! ## A concrete environment -/

/-- Everything succeeds, and new memory holds the given words. -/
def Env.good (createArg : CreateArg) (flsArg : FlsArg) (memory : Word) : Env where
  kmalloc := fun _ => true
  kmallocRegs := true
  kmallocFpu := true
  createArg := createArg
  flsArg := flsArg
  oldFiber := ⟨true, memory.toNat, fun _ => memory, memory, fun _ => memory, memory.setWidth 4096⟩
  oldFpu := memory.setWidth 4096

end LinuxFibers.Single
