import LinuxFibers.Lib.SystemCall
import LinuxFibers.Module.System

/-!
# The calls of the library

The functions of `multi_thread/src/function_calls.c` on fiber local storage that
ask the module for something and judge its answer.  A call opens the device when
no call did before, and goes to the module through `ioctl`, which gives the
`int` of `callInt`.
-/

namespace LinuxFibers.Module

open LinuxFibers.Lib

/-- The globals of the library as a call finds them: whether the device is open
already (`done`), and whether `init_file` would open it. -/
structure Library where
  done : Bool
  opens : Bool

namespace Library

/-- The call has a descriptor of the device. -/
def ready (lib : Library) : Bool := lib.done || lib.opens

/-- `ioctl(fd, cmd, arg)`, which fails on a bad descriptor. -/
def ioctl (lib : Library) (s : System) (tgid pid : Pid) (cmd : Command) (arg : Word)
    (env : Env) : Except Fault (BitVec 32 × System) :=
  if lib.ready then do
    let r ← s.request tgid pid cmd arg env
    return (callInt r.ret, s.resume tgid pid r)
  else .ok (-1, s)

/-- `FlsAlloc`. -/
def flsAlloc (lib : Library) (s : System) (tgid pid : Pid) (env : Env) :
    Except Fault (Word × System) := do
  let (ret, s) ← lib.ioctl s tgid pid .flsAlloc 0 env
  return (ret.signExtend 64, s)

/-- `FlsFree`. -/
def flsFree (lib : Library) (s : System) (tgid pid : Pid) (dwFlsIndex : Word) (env : Env) :
    Except Fault (Bool × System) := do
  let (ret, s) ← lib.ioctl s tgid pid .flsFree dwFlsIndex env
  return (if ret = -1 then false else true, s)

end Library

end LinuxFibers.Module
