import LinuxFibers.Lib.Intervals
import LinuxFibers.Module.Ownership

/-!
# The module on several CPUs

`switch_handler` of `multi_thread/Module/proc.c` runs on a CPU after it changed
its task.  It charges the active fiber of the task before with the time since
`starting_time`, and sets `starting_time` for the active fiber of the new task.

A `Machine` has a number of CPUs, and with each the task that runs on it and the
variable `scheduled`.  The threads that are on a CPU act as in `System`, and a
context switch puts another task on a CPU and runs the handler there.

The purpose of the two times in a fiber is stated with the `Timeline` of the
fiber: its `total_time` is the time it was the active fiber of a thread on a CPU.
-/

namespace LinuxFibers.Module

open LinuxFibers.Lib HashTable

/-! ## `switch_handler` -/

/-- A `struct task_struct*`, by the `tgid` and the `pid` of the task.  `none` is
`NULL`, or the idle task of a CPU, which is in no process. -/
abbrev TaskPtr := Option (Pid × Pid)

/-- The record of the process of a task, and its thread there. -/
def findTask (k : Kernel) (task : TaskPtr) : Option (Entry ProcessArg × Entry ThreadArg) := do
  let (tgid, pid) ← task
  let process ← searchProcess k tgid
  let thread ← searchThread pid process.obj
  return (process, thread)

/-- The write of the active fiber of a task that is a converted thread. -/
def updateActive (k : Kernel) (task : TaskPtr) (g : FiberArg → FiberArg) : Except Fault Kernel :=
  match findTask k task with
  | none => .ok k
  | some (process, thread) => do
      let (a, fiber) ← derefFiber process.obj.fibers thread.obj.activeFiber
      return k.setFiber process a (g fiber)

/-- The time since `starting_time` is added to the total. -/
def FiberArg.charge (now : Timespec) (f : FiberArg) : FiberArg :=
  { f with totalTime := f.totalTime + (now.nanoseconds - f.startingTime) / 1000 }

/-- The time starts again. -/
def FiberArg.restart (now : Timespec) (f : FiberArg) : FiberArg :=
  { f with startingTime := now.nanoseconds }

/-- The number of the reading that starts the new task.  The clock is read before
it only when the old task is a converted thread. -/
def restartReading (k : Kernel) (oldTask : TaskPtr) : ℕ :=
  if (findTask k oldTask).isSome then 1 else 0

/-- `switch_handler`, on a CPU whose `scheduled` is `oldTask` and whose `current`
is `newTask`. -/
def switchHandler (k : Kernel) (oldTask newTask : TaskPtr) (clock : ℕ → Timespec) :
    Except Fault Kernel := do
  let k' ← updateActive k oldTask (FiberArg.charge (clock 0))
  updateActive k' newTask (FiberArg.restart (clock (restartReading k oldTask)))

/-! ## CPUs -/

/-- A machine with `n` CPUs.  `now` is the last reading of the clock. -/
structure Machine (n : ℕ) where
  system : System
  running : Fin n → TaskPtr
  scheduled : Fin n → TaskPtr
  now : ℕ

/-- The thread of an action. -/
def Action.thread : Action → Pid × Pid
  | .user tgid pid _ => (tgid, pid)
  | .ioctl tgid pid _ _ _ => (tgid, pid)
  | .exit tgid pid => (tgid, pid)

/-- An action of a thread, or a context switch of a CPU to the task `next`. -/
inductive CpuAction (n : ℕ) where
  | thread (a : Action)
  | contextSwitch (cpu : Fin n) (next : TaskPtr) (clock : ℕ → Timespec)

/-- The clock that an action reads. -/
def CpuAction.clock {n : ℕ} : CpuAction n → Option (ℕ → Timespec)
  | .thread (.ioctl _ _ _ _ env) => some env.clock
  | .contextSwitch _ _ clock => some clock
  | .thread _ => none

/-- The readings of a step are positive, and the clock does not go back. -/
def Ticks (now : ℕ) (clock : ℕ → Timespec) : Prop :=
  0 < (clock 0).nanoseconds.toNat ∧ now ≤ (clock 0).nanoseconds.toNat ∧
    (clock 0).nanoseconds.toNat ≤ (clock 1).nanoseconds.toNat

/-- The last reading after an action. -/
def CpuAction.later {n : ℕ} (a : CpuAction n) (now : ℕ) : ℕ :=
  match a.clock with
  | some clock => (clock 1).nanoseconds.toNat
  | none => now

/-- The address of the active fiber of a thread. -/
def Kernel.activeAddr (k : Kernel) (tgid pid : Pid) : Option ℕ := do
  let p ← k.record tgid
  let thread ← searchThread pid p
  thread.obj.activeFiber

namespace Machine

variable {n : ℕ}

/-- Empty tables, with `scheduled` set on every CPU. -/
def init (context : Pid × Pid → Context) (running : Fin n → TaskPtr) : Machine n :=
  ⟨System.init context, running, running, 0⟩

/-- One action. -/
def exec (m : Machine n) (a : CpuAction n) : Except Fault (Machine n) :=
  match a with
  | .thread b => do
      let s ← m.system.exec b
      return { m with system := s, now := a.later m.now }
  | .contextSwitch cpu next clock => do
      let k ← switchHandler m.system.kernel (m.scheduled cpu) next clock
      return {
        system := { m.system with kernel := k }
        running := Function.update m.running cpu next
        scheduled := Function.update m.scheduled cpu next
        now := a.later m.now }

/-- The thread of an action is on a CPU, and a context switch is to a task that
is on none. -/
def Allows (m : Machine n) : CpuAction n → Prop
  | .thread a => a.onFibers ∧ ∃ cpu, m.running cpu = some a.thread
  | .contextSwitch _ next _ => next ≠ none → ∀ cpu, m.running cpu ≠ next

/-- The fiber at `a` is the active fiber of the thread on the CPU. -/
def onCpu (m : Machine n) (tgid : Pid) (a : ℕ) (cpu : Fin n) : Bool :=
  match m.running cpu with
  | some (id, pid) => id == tgid && m.system.kernel.activeAddr id pid == some a
  | none => false

/-- The fiber at `a` is the active fiber of a thread that is on a CPU. -/
def on (m : Machine n) (tgid : Pid) (a : ℕ) : Bool := (List.finRange n).any (m.onCpu tgid a)

/-- The number of the reading with which an action starts a fiber: the one after
the stop of another fiber. -/
def startReading (m : Machine n) : CpuAction n → ℕ
  | .thread (.ioctl _ _ .switchToFiber _ _) => 1
  | .contextSwitch cpu _ _ => restartReading m.system.kernel (m.scheduled cpu)
  | _ => 0

/-- A reading of an action, or the last one before it when it takes none. -/
def reading (m : Machine n) (a : CpuAction n) (i : ℕ) : ℕ :=
  match a.clock with
  | some clock => (clock i).nanoseconds.toNat
  | none => m.now

/-- The look at a fiber that an action from `m` to `m'` gives. -/
def sample (tgid : Pid) (addr : ℕ) (x : Machine n × CpuAction n × Machine n) : Sample where
  on := x.2.2.on tgid addr
  stop := x.1.reading x.2.1 0
  start := x.1.reading x.2.1 (x.1.startReading x.2.1)

/-- The intervals in which the fiber at `addr` was the active fiber of a thread on
a CPU. -/
def timeline (tr : List (Machine n × CpuAction n × Machine n)) (tgid : Pid) (addr : ℕ) :
    Timeline :=
  Lib.timeline (tr.map (sample tgid addr))

end Machine

/-- A step of the machine, under a clock that does not go back. -/
def CpuStep {n : ℕ} (m : Machine n) (a : CpuAction n) (m' : Machine n) : Prop :=
  m.Allows a ∧ (∀ clock ∈ a.clock, Ticks m.now clock) ∧ m.exec a = .ok m'

/-! ## The conditions of a step can be evaluated -/

instance : DecidablePred Action.onFibers := fun a =>
  match a with
  | .ioctl _ _ cmd _ _ =>
      inferInstanceAs (Decidable (cmd = .convertToFiber ∨ cmd = .createFiber ∨
        cmd = .switchToFiber))
  | .user _ _ _ => .isTrue trivial
  | .exit _ _ => .isTrue trivial

instance {n : ℕ} (m : Machine n) : DecidablePred m.Allows := fun c =>
  match c with
  | .thread a => inferInstanceAs (Decidable (a.onFibers ∧ ∃ cpu, m.running cpu = some a.thread))
  | .contextSwitch _ next _ =>
      inferInstanceAs (Decidable (next ≠ none → ∀ cpu, m.running cpu ≠ next))

instance (now : ℕ) : DecidablePred (Ticks now) := fun clock =>
  inferInstanceAs (Decidable (0 < (clock 0).nanoseconds.toNat ∧
    now ≤ (clock 0).nanoseconds.toNat ∧
    (clock 0).nanoseconds.toNat ≤ (clock 1).nanoseconds.toNat))

end LinuxFibers.Module
