import LinuxFibers.Module.Requests

/-!
# Runs of the module

The kernel together with the context of every thread.  An action is a change of
a thread's own registers in user mode, a request, or the exit of a thread.  A
request ends with its value in `ax`.
-/

namespace LinuxFibers.Module

open LinuxFibers.Lib

/-- The kernel, and the context of the thread with a `tgid` and a `pid`. -/
structure System where
  kernel : Kernel
  context : Pid × Pid → Context

/-- The system after the module was loaded. -/
def System.init (context : Pid × Pid → Context) : System := ⟨Kernel.init, context⟩

/-- A step of the thread `pid` of the process `tgid`. -/
inductive Action where
  | user (tgid pid : Pid) (c : Context)
  | ioctl (tgid pid : Pid) (cmd : Command) (arg : Word) (env : Env)
  | exit (tgid pid : Pid)

namespace System

/-- `current` when the thread makes a request. -/
def task (s : System) (tgid pid : Pid) : Task :=
  { s.context (tgid, pid) with tgid := tgid, pid := pid }

/-- A request of a thread. -/
def request (s : System) (tgid pid : Pid) (cmd : Command) (arg : Word) (env : Env) :
    Except Fault Reply :=
  myIoctl s.kernel (s.task tgid pid) cmd arg env

/-- The system after a request, with the value of the request in `ax`. -/
def resume (s : System) (tgid pid : Pid) (r : Reply) : System where
  kernel := r.kernel
  context := Function.update s.context (tgid, pid)
    { r.context with regs := Function.update r.context.regs .ax (BitVec.ofInt 64 r.ret) }

/-- One action. -/
def exec (s : System) : Action → Except Fault System
  | .user tgid pid c => .ok { s with context := Function.update s.context (tgid, pid) c }
  | .ioctl tgid pid cmd arg env => do
      let r ← s.request tgid pid cmd arg env
      return s.resume tgid pid r
  | .exit tgid pid => do
      let k ← preHandler s.kernel tgid pid
      return { s with kernel := k }

end System

/-- The actions that return. -/
def Step (s : System) (a : Action) (t : System) : Prop := s.exec a = .ok t

/-- An action that makes no other request than the three on fibers. -/
def Action.onFibers : Action → Prop
  | .ioctl _ _ cmd _ _ => cmd = .convertToFiber ∨ cmd = .createFiber ∨ cmd = .switchToFiber
  | _ => True

/-- An action in which no allocation fails. -/
def Action.allocates : Action → Prop
  | .ioctl _ _ _ _ env => ∀ kind, env.kzalloc kind = true
  | _ => True

/-- The actions without FLS that return. -/
def FiberStep (s : System) (a : Action) (t : System) : Prop := a.onFibers ∧ Step s a t

variable {s t : System} {tgid pid : Pid} {cmd : Command} {arg : Word} {env : Env}

theorem step_ioctl (h : Step s (.ioctl tgid pid cmd arg env) t) :
    ∃ r, s.request tgid pid cmd arg env = .ok r ∧ t = s.resume tgid pid r := by
  obtain ⟨r, hr, ht⟩ := of_bind h
  cases ht
  exact ⟨r, hr, rfl⟩

theorem step_exit (h : Step s (.exit tgid pid) t) :
    ∃ k, preHandler s.kernel tgid pid = .ok k ∧ t = { s with kernel := k } := by
  obtain ⟨k, hk, ht⟩ := of_bind h
  cases ht
  exact ⟨k, hk, rfl⟩

/-- A run of concrete actions under a condition. -/
theorem exists_run_of (ok : System → Action → Bool) (s : System) (as : List Action)
    (p : System → Bool) (h : (replay System.exec ok s as).any p = true) :
    ∃ t, Run (fun s a t => ok s a = true ∧ Step s a t) s as t ∧ p t = true :=
  Lib.exists_run System.exec ok s as p h

/-- A run of concrete actions. -/
theorem exists_run (s : System) (as : List Action) (p : System → Bool)
    (h : (replay System.exec (fun _ _ => true) s as).any p = true) :
    ∃ t, Run Step s as t ∧ p t = true := by
  obtain ⟨t, ht, hp⟩ := exists_run_of _ s as p h
  exact ⟨t, ht.mono fun _ _ _ h => h.2, hp⟩

/-- A run of concrete actions under a condition, with its history. -/
theorem exists_history_of (ok : System → Action → Bool) (s : System) (as : List Action)
    (p : List (System × Action) → System → Bool)
    (h : (replay System.exec ok s as).any (p (history System.exec s as)) = true) :
    ∃ tr t, Run (Recorded fun s a t => ok s a = true ∧ Step s a t) s tr t ∧ p tr t = true :=
  Lib.exists_history System.exec ok s as p h

/-- A property of the kernel that every request and every exit keeps. -/
theorem kernel_step {I : Kernel → Prop}
    (hrequest : ∀ k cur cmd arg env r, I k → myIoctl k cur cmd arg env = .ok r → I r.kernel)
    (hexit : ∀ k proId thrId k', I k → preHandler k proId thrId = .ok k' → I k')
    {a : Action} (hs : I s.kernel) (h : Step s a t) : I t.kernel := by
  cases a with
  | user tgid pid c =>
    cases h
    exact hs
  | ioctl tgid pid cmd arg env =>
    obtain ⟨r, hr, rfl⟩ := step_ioctl h
    exact hrequest _ _ _ _ _ _ hs hr
  | exit tgid pid =>
    obtain ⟨k, hk, rfl⟩ := step_exit h
    exact hexit _ _ _ _ hs hk

/-! ## A concrete environment -/

/-- Everything succeeds, and the user's memory and the clock hold the given
words. -/
def Env.good (createArg : CreateArg) (flsArg : FlsArg) (seconds : Word) : Env where
  kzalloc := fun _ => true
  copyFromUser := true
  copyToUser := true
  createArg := createArg
  flsArg := flsArg
  clock := fun _ => ⟨seconds, 0⟩

/-- An environment for a request that reads nothing from the user. -/
def Env.plain : Env := Env.good ⟨0, 0, 0⟩ ⟨0, 0⟩ 1

/-- Registers and FPU images that are all zero. -/
def zeroContext : Pid × Pid → Context := fun _ => ⟨fun _ => 0, 0⟩

end LinuxFibers.Module
