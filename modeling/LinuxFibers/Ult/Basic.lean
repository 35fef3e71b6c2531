import LinuxFibers.Lib.Run
import Mathlib.Data.Nat.Notation
import Mathlib.Logic.Function.Basic

/-!
# User-space fibers

The fibers of `multi_thread/src/ult.c` and `ult.h`, in atomic steps of any
number of threads: the test-and-set of a `running` flag, the update of the
thread-local `current`, the save of a context by `set_jmp`, the release of a
flag by `ult_unlock` and the change of the stack by `long_jmp`.

* A fiber is named by its `id`, which `ult_id` gives out once.
* The three uses of the macros `context_switch` and `context_switch_create` are
  one sequence of steps with the operands of `ContextSwitch`.  The operands are
  read again at each step, as the macros do with `current` and `context_creat`.
* A saved context is the place where `set_jmp` returns again and the saved
  `rax`.  What `set_jmp` returns there is the second argument of `long_jmp` as an
  `int`, and when this is 0 the code runs into the branch of the macro once more.
* `raise` runs the trampoline on the new stack, which only saves the context of
  the new fiber, so this is part of the step that allocates it.
* A fiber can be given to `ult_switch_to` from the moment `ult_creat` or
  `ult_convert` has returned it.
* `ult_lock` that finds the flag set spins, which is a step that changes
  nothing.
-/

namespace LinuxFibers.Ult

/-- `unsigned long long`. -/
abbrev Word := BitVec 64

/-- The uses of `context_switch(from, to)` in `ult_switch_to`,
`context_switch_create(current, context)` in `context_create` and
`context_switch(context_creat, current)` in `context_create_boot`. -/
inductive ContextSwitch where
  | ultSwitchTo (source target : ℕ)
  | contextCreate (ctx : ℕ)
  | contextCreateBoot
  deriving DecidableEq

/-- Where a saved context continues: in `context_create_trampoline`, in
`ult_convert` or behind the `set_jmp` of a macro. -/
inductive Resume where
  | trampoline
  | convert
  | switched (k : ContextSwitch)
  deriving DecidableEq

/-- `exec_context_t`. -/
structure ExecContext where
  resume : Resume
  rax : Word
  deriving DecidableEq

/-- The next step of a thread. -/
inductive Pc where
  /-- The code of a fiber. -/
  | user
  /-- `current = to` after a successful `ult_trylock`. -/
  | tried (source target : ℕ)
  /-- The `set_jmp` of a macro. -/
  | setJmp (k : ContextSwitch)
  /-- The `ult_unlock` of a macro. -/
  | unlock (k : ContextSwitch)
  /-- The `long_jmp` of a macro. -/
  | longJmp (k : ContextSwitch)
  /-- `ult_lock(context)` of `context_switch_create`. -/
  | lockNew (ctx : ℕ)
  /-- `ult_lock(current)` of `context_create_boot`. -/
  | lockCreator
  deriving DecidableEq

/-- A thread: the fiber on whose stack it executes, its thread-local variables
`current` and `context_creat`, and its next step. -/
structure Thread where
  stack : Option ℕ
  current : Option ℕ
  contextCreat : Option ℕ
  pc : Pc
  deriving DecidableEq

/-- A thread on its first stack. -/
def Thread.start : Thread := ⟨none, none, none, .user⟩

/-- The fields `running` and `context` of the fibers, the fibers that were
returned to the program, `ult_id` and the threads.  What a context saves is `χ`
and what a thread has is `τ`. -/
structure Fibers (χ τ : Type) where
  running : ℕ → Bool
  context : ℕ → Option χ
  returned : List ℕ
  ultId : ℕ
  thread : ℕ → τ

namespace Fibers

variable {χ τ : Type}

/-- A thread that moves on. -/
def setThread (s : Fibers χ τ) (tid : ℕ) (th : τ) : Fibers χ τ :=
  { s with thread := Function.update s.thread tid th }

/-- The write of a flag. -/
def setRunning (s : Fibers χ τ) (f : ℕ) (b : Bool) : Fibers χ τ :=
  { s with running := Function.update s.running f b }

/-- The write of a context. -/
def setContext (s : Fibers χ τ) (f : ℕ) (c : χ) : Fibers χ τ :=
  { s with context := Function.update s.context f (some c) }

variable {s : Fibers χ τ} {f g q q' : ℕ}

@[simp] theorem setThread_self (th : τ) : (s.setThread q th).thread q = th :=
  show Function.update s.thread q th q = th from Function.update_self q th s.thread

theorem setThread_of_ne (h : q' ≠ q) (th : τ) :
    (s.setThread q th).thread q' = s.thread q' :=
  show Function.update s.thread q th q' = _ from Function.update_of_ne h th s.thread

@[simp] theorem setRunning_self (b : Bool) : (s.setRunning f b).running f = b :=
  show Function.update s.running f b f = b from Function.update_self f b s.running

theorem setRunning_of_ne (h : g ≠ f) (b : Bool) : (s.setRunning f b).running g = s.running g :=
  show Function.update s.running f b g = _ from Function.update_of_ne h b s.running

@[simp] theorem setContext_self (c : χ) : (s.setContext f c).context f = some c :=
  show Function.update s.context f (some c) f = _ from
    Function.update_self f (some c) s.context

theorem setContext_of_ne (h : g ≠ f) (c : χ) :
    (s.setContext f c).context g = s.context g :=
  show Function.update s.context f (some c) g = _ from
    Function.update_of_ne h (some c) s.context

end Fibers

/-- A program with its fibers. -/
abbrev State := Fibers ExecContext Thread

/-- The start of the program. -/
def State.init : State := ⟨fun _ => false, fun _ => none, [], 0, fun _ => Thread.start⟩

/-- What a thread does: it calls one of the functions, or takes the next step of
the call in progress. -/
inductive Act where
  | convert
  | switchTo (ult : Option ℕ)
  | creat
  | step
  deriving DecidableEq

/-- A step of the thread `tid`, and the value of `rax` at a `set_jmp`. -/
structure Turn where
  tid : ℕ
  act : Act
  rax : Word

/-- What stops a thread. -/
inductive Fault where
  | nullPointer
  | noContext
  | signalReturn
  | misuse
  deriving DecidableEq

namespace ContextSwitch

/-- `context_old`, for the thread-local variables of the thread. -/
def old (k : ContextSwitch) (current contextCreat : Option ℕ) : Option ℕ :=
  match k with
  | .ultSwitchTo source _ => some source
  | .contextCreate _ => current
  | .contextCreateBoot => contextCreat

/-- `context_new`. -/
def new (k : ContextSwitch) (current : Option ℕ) : Option ℕ :=
  match k with
  | .ultSwitchTo _ target => some target
  | .contextCreate ctx => some ctx
  | .contextCreateBoot => current

/-- The second argument of `long_jmp`, for the saved `rax` of the new context. -/
def value (k : ContextSwitch) (rax : Word) : Word :=
  match k with
  | .contextCreate _ => 1
  | _ => rax

end ContextSwitch

namespace State

/-- `set_jmp(..) == 0` for a value given to `long_jmp`: the result is an `int`. -/
def savesAgain (value : Word) : Bool := value.setWidth 32 == 0

/-- The thread on the stack of the fiber `f`, behind the `set_jmp` of the context
`c`, which returns `value`. -/
def resume (s : State) (tid f : ℕ) (c : ExecContext) (value : Word) : Except Fault State :=
  let th := { s.thread tid with stack := some f }
  match c.resume with
  | .trampoline =>
      if savesAgain value then .error .signalReturn
      else .ok (s.setThread tid { th with pc := .lockCreator })
  | .convert => .ok (s.setThread tid { th with current := some f, pc := .user })
  | .switched k =>
      if savesAgain value then .ok (s.setThread tid { th with pc := .unlock k })
      else
        match k with
        | .contextCreate ctx =>
            let s := { s with returned := ctx :: s.returned }
            .ok (s.setThread tid { th with pc := .user })
        | _ => .ok (s.setThread tid { th with pc := .user })

/-- `ult_convert`, called once by each thread. -/
def ultConvert (s : State) (tid : ℕ) (rax : Word) : Except Fault State :=
  let th := s.thread tid
  match th.stack with
  | some _ => .error .misuse
  | none =>
      let ctx := s.ultId
      let s := { s with ultId := ctx + 1, returned := ctx :: s.returned }
      let s := (s.setRunning ctx true).setContext ctx ⟨.convert, rax⟩
      .ok (s.setThread tid { th with stack := some ctx, current := some ctx })

/-- `ult_switch_to` up to the end of `ult_trylock`. -/
def ultSwitchTo (s : State) (tid : ℕ) (ult : Option ℕ) : Except Fault State :=
  let th := s.thread tid
  match ult with
  | none => .ok s
  | some target =>
      if target ∉ s.returned then .error .misuse
      else
        match th.current with
        | none => .error .nullPointer
        | some source =>
            if s.running target then .ok s
            else
              .ok ((s.setRunning target true).setThread tid { th with pc := .tried source target })

/-- `ult_creat` up to the return of `raise` in `context_create`. -/
def ultCreat (s : State) (tid : ℕ) (rax : Word) : Except Fault State :=
  let th := s.thread tid
  match th.current with
  | none => .error .nullPointer
  | some _ =>
      let ctx := s.ultId
      let s := { s with ultId := ctx + 1 }
      let s := (s.setRunning ctx false).setContext ctx ⟨.trampoline, rax⟩
      .ok (s.setThread tid { th with contextCreat := some ctx, pc := .lockNew ctx })

/-- A test-and-set of `ult_lock`. -/
def ultLock (s : State) (tid f : ℕ) (k : ContextSwitch) : Except Fault State :=
  if s.running f then .ok s
  else .ok ((s.setRunning f true).setThread tid { s.thread tid with pc := .setJmp k })

/-- One step of a thread. -/
def exec (s : State) (m : Turn) : Except Fault State :=
  let th := s.thread m.tid
  match th.pc, m.act with
  | .user, .convert => s.ultConvert m.tid m.rax
  | .user, .switchTo ult => s.ultSwitchTo m.tid ult
  | .user, .creat => s.ultCreat m.tid m.rax
  | .tried source target, .step =>
      .ok (s.setThread m.tid
        { th with current := some target, pc := .setJmp (.ultSwitchTo source target) })
  | .lockNew ctx, .step => s.ultLock m.tid ctx (.contextCreate ctx)
  | .lockCreator, .step =>
      match th.current with
      | none => .error .nullPointer
      | some c => s.ultLock m.tid c .contextCreateBoot
  | .setJmp k, .step =>
      match k.old th.current th.contextCreat with
      | none => .error .nullPointer
      | some f =>
          .ok ((s.setContext f ⟨.switched k, m.rax⟩).setThread m.tid { th with pc := .unlock k })
  | .unlock k, .step =>
      match k.old th.current th.contextCreat with
      | none => .error .nullPointer
      | some f => .ok ((s.setRunning f false).setThread m.tid { th with pc := .longJmp k })
  | .longJmp k, .step =>
      match k.new th.current with
      | none => .error .nullPointer
      | some f =>
          match s.context f with
          | none => .error .noContext
          | some c => s.resume m.tid f c (k.value c.rax)
  | _, _ => .error .misuse

end State

/-- The steps of the threads of a program. -/
def Step (threads : List ℕ) (s : State) (m : Turn) (t : State) : Prop :=
  m.tid ∈ threads ∧ s.exec m = .ok t

end LinuxFibers.Ult
