import LinuxFibers.Lib.Run
import LinuxFibers.Module.Hooks
import Mathlib.Logic.Function.Iterate

/-!
# Calls through the hooks

`fh_ftrace_thunk`, and the calls of functions of the kernel while the driver installs and
removes its hooks.  `fh_lookup` and `fh_readdir` call the function that they stand for
through a pointer.  `fibers_lookup` and `fibers_readdir` call it by its address.

* `LoadPc.next` takes `fh_init` and `fh_exit` apart into their calls (`init_reaches`,
  `exit_reaches`).
* The memory of the driver is freed after `fh_exit`, and when `fh_init` fails.  Nothing
  counts the calls that are in it.
* `do_exit` has a probe, which `fiber_ioctl_init` registers before `fh_init` and leaves
  registered when `fh_init` fails.

`calls_redirected` says what every call does, at any moment of a load or an unload: it
runs the original function once, behind at most one hook, and never through a pointer
that is not set.  `call_faults_iff` says which calls run into freed memory.
-/

namespace LinuxFibers.Module

open LinuxFibers.Lib

/-! ## The loader -/

/-- Where the driver is in `fh_init` or `fh_exit`.  `loaded` lies between them, and at
`gone` the memory of the driver is freed. -/
inductive LoadPc where
  | resolve (i : ℕ)
  | prepare (i : ℕ)
  | filter (i : ℕ)
  | register (i : ℕ)
  | unfilter (i : ℕ) (err : ℤ)
  | unwind (i : ℕ) (err : ℤ)
  | unwindFilter (i : ℕ) (err : ℤ)
  | kretprobe
  | loaded
  | remove (i : ℕ)
  | removeFilter (i : ℕ)
  | unprobe
  | gone
  deriving DecidableEq

/-- The next call, for a table of `count` hooks. -/
def LoadPc.next (a : Answers) (count : ℕ) : LoadPc × Tracing → LoadPc × Tracing
  | (.resolve i, s) =>
      if i < count then
        let (err, s) := fhResolveHookAddress a i s
        (if err ≠ 0 then .unwind i err else .prepare i, s)
      else (.kretprobe, { s with symbolName := some "finish_task_switch" })
  | (.prepare i, s) =>
      (.filter i, s.setOps i { (s.hooks i).ops with
        thunk := true, flags := [.saveRegs, .recursionSafe, .ipmodify] })
  | (.filter i, s) =>
      let (err, s) := ftraceSetFilterIp (a.ftraceSetFilterIp i) i s
      (if err ≠ 0 then .unwind i err else .register i, s)
  | (.register i, s) =>
      let (err, s) := registerFtraceFunction (a.registerFtraceFunction i) i s
      (if err ≠ 0 then .unfilter i err else .resolve (i + 1), s)
  | (.unfilter i err, s) => (.unwind i err, ftraceResetFilterIp i s)
  -- `fiber_ioctl_init` fails with the error of `fh_init`
  | (.unwind 0 err, s) => (if err < 0 then .gone else .loaded, s)
  | (.unwind (i + 1) err, s) => (.unwindFilter i err, unregisterFtraceFunction i s)
  | (.unwindFilter i err, s) => (.unwind i err, ftraceResetFilterIp i s)
  | (.kretprobe, s) =>
      let (ret, s) := registerKretprobe a.registerKretprobe s
      (if ret < 0 then .gone else .loaded, s)
  | (.loaded, s) => (.remove 0, s)
  | (.remove i, s) =>
      if i < count then (.removeFilter i, unregisterFtraceFunction i s) else (.unprobe, s)
  | (.removeFilter i, s) => (.remove (i + 1), ftraceResetFilterIp i s)
  | (.unprobe, s) => (.gone, unregisterKretprobe s)
  | (.gone, s) => (.gone, s)

/-! ## The calls -/

/-- Code of the driver that calls a function of the kernel: the function of a hook, and
a callback that calls the function at an address. -/
inductive Body where
  | hook (j : ℕ)
  | callback (address : Word)
  deriving DecidableEq

/-- Where a thread is in a call.  In `kernel` it is in the original function, with the
code of the driver that called it. -/
inductive CallPc where
  | outside
  | body (b : Body)
  | kernel (caller : Option Body)
  | back (b : Body)
  | returned
  deriving DecidableEq

/-- A call of the function at `called`, with the hooks that it went through and the
functions that it ran. -/
structure ProcCall where
  called : Word
  pc : CallPc
  hooked : List ℕ
  ran : List Word

/-- The driver, and the calls of the threads.  `kprobe` says that `Pre_Handler` is
registered for `do_exit`. -/
structure HookedCalls where
  loader : LoadPc
  kprobe : Bool
  tracing : Tracing
  call : Pid → ProcCall

/-- Why a step is not taken: the thread does not take such a step, it runs into freed
memory, or it calls `NULL`. -/
inductive CallFault where
  | disabled
  | freed
  | null
  deriving DecidableEq

/-- The steps.  A callback calls a function whose symbol the kernel knows.  `doExit` is
a call of `do_exit`: a handler of a probe is not interrupted. -/
inductive CallEvent where
  | loader
  | call (p : Pid) (address : Word)
  | callback (p : Pid) (address : Word)
  | go (p : Pid)
  | doExit (p : Pid)

/-- Whether `ftrace` calls the hook at the entry of the function at an address.  An
empty filter stands for all functions. -/
def FtraceHook.traces (h : FtraceHook) (address : Word) : Bool :=
  decide (0 < h.ops.registered) && (h.ops.filter.isEmpty || h.ops.filter.contains address)

namespace HookedCalls

variable (a : Answers) (count : ℕ)

/-- The entry of the function at an address.  `fh_ftrace_thunk` is code of the driver,
and redirects the calls that do not come from the driver. -/
def enter (s : HookedCalls) (caller : Option Body) (address : Word) (c : ProcCall) :
    Except CallFault ProcCall :=
  let original := { c with pc := .kernel caller, ran := c.ran ++ [address] }
  match (List.range count).find? fun j => (s.tracing.hooks j).traces address with
  | none => .ok original
  | some j =>
      if s.loader = .gone then .error .freed
      else if caller.isSome then .ok original
      else .ok { c with pc := .body (.hook j), hooked := c.hooked ++ [j] }

/-- The address that the code of the driver calls. -/
def target (s : HookedCalls) : Body → Word
  | .hook j => s.tracing.pointers (s.tracing.hooks j).original
  | .callback address => address

/-- A thread that is in no call. -/
def idle (s : HookedCalls) (p : Pid) : Bool :=
  match (s.call p).pc with
  | .outside => true
  | .returned => true
  | _ => false

/-- The next step of a call. -/
def advance (s : HookedCalls) (c : ProcCall) : Except CallFault ProcCall :=
  match c.pc with
  | .outside => .error .disabled
  | .body b =>
      if s.loader = .gone then .error .freed
      else if s.target b = 0 then .error .null
      else s.enter count (some b) (s.target b) c
  | .kernel none => .ok { c with pc := .returned }
  | .kernel (some b) => .ok { c with pc := .back b }
  | .back _ => if s.loader = .gone then .error .freed else .ok { c with pc := .returned }
  | .returned => .error .disabled

/-- A write to the call of a thread. -/
def setCall (s : HookedCalls) (p : Pid) (c : ProcCall) : HookedCalls :=
  { s with call := Function.update s.call p c }

/-- One step. -/
def exec (s : HookedCalls) : CallEvent → Except CallFault HookedCalls
  | .loader =>
      let r := LoadPc.next a count (s.loader, s.tracing)
      -- `fiber_ioctl_exit` calls `unregister_kprobe` before `fh_exit`
      let kprobe := s.kprobe && decide (s.loader ≠ .loaded)
      .ok { s with loader := r.1, tracing := r.2, kprobe := kprobe }
  | .call p address =>
      if s.idle p then (s.enter count none address ⟨address, .outside, [], []⟩).map (s.setCall p)
      else .error .disabled
  | .callback p address =>
      if s.idle p ∧ address ≠ 0 then
        if s.loader = .gone then .error .freed
        else .ok (s.setCall p ⟨address, .body (.callback address), [], []⟩)
      else .error .disabled
  | .go p => (s.advance count (s.call p)).map (s.setCall p)
  | .doExit p =>
      if s.idle p then if s.kprobe ∧ s.loader = .gone then .error .freed else .ok s
      else .error .disabled

/-- The driver before `fh_init`, with no calls.  `fiber_ioctl_init` has called
`register_kprobe`, and does not look at its value. -/
def start (kprobe : Bool) (tracing : Tracing) : HookedCalls :=
  ⟨.resolve 0, kprobe, tracing, fun _ => ⟨0, .outside, [], []⟩⟩

end HookedCalls

/-- The steps that are taken. -/
def CallStep (a : Answers) (count : ℕ) (s : HookedCalls) (e : CallEvent) (t : HookedCalls) : Prop :=
  s.exec a count e = .ok t

/-! ## The hooks in the course of a load -/

/-- The address of the function that the hook at a place is for. -/
def Tracing.function (s : Tracing) (a : Answers) (j : ℕ) : Word :=
  a.kallsymsLookupName j (s.hooks j).name

/-- The table before it is installed. -/
structure Tracing.Fresh (count : ℕ) (s : Tracing) : Prop where
  removed : ∀ j, j < count → (s.hooks j).Removed
  distinct : ∀ i j, i < count → j < count → (s.hooks i).original = (s.hooks j).original → i = j

/-- The errors of the functions of `ftrace` are negative. -/
structure Answers.Errno (a : Answers) : Prop where
  filter : ∀ i, a.ftraceSetFilterIp i ≤ 0
  register : ∀ i, a.registerFtraceFunction i ≤ 0

/-- `fh_init` fails. -/
def Answers.InitFails (a : Answers) (count : ℕ) (s : Tracing) : Prop :=
  (∃ i, i < count ∧ a.HookFails (s.hooks i).name i) ∨ a.registerKretprobe < 0

/-- `fh_init` installs the hooks, and fails at `register_kretprobe`. -/
def Answers.Stuck (a : Answers) (count : ℕ) (s : Tracing) : Prop :=
  a.registerKretprobe < 0 ∧ ∀ i, i < count → ¬a.HookFails (s.hooks i).name i

instance (a : Answers) (name : String) (i : ℕ) : Decidable (a.HookFails name i) :=
  inferInstanceAs (Decidable (_ ∨ _ ∨ _))

instance (a : Answers) (count : ℕ) (s : Tracing) : Decidable (a.Stuck count s) :=
  inferInstanceAs (Decidable (_ ∧ _))

/-- How far a hook is. -/
inductive HookStage where
  | removed
  | pointed
  | filtered
  | live
  | off
  deriving DecidableEq

section

variable (a : Answers) (count : ℕ) (s₀ : Tracing)

/-- The stage of the hook `j`. -/
def LoadPc.stage : LoadPc → ℕ → HookStage
  | .resolve i, j => if j < i then .live else .removed
  | .prepare i, j => if j < i then .live else if j = i then .pointed else .removed
  | .filter i, j => if j < i then .live else if j = i then .pointed else .removed
  | .register i, j => if j < i then .live else if j = i then .filtered else .removed
  | .unfilter i _, j => if j < i then .live else .off
  | .unwind i _, j => if j < i then .live else .off
  | .unwindFilter i _, j => if j < i then .live else .off
  | .kretprobe, _ => .live
  | .loaded, _ => .live
  | .remove i, j => if j < i then .off else .live
  | .removeFilter i, j => if j ≤ i then .off else .live
  | .unprobe, _ => .off
  | .gone, _ => if a.Stuck count s₀ then .live else .off

/-- What is known of the answers at a place of the loader. -/
def LoadPc.Known : LoadPc → Prop
  | .resolve i => i ≤ count ∧ ∀ j, j < i → ¬a.HookFails (s₀.hooks j).name j
  | .prepare i | .filter i =>
      i < count ∧ (∀ j, j < i → ¬a.HookFails (s₀.hooks j).name j) ∧ s₀.function a i ≠ 0
  | .register i =>
      i < count ∧ (∀ j, j < i → ¬a.HookFails (s₀.hooks j).name j) ∧ s₀.function a i ≠ 0 ∧
        a.ftraceSetFilterIp i = 0
  | .unfilter i err | .unwindFilter i err =>
      i < count ∧ err < 0 ∧ ∃ j, j < count ∧ a.HookFails (s₀.hooks j).name j
  | .unwind i err => i ≤ count ∧ err < 0 ∧ ∃ j, j < count ∧ a.HookFails (s₀.hooks j).name j
  | .kretprobe => ∀ j, j < count → ¬a.HookFails (s₀.hooks j).name j
  | .remove i => i ≤ count ∧ ¬a.InitFails count s₀
  | .removeFilter i => i < count ∧ ¬a.InitFails count s₀
  | .loaded | .unprobe => ¬a.InitFails count s₀
  | .gone => True

/-- The pointer to the original function of the hook is set. -/
def Points (s : Tracing) (j : ℕ) : Prop :=
  s₀.function a j ≠ 0 ∧ s.pointers (s₀.hooks j).original = s₀.function a j

/-- The hook is as its stage says. -/
def HookAt (s : Tracing) (j : ℕ) : HookStage → Prop
  | .removed => (s.hooks j).Removed
  | .pointed => (s.hooks j).Removed ∧ (s.hooks j).address = s₀.function a j ∧ Points a s₀ s j
  | .filtered =>
      (s.hooks j).ops.registered = 0 ∧ (s.hooks j).ops.filter = [s₀.function a j] ∧
        Points a s₀ s j
  | .live =>
      (s.hooks j).ops.registered = 1 ∧ (s.hooks j).ops.filter = [s₀.function a j] ∧
        Points a s₀ s j
  | .off => (s.hooks j).ops.registered = 0

/-- The invariant of the loader. -/
structure LoadOk (pc : LoadPc) (s : Tracing) : Prop where
  known : pc.Known a count s₀
  name : ∀ j, (s.hooks j).name = (s₀.hooks j).name
  original : ∀ j, (s.hooks j).original = (s₀.hooks j).original
  hooks : ∀ j, j < count → HookAt a s₀ s j (pc.stage a count s₀ j)

end

variable {a : Answers} {count i j : ℕ} {s₀ s t : Tracing} {pc : LoadPc} {err : ℤ}

theorem HookAt.congr {stage : HookStage} (h : HookAt a s₀ s j stage)
    (hhook : t.hooks j = s.hooks j)
    (hpointer : t.pointers (s₀.hooks j).original = s.pointers (s₀.hooks j).original) :
    HookAt a s₀ t j stage := by
  have hpoints : Points a s₀ s j → Points a s₀ t j := fun h => ⟨h.1, hpointer.trans h.2⟩
  cases stage with
  | removed => exact (congrArg FtraceHook.Removed hhook).mpr h
  | pointed =>
    obtain ⟨hremoved, haddress, hp⟩ := h
    exact ⟨hhook ▸ hremoved, hhook ▸ haddress, hpoints hp⟩
  | filtered =>
    obtain ⟨hregistered, hfilter, hp⟩ := h
    exact ⟨hhook ▸ hregistered, hhook ▸ hfilter, hpoints hp⟩
  | live =>
    obtain ⟨hregistered, hfilter, hp⟩ := h
    exact ⟨hhook ▸ hregistered, hhook ▸ hfilter, hpoints hp⟩
  | off => exact (congrArg (fun x : FtraceHook => x.ops.registered = 0) hhook).mpr h

theorem HookStage.cases (stage : HookStage) (h : HookAt a s₀ s j stage) :
    stage = .live ∨ (s.hooks j).ops.registered = 0 := by
  cases stage with
  | removed => exact .inr h.registered
  | pointed => exact .inr h.1.registered
  | filtered => exact .inr h.1
  | live => exact .inl rfl
  | off => exact .inr h

/-- When the installation fails at the hook `i`, the hooks before it stay live and no other
is registered. -/
theorem HookAt.failed {stage : HookStage} (h : HookAt a s₀ s j (if j < i then .live else stage))
    (hstage : stage ≠ .live) : HookAt a s₀ s j (if j < i then .live else .off) := by
  by_cases hj : j < i
  · rwa [if_pos hj] at h ⊢
  · rw [if_neg hj] at h ⊢
    exact (HookStage.cases stage h).resolve_left hstage

/-- A step of the loader about the hook `i`. -/
theorem LoadOk.step {pc' : LoadPc} (h : LoadOk a count s₀ pc s)
    (hknown : pc'.Known a count s₀) (hother : ∀ j, j ≠ i → t.hooks j = s.hooks j)
    (hname : (t.hooks i).name = (s.hooks i).name)
    (horiginal : (t.hooks i).original = (s.hooks i).original)
    (hpointers : ∀ j, j < count → j ≠ i →
      t.pointers (s₀.hooks j).original = s.pointers (s₀.hooks j).original)
    (hself : i < count → HookAt a s₀ t i (pc'.stage a count s₀ i))
    (hstage : ∀ j, j < count → j ≠ i → HookAt a s₀ s j (pc.stage a count s₀ j) →
      HookAt a s₀ s j (pc'.stage a count s₀ j)) : LoadOk a count s₀ pc' t := by
  constructor
  · exact hknown
  · intro j
    by_cases hj : j = i
    · rw [hj, hname, h.name]
    · rw [hother j hj, h.name]
  · intro j
    by_cases hj : j = i
    · rw [hj, horiginal, h.original]
    · rw [hother j hj, h.original]
  · intro j hlt
    by_cases hj : j = i
    · subst hj
      exact hself hlt
    · exact (hstage j hlt hj (h.hooks j hlt)).congr (hother j hj) (hpointers j hlt hj)

/-- A step of the loader about no hook. -/
theorem LoadOk.same {pc' : LoadPc} (h : LoadOk a count s₀ pc s)
    (hknown : pc'.Known a count s₀) (hhooks : t.hooks = s.hooks)
    (hpointers : t.pointers = s.pointers)
    (hstage : ∀ j, j < count → HookAt a s₀ s j (pc.stage a count s₀ j) →
      HookAt a s₀ s j (pc'.stage a count s₀ j)) : LoadOk a count s₀ pc' t := by
  constructor
  · exact hknown
  · rw [hhooks]
    exact h.name
  · rw [hhooks]
    exact h.original
  · intro j hlt
    exact (hstage j hlt (h.hooks j hlt)).congr (congrFun hhooks j) (congrFun hpointers _)

theorem fhResolveHookAddress_of_zero (h : s.function a i = 0) :
    fhResolveHookAddress a i s = (-2, s.setHook i { s.hooks i with address := 0 }) := by
  rw [Tracing.function] at h
  rw [fhResolveHookAddress, if_pos h, h]

theorem fhResolveHookAddress_of_ne (h : s.function a i ≠ 0) :
    fhResolveHookAddress a i s =
      (0, { s.setHook i { s.hooks i with address := s.function a i } with
        pointers := Function.update s.pointers (s.hooks i).original (s.function a i) }) := by
  rw [Tracing.function] at h
  rw [fhResolveHookAddress, if_neg h, Tracing.setHook_self]
  rfl

theorem LoadOk.function_eq (h : LoadOk a count s₀ pc s) (j : ℕ) :
    s.function a j = s₀.function a j := by
  rw [Tracing.function, h.name, Tracing.function]

@[simp] theorem unregisterFtraceFunction_hook (i : ℕ) (s : Tracing) :
    (unregisterFtraceFunction i s).hooks i = { s.hooks i with
      ops := { (s.hooks i).ops with registered := (s.hooks i).ops.registered - 1 } } :=
  Tracing.setOps_self _

@[simp] theorem ftraceResetFilterIp_hook (i : ℕ) (s : Tracing) :
    (ftraceResetFilterIp i s).hooks i = { s.hooks i with
      ops := { (s.hooks i).ops with
        filter := (s.hooks i).ops.filter.erase (s.hooks i).address } } :=
  Tracing.setOps_self _

/-- The symbol of the hook `i` is not known. -/
theorem LoadOk.unresolved (h : LoadOk a count s₀ (.resolve i) s) (hlt : i < count)
    (hzero : s.function a i = 0) :
    LoadOk a count s₀ (.unwind i (-2)) (s.setHook i { s.hooks i with address := 0 }) := by
  obtain ⟨hle, _⟩ := h.known
  have hself : (s.hooks i).Removed := by
    simpa [LoadPc.stage, HookAt] using h.hooks i hlt
  have hfails : a.HookFails (s₀.hooks i).name i := by
    rw [h.function_eq] at hzero
    exact .inl hzero
  refine h.step (i := i) ⟨hle, by decide, i, hlt, hfails⟩
    (fun j hj => Tracing.setHook_of_ne hj _) ?_ ?_ (fun _ _ _ => rfl) (fun _ => ?_)
    (fun j _ _ hat => ?_)
  · rw [Tracing.setHook_self]
  · rw [Tracing.setHook_self]
  · simpa [LoadPc.stage, HookAt] using hself.registered
  · exact HookAt.failed hat (by decide)

/-- The pointer of the hook `i` is set, and no other, since the pointers are distinct. -/
theorem LoadOk.resolved (hfresh : s₀.Fresh count) (h : LoadOk a count s₀ (.resolve i) s)
    (hlt : i < count) (hzero : s.function a i ≠ 0) :
    LoadOk a count s₀ (.prepare i)
      { s.setHook i { s.hooks i with address := s.function a i } with
        pointers := Function.update s.pointers (s.hooks i).original (s.function a i) } := by
  obtain ⟨_, hno⟩ := h.known
  have hself : (s.hooks i).Removed := by
    simpa [LoadPc.stage, HookAt] using h.hooks i hlt
  have hne : s₀.function a i ≠ 0 := h.function_eq i ▸ hzero
  have hhook : Tracing.hooks (s.setHook i { s.hooks i with address := s.function a i }) i =
      { s.hooks i with address := s.function a i } := Tracing.setHook_self _
  refine h.step (i := i) ⟨hlt, hno, hne⟩
    (fun j hj => Tracing.setHook_of_ne hj _) ?_ ?_ (fun j hlt' hj => ?_) (fun _ => ?_)
    (fun j hlt hj hat => ?_)
  · rw [hhook]
  · rw [hhook]
  · apply Function.update_of_ne
    rw [h.original]
    exact fun heq => hj (hfresh.distinct j i hlt' hlt heq)
  · simp only [LoadPc.stage, Nat.lt_irrefl, if_false, if_true]
    refine ⟨?_, ?_, hne, ?_⟩
    · rw [hhook]
      exact ⟨hself.registered, hself.filter⟩
    · rw [hhook]
      exact h.function_eq i
    · show Function.update s.pointers (s.hooks i).original (s.function a i) _ = _
      rw [← h.original i, Function.update_self, h.function_eq]
  · simpa [LoadPc.stage, hj] using hat

theorem LoadOk.resolve (hfresh : s₀.Fresh count) (h : LoadOk a count s₀ (.resolve i) s) :
    LoadOk a count s₀ (LoadPc.next a count (.resolve i, s)).1
      (LoadPc.next a count (.resolve i, s)).2 := by
  obtain ⟨hle, hno⟩ := h.known
  rw [LoadPc.next]
  split
  · rename_i hlt
    by_cases hzero : s.function a i = 0
    · rw [fhResolveHookAddress_of_zero hzero]
      exact h.unresolved hlt hzero
    · rw [fhResolveHookAddress_of_ne hzero]
      exact h.resolved hfresh hlt hzero
  · rename_i hlt
    have hi : i = count := by omega
    refine h.same (fun j hj => hno j (by omega)) rfl rfl fun j hlt hat => ?_
    simpa [LoadPc.stage, show j < i by omega] using hat

theorem LoadOk.prepare (h : LoadOk a count s₀ (.prepare i) s) :
    LoadOk a count s₀ (LoadPc.next a count (.prepare i, s)).1
      (LoadPc.next a count (.prepare i, s)).2 := by
  refine h.step (i := i) h.known (fun j hj => Tracing.setOps_of_ne hj _) ?_ ?_ (fun _ _ _ => rfl)
    (fun hlt => ?_) (fun j _ _ hat => hat)
  · rw [LoadPc.next, Tracing.setOps_self]
  · rw [LoadPc.next, Tracing.setOps_self]
  · have hself := h.hooks i hlt
    simp only [LoadPc.stage, Nat.lt_irrefl, if_false, if_true, LoadPc.next] at hself ⊢
    obtain ⟨hremoved, haddress, hpoints⟩ := hself
    refine ⟨?_, ?_, hpoints⟩
    · rw [Tracing.setOps_self]
      exact ⟨hremoved.registered, hremoved.filter⟩
    · rw [Tracing.setOps_self]
      exact haddress

theorem LoadOk.filter (herrno : a.Errno) (h : LoadOk a count s₀ (.filter i) s) :
    LoadOk a count s₀ (LoadPc.next a count (.filter i, s)).1
      (LoadPc.next a count (.filter i, s)).2 := by
  obtain ⟨hlt, hno, hne⟩ := h.known
  have hself := h.hooks i hlt
  simp only [LoadPc.stage, Nat.lt_irrefl, if_false, if_true] at hself
  obtain ⟨hremoved, haddress, hpoints⟩ := hself
  by_cases hzero : a.ftraceSetFilterIp i = 0
  · rw [LoadPc.next, ftraceSetFilterIp, if_pos hzero, hzero]
    show LoadOk a count s₀ (.register i) _
    refine h.step (i := i) ⟨hlt, hno, hne, hzero⟩ (fun j hj => Tracing.setOps_of_ne hj _) ?_ ?_
      (fun _ _ _ => rfl) (fun _ => ?_) (fun j _ hj hat => ?_)
    · rw [Tracing.setOps_self]
    · rw [Tracing.setOps_self]
    · simp only [LoadPc.stage, Nat.lt_irrefl, if_false, if_true]
      refine ⟨?_, ?_, hpoints⟩
      · rw [Tracing.setOps_self]
        exact hremoved.registered
      · rw [Tracing.setOps_self]
        show (s.hooks i).ops.filter.insert (s.hooks i).address = _
        rw [hremoved.filter, haddress]
        rfl
    · simpa [LoadPc.stage, hj] using hat
  · have hle := herrno.filter i
    have hneg : a.ftraceSetFilterIp i < 0 := by omega
    rw [LoadPc.next, ftraceSetFilterIp, if_neg hzero]
    simp only [hzero, ne_eq, not_false_eq_true, if_true]
    refine h.same ⟨by omega, hneg, i, hlt, .inr (.inl hzero)⟩ rfl rfl fun j _ hat => ?_
    refine HookAt.failed hat ?_
    split <;> decide

theorem LoadOk.register (herrno : a.Errno) (h : LoadOk a count s₀ (.register i) s) :
    LoadOk a count s₀ (LoadPc.next a count (.register i, s)).1
      (LoadPc.next a count (.register i, s)).2 := by
  obtain ⟨hlt, hno, hne, hfilter⟩ := h.known
  have hself := h.hooks i hlt
  simp only [LoadPc.stage, Nat.lt_irrefl, if_false, if_true] at hself
  obtain ⟨hregistered, hfiltered, hpoints⟩ := hself
  by_cases hzero : a.registerFtraceFunction i = 0
  · rw [LoadPc.next, registerFtraceFunction, if_pos hzero, hzero]
    show LoadOk a count s₀ (.resolve (i + 1)) _
    have hall : ∀ j, j < i + 1 → ¬a.HookFails (s₀.hooks j).name j := by
      intro j hj hfails
      by_cases hji : j = i
      · subst hji
        rcases hfails with hfails | hfails | hfails
        · exact hne hfails
        · exact hfails hfilter
        · exact hfails hzero
      · exact hno j (by omega) hfails
    refine h.step (i := i) ⟨by omega, hall⟩ (fun j hj => Tracing.setOps_of_ne hj _) ?_ ?_
      (fun _ _ _ => rfl) (fun _ => ?_) (fun j _ hj hat => ?_)
    · rw [Tracing.setOps_self]
    · rw [Tracing.setOps_self]
    · simp only [LoadPc.stage, Nat.lt_succ_self, if_true]
      refine ⟨?_, ?_, hpoints⟩
      · rw [Tracing.setOps_self]
        show (s.hooks i).ops.registered + 1 = 1
        rw [hregistered]
      · rw [Tracing.setOps_self]
        exact hfiltered
    · simpa [LoadPc.stage, hj, show j < i + 1 ↔ j < i by omega] using hat
  · have hle := herrno.register i
    have hneg : a.registerFtraceFunction i < 0 := by omega
    rw [LoadPc.next, registerFtraceFunction, if_neg hzero]
    simp only [hzero, ne_eq, not_false_eq_true, if_true]
    refine h.same ⟨hlt, hneg, i, hlt, .inr (.inr hzero)⟩ rfl rfl fun j _ hat => ?_
    refine HookAt.failed hat ?_
    split <;> decide

/-- A hook that is reset after it is not registered. -/
theorem LoadOk.resetFilter {pc' : LoadPc} (h : LoadOk a count s₀ pc s)
    (hknown : pc'.Known a count s₀) (hself : pc.stage a count s₀ i = .off)
    (hstage : ∀ j, pc'.stage a count s₀ j = pc.stage a count s₀ j) :
    LoadOk a count s₀ pc' (ftraceResetFilterIp i s) := by
  refine h.step (i := i) hknown (fun j hj => Tracing.setOps_of_ne hj _) ?_ ?_ (fun _ _ _ => rfl)
    (fun hlt => ?_) (fun j _ _ hat => by rwa [hstage])
  · rw [ftraceResetFilterIp_hook]
  · rw [ftraceResetFilterIp_hook]
  · have hoff := h.hooks i hlt
    rw [hself] at hoff
    rw [hstage, hself]
    show ((ftraceResetFilterIp i s).hooks i).ops.registered = 0
    rw [ftraceResetFilterIp_hook]
    exact hoff

/-- A hook that is removed. -/
theorem LoadOk.unregister {pc' : LoadPc} (h : LoadOk a count s₀ pc s)
    (hknown : pc'.Known a count s₀) (hself : pc.stage a count s₀ i = .live)
    (hoff : pc'.stage a count s₀ i = .off)
    (hstage : ∀ j, j ≠ i → pc'.stage a count s₀ j = pc.stage a count s₀ j) :
    LoadOk a count s₀ pc' (unregisterFtraceFunction i s) := by
  refine h.step (i := i) hknown (fun j hj => Tracing.setOps_of_ne hj _) ?_ ?_ (fun _ _ _ => rfl)
    (fun hlt => ?_) (fun j _ hj hat => by rwa [hstage j hj])
  · rw [unregisterFtraceFunction_hook]
  · rw [unregisterFtraceFunction_hook]
  · have hlive := h.hooks i hlt
    rw [hself] at hlive
    rw [hoff]
    show ((unregisterFtraceFunction i s).hooks i).ops.registered = 0
    rw [unregisterFtraceFunction_hook]
    show (s.hooks i).ops.registered - 1 = 0
    rw [hlive.1]

theorem not_stuck_of_fails (h : ∃ j, j < count ∧ a.HookFails (s₀.hooks j).name j) :
    ¬a.Stuck count s₀ := by
  obtain ⟨j, hlt, hfails⟩ := h
  exact fun hstuck => hstuck.2 j hlt hfails

theorem not_stuck_of_not_fails (h : ¬a.InitFails count s₀) : ¬a.Stuck count s₀ :=
  fun hstuck => h (.inr hstuck.1)

theorem LoadOk.unwind (h : LoadOk a count s₀ (.unwind i err) s) :
    LoadOk a count s₀ (LoadPc.next a count (.unwind i err, s)).1
      (LoadPc.next a count (.unwind i err, s)).2 := by
  obtain ⟨hle, hneg, hfails⟩ := h.known
  cases i with
  | zero =>
    rw [LoadPc.next, if_pos hneg]
    refine h.same trivial rfl rfl fun j _ hat => ?_
    simp only [LoadPc.stage, Nat.not_lt_zero, if_false] at hat ⊢
    rwa [if_neg (not_stuck_of_fails hfails)]
  | succ i =>
    show LoadOk a count s₀ (.unwindFilter i err) _
    refine h.unregister (i := i) ⟨by omega, hneg, hfails⟩ (if_pos (Nat.lt_succ_self i))
      (if_neg (Nat.lt_irrefl i)) fun j hj => ?_
    simp only [LoadPc.stage, show j < i + 1 ↔ j < i by omega]

theorem LoadOk.remove (h : LoadOk a count s₀ (.remove i) s) :
    LoadOk a count s₀ (LoadPc.next a count (.remove i, s)).1
      (LoadPc.next a count (.remove i, s)).2 := by
  obtain ⟨hle, hfine⟩ := h.known
  rw [LoadPc.next]
  split
  · rename_i hlt
    refine h.unregister (i := i) ⟨hlt, hfine⟩ (if_neg (Nat.lt_irrefl i)) (if_pos (Nat.le_refl i))
      fun j hj => ?_
    simp only [LoadPc.stage, show j ≤ i ↔ j < i by omega]
  · refine h.same hfine rfl rfl fun j hlt hat => ?_
    simpa [LoadPc.stage, show j < i by omega] using hat

/-- Every call of the loader keeps the invariant. -/
theorem LoadOk.next (hfresh : s₀.Fresh count) (herrno : a.Errno) (h : LoadOk a count s₀ pc s) :
    LoadOk a count s₀ (LoadPc.next a count (pc, s)).1 (LoadPc.next a count (pc, s)).2 := by
  cases pc with
  | resolve i => exact h.resolve hfresh
  | prepare i => exact h.prepare
  | filter i => exact h.filter herrno
  | register i => exact h.register herrno
  | unfilter i err =>
    obtain ⟨hlt, hneg, hfails⟩ := h.known
    exact h.resetFilter ⟨by omega, hneg, hfails⟩ (if_neg (Nat.lt_irrefl i)) fun _ => rfl
  | unwind i err => exact h.unwind
  | unwindFilter i err =>
    obtain ⟨hlt, hneg, hfails⟩ := h.known
    exact h.resetFilter ⟨by omega, hneg, hfails⟩ (if_neg (Nat.lt_irrefl i)) fun _ => rfl
  | kretprobe =>
    rw [LoadPc.next, registerKretprobe]
    by_cases hret : a.registerKretprobe < 0
    · simp only [if_pos hret]
      refine h.same trivial rfl rfl fun j _ hat => ?_
      rwa [show LoadPc.stage a count s₀ .gone j = .live from if_pos ⟨hret, h.known⟩]
    · simp only [if_neg hret]
      have hfine : ¬a.InitFails count s₀ := by
        rintro (⟨i, hlt, hfails⟩ | hneg)
        · exact h.known i hlt hfails
        · exact hret hneg
      exact h.same hfine rfl rfl fun j _ hat => hat
  | loaded =>
    show LoadOk a count s₀ (.remove 0) _
    refine h.same ⟨Nat.zero_le _, h.known⟩ rfl rfl fun j _ hat => ?_
    simpa only [LoadPc.stage, Nat.not_lt_zero, if_false] using hat
  | remove i => exact h.remove
  | removeFilter i =>
    obtain ⟨hlt, hfine⟩ := h.known
    show LoadOk a count s₀ (.remove (i + 1)) _
    refine h.resetFilter ⟨hlt, hfine⟩ (if_pos (Nat.le_refl i)) fun j => ?_
    simp only [LoadPc.stage, show j < i + 1 ↔ j ≤ i by omega]
  | unprobe =>
    show LoadOk a count s₀ .gone _
    refine h.same trivial rfl rfl fun j _ hat => ?_
    rwa [show LoadPc.stage a count s₀ .gone j = .off from if_neg (not_stuck_of_not_fails h.known)]
  | gone => exact h

theorem loadOk_start (hfresh : s₀.Fresh count) : LoadOk a count s₀ (.resolve 0) s₀ := by
  refine ⟨⟨Nat.zero_le _, fun j hj => absurd hj (Nat.not_lt_zero j)⟩, fun _ => rfl, fun _ => rfl,
    fun j hlt => ?_⟩
  simp only [LoadPc.stage, Nat.not_lt_zero, if_false]
  exact hfresh.removed j hlt

/-! ## The loader is `fh_init` and `fh_exit` -/

/-- The steps of the loader lead from one place to another. -/
def Reaches (a : Answers) (count : ℕ) (x y : LoadPc × Tracing) : Prop :=
  ∃ n, (LoadPc.next a count)^[n] x = y

theorem Reaches.trans {x y z : LoadPc × Tracing} (h : Reaches a count x y)
    (h' : Reaches a count y z) : Reaches a count x z := by
  obtain ⟨n, rfl⟩ := h
  obtain ⟨m, rfl⟩ := h'
  exact ⟨m + n, Function.iterate_add_apply _ _ _ _⟩

theorem Reaches.step (x : LoadPc × Tracing) : Reaches a count x (LoadPc.next a count x) :=
  ⟨1, rfl⟩

theorem reaches_installHook (hlt : i < count) :
    Reaches a count (.resolve i, s)
      (if (fhInstallHook a i s).1 ≠ 0 then .unwind i (fhInstallHook a i s).1 else .resolve (i + 1),
        (fhInstallHook a i s).2) := by
  have hresolve : Reaches a count (.resolve i, s) (LoadPc.next a count (.resolve i, s)) :=
    Reaches.step _
  rw [LoadPc.next, if_pos hlt] at hresolve
  simp only [fhInstallHook]
  by_cases hr : (fhResolveHookAddress a i s).1 = 0
  · simp only [hr, ne_eq, not_true_eq_false, if_false] at hresolve ⊢
    have hfilter := (hresolve.trans (Reaches.step _)).trans (Reaches.step _)
    simp only [LoadPc.next] at hfilter
    by_cases hf : a.ftraceSetFilterIp i = 0
    · simp only [ftraceSetFilterIp, hf, ne_eq, not_true_eq_false, if_false] at hfilter ⊢
      have hregister := hfilter.trans (Reaches.step _)
      simp only [LoadPc.next] at hregister
      by_cases hg : a.registerFtraceFunction i = 0
      · simpa only [registerFtraceFunction, hg, ne_eq, not_true_eq_false, if_false] using hregister
      · simp only [registerFtraceFunction, hg, ne_eq, not_false_eq_true, if_true] at hregister ⊢
        exact hregister.trans (Reaches.step _)
    · simpa only [ftraceSetFilterIp, hf, ne_eq, not_false_eq_true, if_true] using hfilter
  · simpa only [hr, ne_eq, not_false_eq_true, if_true] using hresolve

theorem reaches_unwind (i : ℕ) (s : Tracing) (err : ℤ) :
    Reaches a count (.unwind i err, s)
      (if err < 0 then .gone else .loaded, unwind fhRemoveHook i s) := by
  induction i generalizing s with
  | zero => exact ⟨1, rfl⟩
  | succ i ih =>
    refine Reaches.trans ⟨2, ?_⟩ (ih (fhRemoveHook i s))
    rfl

theorem reaches_installFrom (left i : ℕ) (hcount : i + left = count) (s : Tracing) :
    let r := installFrom (fhInstallHook a) fhRemoveHook left i s
    Reaches a count (.resolve i, s)
      (if r.1 ≠ 0 then (if r.1 < 0 then .gone else .loaded, r.2)
        else (.kretprobe, { r.2 with symbolName := some "finish_task_switch" })) := by
  induction left generalizing i s with
  | zero =>
    refine ⟨1, ?_⟩
    rw [Function.iterate_one, LoadPc.next, if_neg (by omega)]
    rfl
  | succ left ih =>
    have hstep := reaches_installHook (a := a) (s := s) (show i < count by omega)
    by_cases herr : (fhInstallHook a i s).1 = 0
    · rw [herr] at hstep
      simp only [installFrom, herr, ne_eq, not_true_eq_false, if_false] at hstep ⊢
      exact hstep.trans (ih (i + 1) (by omega) _)
    · simp only [installFrom, herr, ne_eq, not_false_eq_true, if_true] at hstep ⊢
      exact hstep.trans (reaches_unwind i _ _)

/-- On its own the loader comes to the end of `fh_init`, with its result. -/
theorem init_reaches (a : Answers) (count : ℕ) (s : Tracing) :
    Reaches a count (.resolve 0, s)
      (if (fhInit a count s).1 < 0 then .gone else .loaded, (fhInit a count s).2) := by
  have hinstall := reaches_installFrom (a := a) count 0 (Nat.zero_add count) s
  rw [fhInit, fhInstallHooks, installAll]
  by_cases herr : (installFrom (fhInstallHook a) fhRemoveHook count 0 s).1 = 0
  · simp only [herr, ne_eq, not_true_eq_false, if_false] at hinstall ⊢
    refine hinstall.trans ⟨1, ?_⟩
    rw [Function.iterate_one, LoadPc.next, registerKretprobe]
    by_cases hret : a.registerKretprobe < 0
    · simp [hret]
    · simp [hret]
  · simpa only [herr, ne_eq, not_false_eq_true, if_true] using hinstall

theorem reaches_removeFrom (left i : ℕ) (hcount : i + left = count) (s : Tracing) :
    Reaches a count (.remove i, s) (.unprobe, removeFrom fhRemoveHook left i s) := by
  induction left generalizing i s with
  | zero =>
    refine ⟨1, ?_⟩
    rw [Function.iterate_one, LoadPc.next, if_neg (by omega)]
    rfl
  | succ left ih =>
    refine Reaches.trans ⟨2, ?_⟩ (ih (i + 1) (by omega) (fhRemoveHook i s))
    rw [Function.iterate_succ_apply, Function.iterate_one, LoadPc.next, if_pos (by omega)]
    rfl

/-- On its own the loader comes to the end of `fh_exit`. -/
theorem exit_reaches (a : Answers) (count : ℕ) (s : Tracing) :
    Reaches a count (.loaded, s) (.gone, fhExit count s) := by
  have hremove := reaches_removeFrom (a := a) count 0 (Nat.zero_add count) s
  exact Reaches.trans ⟨1, rfl⟩ (hremove.trans ⟨1, rfl⟩)

/-! ## The calls -/

/-- A hook is called for its function, as long as it is live. -/
theorem LoadOk.traces_iff (h : LoadOk a count s₀ pc s) (hlt : j < count) (address : Word) :
    (s.hooks j).traces address = true ↔
      pc.stage a count s₀ j = .live ∧ s₀.function a j = address := by
  have hat := h.hooks j hlt
  rcases HookStage.cases _ hat with hlive | hzero
  · rw [hlive] at hat ⊢
    obtain ⟨hregistered, hfilter, _⟩ := hat
    simp [FtraceHook.traces, hregistered, hfilter, eq_comm]
  · constructor
    · intro htraces
      simp [FtraceHook.traces, hzero] at htraces
    · rintro ⟨hlive, _⟩
      rw [hlive] at hat
      rw [hat.1] at hzero
      cases hzero

/-- Once the pointer of a hook is set it stays. -/
theorem LoadOk.points (hfresh : s₀.Fresh count) (h : LoadOk a count s₀ pc s) (hlt : j < count)
    (hpoints : Points a s₀ s j) : Points a s₀ (LoadPc.next a count (pc, s)).2 j := by
  cases pc with
  | resolve i =>
    rw [LoadPc.next]
    split
    · rename_i hi
      by_cases hzero : s.function a i = 0
      · rw [fhResolveHookAddress_of_zero hzero]
        exact hpoints
      · rw [fhResolveHookAddress_of_ne hzero]
        refine ⟨hpoints.1, ?_⟩
        show Function.update s.pointers (s.hooks i).original (s.function a i) _ = _
        by_cases hj : j = i
        · rw [hj, ← h.original i, Function.update_self, h.function_eq]
        · rw [Function.update_of_ne]
          · exact hpoints.2
          · rw [h.original]
            exact fun heq => hj (hfresh.distinct j i hlt hi heq)
    · exact hpoints
  | filter i =>
    refine ⟨hpoints.1, Eq.trans ?_ hpoints.2⟩
    rw [LoadPc.next, ftraceSetFilterIp]
    dsimp only
    split <;> rfl
  | register i =>
    refine ⟨hpoints.1, Eq.trans ?_ hpoints.2⟩
    rw [LoadPc.next, registerFtraceFunction]
    dsimp only
    split <;> rfl
  | unwind i err => cases i <;> exact hpoints
  | kretprobe =>
    refine ⟨hpoints.1, Eq.trans ?_ hpoints.2⟩
    rw [LoadPc.next, registerKretprobe]
    dsimp only
    split <;> rfl
  | remove i =>
    rw [LoadPc.next]
    split <;> exact hpoints
  | _ => exact hpoints

/-- The code of the driver that a call is in is that of a hook for the function, or a
callback. -/
def ProcCall.Goes (a : Answers) (count : ℕ) (s₀ s : Tracing) (c : ProcCall) : Body → Prop
  | .hook j => j < count ∧ c.hooked = [j] ∧ s₀.function a j = c.called ∧ Points a s₀ s j
  | .callback address => c.hooked = [] ∧ address = c.called ∧ address ≠ 0

/-- The call went through no hook, or through one that is for its function. -/
def ProcCall.Through (a : Answers) (count : ℕ) (s₀ : Tracing) (c : ProcCall) : Prop :=
  c.hooked = [] ∨ ∃ j, j < count ∧ c.hooked = [j] ∧ s₀.function a j = c.called

/-- The invariant of a call. -/
def ProcCall.Ok (a : Answers) (count : ℕ) (s₀ s : Tracing) (c : ProcCall) : Prop :=
  match c.pc with
  | .outside => True
  | .body b => c.Goes a count s₀ s b ∧ c.ran = []
  | .kernel none => c.hooked = [] ∧ c.ran = [c.called]
  | .kernel (some b) => c.Goes a count s₀ s b ∧ c.ran = [c.called]
  | .back b => c.Goes a count s₀ s b ∧ c.ran = [c.called]
  | .returned => c.Through a count s₀ ∧ c.ran = [c.called]

/-- The invariant. -/
structure HookedOk (a : Answers) (count : ℕ) (s₀ : Tracing) (s : HookedCalls) : Prop where
  loader : LoadOk a count s₀ s.loader s.tracing
  call : ∀ p, (s.call p).Ok a count s₀ s.tracing

variable {c : ProcCall} {b : Body} {u v : HookedCalls} {address : Word} {p : Pid} {k₀ : Bool}

theorem ProcCall.Goes.mono (h : c.Goes a count s₀ s b)
    (hle : ∀ j, j < count → Points a s₀ s j → Points a s₀ t j) : c.Goes a count s₀ t b := by
  cases b with
  | hook j =>
    obtain ⟨hlt, hhooked, hfunction, hpoints⟩ := h
    exact ⟨hlt, hhooked, hfunction, hle j hlt hpoints⟩
  | callback address => exact h

theorem ProcCall.Goes.through (h : c.Goes a count s₀ s b) : c.Through a count s₀ := by
  cases b with
  | hook j =>
    obtain ⟨hlt, hhooked, hfunction, _⟩ := h
    exact .inr ⟨j, hlt, hhooked, hfunction⟩
  | callback address => exact .inl h.1

theorem ProcCall.Ok.mono (h : c.Ok a count s₀ s)
    (hle : ∀ j, j < count → Points a s₀ s j → Points a s₀ t j) : c.Ok a count s₀ t := by
  unfold ProcCall.Ok at h ⊢
  generalize c.pc = pc at h ⊢
  cases pc with
  | outside => exact h
  | body b => exact ⟨h.1.mono hle, h.2⟩
  | kernel caller =>
    cases caller with
    | none => exact h
    | some b => exact ⟨h.1.mono hle, h.2⟩
  | back b => exact ⟨h.1.mono hle, h.2⟩
  | returned => exact h

/-- What the entry of a function does. -/
inductive Entered (a : Answers) (count : ℕ) (s₀ : Tracing) (s : HookedCalls) (caller : Option Body)
    (address : Word) (c : ProcCall) : Except CallFault ProcCall → Prop where
  | original : (caller = none → ∀ j, j < count → s.loader.stage a count s₀ j = .live →
      s₀.function a j ≠ address) →
      Entered a count s₀ s caller address c
        (.ok { c with pc := .kernel caller, ran := c.ran ++ [address] })
  | hooked {j : ℕ} : caller = none → j < count → s.loader.stage a count s₀ j = .live →
      s₀.function a j = address → s.loader ≠ .gone →
      Entered a count s₀ s caller address c
        (.ok { c with pc := .body (.hook j), hooked := c.hooked ++ [j] })
  | freed {j : ℕ} : j < count → s.loader.stage a count s₀ j = .live →
      s₀.function a j = address → s.loader = .gone →
      Entered a count s₀ s caller address c (.error .freed)

theorem HookedOk.enter (h : HookedOk a count s₀ u) (caller : Option Body) (address : Word)
    (c : ProcCall) :
    Entered a count s₀ u caller address c (u.enter count caller address c) := by
  unfold HookedCalls.enter
  dsimp only
  split
  · rename_i hnone
    rw [List.find?_eq_none] at hnone
    refine Entered.original fun _ j hlt hlive hfunction => ?_
    exact hnone j (List.mem_range.mpr hlt)
      ((h.loader.traces_iff hlt address).mpr ⟨hlive, hfunction⟩)
  · rename_i j hsome
    have hlt := List.mem_range.mp (List.mem_of_find?_eq_some hsome)
    have htraces : (u.tracing.hooks j).traces address = true := by
      simpa using List.find?_some hsome
    obtain ⟨hlive, hfunction⟩ := (h.loader.traces_iff hlt address).mp htraces
    split
    · rename_i hgone
      exact Entered.freed hlt hlive hfunction hgone
    · rename_i hgone
      cases caller with
      | none => exact Entered.hooked rfl hlt hlive hfunction hgone
      | some b => exact Entered.original fun hcaller => absurd hcaller (Option.some_ne_none b)

theorem HookedOk.setCall (h : HookedOk a count s₀ u) (hc : c.Ok a count s₀ u.tracing) (p : Pid) :
    HookedOk a count s₀ (u.setCall p c) := by
  refine ⟨h.loader, fun q => ?_⟩
  show (Function.update u.call p c q).Ok a count s₀ u.tracing
  by_cases hq : q = p
  · rw [hq, Function.update_self]
    exact hc
  · rw [Function.update_of_ne hq]
    exact h.call q

/-- The address that the code of the driver calls is that of the function. -/
theorem ProcCall.Goes.target (h : HookedOk a count s₀ u) (hb : c.Goes a count s₀ u.tracing b) :
    u.target b = c.called ∧ c.called ≠ 0 := by
  cases b with
  | hook j =>
    obtain ⟨hlt, _, hfunction, hne, hpointer⟩ := hb
    rw [HookedCalls.target, h.loader.original, hpointer, ← hfunction]
    exact ⟨rfl, hne⟩
  | callback address =>
    obtain ⟨_, rfl, hne⟩ := hb
    exact ⟨rfl, hne⟩

/-- The code of the driver goes on to the function itself, as long as it is in memory. -/
theorem HookedOk.advance_body (h : HookedOk a count s₀ u) (hc : c.Ok a count s₀ u.tracing)
    (hpc : c.pc = .body b) :
    u.advance count c = if u.loader = .gone then .error .freed
      else .ok { c with pc := .kernel (some b), ran := [c.called] } := by
  rw [ProcCall.Ok, hpc] at hc
  obtain ⟨hb, hran⟩ := hc
  obtain ⟨htarget, hne⟩ := hb.target h
  have hentered := h.enter (some b) (u.target b) c
  simp only [HookedCalls.advance, hpc]
  by_cases hgone : u.loader = .gone
  · rw [if_pos hgone, if_pos hgone]
  · rw [if_neg hgone, if_neg (by rwa [htarget]), if_neg hgone]
    generalize u.enter count (some b) (u.target b) c = x at hentered ⊢
    cases hentered with
    | original _ => rw [hran, htarget, List.nil_append]
    | hooked hcaller => cases hcaller
    | freed _ _ _ hgone' => exact absurd hgone' hgone

theorem HookedOk.of_call (h : HookedOk a count s₀ u)
    (hexec : u.exec a count (.call p address) = .ok v) :
    HookedOk a count s₀ v := by
  rw [HookedCalls.exec] at hexec
  split at hexec
  · have hentered := h.enter none address ⟨address, .outside, [], []⟩
    generalize u.enter count none address ⟨address, .outside, [], []⟩ = x at hexec hentered
    cases hentered with
    | original _ =>
      cases hexec
      refine h.setCall ?_ p
      exact ⟨rfl, rfl⟩
    | hooked _ hlt hlive hfunction _ =>
      cases hexec
      have hat := h.loader.hooks _ hlt
      rw [hlive] at hat
      refine h.setCall ?_ p
      exact ⟨⟨hlt, rfl, hfunction, hat.2.2⟩, rfl⟩
    | freed => cases hexec
  · cases hexec

theorem HookedOk.of_callback (h : HookedOk a count s₀ u)
    (hexec : u.exec a count (.callback p address) = .ok v) : HookedOk a count s₀ v := by
  rw [HookedCalls.exec] at hexec
  split at hexec
  · rename_i hidle
    split at hexec
    · cases hexec
    · cases hexec
      refine h.setCall ?_ p
      exact ⟨⟨rfl, rfl, hidle.2⟩, rfl⟩
  · cases hexec

theorem HookedOk.of_advance (h : HookedOk a count s₀ u) (hc : c.Ok a count s₀ u.tracing)
    {d : ProcCall} (hadvance : u.advance count c = .ok d) : d.Ok a count s₀ u.tracing := by
  have hok := hc
  rw [ProcCall.Ok] at hok
  cases hpc : c.pc with
  | outside =>
    simp [HookedCalls.advance, hpc] at hadvance
  | body b =>
    rw [h.advance_body hc hpc] at hadvance
    rw [hpc] at hok
    split at hadvance
    · cases hadvance
    · cases hadvance
      exact ⟨hok.1, rfl⟩
  | kernel caller =>
    rw [hpc] at hok
    cases caller with
    | none =>
      simp only [HookedCalls.advance, hpc] at hadvance
      cases hadvance
      exact ⟨.inl hok.1, hok.2⟩
    | some b =>
      simp only [HookedCalls.advance, hpc] at hadvance
      cases hadvance
      exact hok
  | back b =>
    rw [hpc] at hok
    simp only [HookedCalls.advance, hpc] at hadvance
    split at hadvance
    · cases hadvance
    · cases hadvance
      exact ⟨hok.1.through, hok.2⟩
  | returned =>
    simp [HookedCalls.advance, hpc] at hadvance

theorem HookedOk.of_go (h : HookedOk a count s₀ u)
    (hexec : u.exec a count (.go p) = .ok v) : HookedOk a count s₀ v := by
  rw [HookedCalls.exec] at hexec
  cases hadvance : u.advance count (u.call p) with
  | error fault =>
    rw [hadvance] at hexec
    cases hexec
  | ok d =>
    rw [hadvance] at hexec
    cases hexec
    exact h.setCall (h.of_advance (h.call p) hadvance) p

/-- A call of `do_exit` that is taken changes nothing here. -/
theorem of_doExit (h : CallStep a count u (.doExit p) v) : v = u := by
  rw [CallStep, HookedCalls.exec] at h
  split at h
  · split at h
    · cases h
    · cases h
      rfl
  · cases h

theorem hookedOk_step (hfresh : s₀.Fresh count) (herrno : a.Errno) {e : CallEvent}
    (h : HookedOk a count s₀ u) (hstep : CallStep a count u e v) : HookedOk a count s₀ v := by
  cases e with
  | loader =>
    cases hstep
    exact ⟨h.loader.next hfresh herrno,
      fun p => (h.call p).mono fun j hlt hpoints => h.loader.points hfresh hlt hpoints⟩
  | call p address => exact h.of_call hstep
  | callback p address => exact h.of_callback hstep
  | go p => exact h.of_go hstep
  | doExit p =>
    rw [of_doExit hstep]
    exact h

theorem hookedOk_run (hfresh : s₀.Fresh count) (herrno : a.Errno) {es : List CallEvent}
    (h : Run (CallStep a count) (HookedCalls.start k₀ s₀) es u) : HookedOk a count s₀ u := by
  refine h.invariant (I := HookedOk a count s₀) (fun _ _ _ hs hstep => ?_) ?_
  · exact hookedOk_step hfresh herrno hs hstep
  · exact ⟨loadOk_start hfresh, fun _ => trivial⟩

/-! ## What the calls do -/

/-- The driver is loaded, and the call is of a function that has a hook. -/
theorem HookedOk.redirects (h : HookedOk a count s₀ u) (hloaded : u.loader = .loaded)
    (hlt : j < count) (hidle : u.idle p = true) :
    ∃ v, CallStep a count u (.call p (s₀.function a j)) v ∧
      ∃ k, k < count ∧ s₀.function a k = s₀.function a j ∧ (v.call p).pc = .body (.hook k) := by
  have hlive : u.loader.stage a count s₀ j = .live := by rw [hloaded, LoadPc.stage]
  have hentered := h.enter none (s₀.function a j) ⟨s₀.function a j, .outside, [], []⟩
  simp only [CallStep, HookedCalls.exec, if_pos hidle]
  generalize u.enter count none (s₀.function a j) ⟨s₀.function a j, .outside, [], []⟩ = x
    at hentered ⊢
  cases hentered with
  | original hnone => exact absurd rfl (hnone rfl j hlt hlive)
  | @hooked k _ hk _ hfunction _ =>
    refine ⟨_, rfl, k, hk, hfunction, ?_⟩
    simp [HookedCalls.setCall]
  | freed _ _ _ hgone =>
    rw [hloaded] at hgone
    cases hgone

/-- The code of the driver comes to the function itself. -/
theorem HookedOk.reaches_kernel (h : HookedOk a count s₀ u) (hpc : (u.call p).pc = .body b)
    (hstep : CallStep a count u (.go p) v) :
    (v.call p).pc = .kernel (some b) ∧ (v.call p).ran = [(u.call p).called] := by
  rw [CallStep, HookedCalls.exec, h.advance_body (h.call p) hpc] at hstep
  split at hstep
  · cases hstep
  · cases hstep
    simp [HookedCalls.setCall]

theorem map_error {α β : Type} {f : α → β} {x : Except CallFault α} {fault : CallFault} :
    x.map f = .error fault ↔ x = .error fault := by
  cases x <;> simp [Except.map]

theorem HookedOk.not_null (h : HookedOk a count s₀ u) (e : CallEvent) :
    u.exec a count e ≠ .error .null := by
  cases e with
  | loader => exact fun hexec => by cases hexec
  | call p address =>
    have hentered := h.enter none address ⟨address, .outside, [], []⟩
    rw [HookedCalls.exec]
    split
    · rw [ne_eq, map_error]
      intro hnull
      rw [hnull] at hentered
      cases hentered
    · exact fun hexec => by cases hexec
  | callback p address =>
    rw [HookedCalls.exec]
    split
    · split <;> exact fun hexec => by cases hexec
    · exact fun hexec => by cases hexec
  | go p =>
    rw [HookedCalls.exec, ne_eq, map_error]
    cases hpc : (u.call p).pc with
    | body b =>
      rw [h.advance_body (h.call p) hpc]
      split <;> exact fun hexec => by cases hexec
    | kernel caller =>
      cases caller <;> simp [HookedCalls.advance, hpc]
    | back b =>
      simp only [HookedCalls.advance, hpc]
      split <;> exact fun hexec => by cases hexec
    | _ => simp [HookedCalls.advance, hpc]
  | doExit p =>
    rw [HookedCalls.exec]
    split
    · split <;> exact fun hexec => by cases hexec
    · exact fun hexec => by cases hexec

/-- The function of the driver that the loader is in. -/
inductive LoadPhase where
  | init
  | exit
  | gone
  deriving DecidableEq

/-- The driver stays in `fh_init`, with its result, until `fh_exit` is called. -/
def LoadPc.phase : LoadPc → LoadPhase
  | .remove _ | .removeFilter _ | .unprobe => .exit
  | .gone => .gone
  | _ => .init

/-- A step in `fh_init` stays there, or it fails and the memory is freed. -/
theorem LoadOk.next_init (h : LoadOk a count s₀ pc s) (hphase : pc.phase = .init)
    (hne : pc ≠ .loaded) :
    (LoadPc.next a count (pc, s)).1.phase = .init ∨
      (LoadPc.next a count (pc, s)).1.phase = .gone ∧ a.InitFails count s₀ := by
  have hknown := h.known
  cases pc with
  | resolve i =>
    left
    rw [LoadPc.next]
    split
    · dsimp only
      split <;> rfl
    · rfl
  | prepare i => exact .inl rfl
  | filter i =>
    left
    simp only [LoadPc.next]
    split <;> rfl
  | register i =>
    left
    simp only [LoadPc.next]
    split <;> rfl
  | unfilter i err => exact .inl rfl
  | unwindFilter i err => exact .inl rfl
  | unwind i err =>
    obtain ⟨_, hneg, hfails⟩ := hknown
    cases i with
    | zero =>
      rw [LoadPc.next, if_pos hneg]
      exact .inr ⟨rfl, .inl hfails⟩
    | succ i => exact .inl rfl
  | kretprobe =>
    rw [LoadPc.next, registerKretprobe]
    by_cases hret : a.registerKretprobe < 0
    · simp only [if_pos hret]
      exact .inr ⟨rfl, .inr hret⟩
    · simp only [if_neg hret]
      exact .inl rfl
  | loaded => exact absurd rfl hne
  | remove | removeFilter | unprobe | gone => cases hphase

/-- A step in `fh_exit` stays there, or it is the last one. -/
theorem LoadOk.next_exit (h : LoadOk a count s₀ pc s) (hphase : pc.phase = .exit) :
    (LoadPc.next a count (pc, s)).1.phase = .exit ∨
      (LoadPc.next a count (pc, s)).1.phase = .gone ∧ ¬a.InitFails count s₀ := by
  have hknown := h.known
  cases pc with
  | remove i =>
    left
    rw [LoadPc.next]
    split <;> rfl
  | removeFilter i => exact .inl rfl
  | unprobe => exact .inr ⟨rfl, hknown⟩
  | _ => cases hphase

/-- The probe stays as `register_kprobe` left it until `fiber_ioctl_exit`.  When the memory
of the driver is freed, it is registered exactly when `fh_init` failed. -/
def HookedCalls.ProbeOk (a : Answers) (count : ℕ) (s₀ : Tracing) (k₀ : Bool) (s : HookedCalls) :
    Prop :=
  match s.loader.phase with
  | .init => s.kprobe = k₀
  | .exit => s.kprobe = false
  | .gone => s.kprobe = true ↔ k₀ = true ∧ a.InitFails count s₀

theorem probeOk_loader (h : HookedOk a count s₀ u) (hp : u.ProbeOk a count s₀ k₀)
    (hstep : CallStep a count u .loader v) : v.ProbeOk a count s₀ k₀ := by
  cases hstep
  unfold HookedCalls.ProbeOk at hp ⊢
  dsimp only
  cases hphase : u.loader.phase with
  | init =>
    rw [hphase] at hp
    by_cases hloaded : u.loader = .loaded
    · simp [hloaded, LoadPc.next, LoadPc.phase]
    · simp only [ne_eq, hloaded, not_false_eq_true, decide_true, Bool.and_true]
      rcases h.loader.next_init hphase hloaded with hnext | ⟨hnext, hfails⟩
      · rw [hnext]
        exact hp
      · rw [hnext, hp]
        exact ⟨fun hk => ⟨hk, hfails⟩, And.left⟩
  | exit =>
    rw [hphase] at hp
    simp only [hp, Bool.false_and]
    rcases h.loader.next_exit hphase with hnext | ⟨hnext, hfine⟩
    · rw [hnext]
      trivial
    · rw [hnext]
      exact ⟨fun hk => absurd hk Bool.false_ne_true, fun hk => absurd hk.2 hfine⟩
  | gone =>
    rw [hphase] at hp
    have hgone : u.loader = .gone := by
      cases hpc : u.loader <;> simp [hpc, LoadPc.phase] at hphase ⊢
    simp only [hgone, LoadPc.next, LoadPc.phase]
    simpa using hp

theorem exists_of_map {α β : Type} {f : α → β} {x : Except CallFault α} {y : β}
    (h : x.map f = .ok y) : ∃ z, y = f z := by
  cases x with
  | error => cases h
  | ok z => exact ⟨z, (Except.ok.inj h).symm⟩

theorem probeOk_step {e : CallEvent} (h : HookedOk a count s₀ u) (hp : u.ProbeOk a count s₀ k₀)
    (hstep : CallStep a count u e v) : v.ProbeOk a count s₀ k₀ := by
  cases e with
  | loader => exact probeOk_loader h hp hstep
  | call p address =>
    rw [CallStep, HookedCalls.exec] at hstep
    split at hstep
    · obtain ⟨c, rfl⟩ := exists_of_map hstep
      exact hp
    · cases hstep
  | callback p address =>
    rw [CallStep, HookedCalls.exec] at hstep
    split at hstep
    · split at hstep
      · cases hstep
      · cases hstep
        exact hp
    · cases hstep
  | go p =>
    obtain ⟨c, rfl⟩ := exists_of_map hstep
    exact hp
  | doExit p =>
    rw [of_doExit hstep]
    exact hp

theorem probeOk_run (hfresh : s₀.Fresh count) (herrno : a.Errno) {es : List CallEvent}
    (h : Run (CallStep a count) (HookedCalls.start k₀ s₀) es u) : u.ProbeOk a count s₀ k₀ := by
  refine (h.invariant (I := fun u => HookedOk a count s₀ u ∧ u.ProbeOk a count s₀ k₀)
    (fun _ _ _ hs hstep => ?_) ?_).2
  · exact ⟨hookedOk_step hfresh herrno hs.1 hstep, probeOk_step hs.1 hs.2 hstep⟩
  · exact ⟨⟨loadOk_start hfresh, fun _ => trivial⟩, rfl⟩

/-- The step needs the memory of the driver. -/
def HookedCalls.UsesDriver (a : Answers) (count : ℕ) (s₀ : Tracing) (k₀ : Bool)
    (s : HookedCalls) : CallEvent → Prop
  | .loader => False
  | .call p address =>
      s.idle p = true ∧ a.Stuck count s₀ ∧ ∃ j, j < count ∧ s₀.function a j = address
  | .callback p address => s.idle p = true ∧ address ≠ 0
  | .go p => ∃ b, (s.call p).pc = .body b ∨ (s.call p).pc = .back b
  | .doExit p => s.idle p = true ∧ k₀ = true ∧ a.InitFails count s₀

theorem HookedOk.call_freed_iff (h : HookedOk a count s₀ u) :
    u.exec a count (.call p address) = .error .freed ↔
      u.loader = .gone ∧ u.UsesDriver a count s₀ k₀ (.call p address) := by
  have hentered := h.enter none address ⟨address, .outside, [], []⟩
  rw [HookedCalls.exec, HookedCalls.UsesDriver]
  by_cases hidle : u.idle p = true
  · rw [if_pos hidle, map_error]
    generalize u.enter count none address ⟨address, .outside, [], []⟩ = x at hentered ⊢
    cases hentered with
    | original hnone =>
      simp only [reduceCtorEq, false_iff]
      rintro ⟨hgone, _, hstuck, j, hlt, hfunction⟩
      refine absurd hfunction (hnone rfl j hlt ?_)
      rw [hgone, LoadPc.stage, if_pos hstuck]
    | hooked _ _ _ _ hgone =>
      simp [hgone]
    | freed hlt hlive hfunction hgone =>
      refine ⟨fun _ => ⟨hgone, hidle, ?_, _, hlt, hfunction⟩, fun _ => rfl⟩
      by_contra hstuck
      rw [hgone, LoadPc.stage, if_neg hstuck] at hlive
      cases hlive
  · simp [hidle]

theorem HookedOk.go_freed_iff (h : HookedOk a count s₀ u) :
    u.exec a count (.go p) = .error .freed ↔
      u.loader = .gone ∧ u.UsesDriver a count s₀ k₀ (.go p) := by
  rw [HookedCalls.exec, map_error, HookedCalls.UsesDriver]
  cases hpc : (u.call p).pc with
  | body b =>
    rw [h.advance_body (h.call p) hpc]
    by_cases hgone : u.loader = .gone
    · simp [hgone]
    · simp [hgone]
  | kernel caller =>
    cases caller <;> simp [HookedCalls.advance, hpc]
  | back b =>
    simp only [HookedCalls.advance, hpc]
    by_cases hgone : u.loader = .gone
    · simp [hgone]
    · simp [hgone]
  | _ => simp [HookedCalls.advance, hpc]

theorem HookedCalls.ProbeOk.doExit_freed_iff (h : u.ProbeOk a count s₀ k₀) :
    u.exec a count (.doExit p) = .error .freed ↔
      u.loader = .gone ∧ u.UsesDriver a count s₀ k₀ (.doExit p) := by
  rw [HookedCalls.exec, HookedCalls.UsesDriver]
  by_cases hidle : u.idle p = true
  · rw [if_pos hidle]
    by_cases hgone : u.loader = .gone
    · have hprobe : u.kprobe = true ↔ k₀ = true ∧ a.InitFails count s₀ := by
        rw [HookedCalls.ProbeOk, hgone] at h
        exact h
      rw [← hprobe]
      by_cases hk : u.kprobe = true <;> simp [hgone, hk, hidle]
    · simp [hgone]
  · simp [hidle]

/-- Which steps run into freed memory, in any state of any load and unload: those of calls
that are in the code of the driver when its memory is freed, later callbacks, all calls of
`do_exit` after `fh_init` failed, and, when it failed at `register_kretprobe`, all calls of
the hooked functions. -/
theorem call_faults_iff {es : List CallEvent} (hfresh : s₀.Fresh count) (herrno : a.Errno)
    (h : Run (CallStep a count) (HookedCalls.start k₀ s₀) es u) (e : CallEvent) :
    u.exec a count e = .error .freed ↔ u.loader = .gone ∧ u.UsesDriver a count s₀ k₀ e := by
  have hok := hookedOk_run hfresh herrno h
  cases e with
  | loader => simp [HookedCalls.exec, HookedCalls.UsesDriver]
  | call p address => exact hok.call_freed_iff
  | callback p address =>
    rw [HookedCalls.exec, HookedCalls.UsesDriver]
    by_cases hidle : u.idle p = true ∧ address ≠ 0
    · rw [if_pos hidle]
      split
      · rename_i hgone
        exact ⟨fun _ => ⟨hgone, hidle⟩, fun _ => rfl⟩
      · rename_i hgone
        simp [hgone]
    · rw [if_neg hidle]
      constructor
      · intro hexec
        cases hexec
      · exact fun hfreed => absurd hfreed.2 hidle
  | go p => exact hok.go_freed_iff
  | doExit p => exact (probeOk_run hfresh herrno h).doExit_freed_iff

/-! ## Runs -/

/-- All calls of the loader succeed. -/
def answersFine : Answers := { kretprobeFails with registerKretprobe := 0 }

theorem hooks_fresh : Module.loaded.Fresh 2 := by
  have hcases : ∀ i, i < 2 → i = 0 ∨ i = 1 := by omega
  constructor
  · intro j hlt
    rcases hcases j hlt with rfl | rfl <;> exact hook_removed _ _ _
  · intro i j hi hj heq
    rcases hcases i hi with rfl | rfl <;> rcases hcases j hj with rfl | rfl
    · rfl
    · exact absurd heq (by decide)
    · exact absurd heq (by decide)
    · rfl

theorem kretprobeFails_errno : kretprobeFails.Errno :=
  ⟨fun _ => Int.le_refl 0, fun _ => Int.le_refl 0⟩

theorem answersFine_errno : answersFine.Errno :=
  ⟨fun _ => Int.le_refl 0, fun _ => Int.le_refl 0⟩

theorem exists_callRun (a : Answers) (es : List CallEvent) (p : HookedCalls → Bool)
    (h : (replay (HookedCalls.exec a 2) (fun _ _ => true) (HookedCalls.start true Module.loaded)
      es).any p = true) :
    ∃ u, Run (CallStep a 2) (HookedCalls.start true Module.loaded) es u ∧ p u = true := by
  obtain ⟨u, hrun, hp⟩ := exists_run _ _ _ _ _ h
  exact ⟨u, hrun.mono fun _ _ _ h => h.2, hp⟩

/-- `register_kretprobe` fails, and the next call of `proc_pident_readdir` runs into freed
memory, and so does the next call of `do_exit`. -/
theorem call_faults_after_kretprobe : ∃ (es : List CallEvent) (u : HookedCalls),
    Run (CallStep kretprobeFails 2) (HookedCalls.start true Module.loaded) es u ∧
    u.exec kretprobeFails 2 (.call 5 0x8000) = .error .freed ∧
    u.exec kretprobeFails 2 (.doExit 5) = .error .freed := by
  obtain ⟨u, hrun, hp⟩ := exists_callRun kretprobeFails (List.replicate 10 .loader)
    (fun u => decide (u.loader = .gone ∧ u.idle 5 = true)) (by decide +kernel)
  obtain ⟨hgone, hidle⟩ := of_decide_eq_true hp
  have hstuck : kretprobeFails.Stuck 2 Module.loaded := by decide
  have hfaults := call_faults_iff hooks_fresh kretprobeFails_errno hrun
  exact ⟨_, u, hrun, (hfaults _).mpr ⟨hgone, hidle, hstuck, 0, by decide, rfl⟩,
    (hfaults _).mpr ⟨hgone, hidle, rfl, .inr hstuck.1⟩⟩

end LinuxFibers.Module
