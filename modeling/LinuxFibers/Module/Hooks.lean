import LinuxFibers.Lib.Unwind
import LinuxFibers.Module.Types

/-!
# The ftrace hooks

`fh_install_hook`, `fh_install_hooks`, their inverses, `fh_init` and `fh_exit` of
`proc.c`.  `fh_install_hooks` is all or nothing.  `fh_init` is not: it leaves the hooks
installed when it returns -1 because `register_kretprobe` failed.

* The answers of the kernel's functions are arbitrary (`Answers`).  A call that fails
  changes nothing.
* The calls that remove something succeed.
* A hook is given by its place in the table, as `hooks` is by a pointer.
-/

namespace LinuxFibers.Module

open LinuxFibers.Lib

/-! ## The hooks and the kernel -/

/-- The flags that `fh_install_hook` sets. -/
inductive OpsFlag where
  | saveRegs
  | recursionSafe
  | ipmodify
  deriving DecidableEq

/-- `struct ftrace_ops`: its two fields, its filter, and how often it is registered. -/
structure FtraceOps where
  /-- Whether `func` is `fh_ftrace_thunk`. -/
  thunk : Bool
  flags : List OpsFlag
  filter : List Word
  registered : ℕ

/-- `struct ftrace_hook`. -/
structure FtraceHook where
  name : String
  function : Word
  original : Word
  address : Word
  ops : FtraceOps

/-- The initializer `HOOK(name, function, original)`. -/
def hook (name : String) (function original : Word) : FtraceHook :=
  ⟨name, function, original, 0, ⟨false, [], [], 0⟩⟩

/-- The table of hooks, the pointers to the original functions, and the symbol and the
registrations of `kretprobe_switch`. -/
structure Tracing where
  hooks : ℕ → FtraceHook
  pointers : Word → Word
  symbolName : Option String
  kretprobes : ℕ

/-- What the functions of the kernel answer: the first three for the hook at a place. -/
structure Answers where
  kallsymsLookupName : ℕ → String → Word
  ftraceSetFilterIp : ℕ → ℤ
  registerFtraceFunction : ℕ → ℤ
  registerKretprobe : ℤ

namespace Tracing

/-- A write to the hook `i`. -/
def setHook (s : Tracing) (i : ℕ) (h : FtraceHook) : Tracing :=
  { s with hooks := Function.update s.hooks i h }

/-- A write to `hooks[i].ops`. -/
def setOps (s : Tracing) (i : ℕ) (ops : FtraceOps) : Tracing :=
  s.setHook i { s.hooks i with ops := ops }

variable {s : Tracing} {i j : ℕ}

@[simp] theorem setHook_self (h : FtraceHook) : (s.setHook i h).hooks i = h :=
  show Function.update s.hooks i h i = h from Function.update_self i h s.hooks

theorem setHook_of_ne (hne : j ≠ i) (h : FtraceHook) : (s.setHook i h).hooks j = s.hooks j :=
  show Function.update s.hooks i h j = s.hooks j from Function.update_of_ne hne h s.hooks

@[simp] theorem setOps_self (ops : FtraceOps) :
    (s.setOps i ops).hooks i = { s.hooks i with ops := ops } :=
  setHook_self _

theorem setOps_of_ne (hne : j ≠ i) (ops : FtraceOps) : (s.setOps i ops).hooks j = s.hooks j :=
  setHook_of_ne hne _

end Tracing

/-- `ftrace_set_filter_ip` for the address of the hook, with `remove` 0. -/
def ftraceSetFilterIp (answer : ℤ) (i : ℕ) (s : Tracing) : ℤ × Tracing :=
  let ops := (s.hooks i).ops
  (answer, if answer = 0 then
    s.setOps i { ops with filter := ops.filter.insert (s.hooks i).address } else s)

/-- `ftrace_set_filter_ip` for the address of the hook, with `remove` 1. -/
def ftraceResetFilterIp (i : ℕ) (s : Tracing) : Tracing :=
  let ops := (s.hooks i).ops
  s.setOps i { ops with filter := ops.filter.erase (s.hooks i).address }

def registerFtraceFunction (answer : ℤ) (i : ℕ) (s : Tracing) : ℤ × Tracing :=
  let ops := (s.hooks i).ops
  (answer, if answer = 0 then s.setOps i { ops with registered := ops.registered + 1 } else s)

def unregisterFtraceFunction (i : ℕ) (s : Tracing) : Tracing :=
  let ops := (s.hooks i).ops
  s.setOps i { ops with registered := ops.registered - 1 }

def registerKretprobe (answer : ℤ) (s : Tracing) : ℤ × Tracing :=
  (answer, if answer < 0 then s else { s with kretprobes := s.kretprobes + 1 })

def unregisterKretprobe (s : Tracing) : Tracing :=
  { s with kretprobes := s.kretprobes - 1 }

/-! ## The functions of `proc.c` -/

/-- `fh_resolve_hook_address`.  The error is `-ENOENT`. -/
def fhResolveHookAddress (a : Answers) (i : ℕ) (s : Tracing) : ℤ × Tracing :=
  let address := a.kallsymsLookupName i (s.hooks i).name
  let s := s.setHook i { s.hooks i with address := address }
  if address = 0 then (-2, s)
  else (0, { s with pointers := Function.update s.pointers (s.hooks i).original address })

/-- `fh_install_hook`. -/
def fhInstallHook (a : Answers) (i : ℕ) (s : Tracing) : ℤ × Tracing :=
  let (err, s) := fhResolveHookAddress a i s
  if err ≠ 0 then (err, s)
  else
    let s := s.setOps i { (s.hooks i).ops with
      thunk := true, flags := [.saveRegs, .recursionSafe, .ipmodify] }
    let (err, s) := ftraceSetFilterIp (a.ftraceSetFilterIp i) i s
    if err ≠ 0 then (err, s)
    else
      let (err, s) := registerFtraceFunction (a.registerFtraceFunction i) i s
      if err ≠ 0 then (err, ftraceResetFilterIp i s)
      else (0, s)

/-- `fh_remove_hook`. -/
def fhRemoveHook (i : ℕ) (s : Tracing) : Tracing :=
  ftraceResetFilterIp i (unregisterFtraceFunction i s)

/-- `fh_install_hooks`: the hooks before the one that fails are removed again, the last
one first. -/
def fhInstallHooks (a : Answers) (count : ℕ) (s : Tracing) : ℤ × Tracing :=
  installAll (fhInstallHook a) fhRemoveHook count s

/-- `fh_remove_hooks`. -/
def fhRemoveHooks (count : ℕ) (s : Tracing) : Tracing :=
  removeAll fhRemoveHook count s

/-- `fh_init`, for a table of `count` hooks. -/
def fhInit (a : Answers) (count : ℕ) (s : Tracing) : ℤ × Tracing :=
  let (err, s) := fhInstallHooks a count s
  if err ≠ 0 then (err, s)
  else
    let s := { s with symbolName := some "finish_task_switch" }
    let (ret, s) := registerKretprobe a.registerKretprobe s
    if ret < 0 then (-1, s) else (0, s)

/-- `fh_exit`. -/
def fhExit (count : ℕ) (s : Tracing) : Tracing :=
  unregisterKretprobe (fhRemoveHooks count s)

/-! ## What a hook should be -/

/-- The hook is neither registered nor has it a filter. -/
structure FtraceHook.Removed (h : FtraceHook) : Prop where
  registered : h.ops.registered = 0
  filter : h.ops.filter = []

/-- The hook is registered once, for its address. -/
structure FtraceHook.Installed (h : FtraceHook) : Prop where
  registered : h.ops.registered = 1
  filter : h.ops.filter = [h.address]

theorem hook_removed (name : String) (function original : Word) :
    (hook name function original).Removed :=
  ⟨rfl, rfl⟩

/-- A value that is not 0 says that all hooks of the table are removed, and 0 that all
of them are installed. -/
def AllOrNothing (count : ℕ) (r : ℤ × Tracing) : Prop :=
  (r.1 ≠ 0 → ∀ i, i < count → (r.2.hooks i).Removed) ∧
    (r.1 = 0 → ∀ i, i < count → (r.2.hooks i).Installed)

/-- One of the three calls for the hook at a place fails. -/
def Answers.HookFails (a : Answers) (name : String) (i : ℕ) : Prop :=
  a.kallsymsLookupName i name = 0 ∨ a.ftraceSetFilterIp i ≠ 0 ∨ a.registerFtraceFunction i ≠ 0

/-! ## One hook -/

variable {a : Answers} {s : Tracing} {i j count : ℕ}

/-- What `fh_install_hook` returns. -/
def hookError (a : Answers) (name : String) (i : ℕ) : ℤ :=
  if a.kallsymsLookupName i name = 0 then -2
  else if a.ftraceSetFilterIp i ≠ 0 then a.ftraceSetFilterIp i
  else a.registerFtraceFunction i

theorem hookError_eq_zero_iff (a : Answers) (name : String) (i : ℕ) :
    hookError a name i = 0 ↔ ¬ a.HookFails name i := by
  rw [hookError, Answers.HookFails]
  split
  · simp_all
  · split <;> simp_all

/-- The hook after the writes to its fields. -/
def prepared (a : Answers) (i : ℕ) (h : FtraceHook) : FtraceHook :=
  { h with
    address := a.kallsymsLookupName i h.name
    ops := { h.ops with thunk := true, flags := [.saveRegs, .recursionSafe, .ipmodify] } }

/-- The hook that `fh_install_hook` leaves. -/
def installedHook (a : Answers) (i : ℕ) (h : FtraceHook) : FtraceHook :=
  let p := prepared a i h
  if a.kallsymsLookupName i h.name = 0 then { h with address := 0 }
  else if a.ftraceSetFilterIp i ≠ 0 then p
  else
    let filter := p.ops.filter.insert p.address
    if a.registerFtraceFunction i ≠ 0 then
      { p with ops := { p.ops with filter := filter.erase p.address } }
    else { p with ops := { p.ops with filter := filter, registered := p.ops.registered + 1 } }

/-- The pointers to the original functions that `fh_install_hook` leaves. -/
def resolvedPointers (a : Answers) (i : ℕ) (s : Tracing) : Word → Word :=
  let address := a.kallsymsLookupName i (s.hooks i).name
  if address = 0 then s.pointers
  else Function.update s.pointers (s.hooks i).original address

theorem Tracing.setOps_setHook (h : FtraceHook) (ops : FtraceOps) :
    (s.setHook i h).setOps i ops = s.setHook i { h with ops := ops } := by
  rw [Tracing.setOps, Tracing.setHook_self, Tracing.setHook, Tracing.setHook, Tracing.setHook,
    Function.update_idem]

theorem fhInstallHook_eq (a : Answers) (i : ℕ) (s : Tracing) :
    fhInstallHook a i s = (hookError a (s.hooks i).name i,
      { s with pointers := resolvedPointers a i s }.setHook i (installedHook a i (s.hooks i))) := by
  by_cases hlookup : a.kallsymsLookupName i (s.hooks i).name = 0
  · have hresolve : fhResolveHookAddress a i s =
        (-2, s.setHook i { s.hooks i with address := 0 }) := by
      rw [fhResolveHookAddress, if_pos hlookup, hlookup]
    rw [fhInstallHook, hresolve, hookError, installedHook, resolvedPointers, if_pos hlookup,
      if_pos hlookup, if_pos hlookup]
    rfl
  have hresolve : fhResolveHookAddress a i s =
      (0, { s with pointers := resolvedPointers a i s }.setHook i
        { s.hooks i with address := a.kallsymsLookupName i (s.hooks i).name }) := by
    rw [fhResolveHookAddress, if_neg hlookup, resolvedPointers, if_neg hlookup,
      Tracing.setHook_self]
    rfl
  rw [fhInstallHook, hresolve, hookError, installedHook, if_neg hlookup, if_neg hlookup]
  simp only [ne_eq, not_true_eq_false, if_false, Tracing.setOps_setHook, Tracing.setHook_self]
  by_cases hfilter : a.ftraceSetFilterIp i = 0
  · by_cases hregister : a.registerFtraceFunction i = 0
    · simp [ftraceSetFilterIp, registerFtraceFunction, hfilter, hregister, prepared,
        Tracing.setOps_setHook]
    · simp [ftraceSetFilterIp, registerFtraceFunction, hfilter, hregister, prepared,
        Tracing.setOps_setHook, ftraceResetFilterIp]
  · simp [ftraceSetFilterIp, hfilter, prepared]

theorem fhRemoveHook_eq (i : ℕ) (s : Tracing) :
    fhRemoveHook i s = s.setOps i { (s.hooks i).ops with
      registered := (s.hooks i).ops.registered - 1
      filter := (s.hooks i).ops.filter.erase (s.hooks i).address } := by
  simp [fhRemoveHook, unregisterFtraceFunction, ftraceResetFilterIp, Tracing.setOps,
    Tracing.setHook]

theorem FtraceHook.Removed.installed {h : FtraceHook} (hr : h.Removed)
    (hok : hookError a h.name i = 0) : (installedHook a i h).Installed := by
  have hok := (hookError_eq_zero_iff a h.name i).mp hok
  have hlookup : a.kallsymsLookupName i h.name ≠ 0 := fun heq => hok (.inl heq)
  have hfilter : ¬ a.ftraceSetFilterIp i ≠ 0 := fun hne => hok (.inr (.inl hne))
  have hregister : ¬ a.registerFtraceFunction i ≠ 0 := fun hne => hok (.inr (.inr hne))
  rw [installedHook, if_neg hlookup, if_neg hfilter, if_neg hregister]
  constructor
  · show h.ops.registered + 1 = 1
    rw [hr.registered]
  · show h.ops.filter.insert (a.kallsymsLookupName i h.name) = _
    rw [hr.filter]
    rfl

theorem FtraceHook.Removed.failed {h : FtraceHook} (hr : h.Removed)
    (hne : hookError a h.name i ≠ 0) : (installedHook a i h).Removed := by
  have hfails : a.HookFails h.name i :=
    not_not.mp fun hnot => hne ((hookError_eq_zero_iff a h.name i).mpr hnot)
  rw [installedHook]
  split
  · exact ⟨hr.registered, hr.filter⟩
  · split
    · exact ⟨hr.registered, hr.filter⟩
    · split
      · refine ⟨hr.registered, ?_⟩
        show (h.ops.filter.insert (a.kallsymsLookupName i h.name)).erase _ = []
        rw [hr.filter]
        exact List.erase_cons_head ..
      · rename_i hlookup hfilter hregister
        exact absurd ((hfails.resolve_left hlookup).resolve_left hfilter) hregister

/-- The operations on one hook are undone one by one. -/
theorem fhInstallHook_undoable (a : Answers) :
    Undoable (fhInstallHook a) fhRemoveHook (fun i s => s.hooks i) FtraceHook.Removed
      FtraceHook.Installed where
  installed i s hr hok := by
    rw [fhInstallHook_eq] at hok ⊢
    show (Tracing.hooks _ i).Installed
    rw [Tracing.setHook_self]
    exact hr.installed hok
  failed i s hr hne := by
    rw [fhInstallHook_eq] at hne ⊢
    show (Tracing.hooks _ i).Removed
    rw [Tracing.setHook_self]
    exact hr.failed hne
  removed i s hi := by
    show ((fhRemoveHook i s).hooks i).Removed
    rw [fhRemoveHook_eq, Tracing.setOps_self]
    constructor
    · show (s.hooks i).ops.registered - 1 = 0
      rw [hi.registered]
    · show (s.hooks i).ops.filter.erase (s.hooks i).address = []
      rw [hi.filter]
      exact List.erase_cons_head ..
  install_other i j s hne := by
    rw [fhInstallHook_eq]
    exact Tracing.setHook_of_ne hne _
  remove_other i j s hne := by
    rw [fhRemoveHook_eq]
    exact Tracing.setOps_of_ne hne _

/-! ## The table -/

/-- The names of the hooks are read only. -/
theorem fhInstallHook_name (a : Answers) (i : ℕ) (s : Tracing) (j : ℕ) :
    ((fhInstallHook a i s).2.hooks j).name = (s.hooks j).name := by
  rw [fhInstallHook_eq]
  by_cases hj : j = i
  · rw [hj]
    show (Tracing.hooks _ i).name = _
    rw [Tracing.setHook_self, installedHook]
    split
    · rfl
    · split
      · rfl
      · split <;> rfl
  · show (Tracing.hooks _ j).name = _
    rw [Tracing.setHook_of_ne hj]

theorem fhInstallHooks_allOrNothing (h : ∀ i, i < count → (s.hooks i).Removed) :
    AllOrNothing count (fhInstallHooks a count s) :=
  (fhInstallHook_undoable a).installAll_allOrNothing h

theorem fhInstallHooks_eq_zero_iff (a : Answers) (count : ℕ) (s : Tracing) :
    (fhInstallHooks a count s).1 = 0 ↔ ∀ i, i < count → ¬ a.HookFails (s.hooks i).name i := by
  rw [fhInstallHooks, installAll_eq_zero_iff
    (fun s' => ∀ j, (s'.hooks j).name = (s.hooks j).name)
    (fun i => hookError a (s.hooks i).name i) (fun i s' hs => by rw [fhInstallHook_eq, hs i])
    (fun i s' hs j => (fhInstallHook_name a i s' j).trans (hs j)) (fun _ => rfl)]
  constructor
  · intro hzero i hi
    exact (hookError_eq_zero_iff a _ i).mp (hzero i hi)
  · intro hall i hi
    exact (hookError_eq_zero_iff a _ i).mpr (hall i hi)

theorem fhInit_of_error (h : (fhInstallHooks a count s).1 ≠ 0) :
    fhInit a count s = fhInstallHooks a count s := by
  rw [fhInit]
  exact if_pos h

theorem fhInit_of_ok (h : (fhInstallHooks a count s).1 = 0) :
    (fhInit a count s).1 = (if a.registerKretprobe < 0 then -1 else 0) ∧
      (fhInit a count s).2.hooks = (fhInstallHooks a count s).2.hooks ∧
      (fhInit a count s).2.kretprobes = (fhInstallHooks a count s).2.kretprobes +
        (if a.registerKretprobe < 0 then 0 else 1) := by
  simp only [fhInit, registerKretprobe, h, ne_eq, not_true_eq_false, if_false]
  split
  · exact ⟨rfl, rfl, rfl⟩
  · exact ⟨rfl, rfl, rfl⟩

/-- `rmmod` after `insmod`. -/
theorem fhExit_removed (h : ∀ i, i < count → (s.hooks i).Removed)
    (hok : (fhInit a count s).1 = 0) :
    (∀ i, i < count → ((fhExit count (fhInit a count s).2).hooks i).Removed) ∧
      (fhExit count (fhInit a count s).2).kretprobes = s.kretprobes := by
  have hinstall : (fhInstallHooks a count s).1 = 0 := by
    by_contra hne
    rw [fhInit_of_error hne] at hok
    exact hne hok
  obtain ⟨hret, hhooks, hkretprobes⟩ := fhInit_of_ok hinstall
  have hkret : ¬ a.registerKretprobe < 0 := fun hneg => by
    rw [hret, if_pos hneg] at hok
    cases hok
  constructor
  · refine (fhInstallHook_undoable a).removeAll_clean fun i hi => ?_
    show ((fhInit a count s).2.hooks i).Installed
    rw [hhooks]
    exact (fhInstallHooks_allOrNothing h).2 hinstall i hi
  · have hremove : ∀ i s, (fhRemoveHook i s).kretprobes = s.kretprobes := fun _ _ => rfl
    have hkeep : (fhInstallHooks a count s).2.kretprobes = s.kretprobes :=
      installFrom_keeps (f := Tracing.kretprobes)
        (fun i s => by rw [fhInstallHook_eq]; rfl) hremove
    show (fhRemoveHooks count (fhInit a count s).2).kretprobes - 1 = _
    rw [show (fhRemoveHooks count (fhInit a count s).2).kretprobes = _ from
      removeFrom_keeps (f := Tracing.kretprobes) hremove, hkretprobes, if_neg hkret, hkeep,
      Nat.add_sub_cancel]

/-- `fh_install_hooks` is all or nothing, and `fh_init` is unless `register_kretprobe`
fails after all hooks of a table that has some were installed. -/
theorem hooks_allOrNothing_iff (h : ∀ i, i < count → (s.hooks i).Removed) :
    AllOrNothing count (fhInstallHooks a count s) ∧
      (AllOrNothing count (fhInit a count s) ↔
        0 ≤ a.registerKretprobe ∨ count = 0 ∨
          ∃ i, i < count ∧ a.HookFails (s.hooks i).name i) := by
  have hall : AllOrNothing count (fhInstallHooks a count s) := fhInstallHooks_allOrNothing h
  refine ⟨hall, ?_⟩
  by_cases hinstall : (fhInstallHooks a count s).1 = 0
  · obtain ⟨hret, hhooks, _⟩ := fhInit_of_ok hinstall
    have hdone := hall.2 hinstall
    have hnone := (fhInstallHooks_eq_zero_iff a count s).mp hinstall
    rw [AllOrNothing, hhooks, hret]
    constructor
    · intro hboth
      by_cases hneg : a.registerKretprobe < 0
      · refine .inr (.inl (Nat.eq_zero_of_not_pos fun hpos => ?_))
        -- the first hook is registered, though `fh_init` returns -1
        have hremoved := (hboth.1 (by rw [if_pos hneg]; decide) 0 hpos).registered
        rw [(hdone 0 hpos).registered] at hremoved
        cases hremoved
      · exact .inl (by omega)
    · intro hcond
      rcases hcond with hnonneg | hcount | ⟨i, hi, hfails⟩
      · rw [if_neg (by omega)]
        exact ⟨fun hne => absurd rfl hne, fun _ => hdone⟩
      · exact ⟨fun _ i hi => by omega, fun _ => hdone⟩
      · exact absurd hfails (hnone i hi)
  · rw [fhInit_of_error hinstall]
    constructor
    · intro _
      by_contra hnot
      refine hinstall ((fhInstallHooks_eq_zero_iff a count s).mpr fun i hi hfails => ?_)
      exact hnot (.inr (.inr ⟨i, hi, hfails⟩))
    · intro _
      exact hall

/-! ## The table of the module -/

/-- `hooks` of `proc.c`, for the addresses of the functions and pointers that it names. -/
def hooks (fhReaddir realReaddir fhLookup realLookup : Word) : ℕ → FtraceHook
  | 0 => hook "proc_pident_readdir" fhReaddir realReaddir
  | _ => hook "proc_pident_lookup" fhLookup realLookup

/-- The module as it is loaded. -/
def loaded : Tracing :=
  ⟨hooks 0x1000 0x2000 0x1100 0x2008, fun _ => 0, none, 0⟩

/-- All calls succeed except `register_kretprobe`, which answers `-EINVAL`. -/
def kretprobeFails : Answers :=
  ⟨fun i _ => if i = 0 then 0x8000 else 0x9000, fun _ => 0, fun _ => 0, -22⟩

/-- `hooks_allOrNothing_iff` when the second hook cannot be resolved. -/
theorem hooks_allOrNothing_unresolved :
    AllOrNothing 2 (fhInit { kretprobeFails with
      kallsymsLookupName := fun i _ => if i = 0 then 0x8000 else 0 } 2 loaded) := by
  refine (hooks_allOrNothing_iff fun i hi => ?_).2.mpr (.inr (.inr ⟨1, by decide, .inl rfl⟩))
  match i with
  | 0 => exact hook_removed _ _ _
  | 1 => exact hook_removed _ _ _

/-- `fh_init` returns -1 and both hooks stay registered. -/
theorem fhInit_leaves_hooks :
    (fhInit kretprobeFails 2 loaded).1 = -1 ∧
      ((fhInit kretprobeFails 2 loaded).2.hooks 0).ops.registered = 1 ∧
      ((fhInit kretprobeFails 2 loaded).2.hooks 1).ops.registered = 1 ∧
      ¬ AllOrNothing 2 (fhInit kretprobeFails 2 loaded) := by
  have hfirst : ((fhInit kretprobeFails 2 loaded).2.hooks 0).ops.registered = 1 := by decide
  refine ⟨by decide, hfirst, by decide, fun hall => ?_⟩
  have hremoved := (hall.1 (by decide) 0 (by decide)).registered
  rw [hfirst] at hremoved
  cases hremoved

end LinuxFibers.Module
