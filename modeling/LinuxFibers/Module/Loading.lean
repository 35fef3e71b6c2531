import LinuxFibers.Lib.Run
import LinuxFibers.Module.Hooks

/-!
# Loading and unloading the drivers

`fiber_ioctl_init` and `fiber_ioctl_exit` of both fiber drivers, and `query_ioctl_init`
and `query_ioctl_exit`.  The three register a character device in the same way, and
all of them call its class `char`.

* What the kernel answers is arbitrary, except that `class_create` refuses a name that
  is taken, and that errors of the ftrace functions are negative.  The calls that remove
  something succeed.
* A driver that is loaded is not loaded a second time.
* A load that fails ends its image.  What the image has registered then stays.

`loads_accounted` says what stays, over any history.  `load_succeeds_iff` says when a
load returns 0: never while one of the three is loaded, and never again after `fh_init`
has failed once (`no_load_again`).
-/

namespace LinuxFibers.Module

open LinuxFibers.Lib

/-! ## The drivers -/

/-- The drivers of the repository. -/
inductive Driver where
  | multiThread
  | singleThread
  | query
  deriving DecidableEq

/-- What the kernel answers in a load. -/
structure LoadAnswers where
  allocChrdevRegion : ℤ
  cdevAdd : ℤ
  classCreate : ℤ
  deviceCreate : ℤ
  registerKprobe : ℤ
  hooks : Answers

/-- The image of a driver, with what it has registered. -/
structure Image where
  driver : Driver
  region : Bool
  cdev : Bool
  cls : Bool
  device : Bool
  kprobe : Bool
  tracing : Tracing

/-- The addresses that the table of hooks names. -/
structure HookTable where
  fhReaddir : Word
  realReaddir : Word
  fhLookup : Word
  realLookup : Word

/-- The image as it is loaded. -/
def Image.fresh (d : Driver) (w : HookTable) : Image where
  driver := d
  region := false
  cdev := false
  cls := false
  device := false
  kprobe := false
  tracing :=
    ⟨Module.hooks w.fhReaddir w.realReaddir w.fhLookup w.realLookup, fun _ => 0, none, 0⟩

namespace Image

/-- What the `init` functions do first: the region of numbers, the device, the class
`char` and its node. -/
def createDevice (a : LoadAnswers) (m : Image) : ℤ × Image :=
  if a.allocChrdevRegion < 0 then (a.allocChrdevRegion, m)
  else
    let m := { m with region := true }
    if a.cdevAdd < 0 then (a.cdevAdd, m)
    else
      let m := { m with cdev := true }
      if a.classCreate < 0 then (a.classCreate, { m with cdev := false, region := false })
      else
        let m := { m with cls := true }
        if a.deviceCreate < 0 then
          (a.deviceCreate, { m with cls := false, cdev := false, region := false })
        else (0, { m with device := true })

/-- What the `exit` functions do first. -/
def destroyDevice (m : Image) : Image :=
  { m with device := false, cls := false, cdev := false, region := false }

/-- `register_kprobe`, whose value is not looked at. -/
def registerKprobe (a : LoadAnswers) (m : Image) : Image :=
  { m with kprobe := decide (a.registerKprobe = 0) }

/-- `fiber_ioctl_init` of `multi_thread`. -/
def fiberIoctlInit (a : LoadAnswers) (m : Image) : ℤ × Image :=
  let (ret, m) := m.createDevice a
  if ret < 0 then (ret, m)
  else
    let m := m.registerKprobe a
    let (ret, tracing) := fhInit a.hooks 2 m.tracing
    let m := { m with tracing := tracing }
    if ret < 0 then (-1, m) else (0, m)

/-- `fiber_ioctl_exit` of `multi_thread`. -/
def fiberIoctlExit (m : Image) : Image :=
  let m := { m.destroyDevice with kprobe := false }
  { m with tracing := fhExit 2 m.tracing }

/-- `fiber_ioctl_init` of `single_thread`. -/
def singleIoctlInit (a : LoadAnswers) (m : Image) : ℤ × Image :=
  let (ret, m) := m.createDevice a
  if ret < 0 then (ret, m) else (0, m.registerKprobe a)

/-- `fiber_ioctl_exit` of `single_thread`. -/
def singleIoctlExit (m : Image) : Image :=
  { m.destroyDevice with kprobe := false }

/-- `query_ioctl_init`. -/
def queryIoctlInit (a : LoadAnswers) (m : Image) : ℤ × Image :=
  m.createDevice a

/-- `query_ioctl_exit`. -/
def queryIoctlExit (m : Image) : Image := m.destroyDevice

/-- `module_init` of the driver. -/
def init (m : Image) (a : LoadAnswers) : ℤ × Image :=
  match m.driver with
  | .multiThread => m.fiberIoctlInit a
  | .singleThread => m.singleIoctlInit a
  | .query => m.queryIoctlInit a

/-- `module_exit` of the driver. -/
def exit (m : Image) : Image :=
  match m.driver with
  | .multiThread => m.fiberIoctlExit
  | .singleThread => m.singleIoctlExit
  | .query => m.queryIoctlExit

end Image

/-! ## The history of a kernel -/

/-- The images that run, and those whose memory is given back. -/
structure Drivers where
  loaded : List Image
  gone : List Image

/-- `insmod` and `rmmod`. -/
inductive ModuleEvent where
  | load (d : Driver) (w : HookTable) (a : LoadAnswers)
  | unload (d : Driver)

namespace Drivers

/-- There is a class `char`. -/
def taken (s : Drivers) : Bool := (s.loaded ++ s.gone).any Image.cls

/-- One event. -/
def exec (s : Drivers) : ModuleEvent → Except Unit Drivers
  | .load d w a =>
      if s.loaded.any fun m => m.driver = d then .error ()
      else
        let r := (Image.fresh d w).init a
        .ok (if r.1 = 0 then { s with loaded := r.2 :: s.loaded }
          else { s with gone := r.2 :: s.gone })
  | .unload d =>
      match s.loaded.find? fun m => m.driver = d with
      | none => .error ()
      | some m =>
          .ok ⟨s.loaded.filter fun m => m.driver ≠ d, m.exit :: s.gone⟩

/-- The kernel before the first load. -/
def start : Drivers := ⟨[], []⟩

end Drivers

/-- The errors of the ftrace functions are negative. -/
def ModuleEvent.errno : ModuleEvent → Prop
  | .load _ _ a =>
      (∀ i, a.hooks.ftraceSetFilterIp i ≤ 0) ∧ ∀ i, a.hooks.registerFtraceFunction i ≤ 0
  | .unload _ => True

/-- `class_create` refuses the name `char` when there is a class of this name. -/
def ModuleEvent.refuses (s : Drivers) : ModuleEvent → Prop
  | .load _ _ a => s.taken = true → a.classCreate < 0
  | .unload _ => True

instance (s : Drivers) : DecidablePred (ModuleEvent.refuses s) := fun e =>
  match e with
  | .load _ _ a => inferInstanceAs (Decidable (s.taken = true → a.classCreate < 0))
  | .unload _ => .isTrue trivial

/-- The events of a kernel. -/
def ModuleStep (s : Drivers) (e : ModuleEvent) (t : Drivers) : Prop :=
  e.errno ∧ e.refuses s ∧ s.exec e = .ok t

/-! ## What a load leaves -/

/-- The hooks of an image are as `fh_init` found them. -/
structure Image.Unhooked (m : Image) : Prop where
  hooks : ∀ i, i < 2 → (m.tracing.hooks i).Removed
  kretprobes : m.tracing.kretprobes = 0

/-- Nothing is registered. -/
structure Image.Clean (m : Image) : Prop extends m.Unhooked where
  region : m.region = false
  cdev : m.cdev = false
  cls : m.cls = false
  device : m.device = false
  kprobe : m.kprobe = false

/-- Only the region of numbers is registered. -/
structure Image.RegionOnly (m : Image) : Prop extends m.Unhooked where
  region : m.region = true
  cdev : m.cdev = false
  cls : m.cls = false
  device : m.device = false
  kprobe : m.kprobe = false

/-- The device and its class are registered. -/
structure Image.Present (m : Image) : Prop where
  region : m.region = true
  cdev : m.cdev = true
  cls : m.cls = true
  device : m.device = true

/-- All that the `init` function of the driver looks for is registered.  It does not look
at the value of `register_kprobe`, so the probe of `do_exit` may be missing. -/
structure Image.Running (m : Image) : Prop extends m.Present where
  hooked : m.driver = .multiThread →
    (∀ i, i < 2 → (m.tracing.hooks i).Installed) ∧ m.tracing.kretprobes = 1
  unhooked : m.driver ≠ .multiThread → m.Unhooked
  kprobe : m.driver = .query → m.kprobe = false

/-- The device stays without its driver: the hooks failed, or `register_kretprobe` did
with the hooks installed. -/
structure Image.Stuck (m : Image) : Prop extends m.Present where
  driver : m.driver = .multiThread
  hooks : (∀ i, i < 2 → (m.tracing.hooks i).Removed) ∨
    ∀ i, i < 2 → (m.tracing.hooks i).Installed
  kretprobes : m.tracing.kretprobes = 0

/-- The region is made, and then `cdev_add` fails. -/
def LoadAnswers.LeaksRegion (a : LoadAnswers) : Prop :=
  0 ≤ a.allocChrdevRegion ∧ a.cdevAdd < 0

instance (a : LoadAnswers) : Decidable a.LeaksRegion := inferInstanceAs (Decidable (_ ∧ _))

/-- The four calls for the device succeed. -/
def LoadAnswers.CreatesDevice (a : LoadAnswers) : Prop :=
  0 ≤ a.allocChrdevRegion ∧ 0 ≤ a.cdevAdd ∧ 0 ≤ a.classCreate ∧ 0 ≤ a.deviceCreate

instance (a : LoadAnswers) : Decidable a.CreatesDevice := inferInstanceAs (Decidable (_ ∧ _))

/-- `fh_init` fails. -/
def LoadAnswers.HooksFail (a : LoadAnswers) : Prop :=
  a.hooks.HookFails "proc_pident_readdir" 0 ∨ a.hooks.HookFails "proc_pident_lookup" 1 ∨
    a.hooks.registerKretprobe < 0

/-- The hooks are fine for the driver. -/
def LoadAnswers.HooksFit (a : LoadAnswers) (d : Driver) : Prop :=
  d = .multiThread → ¬a.HooksFail

/-- The four ends of a load. -/
inductive Inited (d : Driver) (a : LoadAnswers) : ℤ × Image → Prop where
  | clean {r : ℤ × Image} : ¬a.LeaksRegion → ¬a.CreatesDevice →
      r.1 ≠ 0 → r.2.Clean → Inited d a r
  | region {r : ℤ × Image} : a.LeaksRegion → r.1 ≠ 0 → r.2.RegionOnly → Inited d a r
  | stuck {r : ℤ × Image} : a.CreatesDevice → ¬a.HooksFit d →
      r.1 ≠ 0 → r.2.Stuck → Inited d a r
  | running {r : ℤ × Image} : a.CreatesDevice → a.HooksFit d →
      r.1 = 0 → r.2.driver = d → r.2.Running → Inited d a r

variable {d : Driver} {w : HookTable} {a : LoadAnswers} {m : Image}
  {s t u : Drivers} {e : ModuleEvent} {es : List ModuleEvent}

theorem fresh_unhooked (d : Driver) (w : HookTable) : (Image.fresh d w).Unhooked := by
  refine ⟨fun i hi => ?_, rfl⟩
  rcases i with _ | _ | i
  · exact hook_removed _ _ _
  · exact hook_removed _ _ _
  · omega

/-- The ends of `createDevice`. -/
theorem createDevice_cases (a : LoadAnswers) (d : Driver) (w : HookTable) :
    let r := (Image.fresh d w).createDevice a
    (¬a.LeaksRegion ∧ ¬a.CreatesDevice ∧ r.1 < 0 ∧ r.2.Clean) ∨
      (a.LeaksRegion ∧ r.1 < 0 ∧ r.2.RegionOnly) ∨
      (a.CreatesDevice ∧ r.1 = 0 ∧ r.2 = { Image.fresh d w with
        region := true, cdev := true, cls := true, device := true }) := by
  have hfresh := fresh_unhooked d w
  dsimp only
  unfold Image.createDevice LoadAnswers.LeaksRegion LoadAnswers.CreatesDevice
  by_cases halloc : a.allocChrdevRegion < 0
  · rw [if_pos halloc]
    exact Or.inl ⟨by omega, by omega, halloc, hfresh, rfl, rfl, rfl, rfl, rfl⟩
  · rw [if_neg halloc]
    by_cases hadd : a.cdevAdd < 0
    · simp only [if_pos hadd]
      exact Or.inr (Or.inl ⟨⟨by omega, hadd⟩, hadd, ⟨hfresh.hooks, rfl⟩, rfl, rfl, rfl, rfl, rfl⟩)
    · simp only [if_neg hadd]
      by_cases hclass : a.classCreate < 0
      · rw [if_pos hclass]
        exact Or.inl ⟨by omega, by omega, hclass, ⟨hfresh.hooks, rfl⟩, rfl, rfl, rfl, rfl, rfl⟩
      · rw [if_neg hclass]
        by_cases hdevice : a.deviceCreate < 0
        · rw [if_pos hdevice]
          exact Or.inl ⟨by omega, by omega, hdevice, ⟨hfresh.hooks, rfl⟩, rfl, rfl, rfl, rfl, rfl⟩
        · rw [if_neg hdevice]
          exact Or.inr (Or.inr ⟨by omega, rfl, rfl⟩)

/-- An installation of a table returns no positive value, if none of a hook does. -/
theorem fhInstallHooks_nonpos (a : Answers) (count : ℕ) (s : Tracing)
    (hfilter : ∀ i, a.ftraceSetFilterIp i ≤ 0) (hregister : ∀ i, a.registerFtraceFunction i ≤ 0) :
    (fhInstallHooks a count s).1 ≤ 0 := by
  refine installFrom_nonpos fun i s => ?_
  rw [fhInstallHook_eq]
  dsimp only [hookError]
  split
  · decide
  · split
    · exact hfilter i
    · exact hregister i

/-- What `fh_init` leaves of the image. -/
theorem fhInit_cases (a : LoadAnswers) (d : Driver) (w : HookTable)
    (hfilter : ∀ i, a.hooks.ftraceSetFilterIp i ≤ 0)
    (hregister : ∀ i, a.hooks.registerFtraceFunction i ≤ 0) :
    let r := fhInit a.hooks 2 (Image.fresh d w).tracing
    (a.HooksFail ∧ r.1 < 0 ∧ r.2.kretprobes = 0 ∧
        ((∀ i, i < 2 → (r.2.hooks i).Removed) ∨ ∀ i, i < 2 → (r.2.hooks i).Installed)) ∨
      (¬a.HooksFail ∧ r.1 = 0 ∧ r.2.kretprobes = 1 ∧ ∀ i, i < 2 → (r.2.hooks i).Installed) := by
  dsimp only
  have hclean := (fresh_unhooked d w).hooks
  have hall := fhInstallHooks_allOrNothing (a := a.hooks) hclean
  have hkeep : (fhInstallHooks a.hooks 2 (Image.fresh d w).tracing).2.kretprobes = 0 :=
    installFrom_keeps (f := Tracing.kretprobes)
      (fun i s => by rw [fhInstallHook_eq]; rfl) (fun _ _ => rfl)
  have hzero := fhInstallHooks_eq_zero_iff a.hooks 2 (Image.fresh d w).tracing
  by_cases hinstall : (fhInstallHooks a.hooks 2 (Image.fresh d w).tracing).1 = 0
  · obtain ⟨hret, hhooks, hkret⟩ := fhInit_of_ok hinstall
    have hdone := hall.2 hinstall
    have hnone := hzero.mp hinstall
    have h0 : ¬a.hooks.HookFails "proc_pident_readdir" 0 := hnone 0 (by decide)
    have h1 : ¬a.hooks.HookFails "proc_pident_lookup" 1 := hnone 1 (by decide)
    rw [hret, hhooks, hkret, hkeep]
    by_cases hneg : a.hooks.registerKretprobe < 0
    · simp only [if_pos hneg]
      exact Or.inl ⟨Or.inr (Or.inr hneg), by decide, trivial, Or.inr hdone⟩
    · simp only [if_neg hneg]
      refine Or.inr ⟨fun hfail => ?_, trivial, trivial, hdone⟩
      rcases hfail with hfail | hfail | hfail
      · exact h0 hfail
      · exact h1 hfail
      · exact hneg hfail
  · have hle := fhInstallHooks_nonpos a.hooks 2 (Image.fresh d w).tracing hfilter hregister
    have hfail : a.HooksFail := by
      by_contra hnot
      refine hinstall (hzero.mpr fun i hi hfails => hnot ?_)
      rcases i with _ | _ | i
      · exact Or.inl hfails
      · exact Or.inr (Or.inl hfails)
      · omega
    rw [fhInit_of_error hinstall]
    exact Or.inl ⟨hfail, by omega, hkeep, Or.inl (hall.1 hinstall)⟩

/-- A driver whose device fails does nothing else. -/
theorem init_of_error (h : (m.createDevice a).1 < 0) :
    m.init a = m.createDevice a := by
  unfold Image.init
  split
  · exact if_pos h
  · exact if_pos h
  · rfl

/-- Every load has one of the four ends. -/
theorem init_inited (a : LoadAnswers) (d : Driver) (w : HookTable)
    (herrno : (ModuleEvent.load d w a).errno) :
    Inited d a ((Image.fresh d w).init a) := by
  have hfresh := fresh_unhooked d w
  rcases createDevice_cases a d w with
    ⟨hregion, hwhy, hneg, hclean⟩ | ⟨hregion, hneg, honly⟩ | ⟨hcreates, hzero, hm⟩
  · rw [init_of_error hneg]
    exact .clean hregion hwhy (by omega) hclean
  · rw [init_of_error hneg]
    exact .region hregion (by omega) honly
  · cases d with
    | multiThread =>
      have hinit : (Image.fresh .multiThread w).init a =
          (Image.fresh .multiThread w).fiberIoctlInit a := rfl
      rw [hinit]
      simp only [Image.fiberIoctlInit, hzero, hm, Int.lt_irrefl, if_false]
      rcases fhInit_cases a .multiThread w herrno.1 herrno.2 with
        ⟨hfail, hneg, hkret, hhooks⟩ | ⟨hfit, hinit, hkret, hhooks⟩
      · have hneg' : (fhInit a.hooks 2 (Image.registerKprobe a { Image.fresh .multiThread w with
            region := true, cdev := true, cls := true, device := true }).tracing).1 < 0 := hneg
        simp only [if_pos hneg']
        have hne : (-1 : ℤ) ≠ 0 := by decide
        exact .stuck hcreates (fun hfit => hfit rfl hfail) hne
          ⟨⟨rfl, rfl, rfl, rfl⟩, rfl, hhooks, hkret⟩
      · have hzero' : ¬(fhInit a.hooks 2 (Image.registerKprobe a { Image.fresh .multiThread w with
            region := true, cdev := true, cls := true, device := true }).tracing).1 < 0 :=
          fun hneg => absurd (hinit ▸ hneg) (by decide)
        simp only [if_neg hzero']
        exact .running hcreates (fun _ => hfit) rfl rfl
          ⟨⟨rfl, rfl, rfl, rfl⟩, fun _ => ⟨hhooks, hkret⟩, fun hne => absurd rfl hne, nofun⟩
    | singleThread =>
      have hinit : (Image.fresh .singleThread w).init a =
          (Image.fresh .singleThread w).singleIoctlInit a := rfl
      rw [hinit]
      simp only [Image.singleIoctlInit, hzero, hm, Int.lt_irrefl, if_false]
      exact .running hcreates nofun rfl rfl
        ⟨⟨rfl, rfl, rfl, rfl⟩, nofun, fun _ => ⟨hfresh.hooks, hfresh.kretprobes⟩, nofun⟩
    | query =>
      have hinit : (Image.fresh .query w).init a =
          (Image.fresh .query w).createDevice a := rfl
      rw [hinit]
      refine .running hcreates nofun hzero (by rw [hm]; rfl) ?_
      rw [hm]
      exact ⟨⟨rfl, rfl, rfl, rfl⟩, nofun, fun _ => ⟨hfresh.hooks, hfresh.kretprobes⟩, fun _ => rfl⟩

/-- An unload of a driver that runs leaves nothing. -/
theorem exit_clean (h : m.Running) : m.exit.Clean := by
  unfold Image.exit
  cases hd : m.driver with
  | multiThread =>
    obtain ⟨hinstalled, hkret⟩ := h.hooked hd
    refine ⟨⟨?_, ?_⟩, rfl, rfl, rfl, rfl, rfl⟩
    · exact (fhInstallHook_undoable kretprobeFails).removeAll_clean hinstalled
    · show (fhRemoveHooks 2 m.tracing).kretprobes - 1 = 0
      have hkeep : (fhRemoveHooks 2 m.tracing).kretprobes = m.tracing.kretprobes :=
        removeFrom_keeps (f := Tracing.kretprobes) fun _ _ => rfl
      rw [hkeep, hkret]
  | singleThread =>
    have hun := h.unhooked (by rw [hd]; decide)
    exact ⟨⟨hun.hooks, hun.kretprobes⟩, rfl, rfl, rfl, rfl, rfl⟩
  | query =>
    have hun := h.unhooked (by rw [hd]; decide)
    exact ⟨⟨hun.hooks, hun.kretprobes⟩, rfl, rfl, rfl, rfl, h.kprobe hd⟩

/-! ## Every history -/

/-- The load leaks a region of numbers. -/
def ModuleEvent.leaksRegion : ModuleEvent → Bool
  | .load _ _ a => decide a.LeaksRegion
  | .unload _ => false

/-- The invariant of a kernel. -/
structure DriversOk (es : List ModuleEvent) (s : Drivers) : Prop where
  running : ∀ m ∈ s.loaded, m.Running
  gone : ∀ m ∈ s.gone, m.Clean ∨ m.RegionOnly ∨ m.Stuck
  one : s.loaded.length + s.gone.countP Image.cls ≤ 1
  regions : s.gone.countP Image.region =
    es.countP ModuleEvent.leaksRegion + s.gone.countP Image.cls

theorem DriversOk.taken_iff (h : DriversOk es s) :
    s.taken = true ↔ 0 < s.loaded.length + s.gone.countP Image.cls := by
  rw [Drivers.taken, List.any_append, Bool.or_eq_true, Nat.add_pos_iff_pos_or_pos,
    List.countP_pos_iff, List.length_pos_iff_exists_mem, List.any_eq_true, List.any_eq_true]
  constructor
  · rintro (⟨m, hm, _⟩ | hgone)
    · exact Or.inl ⟨m, hm⟩
    · exact Or.inr hgone
  · rintro (⟨m, hm⟩ | hgone)
    · exact Or.inl ⟨m, hm, (h.running m hm).cls⟩
    · exact Or.inr hgone

/-- A load whose class is created found neither a driver nor a class left behind. -/
theorem DriversOk.not_taken (h : DriversOk es s) (hrefuses : (ModuleEvent.load d w a).refuses s)
    (hcreates : a.CreatesDevice) : s.loaded.length + s.gone.countP Image.cls = 0 := by
  have hfree : ¬s.taken = true := fun htaken => by
    have := hrefuses htaken
    have := hcreates.2.2.1
    omega
  rw [h.taken_iff] at hfree
  omega

/-- The end of a load becomes part of the kernel. -/
theorem driversOk_load (h : DriversOk es s) {r : ℤ × Image} (hr : Inited d a r)
    (hrefuses : (ModuleEvent.load d w a).refuses s) :
    DriversOk (es ++ [.load d w a])
      (if r.1 = 0 then { s with loaded := r.2 :: s.loaded }
        else { s with gone := r.2 :: s.gone }) := by
  have hone := h.one
  have hregions := h.regions
  have hleak : (es ++ [ModuleEvent.load d w a]).countP ModuleEvent.leaksRegion =
      es.countP ModuleEvent.leaksRegion + (if a.LeaksRegion then 1 else 0) := by
    simp [List.countP_append, List.countP_cons, ModuleEvent.leaksRegion]
  cases hr with
  | clean hregion _ hne hm =>
    rw [if_neg hregion] at hleak
    rw [if_neg hne]
    refine ⟨h.running, List.forall_mem_cons.mpr ⟨Or.inl hm, h.gone⟩, ?_, ?_⟩
    · simpa only [List.countP_cons, hm.cls, Bool.false_eq_true, if_false, Nat.add_zero] using hone
    · simp only [List.countP_cons, hm.cls, hm.region, Bool.false_eq_true, if_false, hleak]
      omega
  | region hregion hne hm =>
    rw [if_pos hregion] at hleak
    rw [if_neg hne]
    refine ⟨h.running, List.forall_mem_cons.mpr ⟨Or.inr (Or.inl hm), h.gone⟩, ?_, ?_⟩
    · simpa only [List.countP_cons, hm.cls, Bool.false_eq_true, if_false, Nat.add_zero] using hone
    · simp only [List.countP_cons, hm.cls, hm.region, Bool.false_eq_true, if_false, if_true, hleak]
      omega
  | stuck hcreates _ hne hm =>
    have hregion : ¬a.LeaksRegion := fun hleaks => absurd hleaks.2 (by have := hcreates.2.1; omega)
    have hzero := h.not_taken hrefuses hcreates
    rw [if_neg hregion] at hleak
    rw [if_neg hne]
    refine ⟨h.running, List.forall_mem_cons.mpr ⟨Or.inr (Or.inr hm), h.gone⟩, ?_, ?_⟩
    · simp only [List.countP_cons, hm.cls, if_true]
      omega
    · simp only [List.countP_cons, hm.cls, hm.region, if_true, hleak]
      omega
  | running hcreates _ hret _ hm =>
    have hregion : ¬a.LeaksRegion := fun hleaks => absurd hleaks.2 (by have := hcreates.2.1; omega)
    have hzero := h.not_taken hrefuses hcreates
    rw [if_neg hregion] at hleak
    rw [if_pos hret]
    refine ⟨List.forall_mem_cons.mpr ⟨hm, h.running⟩, h.gone, ?_, ?_⟩
    · simp only [List.length_cons]
      omega
    · rw [hleak]
      exact hregions

theorem driversOk_unload (h : DriversOk es s) (hm : m ∈ s.loaded) :
    DriversOk (es ++ [.unload d]) ⟨s.loaded.filter fun m => m.driver ≠ d, m.exit :: s.gone⟩ := by
  have hclean := exit_clean (h.running m hm)
  have hone := h.one
  have hle := List.length_filter_le (fun m : Image => decide (m.driver ≠ d)) s.loaded
  refine ⟨fun m' hm' => h.running m' (List.mem_filter.mp hm').1,
    List.forall_mem_cons.mpr ⟨Or.inl hclean, h.gone⟩, ?_, ?_⟩
  · simp only [List.countP_cons, hclean.cls, Bool.false_eq_true, if_false]
    omega
  · have hregions := h.regions
    simp only [List.countP_cons, hclean.cls, hclean.region, Bool.false_eq_true, if_false,
      List.countP_append, List.countP_nil, ModuleEvent.leaksRegion]
    omega

/-- What an event can do. -/
theorem exec_load (h : s.exec (.load d w a) = .ok t) :
    (∀ m ∈ s.loaded, m.driver ≠ d) ∧
      t = (if ((Image.fresh d w).init a).1 = 0
        then { s with loaded := ((Image.fresh d w).init a).2 :: s.loaded }
        else { s with gone := ((Image.fresh d w).init a).2 :: s.gone }) := by
  simp only [Drivers.exec] at h
  by_cases hany : (s.loaded.any fun m => decide (m.driver = d)) = true
  · rw [if_pos hany] at h
    cases h
  · rw [if_neg hany] at h
    refine ⟨fun m hm hd => hany ?_, (Except.ok.inj h).symm⟩
    exact List.any_eq_true.mpr ⟨m, hm, decide_eq_true hd⟩

theorem exec_unload (h : s.exec (.unload d) = .ok t) :
    ∃ m ∈ s.loaded, t = ⟨s.loaded.filter fun m => m.driver ≠ d, m.exit :: s.gone⟩ := by
  simp only [Drivers.exec] at h
  cases hfind : s.loaded.find? fun m => decide (m.driver = d) with
  | none =>
    rw [hfind] at h
    cases h
  | some m =>
    rw [hfind] at h
    exact ⟨m, List.mem_of_find?_eq_some hfind, (Except.ok.inj h).symm⟩

theorem driversOk_step (h : DriversOk es s) (hstep : ModuleStep s e t) :
    DriversOk (es ++ [e]) t := by
  obtain ⟨herrno, hrefuses, hexec⟩ := hstep
  cases e with
  | load d w a =>
    rw [(exec_load hexec).2]
    exact driversOk_load h (init_inited a d w herrno) hrefuses
  | unload d =>
    obtain ⟨m, hm, rfl⟩ := exec_unload hexec
    exact driversOk_unload h hm

theorem driversOk_run (h : Run ModuleStep Drivers.start es s) : DriversOk es s := by
  refine h.invariantTrace (fun es s e t hok hstep => driversOk_step hok hstep) ?_
  constructor
  · exact fun m hm => by cases hm
  · exact fun m hm => by cases hm
  · exact Nat.zero_le _
  · rfl

/-- After any history at most one of the drivers runs, with all that it needs.  Of the
loads and unloads that are over nothing is left, except the region of each load whose
`cdev_add` failed, and all of one load whose `fh_init` failed. -/
theorem loads_accounted (h : Run ModuleStep Drivers.start es s) :
    (∀ m ∈ s.loaded, m.Running) ∧ (∀ m ∈ s.gone, m.Clean ∨ m.RegionOnly ∨ m.Stuck) ∧
      s.loaded.length + s.gone.countP Image.cls ≤ 1 ∧
      s.gone.countP Image.region =
        es.countP ModuleEvent.leaksRegion + s.gone.countP Image.cls := by
  have hok := driversOk_run h
  exact ⟨hok.running, hok.gone, hok.one, hok.regions⟩

/-- A load returns 0 if and only if no driver runs, no load was stuck before, the calls
for the device succeed, and `fh_init` does where there is one. -/
theorem load_succeeds_iff (h : Run ModuleStep Drivers.start es s)
    (herrno : (ModuleEvent.load d w a).errno) (hrefuses : (ModuleEvent.load d w a).refuses s) :
    ((Image.fresh d w).init a).1 = 0 ↔
      s.loaded = [] ∧ (∀ m ∈ s.gone, ¬m.Stuck) ∧ a.CreatesDevice ∧ a.HooksFit d := by
  have hok := driversOk_run h
  cases init_inited a d w herrno with
  | clean _ hnot hne _ => exact iff_of_false hne fun hall => hnot hall.2.2.1
  | region hregion hne _ =>
    refine iff_of_false hne ?_
    rintro ⟨_, _, hcreates, _⟩
    exact absurd hregion.2 (by have := hcreates.2.1; omega)
  | stuck _ hunfit hne _ => exact iff_of_false hne fun hall => hunfit hall.2.2.2
  | running hcreates hfit hzero _ _ =>
    have hnone := hok.not_taken hrefuses hcreates
    have hcls : s.gone.countP Image.cls = 0 := by omega
    refine iff_of_true hzero ⟨List.length_eq_zero_iff.mp (by omega), ?_, hcreates, hfit⟩
    exact fun m hm hstuck => List.countP_eq_zero.mp hcls m hm hstuck.cls

/-- What is left of an image stays. -/
theorem gone_mono (h : Run ModuleStep s es t) (hm : m ∈ s.gone) : m ∈ t.gone := by
  refine h.invariant (I := fun t => m ∈ t.gone) (fun s e t hs hstep => ?_) hm
  obtain ⟨_, _, hexec⟩ := hstep
  cases e with
  | load d w a =>
    rw [(exec_load hexec).2]
    split
    · exact hs
    · exact List.mem_cons_of_mem _ hs
  | unload d =>
    obtain ⟨_, _, rfl⟩ := exec_unload hexec
    exact List.mem_cons_of_mem _ hs

/-- After `fh_init` has failed once, none of the drivers is ever loaded again. -/
theorem no_load_again {es' : List ModuleEvent} (h : Run ModuleStep Drivers.start es s)
    (hstep : ModuleStep s (.load .multiThread w a) t) (hcreates : a.CreatesDevice)
    (hfail : a.HooksFail) (hrest : Run ModuleStep t es' u) :
    u.loaded = [] ∧ ∃ m ∈ u.gone, m.Stuck := by
  have hstuck : ∃ m ∈ t.gone, m.Stuck := by
    obtain ⟨herrno, hrefuses, hexec⟩ := hstep
    have hret : ((Image.fresh .multiThread w).init a).1 ≠ 0 := fun hzero =>
      ((load_succeeds_iff h herrno hrefuses).mp hzero).2.2.2 rfl hfail
    rw [(exec_load hexec).2, if_neg hret]
    cases init_inited a .multiThread w herrno with
    | stuck _ _ _ hm => exact ⟨_, List.mem_cons_self, hm⟩
    | running _ hfit _ _ _ => exact absurd hfail (hfit rfl)
    | region hregion _ _ => exact absurd hregion.2 (by have := hcreates.2.1; omega)
    | clean _ hnot _ _ => exact absurd hcreates hnot
  obtain ⟨m, hm, hstuck⟩ := hstuck
  have hm' := gone_mono hrest hm
  have hone := (driversOk_run ((h.snoc hstep).append hrest)).one
  have hpos : 0 < u.gone.countP Image.cls := List.countP_pos_iff.mpr ⟨m, hm', hstuck.cls⟩
  exact ⟨List.length_eq_zero_iff.mp (by omega), m, hm', hstuck⟩

/-! ## Histories -/

/-- All calls succeed. -/
def LoadAnswers.fine : LoadAnswers :=
  ⟨0, 0, 0, 0, 0, { kretprobeFails with registerKretprobe := 0 }⟩

/-- Some table of hooks. -/
def HookTable.plain : HookTable := ⟨0x1000, 0x2000, 0x1100, 0x2008⟩

/-- A load of a driver with answers. -/
def loading (d : Driver) (a : LoadAnswers) : ModuleEvent := .load d .plain a

/-- The class `char` is there. -/
def LoadAnswers.refused : LoadAnswers := { LoadAnswers.fine with classCreate := -17 }

theorem exists_moduleRun (es : List ModuleEvent) (p : Drivers → Bool)
    (herrno : ∀ e ∈ es, e.errno)
    (h : (replay Drivers.exec (fun s e => decide (e.refuses s)) Drivers.start es).any p = true) :
    ∃ s, Run ModuleStep Drivers.start es s ∧ p s = true := by
  obtain ⟨s, hrun, hp⟩ := exists_run Drivers.exec _ Drivers.start es p h
  refine ⟨s, (hrun.restrict herrno).mono fun _ _ _ hstep => ?_, hp⟩
  exact ⟨hstep.1, of_decide_eq_true hstep.2.1, hstep.2.2⟩

theorem errno_loading {a : LoadAnswers} (ha : a.hooks.ftraceSetFilterIp = fun _ => 0)
    (ha' : a.hooks.registerFtraceFunction = fun _ => 0) (d : Driver) : (loading d a).errno := by
  exact ⟨fun i => Int.le_of_eq (congrFun ha i), fun i => Int.le_of_eq (congrFun ha' i)⟩

/-- The driver of `multi_thread` is loaded and unloaded, and the query driver loses a
region. -/
def oneLeak : List ModuleEvent :=
  [loading .multiThread .fine, .unload .multiThread,
    loading .query { LoadAnswers.fine with cdevAdd := -12 }, loading .singleThread .fine]

theorem errno_oneLeak : ∀ e ∈ oneLeak, e.errno := by
  refine List.forall_mem_cons.mpr ⟨errno_loading rfl rfl _, ?_⟩
  refine List.forall_mem_cons.mpr ⟨trivial, ?_⟩
  refine List.forall_mem_cons.mpr ⟨errno_loading rfl rfl _, ?_⟩
  exact List.forall_mem_cons.mpr ⟨errno_loading rfl rfl _, fun _ h => by cases h⟩

theorem loads_accounted_one_leak : ∃ s, Run ModuleStep Drivers.start oneLeak s ∧
    (∀ m ∈ s.loaded, m.Running) ∧ s.loaded.length + s.gone.countP Image.cls ≤ 1 ∧
    s.gone.countP Image.region = 1 + s.gone.countP Image.cls := by
  obtain ⟨s, hrun, _⟩ := exists_moduleRun oneLeak (fun s => s.loaded.length == 1) errno_oneLeak
    (by decide +kernel)
  obtain ⟨hrunning, _, hone, hregions⟩ := loads_accounted hrun
  exact ⟨s, hrun, hrunning, hone, hregions⟩

/-- The query driver finds the class of `single_thread`. -/
theorem load_succeeds_iff_one_leak : ∃ s, Run ModuleStep Drivers.start oneLeak s ∧
    (((Image.fresh .query .plain).init .refused).1 = 0 ↔ s.loaded = [] ∧
      (∀ m ∈ s.gone, ¬m.Stuck) ∧ LoadAnswers.refused.CreatesDevice ∧
        LoadAnswers.refused.HooksFit .query) := by
  obtain ⟨s, hrun, _⟩ := exists_moduleRun oneLeak (fun s => s.loaded.length == 1) errno_oneLeak
    (by decide +kernel)
  have hrefuses : (loading .query .refused).refuses s := fun _ => by decide
  exact ⟨s, hrun, load_succeeds_iff hrun (errno_loading rfl rfl .query) hrefuses⟩

/-- `register_kretprobe` fails, and then the query driver cannot be loaded. -/
theorem no_load_again_query : ∃ t u,
    ModuleStep Drivers.start (loading .multiThread { LoadAnswers.fine with
      hooks := kretprobeFails }) t ∧
    Run ModuleStep t [loading .query .refused] u ∧ u.loaded = [] ∧ ∃ m ∈ u.gone, m.Stuck := by
  let a : LoadAnswers := { LoadAnswers.fine with hooks := kretprobeFails }
  have herrno : ∀ e ∈ [loading .multiThread a, loading .query .refused], e.errno := by
    refine List.forall_mem_cons.mpr ⟨errno_loading rfl rfl _, ?_⟩
    exact List.forall_mem_cons.mpr ⟨errno_loading rfl rfl _, fun _ h => by cases h⟩
  obtain ⟨u, hrun, _⟩ := exists_moduleRun [loading .multiThread a, loading .query .refused]
    (fun s => s.loaded.isEmpty) herrno (by decide +kernel)
  obtain ⟨t, hstep, hrest⟩ := hrun.of_cons
  have hcreates : a.CreatesDevice := by decide
  have hfail : a.HooksFail := Or.inr (Or.inr (by decide))
  exact ⟨t, u, hstep, hrest, no_load_again Run.nil hstep hcreates hfail hrest⟩

end LinuxFibers.Module
