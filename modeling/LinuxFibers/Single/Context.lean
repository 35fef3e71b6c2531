import LinuxFibers.Single.Library

/-!
# The contexts of suspended fibers in the single-threaded module

A fiber that is not running holds the context of its latest suspension: the
registers that a switch assigns, and the image of the FPU (`Suspended`).  But
`SWITCHTOFIBER` gives the target a new `struct fpu` before it loads from it.  The
registers that are loaded are those that were saved (`switch_loads`), and the
image is what the memory of the new `struct fpu` held, so it is the saved one
exactly when that memory held it (`restores_iff`).

`suspends` reads the suspensions off the history, as for the multi-threaded module.
-/

namespace LinuxFibers.Single

open LinuxFibers.Lib HashTable LinuxFibers.Module

variable {s t : System} {tr : List (System × Action)} {id pid : Pid} {cmd : Command}
  {arg : Word} {env : Env} {r : Reply} {f : FiberArg}

/-! ## Suspensions -/

/-- The context with which a step suspends the fiber `index` of a process. -/
def suspends (tgid : Pid) (index : ℕ) : System × Action → Option Context
  | (s, .ioctl id pid .switchToFiber arg env) =>
      match s.request id pid .switchToFiber arg env with
      | .ok r =>
          if id = tgid ∧ r.ret = 0 ∧ s.activeIndex id pid = some index then
            some (s.context (id, pid))
          else none
      | .error _ => none
  | (s, .ioctl id pid .createFiber arg env) =>
      match s.request id pid .createFiber arg env with
      | .ok r =>
          if id = tgid ∧ r.ret = index then
            some (startContext (s.context (id, pid)) env.createArg)
          else none
      | .error _ => none
  | _ => none

/-- The fiber that a switch with this argument is to. -/
def System.target (s : System) (tgid : Pid) (arg : Word) : Option FiberArg := do
  let p ← s.kernel.record tgid
  let fiber ← searchFiber (arg.setWidth 32) p
  return fiber.obj

/-- The two contexts agree in the registers that a switch assigns and in the FPU. -/
structure SameContext (c c' : Context) : Prop where
  regs : ∀ reg ∈ switchedRegs, c.regs reg = c'.regs reg
  fpu : c.fpu = c'.fpu

/-- The caller gets the context of the latest suspension of the target. -/
def Restores (tr : List (System × Action)) (s : System) (id : Pid) (arg : Word) (r : Reply) :
    Prop :=
  ∃ f c, s.target id arg = some f ∧ latest (suspends id f.index) tr = some c ∧
    SameContext r.context c

/-- The context that a fiber holds. -/
def FiberArg.context (f : FiberArg) : Context := ⟨f.regs, f.fpuReg⟩

/-- `CREATEFIBER` fills in the context that the fiber is to start from. -/
theorem createdFiber_context (cur : Task) (env : Env) (index : ℕ) :
    (createdFiber cur env index).context = startContext cur.toContext env.createArg := by
  rw [← Module.createdFiber_context cur env.createArg index]
  show (⟨createdRegs cur.regs env.createArg, cur.fpu⟩ : Context) = _
  rw [createdRegs_eq]
  rfl

/-- Every fiber that is not running holds the context of its latest suspension. -/
def Suspended (tr : List (System × Action)) (s : System) : Prop :=
  ∀ tgid p, s.kernel.record tgid = some p → ∀ f ∈ p.fibers, f.obj.running = false →
    ∃ c, latest (suspends tgid f.obj.index) tr = some c ∧ SameContext f.obj.context c

theorem sameContext_refl (c : Context) : SameContext c c := ⟨fun _ _ => rfl, rfl⟩

theorem sameContext_save (f : FiberArg) (c : Context) : SameContext (f.save c).context c := by
  refine ⟨fun reg hreg => ?_, rfl⟩
  show (if reg ∈ switchedRegs then c.regs reg else f.regs reg) = c.regs reg
  rw [if_pos hreg]

/-! ## What a step suspends -/

theorem suspends_switch (tgid : Pid) (index : ℕ)
    (hr : s.request id pid .switchToFiber arg env = .ok r) :
    suspends tgid index (s, .ioctl id pid .switchToFiber arg env) =
      if id = tgid ∧ r.ret = 0 ∧ s.activeIndex id pid = some index then
        some (s.context (id, pid)) else none := by
  simp only [suspends, hr]

theorem suspends_create (tgid : Pid) (index : ℕ)
    (hr : s.request id pid .createFiber arg env = .ok r) :
    suspends tgid index (s, .ioctl id pid .createFiber arg env) =
      if id = tgid ∧ r.ret = index then
        some (startContext (s.context (id, pid)) env.createArg)
      else none := by
  simp only [suspends, hr]

/-- A request says nothing about the fibers of other processes. -/
theorem suspends_other {tgid : Pid} (hid : id ≠ tgid) (index : ℕ) :
    suspends tgid index (s, .ioctl id pid cmd arg env) = none := by
  unfold suspends
  split
  · rename_i heq
    cases heq
    split
    · exact if_neg fun h => hid h.1
    · rfl
  · rename_i heq
    cases heq
    split
    · exact if_neg fun h => hid h.1
    · rfl
  · rfl

/-- A request without an effect suspends nothing. -/
theorem suspends_of_idle {tgid : Pid} (hr : s.request id pid cmd arg env = .ok r)
    (h : Idle cmd r.ret) (index : ℕ) :
    suspends tgid index (s, .ioctl id pid cmd arg env) = none := by
  cases cmd with
  | switchToFiber =>
    have hneg := h.1 rfl
    rw [suspends_switch tgid index hr]
    exact if_neg fun hall => by omega
  | createFiber =>
    have hneg := h.1 rfl
    rw [suspends_create tgid index hr]
    exact if_neg fun hall => by omega
  | _ => rfl

/-- A fiber that a step does not suspend, and whose context it leaves alone. -/
theorem Suspended.keep (hsus : Suspended tr s) {tgid : Pid} {p : ProcessArg}
    {m : System × Action} (hp : s.kernel.record tgid = some p) {e : Entry FiberArg}
    (he : e ∈ p.fibers) (hstill : e.obj.running = false) {f : FiberArg}
    (hindex : f.index = e.obj.index) (hcontext : f.context = e.obj.context)
    (hm : suspends tgid e.obj.index m = none) :
    ∃ c, latest (suspends tgid f.index) (tr ++ [m]) = some c ∧ SameContext f.context c := by
  rw [hindex, hcontext, latest_snoc_of_none hm]
  exact hsus tgid p hp e he hstill

/-! ## Steps -/

/-- The fibers of a switch: the target, the one that is left, and the others. -/
theorem switchedFiber_of_ne {cur : Task} {a target : ℕ} {e : Entry FiberArg} (ha : e.addr ≠ a)
    (ht : e.addr ≠ target) : switchedFiber cur env a target e = e.obj := by
  simp only [switchedFiber, if_neg ht, if_neg ha]

theorem switchedFiber_old {cur : Task} {a target : ℕ} {e : Entry FiberArg} (ha : e.addr = a)
    (ht : e.addr ≠ target) :
    switchedFiber cur env a target e = { e.obj.save cur.toContext with running := false } := by
  simp only [switchedFiber, if_neg ht, if_pos ha]

/-- A write of `FLSALLOC`, `FLSFREE` or `FLSSETVALUE` leaves the context alone. -/
theorem FlsWrite.context_eq {old : FiberArg} {ret : ℤ} (h : FlsWrite old arg env cmd ret f) :
    f.context = old.context := by
  rw [h.eq_with]
  rfl

theorem FlsWrite.suspends_none {old : FiberArg} {ret : ℤ} (h : FlsWrite old arg env cmd ret f)
    (tgid : Pid) (index : ℕ) : suspends tgid index (s, .ioctl id pid cmd arg env) = none := by
  cases h <;> rfl

/-- The active fiber of a thread, as its history sees it. -/
theorem activeIndex_eq {p : ProcessArg} {thread : Entry ThreadArg} {a : ℕ} {old : FiberArg}
    (hp : s.kernel.record id = some p) (hthread : searchThread pid p = some thread)
    (hactive : thread.obj.activeFiber = some a) (hold : p.fibers.deref a = some old) :
    s.activeIndex id pid = some old.index := by
  simp only [System.activeIndex, hp, hthread, hactive, hold, Option.bind_eq_bind,
    Option.bind_some, pure]

/-- The fibers after a switch. -/
theorem suspended_switch (hok : KernelOk s.kernel) (hsus : Suspended tr s)
    (hr : s.request id pid .switchToFiber arg env = .ok r) (h0 : r.ret = 0) {p : ProcessArg}
    {thread : Entry ThreadArg} {a target : ℕ} {old : FiberArg}
    (hp : s.kernel.record id = some p) (hthread : searchThread pid p = some thread)
    (hactive : thread.obj.activeFiber = some a) (hold : p.fibers.deref a = some old)
    {e : Entry FiberArg} (he : e ∈ p.fibers)
    (hstill : (switchedFiber (s.task id pid) env a target e).running = false) :
    ∃ c, latest (suspends id (switchedFiber (s.task id pid) env a target e).index)
        (tr ++ [(s, .ioctl id pid .switchToFiber arg env)]) = some c ∧
      SameContext (switchedFiber (s.task id pid) env a target e).context c := by
  have hl := hok.linked hp
  obtain ⟨x, hx, hxa, hobj⟩ := mem_of_deref hold
  have hindex := activeIndex_eq hp hthread hactive hold
  have hevent := suspends_switch id e.obj.index hr
  rw [running_switchedFiber] at hstill
  by_cases ht : e.addr = target
  · rw [if_pos ht] at hstill
    cases hstill
  · rw [if_neg ht] at hstill
    by_cases ha : e.addr = a
    · -- the fiber that is left
      have hex : e.obj = old := by
        rw [(fibers_unique hl).eq_of_addr he hx (ha.trans hxa.symm), hobj]
      have heq : (switchedFiber (s.task id pid) env a target e).index = old.index := by
        rw [index_switchedFiber, hex]
      rw [hex, hindex, if_pos ⟨rfl, h0, rfl⟩] at hevent
      rw [heq, latest_snoc_of_some hevent, switchedFiber_old ha ht]
      exact ⟨_, rfl, sameContext_save e.obj (s.task id pid).toContext⟩
    · rw [if_neg ha] at hstill
      rw [switchedFiber_of_ne ha ht]
      have hne : ¬ (id = id ∧ r.ret = 0 ∧ s.activeIndex id pid = some e.obj.index) := by
        rintro ⟨_, _, hsame⟩
        rw [hindex, ← hobj, Option.some.injEq] at hsame
        apply ha
        rw [← eq_of_index hl hx he hsame, hxa]
      rw [if_neg hne] at hevent
      exact hsus.keep hp he hstill rfl rfl hevent

/-- The fibers of the caller's process after a request. -/
theorem suspended_request_self (hok : KernelOk s.kernel) (hsus : Suspended tr s)
    (hr : s.request id pid cmd arg env = .ok r) {p' : ProcessArg}
    (hp' : r.kernel.record id = some p') {e' : Entry FiberArg} (he' : e' ∈ p'.fibers)
    (hstill : e'.obj.running = false) :
    ∃ c, latest (suspends id e'.obj.index) (tr ++ [(s, .ioctl id pid cmd arg env)]) = some c ∧
      SameContext e'.obj.context c := by
  have hc := change_of_request hok hr hp'
  generalize hbefore : s.kernel.record id = o at hc
  cases hc with
  | idle hidle => exact hsus.keep hbefore he' hstill rfl rfl (suspends_of_idle hr hidle _)
  | converted hsource =>
    rcases mem_hashAdd.mp he' with hnew | hold
    · rw [hnew] at hstill
      cases hstill
    · rcases hsource with heq | ⟨_, heq⟩
      · exact hsus.keep (hbefore.trans heq) hold hstill rfl rfl rfl
      · rw [heq] at hold
        cases hold
  | @created p thread a f old hthread hactive hold _ _ hret =>
    have hl := hok.linked hbefore
    have hevent := suspends_create id e'.obj.index hr
    rcases mem_hashAdd.mp he' with hnew | hmem
    · rw [hnew] at hevent ⊢
      rw [if_pos ⟨rfl, hret⟩] at hevent
      rw [latest_snoc_of_some hevent]
      refine ⟨_, rfl, ?_⟩
      show SameContext (createdFiber (s.task id pid) env p.fiberId).context _
      rw [createdFiber_context]
      exact sameContext_refl _
    · rw [modify_eq_mapObj] at hmem
      obtain ⟨e, he, heq⟩ := mem_mapObj.mp hmem
      have hobj : e'.obj = if e.addr = a then { e.obj with fpuReg := (s.task id pid).fpu }
          else e.obj := congrArg Entry.obj heq
      have hlt := index_lt hl he
      by_cases ha : e.addr = a
      · -- the active fiber gets the image as well, and is running
        obtain ⟨x, hx, hxactive, hxrun, _⟩ := derefFiber_active hl (hok.owned hbefore) hthread
        rw [hactive, Option.some.injEq] at hxactive
        rw [if_pos ha] at hobj
        have hrun : e'.obj.running = true := by
          rw [hobj, (fibers_unique hl).eq_of_addr he hx (ha.trans hxactive)]
          exact hxrun
        rw [hrun] at hstill
        cases hstill
      · rw [if_neg ha] at hobj
        rw [hobj] at hstill hevent ⊢
        rw [if_neg fun hall => by omega] at hevent
        exact hsus.keep hbefore he hstill rfl rfl hevent
  | @switched p fiber thread a old next _ hthread hactive hold _ hret =>
    rw [switch_fibers] at he'
    obtain ⟨e, he, heq⟩ := mem_mapObj.mp he'
    rw [heq] at hstill ⊢
    exact suspended_switch hok hsus hr hret hbefore hthread hactive hold he hstill
  | @stored _ p thread a old f hthread hactive hold hw =>
    rw [modify_eq_mapObj] at he'
    obtain ⟨e, he, heq⟩ := mem_mapObj.mp he'
    have hobj : e'.obj = if e.addr = a then f else e.obj := congrArg Entry.obj heq
    have hevent := @FlsWrite.suspends_none s id pid cmd arg env f old r.ret hw id e.obj.index
    by_cases ha : e.addr = a
    · have hex : e.obj = old :=
        (fibers_unique (hok.linked hbefore)).obj_of_deref hold he ha
      have hshape : bareFiber f.index f.running = bareFiber old.index old.running := hw.shape_eq
      have hindex : f.index = old.index := congrArg Module.FiberArg.index hshape
      have hrun : f.running = old.running := congrArg Module.FiberArg.running hshape
      rw [if_pos ha] at hobj
      rw [hobj] at hstill ⊢
      rw [hrun, ← hex] at hstill
      exact hsus.keep hbefore he hstill (by rw [hindex, hex]) (by rw [hw.context_eq, hex]) hevent
    · rw [if_neg ha] at hobj
      rw [hobj] at hstill ⊢
      exact hsus.keep hbefore he hstill rfl rfl hevent

theorem suspended_step {m : System × Action} (hok : KernelOk s.kernel) (hsus : Suspended tr s)
    (h : Recorded Step s m t) : Suspended (tr ++ [m]) t := by
  obtain ⟨s', act⟩ := m
  obtain ⟨heq, hstep⟩ := h
  have heq : s' = s := heq
  subst heq
  intro tgid p hp e he hstill
  cases act with
  | user =>
    cases hstep
    exact hsus.keep hp he hstill rfl rfl rfl
  | ioctl id pid cmd arg env =>
    obtain ⟨r, hr, rfl⟩ := step_ioctl hstep
    have hp : r.kernel.record tgid = some p := hp
    by_cases hid : id = tgid
    · subst hid
      exact suspended_request_self hok hsus hr hp he hstill
    · rw [record_of_request hok hr (Ne.symm hid)] at hp
      exact hsus.keep hp he hstill rfl rfl (suspends_other hid _)
  | exit proId thrId =>
    obtain ⟨k, hk, rfl⟩ := step_exit hstep
    obtain ⟨p₀, hp₀, hsub⟩ := (exited hok.tables hk).fibers_of_record hp
    exact hsus.keep hp₀ (hsub e he) hstill rfl rfl rfl

theorem suspended_run {context : Pid × Pid → Context}
    (h : Run (Recorded Step) (System.init context) tr s) :
    KernelOk s.kernel ∧ Suspended tr s := by
  refine h.invariantTrace (I := fun tr s => KernelOk s.kernel ∧ Suspended tr s) ?_ ?_
  · intro tr s m t hs hm
    exact ⟨kernelOk_step hs.1 hm.2, suspended_step hs.1 hs.2 hm⟩
  · exact ⟨kernelOk_init, fun tgid p hp => by cases hp⟩

/-! ## What a switch loads -/

/-- A switch that succeeds loads the registers of the latest suspension of the
target, and the image that the memory of a new `struct fpu` held.  The saved image
is the one in the old `struct fpu` of the target. -/
theorem switch_loads {context : Pid × Pid → Context}
    (h : Run (Recorded Step) (System.init context) tr s)
    (hr : s.request id pid .switchToFiber arg env = .ok r) (h0 : r.ret = 0) :
    ∃ f c, s.target id arg = some f ∧ latest (suspends id f.index) tr = some c ∧
      (∀ reg ∈ switchedRegs, r.context.regs reg = c.regs reg) ∧ f.fpuReg = c.fpu ∧
      r.context.fpu = env.oldFpu := by
  obtain ⟨hok, hsus⟩ := suspended_run h
  have hc := change_of_request hok hr rfl
  generalize hbefore : s.kernel.record id = o at hc
  generalize r.kernel.record id = o' at hc
  cases hc with
  | idle hidle =>
    have hneg := hidle.1 rfl
    omega
  | @switched p fiber thread a old next hfiber hthread hactive hold hnext _ hctx =>
    have hl := hok.linked hbefore
    obtain ⟨hmem, _, hstill⟩ := of_searchFiber hfiber
    obtain ⟨c, hlatest, hsame⟩ := hsus id p hbefore fiber hmem hstill
    have htarget : s.target id arg = some fiber.obj := by
      simp only [System.target, hbefore, hfiber, Option.bind_eq_bind, Option.bind_some, pure]
    -- the caller's own fiber is running, so the save did not touch the target
    obtain ⟨x, hx, hxactive, hxrun, _⟩ := derefFiber_active hl (hok.owned hbefore) hthread
    have hne : fiber.addr ≠ a := by
      intro heq
      rw [hactive, Option.some.injEq] at hxactive
      rw [(fibers_unique hl).eq_of_addr hmem hx (heq.trans hxactive), hxrun] at hstill
      cases hstill
    have hnew : next = { fiber.obj with fpuReg := env.oldFpu } := by
      have hunique := ((fibers_unique hl).modify fiber.addr fun g =>
        { g with fpuReg := env.oldFpu }).modify a fun g => g.save (s.task id pid).toContext
      have hread : (p.saved (s.task id pid) env a fiber.addr).deref fiber.addr =
          some { fiber.obj with fpuReg := env.oldFpu } :=
        deref_of_mem hunique (mem_modify_of_ne (mem_modify_self hmem) hne)
      exact Option.some.inj (hnext.symm.trans hread)
    refine ⟨fiber.obj, c, htarget, hlatest, fun reg hreg => ?_, hsame.fpu, ?_⟩
    · rw [hctx, hnew]
      show (if reg ∈ switchedRegs then fiber.obj.regs reg else _) = c.regs reg
      rw [if_pos hreg]
      exact hsame.regs reg hreg
    · rw [hctx, hnew]
  | stored _ _ _ hw => cases hw

/-- A switch that succeeds restores the context of the target exactly when the memory
of its new `struct fpu` held the image that the old one holds. -/
theorem restores_iff {context : Pid × Pid → Context}
    (h : Run (Recorded Step) (System.init context) tr s)
    (hr : s.request id pid .switchToFiber arg env = .ok r) (h0 : r.ret = 0) :
    Restores tr s id arg r ↔ (s.target id arg).map FiberArg.fpuReg = some env.oldFpu := by
  obtain ⟨f, c, htarget, hlatest, hregs, hsaved, hfpu⟩ := switch_loads h hr h0
  rw [htarget, Option.map_some, Option.some.injEq, hsaved]
  constructor
  · rintro ⟨f', c', htarget', hlatest', hsame⟩
    have hf : f' = f := Option.some.inj (htarget'.symm.trans htarget)
    rw [hf] at hlatest'
    have hc : c' = c := Option.some.inj (hlatest'.symm.trans hlatest)
    rw [← hc, ← hsame.fpu, hfpu]
  · intro heq
    exact ⟨f, c, htarget, hlatest, hregs, by rw [hfpu, heq]⟩

/-- Fiber 0 is left with 9 in the FPU. -/
def leftWithImage : List Action :=
  [.ioctl 7 7 .convertToFiber 0 Env.clear, .ioctl 7 7 .createFiber 0 Env.clear,
    .user 7 7 ⟨fun _ => 42, 9⟩, .ioctl 7 7 .switchToFiber 1 Env.clear]

/-- `restores_iff` for a way back in which the memory of the new `struct fpu` holds the
saved image. -/
theorem restores_lucky : ∃ (tr : List (System × Action)) (s : System) (r : Reply),
    Run (Recorded Step) (System.init zeroContext) tr s ∧
    s.request 7 7 .switchToFiber 0 { Env.clear with oldFpu := 9 } = .ok r ∧ r.ret = 0 ∧
    r.context.fpu = 9 ∧ Restores tr s 7 0 r := by
  obtain ⟨tr, s, hrun, hp⟩ := Lib.exists_history System.exec (fun _ _ => true)
    (System.init zeroContext) leftWithImage
    (fun _ s => decide ((s.target 7 0).map FiberArg.fpuReg = some 9) &&
      (s.request 7 7 .switchToFiber 0 { Env.clear with oldFpu := 9 }).toOption.any
        fun r => r.ret == 0 && r.context.fpu == 9) (by decide +kernel)
  have hstep : Run (Recorded Step) (System.init zeroContext) tr s :=
    hrun.mono fun _ _ _ h => ⟨h.1, h.2.2⟩
  obtain ⟨hsaved, hp⟩ := Bool.and_eq_true_iff.mp hp
  obtain ⟨r, hr, hp⟩ := of_toOption_any hp
  obtain ⟨h0, hfpu⟩ := Bool.and_eq_true_iff.mp hp
  have hret : r.ret = 0 := eq_of_beq h0
  exact ⟨tr, s, r, hstep, hr, hret, eq_of_beq hfpu,
    (restores_iff hstep hr hret).mpr (of_decide_eq_true hsaved)⟩

/-- The image 9 with which fiber 0 was left does not come back. -/
theorem image_lost : ∃ (tr : List (System × Action)) (s : System) (r : Reply) (c : Context),
    Run (Recorded Step) (System.init zeroContext) tr s ∧
    s.request 7 7 .switchToFiber 0 Env.clear = .ok r ∧ r.ret = 0 ∧ r.context.fpu = 0 ∧
    latest (suspends 7 0) tr = some c ∧ c.fpu = 9 ∧ ¬ Restores tr s 7 0 r := by
  obtain ⟨tr, s, hrun, hp⟩ := Lib.exists_history System.exec (fun _ _ => true)
    (System.init zeroContext) leftWithImage
    (fun tr s => ((latest (suspends 7 0) tr).any fun c => c.fpu == 9) &&
      ((s.target 7 0).any fun f => f.index == 0) &&
      (s.request 7 7 .switchToFiber 0 Env.clear).toOption.any
        fun r => r.ret == 0 && r.context.fpu == 0) (by decide +kernel)
  simp only [Bool.and_eq_true] at hp
  obtain ⟨⟨hlatest, htarget⟩, hp⟩ := hp
  obtain ⟨c, hc, hc9⟩ := (Option.any_eq_true _ _).mp hlatest
  obtain ⟨f, hf, hf0⟩ := (Option.any_eq_true _ _).mp htarget
  have hindex : f.index = 0 := eq_of_beq hf0
  have hfpu9 : c.fpu = 9 := eq_of_beq hc9
  obtain ⟨r, hr, hp⟩ := of_toOption_any hp
  obtain ⟨h0, hfpu⟩ := Bool.and_eq_true_iff.mp hp
  have hfpu0 : r.context.fpu = 0 := eq_of_beq hfpu
  refine ⟨tr, s, r, c, hrun.mono fun _ _ _ h => ⟨h.1, h.2.2⟩, hr, eq_of_beq h0, hfpu0, hc,
    hfpu9, ?_⟩
  rintro ⟨f', c', hf', hc', hsame⟩
  have hff : f' = f := Option.some.inj (hf'.symm.trans hf)
  rw [hff, hindex] at hc'
  have hcc : c' = c := Option.some.inj (hc'.symm.trans hc)
  have heq := hsame.fpu
  rw [hcc, hfpu0, hfpu9] at heq
  exact absurd heq (by decide +kernel)

end LinuxFibers.Single
