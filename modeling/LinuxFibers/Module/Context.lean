import LinuxFibers.Module.Ownership

/-!
# The contexts of suspended fibers

A step of a run suspends a fiber when it switches away from it, with the context
of the caller, and when it creates it, with the context that `startContext` asks
for: the one of the creator with four registers set.  `suspends` reads this off the
history, from the system before the step and the action, so that "the context
when the fiber was last switched away from" is `latest (suspends ..)`.

The invariant `Suspended` says that a fiber which is not running holds the
context of its latest suspension.  It is kept by every step of `FiberStep`, and
`switch_restores` reads the result off it.
-/

namespace LinuxFibers.Module

open LinuxFibers.Lib HashTable

/-- The index of the active fiber of a thread. -/
def System.activeIndex (s : System) (tgid pid : Pid) : Option ℕ := do
  let p ← s.kernel.record tgid
  let thread ← searchThread pid p
  let a ← thread.obj.activeFiber
  let f ← p.fibers.deref a
  return f.index

/-- The context that a fiber starts from: the one of its creator, with `sp` and
`bp` at `dwStackPointer`, `ip` at `lpStartAddress` and `lpParameter` in `di`. -/
def startContext (creator : Context) (args : CreateArg) : Context where
  regs reg :=
    if reg = .sp ∨ reg = .bp then args.dwStackPointer
    else if reg = .ip then args.lpStartAddress
    else if reg = .di then args.lpParameter
    else creator.regs reg
  fpu := creator.fpu

/-- The context with which a step suspends the fiber `index` of a process. -/
def suspends (tgid : Pid) (index : ℕ) : System × Action → Option Context
  | (s, .ioctl id pid .switchToFiber arg env) =>
      match s.request id pid .switchToFiber arg env with
      | .ok r =>
          if id = tgid ∧ r.ret = 0 ∧ s.activeIndex id pid = some index then
            some (s.context (id, pid))
          else none
      | .error _ => none
  | (s, .ioctl id pid .createFiber arg env) =>
      match s.request id pid .createFiber arg env with
      | .ok r =>
          if id = tgid ∧ r.ret = index then
            some (startContext (s.context (id, pid)) env.createArg)
          else none
      | .error _ => none
  | _ => none

/-- The context that a fiber holds. -/
def FiberArg.context (f : FiberArg) : Context := ⟨f.regs, f.fpuReg⟩

/-- `CREATEFIBER` fills in the context that the fiber is to start from. -/
theorem createdFiber_context (cur : Task) (args : CreateArg) (index : ℕ) :
    (createdFiber cur args index).context = startContext cur.toContext args := by
  have hregs : createdRegs cur.regs args = (startContext cur.toContext args).regs := by
    funext reg
    cases reg <;> rfl
  rw [FiberArg.context]
  show (⟨createdRegs cur.regs args, cur.fpu⟩ : Context) = _
  rw [hregs]
  rfl

/-- Every fiber that is not running holds the context of its latest
suspension. -/
def Suspended (tr : List (System × Action)) (s : System) : Prop :=
  ∀ tgid p, s.kernel.record tgid = some p → ∀ f ∈ p.fibers, f.obj.running = false →
    latest (suspends tgid f.obj.index) tr = some f.obj.context

variable {s t : System} {tr : List (System × Action)} {id pid : Pid} {cmd : Command}
  {arg : Word} {env : Env} {r : Reply}

/-! ## What a step suspends -/

theorem suspends_switch (tgid : Pid) (index : ℕ)
    (hr : s.request id pid .switchToFiber arg env = .ok r) :
    suspends tgid index (s, .ioctl id pid .switchToFiber arg env) =
      if id = tgid ∧ r.ret = 0 ∧ s.activeIndex id pid = some index then
        some (s.context (id, pid)) else none := by
  simp only [suspends, hr]

theorem suspends_create (tgid : Pid) (index : ℕ)
    (hr : s.request id pid .createFiber arg env = .ok r) :
    suspends tgid index (s, .ioctl id pid .createFiber arg env) =
      if id = tgid ∧ r.ret = index then
        some (startContext (s.context (id, pid)) env.createArg)
      else none := by
  simp only [suspends, hr]

/-- A request says nothing about the fibers of other processes. -/
theorem suspends_other {tgid : Pid} (hid : id ≠ tgid) (index : ℕ) :
    suspends tgid index (s, .ioctl id pid cmd arg env) = none := by
  unfold suspends
  split
  · rename_i heq
    cases heq
    split
    · exact if_neg fun h => hid h.1
    · rfl
  · rename_i heq
    cases heq
    split
    · exact if_neg fun h => hid h.1
    · rfl
  · rfl

/-- A request that fails suspends nothing. -/
theorem suspends_failed {tgid : Pid} (hr : s.request id pid cmd arg env = .ok r)
    (hneg : r.ret < 0) (index : ℕ) :
    suspends tgid index (s, .ioctl id pid cmd arg env) = none := by
  cases cmd with
  | switchToFiber =>
    rw [suspends_switch tgid index hr]
    apply if_neg
    rintro ⟨_, h0, _⟩
    omega
  | createFiber =>
    rw [suspends_create tgid index hr]
    apply if_neg
    rintro ⟨_, h0⟩
    omega
  | convertToFiber => rfl
  | flsAlloc => rfl
  | flsFree => rfl
  | flsGetValue => rfl
  | flsSetValue => rfl
  | other => rfl

/-- The active fiber of a thread, as its history sees it. -/
theorem activeIndex_eq {p : ProcessArg} {thread : Entry ThreadArg} {a : ℕ} {old : FiberArg}
    (hp : s.kernel.record id = some p) (hthread : searchThread pid p = some thread)
    (hactive : thread.obj.activeFiber = some a) (hold : p.fibers.deref a = some old) :
    s.activeIndex id pid = some old.index := by
  simp only [System.activeIndex, hp, hthread, hactive, hold, Option.bind_eq_bind,
    Option.bind_some, pure]

/-! ## Steps -/

/-- A fiber of a switch that is neither the old one nor the target. -/
theorem switchedFiber_of_ne {cur : Task} {a target : ℕ} {old : FiberArg} {e : Entry FiberArg}
    (ha : e.addr ≠ a) (ht : e.addr ≠ target) :
    switchedFiber cur env a old target e = e.obj := by
  unfold switchedFiber
  dsimp only
  rw [if_neg ht, if_neg ha]

/-- The old fiber of a switch to another one. -/
theorem switchedFiber_old {cur : Task} {a target : ℕ} {old : FiberArg} {e : Entry FiberArg}
    (ha : e.addr = a) (ht : e.addr ≠ target) :
    switchedFiber cur env a old target e = (e.obj.save cur.toContext).stop (env.clock 0) := by
  unfold switchedFiber
  dsimp only
  rw [if_neg ht, if_pos ha]

theorem stop_context (f : FiberArg) (now : Timespec) : (f.stop now).context = f.context := by
  unfold FiberArg.context FiberArg.stop
  split <;> rfl

/-- The fibers after a request that succeeds in switching. -/
theorem suspended_switch {p : ProcessArg} {fe : Entry FiberArg} {th : Entry ThreadArg} {a : ℕ}
    {old : FiberArg} (hok : KernelOk s.kernel) (hsus : Suspended tr s)
    (hr : s.request id pid .switchToFiber arg env = .ok r) (h0 : r.ret = 0)
    (hp : s.kernel.record id = some p)
    (hth : searchThread pid p = some th) (hactive : th.obj.activeFiber = some a)
    (hold : p.fibers.deref a = some old) {f : Entry FiberArg}
    (hf : f ∈ (p.switch (s.task id pid) env th.addr a old fe.addr).fibers)
    (hrun : f.obj.running = false) :
    latest (suspends id f.obj.index) (tr ++ [(s, .ioctl id pid .switchToFiber arg env)]) =
      some f.obj.context := by
  have hl := hok.linked id p hp
  obtain ⟨x, hx, hxa, rfl⟩ := mem_of_deref hold
  rw [switch_eq] at hf
  obtain ⟨y, hy, rfl⟩ := mem_mapObj.mp hf
  change (switchedFiber (s.task id pid) env a x.obj fe.addr y).running = false at hrun
  change latest (suspends id (switchedFiber (s.task id pid) env a x.obj fe.addr y).index) _ =
    some (switchedFiber (s.task id pid) env a x.obj fe.addr y).context
  rw [switchedFiber_index]
  rw [switchedFiber_running] at hrun
  by_cases hyt : y.addr = fe.addr
  · rw [if_pos hyt] at hrun
    cases hrun
  · rw [if_neg hyt] at hrun
    have hsays := suspends_switch id y.obj.index hr
    have hindex := activeIndex_eq hp hth hactive hold
    by_cases hya : y.addr = a
    · -- the fiber that is switched away from
      rw [switchedFiber_old hya hyt, stop_context]
      have hyx : y = x := hl.fibers_unique.eq_of_addr hy hx (by rw [hya, hxa])
      rw [hindex, hyx, if_pos ⟨rfl, h0, rfl⟩] at hsays
      rw [hyx, latest_snoc_of_some hsays]
      rfl
    · rw [switchedFiber_of_ne hya hyt]
      rw [if_neg hya] at hrun
      have hne : ¬ (id = id ∧ r.ret = 0 ∧ s.activeIndex id pid = some y.obj.index) := by
        rintro ⟨_, _, heq⟩
        rw [hindex, Option.some.injEq] at heq
        apply hya
        rw [← hl.index_inj x hx y hy heq, hxa]
      rw [if_neg hne] at hsays
      rw [latest_snoc_of_none hsays]
      exact hsus id p hp y hy hrun

theorem suspended_request (hok : KernelOk s.kernel) (hsus : Suspended tr s)
    (hcmd : cmd = .convertToFiber ∨ cmd = .createFiber ∨ cmd = .switchToFiber)
    (hr : s.request id pid cmd arg env = .ok r) :
    Suspended (tr ++ [(s, .ioctl id pid cmd arg env)]) (s.resume id pid r) := by
  intro tgid p hp f hf hrun
  change r.kernel.record tgid = some p at hp
  by_cases hid : tgid = id
  · subst hid
    have hc := change_of_request hok hr hp
    generalize hbefore : s.kernel.record tgid = o at hc
    cases hc with
    | idle hneg =>
      have hret : r.ret < 0 := hneg (by rcases hcmd with rfl | rfl | rfl <;> rfl)
      rw [latest_snoc_of_none (suspends_failed hr hret _)]
      exact hsus tgid p hbefore f hf hrun
    | opened => cases hf
    | converted hsource =>
      rw [latest_snoc_of_none rfl]
      rcases mem_hashAdd.mp hf with rfl | hf
      · cases hrun
      · rcases hsource with rfl | ⟨_, rfl⟩
        · exact hsus tgid _ hbefore f hf hrun
        · cases hf
    | @created p thread a _ _ _ hret =>
      have hsays := suspends_create tgid f.obj.index hr
      rcases mem_hashAdd.mp hf with rfl | hf
      · rw [if_pos ⟨rfl, hret⟩] at hsays
        rw [latest_snoc_of_some hsays]
        exact congrArg some (createdFiber_context (s.task tgid pid) env.createArg p.fiberId).symm
      · have hlt := (hok.linked tgid p hbefore).index_lt f hf
        rw [if_neg (by rintro ⟨_, heq⟩; omega)] at hsays
        rw [latest_snoc_of_none hsays]
        exact hsus tgid p hbefore f hf hrun
    | @failed p fiber _ _ hret =>
      obtain ⟨g, hg, rfl⟩ := mem_modify.mp hf
      rw [latest_snoc_of_none (suspends_failed hr hret _)]
      by_cases hga : g.addr = fiber.addr
      · rw [if_pos hga] at hrun ⊢
        exact hsus tgid p hbefore g hg hrun
      · rw [if_neg hga] at hrun ⊢
        exact hsus tgid p hbefore g hg hrun
    | switched _ _ hthread hactive hold _ hret =>
      exact suspended_switch hok hsus hr hret hbefore hthread hactive hold hf hrun
    | stored _ _ _ hw =>
      rcases hw.command with rfl | rfl | rfl <;> simp at hcmd
  · rw [record_of_request hok hr hid] at hp
    rw [latest_snoc_of_none (suspends_other (Ne.symm hid) _)]
    exact hsus tgid p hp f hf hrun

theorem suspended_step {m : System × Action} (hok : KernelOk s.kernel) (hsus : Suspended tr s)
    (h : Recorded FiberStep s m t) : Suspended (tr ++ [m]) t := by
  obtain ⟨s', a⟩ := m
  obtain ⟨rfl, hcmd, hstep⟩ := h
  cases a with
  | user tgid pid c =>
    cases hstep
    intro tgid p hp f hf hrun
    rw [latest_snoc_of_none rfl]
    exact hsus tgid p hp f hf hrun
  | ioctl id pid cmd arg env =>
    obtain ⟨r, hr, rfl⟩ := step_ioctl hstep
    exact suspended_request hok hsus hcmd hr
  | exit proId thrId =>
    obtain ⟨k, hk, rfl⟩ := step_exit hstep
    intro tgid p hp f hf hrun
    rw [latest_snoc_of_none rfl]
    change k.record tgid = some p at hp
    obtain ⟨p₀, hp₀, hsub⟩ := (exited hok.toTables hk).fibers_of_record hok.toTables hp
    exact hsus tgid p₀ hp₀ f (hsub f hf) hrun

theorem suspended_run {context : Pid × Pid → Context}
    (h : Run (Recorded FiberStep) (System.init context) tr s) :
    KernelOk s.kernel ∧ Suspended tr s := by
  refine h.invariantTrace (I := fun tr s => KernelOk s.kernel ∧ Suspended tr s) ?_ ?_
  · intro tr s m t hs hm
    exact ⟨kernelOk_step hs.1 hm.2.2, suspended_step hs.1 hs.2 hm⟩
  · refine ⟨kernelOk_init, ?_⟩
    intro tgid p hp
    cases hp

/-! ## Context preservation -/

/-- A switch that succeeds gives the caller, before its value goes to `ax`, the
context of the latest suspension of the target: the one with which the thread
then running it last switched away from it, or the one it was created with. -/
theorem switch_restores {context : Pid × Pid → Context}
    (h : Run (Recorded FiberStep) (System.init context) tr s)
    (hr : s.request id pid .switchToFiber arg env = .ok r) (h0 : r.ret = 0) :
    ∃ p fiber, s.kernel.record id = some p ∧ searchFiber (arg.setWidth 32) p = some fiber ∧
      latest (suspends id fiber.obj.index) tr = some r.context := by
  obtain ⟨hok, hsus⟩ := suspended_run h
  have hc := change_of_request hok hr rfl
  generalize hbefore : s.kernel.record id = o at hc
  generalize r.kernel.record id = o' at hc
  cases hc with
  | idle hneg =>
    have := hneg rfl
    omega
  | @failed p fiber _ _ hret => omega
  | @switched p fiber thread a old next hfiber hstill hthread hactive hold hnext _ hctx =>
    refine ⟨p, fiber, rfl, hfiber, ?_⟩
    have hfe := (of_searchFiber hfiber).1
    have hl := hok.linked id p hbefore
    rw [hsus id p hbefore fiber hfe hstill, hctx]
    -- the caller's own fiber is running, so the save did not touch the target
    obtain ⟨x, hx, hxa, hxrun, _⟩ :=
      active_of_mem hl (hok.owned id p hbefore) (of_searchThread hthread).1
    have hne : fiber.addr ≠ a := by
      intro heq
      rw [hactive, Option.some.injEq] at hxa
      rw [← hl.fibers_unique.eq_of_addr hfe hx (heq.trans hxa), hstill] at hxrun
      cases hxrun
    have hkept : fiber ∈ p.fibers.modify a fun f => f.save (s.task id pid).toContext :=
      mem_modify_of_ne hfe hne
    rw [deref_of_mem (hl.fibers_unique.modify a _) hkept, Option.some.injEq] at hnext
    rw [← hnext]
    rfl
  | stored _ _ _ hw => rcases hw.command with hw | hw | hw <;> cases hw

/-- `switch_restores` for the way back to a fiber that was switched away from
with 42 in `r15`. -/
theorem switch_restores_r15 : ∃ (tr : List (System × Action)) (s : System) (r : Reply),
    Run (Recorded FiberStep) (System.init zeroContext) tr s ∧
    s.request 7 7 .switchToFiber 0 Env.plain = .ok r ∧ r.ret = 0 ∧ r.context.regs .r15 = 42 ∧
    ∃ p fiber, s.kernel.record 7 = some p ∧ searchFiber ((0 : Word).setWidth 32) p = some fiber ∧
      latest (suspends 7 fiber.obj.index) tr = some r.context := by
  obtain ⟨s, hrun, hp⟩ := exists_run (System.init zeroContext)
    [.ioctl 7 7 .convertToFiber 0 Env.plain, .ioctl 7 7 .createFiber 0 Env.plain,
      .user 7 7 ⟨fun _ => 42, 0⟩, .ioctl 7 7 .switchToFiber 1 Env.plain,
      .user 7 7 ⟨fun _ => 43, 0⟩]
    (fun s => (s.request 7 7 .switchToFiber 0 Env.plain).toOption.any
      fun r => r.ret == 0 && r.context.regs .r15 == 42) (by decide +kernel)
  have hfiber : Run FiberStep (System.init zeroContext) _ s :=
    hrun.restrict (P := Action.onFibers) (by simp [Action.onFibers])
  obtain ⟨tr, htr⟩ := hfiber.exists_recorded
  obtain ⟨r, hr, hp⟩ := of_toOption_any hp
  obtain ⟨h0, h15⟩ := Bool.and_eq_true_iff.mp hp
  have hret : r.ret = 0 := by simpa using h0
  exact ⟨tr, s, r, htr, hr, hret, by simpa using h15, switch_restores htr hr hret⟩

end LinuxFibers.Module
