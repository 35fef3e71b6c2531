import LinuxFibers.Module.Fls

/-!
# The counters of a fiber

`activations` and `failed_activations` are the counters that `show_file` prints.
`activates`, `refuses` and `convertsTo` say of a step of a run what it does to the
fiber at an address, and `statistics_exact` says that the counters of a fiber are
the numbers of these steps, and that no other step changes them.

The step lemma `counters_step` compares the fibers after a step with those before
it: a fiber was there and has what the step counts (`Tallied`), or it is new
(`Started`).
-/

namespace LinuxFibers.Module

open LinuxFibers.Lib HashTable

variable {s t : System} {tr : List (System × Action)} {m : System × Action} {tgid id pid : Pid}
  {cmd : Command} {arg : Word} {env : Env} {r : Reply} {a : ℕ}

/-! ## What is counted -/

/-- The fiber that `search_fiber` finds for a switch with this argument. -/
def System.found (s : System) (tgid : Pid) (arg : Word) : Option (Entry FiberArg) := do
  let p ← s.kernel.record tgid
  searchFiber (arg.setWidth 32) p

/-- A `SWITCHTOFIBER` that returns 0, with the fiber at `a` as its target. -/
def activates (tgid : Pid) (a : ℕ) : System × Action → Bool
  | (s, .ioctl id pid .switchToFiber arg env) =>
      match s.request id pid .switchToFiber arg env with
      | .ok r => decide (id = tgid ∧ r.ret = 0 ∧ (s.found id arg).map Entry.addr = some a)
      | .error _ => false
  | _ => false

/-- A `SWITCHTOFIBER` that finds the fiber at `a` running. -/
def refuses (tgid : Pid) (a : ℕ) : System × Action → Bool
  | (s, .ioctl id _ .switchToFiber arg _) =>
      decide (id = tgid) && (s.found id arg).any fun f => decide (f.addr = a) && f.obj.running
  | _ => false

/-- A `CONVERTTOFIBER` that succeeds, after which the caller is on the fiber at `a`. -/
def convertsTo (tgid : Pid) (a : ℕ) : System × Action → Bool
  | (s, .ioctl id pid .convertToFiber arg env) =>
      match s.request id pid .convertToFiber arg env with
      | .ok r =>
          decide (id = tgid ∧ 0 ≤ r.ret ∧
            ((s.resume id pid r).activeFiber id pid).map Prod.fst = some a)
      | .error _ => false
  | _ => false

/-- The number of times that the history activates the fiber at `a`. -/
def activationsOf (tr : List (System × Action)) (tgid : Pid) (a : ℕ) : ℕ :=
  tr.countP (activates tgid a) + if tr.any (convertsTo tgid a) then 1 else 0

/-- The number of times that the history finds the fiber at `a` running. -/
def failuresOf (tr : List (System × Action)) (tgid : Pid) (a : ℕ) : ℕ :=
  tr.countP (refuses tgid a)

/-- The fiber `e` is the fiber `e'` after the step. -/
structure Tallied (tgid : Pid) (m : System × Action) (e e' : Entry FiberArg) : Prop where
  addr : e'.addr = e.addr
  activations : e'.obj.activations =
    e.obj.activations + if activates tgid e.addr m then 1 else 0
  failed : e'.obj.failedActivations =
    e.obj.failedActivations + if refuses tgid e.addr m then 1 else 0
  old : convertsTo tgid e.addr m = false

/-- The step made the fiber `e'`. -/
structure Started (k : Kernel) (tgid : Pid) (m : System × Action) (e' : Entry FiberArg) :
    Prop where
  new : k.brk ≤ e'.addr
  activations : e'.obj.activations = if convertsTo tgid e'.addr m then 1 else 0
  failed : e'.obj.failedActivations = 0

/-- Nothing that the step counts is about the fiber at `a`. -/
structure Quiet (tgid : Pid) (a : ℕ) (m : System × Action) : Prop where
  activates : activates tgid a m = false
  refuses : refuses tgid a m = false
  convertsTo : convertsTo tgid a m = false

theorem Quiet.tallied {e e' : Entry FiberArg} (h : Quiet tgid e.addr m) (haddr : e'.addr = e.addr)
    (hact : e'.obj.activations = e.obj.activations)
    (hfail : e'.obj.failedActivations = e.obj.failedActivations) : Tallied tgid m e e' := by
  refine ⟨haddr, ?_, ?_, h.convertsTo⟩
  · rw [h.activates, hact]
    rfl
  · rw [h.refuses, hfail]
    rfl

/-- A request counts nothing for the fibers of other processes. -/
theorem quiet_other (hid : id ≠ tgid) (a : ℕ) : Quiet tgid a (s, .ioctl id pid cmd arg env) := by
  refine ⟨?_, ?_, ?_⟩
  · cases cmd with
    | switchToFiber =>
      simp only [activates]
      split
      · exact decide_eq_false fun h => hid h.1
      · rfl
    | _ => rfl
  · cases cmd with
    | switchToFiber => simp only [refuses, decide_eq_false hid, Bool.false_and]
    | _ => rfl
  · cases cmd with
    | convertToFiber =>
      simp only [convertsTo]
      split
      · exact decide_eq_false fun h => hid h.1
      · rfl
    | _ => rfl

/-- The requests that are not about activations count nothing. -/
theorem quiet_of_command (hs : cmd ≠ .switchToFiber) (hc : cmd ≠ .convertToFiber) (a : ℕ) :
    Quiet tgid a (s, .ioctl id pid cmd arg env) := by
  cases cmd with
  | switchToFiber => exact absurd rfl hs
  | convertToFiber => exact absurd rfl hc
  | _ => exact ⟨rfl, rfl, rfl⟩

theorem activates_request (hr : s.request id pid .switchToFiber arg env = .ok r) (tgid : Pid)
    (a : ℕ) : activates tgid a (s, .ioctl id pid .switchToFiber arg env) =
      decide (id = tgid ∧ r.ret = 0 ∧ (s.found id arg).map Entry.addr = some a) := by
  simp only [activates, hr]

theorem convertsTo_request (hr : s.request id pid .convertToFiber arg env = .ok r) (tgid : Pid)
    (a : ℕ) : convertsTo tgid a (s, .ioctl id pid .convertToFiber arg env) =
      decide (id = tgid ∧ 0 ≤ r.ret ∧
        ((s.resume id pid r).activeFiber id pid).map Prod.fst = some a) := by
  simp only [convertsTo, hr]

theorem found_eq {p : ProcessArg} (hp : s.kernel.record id = some p) (arg : Word) :
    s.found id arg = searchFiber (arg.setWidth 32) p := by
  simp only [System.found, hp, Option.bind_eq_bind, Option.bind_some]

/-! ## Switches -/

/-- A switch to a running fiber counts it and fails. -/
theorem switch_running {k : Kernel} {cur : Task} {e : Entry ProcessArg} {f : Entry FiberArg}
    (he : searchProcess k cur.tgid = some e) (hf : searchFiber (arg.setWidth 32) e.obj = some f)
    (hrun : f.obj.running = true) : switchToFiber k cur arg env = reply cur
      (k.setProcess e.addr
        { e.obj with fibers := e.obj.fibers.modify f.addr FiberArg.fail }) (-1) := by
  unfold switchToFiber
  simp only [he, hf, hrun, if_true]

theorem refuses_iff (tgid : Pid) (a : ℕ) :
    refuses tgid a (s, .ioctl id pid .switchToFiber arg env) = true ↔
      id = tgid ∧ ∃ f, s.found id arg = some f ∧ f.addr = a ∧ f.obj.running = true := by
  simp only [refuses, Bool.and_eq_true, decide_eq_true_eq, Option.any_eq_true]

/-- The fibers after a switch to a running fiber. -/
theorem counters_running (hok : KernelOk s.kernel)
    (hr : s.request id pid .switchToFiber arg env = .ok r) {f : Entry FiberArg}
    (hfound : s.found id arg = some f) (hrun : f.obj.running = true) {p' : ProcessArg}
    (hp' : r.kernel.record id = some p') {e' : Entry FiberArg} (he' : e' ∈ p'.fibers) :
    ∃ p e, s.kernel.record id = some p ∧ e ∈ p.fibers ∧
      Tallied id (s, .ioctl id pid .switchToFiber arg env) e e' := by
  obtain ⟨p, hp, hf⟩ := Option.bind_eq_some_iff.mp hfound
  obtain ⟨x, hx, hobj⟩ := Option.map_eq_some_iff.mp hp
  subst hobj
  have hx' : searchProcess s.kernel (s.task id pid).tgid = some x := hx
  have hrequest : switchToFiber s.kernel (s.task id pid) arg env = .ok r := hr
  rw [switch_running hx' hf hrun] at hrequest
  cases hrequest
  obtain ⟨hmem, hpid⟩ := of_searchProcess hx
  have hafter := record_setProcess_self (p := { x.obj with
    fibers := x.obj.fibers.modify f.addr FiberArg.fail }) hok.toTables hmem rfl
  rw [hpid] at hafter
  have hp'' := Option.some.inj (hp'.symm.trans hafter)
  rw [hp'', modify_eq_mapObj] at he'
  obtain ⟨e, he, heq⟩ := mem_mapObj.mp he'
  have hactive : activates id e.addr (s, .ioctl id pid .switchToFiber arg env) = false := by
    rw [activates_request hr]
    exact decide_eq_false fun h => absurd (show (-1 : ℤ) = 0 from h.2.1) (by decide)
  refine ⟨x.obj, e, hp, he, ?_⟩
  rw [heq]
  by_cases ha : e.addr = f.addr
  · have hrefuses : refuses id e.addr (s, .ioctl id pid .switchToFiber arg env) = true :=
      (refuses_iff id e.addr).mpr ⟨rfl, f, hfound, ha.symm, hrun⟩
    refine ⟨rfl, ?_, ?_, rfl⟩
    · rw [hactive, if_pos ha]
      rfl
    · rw [hrefuses, if_pos ha]
      rfl
  · have hrefuses : refuses id e.addr (s, .ioctl id pid .switchToFiber arg env) = false := by
      rw [Bool.eq_false_iff]
      intro h
      obtain ⟨_, f', hf', haddr, _⟩ := (refuses_iff id e.addr).mp h
      rw [hfound, Option.some.injEq] at hf'
      exact ha (by rw [hf', haddr])
    refine ⟨rfl, ?_, ?_, rfl⟩
    · rw [hactive, if_neg ha]
      rfl
    · rw [hrefuses, if_neg ha]
      rfl

/-- A fiber of a switch that succeeds. -/
theorem activations_switchedFiber {cur : Task} (b target : ℕ) (old : FiberArg)
    (e : Entry FiberArg) : (switchedFiber cur env b old target e).activations =
      e.obj.activations + if e.addr = target then 1 else 0 := by
  have hstop : ∀ (g : FiberArg) (now : Timespec), (g.stop now).activations = g.activations := by
    intro g now
    unfold FiberArg.stop
    split <;> rfl
  have hsaved : ((e.obj.save cur.toContext).stop (env.clock 0)).activations =
      e.obj.activations := hstop _ _
  unfold switchedFiber
  dsimp only
  by_cases ht : e.addr = target
  · rw [if_pos ht, if_pos ht]
    show (if e.addr = b then _ else _ : FiberArg).activations + 1 = _
    split
    · rw [hsaved]
    · rfl
  · rw [if_neg ht, if_neg ht]
    split
    · exact hsaved
    · rfl

theorem failedActivations_switchedFiber {cur : Task} (b target : ℕ) (old : FiberArg)
    (e : Entry FiberArg) :
    (switchedFiber cur env b old target e).failedActivations = e.obj.failedActivations := by
  have hstop : ∀ (g : FiberArg) (now : Timespec),
      (g.stop now).failedActivations = g.failedActivations := by
    intro g now
    unfold FiberArg.stop
    split <;> rfl
  have hsaved : ((e.obj.save cur.toContext).stop (env.clock 0)).failedActivations =
      e.obj.failedActivations := hstop _ _
  unfold switchedFiber
  dsimp only
  split <;> split
  · exact hsaved
  · rfl
  · exact hsaved
  · rfl

/-- The fibers of the caller's process after a switch. -/
theorem counters_switch (hok : KernelOk s.kernel)
    (hr : s.request id pid .switchToFiber arg env = .ok r) {p' : ProcessArg}
    (hp' : r.kernel.record id = some p') {e' : Entry FiberArg} (he' : e' ∈ p'.fibers) :
    ∃ p e, s.kernel.record id = some p ∧ e ∈ p.fibers ∧
      Tallied id (s, .ioctl id pid .switchToFiber arg env) e e' := by
  by_cases hcase : ∃ f, s.found id arg = some f ∧ f.obj.running = true
  · obtain ⟨f, hfound, hrun⟩ := hcase
    exact counters_running hok hr hfound hrun hp' he'
  · have hact := @activates_request s id pid arg env r hr id
    have hrefuses : ∀ a, refuses id a (s, .ioctl id pid .switchToFiber arg env) = false := by
      intro a
      rw [Bool.eq_false_iff]
      intro h
      obtain ⟨_, f, hf, _, hrun⟩ := (refuses_iff id a).mp h
      exact hcase ⟨f, hf, hrun⟩
    have hc := change_of_request hok hr hp'
    generalize hbefore : s.kernel.record id = o at hc
    cases hc with
    | idle hneg =>
      have hneg := hneg rfl
      have hquiet : Quiet id e'.addr (s, .ioctl id pid .switchToFiber arg env) :=
        ⟨by rw [hact]; exact decide_eq_false fun h => by omega, hrefuses _, rfl⟩
      exact ⟨p', e', rfl, he', hquiet.tallied rfl rfl rfl⟩
    | @failed p fiber hfiber hrun =>
      exact absurd ⟨fiber, by rw [found_eq hbefore, hfiber], hrun⟩ hcase
    | @switched p fiber thread b old next hfiber _ _ _ _ _ hret =>
      rw [switch_eq] at he'
      obtain ⟨e, he, heq⟩ := mem_mapObj.mp he'
      refine ⟨p, e, rfl, he, ?_⟩
      have hsame : activates id e.addr (s, .ioctl id pid .switchToFiber arg env) =
          decide (e.addr = fiber.addr) := by
        rw [hact, found_eq hbefore, hfiber, hret]
        simp [eq_comm]
      rw [heq]
      refine ⟨rfl, ?_, ?_, rfl⟩
      · show (switchedFiber (s.task id pid) env b old fiber.addr e).activations = _
        rw [activations_switchedFiber, hsame]
        simp only [decide_eq_true_eq]
      · show (switchedFiber (s.task id pid) env b old fiber.addr e).failedActivations = _
        rw [failedActivations_switchedFiber, hrefuses]
        rfl
    | stored _ _ _ hw => cases hw

/-! ## Steps -/

/-- The caller is on its new fiber after it converted. -/
theorem activeFiber_converted {k : Kernel} (hok : KernelOk k) {c : Pid × Pid → Context}
    {p : ProcessArg} {n f : ℕ} {fiber : FiberArg}
    (hp : k.record id = some (p.convert pid n f fiber)) :
    (System.mk k c).activeFiber id pid = some (f, fiber) := by
  have hthread : searchThread pid (p.convert pid n f fiber) =
      some ⟨hash32 pid, n, ⟨pid, some f⟩⟩ := search_hashAdd_self (beq_self_eq_true pid)
  have hmem : (⟨fiberBucket fiber.index, f, fiber⟩ : Entry FiberArg) ∈
      (p.convert pid n f fiber).fibers := mem_hashAdd.mpr (Or.inl rfl)
  exact activeFiber_eq hp hthread rfl (deref_of_mem (hok.linked id _ hp).fibers_unique hmem)

/-- The fibers of the caller's process after `CONVERTTOFIBER`. -/
theorem counters_convert (hok : KernelOk s.kernel)
    (hr : s.request id pid .convertToFiber arg env = .ok r) {p' : ProcessArg}
    (hp' : r.kernel.record id = some p') {e' : Entry FiberArg} (he' : e' ∈ p'.fibers) :
    (∃ p e, s.kernel.record id = some p ∧ e ∈ p.fibers ∧
      Tallied id (s, .ioctl id pid .convertToFiber arg env) e e') ∨
    Started s.kernel id (s, .ioctl id pid .convertToFiber arg env) e' := by
  have hevent := @convertsTo_request s id pid arg env r hr id
  have hok' : KernelOk r.kernel := kernelOk_request hok hr
  have hc := change_of_request hok hr hp'
  generalize hbefore : s.kernel.record id = o at hc
  cases hc with
  | idle hneg =>
    have hneg := hneg rfl
    have hquiet : Quiet id e'.addr (s, .ioctl id pid .convertToFiber arg env) :=
      ⟨rfl, rfl, by rw [hevent]; exact decide_eq_false fun h => by omega⟩
    exact Or.inl ⟨p', e', rfl, he', hquiet.tallied rfl rfl rfl⟩
  | opened => cases he'
  | @converted _ p t f hsource hnone _ _ hf _ _ hret =>
    have hactive : (s.resume id pid r).activeFiber id pid =
        some (f, convertedFiber (s.task id pid) env p.fiberId) := activeFiber_converted hok' hp'
    have hnonneg : 0 ≤ r.ret := by omega
    have hconv : ∀ a, convertsTo id a (s, .ioctl id pid .convertToFiber arg env) =
        decide (f = a) := by
      intro a
      rw [hevent, hactive]
      simp [hnonneg]
    rcases mem_hashAdd.mp he' with hnew | hold
    · right
      rw [hnew]
      refine ⟨hf, ?_, rfl⟩
      rw [hconv, decide_eq_true rfl]
      rfl
    · left
      rcases hsource with heq | ⟨_, heq⟩
      · have hlt := (hok.linked id p (hbefore.trans heq)).fibers_lt e' hold
        have hquiet : Quiet id e'.addr (s, .ioctl id pid .convertToFiber arg env) :=
          ⟨rfl, rfl, by rw [hconv]; exact decide_eq_false fun h => by omega⟩
        exact ⟨p, e', heq, hold, hquiet.tallied rfl rfl rfl⟩
      · rw [heq] at hold
        cases hold
  | stored _ _ _ hw => cases hw

/-- The fibers of the caller's process after a request. -/
theorem counters_request (hok : KernelOk s.kernel) (hr : s.request id pid cmd arg env = .ok r)
    {p' : ProcessArg} (hp' : r.kernel.record id = some p') {e' : Entry FiberArg}
    (he' : e' ∈ p'.fibers) :
    (∃ p e, s.kernel.record id = some p ∧ e ∈ p.fibers ∧
      Tallied id (s, .ioctl id pid cmd arg env) e e') ∨
    Started s.kernel id (s, .ioctl id pid cmd arg env) e' := by
  by_cases hs : cmd = .switchToFiber
  · subst hs
    exact Or.inl (counters_switch hok hr hp' he')
  · by_cases hc : cmd = .convertToFiber
    · subst hc
      exact counters_convert hok hr hp' he'
    · have hquiet := fun a => @quiet_of_command s id id pid cmd arg env hs hc a
      have hchange := change_of_request hok hr hp'
      generalize hbefore : s.kernel.record id = o at hchange
      cases hchange with
      | idle => exact Or.inl ⟨p', e', rfl, he', (hquiet _).tallied rfl rfl rfl⟩
      | opened => exact absurd rfl hc
      | converted => exact absurd rfl hc
      | @created p thread f _ hf =>
        rcases mem_hashAdd.mp he' with hnew | hold
        · right
          rw [hnew]
          exact ⟨hf, rfl, rfl⟩
        · exact Or.inl ⟨p, e', rfl, hold, (hquiet _).tallied rfl rfl rfl⟩
      | failed => exact absurd rfl hs
      | switched => exact absurd rfl hs
      | @stored _ p thread b old f _ _ hold hw =>
        rw [modify_eq_mapObj] at he'
        obtain ⟨e, he, heq⟩ := mem_mapObj.mp he'
        have hobj : e'.obj = if e.addr = b then f else e.obj := by rw [heq]
        have haddr : e'.addr = e.addr := by rw [heq]
        have hactivations : e'.obj.activations = e.obj.activations ∧
            e'.obj.failedActivations = e.obj.failedActivations := by
          rw [hobj]
          split
          · rename_i hb
            have hex : e.obj = old :=
              (hok.linked id p hbefore).fibers_unique.obj_of_deref hold he hb
            rw [hex, hw.eq_with]
            exact ⟨rfl, rfl⟩
          · exact ⟨rfl, rfl⟩
        exact Or.inl ⟨p, e, rfl, he,
          (hquiet _).tallied haddr hactivations.1 hactivations.2⟩

/-- The fibers after a step: they were there, or the step made them. -/
theorem counters_step (hok : KernelOk s.kernel) (h : Recorded Step s m t) {p' : ProcessArg}
    (hp' : t.kernel.record tgid = some p') {e' : Entry FiberArg} (he' : e' ∈ p'.fibers) :
    (∃ p e, s.kernel.record tgid = some p ∧ e ∈ p.fibers ∧ Tallied tgid m e e') ∨
      Started s.kernel tgid m e' := by
  obtain ⟨s', act⟩ := m
  obtain ⟨heq, hstep⟩ := h
  have heq : s' = s := heq
  subst heq
  cases act with
  | user id pid c =>
    cases hstep
    have hquiet : ∀ a, Quiet tgid a (s', .user id pid c) := fun _ => ⟨rfl, rfl, rfl⟩
    exact Or.inl ⟨p', e', hp', he', (hquiet _).tallied rfl rfl rfl⟩
  | ioctl id pid cmd arg env =>
    obtain ⟨r, hr, rfl⟩ := step_ioctl hstep
    have hp' : r.kernel.record tgid = some p' := hp'
    by_cases hid : id = tgid
    · subst hid
      exact counters_request hok hr hp' he'
    · rw [record_of_request hok hr (Ne.symm hid)] at hp'
      exact Or.inl ⟨p', e', hp', he', (quiet_other hid _).tallied rfl rfl rfl⟩
  | exit proId thrId =>
    obtain ⟨k, hk, rfl⟩ := step_exit hstep
    obtain ⟨p, hp, hsub⟩ := (exited hok.toTables hk).fibers_of_record hok.toTables hp'
    have hquiet : ∀ a, Quiet tgid a (s', .exit proId thrId) := fun _ => ⟨rfl, rfl, rfl⟩
    exact Or.inl ⟨p, e', hp, hsub e' he', (hquiet _).tallied rfl rfl rfl⟩

/-! ## The counters are the history -/

theorem found_lt (hok : KernelOk s.kernel) {f : Entry FiberArg} (h : s.found id arg = some f) :
    f.addr < s.kernel.brk := by
  obtain ⟨p, hp, hf⟩ := Option.bind_eq_some_iff.mp h
  exact (hok.linked id p hp).fibers_lt f (of_searchFiber hf).1

/-- A switch is about a fiber that exists before it. -/
theorem not_switch_of_le (hok : KernelOk s.kernel) (act : Action) (hle : s.kernel.brk ≤ a) :
    activates tgid a (s, act) = false ∧ refuses tgid a (s, act) = false := by
  cases act with
  | user => exact ⟨rfl, rfl⟩
  | exit => exact ⟨rfl, rfl⟩
  | ioctl id pid cmd arg env =>
    cases cmd with
    | switchToFiber =>
      constructor
      · simp only [activates]
        split
        · apply decide_eq_false
          rintro ⟨_, _, hmap⟩
          obtain ⟨f, hf, haddr⟩ := Option.map_eq_some_iff.mp hmap
          have hlt := found_lt hok hf
          omega
        · rfl
      · rw [Bool.eq_false_iff]
        intro hrefuses
        obtain ⟨_, f, hf, haddr, _⟩ := (refuses_iff tgid a).mp hrefuses
        have hlt := found_lt hok hf
        omega
    | _ => exact ⟨rfl, rfl⟩

/-- A step counts nothing for a fiber that does not exist after it. -/
theorem quiet_of_le (hok : KernelOk s.kernel) (h : Recorded Step s m t)
    (hle : t.kernel.brk ≤ a) : Quiet tgid a m := by
  obtain ⟨s', act⟩ := m
  obtain ⟨heq, hstep⟩ := h
  have heq : s' = s := heq
  subst heq
  have hbrk := brk_le_step hok hstep
  obtain ⟨hactivates, hrefuses⟩ := @not_switch_of_le s' tgid a hok act (by omega)
  refine ⟨hactivates, hrefuses, ?_⟩
  cases act with
  | user => rfl
  | exit => rfl
  | ioctl id pid cmd arg env =>
    obtain ⟨r, hr, rfl⟩ := step_ioctl hstep
    have hok' : KernelOk r.kernel := kernelOk_request hok hr
    cases cmd with
    | convertToFiber =>
      rw [convertsTo_request hr]
      apply decide_eq_false
      rintro ⟨_, _, hmap⟩
      obtain ⟨⟨b, f⟩, hf, haddr⟩ := Option.map_eq_some_iff.mp hmap
      have hlt : b < (s'.resume id pid r).kernel.brk := activeFiber_lt hok' hf
      have haddr : b = a := haddr
      omega
    | _ => rfl

/-- The counters of every fiber are what the history counts.  It counts nothing for a
fiber that does not exist yet. -/
structure Recounted (tr : List (System × Action)) (s : System) : Prop where
  fresh : ∀ tgid a, s.kernel.brk ≤ a → ∀ m ∈ tr, Quiet tgid a m
  fiber : ∀ tgid p, s.kernel.record tgid = some p → ∀ e ∈ p.fibers,
    e.obj.activations = activationsOf tr tgid e.addr ∧
      e.obj.failedActivations = failuresOf tr tgid e.addr

theorem activationsOf_snoc (tr : List (System × Action)) (m : System × Action) (tgid : Pid)
    (a : ℕ) : activationsOf (tr ++ [m]) tgid a =
      tr.countP (activates tgid a) + (if activates tgid a m then 1 else 0) +
        if tr.any (convertsTo tgid a) || convertsTo tgid a m then 1 else 0 := by
  simp only [activationsOf, List.countP_append, List.countP_singleton, List.any_append,
    List.any_cons, List.any_nil, Bool.or_false]

theorem failuresOf_snoc (tr : List (System × Action)) (m : System × Action) (tgid : Pid)
    (a : ℕ) : failuresOf (tr ++ [m]) tgid a =
      failuresOf tr tgid a + if refuses tgid a m then 1 else 0 := by
  simp only [failuresOf, List.countP_append, List.countP_singleton]

/-- A history that counts nothing for a fiber. -/
theorem counts_of_quiet (h : ∀ m ∈ tr, Quiet tgid a m) :
    tr.countP (activates tgid a) = 0 ∧ failuresOf tr tgid a = 0 ∧
      tr.any (convertsTo tgid a) = false := by
  refine ⟨List.countP_eq_zero.mpr fun m hm => ?_, List.countP_eq_zero.mpr fun m hm => ?_,
    List.any_eq_false.mpr fun m hm => ?_⟩
  · rw [(h m hm).activates]
    exact Bool.false_ne_true
  · rw [(h m hm).refuses]
    exact Bool.false_ne_true
  · rw [(h m hm).convertsTo]
    exact Bool.false_ne_true

theorem recounted_step (hok : KernelOk s.kernel) (hc : Recounted tr s) (h : Recorded Step s m t) :
    Recounted (tr ++ [m]) t := by
  have hbrk : s.kernel.brk ≤ t.kernel.brk := brk_le_step hok h.2
  constructor
  · intro tgid a hle m' hm'
    rcases List.mem_append.mp hm' with hold | hnew
    · exact hc.fresh tgid a (by omega) m' hold
    · rw [List.mem_singleton.mp hnew]
      exact quiet_of_le hok h hle
  · intro tgid p' hp' e' he'
    rw [activationsOf_snoc, failuresOf_snoc]
    rcases counters_step hok h hp' he' with ⟨p, e, hp, he, htally⟩ | hstarted
    · obtain ⟨hactivations, hfailed⟩ := hc.fiber tgid p hp e he
      rw [htally.addr, htally.old, htally.activations, htally.failed, hactivations, hfailed,
        Bool.or_false, activationsOf]
      exact ⟨by omega, rfl⟩
    · obtain ⟨hzero, hfailed, hany⟩ := counts_of_quiet (hc.fresh tgid e'.addr hstarted.new)
      have hquiet : activates tgid e'.addr m = false ∧ refuses tgid e'.addr m = false := by
        have hm : m = (s, m.2) := Prod.ext h.1 rfl
        rw [hm]
        exact not_switch_of_le hok m.2 hstarted.new
      rw [hzero, hfailed, hany, hquiet.1, hquiet.2, hstarted.activations, hstarted.failed,
        Bool.false_or]
      exact ⟨by simp, rfl⟩

theorem recounted_run {context : Pid × Pid → Context}
    (h : Run (Recorded Step) (System.init context) tr s) :
    KernelOk s.kernel ∧ Recounted tr s := by
  refine h.invariantTrace (I := fun tr s => KernelOk s.kernel ∧ Recounted tr s) ?_ ?_
  · intro tr s m t hs hm
    exact ⟨kernelOk_step hs.1 hm.2, recounted_step hs.1 hs.2 hm⟩
  · exact ⟨kernelOk_init, fun _ _ _ m hm => (by cases hm), fun _ p hp => by cases hp⟩

/-- In every run, `activations` of a fiber is the number of the switches to it that
returned 0, and one more when it was made by `CONVERTTOFIBER`, and
`failed_activations` is the number of the switches that found it running.  A next
step changes the counters when it is such a switch, and only then. -/
theorem statistics_exact {context : Pid × Pid → Context} {p : ProcessArg} {e : Entry FiberArg}
    (h : Run (Recorded Step) (System.init context) tr s)
    (hp : s.kernel.record tgid = some p) (he : e ∈ p.fibers) :
    e.obj.activations = tr.countP (activates tgid e.addr) +
        (if tr.any (convertsTo tgid e.addr) then 1 else 0) ∧
      e.obj.failedActivations = tr.countP (refuses tgid e.addr) ∧
      ∀ act t p' e', Step s act t → t.kernel.record tgid = some p' → e' ∈ p'.fibers →
        e'.addr = e.addr →
        e'.obj.activations = e.obj.activations +
            (if activates tgid e.addr (s, act) then 1 else 0) ∧
          e'.obj.failedActivations = e.obj.failedActivations +
            (if refuses tgid e.addr (s, act) then 1 else 0) := by
  obtain ⟨hok, hc⟩ := recounted_run h
  obtain ⟨hactivations, hfailed⟩ := hc.fiber tgid p hp e he
  refine ⟨hactivations, hfailed, fun act t p' e' hstep hp' he' haddr => ?_⟩
  have hl := hok.linked tgid p hp
  have hm : Recorded Step s (s, act) t := ⟨rfl, hstep⟩
  rcases counters_step hok hm hp' he' with ⟨q, x, hq, hx, htally⟩ | hstarted
  · have hpq : q = p := Option.some.inj (hq.symm.trans hp)
    rw [hpq] at hx
    have hxe : x = e := hl.fibers_unique.eq_of_addr hx he (htally.addr.symm.trans haddr)
    rw [hxe] at htally
    exact ⟨htally.activations, htally.failed⟩
  · have hlt := hl.fibers_lt e he
    have hnew := hstarted.new
    omega

/-- `statistics_exact` for a fiber that its own thread and an unconverted thread find
running, and that is switched away from and back. -/
theorem statistics_after_refusals : ∃ (tr : List (System × Action)) (s : System)
    (p : ProcessArg) (e : Entry FiberArg),
    Run (Recorded Step) (System.init zeroContext) tr s ∧ s.kernel.record 7 = some p ∧
    e ∈ p.fibers ∧ e.obj.activations = 2 ∧ e.obj.failedActivations = 2 ∧
    tr.countP (activates 7 e.addr) + (if tr.any (convertsTo 7 e.addr) then 1 else 0) = 2 ∧
    tr.countP (refuses 7 e.addr) = 2 := by
  obtain ⟨tr, s, hrun, hp⟩ := exists_history_of (fun _ _ => true) (System.init zeroContext)
    [.ioctl 7 7 .convertToFiber 0 Env.plain, .ioctl 7 7 .createFiber 0 Env.plain,
      .ioctl 7 7 .switchToFiber 0 Env.plain, .ioctl 7 7 .switchToFiber 1 Env.plain,
      .ioctl 7 7 .switchToFiber 0 Env.plain, .ioctl 7 8 .switchToFiber 0 Env.plain]
    (fun _ s => (s.kernel.record 7).any fun p => p.fibers.any fun e =>
      e.obj.activations == 2 && e.obj.failedActivations == 2) (by decide +kernel)
  obtain ⟨p, hrec, hany⟩ := (Option.any_eq_true _ _).mp hp
  obtain ⟨e, he, hcounters⟩ := List.any_eq_true.mp hany
  obtain ⟨hactivations, hfailed⟩ := Bool.and_eq_true_iff.mp hcounters
  have hstep : Run (Recorded Step) (System.init zeroContext) tr s :=
    hrun.mono fun _ _ _ h => ⟨h.1, h.2.2⟩
  obtain ⟨hcount, hcount', _⟩ := statistics_exact hstep hrec he
  have hactivations : e.obj.activations = 2 := eq_of_beq hactivations
  have hfailed : e.obj.failedActivations = 2 := eq_of_beq hfailed
  exact ⟨tr, s, p, e, hstep, hrec, he, hactivations, hfailed, by rw [← hcount, hactivations],
    by rw [← hcount', hfailed]⟩

end LinuxFibers.Module
