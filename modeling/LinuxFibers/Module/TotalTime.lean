import LinuxFibers.Module.Accounting

/-!
# The total times in runs of the machine

A context switch writes the active fibers of two tasks, of which one leaves the
CPU and the other was on none, so it ends one interval and begins another.  With
the requests and the exits this covers every step, and `totalTime_exact` reads the
result off the invariant `Accounted`.
-/

namespace LinuxFibers.Module

open LinuxFibers.Lib HashTable

variable {n : ℕ} {m m' : Machine n} {k k' : Kernel} {tgid pid : Pid} {a : ℕ}

/-! ## The context switches -/

/-- A write of a fiber that keeps its index and its flag. -/
theorem kernelOk_setFiber (hok : KernelOk k) {e : Entry ProcessArg} (he : e ∈ k.listProcess)
    {old f : FiberArg} (hold : e.obj.fibers.deref a = some old) (hindex : f.index = old.index)
    (hrun : f.running = old.running) : KernelOk (k.setFiber e a f) := by
  have hrec := record_of_mem hok.toTables he
  have hl := hok.linked _ _ hrec
  have hboth := linked_owned_modify hl (hok.owned _ _ hrec) a (fun _ => f) fun y hy hya => by
    rw [hl.fibers_unique.obj_of_deref hold hy hya]
    exact ⟨hindex, hrun⟩
  have hself := record_setFiber_self hok.toTables he a f
  refine ⟨hok.toTables.setProcess he rfl, fun id p hp => ?_, fun id p hp => ?_⟩
  · by_cases hid : id = e.obj.pid
    · rw [hid] at hp
      cases hself.symm.trans hp
      exact hboth.1
    · exact hok.linked id p ((record_setFiber_ne hok.toTables he a f hid).symm.trans hp)
  · by_cases hid : id = e.obj.pid
    · rw [hid] at hp
      cases hself.symm.trans hp
      exact hboth.2
    · exact hok.owned id p ((record_setFiber_ne hok.toTables he a f hid).symm.trans hp)

/-- The fiber at `a` is the active fiber of the task, which is of the process `tgid`. -/
def ProcessArg.ActiveOf (p : ProcessArg) (tgid : Pid) (task : TaskPtr) (a : ℕ) : Prop :=
  ∃ pid, task = some (tgid, pid) ∧ p.Active pid a

/-- What is known after the write of the active fiber of a task. -/
structure Updated (k : Kernel) (task : TaskPtr) (g : FiberArg → FiberArg) (k' : Kernel) :
    Prop where
  ok : KernelOk k'
  brk_eq : k'.brk = k.brk
  record : ∀ tgid p', k'.record tgid = some p' → ∃ p, k.record tgid = some p ∧
    p'.threads = p.threads ∧ ∀ f' ∈ p'.fibers, ∃ f ∈ p.fibers, f'.addr = f.addr ∧
      (p.ActiveOf tgid task f.addr → f'.obj = g f.obj) ∧
      (¬ p.ActiveOf tgid task f.addr → f'.obj = f.obj)

theorem of_findTask {task : TaskPtr} {process : Entry ProcessArg} {thread : Entry ThreadArg}
    (h : findTask k task = some (process, thread)) : ∃ id pid, task = some (id, pid) ∧
      searchProcess k id = some process ∧ searchThread pid process.obj = some thread := by
  obtain ⟨⟨id, pid⟩, htask, h⟩ := Option.bind_eq_some_iff.mp h
  obtain ⟨e, he, h⟩ := Option.bind_eq_some_iff.mp h
  obtain ⟨t, ht, h⟩ := Option.bind_eq_some_iff.mp h
  cases h
  exact ⟨id, pid, htask, he, ht⟩

/-- A task with an active fiber is found. -/
theorem findTask_of_active (hok : KernelOk k) {p : ProcessArg} (hp : k.record tgid = some p)
    {task : TaskPtr} (h : p.ActiveOf tgid task a) : findTask k task ≠ none := by
  obtain ⟨pid, rfl, t, ht, rfl, _⟩ := h
  obtain ⟨e, he, rfl⟩ := Option.map_eq_some_iff.mp hp
  have hthread := searchThread_of_mem (hok.linked _ _ hp) ht
  simp only [findTask, Option.bind_eq_bind, Option.bind_some, he, hthread, pure]
  exact Option.some_ne_none _

theorem updated (hok : KernelOk k) {task : TaskPtr} {g : FiberArg → FiberArg}
    (hindex : ∀ f, (g f).index = f.index) (hrun : ∀ f, (g f).running = f.running)
    (h : updateActive k task g = .ok k') : Updated k task g k' := by
  unfold updateActive at h
  split at h
  · rename_i hnone
    cases h
    refine ⟨hok, rfl, fun tgid p hp => ⟨p, hp, rfl, fun f hf => ⟨f, hf, rfl, ?_, fun _ => rfl⟩⟩⟩
    intro hactive
    exact absurd hnone (findTask_of_active hok hp hactive)
  · rename_i e th hfound
    obtain ⟨⟨b, old⟩, hold, h⟩ := of_bind h
    cases h
    obtain ⟨id, pid, rfl, he, hth⟩ := of_findTask hfound
    obtain ⟨hmem, rfl⟩ := of_searchProcess he
    obtain ⟨hactive, hold⟩ := of_derefFiber hold
    have hrec := record_of_mem hok.toTables hmem
    have hl := hok.linked _ _ hrec
    refine ⟨kernelOk_setFiber hok hmem hold (hindex old) (hrun old), rfl, fun tgid p' hp' => ?_⟩
    by_cases hid : tgid = e.obj.pid
    · subst hid
      cases (record_setFiber_self hok.toTables hmem b (g old)).symm.trans hp'
      refine ⟨e.obj, hrec, rfl, fun f' hf' => ?_⟩
      have hwritten : f' ∈ e.obj.fibers.modify b fun _ => g old := hf'
      obtain ⟨f, hf, rfl⟩ := mem_modify.mp hwritten
      by_cases hfb : f.addr = b
      · rw [if_pos hfb]
        refine ⟨f, hf, rfl, fun _ => ?_, fun hnot => ?_⟩
        · rw [hl.fibers_unique.obj_of_deref hold hf hfb]
        · obtain ⟨ht, hpid⟩ := of_searchThread hth
          exact absurd ⟨pid, rfl, th, ht, hpid, hfb ▸ hactive⟩ hnot
      · rw [if_neg hfb]
        refine ⟨f, hf, rfl, fun hact => ?_, fun _ => rfl⟩
        obtain ⟨pid', hpid', t, ht, rfl, hta⟩ := hact
        cases hpid'
        rw [searchThread_of_mem hl ht] at hth
        cases hth
        rw [hactive] at hta
        exact absurd (Option.some.inj hta).symm hfb
    · have hsame : k.record tgid = some p' :=
        (record_setFiber_ne hok.toTables hmem b (g old) hid).symm.trans hp'
      refine ⟨p', hsame, rfl, fun f hf => ⟨f, hf, rfl, fun hact => ?_, fun _ => rfl⟩⟩
      obtain ⟨_, hpid', _⟩ := hact
      cases hpid'
      exact absurd rfl hid

theorem updated_charge (hok : KernelOk k) {task : TaskPtr} {now : Timespec}
    (h : updateActive k task (FiberArg.charge now) = .ok k') :
    Updated k task (FiberArg.charge now) k' := by
  refine updated hok (fun f => ?_) (fun f => ?_) h
  · rw [charge_eq, setTimes_index]
  · rw [charge_eq, setTimes_running]

theorem updated_restart (hok : KernelOk k) {task : TaskPtr} {now : Timespec}
    (h : updateActive k task (FiberArg.restart now) = .ok k') :
    Updated k task (FiberArg.restart now) k' := by
  refine updated hok (fun f => ?_) (fun f => ?_) h
  · rw [restart_eq, setTimes_index]
  · rw [restart_eq, setTimes_running]

/-- The machine after a context switch. -/
def Machine.switched (m : Machine n) (cpu : Fin n) (next : TaskPtr) (clock : ℕ → Timespec)
    (k : Kernel) : Machine n where
  system := { m.system with kernel := k }
  running := Function.update m.running cpu next
  scheduled := Function.update m.scheduled cpu next
  now := CpuAction.later (.contextSwitch cpu next clock) m.now

/-- No task is on two CPUs. -/
def OneCpu (running : Fin n → TaskPtr) : Prop :=
  ∀ cpu cpu' task, running cpu = some task → running cpu' = some task → cpu = cpu'

theorem OneCpu.update {running : Fin n → TaskPtr} (h : OneCpu running) {next : TaskPtr}
    (hnext : next ≠ none → ∀ cpu, running cpu ≠ next) (cpu : Fin n) :
    OneCpu (Function.update running cpu next) := by
  have hother : ∀ c task, c ≠ cpu → running c = some task → next ≠ some task := by
    rintro c task _ hc rfl
    exact hnext (Option.some_ne_none task) c hc
  intro c c' task hc hc'
  by_cases hcpu : c = cpu <;> by_cases hcpu' : c' = cpu
  · exact hcpu.trans hcpu'.symm
  · rw [hcpu, Function.update_self] at hc
    rw [Function.update_of_ne hcpu'] at hc'
    exact absurd hc (hother c' task hcpu' hc')
  · rw [hcpu', Function.update_self] at hc'
    rw [Function.update_of_ne hcpu] at hc
    exact absurd hc' (hother c task hcpu hc)
  · rw [Function.update_of_ne hcpu] at hc
    rw [Function.update_of_ne hcpu'] at hc'
    exact h c c' task hc hc'

theorem active_of_threads {p p' : ProcessArg} (h : p'.threads = p.threads) :
    p'.Active pid a ↔ p.Active pid a := by
  unfold ProcessArg.Active
  rw [h]

theorem restartReading_cases (k : Kernel) (task : TaskPtr) :
    restartReading k task = 0 ∨ restartReading k task = 1 := by
  unfold restartReading
  split
  · exact Or.inr rfl
  · exact Or.inl rfl

/-- A context switch ends the interval of the old task's fiber and begins one of
the new task's. -/
theorem reckoning_contextSwitch (hok : KernelOk m.system.kernel) (hone : OneCpu m.running)
    (hscheduled : m.scheduled = m.running) {cpu : Fin n} {next : TaskPtr}
    (hnext : next ≠ none → ∀ cpu, m.running cpu ≠ next) {clock : ℕ → Timespec}
    (hticks : Ticks m.now clock)
    (hk : switchHandler m.system.kernel (m.scheduled cpu) next clock = .ok k) :
    KernelOk k ∧ k.brk = m.system.kernel.brk ∧
      Reckoning m (.contextSwitch cpu next clock) (m.switched cpu next clock k) := by
  obtain ⟨k₁, h₁, h₂⟩ := of_bind hk
  have hu₁ := updated_charge hok h₁
  have hu₂ := updated_restart hu₁.ok h₂
  refine ⟨hu₂.ok, hu₂.brk_eq.trans hu₁.brk_eq, fun tgid p₂ hp₂ f₂ hf₂ => Or.inr ?_⟩
  obtain ⟨p₁, hp₁, ht₂, hfibers₂⟩ := hu₂.record tgid p₂ hp₂
  obtain ⟨f₁, hf₁, ha₁, hnew, hnotNew⟩ := hfibers₂ f₂ hf₂
  obtain ⟨p, hp, ht₁, hfibers₁⟩ := hu₁.record tgid p₁ hp₁
  obtain ⟨f, hf, ha, hold, hnotOld⟩ := hfibers₁ f₁ hf₁
  have hl := hok.linked tgid p hp
  have ho := hok.owned tgid p hp
  have hok₂ : KernelOk (m.switched cpu next clock k).system.kernel := hu₂.ok
  rw [hscheduled] at hold hnotOld
  have hsame : ∀ task, p₁.ActiveOf tgid task f₁.addr ↔ p.ActiveOf tgid task f.addr := by
    intro task
    unfold ProcessArg.ActiveOf
    simp only [active_of_threads ht₁, ha]
  rw [hsame] at hnew hnotNew
  have hon' : (m.switched cpu next clock k).on tgid f.addr = true ↔
      p.ActiveOf tgid next f.addr ∨
        ∃ c, c ≠ cpu ∧ p.ActiveOf tgid (m.running c) f.addr := by
    rw [on_iff_of_record hok₂ hp₂]
    simp only [active_of_threads (ht₂.trans ht₁)]
    exact Function.exists_update_iff m.running fun _ task => p.ActiveOf tgid task f.addr
  have hon := on_iff_of_record (a := f.addr) hok hp
  -- two tasks with this active fiber are one
  have hunique : ∀ task task', p.ActiveOf tgid task f.addr → p.ActiveOf tgid task' f.addr →
      task = task' := by
    rintro _ _ ⟨pid, rfl, h⟩ ⟨pid', rfl, h'⟩
    rw [active_unique ho h h']
  rw [ha₁, ha]
  refine ⟨p, hp, f, hf, rfl, ?_⟩
  by_cases hactive : p.ActiveOf tgid (m.running cpu) f.addr
  · have hnotNext : ¬ p.ActiveOf tgid next f.addr := by
      intro h
      obtain ⟨_, hsome, _⟩ := id h
      exact hnext (hsome ▸ Option.some_ne_none _) cpu (hunique _ _ hactive h)
    have hoff : (m.switched cpu next clock k).on tgid f.addr = false := by
      rw [Bool.eq_false_iff, ne_eq, hon']
      rintro (hc | ⟨c, hcpu, hc⟩)
      · exact hnotNext hc
      · obtain ⟨_, hsome, _⟩ := id hactive
        exact hcpu (hone c cpu _ ((hunique _ _ hc hactive).trans hsome) hsome)
    rw [hnotNew hnotNext, hold hactive]
    have hrun := running_of_active hl ho hf hactive.choose_spec.2
    exact Reckoned.stopped (clock 0) (hon.mpr ⟨cpu, hactive⟩) hoff rfl rfl
      (by rw [charge_eq, setTimes_startingTime]) hrun
  · by_cases hactive' : p.ActiveOf tgid next f.addr
    · have hoff : m.on tgid f.addr = false := by
        rw [Bool.eq_false_iff, ne_eq, hon]
        rintro ⟨c, hc⟩
        obtain ⟨_, hsome, _⟩ := id hactive'
        exact hnext (hsome ▸ Option.some_ne_none _) c (hunique _ _ hc hactive')
      have hpos : ∀ i, i = 0 ∨ i = 1 → 0 < (clock i).nanoseconds.toNat := by
        rintro i (rfl | rfl)
        · exact hticks.1
        · exact Nat.lt_of_lt_of_le hticks.1 hticks.2.2
      rw [hnew hactive', hnotOld hactive, restart_eq]
      exact Reckoned.begun hoff (hon'.mpr (Or.inl hactive')) (setTimes_totalTime _ _ _)
        (congrArg BitVec.toNat (setTimes_startingTime _ _ _))
        (hpos _ (restartReading_cases m.system.kernel (m.scheduled cpu)))
    · have hstays : (m.switched cpu next clock k).on tgid f.addr = m.on tgid f.addr := by
        rw [Bool.eq_iff_iff, hon', hon]
        constructor
        · rintro (hc | ⟨c, _, hc⟩)
          · exact absurd hc hactive'
          · exact ⟨c, hc⟩
        · rintro ⟨c, hc⟩
          refine Or.inr ⟨c, ?_, hc⟩
          rintro rfl
          exact hactive hc
      rw [hnotNew hactive', hnotOld hactive]
      exact Reckoned.kept hstays rfl rfl rfl

/-! ## Runs -/

/-- The accounts of all fibers are right. -/
structure Accounted (tr : List (Machine n × CpuAction n × Machine n)) (m : Machine n) : Prop where
  ok : KernelOk m.system.kernel
  oneCpu : OneCpu m.running
  scheduled : m.scheduled = m.running
  account : ∀ tgid p, m.system.kernel.record tgid = some p → ∀ f ∈ p.fibers,
    Account (Machine.timeline tr tgid f.addr) (m.on tgid f.addr) m.now f.obj
  fresh : ∀ tgid a, m.system.kernel.brk ≤ a → Machine.timeline tr tgid a = Timeline.empty

variable {tr : List (Machine n × CpuAction n × Machine n)} {c : CpuAction n}

theorem timeline_step (x : Machine n × CpuAction n × Machine n) (tgid : Pid) (a : ℕ) :
    Machine.timeline (tr ++ [x]) tgid a =
      (Machine.timeline tr tgid a).look (Machine.sample tgid a x) := by
  unfold Machine.timeline
  rw [List.map_append, List.map_singleton, timeline_snoc]

theorem startReading_cases (m : Machine n) (c : CpuAction n) :
    m.startReading c = 0 ∨ m.startReading c = 1 := by
  unfold Machine.startReading
  split
  · exact Or.inr rfl
  · exact restartReading_cases _ _
  · exact Or.inl rfl

/-- The readings of a step lie between the last reading before it and its last
reading. -/
theorem readings_between (hticks : ∀ clock ∈ c.clock, Ticks m.now clock) :
    m.now ≤ m.reading c 0 ∧ m.reading c (m.startReading c) ≤ c.later m.now ∧
      m.now ≤ c.later m.now := by
  unfold Machine.reading CpuAction.later
  cases hc : c.clock with
  | none => exact ⟨Nat.le_refl _, Nat.le_refl _, Nat.le_refl _⟩
  | some clock =>
    obtain ⟨_, hle, hle'⟩ := hticks clock hc
    dsimp only
    refine ⟨hle, ?_, Nat.le_trans hle hle'⟩
    rcases startReading_cases m c with h | h
    · rw [h]
      exact hle'
    · exact Nat.le_of_eq (congrArg (fun i => (clock i).nanoseconds.toNat) h)

theorem account_made {x : Sample} {now : ℕ} {f : FiberArg} (h : Made x f)
    (hstart : x.start ≤ now) : Account (Timeline.empty.look x) x.on now f := by
  cases hon : x.on with
  | false =>
    rw [Timeline.look_idle rfl hon]
    exact ⟨h.total, (by intro i hi; cases hi), rfl, (by intro hb; cases hb), h.started⟩
  | true =>
    have hstarting := h.start hon
    rw [Timeline.look_begin rfl hon, ← hstarting]
    exact ⟨h.total, (by intro i hi; cases hi), rfl, fun _ => hstarting ▸ hstart, h.started⟩

/-- What a step does to the fibers keeps the accounts right. -/
theorem Accounted.reckon (h : Accounted tr m) (hok : KernelOk m'.system.kernel)
    (hone : OneCpu m'.running) (hscheduled : m'.scheduled = m'.running)
    (hbrk : m.system.kernel.brk ≤ m'.system.kernel.brk)
    (hticks : ∀ clock ∈ c.clock, Ticks m.now clock)
    (hnow : m'.now = c.later m.now) (hfibers : Reckoning m c m') :
    Accounted (tr ++ [(m, c, m')]) m' := by
  obtain ⟨hstop, hstart, hlater⟩ := readings_between hticks
  refine ⟨hok, hone, hscheduled, fun tgid p' hp' f' hf' => ?_, fun tgid a ha => ?_⟩
  · rw [timeline_step, hnow]
    change Account _ (Machine.sample tgid f'.addr (m, c, m')).on _ _
    rcases hfibers tgid p' hp' f' hf' with ⟨hnew, hmade⟩ | ⟨p, hp, f, hf, hfa, hreckoned⟩
    · rw [h.fresh tgid f'.addr hnew]
      exact account_made hmade hstart
    · have haccount := h.account tgid p hp f hf
      rw [hfa] at haccount
      exact haccount.look hreckoned hstop hstart hlater
  · have hoff : (Machine.sample tgid a (m, c, m')).on = false := by
      rw [Bool.eq_false_iff]
      intro hon
      have := on_lt hok hon
      omega
    rw [timeline_step, h.fresh tgid a (Nat.le_trans hbrk ha)]
    exact Timeline.look_idle rfl hoff

theorem accounted_step {x : Machine n × CpuAction n × Machine n} (h : Accounted tr m)
    (hstep : Traced CpuStep m x m') : Accounted (tr ++ [x]) m' := by
  obtain ⟨m₀, c, m₁⟩ := x
  obtain ⟨rfl, rfl, hallows, hticks, hexec⟩ := hstep
  dsimp only at *
  cases c with
  | thread a =>
    obtain ⟨hcmd, cpu, hcpu⟩ := hallows
    obtain ⟨s, hs, hm⟩ := of_bind hexec
    cases hm
    cases a with
    | user id pid ctx =>
      cases hs
      refine h.reckon h.ok h.oneCpu h.scheduled (Nat.le_refl _) hticks rfl ?_
      intro tgid p hp f hf
      exact Or.inr ⟨p, hp, f, hf, rfl, reckoned_same h.ok h.ok rfl _ hp hp rfl rfl rfl rfl f.addr⟩
    | ioctl id pid cmd arg env =>
      obtain ⟨r, hr, rfl⟩ := step_ioctl hs
      have hstarted : ∀ p, m₀.system.kernel.record id = some p → ∀ f ∈ p.fibers,
          f.obj.running = true → 0 < f.obj.startingTime.toNat :=
        fun p hp f hf => (h.account id p hp f hf).started
      have hq := requested h.ok.toTables hr
      have hfibers := reckoning_request h.ok hstarted ⟨cpu, hcpu⟩ (hticks _ rfl) hcmd hr
      exact h.reckon (kernelOk_request h.ok hr) h.oneCpu h.scheduled hq.brk_le hticks rfl hfibers
    | exit id pid =>
      obtain ⟨k, hk, rfl⟩ := step_exit hs
      have hbrk := (exited h.ok.toTables hk).brk_eq
      exact h.reckon (kernelOk_exit h.ok hk) h.oneCpu h.scheduled (Nat.le_of_eq hbrk.symm) hticks
        rfl (reckoning_exit h.ok hk)
  | contextSwitch cpu next clock =>
    obtain ⟨k, hk, hm⟩ := of_bind hexec
    cases hm
    obtain ⟨hok, hbrk, hfibers⟩ := reckoning_contextSwitch h.ok h.oneCpu h.scheduled hallows
      (hticks _ rfl) hk
    have hscheduled : Function.update m₀.scheduled cpu next =
        Function.update m₀.running cpu next := by
      rw [h.scheduled]
    exact h.reckon hok (h.oneCpu.update hallows cpu) hscheduled (Nat.le_of_eq hbrk.symm) hticks rfl
      hfibers

theorem accounted_run {context : Pid × Pid → Context} {running : Fin n → TaskPtr}
    (hone : OneCpu running) (h : Run (Traced CpuStep) (Machine.init context running) tr m) :
    Accounted tr m := by
  refine h.invariantTrace (I := Accounted) (fun _ _ _ _ hs hstep => accounted_step hs hstep) ?_
  refine ⟨kernelOk_init, hone, rfl, fun tgid p hp => ?_, fun _ _ _ => rfl⟩
  cases hp

/-! ## Context switches return -/

theorem updateActive_returns (hok : KernelOk k) (task : TaskPtr) (g : FiberArg → FiberArg) :
    ∃ k', updateActive k task g = .ok k' := by
  unfold updateActive
  split
  · exact ⟨k, rfl⟩
  · rename_i e th hfound
    obtain ⟨id, pid, _, he, hth⟩ := of_findTask hfound
    have hrec := record_of_mem hok.toTables (of_searchProcess he).1
    obtain ⟨f, _, _, _, hderef⟩ :=
      derefFiber_active (hok.linked _ _ hrec) (hok.owned _ _ hrec) hth
    simp only [hderef, bind, Except.bind, pure, Except.pure]
    exact ⟨_, rfl⟩

/-- The handler finds the active fiber of every task it looks at. -/
theorem switchHandler_returns (h : Accounted tr m) (cpu : Fin n) (next : TaskPtr)
    (clock : ℕ → Timespec) : ∃ m', m.exec (.contextSwitch cpu next clock) = .ok m' := by
  obtain ⟨k₁, h₁⟩ := updateActive_returns h.ok (m.scheduled cpu) (FiberArg.charge (clock 0))
  have hu₁ := updated_charge h.ok h₁
  obtain ⟨k₂, h₂⟩ := updateActive_returns hu₁.ok next
    (FiberArg.restart (clock (restartReading m.system.kernel (m.scheduled cpu))))
  refine ⟨m.switched cpu next clock k₂, ?_⟩
  simp only [Machine.exec, switchHandler, h₁, h₂, bind, Except.bind, pure, Except.pure]
  rfl

/-! ## The total times -/

/-- At every moment the `total_time` of a live fiber is the sum of its completed
intervals as the active fiber of a thread on a CPU, each in whole microseconds.  No
interval ends before it starts, the open one included. -/
theorem totalTime_exact {context : Pid × Pid → Context} {running : Fin n → TaskPtr}
    (hone : OneCpu running) (h : Run (Traced CpuStep) (Machine.init context running) tr m)
    {p : ProcessArg} (hp : m.system.kernel.record tgid = some p) {f : Entry FiberArg}
    (hf : f ∈ p.fibers) :
    f.obj.totalTime = BitVec.ofNat 64 ((Machine.timeline tr tgid f.addr).units 1000) ∧
    (Machine.timeline tr tgid f.addr).Forward ∧
    ∀ b, (Machine.timeline tr tgid f.addr).since = some b →
      f.obj.startingTime.toNat = b ∧ b ≤ m.now := by
  have haccount := (accounted_run hone h).account tgid p hp f hf
  refine ⟨haccount.total, haccount.forward, fun b hb => ?_⟩
  rw [haccount.since] at hb
  split at hb
  · rename_i hon
    cases hb
    exact ⟨rfl, haccount.start_le hon⟩
  · cases hb

/-- Runs of concrete actions of a machine. -/
theorem exists_cpuRun (m : Machine n) (cs : List (CpuAction n)) (p : Machine n → Bool)
    (h : (replay Machine.exec (fun m c => decide (m.Allows c ∧ ∀ clock ∈ c.clock,
      Ticks m.now clock)) m cs).any p = true) :
    ∃ tr m', Run (Traced CpuStep) m tr m' ∧ p m' = true := by
  obtain ⟨m', hrun, hp⟩ := Lib.exists_run Machine.exec _ m cs p h
  have hsteps : Run CpuStep m cs m' := hrun.mono fun _ _ _ hstep =>
    ⟨(of_decide_eq_true hstep.1).1, (of_decide_eq_true hstep.1).2, hstep.2⟩
  obtain ⟨tr, htr⟩ := hsteps.exists_traced
  exact ⟨tr, m', htr, hp⟩

/-- `totalTime_exact` for a fiber that ran for two seconds on one CPU and for one on
another. -/
theorem totalTime_exact_migrated :
    ∃ (tr : List (Machine 2 × CpuAction 2 × Machine 2)) (m : Machine 2) (p : ProcessArg)
      (f : Entry FiberArg), m.system.kernel.record 7 = some p ∧ f ∈ p.fibers ∧
      f.obj.totalTime = 3000000 ∧
      f.obj.totalTime = BitVec.ofNat 64 ((Machine.timeline tr 7 f.addr).units 1000) ∧
      (Machine.timeline tr 7 f.addr).Forward ∧
      ∀ b, (Machine.timeline tr 7 f.addr).since = some b →
        f.obj.startingTime.toNat = b ∧ b ≤ m.now := by
  let running : Fin 2 → TaskPtr := fun cpu => if cpu = 0 then some (7, 7) else none
  let env (seconds : Word) : Env := Env.good ⟨0, 0, 0⟩ ⟨0, 0⟩ seconds
  have hfirst : ∀ cpu task, running cpu = some task → cpu = 0 := by
    intro cpu task h
    by_contra hne
    simp [running, hne] at h
  have hone : OneCpu running := fun cpu cpu' task h h' =>
    (hfirst cpu task h).trans (hfirst cpu' task h').symm
  obtain ⟨tr, m, hrun, hm⟩ := exists_cpuRun (Machine.init zeroContext running)
    [.thread (.ioctl 7 7 .convertToFiber 0 (env 1)), .thread (.ioctl 7 7 .createFiber 0 (env 2)),
      .contextSwitch 0 none fun _ => ⟨3, 0⟩, .contextSwitch 1 (some (7, 7)) fun _ => ⟨5, 0⟩,
      .thread (.ioctl 7 7 .switchToFiber 1 (env 6))]
    (fun m => (m.system.kernel.record 7).any fun p =>
      p.fibers.any fun f => f.obj.totalTime == 3000000) (by decide +kernel)
  obtain ⟨p, hp, hany⟩ := (Option.any_eq_true _ _).mp hm
  obtain ⟨f, hf, htotal⟩ := List.any_eq_true.mp hany
  obtain ⟨hsum, hforward, hsince⟩ := totalTime_exact hone hrun hp hf
  exact ⟨tr, m, p, f, hp, hf, by simpa using htotal, hsum, hforward, hsince⟩

end LinuxFibers.Module
