import LinuxFibers.Module.Context
import LinuxFibers.Module.SwitchHandler

/-!
# The execution times of the fibers

An interval of a fiber is opened and closed in two places, by `SWITCHTOFIBER` and
by `switch_handler`, and both use `starting_time`.  The field is the start of the
open interval as long as the fiber is the active fiber of a thread on a CPU, and
it is stale otherwise.  `Account` says this of one fiber, and `Reckoned` is what a
step can do to a fiber and its time.
-/

namespace LinuxFibers.Module

open LinuxFibers.Lib HashTable

variable {n : ℕ} {m m' : Machine n} {k k' : Kernel} {tgid id pid : Pid} {a : ℕ}

/-! ## Active fibers -/

/-- The thread `pid` of the record has the active fiber at `a`. -/
def ProcessArg.Active (p : ProcessArg) (pid : Pid) (a : ℕ) : Prop :=
  ∃ t ∈ p.threads, t.obj.pid = pid ∧ t.obj.activeFiber = some a

theorem activeAddr_iff (hok : KernelOk k) :
    k.activeAddr tgid pid = some a ↔ ∃ p, k.record tgid = some p ∧ p.Active pid a := by
  unfold Kernel.activeAddr
  constructor
  · intro h
    obtain ⟨p, hp, h⟩ := Option.bind_eq_some_iff.mp h
    obtain ⟨t, ht, hactive⟩ := Option.bind_eq_some_iff.mp h
    obtain ⟨hmem, hpid⟩ := of_searchThread ht
    exact ⟨p, hp, t, hmem, hpid, hactive⟩
  · rintro ⟨p, hp, t, hmem, rfl, hactive⟩
    have ht := searchThread_of_mem (hok.linked tgid p hp) hmem
    simp only [hp, ht, Option.bind_eq_bind, Option.bind_some, hactive]

theorem on_iff : m.on tgid a = true ↔
    ∃ cpu pid, m.running cpu = some (tgid, pid) ∧
      m.system.kernel.activeAddr tgid pid = some a := by
  unfold Machine.on
  simp only [List.any_eq_true, List.mem_finRange, true_and]
  apply exists_congr
  intro cpu
  unfold Machine.onCpu
  cases m.running cpu with
  | none => simp
  | some x =>
    obtain ⟨g, pid⟩ := x
    simp only [Bool.and_eq_true, beq_iff_eq, Option.some.injEq, Prod.mk.injEq]
    constructor
    · rintro ⟨rfl, h⟩
      exact ⟨pid, ⟨rfl, rfl⟩, h⟩
    · rintro ⟨_, ⟨rfl, rfl⟩, h⟩
      exact ⟨rfl, h⟩

theorem on_iff_of_record (hok : KernelOk m.system.kernel) {p : ProcessArg}
    (hp : m.system.kernel.record tgid = some p) :
    m.on tgid a = true ↔ ∃ cpu pid, m.running cpu = some (tgid, pid) ∧ p.Active pid a := by
  rw [on_iff]
  simp only [activeAddr_iff hok, hp, Option.some.injEq, exists_eq_left']

/-- What a fiber has active stays active as long as threads and CPUs do. -/
theorem on_congr (hok : KernelOk m.system.kernel) (hok' : KernelOk m'.system.kernel)
    (hrunning : m'.running = m.running) {p p' : ProcessArg}
    (hp : m.system.kernel.record tgid = some p) (hp' : m'.system.kernel.record tgid = some p')
    (h : ∀ pid, p'.Active pid a ↔ p.Active pid a) : m'.on tgid a = m.on tgid a := by
  rw [Bool.eq_iff_iff, on_iff_of_record hok hp, on_iff_of_record hok' hp', hrunning]
  simp only [h]

theorem active_unique {p : ProcessArg} (ho : Owned p) {pid pid' : Pid} (h : p.Active pid a)
    (h' : p.Active pid' a) : pid = pid' := by
  obtain ⟨t, ht, rfl, hactive⟩ := h
  obtain ⟨t', ht', rfl, hactive'⟩ := h'
  rw [ho.exclusive t ht t' ht' (hactive.trans hactive'.symm)]

theorem running_of_active {brk : ℕ} {p : ProcessArg} (hl : Linked brk p) (ho : Owned p)
    {f : Entry FiberArg} (hf : f ∈ p.fibers) (h : p.Active pid f.addr) :
    f.obj.running = true := by
  obtain ⟨t, ht, _, hactive⟩ := h
  obtain ⟨x, hx, hxa, hrun⟩ := ho.active t ht
  rw [hactive, Option.some.injEq] at hxa
  rwa [hl.fibers_unique.eq_of_addr hf hx hxa]

theorem on_lt (hok : KernelOk m.system.kernel) (h : m.on tgid a = true) :
    a < m.system.kernel.brk := by
  obtain ⟨_, _, _, hactive⟩ := on_iff.mp h
  obtain ⟨p, hp, t, ht, _, hactive⟩ := (activeAddr_iff hok).mp hactive
  obtain ⟨x, hx, hxa, _⟩ := (hok.owned tgid p hp).active t ht
  rw [hactive, Option.some.injEq] at hxa
  rw [hxa]
  exact (hok.linked tgid p hp).fibers_lt x hx

/-! ## The account of a fiber -/

/-- The times in a fiber, against its timeline. -/
structure Account (w : Timeline) (on : Bool) (now : ℕ) (f : FiberArg) : Prop where
  total : f.totalTime = BitVec.ofNat 64 (w.units 1000)
  forward : w.Forward
  since : w.since = if on then some f.startingTime.toNat else none
  start_le : on = true → f.startingTime.toNat ≤ now
  started : f.running = true → 0 < f.startingTime.toNat

/-- What a step does to a fiber, when the fiber was on before it if `on`. -/
inductive Reckoned (x : Sample) (on : Bool) (f f' : FiberArg) : Prop where
  | kept : x.on = on → f'.totalTime = f.totalTime → f'.startingTime = f.startingTime →
      f'.running = f.running → Reckoned x on f f'
  | stopped (now : Timespec) : on = true → x.on = false → x.stop = now.nanoseconds.toNat →
      f'.totalTime = (f.charge now).totalTime → f'.startingTime = f.startingTime →
      f.running = true → Reckoned x on f f'
  | begun : on = false → x.on = true → f'.totalTime = f.totalTime →
      f'.startingTime.toNat = x.start → 0 < x.start → Reckoned x on f f'

/-- The charge of a fiber whose interval started in the past. -/
theorem charge_totalTime {w : Timeline} {o : Option ℕ} {f : FiberArg} {now : Timespec}
    (h : f.totalTime = BitVec.ofNat 64 (w.units 1000))
    (hle : f.startingTime.toNat ≤ now.nanoseconds.toNat) :
    (f.charge now).totalTime = BitVec.ofNat 64 (Timeline.units
      ⟨o, w.completed ++ [⟨f.startingTime.toNat, now.nanoseconds.toNat⟩]⟩ 1000) := by
  have htime : (now.nanoseconds - f.startingTime) / 1000 =
      BitVec.ofNat 64 ((now.nanoseconds.toNat - f.startingTime.toNat) / 1000) := by
    apply BitVec.eq_of_toNat_eq
    have hlt := now.nanoseconds.isLt
    rw [BitVec.toNat_udiv, BitVec.toNat_sub_of_le hle, BitVec.toNat_ofNat]
    change _ / 1000 = _
    rw [Nat.mod_eq_of_lt]
    omega
  change f.totalTime + _ = _
  rw [Timeline.units_append, BitVec.ofNat_add, h, htime]

theorem Account.look {w : Timeline} {x : Sample} {on : Bool} {now later : ℕ} {f f' : FiberArg}
    (h : Account w on now f) (hx : Reckoned x on f f') (hstop : now ≤ x.stop)
    (hstart : x.start ≤ later) (hlater : now ≤ later) : Account (w.look x) x.on later f' := by
  cases hx with
  | kept hon htotal hstarting hrunning =>
    have hlook : w.look x = w := by
      have hsince := h.since
      rw [← hon] at hsince
      cases hb : x.on with
      | false =>
        rw [hb] at hsince
        exact Timeline.look_idle hsince hb
      | true =>
        rw [hb] at hsince
        exact Timeline.look_stay hsince hb
    rw [hlook, hon]
    refine ⟨htotal.trans h.total, h.forward, ?_, fun hb => ?_, fun hb => ?_⟩
    · rw [hstarting]
      exact h.since
    · rw [hstarting]
      exact Nat.le_trans (h.start_le hb) hlater
    · rw [hstarting]
      exact h.started (hrunning ▸ hb)
  | stopped t hon hoff hread htotal hstarting hrunning =>
    have hsince := h.since
    rw [hon, if_pos rfl] at hsince
    have hle : f.startingTime.toNat ≤ t.nanoseconds.toNat := by
      have := h.start_le hon
      omega
    rw [Timeline.look_end hsince hoff, hoff, hread]
    refine ⟨?_, fun i hi => ?_, rfl, fun hb => ?_, fun _ => ?_⟩
    · rw [htotal]
      exact charge_totalTime h.total hle
    · rcases List.mem_append.mp hi with hi | hi
      · exact h.forward i hi
      · rw [List.mem_singleton.mp hi]
        exact hle
    · cases hb
    · rw [hstarting]
      exact h.started hrunning
  | begun hoff hon htotal hstarting hpos =>
    have hsince := h.since
    rw [hoff] at hsince
    rw [Timeline.look_begin hsince hon, hon]
    refine ⟨htotal.trans h.total, h.forward, ?_, fun _ => ?_, fun _ => ?_⟩
    · rw [hstarting]
      rfl
    · rw [hstarting]
      exact hstart
    · rw [hstarting]
      exact hpos

/-! ## The requests -/

/-- A fiber that a step makes. -/
structure Made (x : Sample) (f : FiberArg) : Prop where
  total : f.totalTime = 0
  start : x.on = true → f.startingTime.toNat = x.start
  started : f.running = true → 0 < f.startingTime.toNat

/-- What a step does to the fibers that are in a record after it. -/
def Reckoning (m : Machine n) (c : CpuAction n) (m' : Machine n) : Prop :=
  ∀ tgid p', m'.system.kernel.record tgid = some p' → ∀ f' ∈ p'.fibers,
    m.system.kernel.brk ≤ f'.addr ∧ Made (Machine.sample tgid f'.addr (m, c, m')) f'.obj ∨
    ∃ p, m.system.kernel.record tgid = some p ∧ ∃ f ∈ p.fibers, f.addr = f'.addr ∧
      Reckoned (Machine.sample tgid f'.addr (m, c, m')) (m.on tgid f'.addr) f.obj f'.obj

theorem active_convert {p : ProcessArg} {t f : ℕ} {fiber : FiberArg} (hne : a ≠ f) (thr : Pid) :
    (p.convert pid t f fiber).Active thr a ↔ p.Active thr a := by
  constructor
  · rintro ⟨y, hy, hpid, hactive⟩
    rcases mem_hashAdd.mp hy with rfl | hy
    · exact absurd (Option.some.inj hactive).symm hne
    · exact ⟨y, hy, hpid, hactive⟩
  · rintro ⟨y, hy, hpid, hactive⟩
    exact ⟨y, mem_hashAdd.mpr (Or.inr hy), hpid, hactive⟩

/-- A switch changes what is active for its two fibers only. -/
theorem active_switch {brk : ℕ} {p : ProcessArg} (hl : Linked brk p) {cur : Task} {env : Env}
    {th : Entry ThreadArg} (hth : th ∈ p.threads) {b target : ℕ} {old : FiberArg}
    (hactive : th.obj.activeFiber = some b) (hb : a ≠ b) (ht : a ≠ target) (thr : Pid) :
    (p.switch cur env th.addr b old target).Active thr a ↔ p.Active thr a := by
  rw [switch_eq]
  constructor
  · rintro ⟨y, hy, hpid, hya⟩
    obtain ⟨z, hz, rfl⟩ := mem_mapObj.mp hy
    change (switchedThread th.addr target z).pid = thr at hpid
    change (switchedThread th.addr target z).activeFiber = some a at hya
    rw [switchedThread_pid] at hpid
    refine ⟨z, hz, hpid, ?_⟩
    unfold switchedThread at hya
    split at hya
    · exact absurd (Option.some.inj hya).symm ht
    · exact hya
  · rintro ⟨z, hz, hpid, hza⟩
    refine ⟨_, mem_mapObj_of_mem _ hz, ?_, ?_⟩
    · change (switchedThread th.addr target z).pid = thr
      rw [switchedThread_pid, hpid]
    · change (switchedThread th.addr target z).activeFiber = some a
      have hne : z.addr ≠ th.addr := by
        intro heq
        rw [hl.threads_unique.eq_of_addr hz hth heq, hactive] at hza
        exact hb (Option.some.inj hza).symm
      rw [switchedThread, if_neg hne, hza]

variable {cmd : Command} {arg : Word} {env : Env} {r : Reply}

/-- The machine after a request of the thread `pid`. -/
def Machine.requested (m : Machine n) (id pid : Pid) (cmd : Command) (arg : Word) (env : Env)
    (r : Reply) : Machine n :=
  { m with
    system := m.system.resume id pid r
    now := CpuAction.later (n := n) (.thread (.ioctl id pid cmd arg env)) m.now }

/-- A fiber of a record in which the threads are the same. -/
theorem reckoned_same (hok : KernelOk m.system.kernel) (hok' : KernelOk m'.system.kernel)
    (hrunning : m'.running = m.running) (c : CpuAction n) {p p' : ProcessArg}
    (hp : m.system.kernel.record tgid = some p) (hp' : m'.system.kernel.record tgid = some p')
    (hthreads : p'.threads = p.threads) {f f' : FiberArg} (htotal : f'.totalTime = f.totalTime)
    (hstart : f'.startingTime = f.startingTime) (hrun : f'.running = f.running) (a : ℕ) :
    Reckoned (Machine.sample tgid a (m, c, m')) (m.on tgid a) f f' := by
  refine Reckoned.kept ?_ htotal hstart hrun
  apply on_congr hok hok' hrunning hp hp'
  intro pid
  unfold ProcessArg.Active
  rw [hthreads]

/-- The target of a switch from another fiber. -/
theorem switchedFiber_target {cur : Task} {b target : ℕ} {old : FiberArg} {e : Entry FiberArg}
    (hb : e.addr ≠ b) (ht : e.addr = target) :
    switchedFiber cur env b old target e = e.obj.start (old.startClock env) := by
  unfold switchedFiber
  dsimp only
  rw [if_pos ht, if_neg hb]

theorem ne_zero_of_pos {w : Word} (h : 0 < w.toNat) : w ≠ 0 := by
  rintro rfl
  exact absurd h (by decide)

theorem totalTime_charge (f : FiberArg) (now : Timespec) : (f.charge now).totalTime =
    f.totalTime + (now.nanoseconds - f.startingTime) / 1000 :=
  rfl

/-- The two times of a fiber, written. -/
def FiberArg.setTimes (f : FiberArg) (total start : Word) : FiberArg :=
  { f with totalTime := total, startingTime := start }

@[simp] theorem setTimes_index (f : FiberArg) (total start : Word) :
    (f.setTimes total start).index = f.index :=
  rfl

@[simp] theorem setTimes_running (f : FiberArg) (total start : Word) :
    (f.setTimes total start).running = f.running :=
  rfl

@[simp] theorem setTimes_totalTime (f : FiberArg) (total start : Word) :
    (f.setTimes total start).totalTime = total :=
  rfl

@[simp] theorem setTimes_startingTime (f : FiberArg) (total start : Word) :
    (f.setTimes total start).startingTime = start :=
  rfl

theorem charge_eq (f : FiberArg) (now : Timespec) :
    f.charge now = f.setTimes (f.charge now).totalTime f.startingTime :=
  rfl

theorem restart_eq (f : FiberArg) (now : Timespec) :
    f.restart now = f.setTimes f.totalTime now.nanoseconds :=
  rfl

/-- The stop of a timed fiber charges it. -/
theorem stop_of_timed {f : FiberArg} (h : f.startingTime ≠ 0) (now : Timespec) :
    f.stop now = { f with running := false, totalTime := (f.charge now).totalTime } := by
  rw [totalTime_charge, FiberArg.stop, if_pos h]

/-- The two fibers of a switch change places on the CPU of the caller. -/
theorem reckoning_switch (hok : KernelOk m.system.kernel)
    (hok' : KernelOk (m.requested id pid .switchToFiber arg env r).system.kernel)
    (hcpu : ∃ cpu, m.running cpu = some (id, pid)) (hticks : Ticks m.now env.clock)
    {p : ProcessArg} (hp : m.system.kernel.record id = some p)
    (hstarted : ∀ f ∈ p.fibers, f.obj.running = true → 0 < f.obj.startingTime.toNat)
    {fe : Entry FiberArg} (hfe : fe ∈ p.fibers) (hstill : fe.obj.running = false)
    {th : Entry ThreadArg} (hth : th ∈ p.threads) (hpid : th.obj.pid = pid) {b : ℕ}
    (hactive : th.obj.activeFiber = some b) {old : FiberArg} (hold : p.fibers.deref b = some old)
    (hp' : r.kernel.record id =
      some (p.switch (m.system.task id pid) env th.addr b old fe.addr))
    {f : Entry FiberArg} (hf : f ∈ p.fibers) :
    Reckoned (Machine.sample id f.addr (m, .thread (.ioctl id pid .switchToFiber arg env),
      m.requested id pid .switchToFiber arg env r)) (m.on id f.addr) f.obj
      (switchedFiber (m.system.task id pid) env b old fe.addr f) := by
  have hl := hok.linked id p hp
  have ho := hok.owned id p hp
  obtain ⟨x, hx, hxb, rfl⟩ := mem_of_deref hold
  have hcaller : p.Active pid b := ⟨th, hth, hpid, hactive⟩
  have hxrun : x.obj.running = true := running_of_active hl ho hx (hxb ▸ hcaller)
  have hne : fe.addr ≠ b := by
    intro heq
    rw [hl.fibers_unique.eq_of_addr hfe hx (heq.trans hxb.symm), hxrun] at hstill
    cases hstill
  obtain ⟨cpu, hcpu⟩ := hcpu
  by_cases ht : f.addr = fe.addr
  · -- the target was on no CPU, because it was not running
    rw [hl.fibers_unique.eq_of_addr hf hfe ht]
    have hoff : m.on id fe.addr = false := by
      rw [Bool.eq_false_iff]
      intro hon
      obtain ⟨_, _, _, h⟩ := (on_iff_of_record hok hp).mp hon
      rw [running_of_active hl ho hfe h] at hstill
      cases hstill
    rw [switchedFiber_target hne rfl]
    have hpos : 0 < (env.clock 1).nanoseconds.toNat := Nat.lt_of_lt_of_le hticks.1 hticks.2.2
    refine Reckoned.begun hoff ?_ rfl ?_ hpos
    · have hmem := mem_mapObj_of_mem (switchedThread th.addr fe.addr) hth
      apply (on_iff_of_record hok' hp').mpr
      refine ⟨cpu, pid, hcpu, ?_⟩
      rw [switch_eq]
      refine ⟨_, hmem, (switchedThread_pid th.addr fe.addr th).trans hpid, ?_⟩
      change (switchedThread th.addr fe.addr th).activeFiber = some fe.addr
      rw [switchedThread, if_pos rfl]
    · -- the caller's fiber is timed, so the clock is read a second time
      have htimed := ne_zero_of_pos (hstarted x hx hxrun)
      change (x.obj.startClock env).nanoseconds.toNat = _
      rw [FiberArg.startClock, if_pos htimed]
      rfl
  · by_cases hb : f.addr = b
    · have hfx : f = x := hl.fibers_unique.eq_of_addr hf hx (hb.trans hxb.symm)
      have hon : m.on id f.addr = true :=
        (on_iff_of_record hok hp).mpr ⟨cpu, pid, hcpu, hb ▸ hcaller⟩
      have htimed := ne_zero_of_pos (hstarted f hf (hfx ▸ hxrun))
      have hoff : (m.requested id pid .switchToFiber arg env r).on id f.addr = false := by
        rw [Bool.eq_false_iff]
        intro hon'
        obtain ⟨_, _, _, h⟩ := (on_iff_of_record hok' hp').mp hon'
        have hmem := mem_mapObj_of_mem
          (switchedFiber (m.system.task id pid) env b x.obj fe.addr) hf
        rw [switch_eq] at hp' h
        have hrun := running_of_active (hok'.linked _ _ hp') (hok'.owned _ _ hp') hmem h
        change (switchedFiber (m.system.task id pid) env b x.obj fe.addr f).running = true at hrun
        rw [switchedFiber_running, if_neg ht, if_pos hb] at hrun
        cases hrun
      have hstop := stop_of_timed (f := f.obj.save (m.system.task id pid).toContext) htimed
        (env.clock 0)
      rw [switchedFiber_old hb ht, hstop]
      exact Reckoned.stopped (env.clock 0) hon hoff rfl rfl rfl (hfx ▸ hxrun)
    · rw [switchedFiber_of_ne hb ht]
      refine Reckoned.kept ?_ rfl rfl rfl
      exact on_congr hok hok' rfl hp hp' (active_switch hl hth hactive hb ht)

theorem reckoning_request (hok : KernelOk m.system.kernel)
    (hstarted : ∀ p, m.system.kernel.record id = some p → ∀ f ∈ p.fibers,
      f.obj.running = true → 0 < f.obj.startingTime.toNat)
    (hcpu : ∃ cpu, m.running cpu = some (id, pid)) (hticks : Ticks m.now env.clock)
    (hcmd : cmd = .convertToFiber ∨ cmd = .createFiber ∨ cmd = .switchToFiber)
    (hr : m.system.request id pid cmd arg env = .ok r) :
    Reckoning m (.thread (.ioctl id pid cmd arg env)) (m.requested id pid cmd arg env r) := by
  intro tgid p' hp' f' hf'
  have hok' : KernelOk (m.requested id pid cmd arg env r).system.kernel :=
    kernelOk_request hok hr
  have hkernel : r.kernel.record tgid = some p' := hp'
  by_cases hid : tgid = id
  · subst hid
    have hc := change_of_request hok hr hkernel
    generalize hbefore : m.system.kernel.record tgid = o at hc
    cases hc with
    | idle =>
      exact Or.inr ⟨p', rfl, f', hf', rfl,
        reckoned_same hok hok' rfl _ hbefore hp' rfl rfl rfl rfl f'.addr⟩
    | opened => cases hf'
    | @converted _ p t f hsource _ _ _ hf =>
      rcases mem_hashAdd.mp hf' with rfl | hf'
      · exact Or.inl ⟨hf, rfl, fun _ => rfl, fun _ => hticks.1⟩
      · rcases hsource with rfl | ⟨_, rfl⟩
        · refine Or.inr ⟨p, rfl, f', hf', rfl, Reckoned.kept ?_ rfl rfl rfl⟩
          have hlt := (hok.linked tgid p hbefore).fibers_lt f' hf'
          exact on_congr hok hok' rfl hbefore hp'
            (active_convert (Nat.ne_of_lt (Nat.lt_of_lt_of_le hlt hf)))
        · cases hf'
    | @created p th f _ hf =>
      rcases mem_hashAdd.mp hf' with rfl | hf'
      · have hoff : (m.requested tgid pid .createFiber arg env r).on tgid f = false := by
          rw [Bool.eq_false_iff]
          intro hon
          obtain ⟨_, _, _, h⟩ := (on_iff_of_record hok' hp').mp hon
          have hrun := running_of_active (hok'.linked _ _ hp') (hok'.owned _ _ hp') hf' h
          cases hrun
        refine Or.inl ⟨hf, rfl, fun hon => ?_, fun hrun => ?_⟩
        · exact absurd (hoff.symm.trans hon) Bool.false_ne_true
        · cases hrun
      · exact Or.inr ⟨p, rfl, f', hf', rfl,
          reckoned_same hok hok' rfl _ hbefore hp' rfl rfl rfl rfl f'.addr⟩
    | @failed p fiber =>
      obtain ⟨g, hg, rfl⟩ := mem_modify.mp hf'
      refine Or.inr ⟨p, rfl, g, hg, ?_, ?_⟩
      · split <;> rfl
      · split
        · refine reckoned_same hok hok' rfl _ hbefore hp' rfl ?_ ?_ ?_ g.addr
          all_goals rfl
        · exact reckoned_same hok hok' rfl _ hbefore hp' rfl rfl rfl rfl g.addr
    | @switched p fe th b old _ hfiber hstill hthread hactive hold =>
      have hf'' := hf'
      rw [switch_eq] at hf''
      obtain ⟨g, hg, rfl⟩ := mem_mapObj.mp hf''
      obtain ⟨hth, hpid⟩ := of_searchThread hthread
      exact Or.inr ⟨p, rfl, g, hg, rfl, reckoning_switch hok hok' hcpu hticks hbefore
        (hstarted p hbefore) (of_searchFiber hfiber).1 hstill hth hpid hactive hold hkernel hg⟩
    | stored _ _ _ hw => rcases hw.command with rfl | rfl | rfl <;> simp at hcmd
  · have hbefore : m.system.kernel.record tgid = some p' :=
      (record_of_request hok hr hid).symm.trans hkernel
    exact Or.inr ⟨p', hbefore, f', hf', rfl,
      reckoned_same hok hok' rfl _ hbefore hp' rfl rfl rfl rfl f'.addr⟩

/-! ## The exits -/

theorem active_exit {p : ProcessArg} (hl : Linked n p) {th : Entry ThreadArg}
    (hth : th ∈ p.threads) {f : ℕ} (hactive : th.obj.activeFiber = some f) (hne : a ≠ f)
    (thr : Pid) : (p.exit th.addr f).Active thr a ↔ p.Active thr a := by
  constructor
  · rintro ⟨y, hy, hpid, hya⟩
    exact ⟨y, (mem_hashDel.mp hy).1, hpid, hya⟩
  · rintro ⟨y, hy, hpid, hya⟩
    refine ⟨y, mem_hashDel.mpr ⟨hy, fun heq => ?_⟩, hpid, hya⟩
    rw [hl.threads_unique.eq_of_addr hy hth heq, hactive] at hya
    exact hne (Option.some.inj hya).symm

/-- The machine after the exit of a thread. -/
def Machine.exited (m : Machine n) (k : Kernel) : Machine n :=
  { m with system := { m.system with kernel := k } }

/-- An exit removes the fiber whose interval it ends. -/
theorem reckoning_exit (hok : KernelOk m.system.kernel)
    (hx : preHandler m.system.kernel id pid = .ok k) :
    Reckoning m (.thread (.exit id pid)) (m.exited k) := by
  intro tgid p' hp' f' hf'
  have hok' : KernelOk (m.exited k).system.kernel := kernelOk_exit hok hx
  have he := exited hok.toTables hx
  have hkernel : k.record tgid = some p' := hp'
  by_cases hid : tgid = id
  · subst hid
    rcases he.change with ⟨rfl, _⟩ | ⟨e, th, b, old, hfound, hthread, hactive, _, hremoved⟩
    · exact Or.inr ⟨p', hp', f', hf', rfl,
        reckoned_same hok hok' rfl _ hp' hp' rfl rfl rfl rfl f'.addr⟩
    · obtain ⟨hmem, rfl⟩ := of_searchProcess hfound
      have hbefore := record_of_mem hok.toTables hmem
      rw [hremoved.record] at hkernel
      split at hkernel
      · cases hkernel
      · cases hkernel
        obtain ⟨hf, hne⟩ := mem_hashDel.mp hf'
        refine Or.inr ⟨e.obj, hbefore, f', hf, rfl, Reckoned.kept ?_ rfl rfl rfl⟩
        exact on_congr hok hok' rfl hbefore hp'
          (active_exit (hok.linked _ _ hbefore) (of_searchThread hthread).1 hactive hne)
  · have hbefore : m.system.kernel.record tgid = some p' :=
      (he.others tgid hid).symm.trans hkernel
    exact Or.inr ⟨p', hbefore, f', hf', rfl,
      reckoned_same hok hok' rfl _ hbefore hp' rfl rfl rfl rfl f'.addr⟩

end LinuxFibers.Module
