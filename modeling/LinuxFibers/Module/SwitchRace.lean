import LinuxFibers.Lib.CriticalSection
import LinuxFibers.Module.Isolation
import LinuxFibers.Module.SwitchHandler

/-!
# Switches that run at the same time

`switchToFiber` takes a request `SWITCHTOFIBER` as one step.  `switchStep` is the
code between `spin_lock_irqsave` and `spin_unlock_irqrestore` of `lock_fiber`, cut
at every read and write of the record: the search of the fiber, the test of its
flag, the search of the thread, the two copies of the saved context, the two
copies of the loaded one, and each field that the accounting writes.  The threads
of a process go through it in any interleaving, and change their registers in user
mode in between.

`switches_atomic` says that at every moment when the lock is free, the requests
that returned are requests of `Process.switchToFiber`, one after the other in the
order in which they gave the lock back, with the same answers, and that nothing
but them and the changes of registers happened.

The interleavings start in a state that a run of `Step` reaches, so that no request
before has written behind the registers of a fiber (`request_stops_iff`).  Such a
write can change the links of a fiber, which `search_fiber` follows under the lock.
-/

namespace LinuxFibers.Module

open LinuxFibers.Lib HashTable

/-! ## `SWITCHTOFIBER` in steps -/

/-- The next step under the lock, with the addresses `thread` and `fiber`. -/
inductive SwitchPc where
  | searchFiber
  | testRunning (fiber : ℕ)
  | countFailure (fiber : ℕ)
  | searchThread (fiber : ℕ)
  | saveRegs (thread fiber : ℕ)
  | saveFpu (thread fiber : ℕ)
  | loadRegs (thread fiber : ℕ)
  | loadFpu (thread fiber : ℕ)
  | stop (thread fiber : ℕ)
  | charge (thread fiber : ℕ)
  | activate (thread fiber : ℕ)
  | start (fiber : ℕ)
  | countActivation (fiber : ℕ)
  | stamp (fiber : ℕ)

/-- Where a thread is. -/
inductive SwitchStage where
  /-- In user mode. -/
  | idle
  /-- At the lock. -/
  | waiting
  /-- Under the lock. -/
  | inside (pc : SwitchPc)
  /-- At the unlock, with the value to return. -/
  | unlock (ret : ℤ)

/-- A write of a fiber through a pointer. -/
def ProcessArg.updateFiber (p : ProcessArg) (a : Option ℕ) (g : FiberArg → FiberArg) :
    Except Fault ProcessArg := do
  let (a, _) ← derefFiber p.fibers a
  return { p with fibers := p.fibers.modify a g }

/-- `thread->active_fiber`. -/
def ProcessArg.activeFiber (p : ProcessArg) (t : ℕ) : Except Fault (Option ℕ) :=
  match p.threads.deref t with
  | none => .error (.notLinked t)
  | some thread => .ok thread.activeFiber

/-- One step under the lock.  `now` is the clock, for the steps that read it. -/
def switchStep (pid : Pid) (arg : Word) (now : Timespec) (p : ProcessArg) (c : Context) :
    SwitchPc → Except Fault (ProcessArg × Context × SwitchStage)
  | .searchFiber =>
      match searchFiber (arg.setWidth 32) p with
      | none => .ok (p, c, .unlock (-1))
      | some fiber => .ok (p, c, .inside (.testRunning fiber.addr))
  | .testRunning f => do
      let (_, fiber) ← derefFiber p.fibers (some f)
      return (p, c, .inside (if fiber.running then .countFailure f else .searchThread f))
  | .countFailure f => do
      let p ← p.updateFiber (some f) FiberArg.fail
      return (p, c, .unlock (-1))
  | .searchThread f =>
      match searchThread pid p with
      | none => .ok (p, c, .unlock (-1))
      | some thread => .ok (p, c, .inside (.saveRegs thread.addr f))
  | .saveRegs t f => do
      let p ← p.updateFiber (← p.activeFiber t) fun x => { x with regs := c.regs }
      return (p, c, .inside (.saveFpu t f))
  | .saveFpu t f => do
      let p ← p.updateFiber (← p.activeFiber t) fun x => { x with fpuReg := c.fpu }
      return (p, c, .inside (.loadRegs t f))
  | .loadRegs t f => do
      let (_, fiber) ← derefFiber p.fibers (some f)
      return (p, { c with regs := fiber.regs }, .inside (.loadFpu t f))
  | .loadFpu t f => do
      let (_, fiber) ← derefFiber p.fibers (some f)
      return (p, { c with fpu := fiber.fpuReg }, .inside (.stop t f))
  | .stop t f => do
      let p ← p.updateFiber (← p.activeFiber t) fun x => { x with running := false }
      return (p, c, .inside (.charge t f))
  | .charge t f => do
      let p ← p.updateFiber (← p.activeFiber t) fun x =>
        if x.startingTime ≠ 0 then x.charge now else x
      return (p, c, .inside (.activate t f))
  | .activate t f => do
      let _ ← p.activeFiber t
      let threads := p.threads.modify t fun x => { x with activeFiber := some f }
      return ({ p with threads := threads }, c, .inside (.start f))
  | .start f => do
      let p ← p.updateFiber (some f) fun x => { x with running := true }
      return (p, c, .inside (.countActivation f))
  | .countActivation f => do
      let p ← p.updateFiber (some f) fun x => { x with activations := x.activations + 1 }
      return (p, c, .inside (.stamp f))
  | .stamp f => do
      let p ← p.updateFiber (some f) (FiberArg.restart now)
      return (p, c, .unlock 0)

/-- A thread of the process, with the argument of its request. -/
structure Caller where
  context : Context
  arg : Word
  stage : SwitchStage

/-- What happens in a step of a thread. -/
inductive SwitchEvent where
  | user (c : Context)
  | call (arg : Word)
  | clock (now : Timespec)
  | returned (arg : Word) (ret : ℤ)

/-- The code of the threads.  The value of a request is in `ax` after it
returned. -/
def switchCode : Code Pid ProcessArg Caller SwitchEvent where
  enters _ l :=
    match l.stage with
    | .waiting => some { l with stage := .inside .searchFiber }
    | _ => none
  inside pid x e :=
    match x.2.stage, e with
    | .inside pc, .clock now =>
        match switchStep pid x.2.arg now x.1 x.2.context pc with
        | .ok r => some (r.1, ⟨r.2.1, x.2.arg, r.2.2⟩)
        | .error _ => none
    | _, _ => none
  leaves _ l e :=
    match l.stage, e with
    | .unlock ret, .returned arg v =>
        if arg = l.arg ∧ v = ret then
          let regs := Function.update l.context.regs .ax (BitVec.ofInt 64 ret)
          some ⟨{ l.context with regs := regs }, l.arg, .idle⟩
        else none
    | _, _ => none
  outside _ l e :=
    match l.stage, e with
    | .idle, .user c => some { l with context := c }
    | .idle, .call arg => some { l with arg := arg, stage := .waiting }
    | _, _ => none

/-- The rest of a section that nobody interrupts comes to its unlock with the record,
the context and the value of `r`. -/
def Finishes (pid : Pid) (arg : Word) (p : ProcessArg) (c : Context) (stage : SwitchStage)
    (r : ProcessArg × Context × ℤ) : Prop :=
  ∃ as, Run (switchCode.Inside pid) (p, ⟨c, arg, stage⟩) as (r.1, ⟨r.2.1, arg, .unlock r.2.2⟩)

variable {brk : ℕ} {p p' : ProcessArg} {pid : Pid} {arg : Word} {c : Context}
  {r : ProcessArg × Context × ℤ} {t : Entry ThreadArg} {e target : Entry FiberArg}

/-! ## What a step is -/

theorem of_enters {l l' : Caller} (h : switchCode.enters pid l = some l') :
    l.stage = .waiting ∧ l' = { l with stage := .inside .searchFiber } := by
  obtain ⟨c, arg, stage⟩ := l
  cases stage with
  | waiting => exact ⟨rfl, (Option.some.inj h).symm⟩
  | idle => cases h
  | inside => cases h
  | unlock => cases h

theorem of_inside {x y : ProcessArg × Caller} {e : SwitchEvent} (h : switchCode.Inside pid x e y) :
    ∃ pc now r, x.2.stage = .inside pc ∧ e = .clock now ∧
      switchStep pid x.2.arg now x.1 x.2.context pc = .ok r ∧
      y = (r.1, ⟨r.2.1, x.2.arg, r.2.2⟩) := by
  obtain ⟨p, c, arg, stage⟩ := x
  cases stage with
  | inside pc =>
    cases e with
    | clock now =>
      simp only [Code.Inside, switchCode] at h
      split at h
      · rename_i r hstep
        cases h
        exact ⟨pc, now, r, rfl, rfl, hstep, rfl⟩
      · cases h
    | user => cases h
    | call => cases h
    | returned => cases h
  | idle => cases e <;> cases h
  | waiting => cases e <;> cases h
  | unlock => cases e <;> cases h

theorem inside_of_step {pc : SwitchPc} {now : Timespec} {x : ProcessArg × Context × SwitchStage}
    (h : switchStep pid arg now p c pc = .ok x) :
    switchCode.Inside pid (p, ⟨c, arg, .inside pc⟩) (.clock now) (x.1, ⟨x.2.1, arg, x.2.2⟩) := by
  simp only [Code.Inside, switchCode, h]

theorem of_leaves {l l' : Caller} {e : SwitchEvent} (h : switchCode.leaves pid l e = some l') :
    ∃ ret, l.stage = .unlock ret ∧ e = .returned l.arg ret ∧
      l' = ⟨{ l.context with regs := Function.update l.context.regs .ax (BitVec.ofInt 64 ret) },
        l.arg, .idle⟩ := by
  obtain ⟨c, arg, stage⟩ := l
  cases stage with
  | unlock ret =>
    cases e with
    | returned a v =>
      simp only [switchCode] at h
      split at h
      · rename_i hsame
        obtain ⟨rfl, rfl⟩ := hsame
        exact ⟨v, rfl, rfl, (Option.some.inj h).symm⟩
      · cases h
    | user => cases h
    | call => cases h
    | clock => cases h
  | idle => cases e <;> cases h
  | waiting => cases e <;> cases h
  | inside => cases e <;> cases h

theorem leaves_unlock (ret : ℤ) : ∃ l',
    switchCode.leaves pid ⟨c, arg, .unlock ret⟩ (.returned arg ret) = some l' := by
  simp only [switchCode, and_self, if_true, Option.some.injEq, exists_eq']

theorem of_outside {l l' : Caller} {e : SwitchEvent} (h : switchCode.outside pid l e = some l') :
    (∃ c, e = .user c ∧ l' = { l with context := c }) ∨
      ∃ arg, e = .call arg ∧ l' = { l with arg := arg, stage := .waiting } := by
  obtain ⟨c, arg, stage⟩ := l
  cases stage with
  | idle =>
    cases e with
    | user c => exact .inl ⟨c, rfl, (Option.some.inj h).symm⟩
    | call arg => exact .inr ⟨arg, rfl, (Option.some.inj h).symm⟩
    | clock => cases h
    | returned => cases h
  | waiting => cases e <;> cases h
  | inside => cases e <;> cases h
  | unlock => cases e <;> cases h

/-! ## One step after the other -/

/-- The first step of the rest of a section. -/
theorem Finishes.step {pc : SwitchPc} (h : Finishes pid arg p c (.inside pc) r)
    {x : Timespec → ProcessArg × Context × SwitchStage}
    (hx : ∀ now, switchStep pid arg now p c pc = .ok (x now)) :
    ∃ now, Finishes pid arg (x now).1 (x now).2.1 (x now).2.2 r := by
  obtain ⟨as, hrun⟩ := h
  cases as with
  | nil => cases hrun.eq_of_nil
  | cons a as =>
    obtain ⟨y, hfirst, hrest⟩ := hrun.of_cons
    obtain ⟨pc', now, z, hpc, _, hstep, rfl⟩ := of_inside hfirst
    cases hpc
    rw [hx now, Except.ok.injEq] at hstep
    subst hstep
    exact ⟨now, as, hrest⟩

/-- There is no step at the unlock. -/
theorem Finishes.unlock {ret : ℤ} (h : Finishes pid arg p c (.unlock ret) r) :
    r = (p, c, ret) := by
  obtain ⟨as, hrun⟩ := h
  obtain ⟨q, d, v⟩ := r
  cases as with
  | nil =>
    cases hrun.eq_of_nil
    rfl
  | cons a as =>
    obtain ⟨y, hfirst, _⟩ := hrun.of_cons
    obtain ⟨pc', now, z, hpc, _⟩ := of_inside hfirst
    cases hpc

theorem updateFiber_of_mem (h : p.fibers.UniqueAddr) (he : e ∈ p.fibers)
    (g : FiberArg → FiberArg) :
    p.updateFiber (some e.addr) g = .ok { p with fibers := p.fibers.modify e.addr g } := by
  simp only [ProcessArg.updateFiber, derefFiber, deref_of_mem h he]
  rfl

theorem activeFiber_of_mem (h : p.threads.UniqueAddr) (ht : t ∈ p.threads) :
    p.activeFiber t.addr = .ok t.obj.activeFiber := by
  simp only [ProcessArg.activeFiber, deref_of_mem h ht]

/-- A step that writes the fiber `e`. -/
theorem Finishes.write {pc : SwitchPc} {g : Timespec → FiberArg → FiberArg} (next : SwitchStage)
    (h : Finishes pid arg p c (.inside pc) r) (hu : p.fibers.UniqueAddr) (he : e ∈ p.fibers)
    (hpc : ∀ now, switchStep pid arg now p c pc =
      (p.updateFiber (some e.addr) (g now)).map fun p => (p, c, next)) :
    ∃ now, Finishes pid arg { p with fibers := p.fibers.modify e.addr (g now) } c next r := by
  apply h.step (x := fun now => ({ p with fibers := p.fibers.modify e.addr (g now) }, c, next))
  intro now
  rw [hpc now, updateFiber_of_mem hu he]
  rfl

/-- A step that writes the active fiber `e` of the thread `t`. -/
theorem Finishes.writeActive {pc : SwitchPc} {g : Timespec → FiberArg → FiberArg}
    (next : SwitchStage) (h : Finishes pid arg p c (.inside pc) r) (hu : p.fibers.UniqueAddr)
    (he : e ∈ p.fibers) (hut : p.threads.UniqueAddr) (ht : t ∈ p.threads)
    (hactive : t.obj.activeFiber = some e.addr)
    (hpc : ∀ now, switchStep pid arg now p c pc =
      (p.activeFiber t.addr).bind fun a => (p.updateFiber a (g now)).map fun p => (p, c, next)) :
    ∃ now, Finishes pid arg { p with fibers := p.fibers.modify e.addr (g now) } c next r := by
  apply h.write next hu he
  intro now
  rw [hpc now, activeFiber_of_mem hut ht, hactive]
  rfl

/-! ### The target -/

/-- The writes of the target, from the first one on. -/
theorem finishes_start (h : Finishes pid arg p c (.inside (.start e.addr)) r)
    (hu : p.fibers.UniqueAddr) (he : e ∈ p.fibers) : ∃ now,
      r = ({ p with fibers := p.fibers.modify e.addr fun x => x.start now }, c, 0) := by
  obtain ⟨_, h⟩ := h.write (.inside (.countActivation e.addr)) hu he fun _ => rfl
  have hu₁ := hu.modify e.addr fun x => { x with running := true }
  have he₁ := mem_modify_self (f := fun x => { x with running := true }) he
  obtain ⟨_, h⟩ := Finishes.write (.inside (.stamp e.addr)) h hu₁ he₁ fun _ => rfl
  have hu₂ := hu₁.modify e.addr fun x => { x with activations := x.activations + 1 }
  have he₂ := mem_modify_self (f := fun x => { x with activations := x.activations + 1 }) he₁
  obtain ⟨now, h⟩ := Finishes.write (.unlock 0) h hu₂ he₂ fun _ => rfl
  refine ⟨now, h.unlock.trans ?_⟩
  simp only [modify_modify]
  rfl

/-- The record after a switch of the thread `t` from the fiber `old` to the fiber
`target`, with the readings `now` and `now'` of the clock. -/
def ProcessArg.switched (p : ProcessArg) (t old target : ℕ) (g : FiberArg → FiberArg)
    (now : Timespec) : ProcessArg :=
  { p with
    fibers := (p.fibers.modify old g).modify target fun x => x.start now
    threads := p.threads.modify t fun x => { x with activeFiber := some target } }

/-- The pointers that a switch uses. -/
structure Pointers (p : ProcessArg) (t : Entry ThreadArg) (old target : Entry FiberArg) :
    Prop where
  fibers_unique : p.fibers.UniqueAddr
  threads_unique : p.threads.UniqueAddr
  thread_mem : t ∈ p.threads
  old_mem : old ∈ p.fibers
  target_mem : target ∈ p.fibers
  active : t.obj.activeFiber = some old.addr
  ne : target.addr ≠ old.addr

/-- The pointers stay good when the old fiber is written. -/
theorem Pointers.writeOld {old : Entry FiberArg} (h : Pointers p t old target)
    (g : FiberArg → FiberArg) :
    Pointers { p with fibers := p.fibers.modify old.addr g } t { old with obj := g old.obj }
      target where
  fibers_unique := h.fibers_unique.modify _ _
  threads_unique := h.threads_unique
  thread_mem := h.thread_mem
  old_mem := mem_modify_self h.old_mem
  target_mem := mem_modify_of_ne h.target_mem h.ne
  active := h.active
  ne := h.ne

variable {old : Entry FiberArg}

theorem finishes_activate (h : Finishes pid arg p c (.inside (.activate t.addr target.addr)) r)
    (hp : Pointers p t old target) :
    ∃ now, r = (p.switched t.addr old.addr target.addr (fun x => x) now, c, 0) := by
  have hstep : ∀ now, switchStep pid arg now p c (.activate t.addr target.addr) =
      .ok ({ p with threads := p.threads.modify t.addr fun x =>
        { x with activeFiber := some target.addr } }, c, .inside (.start target.addr)) := by
    intro now
    simp only [switchStep, activeFiber_of_mem hp.threads_unique hp.thread_mem]
    rfl
  obtain ⟨_, h⟩ := h.step hstep
  obtain ⟨now, h⟩ := finishes_start h hp.fibers_unique hp.target_mem
  refine ⟨now, ?_⟩
  rw [h, ProcessArg.switched, modify_self]

/-! ### The old fiber -/

theorem finishes_stop (h : Finishes pid arg p c (.inside (.stop t.addr target.addr)) r)
    (hp : Pointers p t old target) : ∃ now now',
      r = (p.switched t.addr old.addr target.addr (fun x => x.stop now) now', c, 0) := by
  obtain ⟨_, h⟩ := h.writeActive (.inside (.charge t.addr target.addr)) hp.fibers_unique hp.old_mem
    hp.threads_unique hp.thread_mem hp.active fun _ => rfl
  have hp₁ := hp.writeOld fun x => { x with running := false }
  obtain ⟨now, h⟩ := Finishes.writeActive (.inside (.activate t.addr target.addr)) h
    hp₁.fibers_unique hp₁.old_mem hp₁.threads_unique hp₁.thread_mem hp₁.active fun _ => rfl
  have hp₂ := hp₁.writeOld fun x => if x.startingTime ≠ 0 then x.charge now else x
  obtain ⟨now', h⟩ := finishes_activate h hp₂
  refine ⟨now, now', ?_⟩
  rw [h]
  simp only [ProcessArg.switched, modify_modify]
  rfl

theorem finishes_loadRegs
    (h : Finishes pid arg p c (.inside (.loadRegs t.addr target.addr)) r)
    (hp : Pointers p t old target) : ∃ now now',
      r = (p.switched t.addr old.addr target.addr (fun x => x.stop now) now',
        ⟨target.obj.regs, target.obj.fpuReg⟩, 0) := by
  have hderef : derefFiber p.fibers (some target.addr) = .ok (target.addr, target.obj) := by
    simp only [derefFiber, deref_of_mem hp.fibers_unique hp.target_mem]
  have hregs : ∀ now, switchStep pid arg now p c (.loadRegs t.addr target.addr) =
      .ok (p, { c with regs := target.obj.regs }, .inside (.loadFpu t.addr target.addr)) := by
    intro now
    simp only [switchStep, hderef]
    rfl
  obtain ⟨_, h⟩ := h.step hregs
  have hfpu : ∀ now, switchStep pid arg now p { c with regs := target.obj.regs }
      (.loadFpu t.addr target.addr) =
      .ok (p, ⟨target.obj.regs, target.obj.fpuReg⟩, .inside (.stop t.addr target.addr)) := by
    intro now
    simp only [switchStep, hderef]
    rfl
  obtain ⟨_, h⟩ := Finishes.step h hfpu
  exact finishes_stop h hp

theorem finishes_saveRegs
    (h : Finishes pid arg p c (.inside (.saveRegs t.addr target.addr)) r)
    (hp : Pointers p t old target) : ∃ now now',
      r = (p.switched t.addr old.addr target.addr (fun x => (x.save c).stop now) now',
        ⟨target.obj.regs, target.obj.fpuReg⟩, 0) := by
  obtain ⟨_, h⟩ := h.writeActive (.inside (.saveFpu t.addr target.addr)) hp.fibers_unique hp.old_mem
    hp.threads_unique hp.thread_mem hp.active fun _ => rfl
  have hp₁ := hp.writeOld fun x => { x with regs := c.regs }
  obtain ⟨_, h⟩ := Finishes.writeActive (.inside (.loadRegs t.addr target.addr)) h
    hp₁.fibers_unique hp₁.old_mem hp₁.threads_unique hp₁.thread_mem hp₁.active fun _ => rfl
  have hp₂ := hp₁.writeOld fun x => { x with fpuReg := c.fpu }
  obtain ⟨now, now', h⟩ := finishes_loadRegs h hp₂
  refine ⟨now, now', ?_⟩
  rw [h]
  simp only [ProcessArg.switched, modify_modify]
  rfl

/-! ## Whole sections -/

theorem modify_congr {table : HashTable FiberArg} (h : table.UniqueAddr) (he : e ∈ table)
    {g g' : FiberArg → FiberArg} (hg : g e.obj = g' e.obj) :
    table.modify e.addr g = table.modify e.addr g' := by
  rw [modify_eq_mapObj, modify_eq_mapObj]
  apply List.map_congr_left
  intro x hx
  by_cases ha : x.addr = e.addr
  · simp only [h.eq_of_addr hx he ha, hg]
  · simp only [if_neg ha]

/-- The clock of a switch: the first reading is for the old fiber, if it is timed. -/
def twoReadings (old : FiberArg) (now now' : Timespec) : Env :=
  { Env.plain with clock := fun n => if n = 0 ∧ old.startingTime ≠ 0 then now else now' }

/-- The record after the steps of a switch is the one after the switch. -/
theorem switched_eq_switch (hp : Pointers p t old target) (cur : Task) (now now' : Timespec) :
    p.switched t.addr old.addr target.addr (fun x => (x.save cur.toContext).stop now) now' =
      p.switch cur (twoReadings old.obj now now') t.addr old.addr old.obj target.addr := by
  have hstart : old.obj.startClock (twoReadings old.obj now now') = now' := by
    unfold FiberArg.startClock twoReadings
    split <;> simp_all
  have hstop : (old.obj.save cur.toContext).stop now =
      (old.obj.save cur.toContext).stop ((twoReadings old.obj now now').clock 0) := by
    by_cases ht : old.obj.startingTime = 0
    · -- the fiber is not timed, and the reading is not used
      have hsaved : ¬ (old.obj.save cur.toContext).startingTime ≠ 0 := not_not_intro ht
      unfold FiberArg.stop
      rw [if_neg hsaved, if_neg hsaved]
    · have hclock : (twoReadings old.obj now now').clock 0 = now := if_pos ⟨rfl, ht⟩
      rw [hclock]
  have hold : p.fibers.modify old.addr (fun x => (x.save cur.toContext).stop now) =
      (p.fibers.modify old.addr fun x => x.save cur.toContext).modify old.addr fun x =>
        x.stop ((twoReadings old.obj now now').clock 0) := by
    rw [modify_modify]
    exact modify_congr hp.fibers_unique hp.old_mem hstop
  unfold ProcessArg.switched ProcessArg.switch
  rw [hold, hstart]

/-- A section that nobody interrupts is one request of the process. -/
theorem finishes_searchFiber {id : Pid} (hl : Linked brk p) (ho : Owned p)
    (h : Finishes pid arg p c (.inside .searchFiber) r) :
    (∃ env, Process.switchToFiber (some p.toProcess) { c with tgid := id, pid := pid } arg env =
      .ok (⟨r.2.2, r.2.1, none⟩, some r.1.toProcess)) ∧ Linked brk r.1 ∧ Owned r.1 := by
  cases hfiber : searchFiber (arg.setWidth 32) p with
  | none =>
    obtain ⟨_, h⟩ := h.step (x := fun _ => (p, c, .unlock (-1))) fun _ => by
      simp only [switchStep, hfiber]
    rw [h.unlock]
    exact ⟨⟨Env.plain, switch_missing hl hfiber⟩, hl, ho⟩
  | some target =>
    obtain ⟨htarget, _⟩ := of_searchFiber hfiber
    have hu := hl.fibers_unique
    obtain ⟨_, h⟩ := h.step (x := fun _ => (p, c, .inside (.testRunning target.addr))) fun _ => by
      simp only [switchStep, hfiber]
    obtain ⟨_, h⟩ := Finishes.step h (x := fun _ => (p, c, .inside
        (if target.obj.running then .countFailure target.addr else .searchThread target.addr)))
      fun _ => by
        simp only [switchStep, derefFiber, deref_of_mem hu htarget]
        rfl
    cases hrun : target.obj.running with
    | true =>
      rw [hrun] at h
      obtain ⟨_, h⟩ := Finishes.write (.unlock (-1)) h hu htarget fun _ => rfl
      have hok := linked_owned_modify hl ho target.addr FiberArg.fail fun _ _ _ => ⟨rfl, rfl⟩
      rw [h.unlock]
      exact ⟨⟨Env.plain, switch_busy hl hfiber hrun⟩, hok⟩
    | false =>
      rw [hrun] at h
      cases hthread : searchThread pid p with
      | none =>
        obtain ⟨_, h⟩ := Finishes.step h (x := fun _ => (p, c, .unlock (-1))) fun _ => by
          simp only [Bool.false_eq_true, if_false, switchStep, hthread]
        rw [h.unlock]
        exact ⟨⟨Env.plain, switch_unconverted hl hfiber hrun hthread⟩, hl, ho⟩
      | some t =>
        obtain ⟨_, h⟩ := Finishes.step h
          (x := fun _ => (p, c, .inside (.saveRegs t.addr target.addr))) fun _ => by
            simp only [Bool.false_eq_true, if_false, switchStep, hthread]
        obtain ⟨ht, _⟩ := of_searchThread hthread
        obtain ⟨old, hold, hactive, hne, _⟩ :=
          @switch_done { c with tgid := id, pid := pid } arg Env.plain _ _ _ _ hl ho hfiber hrun
            hthread
        have hp : Pointers p t old target :=
          ⟨hu, hl.threads_unique, ht, hold, htarget, hactive, hne⟩
        obtain ⟨now, now', h⟩ := finishes_saveRegs h hp
        obtain ⟨old', hold', hactive', _, hswitch⟩ :=
          @switch_done { c with tgid := id, pid := pid } arg (twoReadings old.obj now now') _ _ _ _
            hl ho hfiber hrun hthread
        have hsame : old' = old := by
          rw [hactive, Option.some.injEq] at hactive'
          exact hu.eq_of_addr hold' hold hactive'.symm
        subst hsame
        rw [h, switched_eq_switch hp { c with tgid := id, pid := pid }]
        exact ⟨⟨_, hswitch⟩, linked_switch hl _ _ _ _, owned_switch hl ho ht htarget hrun hactive⟩

/-! ## All interleavings -/

/-- What a thread does to the process: it changes its registers in user mode, or
a request of it returns. -/
inductive SwitchEffect where
  | user (pid : Pid) (c : Context)
  | switch (pid : Pid) (arg : Word) (ret : ℤ)

/-- The effect of a step of the interleaved run.  A request has its effect when it
gives the lock back. -/
def Move.switchEffect : Pid × Move SwitchEvent → Option SwitchEffect
  | (pid, .leave (.returned arg ret)) => some (.switch pid arg ret)
  | (pid, .outside (.user c)) => some (.user pid c)
  | _ => none

/-- The effect of a step of the process. -/
def Input.switchEffect : Input × Option Answer → Option SwitchEffect
  | (.ioctl pid .switchToFiber arg _, some x) => some (.switch pid arg x.ret)
  | (.user pid c, none) => some (.user pid c)
  | _ => none

/-- The process of the record, with the contexts of its threads. -/
def processOf (x : ProcessArg × (Pid → Caller)) : Component :=
  ⟨some x.1.toProcess, fun pid => (x.2 pid).context⟩

variable {id : Pid} {x y : ProcessArg × (Pid → Caller)} {m : Pid × Move SwitchEvent}

theorem processOf_update (p : ProcessArg) (loc : Pid → Caller) (l : Caller) :
    processOf (p, Function.update loc pid l) =
      ⟨some p.toProcess, Function.update (fun thr => (loc thr).context) pid l.context⟩ := by
  unfold processOf
  congr 1
  funext thr
  exact Function.apply_update (fun _ l => l.context) loc pid l thr

/-- A section keeps the argument of the request. -/
theorem arg_of_inside {a b : ProcessArg × Caller} {as : List SwitchEvent}
    (h : Run (switchCode.Inside pid) a as b) : b.2.arg = a.2.arg := by
  refine h.invariant (I := fun b => b.2.arg = a.2.arg) (fun u e v hu hstep => ?_) rfl
  obtain ⟨_, _, _, _, _, _, rfl⟩ := of_inside hstep
  exact hu

/-- A section is a request of the process. -/
theorem section_request {d d' : ProcessArg} {l l' : Caller} {e : SwitchEvent} (hl : Linked brk d)
    (ho : Owned d) (h : switchCode.Section pid (d, l) e (d', l')) :
    Linked brk d' ∧ Owned d' ∧ ∃ env x,
      Process.request (some d.toProcess) { l.context with tgid := id, pid := pid } .switchToFiber
        l.arg env = .ok (x, some d'.toProcess) ∧ e = .returned l.arg x.ret ∧
      l'.context = { x.context with
        regs := Function.update x.context.regs .ax (BitVec.ofInt 64 x.ret) } := by
  cases h with
  | @mk _ _ _ l₁ l₂ _ as _ henter hrun hleave =>
    obtain ⟨_, rfl⟩ := of_enters henter
    obtain ⟨ret, hstage, rfl, rfl⟩ := of_leaves hleave
    have harg : l₂.arg = l.arg := arg_of_inside hrun
    obtain ⟨c', arg', stage'⟩ := l₂
    obtain rfl : stage' = .unlock ret := hstage
    obtain rfl : arg' = l.arg := harg
    obtain ⟨⟨env, hswitch⟩, hl', ho'⟩ :=
      @finishes_searchFiber brk d pid l.arg l.context (d', c', ret) id hl ho ⟨as, hrun⟩
    exact ⟨hl', ho', env, _, hswitch, rfl, rfl⟩

/-- One step of the atomic run is one step of the process, or none. -/
theorem component_atomic (id : Pid) (hl : Linked brk x.1) (ho : Owned x.1)
    (h : switchCode.Atomic x m y) : Linked brk y.1 ∧ Owned y.1 ∧ ∃ as,
      Run (Component.Step id) (processOf x) as (processOf y) ∧
      as.map Input.switchEffect = ([m].filterMap Move.switchEffect).map some := by
  cases h with
  | @whole d d' loc k a l hsection =>
    obtain ⟨hl', ho', env, x, hrequest, rfl, hctx⟩ := section_request hl ho hsection
    refine ⟨hl', ho', [(.ioctl k .switchToFiber (loc k).arg env, some x)], Run.single ?_, rfl⟩
    have hstep := Component.Step.ioctl (m := processOf (d, loc)) hrequest
    rw [processOf_update, hctx]
    exact hstep
  | @outside d loc k a l hout =>
    obtain ⟨c, rfl, rfl⟩ | ⟨arg, rfl, rfl⟩ := of_outside hout
    · refine ⟨hl, ho, [(.user k c, none)], Run.single ?_, rfl⟩
      rw [processOf_update]
      exact Component.Step.user
    · refine ⟨hl, ho, [], ?_, rfl⟩
      rw [processOf_update, Function.update_eq_self]
      exact Run.nil

theorem component_atomic_run (id : Pid) {tr : List (Pid × Move SwitchEvent)} (hl : Linked brk x.1)
    (ho : Owned x.1) (h : Run switchCode.Atomic x tr y) : Linked brk y.1 ∧ Owned y.1 ∧ ∃ as,
      Run (Component.Step id) (processOf x) as (processOf y) ∧
      as.map Input.switchEffect = (tr.filterMap Move.switchEffect).map some := by
  induction h with
  | nil => exact ⟨hl, ho, [], Run.nil, rfl⟩
  | snoc _ hm ih =>
    obtain ⟨hl₁, ho₁, as, hrun, hreplies⟩ := ih
    obtain ⟨hl₂, ho₂, bs, hrun', hreplies'⟩ := component_atomic id hl₁ ho₁ hm
    refine ⟨hl₂, ho₂, as ++ bs, hrun.append hrun', ?_⟩
    rw [List.map_append, List.filterMap_append, List.map_append, hreplies, hreplies']

/-- The atomic run has the effects of the interleaved one. -/
theorem switchEffect_effects (tr : List (Pid × Move SwitchEvent)) :
    (Code.effects tr).filterMap Move.switchEffect = tr.filterMap Move.switchEffect := by
  unfold Code.effects
  rw [List.filterMap_filterMap]
  apply List.filterMap_congr
  rintro ⟨pid, m⟩ _
  cases m <;> rfl

/-! ## No switch is stuck under the lock -/

/-- The pointer is to a linked fiber. -/
def ProcessArg.LinksFiber (p : ProcessArg) (a : ℕ) : Prop := a ∈ p.fibers.map Entry.addr

/-- The pointer is to a linked thread. -/
def ProcessArg.LinksThread (p : ProcessArg) (a : ℕ) : Prop := a ∈ p.threads.map Entry.addr

/-- The active fibers are linked. -/
def ProcessArg.ActiveLinked (p : ProcessArg) : Prop :=
  ∀ t ∈ p.threads, ∃ a, t.obj.activeFiber = some a ∧ p.LinksFiber a

/-- The pointers of a step are to linked objects. -/
def SwitchPc.Valid (p : ProcessArg) : SwitchPc → Prop
  | .searchFiber => True
  | .testRunning f | .countFailure f | .searchThread f => p.LinksFiber f
  | .saveRegs t f | .saveFpu t f | .loadRegs t f | .loadFpu t f | .stop t f | .charge t f
  | .activate t f => p.LinksThread t ∧ p.LinksFiber f
  | .start f | .countActivation f | .stamp f => p.LinksFiber f

/-- The number of steps to the unlock, at most. -/
def SwitchPc.left : SwitchPc → ℕ
  | .searchFiber => 13
  | .testRunning _ => 12
  | .searchThread _ => 11
  | .saveRegs _ _ => 10
  | .saveFpu _ _ => 9
  | .loadRegs _ _ => 8
  | .loadFpu _ _ => 7
  | .stop _ _ => 6
  | .charge _ _ => 5
  | .activate _ _ => 4
  | .start _ => 3
  | .countActivation _ => 2
  | .stamp _ | .countFailure _ => 1

/-- The thread is under the lock, and its pointers are good. -/
def SwitchStage.Valid (p : ProcessArg) : SwitchStage → Prop
  | .inside pc => pc.Valid p
  | .unlock _ => True
  | .idle | .waiting => False

/-- The steps that are left at a stage. -/
def SwitchStage.left : SwitchStage → ℕ
  | .inside pc => pc.left
  | _ => 0

/-- The step can be taken, keeps the pointers good and comes closer to the
unlock. -/
def Advances (pid : Pid) (arg : Word) (now : Timespec) (p : ProcessArg) (c : Context)
    (pc : SwitchPc) : Prop :=
  ∃ r, switchStep pid arg now p c pc = .ok r ∧ r.1.ActiveLinked ∧ r.2.2.Valid r.1 ∧
    r.2.2.left < pc.left

theorem derefFiber_of_links {a : ℕ} (h : p.LinksFiber a) :
    ∃ f, derefFiber p.fibers (some a) = .ok (a, f) := by
  obtain ⟨e, he, rfl⟩ := List.mem_map.mp h
  have hsome : (p.fibers.find? fun x => x.addr == e.addr).isSome := by
    rw [List.find?_isSome]
    exact ⟨e, he, beq_self_eq_true _⟩
  obtain ⟨x, hx⟩ := Option.isSome_iff_exists.mp hsome
  refine ⟨x.obj, ?_⟩
  simp only [derefFiber, HashTable.deref, hx, Option.map_some]

theorem updateFiber_of_links {a : ℕ} (h : p.LinksFiber a) (g : FiberArg → FiberArg) :
    p.updateFiber (some a) g = .ok { p with fibers := p.fibers.modify a g } := by
  obtain ⟨f, hf⟩ := derefFiber_of_links h
  simp only [ProcessArg.updateFiber, hf]
  rfl

theorem activeFiber_of_links {t : ℕ} (h : p.LinksThread t) (ha : p.ActiveLinked) :
    ∃ a, p.activeFiber t = .ok (some a) ∧ p.LinksFiber a := by
  obtain ⟨e, he, rfl⟩ := List.mem_map.mp h
  have hsome : (p.threads.find? fun x => x.addr == e.addr).isSome := by
    rw [List.find?_isSome]
    exact ⟨e, he, beq_self_eq_true _⟩
  obtain ⟨x, hx⟩ := Option.isSome_iff_exists.mp hsome
  obtain ⟨a, hactive, hlinks⟩ := ha x (List.mem_of_find?_eq_some hx)
  refine ⟨a, ?_, hlinks⟩
  simp only [ProcessArg.activeFiber, HashTable.deref, hx, Option.map_some, hactive]

theorem linksFiber_modify {a b : ℕ} {g : FiberArg → FiberArg} :
    ProcessArg.LinksFiber { p with fibers := p.fibers.modify b g } a ↔ p.LinksFiber a := by
  unfold ProcessArg.LinksFiber
  rw [map_addr_modify]

/-- A write of a fiber keeps what is linked. -/
theorem activeLinked_modify (ha : p.ActiveLinked) (b : ℕ) (g : FiberArg → FiberArg) :
    ProcessArg.ActiveLinked { p with fibers := p.fibers.modify b g } := by
  intro t ht
  obtain ⟨a, hactive, hlinks⟩ := ha t ht
  exact ⟨a, hactive, linksFiber_modify.mpr hlinks⟩

theorem activeLinked_activate (ha : p.ActiveLinked) {t f : ℕ} (hf : p.LinksFiber f) :
    ProcessArg.ActiveLinked { p with
      threads := p.threads.modify t fun x => { x with activeFiber := some f } } := by
  intro x hx
  have hmem : x ∈ p.threads.modify t fun x => { x with activeFiber := some f } := hx
  obtain ⟨y, hy, rfl⟩ := mem_modify.mp hmem
  split
  · exact ⟨f, rfl, hf⟩
  · exact ha y hy

/-- A step that writes a linked fiber. -/
theorem write_valid {pc : SwitchPc} (next : SwitchStage) {g : FiberArg → FiberArg} {a : ℕ}
    {now : Timespec} (ha : p.ActiveLinked) (hf : p.LinksFiber a) (hnext : next.Valid p)
    (hleft : next.left < pc.left)
    (hpc : switchStep pid arg now p c pc =
      (p.updateFiber (some a) g).map fun p => (p, c, next)) :
    Advances pid arg now p c pc := by
  unfold Advances
  rw [hpc, updateFiber_of_links hf]
  refine ⟨_, rfl, activeLinked_modify ha a g, ?_, hleft⟩
  cases next with
  | inside pc =>
    have hlinks : ∀ f, p.LinksFiber f →
        ProcessArg.LinksFiber { p with fibers := p.fibers.modify a g } f :=
      fun f => linksFiber_modify.mpr
    cases pc <;> first
      | exact trivial
      | exact hlinks _ hnext
      | exact ⟨hnext.1, hlinks _ hnext.2⟩
  | unlock ret => trivial
  | idle => exact hnext
  | waiting => exact hnext

/-- A step that writes the active fiber of a linked thread. -/
theorem writeActive_valid {pc : SwitchPc} (next : SwitchStage) {g : FiberArg → FiberArg} {t : ℕ}
    {now : Timespec} (ha : p.ActiveLinked) (ht : p.LinksThread t) (hnext : next.Valid p)
    (hleft : next.left < pc.left)
    (hpc : switchStep pid arg now p c pc =
      (p.activeFiber t).bind fun a => (p.updateFiber a g).map fun p => (p, c, next)) :
    Advances pid arg now p c pc := by
  obtain ⟨a, hactive, hlinks⟩ := activeFiber_of_links ht ha
  apply write_valid next ha hlinks hnext hleft
  rw [hpc, hactive]
  rfl

/-- Every step under the lock can be taken. -/
theorem advances (ha : p.ActiveLinked) {pc : SwitchPc} (hv : pc.Valid p) (now : Timespec) :
    Advances pid arg now p c pc := by
  cases pc with
  | searchFiber =>
    cases hfiber : searchFiber (arg.setWidth 32) p with
    | none =>
      exact ⟨(p, c, .unlock (-1)), by simp only [switchStep, hfiber], ha, trivial,
        Nat.succ_pos _⟩
    | some fiber =>
      have hlinks : p.LinksFiber fiber.addr := List.mem_map_of_mem (of_searchFiber hfiber).1
      exact ⟨(p, c, .inside (.testRunning fiber.addr)), by simp only [switchStep, hfiber], ha,
        hlinks, Nat.lt_succ_self _⟩
  | testRunning f =>
    obtain ⟨x, hx⟩ := derefFiber_of_links hv
    refine ⟨(p, c, .inside (if x.running then .countFailure f else .searchThread f)), ?_, ha, ?_,
      ?_⟩
    · simp only [switchStep, hx]
      rfl
    · dsimp only
      split <;> exact hv
    · dsimp only [SwitchStage.left]
      split
      · show 1 < 12
        decide
      · exact Nat.lt_succ_self _
  | countFailure f => exact write_valid (.unlock (-1)) ha hv trivial Nat.one_pos rfl
  | searchThread f =>
    cases hthread : searchThread pid p with
    | none =>
      exact ⟨(p, c, .unlock (-1)), by simp only [switchStep, hthread], ha, trivial,
        Nat.succ_pos _⟩
    | some t =>
      have hlinks : p.LinksThread t.addr := List.mem_map_of_mem (of_searchThread hthread).1
      exact ⟨(p, c, .inside (.saveRegs t.addr f)), by simp only [switchStep, hthread], ha,
        ⟨hlinks, hv⟩, Nat.lt_succ_self _⟩
  | saveRegs t f =>
    exact writeActive_valid (.inside (.saveFpu t f)) ha hv.1 hv (Nat.lt_succ_self _) rfl
  | saveFpu t f =>
    exact writeActive_valid (.inside (.loadRegs t f)) ha hv.1 hv (Nat.lt_succ_self _) rfl
  | loadRegs t f =>
    obtain ⟨x, hx⟩ := derefFiber_of_links hv.2
    refine ⟨(p, { c with regs := x.regs }, .inside (.loadFpu t f)), ?_, ha, hv,
      Nat.lt_succ_self _⟩
    simp only [switchStep, hx]
    rfl
  | loadFpu t f =>
    obtain ⟨x, hx⟩ := derefFiber_of_links hv.2
    refine ⟨(p, { c with fpu := x.fpuReg }, .inside (.stop t f)), ?_, ha, hv,
      Nat.lt_succ_self _⟩
    simp only [switchStep, hx]
    rfl
  | stop t f =>
    exact writeActive_valid (.inside (.charge t f)) ha hv.1 hv (Nat.lt_succ_self _) rfl
  | charge t f =>
    exact writeActive_valid (.inside (.activate t f)) ha hv.1 hv (Nat.lt_succ_self _) rfl
  | activate t f =>
    obtain ⟨a, hactive, _⟩ := activeFiber_of_links hv.1 ha
    have hafter := @activeLinked_activate p ha t f hv.2
    refine ⟨(_, c, .inside (.start f)), ?_, hafter, hv.2, Nat.lt_succ_self _⟩
    simp only [switchStep, hactive]
    rfl
  | start f =>
    exact write_valid (.inside (.countActivation f)) ha hv hv (Nat.lt_succ_self _) rfl
  | countActivation f => exact write_valid (.inside (.stamp f)) ha hv hv (Nat.lt_succ_self _) rfl
  | stamp f => exact write_valid (.unlock 0) ha hv trivial Nat.one_pos rfl

/-- The rest of every section can be run to its unlock. -/
theorem exists_finishes (n : ℕ) : ∀ {p : ProcessArg} {c : Context} {stage : SwitchStage},
    stage.left < n → p.ActiveLinked → stage.Valid p → ∃ r, Finishes pid arg p c stage r := by
  induction n with
  | zero => exact fun hn => absurd hn (Nat.not_lt_zero _)
  | succ n ih =>
    intro p c stage hn ha hv
    cases stage with
    | inside pc =>
      have hpc : pc.left < n + 1 := hn
      obtain ⟨r, hstep, ha', hv', hleft⟩ := @advances p pid arg c ha pc hv ⟨0, 0⟩
      obtain ⟨r', as, hrun⟩ := ih (c := r.2.1) (by omega) ha' hv'
      exact ⟨r', _, Run.cons (inside_of_step hstep) hrun⟩
    | unlock ret => exact ⟨(p, c, ret), [], Run.nil⟩
    | idle => exact absurd hv id
    | waiting => exact absurd hv id

/-- The pointers are good, and the owner of the lock is under it. -/
def RaceOk (s : Guarded Pid ProcessArg Caller) : Prop :=
  s.data.ActiveLinked ∧ ∀ pid, s.owner = some pid → (s.loc pid).stage.Valid s.data

theorem raceOk_update {d : ProcessArg} {loc : Pid → Caller} {l : Caller}
    (hd : d.ActiveLinked) (hl : l.stage.Valid d) :
    RaceOk ⟨d, some pid, Function.update loc pid l⟩ := by
  refine ⟨hd, fun thr hthr => ?_⟩
  cases hthr
  show SwitchStage.Valid d (Function.update loc pid l pid).stage
  rw [Function.update_self]
  exact hl

theorem raceOk_step {s t : Guarded Pid ProcessArg Caller} {m : Pid × Move SwitchEvent}
    (hs : RaceOk s) (h : switchCode.Step s m t) : RaceOk t := by
  cases h with
  | @enter k l _ henter =>
    obtain ⟨_, rfl⟩ := of_enters henter
    exact raceOk_update hs.1 trivial
  | @inside k a d l howner hinside =>
    obtain ⟨pc, now, r, hpc, _, hstep, heq⟩ := of_inside hinside
    have hv := hs.2 k howner
    rw [hpc] at hv
    obtain ⟨r', hstep', ha', hv', _⟩ := @advances s.data k (s.loc k).arg (s.loc k).context hs.1 pc
      hv now
    rw [hstep', Except.ok.injEq] at hstep
    subst hstep
    cases heq
    exact raceOk_update ha' hv'
  | leave => exact ⟨hs.1, fun pid hpid => by cases hpid⟩
  | @outside k a l hne _ =>
    refine ⟨hs.1, fun pid hpid => ?_⟩
    have hpk : pid ≠ k := fun heq => hne (heq ▸ hpid)
    show SwitchStage.Valid s.data (Function.update s.loc k l pid).stage
    rw [Function.update_of_ne hpk]
    exact hs.2 pid hpid

/-- In every state of an interleaving, from a state in which no request has written
behind the registers of a fiber, the thread that holds the lock can go on to its
unlock, whatever the others are doing: no pointer that it uses is bad, and it waits
for nobody. -/
theorem lock_given_back {context : Pid × Pid → Context} {as₀ : List Action} {s₀ : System}
    (h₀ : Run Step (System.init context) as₀ s₀) (hrec : s₀.kernel.record id = some p)
    {tr : List (Pid × Move SwitchEvent)} {s : Guarded Pid ProcessArg Caller}
    (h : Run switchCode.Step ⟨p, none, fun pid => ⟨s₀.context (id, pid), 0, .idle⟩⟩ tr s)
    (howner : s.owner = some pid) :
    ∃ (es : List (Move SwitchEvent)) (t : Guarded Pid ProcessArg Caller),
      Run switchCode.Step s (es.map fun e => (pid, e)) t ∧ t.owner = none := by
  have hok := kernelOk_run h₀
  have hl := hok.linked _ _ hrec
  have hstart : RaceOk ⟨p, none, fun pid => ⟨s₀.context (id, pid), 0, .idle⟩⟩ := by
    refine ⟨fun t ht => ?_, fun pid hpid => by cases hpid⟩
    obtain ⟨f, hf, hactive, _⟩ := active_of_mem hl (hok.owned _ _ hrec) ht
    exact ⟨f.addr, hactive, List.mem_map_of_mem hf⟩
  have hs : RaceOk s := h.invariant (fun _ _ _ hu hm => raceOk_step hu hm) hstart
  obtain ⟨d, o, loc⟩ := s
  obtain rfl : o = some pid := howner
  obtain ⟨r, as, hrun⟩ := @exists_finishes pid (loc pid).arg _ d (loc pid).context
    (loc pid).stage (Nat.lt_succ_self _) hs.1 (hs.2 pid rfl)
  have hinside : Run (switchCode.Inside pid) (d, loc pid) as
      (r.1, ⟨r.2.1, (loc pid).arg, .unlock r.2.2⟩) := hrun
  have hsteps := Code.run_of_inside hinside
  have hself : Function.update loc pid ⟨r.2.1, (loc pid).arg, .unlock r.2.2⟩ pid =
      ⟨r.2.1, (loc pid).arg, .unlock r.2.2⟩ := Function.update_self _ _ _
  obtain ⟨l', hleave⟩ := @leaves_unlock pid (loc pid).arg r.2.1 r.2.2
  rw [← hself] at hleave
  have hrest := hsteps.snoc (Code.Step.leave rfl hleave)
  have hlabels : (as.map fun a => (pid, Move.inside a)) ++
      [(pid, .leave (SwitchEvent.returned (loc pid).arg r.2.2))] =
      (as.map Move.inside ++ [Move.leave (SwitchEvent.returned (loc pid).arg r.2.2)]).map
        fun e => (pid, e) := by
    rw [List.map_append, List.map_map]
    rfl
  rw [hlabels] at hrest
  exact ⟨_, _, hrest, rfl⟩

/-- Any interleaving of the switches of the threads of a process and of changes of
their registers, from a reachable state to a moment when the lock is free: the
process comes to the same fibers, threads and registers in a run of its own that
takes those changes, and each request that returned at its unlock as one step with
the same answer, in that order, and takes no other step. -/
theorem switches_atomic {context : Pid × Pid → Context} {as₀ : List Action} {s₀ : System}
    (h₀ : Run Step (System.init context) as₀ s₀) (hrec : s₀.kernel.record id = some p)
    {tr : List (Pid × Move SwitchEvent)} {s : Guarded Pid ProcessArg Caller}
    (h : Run switchCode.Step ⟨p, none, fun pid => ⟨s₀.context (id, pid), 0, .idle⟩⟩ tr s)
    (hfree : s.owner = none) :
    ∃ as, Run (Component.Step id) (s₀.component id) as (processOf (s.data, s.loc)) ∧
      as.map Input.switchEffect = (tr.filterMap Move.switchEffect).map some := by
  have hok := kernelOk_run h₀
  have hatomic := Code.atomic_run rfl h hfree
  obtain ⟨_, _, as, hrun, hreplies⟩ :=
    component_atomic_run id (hok.linked _ _ hrec) (hok.owned _ _ hrec) hatomic
  have hstart : s₀.component id =
      processOf (p, fun pid => ⟨s₀.context (id, pid), 0, .idle⟩) := by
    unfold System.component processOf Kernel.process
    rw [hrec]
    rfl
  rw [hstart]
  rw [switchEffect_effects] at hreplies
  exact ⟨as, hrun, hreplies⟩

/-! ## Concrete runs -/

/-- Two threads of the process 7 and a fiber that nobody runs. -/
def raceSetup : List Action :=
  [.ioctl 7 7 .convertToFiber 0 Env.plain, .ioctl 7 8 .convertToFiber 0 Env.plain,
    .ioctl 7 7 .createFiber 0 Env.plain]

/-- The threads of the process 7 in user mode. -/
def raceStart (context : Pid × Pid → Context) (p : ProcessArg) : Guarded Pid ProcessArg Caller :=
  ⟨p, none, fun pid => ⟨context (7, pid), 0, .idle⟩⟩

/-- The thread 7 gets the lock for the fiber 2 while the thread 8 waits for it with
the same request, and the registers of a third thread change under it. -/
def raceEntry : List (Pid × Move SwitchEvent) :=
  [(7, .outside (.call 2)), (8, .outside (.call 2)), (7, .enter), (7, .inside (.clock ⟨1, 0⟩)),
    (9, .outside (.user (zeroContext (7, 9)))), (7, .inside (.clock ⟨2, 0⟩))]

/-- Both requests come to their ends. -/
def raceRest : List (Pid × Move SwitchEvent) :=
  (List.range 11).map (fun n => (7, Move.inside (.clock ⟨n, 0⟩))) ++
    [(7, .leave (.returned 2 0)), (8, .enter), (8, .inside (.clock ⟨20, 0⟩)),
      (8, .inside (.clock ⟨20, 0⟩)), (8, .inside (.clock ⟨20, 0⟩)), (8, .leave (.returned 2 (-1)))]

/-- A run of concrete steps of the threads after `raceSetup`. -/
theorem exists_switchRun (tr : List (Pid × Move SwitchEvent))
    (q : Guarded Pid ProcessArg Caller → Bool)
    (h : (replay System.exec (fun _ _ => true) (System.init zeroContext) raceSetup).any (fun s =>
      (s.kernel.record 7).any fun p =>
        (replay switchCode.exec (fun _ _ => true) (raceStart s.context p) tr).any q) = true) :
    ∃ s₀ p s, Run Step (System.init zeroContext) raceSetup s₀ ∧ s₀.kernel.record 7 = some p ∧
      Run switchCode.Step (raceStart s₀.context p) tr s ∧ q s = true := by
  obtain ⟨s₀, hrun, hp⟩ := exists_run (System.init zeroContext) raceSetup _ h
  obtain ⟨p, hrec, hp⟩ := (Option.any_eq_true _ _).mp hp
  obtain ⟨s, hrace, hq⟩ := Lib.exists_run switchCode.exec _ (raceStart s₀.context p) tr q hp
  exact ⟨s₀, p, s, hrun, hrec, hrace.mono fun _ _ _ h => Code.step_of_exec h.2, hq⟩

/-- `lock_given_back` while another thread waits for the lock. -/
theorem lock_given_back_waiting : ∃ (s t : Guarded Pid ProcessArg Caller)
    (es : List (Move SwitchEvent)), s.owner = some 7 ∧
    Run switchCode.Step s (es.map fun e => (7, e)) t ∧ t.owner = none := by
  obtain ⟨s₀, p, s, hrun, hrec, hrace, hq⟩ := exists_switchRun raceEntry
    (fun s => s.owner == some 7) (by decide +kernel)
  have howner : s.owner = some 7 := beq_iff_eq.mp hq
  obtain ⟨es, t, hrest, hfree⟩ := lock_given_back hrun hrec hrace howner
  exact ⟨s, t, es, howner, hrest, hfree⟩

/-- `switches_atomic` for two threads that ask for the same fiber: the second
request is refused. -/
theorem switches_atomic_same_fiber : ∃ (s₀ : System) (s : Guarded Pid ProcessArg Caller)
    (as : List (Input × Option Answer)),
    Run (Component.Step 7) (s₀.component 7) as (processOf (s.data, s.loc)) ∧
    as.map Input.switchEffect =
      [some (.user 9 (zeroContext (7, 9))), some (.switch 7 2 0), some (.switch 8 2 (-1))] := by
  obtain ⟨s₀, p, s, hrun, hrec, hrace, hq⟩ := exists_switchRun (raceEntry ++ raceRest)
    (fun s => s.owner == none) (by decide +kernel)
  obtain ⟨as, has, hreturned⟩ := switches_atomic hrun hrec hrace (beq_iff_eq.mp hq)
  exact ⟨s₀, s, as, has, hreturned⟩

end LinuxFibers.Module
