import LinuxFibers.Module.Context
import LinuxFibers.Module.Paths
import LinuxFibers.Single.System

/-!
# The two modules on the switching interface

The two modules run side by side: the same threads make the same requests, and
change their registers in the same way in between.  `Agree` is what the two runs
have in common for a user.

The simulation `Sim` says that the tables are parallel, and that a fiber which is
not running holds the same registers in both.  The single-threaded module saves
18 registers, and the multi-threaded one saves all of them.  The three others
have the values that the entry to a system call gives them, so that this makes
no difference.
-/

namespace LinuxFibers.Single

open LinuxFibers.Lib HashTable LinuxFibers.Module

/-! ## System calls -/

/-- The words that the entry to the system call `ioctl` pushes into `struct pt_regs`. -/
structure SyscallEntry where
  origAx : Word
  cs : Word
  ss : Word

/-- The registers of a thread that has entered the system call. -/
def SyscallEntry.enter (entry : SyscallEntry) (regs : PtRegs) : PtRegs
  | .origAx => entry.origAx
  | .cs => entry.cs
  | .ss => entry.ss
  | r => regs r

/-! ## Runs side by side -/

/-- Everything that the two modules ask for succeeds, and they are given the
same arguments. -/
structure Succeeds (env : Module.Env) (env' : Env) : Prop where
  kzalloc : ∀ kind, env.kzalloc kind = true
  copyFromUser : env.copyFromUser = true
  kmalloc : ∀ kind, env'.kmalloc kind = true
  kmallocRegs : env'.kmallocRegs = true
  kmallocFpu : env'.kmallocFpu = true
  createArg : env'.createArg = env.createArg

/-- The commands of the switching interface. -/
def Switching (cmd : Command) : Prop :=
  cmd = .convertToFiber ∨ cmd = .createFiber ∨ cmd = .switchToFiber

/-- The multi-threaded and the single-threaded module. -/
structure Pair where
  multi : Module.System
  single : System

/-- What a thread does in both.  A change in user mode gives the registers the
same values, and the FPU any. -/
inductive PairAction where
  | user (tgid pid : Pid) (regs : PtRegs) (fpu fpu' : Fpu)
  | ioctl (tgid pid : Pid) (cmd : Command) (arg : Word) (env : Module.Env) (env' : Env)

namespace Pair

/-- Empty tables. -/
def init (regs : Pid × Pid → PtRegs) (fpu fpu' : Pid × Pid → Fpu) : Pair :=
  ⟨Module.System.init fun id => ⟨regs id, fpu id⟩, System.init fun id => ⟨regs id, fpu' id⟩⟩

/-- The thread has entered the system call in both. -/
def enter (s : Pair) (entry : SyscallEntry) (tgid pid : Pid) : Pair :=
  let id := (tgid, pid)
  let c := s.multi.context id
  let c' := s.single.context id
  ⟨{ s.multi with
      context := Function.update s.multi.context id { c with regs := entry.enter c.regs } },
    { s.single with
      context := Function.update s.single.context id { c' with regs := entry.enter c'.regs } }⟩

/-- The requests of the thread in both. -/
def requests (s : Pair) (entry : SyscallEntry) (tgid pid : Pid) (cmd : Command) (arg : Word)
    (env : Module.Env) (env' : Env) : Except Fault (Module.Reply × Reply) := do
  let s := s.enter entry tgid pid
  let r ← s.multi.request tgid pid cmd arg env
  let r' ← s.single.request tgid pid cmd arg env'
  return (r, r')

/-- The end of the requests of the thread in both. -/
def resume (s : Pair) (entry : SyscallEntry) (tgid pid : Pid) (r : Module.Reply) (r' : Reply) :
    Pair :=
  let s := s.enter entry tgid pid
  ⟨s.multi.resume tgid pid r, s.single.resume tgid pid r'⟩

/-- One action in both. -/
def exec (s : Pair) (entry : SyscallEntry) : PairAction → Except Fault Pair
  | .user tgid pid regs fpu fpu' => do
      let multi ← s.multi.exec (.user tgid pid ⟨regs, fpu⟩)
      let single ← s.single.exec (.user tgid pid ⟨regs, fpu'⟩)
      return ⟨multi, single⟩
  | .ioctl tgid pid cmd arg env env' => do
      let (r, r') ← s.requests entry tgid pid cmd arg env env'
      return s.resume entry tgid pid r r'

end Pair

/-- The actions of the switching interface that succeed in their allocations. -/
def PairAction.admissible : PairAction → Prop
  | .user .. => True
  | .ioctl _ _ cmd _ env env' => Switching cmd ∧ Succeeds env env'

/-- A step of both modules. -/
def PairStep (entry : SyscallEntry) (s : Pair) (a : PairAction) (t : Pair) : Prop :=
  a.admissible ∧ s.exec entry a = .ok t

/-! ## Agreement -/

/-- The fiber with an index, in the multi-threaded module. -/
def fiberOf (k : Module.Kernel) (tgid : Pid) (index : ℕ) : Option Module.FiberArg := do
  let p ← k.record tgid
  let e ← p.fibers.find? fun e => e.obj.index == index
  return e.obj

/-- The fiber with an index, in the single-threaded module. -/
def Kernel.fiber (k : Kernel) (tgid : Pid) (index : ℕ) : Option FiberArg := do
  let p ← k.record tgid
  let e ← p.fibers.find? fun e => e.obj.index == index
  return e.obj

/-- What the two modules have in common for a user. -/
structure Agree (s : Module.System) (t : System) : Prop where
  activeIndex : ∀ tgid pid, s.activeIndex tgid pid = t.activeIndex tgid pid
  running : ∀ tgid index, (fiberOf s.kernel tgid index).map Module.FiberArg.running =
    (t.kernel.fiber tgid index).map FiberArg.running
  registers : ∀ id, (s.context id).regs = (t.context id).regs
  saved : ∀ tgid index f g, fiberOf s.kernel tgid index = some f →
    t.kernel.fiber tgid index = some g → f.running = false →
      ∀ r ∈ switchedRegs, f.regs r = g.regs r

/-! ## The simulation -/

variable {entry : SyscallEntry} {k : Module.Kernel} {l : Kernel} {cur cur' : Task} {arg : Word}
  {env : Module.Env} {env' : Env}

/-- The same fiber in both.  When it is not running, the multi-threaded module
holds all its registers as a system call finds them. -/
structure SameFiber (entry : SyscallEntry) (f : Module.FiberArg) (g : FiberArg) : Prop where
  index : f.index = g.index
  running : f.running = g.running
  saved : f.running = false → f.regs = entry.enter g.regs

/-- The same thread in both. -/
structure SameThread (t : Module.ThreadArg) (u : ThreadArg) : Prop where
  pid : t.pid = u.pid
  activeFiber : t.activeFiber = u.activeFiber

/-- The same process in both. -/
structure SameRecord (entry : SyscallEntry) (p : Module.ProcessArg) (q : ProcessArg) : Prop where
  pid : p.pid = q.pid
  fiberId : p.fiberId = q.fiberId
  fibers : Parallel (SameFiber entry) p.fibers q.fibers
  threads : Parallel SameThread p.threads q.threads

/-- The same kernel state in both. -/
structure Sim (entry : SyscallEntry) (k : Module.Kernel) (l : Kernel) : Prop where
  brk : k.brk = l.brk
  records : Parallel (SameRecord entry) k.listProcess l.listProcess

/-- The same caller in both, which has entered the system call. -/
structure SameCaller (entry : SyscallEntry) (cur cur' : Task) : Prop where
  tgid : cur.tgid = cur'.tgid
  pid : cur.pid = cur'.pid
  regs : cur.regs = cur'.regs
  entered : entry.enter cur.regs = cur.regs

/-- Both requests return, with the same value, the same registers and the same
kernel state. -/
def SameReply (entry : SyscallEntry) (x : Except Fault Module.Reply) (y : Except Fault Reply) :
    Prop :=
  ∃ r r', x = .ok r ∧ y = .ok r' ∧ r.ret = r'.ret ∧ r.context.regs = r'.context.regs ∧
    Sim entry r.kernel r'.kernel

/-! ### Searches -/

theorem Sim.searchProcess (h : Sim entry k l) (id : Pid) :
    Option.Rel (SameLinks (SameRecord entry)) (Module.searchProcess k id) (searchProcess l id) :=
  h.records.search _ fun p q hpq => by rw [hpq.pid]

theorem SameRecord.searchThread {p : Module.ProcessArg} {q : ProcessArg}
    (h : SameRecord entry p q) (id : Pid) :
    Option.Rel (SameLinks SameThread) (Module.searchThread id p) (searchThread id q) :=
  h.threads.search _ fun t u htu => by rw [htu.pid]

/-- The single-threaded module finds the fibers that the multi-threaded one finds
and that are not running. -/
theorem SameRecord.searchFiber {brk : ℕ} {p : Module.ProcessArg} {q : ProcessArg}
    (h : SameRecord entry p q) (hl : Linked brk p) (index : BitVec 32) :
    Option.Rel (SameLinks (SameFiber entry))
      ((Module.searchFiber index p).filter fun e => !e.obj.running) (searchFiber index q) := by
  have honly : ∀ e ∈ p.fibers, ∀ e' ∈ p.fibers, (e.obj.index == intToUlong index) = true →
      (e'.obj.index == intToUlong index) = true → e = e' := by
    intro e he e' he' hi hi'
    apply hl.index_inj e he e' he'
    rw [eq_of_beq hi, eq_of_beq hi']
  have hand := search_and (b := hash32 index)
    (p := fun f : Module.FiberArg => f.index == intToUlong index)
    (c := fun f : Module.FiberArg => !f.running) honly
  unfold Module.searchFiber
  rw [← hand]
  apply h.fibers.search
  intro f g hfg
  rw [hfg.index, hfg.running]

/-! ### `CONVERTTOFIBER` -/

theorem Sim.setProcess (h : Sim entry k l) (a : ℕ) {p : Module.ProcessArg} {q : ProcessArg}
    (hpq : SameRecord entry p q) : Sim entry (k.setProcess a p) (l.setProcess a q) := by
  refine ⟨h.brk, ?_⟩
  change Parallel _ (k.listProcess.modify a fun _ => p) (l.listProcess.modify a fun _ => q)
  apply h.records.modify
  intro _ _ _ _ _
  exact hpq

theorem sameRecord_new (entry : SyscallEntry) (id : Pid) :
    SameRecord entry (Module.newProcess id) (newProcess id) :=
  ⟨rfl, rfl, List.Forall₂.nil, List.Forall₂.nil⟩

theorem SameRecord.convert {p : Module.ProcessArg} {q : ProcessArg} (h : SameRecord entry p q)
    (id : Pid) (t f : ℕ) {fiber : Module.FiberArg} {fiber' : FiberArg}
    (hf : SameFiber entry fiber fiber') :
    SameRecord entry (p.convert id t f fiber) (q.convert id t f fiber') where
  pid := h.pid
  fiberId := congrArg (· + 1) h.fiberId
  fibers := by
    change Parallel _ (p.fibers.hashAdd _ f fiber) (q.fibers.hashAdd _ f fiber')
    rw [hf.index]
    exact h.fibers.hashAdd hf
  threads := h.threads.hashAdd ⟨rfl, rfl⟩

/-- The record that `CONVERTTOFIBER` finds or makes. -/
theorem Sim.opening (h : Sim entry k l) (henv : Succeeds env env') {e : Entry Module.ProcessArg}
    {k₂ : Module.Kernel} (ho : Opening k cur env e k₂) :
    ∃ e' l₂, findOrAddProcess ⟨l.listProcess, l.brk + 1⟩ cur.tgid true = .ok (e', l₂) ∧
      SameLinks (SameRecord entry) e e' ∧ Sim entry k₂ l₂ := by
  have hfiber : fiberAllocated k env = (kzalloc k true).2 := by
    rw [fiberAllocated, henv.kzalloc]
  have hgrown : Sim entry (fiberAllocated k env) ⟨l.listProcess, l.brk + 1⟩ := by
    rw [hfiber]
    exact ⟨congrArg (· + 1) h.brk, h.records⟩
  have hsearch := hgrown.searchProcess cur.tgid
  have hsame := (sameTables_fiberAllocated k env).searchProcess cur.tgid
  rw [hsame] at hsearch
  unfold findOrAddProcess
  cases ho with
  | found hs =>
    rw [hs] at hsearch
    obtain ⟨e', he', hlinks⟩ := of_rel_some hsearch
    exact ⟨e', _, by rw [he'], hlinks, hgrown⟩
  | made hs =>
    rw [hs] at hsearch
    rw [of_rel_none hsearch]
    have hnew := sameRecord_new entry cur.tgid
    have hbrk : (fiberAllocated k env).brk = l.brk + 1 := hgrown.brk
    refine ⟨_, _, rfl, ⟨rfl, hbrk, hnew⟩, congrArg (· + 1) hbrk, ?_⟩
    rw [hbrk]
    exact hgrown.records.hashAdd hnew

theorem same_convertToFiber (h : Sim entry k l) (hcur : SameCaller entry cur cur')
    (henv : Succeeds env env') :
    SameReply entry (Module.convertToFiber k cur env) (convertToFiber l cur' env') := by
  have hpath := convert_path k cur env
  generalize Module.convertToFiber k cur env = x at hpath ⊢
  unfold convertToFiber
  simp only [henv.kmalloc, kmalloc, if_true, ← hcur.tgid, ← hcur.pid]
  cases hpath with
  | noRecord _ halloc => simp [henv.kzalloc] at halloc
  | noThread _ _ halloc => simp [henv.kzalloc] at halloc
  | noFiber _ _ _ halloc => simp [henv.kzalloc] at halloc
  | known hs hth =>
    obtain ⟨e', l₂, hopen, hlinks, hsim⟩ := h.opening henv (Opening.found hs)
    have hthread := hlinks.obj.searchThread cur.pid
    rw [hth] at hthread
    obtain ⟨th', hth', _⟩ := of_rel_some hthread
    rw [hopen]
    simp only [bind, Except.bind, hth']
    exact ⟨_, _, rfl, rfl, rfl, hcur.regs, hsim⟩
  | @converted e k₂ ho hth =>
    obtain ⟨e', l₂, hopen, hlinks, hsim⟩ := h.opening henv ho
    have hthread := hlinks.obj.searchThread cur.pid
    rw [hth] at hthread
    rw [hopen]
    simp only [bind, Except.bind, of_rel_none hthread, nonNull, allocatedFields,
      henv.kmallocRegs, henv.kmallocFpu, Bool.and_self, if_true]
    have hret : (e.obj.fiberId : ℤ) = e'.obj.fiberId := congrArg _ hlinks.obj.fiberId
    refine ⟨_, _, rfl, rfl, hret, hcur.regs, ?_⟩
    have hfiber : SameFiber entry (Module.convertedFiber cur env e.obj.fiberId)
        (convertedFiber cur' env' e'.obj.fiberId) :=
      ⟨hlinks.obj.fiberId, rfl, fun hrun => by cases hrun⟩
    have hgrown : Sim entry (kzalloc k₂ true).2 ⟨l₂.listProcess, l₂.brk + 1⟩ :=
      ⟨congrArg (· + 1) hsim.brk, hsim.records⟩
    have hrecord := hlinks.obj.convert cur.pid k₂.brk k.brk hfiber
    have hset := hgrown.setProcess e.addr hrecord
    rw [hlinks.addr, hsim.brk, h.brk] at hset
    change Sim entry (conversionEnd k₂ cur env e k.brk) _
    unfold conversionEnd
    dsimp only
    rw [hlinks.addr, hsim.brk, h.brk]
    exact ⟨hset.brk, hset.records⟩

/-! ### `CREATEFIBER` -/

theorem enter_createdRegs {regs : PtRegs} (h : entry.enter regs = regs) (args : CreateArg) :
    entry.enter (Module.createdRegs regs args) = Module.createdRegs regs args := by
  funext r
  have hr := congrFun h r
  cases r <;> first | rfl | exact hr

theorem SameRecord.create (cur' : Task) {p : Module.ProcessArg} {q : ProcessArg}
    (h : SameRecord entry p q) (a f : ℕ) {fiber : Module.FiberArg} {fiber' : FiberArg}
    (hf : SameFiber entry fiber fiber') :
    SameRecord entry (p.create f fiber) (q.create cur' a f fiber') where
  pid := h.pid
  fiberId := congrArg (· + 1) h.fiberId
  fibers := by
    change Parallel _ (p.fibers.hashAdd _ f fiber)
      ((q.fibers.modify a fun g => { g with fpuReg := cur'.fpu }).hashAdd _ f fiber')
    rw [hf.index]
    -- the FPU image of the active fiber is not compared
    have hactive := h.fibers.modify_right a (f := fun g => { g with fpuReg := cur'.fpu })
      fun _ _ _ _ hg => ⟨hg.index, hg.running, hg.saved⟩
    exact hactive.hashAdd hf
  threads := h.threads

/-- The active fiber of the caller in both. -/
theorem SameRecord.active {brk : ℕ} {p : Module.ProcessArg} {q : ProcessArg}
    (h : SameRecord entry p q) (hl : Linked brk p) (ho : Owned p) {id : Pid}
    {th : Entry Module.ThreadArg} {th' : Entry ThreadArg}
    (hth : Module.searchThread id p = some th) (hsame : SameLinks SameThread th th') :
    ∃ f ∈ p.fibers, ∃ g, f.obj.running = true ∧ SameFiber entry f.obj g ∧
      Module.derefFiber p.fibers th.obj.activeFiber = .ok (f.addr, f.obj) ∧
      derefFiber q.fibers th'.obj.activeFiber = .ok (f.addr, g) := by
  obtain ⟨f, hf, hactive, hrun, hderef⟩ := derefFiber_active hl ho hth
  have hread := h.fibers.deref f.addr
  rw [deref_of_mem hl.fibers_unique hf] at hread
  obtain ⟨g, hg, hfg⟩ := of_rel_some hread
  refine ⟨f, hf, g, hrun, hfg, hderef, ?_⟩
  rw [← hsame.obj.activeFiber, hactive]
  simp only [derefFiber, hg]

theorem same_createFiber (hok : KernelOk k) (h : Sim entry k l) (hcur : SameCaller entry cur cur')
    (henv : Succeeds env env') :
    SameReply entry (Module.createFiber k cur env) (createFiber l cur' env') := by
  have hpath := create_path k cur env
  generalize Module.createFiber k cur env = x at hpath ⊢
  unfold createFiber
  simp only [henv.kmalloc, kmalloc, if_true, ← hcur.tgid, ← hcur.pid, nonNull, bind, Except.bind]
  have hgrown : Sim entry (argsAllocated k env) ⟨l.listProcess, l.brk + 1 + 1⟩ := by
    rw [argsAllocated, henv.kzalloc]
    exact ⟨congrArg (· + 1 + 1) h.brk, h.records⟩
  have hsearch := hgrown.searchProcess cur.tgid
  rw [(sameTables_argsAllocated k env).searchProcess] at hsearch
  cases hpath with
  | noArgs halloc => simp [henv.kzalloc] at halloc
  | notCopied _ hcopy => simp [henv.copyFromUser] at hcopy
  | noFiber _ _ _ _ halloc => simp [henv.kzalloc] at halloc
  | noRecord _ _ hs =>
    rw [hs] at hsearch
    rw [of_rel_none hsearch]
    exact ⟨_, _, rfl, rfl, rfl, hcur.regs, hgrown⟩
  | noThread _ _ hs hth =>
    rw [hs] at hsearch
    obtain ⟨e', he', hlinks⟩ := of_rel_some hsearch
    have hthread := hlinks.obj.searchThread cur.pid
    rw [hth] at hthread
    simp only [he', of_rel_none hthread]
    exact ⟨_, _, rfl, rfl, rfl, hcur.regs, ⟨hgrown.brk, hgrown.records⟩⟩
  | @created e th _ _ hs hth =>
    rw [hs] at hsearch
    obtain ⟨e', he', hlinks⟩ := of_rel_some hsearch
    have hthread := hlinks.obj.searchThread cur.pid
    rw [hth] at hthread
    obtain ⟨th', hth', hsame⟩ := of_rel_some hthread
    have hrec := record_of_mem hok.toTables (of_searchProcess hs).1
    obtain ⟨f, _, g, _, _, _, hderef⟩ :=
      hlinks.obj.active (hok.linked _ _ hrec) (hok.owned _ _ hrec) hth hsame
    simp only [he', hth', allocatedFields, henv.kmallocRegs, henv.kmallocFpu, Bool.and_self,
      if_true, hderef]
    have hret : (e.obj.fiberId : ℤ) = e'.obj.fiberId := congrArg _ hlinks.obj.fiberId
    refine ⟨_, _, rfl, rfl, hret, hcur.regs, ?_⟩
    have hfiber : SameFiber entry (Module.createdFiber cur env.createArg e.obj.fiberId)
        (createdFiber cur' env' e'.obj.fiberId) := by
      refine ⟨hlinks.obj.fiberId, rfl, fun _ => ?_⟩
      change Module.createdRegs cur.regs env.createArg =
        entry.enter (createdRegs cur'.regs env'.createArg)
      rw [createdRegs_eq, ← hcur.regs, henv.createArg, enter_createdRegs hcur.entered]
    have hrecord := hlinks.obj.create cur' f.addr (k.brk + 1) hfiber
    have hset := hgrown.setProcess e.addr hrecord
    change Sim entry (creationEnd k cur env e) _
    unfold creationEnd
    dsimp only
    rw [hlinks.addr, h.brk] at hset ⊢
    exact ⟨hset.brk, hset.records⟩

/-! ### `SWITCHTOFIBER` -/

theorem enter_assignRegs (dst src : PtRegs) :
    entry.enter (assignRegs dst src) = entry.enter src := by
  funext r
  cases r <;> simp [SyscallEntry.enter, assignRegs, switchedRegs]

/-- A caller that has entered the system call gets the 18 registers, and keeps
the three others. -/
theorem assignRegs_of_entered {dst : PtRegs} (h : entry.enter dst = dst) (src : PtRegs) :
    assignRegs dst src = entry.enter src := by
  funext r
  have hr := congrFun h r
  cases r <;> simp_all [SyscallEntry.enter, assignRegs, switchedRegs]

/-- A fiber after a switch from the fiber `a` to the fiber `target`. -/
def switchedFiber (cur : Task) (env : Env) (a target : ℕ) (e : Entry FiberArg) : FiberArg :=
  let f := if e.addr = target then { e.obj with fpuReg := env.oldFpu } else e.obj
  let f := if e.addr = a then { f.save cur.toContext with running := false } else f
  if e.addr = target then { f with running := true } else f

/-- The fibers after a switch. -/
theorem switch_fibers (q : ProcessArg) (thread a target : ℕ) :
    (q.switch cur env' thread a target).fibers =
      q.fibers.mapObj (switchedFiber cur env' a target) := by
  unfold ProcessArg.switch ProcessArg.saved
  simp only [modify_eq_mapObj, mapObj_mapObj]
  apply List.map_congr_left
  intro e _
  unfold switchedFiber
  by_cases ha : e.addr = a <;> simp only [ha, if_true, if_false]

/-- The two fibers that a switch is about are in the same state in both. -/
theorem same_switchedFiber (hcur : SameCaller entry cur cur') {a target : ℕ} (hne : a ≠ target)
    (old : Module.FiberArg) {e : Entry Module.FiberArg} {e' : Entry FiberArg}
    (h : SameLinks (SameFiber entry) e e') :
    SameFiber entry (Module.switchedFiber cur env a old target e)
      (switchedFiber cur' env' a target e') := by
  by_cases ht : e.addr = target
  · have ha : e.addr ≠ a := fun ha => hne (ha.symm.trans ht)
    simp only [switchedFiber, ← h.addr, if_pos ht, if_neg ha]
    have hrun : (Module.switchedFiber cur env a old target e).running = true := by
      rw [switchedFiber_running, if_pos ht]
    refine ⟨?_, hrun, fun hstill => ?_⟩
    · exact (switchedFiber_index a old target e).trans h.obj.index
    · rw [hrun] at hstill
      cases hstill
  · by_cases ha : e.addr = a
    · rw [switchedFiber_old ha ht]
      simp only [switchedFiber, ← h.addr, if_neg ht, if_pos ha]
      refine ⟨?_, stop_running _ _, fun _ => ?_⟩
      · rw [stop_index]
        exact h.obj.index
      · have hregs := congrArg Context.regs (stop_context (e.obj.save cur.toContext) (env.clock 0))
        change _ = entry.enter (assignRegs e'.obj.regs cur'.regs)
        rw [enter_assignRegs, ← hcur.regs, hcur.entered]
        exact hregs
    · rw [switchedFiber_of_ne ha ht]
      simp only [switchedFiber, ← h.addr, if_neg ht, if_neg ha]
      exact h.obj

theorem SameRecord.switch (env : Module.Env) (env' : Env) (hcur : SameCaller entry cur cur')
    {p : Module.ProcessArg} {q : ProcessArg} (h : SameRecord entry p q) (thread : ℕ)
    {a target : ℕ} (hne : a ≠ target) (old : Module.FiberArg) :
    SameRecord entry (p.switch cur env thread a old target)
      (q.switch cur' env' thread a target) where
  pid := h.pid
  fiberId := h.fiberId
  fibers := by
    rw [switch_eq, switch_fibers]
    apply h.fibers.mapObj
    intro e _ e' he
    exact same_switchedFiber hcur hne old he
  threads := by
    change Parallel _ (p.threads.modify thread fun t => { t with activeFiber := some target })
      (q.threads.modify thread fun t => { t with activeFiber := some target })
    apply h.threads.modify
    intro t _ _ u htu
    exact ⟨htu.pid, rfl⟩

/-- The target of a switch still has its registers when they are loaded. -/
theorem SameRecord.saved (cur' : Task) (env' : Env) {brk : ℕ} {p : Module.ProcessArg}
    {q : ProcessArg} (h : SameRecord entry p q) (hl : Linked brk p)
    {f : Entry Module.FiberArg} (hf : f ∈ p.fibers) (hrun : f.obj.running = true) (target : ℕ) :
    Parallel (SameFiber entry) p.fibers (q.saved cur' env' f.addr target) := by
  have hfpu := h.fibers.modify_right target
    (f := fun g => { g with fpuReg := env'.oldFpu })
    fun _ _ _ _ hg => ⟨hg.index, hg.running, hg.saved⟩
  apply hfpu.modify_right
  intro e he hea g hg
  refine ⟨hg.index, hg.running, fun hstill => ?_⟩
  rw [hl.fibers_unique.eq_of_addr he hf hea, hrun] at hstill
  cases hstill

/-- A failed switch is counted by one of the modules only. -/
theorem Sim.fail (h : Sim entry k l) (hok : KernelOk k) {e : Entry Module.ProcessArg}
    (he : e ∈ k.listProcess) (a : ℕ) :
    Sim entry
      (k.setProcess e.addr { e.obj with fibers := e.obj.fibers.modify a Module.FiberArg.fail })
      l := by
  refine ⟨h.brk, ?_⟩
  change Parallel _ (k.listProcess.modify e.addr fun _ => _) l.listProcess
  apply h.records.modify_left
  intro x hx hxa y hy
  rw [hok.unique.eq_of_addr hx he hxa] at hy
  have hfibers := hy.fibers.modify_left a (f := Module.FiberArg.fail)
    fun _ _ _ _ hg => ⟨hg.index, hg.running, hg.saved⟩
  exact ⟨hy.pid, hy.fiberId, hfibers, hy.threads⟩

theorem same_switchToFiber (hok : KernelOk k) (h : Sim entry k l)
    (hcur : SameCaller entry cur cur') (henv : Succeeds env env') :
    SameReply entry (Module.switchToFiber k cur arg env) (switchToFiber l cur' arg env') := by
  have hsearch := h.searchProcess cur.tgid
  unfold Module.switchToFiber switchToFiber
  simp only [henv.kmallocFpu, ← hcur.tgid, ← hcur.pid]
  cases hs : Module.searchProcess k cur.tgid with
  | none =>
    rw [hs] at hsearch
    rw [of_rel_none hsearch]
    exact ⟨_, _, rfl, rfl, rfl, hcur.regs, h⟩
  | some e =>
    rw [hs] at hsearch
    obtain ⟨e', he', hlinks⟩ := of_rel_some hsearch
    have hmem := (of_searchProcess hs).1
    have hrec := record_of_mem hok.toTables hmem
    have hl := hok.linked _ _ hrec
    have hfiber := hlinks.obj.searchFiber hl (arg.setWidth 32)
    rw [he']
    dsimp only
    cases hm : Module.searchFiber (arg.setWidth 32) e.obj with
    | none =>
      rw [hm] at hfiber
      rw [of_rel_none hfiber]
      exact ⟨_, _, rfl, rfl, rfl, hcur.regs, h⟩
    | some fe =>
      rw [hm] at hfiber
      dsimp only
      by_cases hrun : fe.obj.running = true
      · rw [Option.filter, hrun] at hfiber
        rw [of_rel_none hfiber, if_pos hrun]
        exact ⟨_, _, rfl, rfl, rfl, hcur.regs, h.fail hok hmem fe.addr⟩
      · have hstill : fe.obj.running = false := Bool.eq_false_iff.mpr hrun
        rw [Option.filter, hstill] at hfiber
        obtain ⟨fe', hfe', hlinks'⟩ := of_rel_some hfiber
        have hthread := hlinks.obj.searchThread cur.pid
        rw [hfe', if_neg hrun]
        dsimp only
        cases hth : Module.searchThread cur.pid e.obj with
        | none =>
          rw [hth] at hthread
          rw [of_rel_none hthread]
          exact ⟨_, _, rfl, rfl, rfl, hcur.regs, h⟩
        | some th =>
          rw [hth] at hthread
          obtain ⟨th', hth', hsame⟩ := of_rel_some hthread
          obtain ⟨f, hf, g, hfrun, _, hderef, hderef'⟩ :=
            hlinks.obj.active hl (hok.owned _ _ hrec) hth hsame
          have hfe := (of_searchFiber hm).1
          have hne : fe.addr ≠ f.addr := by
            intro heq
            rw [hl.fibers_unique.eq_of_addr hfe hf heq, hfrun] at hstill
            cases hstill
          -- the target as it is loaded
          have hkept : fe ∈ e.obj.fibers.modify f.addr fun x => x.save cur.toContext :=
            mem_modify_of_ne hfe hne
          have hnext : Module.derefFiber (e.obj.fibers.modify f.addr fun x =>
              x.save cur.toContext) (some fe.addr) = .ok (fe.addr, fe.obj) := by
            simp only [Module.derefFiber, deref_of_mem (hl.fibers_unique.modify f.addr _) hkept]
          have hnext' := (hlinks.obj.saved cur' env' hl hf hfrun fe.addr).deref fe.addr
          rw [deref_of_mem hl.fibers_unique hfe] at hnext'
          obtain ⟨next, hread, hsaved⟩ := of_rel_some hnext'
          have hload : derefFiber (e'.obj.saved cur' env' f.addr fe.addr) (some fe.addr) =
              .ok (fe.addr, next) := by
            simp only [derefFiber, hread]
          rw [hth', ← hlinks'.addr]
          simp only [hderef, hderef', hnext, hload, bind, Except.bind, pure, Except.pure,
            Bool.not_true, Bool.false_eq_true, if_false]
          refine ⟨_, _, rfl, rfl, rfl, ?_, ?_⟩
          · change fe.obj.regs = assignRegs cur'.regs next.regs
            rw [hsaved.saved hstill, ← hcur.regs]
            exact (assignRegs_of_entered hcur.entered next.regs).symm
          · have hrecord := hlinks.obj.switch env env' hcur th.addr (Ne.symm hne) f.obj
            have hset := h.setProcess e.addr hrecord
            rw [hsame.addr, hlinks.addr] at hset ⊢
            exact hset

/-! ## Runs of the simulation -/

/-- The simulation of the two systems. -/
structure PairSim (entry : SyscallEntry) (s : Pair) : Prop where
  ok : KernelOk s.multi.kernel
  kernel : Sim entry s.multi.kernel s.single.kernel
  regs : ∀ id, (s.multi.context id).regs = (s.single.context id).regs

variable {s t : Pair} {tgid pid : Pid} {cmd : Command}

theorem same_request (arg : Word) (hok : KernelOk k) (h : Sim entry k l)
    (hcur : SameCaller entry cur cur') (hcmd : Switching cmd) (henv : Succeeds env env') :
    SameReply entry (Module.myIoctl k cur cmd arg env) (myIoctl l cur' cmd arg env') := by
  rcases hcmd with rfl | rfl | rfl
  · exact same_convertToFiber h hcur henv
  · exact same_createFiber hok h hcur henv
  · exact same_switchToFiber hok h hcur henv

theorem enter_enter (regs : PtRegs) : entry.enter (entry.enter regs) = entry.enter regs := by
  funext r
  cases r <;> rfl

theorem PairSim.enter (h : PairSim entry s) (tgid pid : Pid) :
    PairSim entry (s.enter entry tgid pid) := by
  refine ⟨h.ok, h.kernel, fun id => ?_⟩
  by_cases hid : id = (tgid, pid)
  · subst hid
    simp only [Pair.enter, Function.update_self, h.regs]
  · simp only [Pair.enter, Function.update_of_ne hid, h.regs]

/-- Both requests return, with the same value, and the simulation goes on. -/
theorem PairSim.requests (h : PairSim entry s) (tgid pid : Pid) (arg : Word)
    (hcmd : Switching cmd) (henv : Succeeds env env') :
    ∃ r r', s.requests entry tgid pid cmd arg env env' = .ok (r, r') ∧ r.ret = r'.ret ∧
      PairSim entry (s.resume entry tgid pid r r') := by
  have henter := h.enter tgid pid
  have hcur : SameCaller entry ((s.enter entry tgid pid).multi.task tgid pid)
      ((s.enter entry tgid pid).single.task tgid pid) := by
    refine ⟨rfl, rfl, henter.regs (tgid, pid), ?_⟩
    simp only [Module.System.task, Pair.enter, Function.update_self, enter_enter]
  obtain ⟨r, r', hr, hr', hret, hregs, hsim⟩ :=
    same_request arg henter.ok henter.kernel hcur hcmd henv
  refine ⟨r, r', ?_, hret, ?_⟩
  · simp only [Pair.requests, Module.System.request, System.request, hr, hr', bind, Except.bind,
      pure, Except.pure]
  · refine ⟨kernelOk_request henter.ok hr, hsim, fun id => ?_⟩
    by_cases hid : id = (tgid, pid)
    · subst hid
      simp only [Pair.resume, Module.System.resume, System.resume, Function.update_self, hregs,
        hret]
    · simp only [Pair.resume, Module.System.resume, System.resume, Function.update_of_ne hid,
        henter.regs]

theorem pairSim_step {a : PairAction} (h : PairSim entry s) (hstep : PairStep entry s a t) :
    PairSim entry t := by
  obtain ⟨hadm, hexec⟩ := hstep
  cases a with
  | user tgid pid regs fpu fpu' =>
    cases hexec
    refine ⟨h.ok, h.kernel, fun id => ?_⟩
    by_cases hid : id = (tgid, pid)
    · subst hid
      simp only [Function.update_self]
    · simp only [Function.update_of_ne hid, h.regs]
  | ioctl tgid pid cmd arg env env' =>
    obtain ⟨r, r', hr, _, hsim⟩ := h.requests tgid pid arg hadm.1 hadm.2
    simp only [Pair.exec, hr, bind, Except.bind, pure, Except.pure] at hexec
    cases hexec
    exact hsim

theorem pairSim_run {regs : Pid × Pid → PtRegs} {fpu fpu' : Pid × Pid → Fpu}
    {as : List PairAction} (h : Run (PairStep entry) (Pair.init regs fpu fpu') as s) :
    PairSim entry s :=
  h.invariant (fun _ _ _ hs hstep => pairSim_step hs hstep)
    ⟨kernelOk_init, ⟨rfl, List.Forall₂.nil⟩, fun _ => rfl⟩

/-! ## The simulation shows in the agreement -/

theorem Sim.record (h : Sim entry k l) (id : Pid) :
    Option.Rel (SameRecord entry) (k.record id) (l.record id) := by
  have hsearch := h.searchProcess id
  unfold Module.Kernel.record Kernel.record
  generalize Module.searchProcess k id = x at hsearch ⊢
  generalize Single.searchProcess l id = y at hsearch ⊢
  cases hsearch with
  | none => exact Option.Rel.none
  | some he => exact Option.Rel.some he.obj

theorem Sim.fiber (h : Sim entry k l) (tgid : Pid) (index : ℕ) :
    Option.Rel (SameFiber entry) (fiberOf k tgid index) (l.fiber tgid index) := by
  have hrecord := h.record tgid
  unfold fiberOf Kernel.fiber
  generalize k.record tgid = x at hrecord ⊢
  generalize l.record tgid = y at hrecord ⊢
  cases hrecord with
  | none => exact Option.Rel.none
  | @some p q hpq =>
    have hfind := hpq.fibers.find? (p := fun e => e.obj.index == index)
      (q := fun e => e.obj.index == index) fun e e' he => by rw [he.obj.index]
    simp only [Option.bind_eq_bind, Option.bind_some]
    generalize List.find? _ p.fibers = u at hfind ⊢
    generalize List.find? _ q.fibers = v at hfind ⊢
    cases hfind with
    | none => exact Option.Rel.none
    | some he => exact Option.Rel.some he.obj

theorem PairSim.activeIndex (h : PairSim entry s) (tgid pid : Pid) :
    s.multi.activeIndex tgid pid = s.single.activeIndex tgid pid := by
  have hrecord := h.kernel.record tgid
  unfold Module.System.activeIndex System.activeIndex
  generalize s.multi.kernel.record tgid = x at hrecord ⊢
  generalize s.single.kernel.record tgid = y at hrecord ⊢
  cases hrecord with
  | none => rfl
  | @some p q hpq =>
    have hthread := hpq.searchThread pid
    simp only [Option.bind_eq_bind, Option.bind_some]
    generalize Module.searchThread pid p = u at hthread ⊢
    generalize Single.searchThread pid q = v at hthread ⊢
    cases hthread with
    | none => rfl
    | @some th th' hth =>
      simp only [Option.bind_some, hth.obj.activeFiber]
      cases th'.obj.activeFiber with
      | none => rfl
      | some a =>
        have hfiber := hpq.fibers.deref a
        simp only [Option.bind_some]
        generalize p.fibers.deref a = f at hfiber ⊢
        generalize q.fibers.deref a = g at hfiber ⊢
        cases hfiber with
        | none => rfl
        | some hfg => exact congrArg some hfg.index

theorem enter_of_switched {regs : PtRegs} {r : Reg} (hr : r ∈ switchedRegs) :
    entry.enter regs r = regs r := by
  cases r <;> first | rfl | simp [switchedRegs] at hr

theorem PairSim.agree (h : PairSim entry s) : Agree s.multi s.single := by
  refine ⟨h.activeIndex, fun tgid index => ?_, h.regs, fun tgid index f g hf hg hstill r hr => ?_⟩
  · have hfiber := h.kernel.fiber tgid index
    generalize fiberOf s.multi.kernel tgid index = x at hfiber ⊢
    generalize s.single.kernel.fiber tgid index = y at hfiber ⊢
    cases hfiber with
    | none => rfl
    | some hfg => exact congrArg some hfg.running
  · have hfiber := h.kernel.fiber tgid index
    rw [hf, hg] at hfiber
    cases hfiber with
    | some hfg => rw [hfg.saved hstill, enter_of_switched hr]

/-- At every point of a run of the two modules side by side, the next requests
return with the same value, and what a user sees afterwards is the same. -/
theorem multi_refines_single {regs : Pid × Pid → PtRegs} {fpu fpu' : Pid × Pid → Fpu}
    {as : List PairAction} (h : Run (PairStep entry) (Pair.init regs fpu fpu') as s)
    (tgid pid : Pid) (arg : Word) (hcmd : Switching cmd) (henv : Succeeds env env') :
    ∃ r r', s.requests entry tgid pid cmd arg env env' = .ok (r, r') ∧ r.ret = r'.ret ∧
      Agree (s.resume entry tgid pid r r').multi (s.resume entry tgid pid r r').single := by
  obtain ⟨r, r', hr, hret, hsim⟩ := (pairSim_run h).requests tgid pid arg hcmd henv
  exact ⟨r, r', hr, hret, hsim.agree⟩

/-- `multi_refines_single` for the way back to a fiber that was switched away from
with 42 in its registers. -/
theorem multi_refines_single_switch : ∃ (s : Pair) (r : Module.Reply) (r' : Reply),
    s.requests ⟨16, 0x33, 0x2b⟩ 7 7 .switchToFiber 0 Module.Env.plain
      (Env.good ⟨0, 0, 0⟩ ⟨0, 0⟩ 9) = .ok (r, r') ∧
    r.context.regs .r15 = 42 ∧ r.ret = r'.ret ∧
    Agree (s.resume ⟨16, 0x33, 0x2b⟩ 7 7 r r').multi
      (s.resume ⟨16, 0x33, 0x2b⟩ 7 7 r r').single := by
  let entry : SyscallEntry := ⟨16, 0x33, 0x2b⟩
  let env : Env := Env.good ⟨0, 0, 0⟩ ⟨0, 0⟩ 9
  have henv : Succeeds Module.Env.plain env :=
    ⟨fun _ => rfl, rfl, fun _ => rfl, rfl, rfl, rfl⟩
  obtain ⟨s, hrun, hp⟩ := Lib.exists_run (fun s => Pair.exec s entry) (fun _ _ => true)
    (Pair.init (fun _ _ => 0) (fun _ => 0) fun _ => 0)
    [.ioctl 7 7 .convertToFiber 0 Module.Env.plain env,
      .ioctl 7 7 .createFiber 0 Module.Env.plain env, .user 7 7 (fun _ => 42) 0 0,
      .ioctl 7 7 .switchToFiber 1 Module.Env.plain env, .user 7 7 (fun _ => 43) 0 0]
    (fun s => (s.requests entry 7 7 .switchToFiber 0 Module.Env.plain env).toOption.any
      fun rs => rs.1.context.regs .r15 == 42) (by decide +kernel)
  have hpairs : Run (PairStep entry) _ _ s :=
    (hrun.restrict (P := PairAction.admissible)
      (by simp [PairAction.admissible, Switching, henv])).mono fun _ _ _ h => ⟨h.1, h.2.2⟩
  obtain ⟨r, r', hr, hret, hagree⟩ :=
    multi_refines_single hpairs 7 7 0 (Or.inr (Or.inr rfl)) henv
  obtain ⟨rs, hrs, h15⟩ := of_toOption_any hp
  rw [hr, Except.ok.injEq] at hrs
  rw [← hrs] at h15
  exact ⟨s, r, r', hr, eq_of_beq h15, hret, hagree⟩

end LinuxFibers.Single
