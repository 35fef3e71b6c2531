import LinuxFibers.Lib.Product
import LinuxFibers.Module.Lifetime
import LinuxFibers.Module.ProcessRequests

/-!
# The processes do not see each other

The module serves all processes from one table, one heap and one counter of
threads.  `component_run` says that for each process this is the same as a
module of its own: what its threads ask for and what they are answered, in the
order of the run, is a run of `Component`, which knows no address and no other
process.

The counter of threads is the only thing that the processes share in effect.
`Pre_Handler` releases the record of a process when no process has a converted
thread left, so the step of the last thread of a process has two outcomes.  As
long as a process keeps a converted thread its answers follow from its own
actions alone (`isolated`).

The module has one more way between processes, and the runs here do not take it.
`FLSSETVALUE` and `FLSFREE` write through an index that is not checked against the
fiber, and behind its saved registers they can write into any other object.  A run
of `Step` ends at such a request (`request_stops_iff`).
-/

namespace LinuxFibers.Module

open LinuxFibers.Lib HashTable

/-- A process with the contexts of its threads. -/
structure Component where
  process : Option Process
  context : Pid → Context

/-- What a process does. -/
inductive Input where
  | user (pid : Pid) (c : Context)
  | ioctl (pid : Pid) (cmd : Command) (arg : Word) (env : Env)
  | exit (pid : Pid)

namespace Component

/-- `current` when a thread of the process makes a request. -/
def task (m : Component) (id pid : Pid) : Task := { m.context pid with tgid := id, pid := pid }

/-- The process after a request, with the value of the request in `ax`. -/
def resume (m : Component) (pid : Pid) (x : Answer) (o : Option Process) : Component where
  process := o
  context := Function.update m.context pid
    { x.context with regs := Function.update x.context.regs .ax (BitVec.ofInt 64 x.ret) }

/-- The steps of the process `id`.  The last thread takes the process with it, or
leaves it behind. -/
inductive Step (id : Pid) : Component → Input × Option Answer → Component → Prop where
  | user {m : Component} {pid : Pid} {c : Context} :
      Step id m (.user pid c, none) { m with context := Function.update m.context pid c }
  | ioctl {m : Component} {pid : Pid} {cmd : Command} {arg : Word} {env : Env} {x : Answer}
      {o : Option Process} :
      Process.request m.process (m.task id pid) cmd arg env = .ok (x, o) →
      Step id m (.ioctl pid cmd arg env, some x) (m.resume pid x o)
  | exit {m : Component} {pid : Pid} :
      Step id m (.exit pid, none) { m with process := m.process.map fun P => P.exit pid }
  | last {m : Component} {pid : Pid} {P : Process} :
      m.process = some P → (∀ thr, P.active thr ≠ none ↔ thr = pid) →
      Step id m (.exit pid, none) { m with process := none }

/-- The process keeps a converted thread. -/
def Stays (m : Component) : Input → Prop
  | .exit pid => ∀ P, m.process = some P → P.active pid ≠ none →
      ∃ thr, thr ≠ pid ∧ P.active thr ≠ none
  | _ => True

theorem step_exit {id pid : Pid} {m n : Component} (hcontext : n.context = m.context)
    (hprocess : n.process = m.process.map fun P => P.exit pid) :
    Step id m (.exit pid, none) n := by
  obtain ⟨o, c⟩ := n
  obtain rfl : c = m.context := hcontext
  obtain rfl : o = m.process.map fun P => P.exit pid := hprocess
  exact Step.exit

theorem step_last {id pid : Pid} {m n : Component} {P : Process}
    (hcontext : n.context = m.context) (hP : m.process = some P)
    (hlast : ∀ thr, P.active thr ≠ none ↔ thr = pid) (hgone : n.process = none) :
    Step id m (.exit pid, none) n := by
  obtain ⟨o, c⟩ := n
  obtain rfl : c = m.context := hcontext
  obtain rfl : o = none := hgone
  exact Step.last hP hlast

theorem settled_of_stays {id : Pid} {m : Component} {x : Input} (h : m.Stays x) :
    Settled (Step id) m x := by
  intro y y' n n' hstep hstep'
  cases x with
  | user pid c =>
    cases hstep
    cases hstep'
    exact ⟨rfl, rfl⟩
  | ioctl pid cmd arg env =>
    cases hstep with
    | ioctl hr =>
      cases hstep' with
      | ioctl hr' =>
        rw [hr, Except.ok.injEq, Prod.mk.injEq] at hr'
        obtain ⟨rfl, rfl⟩ := hr'
        exact ⟨rfl, rfl⟩
  | exit pid =>
    -- the process stays, so that the thread is not its last one
    have hnot : ∀ P, m.process = some P → ¬ ∀ thr, P.active thr ≠ none ↔ thr = pid := by
      intro P hP hlast
      obtain ⟨thr, hne, hactive⟩ := h P hP ((hlast pid).mpr rfl)
      exact hne ((hlast thr).mp hactive)
    cases hstep with
    | last hP hlast => exact absurd hlast (hnot _ hP)
    | exit =>
      cases hstep' with
      | last hP hlast => exact absurd hlast (hnot _ hP)
      | exit => exact ⟨rfl, rfl⟩

end Component

/-! ## The module as the product of the processes -/

/-- A process in the system. -/
def System.component (s : System) (id : Pid) : Component :=
  ⟨s.kernel.process id, fun pid => s.context (id, pid)⟩

/-- What the process `id` does in an action. -/
def inputOf (id : Pid) : Action → Option Input
  | .user tgid pid c => if tgid = id then some (.user pid c) else none
  | .ioctl tgid pid cmd arg env => if tgid = id then some (.ioctl pid cmd arg env) else none
  | .exit tgid pid => if tgid = id then some (.exit pid) else none

/-- What the process `id` does in a step, with the answer that it gets. -/
def heard (id : Pid) : System × Action → Option (Input × Option Answer)
  | (_, .user tgid pid c) => if tgid = id then some (.user pid c, none) else none
  | (s, .ioctl tgid pid cmd arg env) =>
      if tgid = id then
        some (.ioctl pid cmd arg env, (s.request tgid pid cmd arg env).toOption.map Reply.answer)
      else none
  | (_, .exit tgid pid) => if tgid = id then some (.exit pid, none) else none

variable {s t : System} {id pid tgid : Pid} {cmd : Command} {arg : Word} {env : Env} {r : Reply}
  {k : Kernel}

theorem context_update_self (f : Pid × Pid → Context) (c : Context) :
    (fun thr => Function.update f (id, pid) c (id, thr)) =
      Function.update (fun thr => f (id, thr)) pid c := by
  funext thr
  by_cases h : thr = pid
  · subst h
    rw [Function.update_self, Function.update_self]
  · rw [Function.update_of_ne h, Function.update_of_ne fun heq => h (Prod.mk.inj heq).2]

theorem context_update_of_ne (f : Pid × Pid → Context) (c : Context) (h : id ≠ tgid) :
    (fun thr => Function.update f (tgid, pid) c (id, thr)) = fun thr => f (id, thr) := by
  funext thr
  rw [Function.update_of_ne fun heq => h (Prod.mk.inj heq).1]

/-- The converted threads of a process. -/
theorem active_ne_none_iff (hok : KernelOk k) {P : Process} (hP : k.process id = some P) :
    P.active pid ≠ none ↔ pid ∈ pidsOf (k.record id) := by
  obtain ⟨p, hp, rfl⟩ := Option.map_eq_some_iff.mp hP
  have hl := hok.linked _ _ hp
  rw [hp, Option.ne_none_iff_exists']
  constructor
  · rintro ⟨i, hi⟩
    obtain ⟨t, ht, _, _, hpid, _⟩ := (active_eq_some hl).mp hi
    exact List.mem_map.mpr ⟨t, ht, hpid⟩
  · intro hmem
    obtain ⟨t, ht, hpid⟩ := List.mem_map.mp hmem
    obtain ⟨f, hf, hactive, _⟩ := active_of_mem hl (hok.owned _ _ hp) ht
    exact ⟨f.obj.index, (active_eq_some hl).mpr ⟨t, ht, f, hf, hpid, hactive, rfl⟩⟩

theorem component_request (hok : KernelOk s.kernel)
    (hr : s.request id pid cmd arg env = .ok r) :
    Component.Step id (s.component id) (.ioctl pid cmd arg env, some r.answer)
      ((s.resume id pid r).component id) := by
  have hseen := @seen_request s.kernel (s.task id pid) cmd arg env hok
  have hreply : myIoctl s.kernel (s.task id pid) cmd arg env = .ok r := hr
  rw [hreply] at hseen
  have hstep := Component.Step.ioctl (m := s.component id) hseen.symm
  have hview : (s.resume id pid r).component id =
      (s.component id).resume pid r.answer (r.kernel.process id) := by
    unfold System.component System.resume Component.resume
    dsimp only
    rw [context_update_self]
    rfl
  rw [hview]
  exact hstep

theorem component_exit {tr : List (System × Action)} (hok : KernelOk s.kernel)
    (hc : Counted tr s) (hx : preHandler s.kernel id pid = .ok k) :
    Component.Step id (s.component id) (.exit pid, none)
      (System.component { s with kernel := k } id) := by
  have he := exited hok.toTables hx
  rcases he.change with ⟨rfl, hnone⟩ | ⟨e, th, a, old, hfound, hthread, hactive, hold, hrem⟩
  · -- the thread was not converted
    refine Component.step_exit rfl ?_
    show s.kernel.process id = (s.kernel.process id).map fun P => P.exit pid
    unfold Kernel.process
    cases hp : s.kernel.record id with
    | none => rfl
    | some p =>
      rw [Option.map_some, Option.map_some, Process.exit, active_of_search_none (hnone p hp)]
  · obtain ⟨hmem, rfl⟩ := of_searchProcess hfound
    obtain ⟨hth, rfl⟩ := of_searchThread hthread
    obtain ⟨f, hf, rfl, _⟩ := mem_of_deref hold
    have hrec := record_of_searchProcess hfound
    have hprocess : s.kernel.process e.obj.pid = some e.obj.toProcess := by
      rw [Kernel.process, hrec]
      rfl
    have hafter := hrem.record
    split at hafter
    · have hgone : k.process e.obj.pid = none := by
        rw [Kernel.process, hafter]
        rfl
      refine Component.step_last rfl hprocess (fun thr => ?_) hgone
      have hpids := (exit_pids hok hc hx).2 e.obj.pid thr
      rw [active_ne_none_iff hok hprocess]
      rw [hafter] at hpids
      constructor
      · intro hin
        by_contra hne
        have hleft := hpids.mpr ⟨hin, fun h => hne h.2.symm⟩
        cases hleft
      · rintro rfl
        rw [hrec]
        exact List.mem_map.mpr ⟨th, hth, rfl⟩
    · refine Component.step_exit rfl ?_
      show k.process e.obj.pid = (s.kernel.process e.obj.pid).map fun P => P.exit th.obj.pid
      rw [hprocess, Kernel.process, hafter, Option.map_some, Option.map_some,
        toProcess_exit (hok.linked _ _ hrec) (hok.owned _ _ hrec) hth hf hactive]

/-- A step of one process leaves the others. -/
theorem component_of_ne {m : Action} (hok : KernelOk s.kernel) (h : Step s m t)
    (hheard : heard id (s, m) = none) : t.component id = s.component id := by
  unfold System.component
  cases m with
  | user tgid pid c =>
    cases h
    have hne : tgid ≠ id := fun heq => by simp [heard, heq] at hheard
    rw [context_update_of_ne _ _ hne.symm]
  | ioctl tgid pid cmd arg env =>
    obtain ⟨r, hr, rfl⟩ := step_ioctl h
    have hne : tgid ≠ id := fun heq => by simp [heard, heq] at hheard
    show Component.mk (r.kernel.process id) _ = _
    rw [Kernel.process, record_of_request hok hr hne.symm]
    congr 1
    exact context_update_of_ne _ _ hne.symm
  | exit tgid pid =>
    obtain ⟨k, hk, rfl⟩ := step_exit h
    have hne : tgid ≠ id := fun heq => by simp [heard, heq] at hheard
    show Component.mk (k.process id) _ = _
    rw [Kernel.process, (exited hok.toTables hk).others id hne.symm]
    rfl

/-- A step of a process is one of its component. -/
theorem component_of_heard {m : Action} {x : Input × Option Answer}
    {tr : List (System × Action)} (hok : KernelOk s.kernel) (hc : Counted tr s) (h : Step s m t)
    (hheard : heard id (s, m) = some x) :
    Component.Step id (s.component id) x (t.component id) := by
  cases m with
  | user tgid pid c =>
    cases h
    obtain ⟨rfl, rfl⟩ := Option.ite_some_none_eq_some.mp hheard
    unfold System.component
    dsimp only
    rw [context_update_self]
    exact Component.Step.user
  | ioctl tgid pid cmd arg env =>
    obtain ⟨r, hr, rfl⟩ := step_ioctl h
    obtain ⟨rfl, rfl⟩ := Option.ite_some_none_eq_some.mp hheard
    rw [hr]
    exact component_request hok hr
  | exit tgid pid =>
    obtain ⟨k, hk, rfl⟩ := step_exit h
    obtain ⟨rfl, rfl⟩ := Option.ite_some_none_eq_some.mp hheard
    exact component_exit hok hc hk

/-- The system is made of its processes. -/
theorem parts_component :
    Parts (Recorded Step) (fun s => KernelOk s.kernel ∧ ∃ tr, Counted tr s)
      (fun id s => s.component id) heard Component.Step where
  keeps s m t hs hm := by
    obtain ⟨hok, tr, hc⟩ := hs
    exact ⟨kernelOk_step hok hm.2, _, counted_step hok hc hm⟩
  own s m t id x hs hm hx := by
    obtain ⟨hok, tr, hc⟩ := hs
    obtain ⟨s', a⟩ := m
    obtain ⟨rfl, hstep⟩ := hm
    exact component_of_heard hok hc hstep hx
  frame s m t id hs hm hx := by
    obtain ⟨s', a⟩ := m
    obtain ⟨rfl, hstep⟩ := hm
    exact component_of_ne hs.1 hstep hx

/-- In every run of the module in which no request reaches behind the registers of
a fiber, each process sees a run of its own: what its threads asked for and were
answered is a run of `Component` from an empty process, and it ends in what the
module keeps for the process. -/
theorem component_run {context : Pid × Pid → Context} {tr : List (System × Action)}
    (h : Run (Recorded Step) (System.init context) tr s) (id : Pid) :
    Run (Component.Step id) ⟨none, fun pid => context (id, pid)⟩ (tr.filterMap (heard id))
      (s.component id) :=
  (parts_component.project ⟨kernelOk_init, [], counted_init context⟩ h id).2

/-! ## Isolation -/

/-- The step is not the exit of the only converted thread of the process. -/
def Stays (id : Pid) : System × Action → Prop
  | (s, .exit tgid pid) => tgid = id → pidsOf (s.kernel.record id) ≠ [pid]
  | _ => True

instance (id : Pid) (m : System × Action) : Decidable (Stays id m) :=
  match m with
  | (s, .exit tgid pid) =>
      inferInstanceAs (Decidable (tgid = id → pidsOf (s.kernel.record id) ≠ [pid]))
  | (_, .user _ _ _) => inferInstanceAs (Decidable True)
  | (_, .ioctl _ _ _ _ _) => inferInstanceAs (Decidable True)

theorem stays_component (hok : KernelOk s.kernel) {m : Action} {x : Input × Option Answer}
    (hheard : heard id (s, m) = some x) (h : Stays id (s, m)) : (s.component id).Stays x.1 := by
  cases m with
  | user tgid pid c =>
    obtain ⟨_, rfl⟩ := Option.ite_some_none_eq_some.mp hheard
    exact trivial
  | ioctl tgid pid cmd arg env =>
    obtain ⟨_, rfl⟩ := Option.ite_some_none_eq_some.mp hheard
    exact trivial
  | exit tgid pid =>
    obtain ⟨htgid, rfl⟩ := Option.ite_some_none_eq_some.mp hheard
    intro P hP hactive
    have hmem := (active_ne_none_iff hok hP).mp hactive
    obtain ⟨p, hp, rfl⟩ := Option.map_eq_some_iff.mp hP
    have hmany := h htgid
    rw [hp] at hmem hmany
    by_contra hnone
    refine hmany (pids_eq_singleton (hok.linked _ _ hp) hmem fun thr hthr => ?_)
    by_contra hne
    refine hnone ⟨thr, hne, (active_ne_none_iff hok hP).mpr ?_⟩
    rw [hp]
    exact hthr

/-- The steps that leave the process `id` a converted thread are settled for
it. -/
theorem parts_settled (id : Pid) :
    Parts (fun s m t => Stays id m ∧ Recorded Step s m t)
      (fun s => KernelOk s.kernel ∧ ∃ tr, Counted tr s)
      (fun (_ : Unit) s => s.component id) (fun _ => heard id)
      (fun _ m x n => Settled (Component.Step id) m x.1 ∧ Component.Step id m x n) where
  keeps s m t hs hm := parts_component.keeps s m t hs hm.2
  own s m t _ x hs hm hx := by
    have hstep := parts_component.own s m t id x hs hm.2 hx
    obtain ⟨s', a⟩ := m
    obtain ⟨hstays, rfl, _⟩ := hm
    exact ⟨Component.settled_of_stays (stays_component hs.1 hx hstays), hstep⟩
  frame s m t _ hs hm hx := parts_component.frame s m t id hs hm.2 hx

/-- The inputs that a process is heard with are those of its actions. -/
theorem map_fst_heard (tr : List (System × Action)) :
    (tr.filterMap (heard id)).map Prod.fst = (tr.map Prod.snd).filterMap (inputOf id) := by
  rw [List.map_filterMap, List.filterMap_map]
  apply List.filterMap_congr
  rintro ⟨s, a⟩ _
  cases a <;> simp only [heard, inputOf, Function.comp] <;> split <;> rfl

/-- The values that the requests of a process returned. -/
def returns (id : Pid) (tr : List (System × Action)) : List ℤ :=
  (tr.filterMap (heard id)).filterMap fun x => x.2.map Answer.ret

/-- Two threads of the process 7 convert themselves, and the one that stays
switches to a fiber. -/
def aloneActions : List Action :=
  [.ioctl 7 7 .convertToFiber 0 Env.plain, .ioctl 7 7 .createFiber 0 Env.plain,
    .ioctl 7 8 .convertToFiber 0 Env.plain, .exit 7 8, .ioctl 7 7 .switchToFiber 1 Env.plain]

/-- The same among actions of the process 9. -/
def togetherActions : List Action :=
  [.ioctl 9 9 .convertToFiber 0 Env.plain, .ioctl 7 7 .convertToFiber 0 Env.plain,
    .ioctl 9 9 .createFiber 0 Env.plain, .ioctl 7 7 .createFiber 0 Env.plain,
    .ioctl 7 8 .convertToFiber 0 Env.plain, .ioctl 9 9 .switchToFiber 1 Env.plain, .exit 7 8,
    .exit 9 9, .ioctl 7 7 .switchToFiber 1 Env.plain]

/-- `component_run` for one of two processes. -/
theorem component_run_together : ∃ (tr : List (System × Action)) (s : System),
    returns 7 tr = [0, 1, 2, 0] ∧
    Run (Component.Step 7) ⟨none, fun pid => zeroContext (7, pid)⟩ (tr.filterMap (heard 7))
      (s.component 7) := by
  obtain ⟨tr, s, hrun, _, hp⟩ := exists_history_labels System.exec (System.init zeroContext)
    togetherActions (fun tr _ => returns 7 tr == [0, 1, 2, 0]) (by decide +kernel)
  exact ⟨tr, s, beq_iff_eq.mp hp, component_run hrun 7⟩

/-- The index that a process gets after its last thread ended shows whether
another process has a converted thread. -/
theorem not_isolated_after_last_exit : ∃ (tr tr' : List (System × Action)) (s t : System),
    Run (Recorded Step) (System.init zeroContext) tr s ∧
    Run (Recorded Step) (System.init zeroContext) tr' t ∧
    (tr.map Prod.snd).filterMap (inputOf 7) = (tr'.map Prod.snd).filterMap (inputOf 7) ∧
    returns 7 tr = [0, 0] ∧ returns 7 tr' = [0, 1] := by
  obtain ⟨tr, s, hrun, hacts, hp⟩ := exists_history_labels System.exec (System.init zeroContext)
    [.ioctl 7 7 .convertToFiber 0 Env.plain, .exit 7 7, .ioctl 7 8 .convertToFiber 0 Env.plain]
    (fun tr _ => returns 7 tr == [0, 0]) (by decide +kernel)
  obtain ⟨tr', t, hrun', hacts', hp'⟩ := exists_history_labels System.exec
    (System.init zeroContext)
    [.ioctl 9 9 .convertToFiber 0 Env.plain, .ioctl 7 7 .convertToFiber 0 Env.plain, .exit 7 7,
      .ioctl 7 8 .convertToFiber 0 Env.plain]
    (fun tr _ => returns 7 tr == [0, 1]) (by decide +kernel)
  refine ⟨tr, tr', s, t, hrun, hrun', ?_, beq_iff_eq.mp hp, beq_iff_eq.mp hp'⟩
  rw [hacts, hacts']
  rfl

end LinuxFibers.Module
