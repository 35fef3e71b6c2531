import LinuxFibers.Module.Ownership
import Mathlib.Data.Finset.Card

/-!
# The lifetime of process records

A thread is live from its conversion to its exit, which is a matter of the
history (`Live`).  `Counted` says that the threads linked in the records are the
live threads and that `count_threads` is their number, over all processes.

`Pre_Handler` releases a record when `count_threads` is 0, so a record outlives
its last thread when another process has a live thread, and it releases no fiber
but the active one.  `record_outlives_threads` is such a run.
`record_iff_live` says that nothing else goes wrong: the lifetimes are right when
a last thread always exits alone and takes the last fiber with it
(`endsClean`).
-/

namespace LinuxFibers.Module

open LinuxFibers.Lib HashTable

/-- The ids of the threads of a record. -/
def ProcessArg.pids (p : ProcessArg) : List Pid := p.threads.map fun t => t.obj.pid

/-- The ids of the converted threads of a process. -/
def pidsOf (o : Option ProcessArg) : List Pid := o.elim [] ProcessArg.pids

/-- Whether a step converts a thread (`true`) or ends it (`false`). -/
def converts (tgid pid : Pid) : System × Action → Option Bool
  | (s, .ioctl id thr .convertToFiber arg env) =>
      match s.request id thr .convertToFiber arg env with
      | .ok r => if id = tgid ∧ thr = pid ∧ 0 ≤ r.ret then some true else none
      | .error _ => none
  | (_, .exit id thr) => if id = tgid ∧ thr = pid then some false else none
  | _ => none

/-- The thread was converted and has not exited since. -/
def Live (tr : List (System × Action)) (tgid pid : Pid) : Prop :=
  latest (converts tgid pid) tr = some true

/-- The threads in the records are the live ones, and `count_threads` is their
number. -/
structure Counted (tr : List (System × Action)) (s : System) : Prop where
  live : ∀ tgid pid, Live tr tgid pid ↔ pid ∈ pidsOf (s.kernel.record tgid)
  count : ∃ L : Finset (Pid × Pid), s.kernel.countThreads = L.card ∧
    ∀ tgid pid, (tgid, pid) ∈ L ↔ pid ∈ pidsOf (s.kernel.record tgid)

variable {s t : System} {tr : List (System × Action)} {id pid : Pid} {cmd : Command}
  {arg : Word} {env : Env} {r : Reply}

/-! ## The threads after a request -/

/-- A conversion that succeeds adds the caller, and nothing else changes the
threads of a record. -/
theorem change_pids {k : Kernel} {cur : Task} {brk : ℕ} {o o' : Option ProcessArg}
    (hc : Change k cur arg env r cmd o o') (hl : ∀ p, o = some p → Linked brk p) :
    (¬ (cmd = .convertToFiber ∧ 0 ≤ r.ret) ∧ pidsOf o' = pidsOf o) ∨
      (cmd = .convertToFiber ∧ 0 ≤ r.ret) ∧ pidsOf o' = cur.pid :: pidsOf o ∧
        cur.pid ∉ pidsOf o := by
  cases hc with
  | idle hneg =>
    refine Or.inl ⟨?_, rfl⟩
    rintro ⟨rfl, h0⟩
    have := hneg rfl
    omega
  | opened _ hneg =>
    refine Or.inl ⟨?_, rfl⟩
    rintro ⟨_, h0⟩
    omega
  | @converted o p t f hsource hthread _ _ _ _ _ hret =>
    have hpids : pidsOf o = p.pids := by
      rcases hsource with rfl | ⟨rfl, rfl⟩ <;> rfl
    refine Or.inr ⟨⟨rfl, by omega⟩, ?_, ?_⟩
    · rw [hpids]
      rfl
    · rw [hpids]
      intro hmem
      obtain ⟨x, hx, hpid⟩ := List.mem_map.mp hmem
      have hp : Linked brk p := by
        rcases hsource with heq | ⟨_, rfl⟩
        · exact hl p heq
        · exact linked_newProcess _ _
      exact ne_of_searchThread_none hp hthread hx hpid
  | created => exact Or.inl ⟨by simp, rfl⟩
  | failed => exact Or.inl ⟨by simp, rfl⟩
  | @switched p fiber thread a old next =>
    refine Or.inl ⟨by simp, ?_⟩
    rw [switch_eq]
    simp only [pidsOf, Option.elim, ProcessArg.pids, HashTable.mapObj, List.map_map]
    apply List.map_congr_left
    intro x _
    exact switchedThread_pid _ _ x
  | stored _ _ _ hw =>
    refine Or.inl ⟨?_, rfl⟩
    rintro ⟨rfl, _⟩
    rcases hw.command with hw | hw | hw <;> cases hw

/-- A request converts its caller exactly when it is a conversion that
succeeds. -/
theorem converts_request (hr : s.request id pid cmd arg env = .ok r) (tgid thr : Pid) :
    converts tgid thr (s, .ioctl id pid cmd arg env) =
      if id = tgid ∧ pid = thr ∧ cmd = .convertToFiber ∧ 0 ≤ r.ret then some true else none := by
  cases cmd with
  | convertToFiber => simp only [converts, hr, true_and]
  | createFiber => simp [converts]
  | switchToFiber => simp [converts]
  | flsAlloc => simp [converts]
  | flsFree => simp [converts]
  | flsGetValue => simp [converts]
  | flsSetValue => simp [converts]
  | other => simp [converts]

theorem converts_exit (proId thrId tgid pid : Pid) :
    converts tgid pid (s, .exit proId thrId) =
      if proId = tgid ∧ thrId = pid then some false else none :=
  rfl

/-- The threads of a record after the exit of `th`. -/
theorem mem_pids_exit {brk : ℕ} {p : ProcessArg} (hl : Linked brk p) {th : Entry ThreadArg}
    (hth : th ∈ p.threads) (a : ℕ) (thr : Pid) :
    thr ∈ (p.exit th.addr a).pids ↔ thr ∈ p.pids ∧ thr ≠ th.obj.pid := by
  constructor
  · intro h
    obtain ⟨x, hx, rfl⟩ := List.mem_map.mp h
    obtain ⟨hx, hne⟩ := mem_hashDel.mp hx
    refine ⟨List.mem_map.mpr ⟨x, hx, rfl⟩, fun heq => hne ?_⟩
    rw [hl.pid_inj x hx th hth heq]
  · rintro ⟨h, hne⟩
    obtain ⟨x, hx, rfl⟩ := List.mem_map.mp h
    refine List.mem_map.mpr ⟨x, mem_hashDel.mpr ⟨hx, fun haddr => hne ?_⟩, rfl⟩
    rw [hl.threads_unique.eq_of_addr hx hth haddr]

/-! ## Steps -/

theorem counted_request (hok : KernelOk s.kernel) (hc : Counted tr s)
    (hr : s.request id pid cmd arg env = .ok r) :
    Counted (tr ++ [(s, .ioctl id pid cmd arg env)]) (s.resume id pid r) := by
  have hq : Requested s.kernel (s.task id pid) cmd arg env r := requested hok.toTables hr
  obtain ⟨L, hcount, hL⟩ := hc.count
  have hcases := change_pids hq.change fun p hp => hok.linked id p hp
  change (¬ _ ∧ pidsOf (r.kernel.record id) = pidsOf (s.kernel.record id)) ∨ _ ∧
    pidsOf (r.kernel.record id) = pid :: pidsOf (s.kernel.record id) ∧
      pid ∉ pidsOf (s.kernel.record id) at hcases
  rcases hcases with ⟨hnot, hpids⟩ | ⟨hconv, hpids, hnew⟩
  · have hsame : ∀ tgid, pidsOf (r.kernel.record tgid) = pidsOf (s.kernel.record tgid) := by
      intro tgid
      by_cases hid : tgid = id
      · rw [hid, hpids]
      · rw [hq.others tgid hid]
    have hnone : ∀ tgid thr, converts tgid thr (s, .ioctl id pid cmd arg env) = none := by
      intro tgid thr
      rw [converts_request hr, if_neg]
      rintro ⟨_, _, h⟩
      exact hnot h
    refine ⟨fun tgid thr => ?_, L, ?_, fun tgid thr => ?_⟩
    · rw [Live, latest_snoc_of_none (hnone tgid thr)]
      exact (hc.live tgid thr).trans (by rw [← hsame tgid]; rfl)
    · exact hq.countThreads.trans (by rw [if_neg hnot, hcount, Int.add_zero])
    · exact (hL tgid thr).trans (by rw [← hsame tgid]; rfl)
  · have hmem : ∀ tgid thr, thr ∈ pidsOf (r.kernel.record tgid) ↔
        (id = tgid ∧ pid = thr) ∨ thr ∈ pidsOf (s.kernel.record tgid) := by
      intro tgid thr
      by_cases hid : tgid = id
      · subst hid
        rw [hpids, List.mem_cons, eq_comm]
        simp
      · rw [hq.others tgid hid]
        simp [Ne.symm hid]
    refine ⟨fun tgid thr => ?_, insert (id, pid) L, ?_, fun tgid thr => ?_⟩
    · refine Iff.trans ?_ (hmem tgid thr).symm
      have hsays := converts_request hr tgid thr
      by_cases hself : id = tgid ∧ pid = thr
      · rw [if_pos ⟨hself.1, hself.2, hconv⟩] at hsays
        rw [Live, latest_snoc_of_some hsays]
        exact ⟨fun _ => Or.inl hself, fun _ => rfl⟩
      · rw [if_neg fun h => hself ⟨h.1, h.2.1⟩] at hsays
        rw [Live, latest_snoc_of_none hsays]
        exact (hc.live tgid thr).trans ⟨Or.inr, fun h => h.resolve_left hself⟩
    · have hnotin : (id, pid) ∉ L := fun h => hnew ((hL id pid).mp h)
      rw [Finset.card_insert_of_notMem hnotin]
      exact hq.countThreads.trans (by rw [if_pos hconv, hcount]; rfl)
    · refine Iff.trans ?_ (hmem tgid thr).symm
      rw [Finset.mem_insert, Prod.mk.injEq, hL tgid thr]
      exact or_congr ⟨fun h => ⟨h.1.symm, h.2.symm⟩, fun h => ⟨h.1.symm, h.2.symm⟩⟩ Iff.rfl

/-- The exit of a thread, converted or not. -/
theorem exit_pids {k : Kernel} {proId thrId : Pid} (hok : KernelOk s.kernel) (hc : Counted tr s)
    (hx : preHandler s.kernel proId thrId = .ok k) :
    (∃ L : Finset (Pid × Pid), k.countThreads = L.card ∧
      ∀ tgid pid, (tgid, pid) ∈ L ↔ pid ∈ pidsOf (k.record tgid)) ∧
      ∀ tgid pid, pid ∈ pidsOf (k.record tgid) ↔
        pid ∈ pidsOf (s.kernel.record tgid) ∧ ¬ (proId = tgid ∧ thrId = pid) := by
  have he := exited hok.toTables hx
  obtain ⟨L, hcount, hL⟩ := hc.count
  rcases he.change with ⟨rfl, hnone⟩ | ⟨e, th, a, old, hfound, hthread, _, _, hrem⟩
  · refine ⟨⟨L, hcount, hL⟩, fun tgid pid => ⟨fun h => ⟨h, ?_⟩, And.left⟩⟩
    rintro ⟨rfl, rfl⟩
    cases hp : s.kernel.record proId with
    | none =>
      rw [hp] at h
      cases h
    | some p =>
      rw [hp] at h
      obtain ⟨x, hx, hpid⟩ := List.mem_map.mp h
      exact ne_of_searchThread_none (hok.linked _ _ hp) (hnone p hp) hx hpid
  · obtain ⟨hmem, rfl⟩ := of_searchProcess hfound
    obtain ⟨hth, rfl⟩ := of_searchThread hthread
    have hrec := record_of_mem hok.toTables hmem
    have hl := hok.linked _ _ hrec
    have hin : (e.obj.pid, th.obj.pid) ∈ L := by
      rw [hL, hrec]
      exact List.mem_map.mpr ⟨th, hth, rfl⟩
    have hcard : k.countThreads = (L.erase (e.obj.pid, th.obj.pid)).card := by
      have := Finset.card_erase_add_one hin
      rw [hrem.countThreads, hcount]
      omega
    have hsub : ∀ tgid pid, pid ∈ pidsOf (k.record tgid) ↔
        pid ∈ pidsOf (s.kernel.record tgid) ∧ ¬ (e.obj.pid = tgid ∧ th.obj.pid = pid) := by
      intro tgid pid
      by_cases hid : tgid = e.obj.pid
      · subst hid
        rw [hrem.record]
        by_cases hzero : k.countThreads = 0
        · -- the exiting thread was the only one
          rw [if_pos hzero]
          refine ⟨fun h => (by cases h), fun h => ?_⟩
          have hempty : L.erase (e.obj.pid, th.obj.pid) = ∅ := by
            apply Finset.card_eq_zero.mp
            omega
          have hlast : (e.obj.pid, pid) ∈ L.erase (e.obj.pid, th.obj.pid) := by
            apply Finset.mem_erase.mpr
            refine ⟨fun heq => h.2 ⟨rfl, ?_⟩, (hL _ _).mpr h.1⟩
            exact (congrArg Prod.snd heq).symm
          rw [hempty] at hlast
          exact absurd hlast (Finset.notMem_empty _)
        · rw [if_neg hzero, hrec]
          refine (mem_pids_exit hl hth a pid).trans (and_congr Iff.rfl ?_)
          exact ⟨fun h h' => h h'.2.symm, fun h heq => h ⟨rfl, heq.symm⟩⟩
      · rw [he.others tgid hid]
        exact ⟨fun h => ⟨h, fun h' => hid h'.1.symm⟩, And.left⟩
    refine ⟨⟨_, hcard, fun tgid pid => ?_⟩, hsub⟩
    rw [hsub, Finset.mem_erase, hL, and_comm, Ne, Prod.mk.injEq]
    exact and_congr Iff.rfl (not_congr ⟨fun h => ⟨h.1.symm, h.2.symm⟩,
      fun h => ⟨h.1.symm, h.2.symm⟩⟩)

theorem counted_exit {k : Kernel} {proId thrId : Pid} (hok : KernelOk s.kernel)
    (hc : Counted tr s) (hx : preHandler s.kernel proId thrId = .ok k) :
    Counted (tr ++ [(s, .exit proId thrId)]) { s with kernel := k } := by
  obtain ⟨hcount, hpids⟩ := exit_pids hok hc hx
  refine ⟨fun tgid pid => ?_, hcount⟩
  refine Iff.trans ?_ (hpids tgid pid).symm
  have hsays := @converts_exit s proId thrId tgid pid
  by_cases hself : proId = tgid ∧ thrId = pid
  · rw [if_pos hself] at hsays
    rw [Live, latest_snoc_of_some hsays]
    exact ⟨fun h => (by cases h), fun h => absurd hself h.2⟩
  · rw [if_neg hself] at hsays
    rw [Live, latest_snoc_of_none hsays]
    exact (hc.live tgid pid).trans ⟨fun h => ⟨h, hself⟩, And.left⟩

theorem counted_step {m : System × Action} (hok : KernelOk s.kernel) (hc : Counted tr s)
    (h : Recorded Step s m t) : Counted (tr ++ [m]) t := by
  obtain ⟨s', a⟩ := m
  obtain ⟨rfl, hstep⟩ := h
  cases a with
  | user tgid pid c =>
    cases hstep
    refine ⟨fun id thr => ?_, hc.count⟩
    rw [Live, latest_snoc_of_none rfl]
    exact hc.live id thr
  | ioctl id pid cmd arg env =>
    obtain ⟨r, hr, rfl⟩ := step_ioctl hstep
    exact counted_request hok hc hr
  | exit proId thrId =>
    obtain ⟨k, hk, rfl⟩ := step_exit hstep
    exact counted_exit hok hc hk

theorem counted_init (context : Pid × Pid → Context) : Counted [] (System.init context) where
  live tgid pid := ⟨fun h => (by cases h), fun h => (by cases h)⟩
  count := ⟨∅, rfl, fun tgid pid =>
    ⟨fun h => absurd h (Finset.notMem_empty _), fun h => (by cases h)⟩⟩

theorem counted_run {context : Pid × Pid → Context}
    (h : Run (Recorded Step) (System.init context) tr s) : KernelOk s.kernel ∧ Counted tr s := by
  refine h.invariantTrace (I := fun tr s => KernelOk s.kernel ∧ Counted tr s) ?_
    ⟨kernelOk_init, counted_init context⟩
  intro tr s m t hs hm
  exact ⟨kernelOk_step hs.1 hm.2, counted_step hs.1 hs.2 hm⟩

/-! ## Ends that are clean -/

/-- The last thread of a process exits when no other process has a thread and no
dormant fiber is left, and no conversion leaves a record without a thread. -/
def endsClean (s : System) : Action → Bool
  | .ioctl tgid _ .convertToFiber _ env =>
      (s.kernel.record tgid).isSome || env.kzalloc .threadArg
  | .exit tgid pid =>
      match s.kernel.record tgid with
      | none => true
      | some p =>
          p.pids != [pid] ||
            (p.fibers.all fun f => f.obj.running) &&
              s.kernel.listProcess.all fun e => e.obj.pid == tgid || e.obj.pids.isEmpty
  | _ => true

/-- The steps without FLS that end clean. -/
def CleanStep (s : System) (a : Action) (t : System) : Prop :=
  endsClean s a = true ∧ FiberStep s a t

/-- Every record has a thread. -/
def Populated (k : Kernel) : Prop := ∀ tgid p, k.record tgid = some p → p.pids ≠ []

theorem populated_request (hok : KernelOk s.kernel) (hpop : Populated s.kernel)
    (hclean : endsClean s (.ioctl id pid cmd arg env) = true)
    (hr : s.request id pid cmd arg env = .ok r) : Populated r.kernel := by
  intro tgid p' hp'
  by_cases hid : tgid = id
  · subst hid
    have hc := change_of_request hok hr hp'
    generalize hbefore : s.kernel.record tgid = o at hc
    cases hc with
    | idle => exact hpop tgid p' hbefore
    | opened hfail =>
      simp [endsClean, hbefore, hfail] at hclean
    | converted => exact List.cons_ne_nil _ _
    | @created p =>
      show p.pids ≠ []
      exact hpop tgid p hbefore
    | @failed p =>
      show p.pids ≠ []
      exact hpop tgid p hbefore
    | @switched p =>
      have hne := hpop tgid p hbefore
      rw [switch_eq]
      simpa [ProcessArg.pids, HashTable.mapObj] using hne
    | @stored _ p =>
      show p.pids ≠ []
      exact hpop tgid p hbefore
  · rw [record_of_request hok hr hid] at hp'
    exact hpop tgid p' hp'

/-- The exit of the last thread of a process, when it is clean, is the exit of
the last thread of all. -/
theorem countThreads_last (hc : Counted tr s) {p : ProcessArg}
    (hp : s.kernel.record id = some p) (hpids : p.pids = [pid])
    (hothers : ∀ e ∈ s.kernel.listProcess, e.obj.pid = id ∨ e.obj.pids = []) :
    s.kernel.countThreads = 1 := by
  obtain ⟨L, hcount, hL⟩ := hc.count
  have honly : L = {(id, pid)} := by
    ext ⟨tgid, thr⟩
    rw [hL, Finset.mem_singleton, Prod.mk.injEq]
    constructor
    · intro hthr
      cases hrec : s.kernel.record tgid with
      | none =>
        rw [hrec] at hthr
        cases hthr
      | some p' =>
        rw [hrec] at hthr
        change thr ∈ p'.pids at hthr
        obtain ⟨e, he, rfl, rfl⟩ := mem_of_record hrec
        rcases hothers e he with heq | hnil
        · rw [heq, hp, Option.some.injEq] at hrec
          rw [← hrec, hpids, List.mem_singleton] at hthr
          exact ⟨heq, hthr⟩
        · rw [hnil] at hthr
          cases hthr
    · rintro ⟨rfl, rfl⟩
      rw [hp]
      change thr ∈ p.pids
      rw [hpids]
      exact List.mem_singleton_self thr
  rw [hcount, honly]
  rfl

/-- A clean exit of the last thread of a process: its record goes and its only
fiber with it. -/
theorem exit_last {k : Kernel} (hok : KernelOk s.kernel) (hc : Counted tr s)
    (hclean : endsClean s (.exit id pid) = true)
    (hx : preHandler s.kernel id pid = .ok k) {e : Entry ProcessArg}
    (he : searchProcess s.kernel id = some e) (hpids : e.obj.pids = [pid]) :
    k.record id = none ∧ e.addr ∉ k.allocated ∧ ∀ f ∈ e.obj.fibers, f.addr ∉ k.allocated := by
  obtain ⟨hmem, hid⟩ := of_searchProcess he
  subst hid
  have hrec := record_of_mem hok.toTables hmem
  have hl := hok.linked _ _ hrec
  have ho := hok.owned _ _ hrec
  simp only [endsClean, hrec, hpids, bne_self_eq_false, Bool.false_or, Bool.and_eq_true,
    List.all_eq_true, Bool.or_eq_true, beq_iff_eq, List.isEmpty_iff] at hclean
  have hone := countThreads_last hc hrec hpids hclean.2
  rcases (exited hok.toTables hx).change with ⟨rfl, hnone⟩ | ⟨e', th, a, old, he', hth, ha, _, hrem⟩
  · exfalso
    have hin : pid ∈ e.obj.pids := by
      rw [hpids]
      exact List.mem_singleton_self pid
    obtain ⟨x, hx, hpid⟩ := List.mem_map.mp hin
    exact ne_of_searchThread_none hl (hnone _ hrec) hx hpid
  · rw [he, Option.some.injEq] at he'
    subst he'
    have hzero : k.countThreads = 0 := by
      have := hrem.countThreads
      omega
    refine ⟨by rw [hrem.record, if_pos hzero], ?_, fun f hf hall => ?_⟩
    · intro hall
      exact ((hrem.allocated _).mp hall).2.2.2 hzero rfl
    · -- a fiber that runs is the active fiber of the only thread
      obtain ⟨t, ht, hactive⟩ := ho.owner f hf (hclean.1 f hf)
      obtain ⟨hthm, hthp⟩ := of_searchThread hth
      have htp : t.obj.pid ∈ e.obj.pids := List.mem_map.mpr ⟨t, ht, rfl⟩
      rw [hpids, List.mem_singleton] at htp
      have heq : t = th := hl.pid_inj t ht th hthm (by rw [htp, hthp])
      rw [heq, ha, Option.some.injEq] at hactive
      exact ((hrem.allocated _).mp hall).2.2.1 hactive.symm

/-- A record whose only thread is `pid`. -/
theorem pids_eq_singleton {brk : ℕ} {p : ProcessArg} (hl : Linked brk p)
    (hmem : pid ∈ p.pids) (hall : ∀ thr ∈ p.pids, thr = pid) : p.pids = [pid] := by
  have hnodup : p.pids.Nodup := List.Nodup.map_on hl.pid_inj hl.threads_unique.nodup
  have hrep := List.eq_replicate_of_mem hall
  rw [hrep, List.nodup_replicate] at hnodup
  have hpos := List.length_pos_of_mem hmem
  have hone : p.pids.length = 1 := by omega
  rw [hrep, hone]
  rfl

theorem populated_exit {k : Kernel} (hok : KernelOk s.kernel) (hc : Counted tr s)
    (hpop : Populated s.kernel) (hclean : endsClean s (.exit id pid) = true)
    (hx : preHandler s.kernel id pid = .ok k) : Populated k := by
  intro tgid p hp hnil
  have he := exited hok.toTables hx
  by_cases hid : tgid = id
  · subst hid
    rcases he.change with ⟨rfl, _⟩ | ⟨e, th, a, old, hfound, hthread, _, _, hrem⟩
    · exact hpop tgid p hp hnil
    · obtain ⟨hmem, rfl⟩ := of_searchProcess hfound
      obtain ⟨hth, rfl⟩ := of_searchThread hthread
      have hl := hok.linked _ _ (record_of_mem hok.toTables hmem)
      have hkeep := hp
      rw [hrem.record] at hp
      split at hp
      · cases hp
      · cases hp
        -- without another thread this was a last exit, and the record is gone
        have hall : ∀ thr ∈ e.obj.pids, thr = th.obj.pid := by
          intro thr hthr
          by_contra hne
          have hleft := (mem_pids_exit hl hth a thr).mpr ⟨hthr, hne⟩
          rw [hnil] at hleft
          cases hleft
        have hself : th.obj.pid ∈ e.obj.pids := List.mem_map.mpr ⟨th, hth, rfl⟩
        have hgone := exit_last hok hc hclean hx hfound (pids_eq_singleton hl hself hall)
        rw [hgone.1] at hkeep
        cases hkeep
  · rw [he.others tgid hid] at hp
    exact hpop tgid p hp hnil

theorem populated_step {m : System × Action} (hok : KernelOk s.kernel) (hc : Counted tr s)
    (hpop : Populated s.kernel) (h : Recorded CleanStep s m t) : Populated t.kernel := by
  obtain ⟨s', a⟩ := m
  obtain ⟨rfl, hclean, _, hstep⟩ := h
  cases a with
  | user tgid pid c =>
    cases hstep
    exact hpop
  | ioctl id pid cmd arg env =>
    obtain ⟨r, hr, rfl⟩ := step_ioctl hstep
    exact populated_request hok hpop hclean hr
  | exit proId thrId =>
    obtain ⟨k, hk, rfl⟩ := step_exit hstep
    exact populated_exit hok hc hpop hclean hk

theorem populated_run {context : Pid × Pid → Context}
    (h : Run (Recorded CleanStep) (System.init context) tr s) :
    KernelOk s.kernel ∧ Counted tr s ∧ Populated s.kernel := by
  have hall : (KernelOk s.kernel ∧ Counted tr s) ∧ Populated s.kernel := by
    refine h.invariantTrace
      (I := fun tr s => (KernelOk s.kernel ∧ Counted tr s) ∧ Populated s.kernel) ?_ ?_
    · intro tr s m t hs hm
      have hstep : Recorded Step s m t := ⟨hm.1, hm.2.2.2⟩
      exact ⟨⟨kernelOk_step hs.1.1 hm.2.2.2, counted_step hs.1.1 hs.1.2 hstep⟩,
        populated_step hs.1.1 hs.1.2 hs.2 hm⟩
    · refine ⟨⟨kernelOk_init, counted_init context⟩, ?_⟩
      intro tgid p hp
      cases hp
  exact ⟨hall.1.1, hall.1.2, hall.2⟩

/-! ## Lifetimes -/

/-- When every end is clean, a process has a record exactly while it has a live
thread, and the exit of the last one releases the record with all its fibers. -/
theorem record_iff_live {context : Pid × Pid → Context}
    (h : Run (Recorded CleanStep) (System.init context) tr s) :
    (∀ tgid, (∃ e ∈ s.kernel.listProcess, e.obj.pid = tgid) ↔ ∃ pid, Live tr tgid pid) ∧
    ∀ tgid pid t e, CleanStep s (.exit tgid pid) t → (∀ thr, Live tr tgid thr ↔ thr = pid) →
      e ∈ s.kernel.listProcess → e.obj.pid = tgid →
      (∀ x ∈ t.kernel.listProcess, x.obj.pid ≠ tgid) ∧ e.addr ∉ t.kernel.allocated ∧
        ∀ f ∈ e.obj.fibers, f.addr ∉ t.kernel.allocated := by
  obtain ⟨hok, hc, hpop⟩ := populated_run h
  refine ⟨fun tgid => ⟨?_, ?_⟩, ?_⟩
  · rintro ⟨e, he, rfl⟩
    have hrec := record_of_mem hok.toTables he
    obtain ⟨pid, hpid⟩ := List.exists_mem_of_ne_nil _ (hpop _ _ hrec)
    refine ⟨pid, (hc.live _ _).mpr ?_⟩
    rw [hrec]
    exact hpid
  · rintro ⟨pid, hlive⟩
    have hmem := (hc.live tgid pid).mp hlive
    cases hrec : s.kernel.record tgid with
    | none =>
      rw [hrec] at hmem
      cases hmem
    | some p =>
      obtain ⟨e, he, rfl, hid⟩ := mem_of_record hrec
      exact ⟨e, he, hid⟩
  · rintro tgid pid t e ⟨hclean, _, hstep⟩ honly he rfl
    have hrec := record_of_mem hok.toTables he
    have hpids : ∀ thr, thr ∈ e.obj.pids ↔ thr = pid := by
      intro thr
      rw [← honly thr, hc.live, hrec]
      rfl
    have hlast := pids_eq_singleton (hok.linked _ _ hrec) ((hpids pid).mpr rfl)
      fun thr hthr => (hpids thr).mp hthr
    obtain ⟨k, hk, rfl⟩ := step_exit hstep
    obtain ⟨hnone, hfree, hfibers⟩ :=
      exit_last hok hc hclean hk (searchProcess_of_mem hok.toTables he) hlast
    exact ⟨(record_eq_none (kernelOk_exit hok hk).toTables).mp hnone, hfree, hfibers⟩

/-- `record_iff_live` with one live thread left of two. -/
theorem record_iff_live_after_exit : ∃ (tr : List (System × Action)) (s : System),
    (Run (Recorded CleanStep) (System.init zeroContext) tr s ∧
      pidsOf (s.kernel.record 7) = [7] ∧ endsClean s (.exit 7 7) = true) ∧
    (∀ tgid, (∃ e ∈ s.kernel.listProcess, e.obj.pid = tgid) ↔ ∃ pid, Live tr tgid pid) ∧
    ∀ tgid pid t e, CleanStep s (.exit tgid pid) t → (∀ thr, Live tr tgid thr ↔ thr = pid) →
      e ∈ s.kernel.listProcess → e.obj.pid = tgid →
      (∀ x ∈ t.kernel.listProcess, x.obj.pid ≠ tgid) ∧ e.addr ∉ t.kernel.allocated ∧
        ∀ f ∈ e.obj.fibers, f.addr ∉ t.kernel.allocated := by
  obtain ⟨s, hrun, hp⟩ := exists_run_of endsClean (System.init zeroContext)
    [.ioctl 7 7 .convertToFiber 0 Env.plain, .ioctl 7 8 .convertToFiber 0 Env.plain,
      .exit 7 8]
    (fun s => pidsOf (s.kernel.record 7) == [7] && endsClean s (.exit 7 7)) (by decide +kernel)
  obtain ⟨hpids, hclean⟩ := Bool.and_eq_true_iff.mp hp
  have hfiber := hrun.restrict (P := Action.onFibers) (by simp [Action.onFibers])
  have hsteps : Run CleanStep (System.init zeroContext) _ s :=
    hfiber.mono fun _ _ _ h => ⟨h.2.1, h.1, h.2.2⟩
  obtain ⟨tr, htr⟩ := hsteps.exists_recorded
  exact ⟨tr, s, ⟨htr, by simpa using hpids, hclean⟩, record_iff_live htr⟩

/-- A record without a live thread, because a thread of another process lives,
and a fiber that outlives the record. -/
theorem record_outlives_threads :
    (∃ (tr : List (System × Action)) (s : System),
      Run (Recorded FiberStep) (System.init zeroContext) tr s ∧
      (∃ e ∈ s.kernel.listProcess, e.obj.pid = 7) ∧ ¬ ∃ pid, Live tr 7 pid) ∧
    ∃ (tr : List (System × Action)) (s t : System) (e : Entry ProcessArg),
      Run (Recorded FiberStep) (System.init zeroContext) tr s ∧ FiberStep s (.exit 7 7) t ∧
      (∀ thr, Live tr 7 thr ↔ thr = 7) ∧ e ∈ s.kernel.listProcess ∧ e.obj.pid = 7 ∧
      ∃ f ∈ e.obj.fibers, f.addr ∈ t.kernel.allocated := by
  constructor
  · obtain ⟨s, hrun, hp⟩ := exists_run (System.init zeroContext)
      [.ioctl 7 7 .convertToFiber 0 Env.plain, .ioctl 8 8 .convertToFiber 0 Env.plain,
        .exit 7 7]
      (fun s => s.kernel.listProcess.any (fun e => e.obj.pid == 7) &&
        (pidsOf (s.kernel.record 7)).isEmpty) (by decide +kernel)
    obtain ⟨hrec, hpids⟩ := Bool.and_eq_true_iff.mp hp
    obtain ⟨e, he, hpid⟩ := List.any_eq_true.mp hrec
    have hfiber : Run FiberStep (System.init zeroContext) _ s :=
      hrun.restrict (P := Action.onFibers) (by simp [Action.onFibers])
    obtain ⟨tr, htr⟩ := hfiber.exists_recorded
    refine ⟨tr, s, htr, ⟨e, he, by simpa using hpid⟩, ?_⟩
    rintro ⟨pid, hlive⟩
    have hmem := ((counted_run (htr.mono fun _ _ _ h => ⟨h.1, h.2.2⟩)).2.live 7 pid).mp hlive
    rw [List.isEmpty_iff.mp hpids] at hmem
    cases hmem
  · obtain ⟨s, hrun, hp⟩ := exists_run (System.init zeroContext)
      [.ioctl 7 7 .convertToFiber 0 Env.plain, .ioctl 7 7 .createFiber 0 Env.plain]
      (fun s => pidsOf (s.kernel.record 7) == [7] &&
        (s.exec (.exit 7 7)).toOption.any fun t =>
          s.kernel.listProcess.any fun e => e.obj.pid == 7 &&
            e.obj.fibers.any fun f => t.kernel.allocated.contains f.addr) (by decide +kernel)
    obtain ⟨hpids, hp⟩ := Bool.and_eq_true_iff.mp hp
    have hfiber : Run FiberStep (System.init zeroContext) _ s :=
      hrun.restrict (P := Action.onFibers) (by simp [Action.onFibers])
    obtain ⟨tr, htr⟩ := hfiber.exists_recorded
    obtain ⟨t, ht, hp⟩ := of_toOption_any hp
    obtain ⟨e, he, hp⟩ := List.any_eq_true.mp hp
    obtain ⟨hpid, hp⟩ := Bool.and_eq_true_iff.mp hp
    obtain ⟨f, hf, hall⟩ := List.any_eq_true.mp hp
    refine ⟨tr, s, t, e, htr, ⟨trivial, ht⟩, fun thr => ?_, he, by simpa using hpid, f, hf,
      by simpa using hall⟩
    rw [(counted_run (htr.mono fun _ _ _ h => ⟨h.1, h.2.2⟩)).2.live 7 thr,
      show pidsOf (s.kernel.record 7) = [7] by simpa using hpids]
    exact List.mem_singleton

end LinuxFibers.Module
