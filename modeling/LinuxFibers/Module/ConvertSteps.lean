import LinuxFibers.Module.Ownership
import Mathlib.Logic.Relation

/-!
# `CONVERTTOFIBER` in steps

`convertToFiber` takes a request as one step.  Nothing locks `list_process`, so
the threads of one process can interleave inside it.  `Kernel.convertStep` is
the same code cut at every access to the shared records: the search for the
record, its insertion, the initialisation of its tables (which comes after the
insertion), the search for the thread, its insertion, the atomic
`__sync_fetch_and_add` of `fiber_id`, the insertion of the fiber and the last
writes.

`solo_convertToFiber` says that a call which nobody interrupts is the request of
`convertToFiber`.
-/

namespace LinuxFibers.Module

open LinuxFibers.Lib HashTable

/-- Where a thread is in its call of `CONVERTTOFIBER`, with the local variables
`fiber`, `process`, `thread` and `fiber->index` that have a value there. -/
inductive Conversion where
  /-- Outside of a call. -/
  | idle
  /-- `fiber` is allocated. -/
  | called (fiber : Option ℕ)
  /-- `search_process` gave `NULL`. -/
  | missed (fiber : Option ℕ)
  /-- The new record is in `list_process`. -/
  | added (fiber : Option ℕ) (process : ℕ)
  /-- The record has its tables. -/
  | found (fiber : Option ℕ) (process : ℕ)
  /-- `search_thread` gave `NULL`. -/
  | unlinked (fiber : Option ℕ) (process : ℕ)
  /-- The new thread is in `process->threads`. -/
  | threaded (fiber : Option ℕ) (process thread : ℕ)
  /-- `fiber->index` is taken from `process->fiber_id`. -/
  | numbered (fiber process thread index : ℕ)
  /-- The fiber is in `process->fibers`. -/
  | linked (fiber process thread index : ℕ)
  /-- The value of the last call. -/
  | returned (ret : ℤ)
  deriving DecidableEq

/-- The record behind a pointer. -/
def Kernel.derefProcess (k : Kernel) (a : ℕ) : Except Fault ProcessArg :=
  match k.listProcess.deref a with
  | none => .error (.notLinked a)
  | some p => .ok p

/-- The next step of a call. -/
def Kernel.convertStep (k : Kernel) (cur : Task) (env : Env) :
    Conversion → Except Fault (Kernel × Conversion)
  | .idle | .returned _ =>
      let (fiber, k) := kzalloc k (env.kzalloc .fiberArg)
      .ok (k, .called fiber)
  | .called fiber =>
      match searchProcess k cur.tgid with
      | some process => .ok (k, .found fiber process.addr)
      | none => .ok (k, .missed fiber)
  | .missed fiber =>
      match kzalloc k (env.kzalloc .processArg) with
      | (none, k) => .ok (k, .returned (-enomem))
      | (some a, k) => .ok (k.addProcess a (newProcess cur.tgid), .added fiber a)
  | .added fiber a => do
      -- `hash_init(process->threads)` and `hash_init(process->fibers)`
      let p ← k.derefProcess a
      return (k.setProcess a { p with threads := [], fibers := [] }, .found fiber a)
  | .found fiber a => do
      let p ← k.derefProcess a
      match searchThread cur.pid p with
      | some _ => return (k, .returned (-1))
      | none => return (k, .unlinked fiber a)
  | .unlinked fiber a => do
      match kzalloc k (env.kzalloc .threadArg) with
      | (none, k) => return (k, .returned (-enomem))
      | (some t, k) =>
          let p ← k.derefProcess a
          let threads := p.threads.hashAdd (hash32 cur.pid) t ⟨cur.pid, none⟩
          return (k.setProcess a { p with threads := threads }, .threaded fiber a t)
  | .threaded fiber a t => do
      let p ← k.derefProcess a
      match fiber with
      | none => .error .nullPointer
      | some f =>
          let index := p.fiberId
          return (k.setProcess a { p with fiberId := index + 1 }, .numbered f a t index)
  | .numbered f a t index => do
      let p ← k.derefProcess a
      let fibers := p.fibers.hashAdd (fiberBucket index) f (convertedFiber cur env index)
      return (k.setProcess a { p with fibers := fibers }, .linked f a t index)
  | .linked f a t index => do
      let p ← k.derefProcess a
      let threads := p.threads.modify t fun th => { th with activeFiber := some f }
      let k := k.setProcess a { p with threads := threads }
      return ({ k with countThreads := k.countThreads + 1 }, .returned index)

/-! ## A call that nobody interrupts -/

/-- One step of a call whose context and environment do not change. -/
def Advance (cur : Task) (env : Env) (x y : Kernel × Conversion) : Prop :=
  x.1.convertStep cur env x.2 = .ok y

variable {k : Kernel} {cur : Task} {env : Env} {e : Entry ProcessArg} {p q : ProcessArg}

theorem derefProcess_eq (hu : k.listProcess.UniqueAddr) (he : e ∈ k.listProcess) :
    k.derefProcess e.addr = .ok e.obj := by
  rw [Kernel.derefProcess, deref_of_mem hu he]

theorem setProcess_setProcess (k : Kernel) (a : ℕ) (p q : ProcessArg) :
    (k.setProcess a p).setProcess a q = k.setProcess a q := by
  unfold Kernel.setProcess
  simp only [modify_eq_mapObj, mapObj_mapObj]
  congr 1
  apply List.map_congr_left
  intro x _
  by_cases hx : x.addr = a <;> simp only [hx, if_true, if_false]

/-- The write of what is there. -/
theorem setProcess_self (hu : k.listProcess.UniqueAddr) (he : e ∈ k.listProcess) :
    k.setProcess e.addr e.obj = k := by
  have hsame : k.listProcess.modify e.addr (fun _ => e.obj) = k.listProcess := by
    refine (List.map_congr_left fun x hx => ?_).trans (List.map_id k.listProcess)
    by_cases hxe : x.addr = e.addr
    · rw [hu.eq_of_addr hx he hxe]
      exact if_pos rfl
    · exact if_neg hxe
  rw [Kernel.setProcess, hsame]

theorem derefProcess_setProcess (hu : k.listProcess.UniqueAddr) (he : e ∈ k.listProcess)
    (p : ProcessArg) : (k.setProcess e.addr p).derefProcess e.addr = .ok p := by
  have hu' : (k.setProcess e.addr p).listProcess.UniqueAddr := hu.modify e.addr fun _ => p
  have he' : { e with obj := p } ∈ (k.setProcess e.addr p).listProcess :=
    mem_modify_self (f := fun _ => p) he
  exact derefProcess_eq hu' he'

/-- The insertion of a thread whose fiber is set later. -/
theorem modify_hashAdd {threads : HashTable ThreadArg} {t : ℕ} (ht : ∀ x ∈ threads, x.addr ≠ t)
    (b f : ℕ) (pid : Pid) :
    (threads.hashAdd b t ⟨pid, none⟩).modify t (fun th => { th with activeFiber := some f }) =
      threads.hashAdd b t ⟨pid, some f⟩ := by
  have hrest : threads.modify t (fun th => { th with activeFiber := some f }) = threads := by
    refine (List.map_congr_left fun x hx => ?_).trans (List.map_id threads)
    exact if_neg (ht x hx)
  simp only [HashTable.modify, HashTable.hashAdd, List.map_cons, if_true] at hrest ⊢
  rw [hrest]

/-- The kernel after a conversion whose objects are `t` and `f`. -/
def converted (k : Kernel) (cur : Task) (env : Env) (e : Entry ProcessArg) (t f : ℕ) : Kernel :=
  let k := k.setProcess e.addr (e.obj.convert cur.pid t f (convertedFiber cur env e.obj.fiberId))
  { k with countThreads := k.countThreads + 1 }

/-- The steps from the failed search for the thread. -/
theorem advance_unlinked {t f : ℕ} {k₃ : Kernel} (hu : k.listProcess.UniqueAddr)
    (he : e ∈ k.listProcess) (hnew : ∀ x ∈ e.obj.threads, x.addr ≠ t)
    (ht : kzalloc k (env.kzalloc .threadArg) = (some t, k₃)) :
    Relation.ReflTransGen (Advance cur env) (k, .unlinked (some f) e.addr)
      (converted k₃ cur env e t f, .returned e.obj.fiberId) := by
  obtain ⟨hs, _, _⟩ := of_kzalloc ht
  have hu₃ : k₃.listProcess.UniqueAddr := by
    rw [hs.listProcess]
    exact hu
  have he₃ : e ∈ k₃.listProcess := by
    rw [hs.listProcess]
    exact he
  let threads := e.obj.threads.hashAdd (hash32 cur.pid) t ⟨cur.pid, none⟩
  let p₁ : ProcessArg := { e.obj with threads := threads }
  let p₂ : ProcessArg := { p₁ with fiberId := e.obj.fiberId + 1 }
  let p₃ : ProcessArg := { p₂ with
    fibers := e.obj.fibers.hashAdd (fiberBucket e.obj.fiberId) f
      (convertedFiber cur env e.obj.fiberId) }
  have hderef := fun p => derefProcess_setProcess (p := p) hu₃ he₃
  have h₁ : Advance cur env (k, .unlinked (some f) e.addr)
      (k₃.setProcess e.addr p₁, .threaded (some f) e.addr t) := by
    simp only [Advance, Kernel.convertStep, ht, derefProcess_eq hu₃ he₃, bind, Except.bind]
    rfl
  have h₂ : Advance cur env (k₃.setProcess e.addr p₁, .threaded (some f) e.addr t)
      (k₃.setProcess e.addr p₂, .numbered f e.addr t e.obj.fiberId) := by
    simp only [Advance, Kernel.convertStep, hderef, bind, Except.bind, setProcess_setProcess]
    rfl
  have h₃ : Advance cur env (k₃.setProcess e.addr p₂, .numbered f e.addr t e.obj.fiberId)
      (k₃.setProcess e.addr p₃, .linked f e.addr t e.obj.fiberId) := by
    simp only [Advance, Kernel.convertStep, hderef, bind, Except.bind, setProcess_setProcess]
    rfl
  have hlast : { p₃ with threads := p₃.threads.modify t fun th =>
      { th with activeFiber := some f } } =
        e.obj.convert cur.pid t f (convertedFiber cur env e.obj.fiberId) := by
    have hthreads := modify_hashAdd hnew (hash32 cur.pid) f cur.pid
    simp only [p₃, p₂, p₁, threads, hthreads]
    rfl
  have h₄ : Advance cur env (k₃.setProcess e.addr p₃, .linked f e.addr t e.obj.fiberId)
      (converted k₃ cur env e t f, .returned e.obj.fiberId) := by
    simp only [Advance, Kernel.convertStep, hderef, bind, Except.bind, setProcess_setProcess, hlast]
    rfl
  exact .head h₁ (.head h₂ (.head h₃ (.single h₄)))

/-- The steps from the search for the record to its use. -/
theorem advance_called {fiber : Option ℕ} {k' : Kernel} (h : Tables k)
    (hfound : findOrAddProcess k cur.tgid (env.kzalloc .processArg) = some (e, k')) :
    Relation.ReflTransGen (Advance cur env) (k, .called fiber) (k', .found fiber e.addr) := by
  have ho := opened_findOrAddProcess h hfound
  unfold findOrAddProcess at hfound
  split at hfound
  · rename_i x hx
    cases hfound
    apply Relation.ReflTransGen.single
    simp only [Advance, Kernel.convertStep, hx]
  · rename_i hnone
    split at hfound
    · cases hfound
    · rename_i a k₁ ha
      cases hfound
      have hmissed : Advance cur env (k, .called fiber) (k, .missed fiber) := by
        simp only [Advance, Kernel.convertStep, hnone]
      have hadded : Advance cur env (k, .missed fiber)
          (k₁.addProcess a (newProcess cur.tgid), .added fiber a) := by
        simp only [Advance, Kernel.convertStep, ha]
      have hderef := derefProcess_eq ho.tables.unique ho.mem
      have hself := setProcess_self ho.tables.unique ho.mem
      have hinit : Advance cur env (k₁.addProcess a (newProcess cur.tgid), .added fiber a)
          (k₁.addProcess a (newProcess cur.tgid), .found fiber a) := by
        change (k₁.addProcess a (newProcess cur.tgid)).derefProcess a = _ at hderef
        change (k₁.addProcess a (newProcess cur.tgid)).setProcess a _ = _ at hself
        simp only [Advance, Kernel.convertStep, hderef, bind, Except.bind]
        exact congrArg (fun k => Except.ok (k, Conversion.found fiber a)) hself
      exact .head hmissed (.head hadded (.single hinit))

/-- A call that nobody interrupts ends as the request of one step does. -/
theorem solo_convertToFiber {r : Reply} (h : KernelOk k) (hr : convertToFiber k cur env = .ok r) :
    Relation.ReflTransGen (Advance cur env) (k, .idle) (r.kernel, .returned r.ret) := by
  unfold convertToFiber at hr
  have hs₁ := sameTables_kzalloc k (env.kzalloc .fiberArg)
  cases hf : kzalloc k (env.kzalloc .fiberArg) with
  | mk fiber k₁ =>
    rw [hf] at hr hs₁
    simp only at hr hs₁
    have hcalled : Advance cur env (k, .idle) (k₁, .called fiber) := by
      simp only [Advance, Kernel.convertStep, hf]
    refine .head hcalled ?_
    split at hr
    · rename_i hnone
      cases hr
      unfold findOrAddProcess at hnone
      split at hnone
      · cases hnone
      · rename_i hmiss
        split at hnone
        · rename_i k₂ ha
          have hsame : k₂ = k₁ := by
            unfold kzalloc at ha
            split at ha
            · cases ha
            · cases ha
              rfl
          subst hsame
          have hmissed : Advance cur env (k₂, .called fiber) (k₂, .missed fiber) := by
            simp only [Advance, Kernel.convertStep, hmiss]
          have hfailed : Advance cur env (k₂, .missed fiber) (k₂, .returned (-enomem)) := by
            simp only [Advance, Kernel.convertStep, ha]
          exact .head hmissed (.single hfailed)
        · cases hnone
    · rename_i e k₂ hfound
      refine (advance_called (h.toTables.of_same hs₁) hfound).trans ?_
      have ho := opened_findOrAddProcess (h.toTables.of_same hs₁) hfound
      have hderef := derefProcess_eq ho.tables.unique ho.mem
      split at hr
      · rename_i th hth
        cases hr
        apply Relation.ReflTransGen.single
        simp only [Advance, Kernel.convertStep, hderef, bind, Except.bind, hth]
        rfl
      · rename_i hth
        have hunlinked :
            Advance cur env (k₂, .found fiber e.addr) (k₂, .unlinked fiber e.addr) := by
          simp only [Advance, Kernel.convertStep, hderef, bind, Except.bind, hth]
          rfl
        refine .head hunlinked ?_
        split at hr
        · rename_i k₃ ht
          cases hr
          apply Relation.ReflTransGen.single
          simp only [Advance, Kernel.convertStep, ht]
          rfl
        · rename_i t k₃ ht
          split at hr
          · cases hr
          · rename_i f
            cases hr
            have hnew : ∀ x ∈ e.obj.threads, x.addr ≠ t := by
              obtain ⟨_, rfl, _⟩ := of_kzalloc ht
              intro x hx
              rcases ho.source with hsource | ⟨_, hsource⟩
              · rw [hs₁.record] at hsource
                have := (h.linked _ _ hsource).threads_lt x hx
                have := hs₁.brk_le
                have := ho.brk_le
                omega
              · rw [hsource] at hx
                cases hx
            exact advance_unlinked ho.tables.unique ho.mem hnew ht

end LinuxFibers.Module
