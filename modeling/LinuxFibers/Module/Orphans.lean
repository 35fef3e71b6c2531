import LinuxFibers.Module.Paths

/-!
# Orphaned objects

An object that a request allocated is an orphan when the request returns and the
object is neither freed nor reachable from `list_process`: nothing can free it
any more.  Requests orphan objects on many of their returns.  `keepsObjects`
names the requests that do not, and `noOrphans_iff` says that they are exactly
those.

`FLSGETVALUE` and `FLSSETVALUE` test the bit that their argument names, and check
no bound.  Behind the saved registers, where `testBit` stops with a fault, the
code reads whatever the memory holds there and goes on.  Here it does so too:
`memory` gives those bits, and the results hold for every `memory`.  The requests
that led to the state are those of `Step`, none of which reached such a bit: a
store that it lets through can hit any other object.
-/

namespace LinuxFibers.Module

open LinuxFibers.Lib HashTable

variable {k k' : Kernel} {cur : Task} {cmd : Command} {arg : Word} {env : Env}
  {memory : ℤ → Bool}

/-- An object that can be reached from `list_process`. -/
def Kernel.Reachable (k : Kernel) (a : ℕ) : Prop :=
  ∃ e ∈ k.listProcess, a = e.addr ∨ (∃ t ∈ e.obj.threads, a = t.addr) ∨
    ∃ f ∈ e.obj.fibers, a = f.addr

/-- The objects from the number `brk` on that are not freed can be reached. -/
def KeepsFrom (brk : ℕ) (k' : Kernel) : Prop :=
  ∀ a ∈ k'.allocated, brk ≤ a → k'.Reachable a

/-- Every object allocated during a request that started in `k` is freed or
reachable when the request returns. -/
def NoOrphans (k : Kernel) (x : Except Fault Reply) : Prop :=
  ∀ r, x = .ok r → KeepsFrom k.brk r.kernel

/-- `test_bit`, where the bits that `testBit` does not have are those of
`memory`. -/
def testBitIn (memory : ℤ → Bool) (f : FiberArg) (index : ℤ) : Except Fault Bool :=
  match testBit f index with
  | .ok b => .ok b
  | .error _ => .ok (memory index)

/-- `my_ioctl`, where `test_bit` reads the bits of `memory`. -/
def myIoctlIn (memory : ℤ → Bool) (k : Kernel) (cur : Task) (cmd : Command) (arg : Word)
    (env : Env) : Except Fault Reply :=
  match cmd with
  | .flsGetValue => flsGetValueWith (testBitIn memory) k cur env
  | .flsSetValue => flsSetValueWith (testBitIn memory) k cur env
  | cmd => myIoctl k cur cmd arg env

/-- The request allocates nothing, frees what it allocated or links it. -/
def keepsObjects (memory : ℤ → Bool) (k : Kernel) (cur : Task) (env : Env) : Command → Bool
  | .convertToFiber =>
      !env.kzalloc .fiberArg || env.kzalloc .threadArg &&
        match searchProcess k cur.tgid with
        | none => env.kzalloc .processArg
        | some e => (searchThread cur.pid e.obj).isNone
  | .createFiber =>
      !env.kzalloc .createArg || env.copyFromUser &&
        match searchProcess k cur.tgid with
        | none => false
        | some e => (searchThread cur.pid e.obj).isSome || !env.kzalloc .fiberArg
  | .flsGetValue =>
      !env.kzalloc .flsArg || env.copyFromUser &&
        match searchProcess k cur.tgid with
        | none => false
        | some e =>
            match searchThread cur.pid e.obj with
            | none => true
            | some th =>
                match derefFiber e.obj.fibers th.obj.activeFiber >>= fun af =>
                  testBitIn memory af.2 env.flsArg.dwFlsIndex.toInt with
                | .ok true => env.copyToUser
                | _ => true
  | .flsSetValue =>
      !env.kzalloc .flsArg || env.copyFromUser && (searchProcess k cur.tgid).isSome
  | _ => true

/-! ## The heap -/

/-- No object of the heap has a number that is not given out yet. -/
def HeapOk (k : Kernel) : Prop := ∀ a ∈ k.allocated, a < k.brk

@[simp] theorem kzalloc_true_allocated (k : Kernel) :
    (kzalloc k true).2.allocated = k.brk :: k.allocated := rfl

@[simp] theorem kzalloc_false (k : Kernel) : (kzalloc k false).2 = k := rfl

@[simp] theorem mem_kfree {p a : ℕ} : a ∈ (kfree k p).allocated ↔ a ∈ k.allocated ∧ a ≠ p := by
  simp [kfree]

theorem heapOk_kzalloc (h : HeapOk k) (b : Bool) : HeapOk (kzalloc k b).2 := by
  cases b with
  | false => exact h
  | true =>
    intro a ha
    change a < k.brk + 1
    rcases List.mem_cons.mp ha with rfl | ha
    · exact Nat.lt_succ_self _
    · exact Nat.lt_succ_of_lt (h a ha)

theorem heapOk_kfree (h : HeapOk k) (p : ℕ) : HeapOk (kfree k p) :=
  fun a ha => h a (mem_kfree.mp ha).1

/-- Everything reachable has been given out. -/
theorem reachable_lt (h : KernelOk k) {a : ℕ} (ha : k.Reachable a) : a < k.brk := by
  obtain ⟨e, he, ha⟩ := ha
  have hlinked := h.linked _ _ (record_of_mem h.toTables he)
  rcases ha with rfl | ⟨t, ht, rfl⟩ | ⟨f, hf, rfl⟩
  · exact h.addr_lt e he
  · exact hlinked.threads_lt t ht
  · exact hlinked.fibers_lt f hf

/-- A request that changed no table keeps its objects when it has freed them. -/
theorem keepsFrom_iff (h : KernelOk k) (hl : k'.listProcess = k.listProcess) :
    KeepsFrom k.brk k' ↔ ∀ a ∈ k'.allocated, a < k.brk := by
  have hsame : ∀ a, k'.Reachable a ↔ k.Reachable a := by
    intro a
    rw [Kernel.Reachable, Kernel.Reachable, hl]
  refine ⟨fun hk a ha => ?_, fun hk a ha hle => absurd (hk a ha) (Nat.not_lt.mpr hle)⟩
  by_contra hle
  exact hle (reachable_lt h ((hsame a).mp (hk a ha (Nat.le_of_not_lt hle))))

theorem noOrphans_reply (ret : ℤ) : NoOrphans k (reply cur k' ret) ↔ KeepsFrom k.brk k' := by
  refine ⟨fun h => h _ rfl, fun h r hr => ?_⟩
  cases hr
  exact h

theorem noOrphans_error (x : Fault) : NoOrphans k (.error x) := by
  intro r hr
  cases hr

/-! ## `CONVERTTOFIBER` -/

/-- A failed conversion that changed no table has orphaned the fiber. -/
theorem keepsFrom_fiberAllocated (h : KernelOk k) (hheap : HeapOk k) (env : Env) :
    KeepsFrom k.brk (fiberAllocated k env) ↔ env.kzalloc .fiberArg = false := by
  rw [keepsFrom_iff h (sameTables_fiberAllocated k env).listProcess]
  unfold fiberAllocated
  cases env.kzalloc .fiberArg with
  | false => exact iff_of_true hheap rfl
  | true => simp

/-- A failed conversion that linked a new record has orphaned the fiber. -/
theorem keepsFrom_made (h : KernelOk k) (hheap : HeapOk k) (env : Env) (id : Pid) :
    KeepsFrom k.brk ((kzalloc (fiberAllocated k env) true).2.addProcess (fiberAllocated k env).brk
      (newProcess id)) ↔ env.kzalloc .fiberArg = false := by
  generalize hnew : (kzalloc (fiberAllocated k env) true).2.addProcess (fiberAllocated k env).brk
    (newProcess id) = k₂
  have halloc : k₂.allocated = (fiberAllocated k env).brk :: (fiberAllocated k env).allocated := by
    rw [← hnew]
    rfl
  have hlist : k₂.listProcess =
      ⟨hash32 id, (fiberAllocated k env).brk, newProcess id⟩ :: k.listProcess := by
    rw [← hnew, ← (sameTables_fiberAllocated k env).listProcess]
    rfl
  have hreach : ∀ a, k₂.Reachable a ↔ a = (fiberAllocated k env).brk ∨ k.Reachable a := by
    intro a
    unfold Kernel.Reachable
    rw [hlist]
    simp [newProcess]
  constructor
  · intro hk
    cases hf : env.kzalloc .fiberArg with
    | false => rfl
    | true =>
      have hbrk : (fiberAllocated k env).brk = k.brk + 1 := by rw [fiberAllocated, hf]; rfl
      have hmem : k.brk ∈ k₂.allocated := by
        rw [halloc, fiberAllocated, hf]
        simp
      rcases (hreach k.brk).mp (hk k.brk hmem (Nat.le_refl _)) with heq | hold
      · omega
      · exact absurd (reachable_lt h hold) (Nat.lt_irrefl _)
  · intro hf a ha _
    rw [halloc] at ha
    rcases List.mem_cons.mp ha with rfl | ha
    · exact (hreach _).mpr (Or.inl rfl)
    · rw [fiberAllocated, hf, kzalloc_false] at ha
      have := hheap a ha
      omega

theorem opening_mem {e : Entry ProcessArg} {k₂ : Kernel} (ho : Opening k cur env e k₂) :
    e ∈ k₂.listProcess := by
  cases ho with
  | found hs =>
    rw [(sameTables_fiberAllocated k env).listProcess]
    exact (of_searchProcess hs).1
  | made => exact List.mem_cons_self

/-- What is allocated once the record is open: the fiber, and a new record. -/
theorem opening_allocated {e : Entry ProcessArg} {k₂ : Kernel} (ho : Opening k cur env e k₂)
    (hf : env.kzalloc .fiberArg = true) {a : ℕ} (ha : a ∈ k₂.allocated) :
    a ∈ k.allocated ∨ a = k.brk ∨ a = e.addr := by
  cases ho with
  | found =>
    rw [fiberAllocated, hf, kzalloc_true_allocated] at ha
    rcases List.mem_cons.mp ha with rfl | ha
    · exact Or.inr (Or.inl rfl)
    · exact Or.inl ha
  | made =>
    change a ∈ (kzalloc (fiberAllocated k env) true).2.allocated at ha
    rw [kzalloc_true_allocated] at ha
    rcases List.mem_cons.mp ha with rfl | ha
    · exact Or.inr (Or.inr rfl)
    · rw [fiberAllocated, hf, kzalloc_true_allocated] at ha
      rcases List.mem_cons.mp ha with rfl | ha
      · exact Or.inr (Or.inl rfl)
      · exact Or.inl ha

/-- A conversion links all that it allocated. -/
theorem keepsFrom_converted (hheap : HeapOk k) {e : Entry ProcessArg} {k₂ : Kernel}
    (ho : Opening k cur env e k₂) (hf : env.kzalloc .fiberArg = true) :
    KeepsFrom k.brk (conversionEnd k₂ cur env e k.brk) := by
  let p := e.obj.convert cur.pid k₂.brk k.brk (convertedFiber cur env e.obj.fiberId)
  have hopen := opening_mem ho
  have hold : e ∈ (kzalloc k₂ true).2.listProcess := hopen
  have hmem : { e with obj := p } ∈ (conversionEnd k₂ cur env e k.brk).listProcess :=
    mem_modify_self (f := fun _ => p) hold
  intro a ha hle
  change a ∈ (kzalloc k₂ true).2.allocated at ha
  rw [kzalloc_true_allocated] at ha
  rcases List.mem_cons.mp ha with rfl | ha
  · exact ⟨_, hmem, Or.inr (Or.inl ⟨_, List.mem_cons_self, rfl⟩)⟩
  · rcases opening_allocated ho hf ha with hold | rfl | rfl
    · exact absurd (hheap a hold) (Nat.not_lt.mpr hle)
    · exact ⟨_, hmem, Or.inr (Or.inr ⟨_, List.mem_cons_self, rfl⟩)⟩
    · exact ⟨_, hmem, Or.inl rfl⟩

theorem noOrphans_convert_iff (h : KernelOk k) (hheap : HeapOk k) {x : Except Fault Reply}
    (hpath : ConvertPath k cur env x) :
    NoOrphans k x ↔ keepsObjects memory k cur env .convertToFiber = true := by
  have hfiber := keepsFrom_fiberAllocated h hheap env
  unfold keepsObjects
  cases hpath with
  | noRecord hs hp => simp [hs, hp, noOrphans_reply, hfiber]
  | known hs hth => simp [hs, hth, noOrphans_reply, hfiber]
  | noThread ho hth ht =>
    cases ho with
    | found hs => simp [ht, noOrphans_reply, hfiber]
    | made hs hp => simp [ht, noOrphans_reply, keepsFrom_made h hheap env cur.tgid]
  | noFiber ho hth ht hf => simp [hf, noOrphans_error]
  | converted ho hth ht hf =>
    have hkeeps := keepsFrom_converted hheap ho hf
    cases ho with
    | found hs => simp [hs, hth, ht, noOrphans_reply, hkeeps]
    | made hs hp => simp [hs, hp, ht, noOrphans_reply, hkeeps]

/-! ## `CREATEFIBER` -/

/-- A creation that leaves before it frees its arguments has orphaned them. -/
theorem not_keepsFrom_args (h : KernelOk k) (env : Env) :
    ¬ KeepsFrom k.brk (argsAllocated k env) := by
  rw [keepsFrom_iff h (sameTables_argsAllocated k env).listProcess]
  intro hall
  refine absurd (hall k.brk ?_) (Nat.lt_irrefl _)
  unfold argsAllocated
  cases env.kzalloc .fiberArg <;> simp

/-- A creation that freed its arguments has orphaned the fiber. -/
theorem keepsFrom_argsFreed (h : KernelOk k) (hheap : HeapOk k) (env : Env) :
    KeepsFrom k.brk (kfree (argsAllocated k env) k.brk) ↔ env.kzalloc .fiberArg = false := by
  have hs := (sameTables_argsAllocated k env).trans (sameTables_kfree _ k.brk)
  rw [keepsFrom_iff h hs.listProcess]
  unfold argsAllocated
  cases env.kzalloc .fiberArg with
  | false =>
    refine iff_of_true (fun a ha => ?_) rfl
    obtain ⟨ha, hne⟩ := mem_kfree.mp ha
    rcases List.mem_cons.mp ha with rfl | ha
    · exact absurd rfl hne
    · exact hheap a ha
  | true =>
    refine iff_of_false (fun hall => ?_) (by decide)
    have hmem : k.brk + 1 ∈ (kfree (kzalloc (kzalloc k true).2 true).2 k.brk).allocated :=
      mem_kfree.mpr ⟨List.mem_cons_self, Nat.succ_ne_self _⟩
    have := hall _ hmem
    omega

theorem keepsFrom_created (hheap : HeapOk k) {e : Entry ProcessArg}
    (hs : searchProcess k cur.tgid = some e) (hf : env.kzalloc .fiberArg = true) :
    KeepsFrom k.brk (creationEnd k cur env e) := by
  let p := e.obj.create (k.brk + 1) (createdFiber cur env.createArg e.obj.fiberId)
  have hold : e ∈ (argsAllocated k env).listProcess := by
    rw [(sameTables_argsAllocated k env).listProcess]
    exact (of_searchProcess hs).1
  have hmem : { e with obj := p } ∈ (creationEnd k cur env e).listProcess :=
    mem_modify_self (f := fun _ => p) hold
  intro a ha hle
  change a ∈ (kfree (argsAllocated k env) k.brk).allocated at ha
  obtain ⟨ha, hne⟩ := mem_kfree.mp ha
  rw [argsAllocated, hf, kzalloc_true_allocated] at ha
  rcases List.mem_cons.mp ha with rfl | ha
  · exact ⟨_, hmem, Or.inr (Or.inr ⟨_, List.mem_cons_self, rfl⟩)⟩
  · rcases List.mem_cons.mp ha with rfl | ha
    · exact absurd rfl hne
    · exact absurd (hheap a ha) (Nat.not_lt.mpr hle)

theorem noOrphans_create_iff (h : KernelOk k) (hheap : HeapOk k) {x : Except Fault Reply}
    (hpath : CreatePath k cur env x) :
    NoOrphans k x ↔ keepsObjects memory k cur env .createFiber = true := by
  have hargs := not_keepsFrom_args h env
  have hfreed := keepsFrom_argsFreed h hheap env
  unfold keepsObjects
  cases hpath with
  | noArgs ha => simp [ha, noOrphans_error]
  | notCopied ha hu => simp [ha, hu, noOrphans_reply, hargs]
  | noRecord ha hu hs => simp [ha, hs, noOrphans_reply, hargs]
  | noThread ha hu hs hth => simp [ha, hu, hs, hth, noOrphans_reply, hfreed]
  | noFiber ha hu hs hth hf => simp [hu, hs, hth, noOrphans_error]
  | created ha hu hs hth hf =>
    simp [hu, hs, hth, noOrphans_reply, keepsFrom_created hheap hs hf]

/-! ## `FLSGETVALUE` and `FLSSETVALUE` -/

theorem not_keepsFrom_allocated (h : KernelOk k) : ¬ KeepsFrom k.brk (allocated k) := by
  rw [keepsFrom_iff h (sameTables_allocated k).listProcess]
  exact fun hall => absurd (hall k.brk List.mem_cons_self) (Nat.lt_irrefl _)

theorem keepsFrom_freed (hheap : HeapOk k) (hl : k'.allocated = (allocated k).allocated) :
    KeepsFrom k.brk (kfree k' k.brk) := by
  intro a ha hle
  obtain ⟨ha, hne⟩ := mem_kfree.mp ha
  rw [hl] at ha
  rcases List.mem_cons.mp ha with rfl | ha
  · exact absurd rfl hne
  · exact absurd (hheap a ha) (Nat.not_lt.mpr hle)

theorem keepsFrom_self (hheap : HeapOk k) : KeepsFrom k.brk k :=
  fun a ha hle => absurd (hheap a ha) (Nat.not_lt.mpr hle)

theorem noOrphans_get_iff (h : KernelOk k) (hheap : HeapOk k) {x : Except Fault Reply}
    (hpath : GetPath (testBitIn memory) k cur env x) :
    NoOrphans k x ↔ keepsObjects memory k cur env .flsGetValue = true := by
  have hkept := not_keepsFrom_allocated h
  have hfreed : KeepsFrom k.brk (kfree (allocated k) k.brk) := keepsFrom_freed hheap rfl
  unfold keepsObjects
  cases hpath with
  | noArgs ha => simp [ha, noOrphans_reply, keepsFrom_self hheap]
  | notCopied ha hu => simp [ha, hu, noOrphans_reply, hkept]
  | noRecord ha hu hs => simp [ha, hs, noOrphans_reply, hkept]
  | noThread ha hu hs hth => simp [hu, hs, hth, noOrphans_reply, hfreed]
  | faulted ha hu hs hth hx => simp [hu, hs, hth, hx, noOrphans_error]
  | clear ha hu hs hth hd hb =>
    simp [hu, hs, hth, hd, hb, noOrphans_reply, hfreed, bind, Except.bind]
  | notGiven ha hu hs hth hd hb ht =>
    simp [ha, hs, hth, hd, hb, ht, noOrphans_reply, hkept, bind, Except.bind]
  | given ha hu hs hth hd hb ht =>
    refine iff_of_true (fun r hr => ?_) ?_
    · cases hr
      exact hfreed
    · simp [hu, hs, hth, hd, hb, ht, bind, Except.bind]

theorem noOrphans_set_iff (h : KernelOk k) (hheap : HeapOk k) {x : Except Fault Reply}
    (hpath : SetPath (testBitIn memory) k cur env x) :
    NoOrphans k x ↔ keepsObjects memory k cur env .flsSetValue = true := by
  have hkept := not_keepsFrom_allocated h
  have hfreed : KeepsFrom k.brk (kfree (allocated k) k.brk) := keepsFrom_freed hheap rfl
  unfold keepsObjects
  cases hpath with
  | noArgs ha => simp [ha, noOrphans_reply, keepsFrom_self hheap]
  | notCopied ha hu => simp [ha, hu, noOrphans_reply, hkept]
  | noRecord ha hu hs => simp [ha, hs, noOrphans_reply, hkept]
  | noThread ha hu hs hth => simp [hu, hs, noOrphans_reply, hfreed]
  | faulted ha hu hs hth hx => simp [hu, hs, noOrphans_error]
  | clear ha hu hs hth hd hb => simp [hu, hs, noOrphans_reply, hfreed]
  | stored ha hu hs hth hd hb =>
    refine iff_of_true ((noOrphans_reply 0).mpr (keepsFrom_freed hheap rfl)) ?_
    simp [hu, hs]

/-! ## The other commands -/

/-- A command that allocates nothing leaves the heap alone. -/
theorem heap_same {r : Reply}
    (hcmd : cmd = .switchToFiber ∨ cmd = .flsAlloc ∨ cmd = .flsFree ∨ cmd = .other)
    (hr : myIoctl k cur cmd arg env = .ok r) :
    r.kernel.allocated = k.allocated ∧ r.kernel.brk = k.brk := by
  rcases hcmd with rfl | rfl | rfl | rfl
  · change switchToFiber k cur arg env = .ok r at hr
    unfold switchToFiber at hr
    split at hr
    · cases hr
      exact ⟨rfl, rfl⟩
    · simp only at hr
      split at hr
      · cases hr
        exact ⟨rfl, rfl⟩
      · split at hr
        · cases hr
          exact ⟨rfl, rfl⟩
        · split at hr
          · cases hr
            exact ⟨rfl, rfl⟩
          · obtain ⟨_, _, hr⟩ := of_bind hr
            obtain ⟨_, _, hr⟩ := of_bind hr
            cases hr
            exact ⟨rfl, rfl⟩
  · change flsAlloc k cur = .ok r at hr
    unfold flsAlloc at hr
    split at hr
    · cases hr
      exact ⟨rfl, rfl⟩
    · split at hr
      · cases hr
        exact ⟨rfl, rfl⟩
      · obtain ⟨_, _, hr⟩ := of_bind hr
        obtain ⟨_, _, hr⟩ := of_bind hr
        split at hr <;> cases hr <;> exact ⟨rfl, rfl⟩
  · change flsFree k cur arg = .ok r at hr
    unfold flsFree at hr
    split at hr
    · cases hr
      exact ⟨rfl, rfl⟩
    · split at hr
      · cases hr
        exact ⟨rfl, rfl⟩
      · split at hr
        · obtain ⟨_, _, hr⟩ := of_bind hr
          obtain ⟨_, _, hr⟩ := of_bind hr
          cases hr
          exact ⟨rfl, rfl⟩
        · cases hr
          exact ⟨rfl, rfl⟩
  · cases hr
    exact ⟨rfl, rfl⟩

theorem noOrphans_other (hheap : HeapOk k)
    (hcmd : cmd = .switchToFiber ∨ cmd = .flsAlloc ∨ cmd = .flsFree ∨ cmd = .other) :
    NoOrphans k (myIoctlIn memory k cur cmd arg env) := by
  have hsame : myIoctlIn memory k cur cmd arg env = myIoctl k cur cmd arg env := by
    rcases hcmd with rfl | rfl | rfl | rfl <;> rfl
  rw [hsame]
  intro r hr a ha hle
  rw [(heap_same hcmd hr).1] at ha
  exact absurd (hheap a ha) (Nat.not_lt.mpr hle)

/-! ## The heap of a run -/

theorem heapOk_allocated (h : HeapOk k) : HeapOk (allocated k) := heapOk_kzalloc h true

theorem heapOk_of_eq (h : HeapOk k) (ha : k'.allocated = k.allocated) (hb : k'.brk = k.brk) :
    HeapOk k' := by
  intro a hmem
  rw [hb]
  rw [ha] at hmem
  exact h a hmem

theorem heapOk_opening (h : HeapOk k) {e : Entry ProcessArg} {k₂ : Kernel}
    (ho : Opening k cur env e k₂) : HeapOk k₂ := by
  have h₁ : HeapOk (fiberAllocated k env) := heapOk_kzalloc h (env.kzalloc .fiberArg)
  cases ho with
  | found => exact h₁
  | made => exact heapOk_of_eq (heapOk_kzalloc h₁ true) rfl rfl

theorem heapOk_convertToFiber {r : Reply} (h : HeapOk k) (hr : convertToFiber k cur env = .ok r) :
    HeapOk r.kernel := by
  have hpath := convert_path k cur env
  rw [hr] at hpath
  generalize hx : Except.ok r = x at hpath
  cases hpath with
  | noRecord | known =>
    cases hx
    exact heapOk_kzalloc h (env.kzalloc .fiberArg)
  | noThread ho =>
    cases hx
    exact heapOk_opening h ho
  | noFiber => cases hx
  | converted ho =>
    cases hx
    exact heapOk_of_eq (heapOk_kzalloc (heapOk_opening h ho) true) rfl rfl

theorem heapOk_createFiber {r : Reply} (h : HeapOk k) (hr : createFiber k cur env = .ok r) :
    HeapOk r.kernel := by
  have hargs : HeapOk (argsAllocated k env) :=
    heapOk_kzalloc (heapOk_kzalloc h true) (env.kzalloc .fiberArg)
  have hpath := create_path k cur env
  rw [hr] at hpath
  generalize hx : Except.ok r = x at hpath
  cases hpath with
  | noArgs | noFiber => cases hx
  | notCopied | noRecord =>
    cases hx
    exact hargs
  | noThread =>
    cases hx
    exact heapOk_kfree hargs k.brk
  | created =>
    cases hx
    exact heapOk_of_eq (heapOk_kfree hargs k.brk) rfl rfl

theorem heapOk_flsGetValue {r : Reply} (h : HeapOk k) (hr : flsGetValue k cur env = .ok r) :
    HeapOk r.kernel := by
  have hpath := get_path testBit k cur env
  rw [show flsGetValueWith testBit k cur env = .ok r from hr] at hpath
  generalize hx : Except.ok r = x at hpath
  cases hpath with
  | noArgs =>
    cases hx
    exact h
  | faulted => cases hx
  | notCopied | noRecord | notGiven =>
    cases hx
    exact heapOk_allocated h
  | noThread | clear | given =>
    cases hx
    exact heapOk_kfree (heapOk_allocated h) k.brk

theorem heapOk_flsSetValue {r : Reply} (h : HeapOk k) (hr : flsSetValue k cur env = .ok r) :
    HeapOk r.kernel := by
  have hpath := set_path testBit k cur env
  rw [show flsSetValueWith testBit k cur env = .ok r from hr] at hpath
  generalize hx : Except.ok r = x at hpath
  cases hpath with
  | noArgs =>
    cases hx
    exact h
  | faulted => cases hx
  | notCopied | noRecord =>
    cases hx
    exact heapOk_allocated h
  | noThread | clear =>
    cases hx
    exact heapOk_kfree (heapOk_allocated h) k.brk
  | stored =>
    cases hx
    exact heapOk_of_eq (heapOk_kfree (heapOk_allocated h) k.brk) rfl rfl

theorem heapOk_request {r : Reply} (h : HeapOk k) (hr : myIoctl k cur cmd arg env = .ok r) :
    HeapOk r.kernel := by
  cases cmd with
  | convertToFiber => exact heapOk_convertToFiber h hr
  | createFiber => exact heapOk_createFiber h hr
  | flsGetValue => exact heapOk_flsGetValue h hr
  | flsSetValue => exact heapOk_flsSetValue h hr
  | switchToFiber | flsAlloc | flsFree | other =>
    obtain ⟨ha, hb⟩ := heap_same (by simp) hr
    exact heapOk_of_eq h ha hb

theorem heapOk_exit {proId thrId : Pid} (hok : KernelOk k) (h : HeapOk k)
    (hx : preHandler k proId thrId = .ok k') : HeapOk k' := by
  have he := exited hok.toTables hx
  intro a ha
  rw [he.brk_eq]
  rcases he.change with ⟨rfl, _⟩ | ⟨_, _, _, _, _, _, _, _, hrem⟩
  · exact h a ha
  · exact h a ((hrem.allocated a).mp ha).1

theorem heapOk_run {context : Pid × Pid → Context} {as : List Action} {s : System}
    (h : Run Step (System.init context) as s) : KernelOk s.kernel ∧ HeapOk s.kernel := by
  refine h.invariant (I := fun s => KernelOk s.kernel ∧ HeapOk s.kernel) ?_ ?_
  · intro s a t hs ha
    refine ⟨kernelOk_step hs.1 ha, ?_⟩
    exact (kernel_step (I := fun k => KernelOk k ∧ HeapOk k)
      (fun _ _ _ _ _ _ h hr => ⟨kernelOk_request h.1 hr, heapOk_request h.2 hr⟩)
      (fun _ _ _ _ h hx => ⟨kernelOk_exit h.1 hx, heapOk_exit h.1 h.2 hx⟩) hs ha).2
  · refine ⟨kernelOk_init, fun a ha => ?_⟩
    cases ha

/-! ## Every request -/

/-- A bit that `testBit` has is the bit in every memory. -/
theorem testBitIn_of_ok {f : FiberArg} {index : ℤ} {b : Bool} (h : testBit f index = .ok b) :
    testBitIn memory f index = .ok b := by
  rw [testBitIn, h]

theorem flsGetValueIn_of_ok {r : Reply} (hr : flsGetValue k cur env = .ok r) :
    flsGetValueWith (testBitIn memory) k cur env = .ok r := by
  unfold flsGetValue flsGetValueWith at hr
  unfold flsGetValueWith
  split at hr
  · exact hr
  · by_cases hcopy : !env.copyFromUser
    · rwa [if_pos hcopy] at hr ⊢
    · rw [if_neg hcopy] at hr ⊢
      split at hr
      · exact hr
      · split at hr
        · exact hr
        · obtain ⟨af, hactive, hr⟩ := of_bind hr
          obtain ⟨b, hb, hr⟩ := of_bind hr
          simp only [hactive, testBitIn_of_ok hb, bind, Except.bind]
          exact hr

theorem flsSetValueIn_of_ok {r : Reply} (hr : flsSetValue k cur env = .ok r) :
    flsSetValueWith (testBitIn memory) k cur env = .ok r := by
  unfold flsSetValue flsSetValueWith at hr
  unfold flsSetValueWith
  split at hr
  · exact hr
  · by_cases hcopy : !env.copyFromUser
    · rwa [if_pos hcopy] at hr ⊢
    · rw [if_neg hcopy] at hr ⊢
      split at hr
      · exact hr
      · split at hr
        · exact hr
        · obtain ⟨af, hactive, hr⟩ := of_bind hr
          obtain ⟨b, hb, hr⟩ := of_bind hr
          simp only [hactive, testBitIn_of_ok hb, bind, Except.bind]
          exact hr

/-- A request that reads no bit behind the registers is the same in every
memory. -/
theorem myIoctlIn_of_ok {r : Reply} (hr : myIoctl k cur cmd arg env = .ok r) :
    myIoctlIn memory k cur cmd arg env = .ok r := by
  cases cmd with
  | flsGetValue => exact flsGetValueIn_of_ok hr
  | flsSetValue => exact flsSetValueIn_of_ok hr
  | _ => exact hr

/-- In every reachable state a request of any thread orphans nothing exactly when
it keeps its objects, whatever the memory behind the registers holds. -/
theorem noOrphans_iff {context : Pid × Pid → Context} {as : List Action} {s : System}
    (h : Run Step (System.init context) as s) (memory : ℤ → Bool) (tgid pid : Pid)
    (cmd : Command) (arg : Word) (env : Env) :
    NoOrphans s.kernel (myIoctlIn memory s.kernel (s.task tgid pid) cmd arg env) ↔
      keepsObjects memory s.kernel (s.task tgid pid) env cmd = true := by
  obtain ⟨hok, hheap⟩ := heapOk_run h
  cases cmd with
  | convertToFiber => exact noOrphans_convert_iff hok hheap (convert_path _ _ env)
  | createFiber => exact noOrphans_create_iff hok hheap (create_path _ _ env)
  | flsGetValue => exact noOrphans_get_iff hok hheap (get_path _ _ _ env)
  | flsSetValue => exact noOrphans_set_iff hok hheap (set_path _ _ _ env)
  | switchToFiber | flsAlloc | flsFree | other =>
    exact iff_of_true (noOrphans_other hheap (by simp)) rfl

/-- `Env.plain` with a user page that cannot be written, and the bit 1408 of
`FLSGETVALUE`, the first behind the registers. -/
def Env.behind : Env :=
  { Env.plain with copyToUser := false, flsArg := ⟨1408, 0⟩ }

/-- `noOrphans_iff` in a process with one fiber: a creation orphans nothing, and a
reading of bit 1408 that cannot be copied orphans its arguments when memory has
that bit set. -/
theorem noOrphans_creation : ∃ s : System, s.kernel.allocated.length = 3 ∧
    NoOrphans s.kernel (myIoctlIn (fun _ => true) s.kernel (s.task 7 7) .createFiber 0 Env.plain) ∧
    ¬ NoOrphans s.kernel
      (myIoctlIn (fun _ => true) s.kernel (s.task 7 7) .flsGetValue 0 Env.behind) := by
  obtain ⟨s, hrun, hp⟩ := exists_run (System.init zeroContext)
    [.ioctl 7 7 .convertToFiber 0 Env.plain]
    (fun s => s.kernel.allocated.length == 3 &&
      (keepsObjects (fun _ => true) s.kernel (s.task 7 7) Env.plain .createFiber &&
        !keepsObjects (fun _ => true) s.kernel (s.task 7 7) Env.behind .flsGetValue))
    (by decide +kernel)
  simp only [Bool.and_eq_true, beq_iff_eq, Bool.not_eq_true'] at hp
  obtain ⟨hlen, hkeeps, horphans⟩ := hp
  refine ⟨s, hlen, (noOrphans_iff hrun _ 7 7 .createFiber 0 Env.plain).mpr hkeeps, fun hno => ?_⟩
  have hall := (noOrphans_iff hrun _ 7 7 .flsGetValue 0 Env.behind).mp hno
  rw [horphans] at hall
  cases hall

/-- A creation by a thread that is not converted orphans its arguments and the
fiber. -/
theorem creation_orphans :
    ∃ r, (System.init zeroContext).request 7 7 .createFiber 0 Env.plain = .ok r ∧ r.ret = -1 ∧
      r.kernel.allocated = [1, 0] ∧ ¬ r.kernel.Reachable 0 ∧ ¬ r.kernel.Reachable 1 := by
  refine ⟨_, rfl, rfl, rfl, ?_, ?_⟩
  · rintro ⟨e, he, _⟩
    cases he
  · rintro ⟨e, he, _⟩
    cases he

end LinuxFibers.Module
