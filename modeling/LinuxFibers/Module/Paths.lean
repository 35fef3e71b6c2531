import LinuxFibers.Module.Ownership

/-!
# The ways through a request that allocates

`CONVERTTOFIBER`, `CREATEFIBER`, `FLSGETVALUE` and `FLSSETVALUE` allocate before
they know whether they will succeed, and leave through many returns.  Each of
them has an inductive here that lists its ways, with the guards that lead there,
the kernel at the end and the value returned.  The guards exclude each other, so
that a path lemma answers questions in both directions: what a request does when
a guard holds, and which guard held when it did something.
-/

namespace LinuxFibers.Module

open LinuxFibers.Lib HashTable

variable {k : Kernel} {cur : Task} {env : Env}

/-! ## `CONVERTTOFIBER` -/

/-- The kernel after the allocation of the fiber. -/
def fiberAllocated (k : Kernel) (env : Env) : Kernel := (kzalloc k (env.kzalloc .fiberArg)).2

theorem sameTables_fiberAllocated (k : Kernel) (env : Env) :
    SameTables k (fiberAllocated k env) :=
  sameTables_kzalloc k (env.kzalloc .fiberArg)

/-- The record of the caller's process is found, or made and linked. -/
inductive Opening (k : Kernel) (cur : Task) (env : Env) : Entry ProcessArg → Kernel → Prop where
  | found {e : Entry ProcessArg} :
      searchProcess k cur.tgid = some e → Opening k cur env e (fiberAllocated k env)
  | made : searchProcess k cur.tgid = none → env.kzalloc .processArg = true →
      Opening k cur env ⟨hash32 cur.tgid, (fiberAllocated k env).brk, newProcess cur.tgid⟩
        ((kzalloc (fiberAllocated k env) true).2.addProcess (fiberAllocated k env).brk
          (newProcess cur.tgid))

/-- The kernel at the end of a conversion in the record `e`. -/
def conversionEnd (k₂ : Kernel) (cur : Task) (env : Env) (e : Entry ProcessArg) (f : ℕ) :
    Kernel :=
  let p := e.obj.convert cur.pid k₂.brk f (convertedFiber cur env e.obj.fiberId)
  let k₄ := (kzalloc k₂ true).2.setProcess e.addr p
  { k₄ with countThreads := k₄.countThreads + 1 }

/-- The ways through `CONVERTTOFIBER`. -/
inductive ConvertPath (k : Kernel) (cur : Task) (env : Env) : Except Fault Reply → Prop where
  | noRecord : searchProcess k cur.tgid = none → env.kzalloc .processArg = false →
      ConvertPath k cur env (reply cur (fiberAllocated k env) (-enomem))
  | known {e : Entry ProcessArg} {th : Entry ThreadArg} :
      searchProcess k cur.tgid = some e → searchThread cur.pid e.obj = some th →
      ConvertPath k cur env (reply cur (fiberAllocated k env) (-1))
  | noThread {e : Entry ProcessArg} {k₂ : Kernel} : Opening k cur env e k₂ →
      searchThread cur.pid e.obj = none → env.kzalloc .threadArg = false →
      ConvertPath k cur env (reply cur k₂ (-enomem))
  | noFiber {e : Entry ProcessArg} {k₂ : Kernel} : Opening k cur env e k₂ →
      searchThread cur.pid e.obj = none → env.kzalloc .threadArg = true →
      env.kzalloc .fiberArg = false → ConvertPath k cur env (.error .nullPointer)
  | converted {e : Entry ProcessArg} {k₂ : Kernel} : Opening k cur env e k₂ →
      searchThread cur.pid e.obj = none → env.kzalloc .threadArg = true →
      env.kzalloc .fiberArg = true →
      ConvertPath k cur env (reply cur (conversionEnd k₂ cur env e k.brk) e.obj.fiberId)

/-- The search for the record, or its making, fails for want of memory or
succeeds. -/
theorem findOrAddProcess_cases (k : Kernel) (cur : Task) (env : Env) :
    findOrAddProcess (fiberAllocated k env) cur.tgid (env.kzalloc .processArg) = none ∧
        searchProcess k cur.tgid = none ∧ env.kzalloc .processArg = false ∨
      ∃ e k₂, findOrAddProcess (fiberAllocated k env) cur.tgid (env.kzalloc .processArg) =
        some (e, k₂) ∧ Opening k cur env e k₂ := by
  have hsame := (sameTables_fiberAllocated k env).searchProcess cur.tgid
  unfold findOrAddProcess
  rw [hsame]
  cases hs : searchProcess k cur.tgid with
  | some e => exact Or.inr ⟨e, _, rfl, Opening.found hs⟩
  | none =>
    cases hp : env.kzalloc .processArg with
    | false => exact Or.inl ⟨rfl, rfl, rfl⟩
    | true => exact Or.inr ⟨_, _, rfl, Opening.made hs hp⟩

theorem convert_path (k : Kernel) (cur : Task) (env : Env) :
    ConvertPath k cur env (convertToFiber k cur env) := by
  unfold convertToFiber
  rw [show kzalloc k (env.kzalloc .fiberArg) =
    ((kzalloc k (env.kzalloc .fiberArg)).1, fiberAllocated k env) from rfl]
  dsimp only
  rcases findOrAddProcess_cases k cur env with ⟨hnone, hs, hp⟩ | ⟨e, k₂, hsome, ho⟩
  · rw [hnone]
    exact ConvertPath.noRecord hs hp
  · rw [hsome]
    dsimp only
    cases hth : searchThread cur.pid e.obj with
    | some th =>
      cases ho with
      | found hs => exact ConvertPath.known hs hth
      | made => cases hth
    | none =>
      cases ht : env.kzalloc .threadArg with
      | false => exact ConvertPath.noThread ho hth ht
      | true =>
        cases hf : env.kzalloc .fiberArg with
        | false => exact ConvertPath.noFiber ho hth ht hf
        | true => exact ConvertPath.converted ho hth ht hf

/-! ## `CREATEFIBER` -/

/-- The kernel after the two allocations of `CREATEFIBER`, the first of which
succeeded. -/
def argsAllocated (k : Kernel) (env : Env) : Kernel :=
  (kzalloc (kzalloc k true).2 (env.kzalloc .fiberArg)).2

theorem sameTables_argsAllocated (k : Kernel) (env : Env) :
    SameTables k (argsAllocated k env) :=
  (sameTables_kzalloc k true).trans (sameTables_kzalloc _ (env.kzalloc .fiberArg))

/-- The kernel at the end of a creation in the record `e`. -/
def creationEnd (k : Kernel) (cur : Task) (env : Env) (e : Entry ProcessArg) : Kernel :=
  let p := e.obj.create (k.brk + 1) (createdFiber cur env.createArg e.obj.fiberId)
  kfree ((argsAllocated k env).setProcess e.addr p) k.brk

/-- The ways through `CREATEFIBER`. -/
inductive CreatePath (k : Kernel) (cur : Task) (env : Env) : Except Fault Reply → Prop where
  | noArgs : env.kzalloc .createArg = false → CreatePath k cur env (.error .nullPointer)
  | notCopied : env.kzalloc .createArg = true → env.copyFromUser = false →
      CreatePath k cur env (reply cur (argsAllocated k env) (-1))
  | noRecord : env.kzalloc .createArg = true → env.copyFromUser = true →
      searchProcess k cur.tgid = none → CreatePath k cur env (reply cur (argsAllocated k env) (-1))
  | noThread {e : Entry ProcessArg} : env.kzalloc .createArg = true → env.copyFromUser = true →
      searchProcess k cur.tgid = some e → searchThread cur.pid e.obj = none →
      CreatePath k cur env (reply cur (kfree (argsAllocated k env) k.brk) (-1))
  | noFiber {e : Entry ProcessArg} {th : Entry ThreadArg} : env.kzalloc .createArg = true →
      env.copyFromUser = true → searchProcess k cur.tgid = some e →
      searchThread cur.pid e.obj = some th → env.kzalloc .fiberArg = false →
      CreatePath k cur env (.error .nullPointer)
  | created {e : Entry ProcessArg} {th : Entry ThreadArg} : env.kzalloc .createArg = true →
      env.copyFromUser = true → searchProcess k cur.tgid = some e →
      searchThread cur.pid e.obj = some th → env.kzalloc .fiberArg = true →
      CreatePath k cur env (reply cur (creationEnd k cur env e) e.obj.fiberId)

theorem create_path (k : Kernel) (cur : Task) (env : Env) :
    CreatePath k cur env (createFiber k cur env) := by
  unfold createFiber
  cases ha : env.kzalloc .createArg with
  | false => exact CreatePath.noArgs ha
  | true =>
    have hsame := (sameTables_argsAllocated k env).searchProcess cur.tgid
    cases hu : env.copyFromUser with
    | false => exact CreatePath.notCopied ha hu
    | true =>
      rw [show kzalloc k true = (some k.brk, (kzalloc k true).2) from rfl]
      dsimp only
      rw [show kzalloc (kzalloc k true).2 (env.kzalloc .fiberArg) =
        ((kzalloc (kzalloc k true).2 (env.kzalloc .fiberArg)).1, argsAllocated k env) from rfl]
      simp only [Bool.not_true, Bool.false_eq_true, if_false]
      rw [hsame]
      cases hs : searchProcess k cur.tgid with
      | none => exact CreatePath.noRecord ha hu hs
      | some e =>
        dsimp only
        cases hth : searchThread cur.pid e.obj with
        | none => exact CreatePath.noThread ha hu hs hth
        | some th =>
          have hpath := @CreatePath.created k cur env e th ha hu hs hth
          cases hf : env.kzalloc .fiberArg with
          | false => exact CreatePath.noFiber ha hu hs hth hf
          | true =>
            simp only [creationEnd, argsAllocated, hf] at hpath ⊢
            exact hpath trivial

/-! ## `FLSGETVALUE` and `FLSSETVALUE` -/

/-- The kernel after a successful `kzalloc`. -/
def allocated (k : Kernel) : Kernel := (kzalloc k true).2

theorem kzalloc_allocated (k : Kernel) : kzalloc k true = (some k.brk, allocated k) := rfl

theorem sameTables_allocated (k : Kernel) : SameTables k (allocated k) :=
  sameTables_kzalloc k true

/-- The ways through `FLSGETVALUE`, when `test_bit` reads with `test`. -/
inductive GetPath (test : FiberArg → ℤ → Except Fault Bool) (k : Kernel) (cur : Task) (env : Env) :
    Except Fault Reply → Prop where
  | noArgs : env.kzalloc .flsArg = false → GetPath test k cur env (reply cur k (-enomem))
  | notCopied : env.kzalloc .flsArg = true → env.copyFromUser = false →
      GetPath test k cur env (reply cur (allocated k) (-1))
  | noRecord : env.kzalloc .flsArg = true → env.copyFromUser = true →
      searchProcess k cur.tgid = none → GetPath test k cur env (reply cur (allocated k) (-1))
  | noThread {e : Entry ProcessArg} : env.kzalloc .flsArg = true → env.copyFromUser = true →
      searchProcess k cur.tgid = some e → searchThread cur.pid e.obj = none →
      GetPath test k cur env (reply cur (kfree (allocated k) k.brk) (-1))
  | faulted {e : Entry ProcessArg} {th : Entry ThreadArg} {x : Fault} :
      env.kzalloc .flsArg = true → env.copyFromUser = true →
      searchProcess k cur.tgid = some e → searchThread cur.pid e.obj = some th →
      (derefFiber e.obj.fibers th.obj.activeFiber >>= fun af =>
        test af.2 env.flsArg.dwFlsIndex.toInt) = .error x → GetPath test k cur env (.error x)
  | clear {e : Entry ProcessArg} {th : Entry ThreadArg} {a : ℕ} {f : FiberArg} :
      env.kzalloc .flsArg = true → env.copyFromUser = true →
      searchProcess k cur.tgid = some e → searchThread cur.pid e.obj = some th →
      derefFiber e.obj.fibers th.obj.activeFiber = .ok (a, f) →
      test f env.flsArg.dwFlsIndex.toInt = .ok false →
      GetPath test k cur env (reply cur (kfree (allocated k) k.brk) (-1))
  | notGiven {e : Entry ProcessArg} {th : Entry ThreadArg} {a : ℕ} {f : FiberArg} :
      env.kzalloc .flsArg = true → env.copyFromUser = true →
      searchProcess k cur.tgid = some e → searchThread cur.pid e.obj = some th →
      derefFiber e.obj.fibers th.obj.activeFiber = .ok (a, f) →
      test f env.flsArg.dwFlsIndex.toInt = .ok true → env.copyToUser = false →
      GetPath test k cur env (reply cur (allocated k) (-1))
  | given {e : Entry ProcessArg} {th : Entry ThreadArg} {a : ℕ} {f : FiberArg} :
      env.kzalloc .flsArg = true → env.copyFromUser = true →
      searchProcess k cur.tgid = some e → searchThread cur.pid e.obj = some th →
      derefFiber e.obj.fibers th.obj.activeFiber = .ok (a, f) →
      test f env.flsArg.dwFlsIndex.toInt = .ok true → env.copyToUser = true →
      GetPath test k cur env (.ok ⟨1, kfree (allocated k) k.brk, cur.toContext,
        some ⟨env.flsArg.dwFlsIndex, f.flsArray env.flsArg.dwFlsIndex.toNat⟩⟩)

theorem get_path (test : FiberArg → ℤ → Except Fault Bool) (k : Kernel) (cur : Task) (env : Env) :
    GetPath test k cur env (flsGetValueWith test k cur env) := by
  unfold flsGetValueWith
  cases ha : env.kzalloc .flsArg with
  | false => exact GetPath.noArgs ha
  | true =>
    cases hu : env.copyFromUser with
    | false => exact GetPath.notCopied ha hu
    | true =>
      rw [kzalloc_allocated]
      simp only [Bool.not_true, Bool.false_eq_true, if_false]
      rw [(sameTables_allocated k).searchProcess]
      cases hs : searchProcess k cur.tgid with
      | none => exact GetPath.noRecord ha hu hs
      | some e =>
        dsimp only
        cases hth : searchThread cur.pid e.obj with
        | none => exact GetPath.noThread ha hu hs hth
        | some th =>
          dsimp only
          cases hd : derefFiber e.obj.fibers th.obj.activeFiber with
          | error x =>
            refine GetPath.faulted ha hu hs hth ?_
            rw [hd]
            rfl
          | ok af =>
            obtain ⟨a, f⟩ := af
            simp only [bind, Except.bind]
            cases hb : test f env.flsArg.dwFlsIndex.toInt with
            | error x =>
              refine GetPath.faulted ha hu hs hth ?_
              rw [hd]
              exact hb
            | ok b =>
              cases b with
              | false => exact GetPath.clear ha hu hs hth hd hb
              | true =>
                cases ht : env.copyToUser with
                | false => exact GetPath.notGiven ha hu hs hth hd hb ht
                | true => exact GetPath.given ha hu hs hth hd hb ht

/-- The ways through `FLSSETVALUE`, when `test_bit` reads with `test`. -/
inductive SetPath (test : FiberArg → ℤ → Except Fault Bool) (k : Kernel) (cur : Task) (env : Env) :
    Except Fault Reply → Prop where
  | noArgs : env.kzalloc .flsArg = false → SetPath test k cur env (reply cur k (-enomem))
  | notCopied : env.kzalloc .flsArg = true → env.copyFromUser = false →
      SetPath test k cur env (reply cur (allocated k) (-1))
  | noRecord : env.kzalloc .flsArg = true → env.copyFromUser = true →
      searchProcess k cur.tgid = none → SetPath test k cur env (reply cur (allocated k) (-1))
  | noThread {e : Entry ProcessArg} : env.kzalloc .flsArg = true → env.copyFromUser = true →
      searchProcess k cur.tgid = some e → searchThread cur.pid e.obj = none →
      SetPath test k cur env (reply cur (kfree (allocated k) k.brk) 0)
  | faulted {e : Entry ProcessArg} {th : Entry ThreadArg} {x : Fault} :
      env.kzalloc .flsArg = true → env.copyFromUser = true →
      searchProcess k cur.tgid = some e → searchThread cur.pid e.obj = some th →
      (derefFiber e.obj.fibers th.obj.activeFiber >>= fun af =>
        test af.2 env.flsArg.dwFlsIndex.toInt) = .error x → SetPath test k cur env (.error x)
  | clear {e : Entry ProcessArg} {th : Entry ThreadArg} {a : ℕ} {f : FiberArg} :
      env.kzalloc .flsArg = true → env.copyFromUser = true →
      searchProcess k cur.tgid = some e → searchThread cur.pid e.obj = some th →
      derefFiber e.obj.fibers th.obj.activeFiber = .ok (a, f) →
      test f env.flsArg.dwFlsIndex.toInt = .ok false →
      SetPath test k cur env (reply cur (kfree (allocated k) k.brk) 0)
  | stored {e : Entry ProcessArg} {th : Entry ThreadArg} {a : ℕ} {f : FiberArg} :
      env.kzalloc .flsArg = true → env.copyFromUser = true →
      searchProcess k cur.tgid = some e → searchThread cur.pid e.obj = some th →
      derefFiber e.obj.fibers th.obj.activeFiber = .ok (a, f) →
      test f env.flsArg.dwFlsIndex.toInt = .ok true →
      SetPath test k cur env (reply cur (kfree ((allocated k).setFiber e a { f with
        flsArray := Function.update f.flsArray env.flsArg.dwFlsIndex.toNat env.flsArg.lpFlsData })
        k.brk) 0)

theorem set_path (test : FiberArg → ℤ → Except Fault Bool) (k : Kernel) (cur : Task) (env : Env) :
    SetPath test k cur env (flsSetValueWith test k cur env) := by
  unfold flsSetValueWith
  cases ha : env.kzalloc .flsArg with
  | false => exact SetPath.noArgs ha
  | true =>
    cases hu : env.copyFromUser with
    | false => exact SetPath.notCopied ha hu
    | true =>
      rw [kzalloc_allocated]
      simp only [Bool.not_true, Bool.false_eq_true, if_false]
      rw [(sameTables_allocated k).searchProcess]
      cases hs : searchProcess k cur.tgid with
      | none => exact SetPath.noRecord ha hu hs
      | some e =>
        dsimp only
        cases hth : searchThread cur.pid e.obj with
        | none => exact SetPath.noThread ha hu hs hth
        | some th =>
          dsimp only
          cases hd : derefFiber e.obj.fibers th.obj.activeFiber with
          | error x =>
            refine SetPath.faulted ha hu hs hth ?_
            rw [hd]
            rfl
          | ok af =>
            obtain ⟨a, f⟩ := af
            simp only [bind, Except.bind]
            cases hb : test f env.flsArg.dwFlsIndex.toInt with
            | error x =>
              refine SetPath.faulted ha hu hs hth ?_
              rw [hd]
              exact hb
            | ok b =>
              cases b with
              | false => exact SetPath.clear ha hu hs hth hd hb
              | true => exact SetPath.stored ha hu hs hth hd hb

end LinuxFibers.Module
