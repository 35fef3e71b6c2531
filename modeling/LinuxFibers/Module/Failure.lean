import LinuxFibers.Module.Paths

/-!
# Failed requests

A request that returns a negative value should leave the tables as they were, up
to the count of a failed activation, and no pattern of failing allocations should
make a request use a missing object.  `FailsClean` says both.

Two commands break it.  `CONVERTTOFIBER` links a new record before it allocates
the thread, and it uses the fiber without a check.  `CREATEFIBER` checks neither
of its allocations.  `allocationsSafe` names the patterns that are harmless, and
`failsClean_iff` says that they are exactly those.
-/

namespace LinuxFibers.Module

open LinuxFibers.Lib HashTable

variable {k : Kernel} {cur : Task} {cmd : Command} {arg : Word} {env : Env}

/-- The use of a missing object. -/
def Fault.isMissing : Fault → Bool
  | .nullPointer | .notLinked _ => true
  | .flsStorage _ => false

/-- The tables and the counter after a failed request: they are the same, but
for one more failed activation of the running target of a switch. -/
inductive Intact (k : Kernel) (cur : Task) (arg : Word) (k' : Kernel) : Command → Prop where
  | same {cmd : Command} : k'.listProcess = k.listProcess → k'.countThreads = k.countThreads →
      Intact k cur arg k' cmd
  | counted {e : Entry ProcessArg} {fiber : Entry FiberArg} :
      searchProcess k cur.tgid = some e → searchFiber (arg.setWidth 32) e.obj = some fiber →
      fiber.obj.running = true →
      k'.listProcess = (k.setProcess e.addr { e.obj with
        fibers := e.obj.fibers.modify fiber.addr FiberArg.fail }).listProcess →
      k'.countThreads = k.countThreads → Intact k cur arg k' .switchToFiber

/-- The end `x` of a request is clean: if it failed, the tables are intact, and it
used no missing object. -/
structure CleanEnd (k : Kernel) (cur : Task) (arg : Word) (cmd : Command)
    (x : Except Fault Reply) : Prop where
  intact : ∀ r, x = .ok r → r.ret < 0 → Intact k cur arg r.kernel cmd
  objects : ∀ y, x = .error y → y.isMissing = false

/-- No allocation fails that `CONVERTTOFIBER` and `CREATEFIBER` do not check, or
check after they have linked a new record. -/
def allocationsSafe (k : Kernel) (cur : Task) (env : Env) : Command → Bool
  | .convertToFiber =>
      match searchProcess k cur.tgid with
      | none => !env.kzalloc .processArg || env.kzalloc .threadArg && env.kzalloc .fiberArg
      | some e =>
          (searchThread cur.pid e.obj).isSome || !env.kzalloc .threadArg || env.kzalloc .fiberArg
  | .createFiber =>
      env.kzalloc .createArg && (!env.copyFromUser || env.kzalloc .fiberArg ||
        match searchProcess k cur.tgid with
        | none => true
        | some e => (searchThread cur.pid e.obj).isNone)
  | _ => true

theorem cleanEnd_ok_iff {r : Reply} :
    CleanEnd k cur arg cmd (.ok r) ↔ (r.ret < 0 → Intact k cur arg r.kernel cmd) := by
  refine ⟨fun h => h.intact r rfl, fun h => ⟨fun r' hr' => ?_, fun y hy => ?_⟩⟩
  · cases hr'
    exact h
  · cases hy

theorem cleanEnd_error_iff {y : Fault} :
    CleanEnd k cur arg cmd (.error y) ↔ y.isMissing = false := by
  refine ⟨fun h => h.objects y rfl, fun h => ⟨fun r hr => ?_, fun y' hy' => ?_⟩⟩
  · cases hr
  · cases hy'
    exact h

theorem cleanEnd_same {k' : Kernel} {ret : ℤ} (h : SameTables k k') :
    CleanEnd k cur arg cmd (reply cur k' ret) :=
  cleanEnd_ok_iff.mpr fun _ => Intact.same h.listProcess h.countThreads

theorem cleanEnd_nonneg {k' : Kernel} {ret : ℤ} (h : 0 ≤ ret) :
    CleanEnd k cur arg cmd (reply cur k' ret) :=
  cleanEnd_ok_iff.mpr fun hneg => absurd h (Int.not_le.mpr hneg)

/-! ## `CONVERTTOFIBER` and `CREATEFIBER` -/

/-- A conversion that has linked a new record and fails afterwards is not
clean. -/
theorem not_cleanEnd_made {k₁ : Kernel} (h : SameTables k k₁) (a : ℕ) (p : ProcessArg) :
    ¬ CleanEnd k cur arg .convertToFiber (reply cur (k₁.addProcess a p) (-enomem)) := by
  intro hclean
  cases cleanEnd_ok_iff.mp hclean neg_enomem with
  | same hl =>
    have hlen := congrArg List.length hl
    change k₁.listProcess.length + 1 = k.listProcess.length at hlen
    rw [h.listProcess] at hlen
    omega

theorem cleanEnd_convert_iff {x : Except Fault Reply} (hpath : ConvertPath k cur env x) :
    CleanEnd k cur arg .convertToFiber x ↔ allocationsSafe k cur env .convertToFiber = true := by
  have hs₁ := sameTables_fiberAllocated k env
  unfold allocationsSafe
  cases hpath with
  | noRecord hs hp => simp [hs, hp, cleanEnd_same hs₁]
  | known hs hth => simp [hs, hth, cleanEnd_same hs₁]
  | noThread ho hth ht =>
    cases ho with
    | found hs => simp [hs, ht, cleanEnd_same hs₁]
    | made hs hp =>
      have hs₂ := hs₁.trans (sameTables_kzalloc (fiberAllocated k env) true)
      simp [hs, hp, ht, not_cleanEnd_made hs₂]
  | noFiber ho hth ht hf =>
    cases ho with
    | found hs => simp [hs, hth, ht, hf, cleanEnd_error_iff, Fault.isMissing]
    | made hs hp => simp [hs, hp, ht, hf, cleanEnd_error_iff, Fault.isMissing]
  | converted ho hth ht hf =>
    cases ho with
    | found hs => simp [hs, hf, cleanEnd_nonneg]
    | made hs hp => simp [hs, hf, ht, cleanEnd_nonneg]

theorem cleanEnd_create_iff {x : Except Fault Reply} (hpath : CreatePath k cur env x) :
    CleanEnd k cur arg .createFiber x ↔ allocationsSafe k cur env .createFiber = true := by
  have hs₁ := sameTables_argsAllocated k env
  have hfree := hs₁.trans (sameTables_kfree _ k.brk)
  unfold allocationsSafe
  cases hpath with
  | noArgs ha => simp [ha, cleanEnd_error_iff, Fault.isMissing]
  | notCopied ha hu => simp [ha, hu, cleanEnd_same hs₁]
  | noRecord ha hu hs => simp [ha, hs, cleanEnd_same hs₁]
  | noThread ha hu hs hth => simp [ha, hs, hth, cleanEnd_same hfree]
  | noFiber ha hu hs hth hf => simp [ha, hu, hs, hth, hf, cleanEnd_error_iff, Fault.isMissing]
  | created ha hu hs hth hf => simp [ha, hf, cleanEnd_nonneg]

/-! ## The other commands -/

theorem testBit_error {f : FiberArg} {i : ℤ} {x : Fault} (h : testBit f i = .error x) :
    x.isMissing = false := by
  unfold testBit at h
  split at h
  · cases h
    rfl
  · split at h
    · cases h
      rfl
    · cases h

theorem zeroBitFrom_error {f : FiberArg} {n i : ℕ} {x : Fault}
    (h : zeroBitFrom f n i = .error x) : x.isMissing = false := by
  induction n generalizing i with
  | zero => cases h
  | succ n ih =>
    rw [zeroBitFrom] at h
    split at h
    · cases h
      rfl
    · cases h
    · exact ih h

/-- A bit that an FLS command reads of the active fiber of a converted thread. -/
theorem caller_error (h : KernelOk k) {e : Entry ProcessArg} {th : Entry ThreadArg} {x : Fault}
    (hs : searchProcess k cur.tgid = some e) (hth : searchThread cur.pid e.obj = some th)
    (hx : (derefFiber e.obj.fibers th.obj.activeFiber >>= fun af =>
      testBit af.2 env.flsArg.dwFlsIndex.toInt) = .error x) : x.isMissing = false := by
  have hrec := record_of_mem h.toTables (of_searchProcess hs).1
  obtain ⟨f, _, _, _, hderef⟩ := derefFiber_active (h.linked _ _ hrec) (h.owned _ _ hrec) hth
  rw [hderef] at hx
  exact testBit_error hx

theorem cleanEnd_get (h : KernelOk k) {x : Except Fault Reply} (hpath : GetPath testBit k cur env x) :
    CleanEnd k cur arg .flsGetValue x := by
  have hs₁ := sameTables_allocated k
  have hfree := hs₁.trans (sameTables_kfree _ k.brk)
  cases hpath with
  | noArgs => exact cleanEnd_same (SameTables.refl k)
  | notCopied => exact cleanEnd_same hs₁
  | noRecord => exact cleanEnd_same hs₁
  | noThread => exact cleanEnd_same hfree
  | faulted _ _ hs hth hx => exact cleanEnd_error_iff.mpr (caller_error h hs hth hx)
  | clear => exact cleanEnd_same hfree
  | notGiven => exact cleanEnd_same hs₁
  | given => exact cleanEnd_ok_iff.mpr fun hneg => absurd hneg (show ¬ (1 : ℤ) < 0 by decide)

theorem cleanEnd_set (h : KernelOk k) {x : Except Fault Reply} (hpath : SetPath testBit k cur env x) :
    CleanEnd k cur arg .flsSetValue x := by
  have hs₁ := sameTables_allocated k
  have hfree := hs₁.trans (sameTables_kfree _ k.brk)
  cases hpath with
  | noArgs => exact cleanEnd_same (SameTables.refl k)
  | notCopied => exact cleanEnd_same hs₁
  | noRecord => exact cleanEnd_same hs₁
  | noThread => exact cleanEnd_same hfree
  | faulted _ _ hs hth hx => exact cleanEnd_error_iff.mpr (caller_error h hs hth hx)
  | clear => exact cleanEnd_same hfree
  | stored => exact cleanEnd_nonneg (Int.le_refl 0)

theorem cleanEnd_switchToFiber (h : KernelOk k) :
    CleanEnd k cur arg .switchToFiber (switchToFiber k cur arg env) := by
  obtain ⟨r, hr⟩ := switchToFiber_returns h cur arg env
  rw [hr, cleanEnd_ok_iff]
  intro hneg
  have hs := SameTables.refl k
  unfold switchToFiber at hr
  split at hr
  · cases hr
    exact Intact.same rfl rfl
  · rename_i e he
    simp only at hr
    split at hr
    · cases hr
      exact Intact.same rfl rfl
    · rename_i fiber hfiber
      split at hr
      · rename_i hrun
        cases hr
        exact Intact.counted he hfiber hrun rfl rfl
      · split at hr
        · cases hr
          exact Intact.same rfl rfl
        · obtain ⟨⟨a, old⟩, _, hr⟩ := of_bind hr
          obtain ⟨⟨b, next⟩, _, hr⟩ := of_bind hr
          cases hr
          exact absurd hneg (Int.lt_irrefl 0)

theorem cleanEnd_flsAlloc (h : KernelOk k) :
    CleanEnd k cur arg .flsAlloc (flsAlloc k cur) := by
  have hs := SameTables.refl k
  unfold flsAlloc
  split
  · exact cleanEnd_same hs
  · rename_i e he
    split
    · exact cleanEnd_same hs
    · rename_i th hth
      have hrec := record_of_mem h.toTables (of_searchProcess he).1
      obtain ⟨f, _, _, _, hderef⟩ := derefFiber_active (h.linked _ _ hrec) (h.owned _ _ hrec) hth
      rw [hderef]
      simp only [bind, Except.bind]
      cases hi : findFirstZeroBit f.obj with
      | error x => exact cleanEnd_error_iff.mpr (zeroBitFrom_error hi)
      | ok i =>
        dsimp only
        split
        · exact cleanEnd_same hs
        · exact cleanEnd_nonneg (Int.natCast_nonneg i)

theorem cleanEnd_flsFree (h : KernelOk k) :
    CleanEnd k cur arg .flsFree (flsFree k cur arg) := by
  have hs := SameTables.refl k
  unfold flsFree
  split
  · exact cleanEnd_same hs
  · rename_i e he
    split
    · exact cleanEnd_same hs
    · rename_i th hth
      have hrec := record_of_mem h.toTables (of_searchProcess he).1
      obtain ⟨f, _, _, _, hderef⟩ := derefFiber_active (h.linked _ _ hrec) (h.owned _ _ hrec) hth
      rw [hderef]
      simp only [bind, Except.bind, clearBit]
      split
      · cases hb : testBit f.obj arg.toInt with
        | error x => exact cleanEnd_error_iff.mpr (testBit_error hb)
        | ok b => exact cleanEnd_nonneg (by decide)
      · exact cleanEnd_same hs

/-! ## Every request -/

/-- In every reachable state a request of any thread is clean exactly when its
allocations are safe. -/
theorem cleanEnd_iff {context : Pid × Pid → Context} {as : List Action} {s : System}
    (h : Run Step (System.init context) as s) (tgid pid : Pid) (cmd : Command) (arg : Word)
    (env : Env) :
    CleanEnd s.kernel (s.task tgid pid) arg cmd (s.request tgid pid cmd arg env) ↔
      allocationsSafe s.kernel (s.task tgid pid) env cmd = true := by
  have hok := kernelOk_run h
  unfold System.request
  cases cmd with
  | convertToFiber => exact cleanEnd_convert_iff (convert_path _ _ env)
  | createFiber => exact cleanEnd_create_iff (create_path _ _ env)
  | switchToFiber => exact iff_of_true (cleanEnd_switchToFiber hok) rfl
  | flsAlloc => exact iff_of_true (cleanEnd_flsAlloc hok) rfl
  | flsFree => exact iff_of_true (cleanEnd_flsFree hok) rfl
  | flsGetValue => exact iff_of_true (cleanEnd_get hok (get_path testBit _ _ env)) rfl
  | flsSetValue => exact iff_of_true (cleanEnd_set hok (set_path testBit _ _ env)) rfl
  | other => exact iff_of_true (cleanEnd_same (SameTables.refl _)) rfl

/-- Every allocation but that of the thread succeeds. -/
def Env.threadless : Env :=
  { Env.plain with kzalloc := fun kind => match kind with | .threadArg => false | _ => true }

/-- Every allocation but that of the fiber succeeds. -/
def Env.fiberless : Env :=
  { Env.plain with kzalloc := fun kind => match kind with | .fiberArg => false | _ => true }

/-- `cleanEnd_iff` for a conversion that has a record and gets no thread. -/
theorem cleanEnd_second_conversion : ∃ s : System, s.kernel.listProcess.length = 1 ∧
    CleanEnd s.kernel (s.task 7 8) 0 .convertToFiber
      (s.request 7 8 .convertToFiber 0 Env.threadless) := by
  obtain ⟨s, hrun, hp⟩ := exists_run (System.init zeroContext)
    [.ioctl 7 7 .convertToFiber 0 Env.plain]
    (fun s => s.kernel.listProcess.length == 1 &&
      allocationsSafe s.kernel (s.task 7 8) Env.threadless .convertToFiber) (by decide +kernel)
  obtain ⟨hlen, hsafe⟩ := Bool.and_eq_true_iff.mp hp
  exact ⟨s, by simpa using hlen, (cleanEnd_iff hrun 7 8 .convertToFiber 0 Env.threadless).mpr hsafe⟩

/-- The first conversion of a process leaves a new record behind when it gets no
thread, and uses a missing fiber when it gets no fiber. -/
theorem conversion_not_clean :
    (∃ r, (System.init zeroContext).request 7 7 .convertToFiber 0 Env.threadless = .ok r ∧
      r.ret = -12 ∧ ¬ Intact Kernel.init ((System.init zeroContext).task 7 7) 0 r.kernel
        .convertToFiber) ∧
    (System.init zeroContext).request 7 7 .convertToFiber 0 Env.fiberless =
      .error .nullPointer := by
  refine ⟨⟨_, rfl, rfl, fun hintact => ?_⟩, rfl⟩
  cases hintact with
  | same hl => cases hl

end LinuxFibers.Module
