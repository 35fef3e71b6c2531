import LinuxFibers.Lib.Run
import LinuxFibers.Module.Records

/-!
# What a request can do

`Change` lists every effect that a request has on the record of the caller's
process, with what the caller gets.  `requested` proves that each request that
returns has one of these effects, leaves every other record alone and keeps
`Tables`.  The invariants of the module are proved from `Change`, and no proof
above this module unfolds a request.
-/

namespace LinuxFibers.Module

open LinuxFibers.Lib HashTable

variable {k : Kernel} {cur : Task} {cmd : Command} {arg : Word} {env : Env} {r : Reply}

/-- What an FLS command writes to the active fiber `old`, and what it
returns. -/
inductive FlsWrite (old : FiberArg) (arg : Word) (env : Env) : Command → ℤ → FiberArg → Prop where
  | alloc {i : ℕ} : findFirstZeroBit old = .ok i → i ≠ maxFls →
      FlsWrite old arg env .flsAlloc i { old.setBit i true with
        flsArray := Function.update (old.setBit i true).flsArray i 0 }
  | free {f : FiberArg} : 0 < arg.toInt → arg.toInt < maxFls → clearBit old arg.toInt = .ok f →
      FlsWrite old arg env .flsFree 1 f
  | set : testBit old env.flsArg.dwFlsIndex.toInt = .ok true →
      FlsWrite old arg env .flsSetValue 0 { old with
        flsArray := Function.update old.flsArray env.flsArg.dwFlsIndex.toNat env.flsArg.lpFlsData }

theorem FlsWrite.command {old f : FiberArg} {ret : ℤ} (h : FlsWrite old arg env cmd ret f) :
    cmd = .flsAlloc ∨ cmd = .flsFree ∨ cmd = .flsSetValue := by
  cases h with
  | alloc => exact Or.inl rfl
  | free => exact Or.inr (Or.inl rfl)
  | set => exact Or.inr (Or.inr rfl)

/-- A command that reports its failure by a negative value. -/
def Command.reports : Command → Bool
  | .convertToFiber | .createFiber | .switchToFiber | .flsAlloc => true
  | _ => false

/-- The effect of a request on the record of the caller's process. -/
inductive Change (k : Kernel) (cur : Task) (arg : Word) (env : Env) (r : Reply) :
    Command → Option ProcessArg → Option ProcessArg → Prop where
  | idle {cmd : Command} {o : Option ProcessArg} :
      (cmd.reports = true → r.ret < 0) → Change k cur arg env r cmd o o
  | opened :
      env.kzalloc .threadArg = false → r.ret < 0 →
      Change k cur arg env r .convertToFiber none (some (newProcess cur.tgid))
  | converted {o : Option ProcessArg} {p : ProcessArg} {t f : ℕ} :
      (o = some p ∨ o = none ∧ p = newProcess cur.tgid) → searchThread cur.pid p = none →
      k.brk ≤ t → t < r.kernel.brk → k.brk ≤ f → f < r.kernel.brk → t ≠ f → r.ret = p.fiberId →
      Change k cur arg env r .convertToFiber o
        (some (p.convert cur.pid t f (convertedFiber cur env p.fiberId)))
  | created {p : ProcessArg} {thread : Entry ThreadArg} {f : ℕ} :
      searchThread cur.pid p = some thread → k.brk ≤ f → f < r.kernel.brk → r.ret = p.fiberId →
      Change k cur arg env r .createFiber (some p)
        (some (p.create f (createdFiber cur env.createArg p.fiberId)))
  | failed {p : ProcessArg} {fiber : Entry FiberArg} :
      searchFiber (arg.setWidth 32) p = some fiber → fiber.obj.running = true → r.ret < 0 →
      Change k cur arg env r .switchToFiber (some p)
        (some { p with fibers := p.fibers.modify fiber.addr FiberArg.fail })
  | switched {p : ProcessArg} {fiber : Entry FiberArg} {thread : Entry ThreadArg} {a : ℕ}
      {old next : FiberArg} :
      searchFiber (arg.setWidth 32) p = some fiber → fiber.obj.running = false →
      searchThread cur.pid p = some thread → thread.obj.activeFiber = some a →
      p.fibers.deref a = some old →
      (p.fibers.modify a fun f => f.save cur.toContext).deref fiber.addr = some next →
      r.ret = 0 → r.context = ⟨next.regs, next.fpuReg⟩ →
      Change k cur arg env r .switchToFiber (some p)
        (some (p.switch cur env thread.addr a old fiber.addr))
  | stored {cmd : Command} {p : ProcessArg} {thread : Entry ThreadArg} {a : ℕ}
      {old f : FiberArg} :
      searchThread cur.pid p = some thread → thread.obj.activeFiber = some a →
      p.fibers.deref a = some old → FlsWrite old arg env cmd r.ret f →
      Change k cur arg env r cmd (some p)
        (some { p with fibers := p.fibers.modify a fun _ => f })

/-- What is known of a request that returned. -/
structure Requested (k : Kernel) (cur : Task) (cmd : Command) (arg : Word) (env : Env)
    (r : Reply) : Prop where
  tables : Tables r.kernel
  brk_le : k.brk ≤ r.kernel.brk
  change : Change k cur arg env r cmd (k.record cur.tgid) (r.kernel.record cur.tgid)
  others : ∀ id, id ≠ cur.tgid → r.kernel.record id = k.record id
  context : (cmd = .switchToFiber → r.ret ≠ 0) → r.context = cur.toContext
  countThreads : r.kernel.countThreads =
    k.countThreads + if cmd = .convertToFiber ∧ 0 ≤ r.ret then 1 else 0

/-! ## Requests without an effect and with one write -/

theorem of_derefFiber {fibers : HashTable FiberArg} {p : Option ℕ} {a : ℕ} {f : FiberArg}
    (h : derefFiber fibers p = .ok (a, f)) : p = some a ∧ fibers.deref a = some f := by
  unfold derefFiber at h
  split at h
  · cases h
  · split at h
    · cases h
    · rename_i hd
      cases h
      exact ⟨rfl, hd⟩

theorem requested_idle (h : Tables k) (hs : SameTables k r.kernel)
    (hret : cmd.reports = true → r.ret < 0) (hctx : r.context = cur.toContext) :
    Requested k cur cmd arg env r where
  tables := h.of_same hs
  brk_le := hs.brk_le
  change := by
    rw [hs.record]
    exact Change.idle hret
  others id _ := hs.record id
  context _ := hctx
  countThreads := by
    rw [hs.countThreads, if_neg, Int.add_zero]
    rintro ⟨rfl, h0⟩
    exact absurd (hret rfl) (Int.not_lt.mpr h0)

theorem requested_write (h : Tables k) {e : Entry ProcessArg} {p : ProcessArg}
    (hfound : searchProcess k cur.tgid = some e)
    (hchange : Change k cur arg env r cmd (some e.obj) (some p)) (hp : p.pid = e.obj.pid)
    (hs : SameTables (k.setProcess e.addr p) r.kernel) (hcmd : cmd ≠ .convertToFiber)
    (hctx : (cmd = .switchToFiber → r.ret ≠ 0) → r.context = cur.toContext) :
    Requested k cur cmd arg env r := by
  obtain ⟨he, hpid⟩ := of_searchProcess hfound
  have hself := record_setProcess_self h he hp
  refine ⟨(h.setProcess he hp).of_same hs, hs.brk_le, ?_, fun id hid => ?_, hctx, ?_⟩
  · rw [hs.record, ← hpid, hself, record_of_mem h he]
    exact hchange
  · rw [hs.record]
    exact record_setProcess_ne h he hp (by rwa [hpid])
  · rw [hs.countThreads, if_neg (fun hc => hcmd hc.1), Int.add_zero]
    rfl

theorem SameTables.searchProcess {k' : Kernel} (hs : SameTables k k') (id : Pid) :
    searchProcess k' id = Module.searchProcess k id := by
  rw [Module.searchProcess, Module.searchProcess, hs.listProcess]

theorem SameTables.setProcess {k' : Kernel} (hs : SameTables k k') (a : ℕ) (p : ProcessArg) :
    SameTables (k.setProcess a p) (k'.setProcess a p) :=
  ⟨by rw [Kernel.setProcess, Kernel.setProcess, hs.listProcess], hs.countThreads, hs.brk_le⟩

/-! ## The commands -/

theorem neg_enomem : -enomem < 0 := by decide

theorem neg_one_lt : (-1 : ℤ) < 0 := by decide

/-- A conversion that fails after the record was found or made. -/
theorem requested_opened {e : Entry ProcessArg} {k₁ k₂ : Kernel} (hs₁ : SameTables k k₁)
    (ho : Opened k₁ cur.tgid e k₂) (hs₂ : SameTables k₂ r.kernel) (hret : r.ret < 0)
    (hctx : r.context = cur.toContext)
    (hnew : env.kzalloc .threadArg = false ∨ e.obj ≠ newProcess cur.tgid) :
    Requested k cur .convertToFiber arg env r := by
  refine ⟨ho.tables.of_same hs₂, ?_, ?_, fun id hid => ?_, fun _ => hctx, ?_⟩
  · exact Nat.le_trans hs₁.brk_le (Nat.le_trans ho.brk_le hs₂.brk_le)
  · have hrec : r.kernel.record cur.tgid = some e.obj := by
      rw [hs₂.record, ← ho.pid_eq]
      exact record_of_mem ho.tables ho.mem
    rw [hrec, ← hs₁.record cur.tgid]
    rcases ho.source with hsame | ⟨hnone, heq⟩
    · rw [hsame]
      exact Change.idle fun _ => hret
    · rw [hnone, heq]
      exact Change.opened (hnew.resolve_right fun hne => hne heq) hret
  · rw [hs₂.record, ho.others id hid, hs₁.record]
  · rw [if_neg (fun hc => absurd hret (Int.not_lt.mpr hc.2)), hs₂.countThreads, ho.countThreads,
      hs₁.countThreads, Int.add_zero]

/-- A conversion that succeeds, with the kernels after its allocations. -/
theorem requested_converted {e : Entry ProcessArg} {k₁ k₂ k₃ : Kernel} (hs₁ : SameTables k k₁)
    (ho : Opened k₁ cur.tgid e k₂) (hthread : searchThread cur.pid e.obj = none)
    (hs₃ : SameTables k₂ k₃) (hbrk₁ : k₁.brk = k.brk + 1) (hbrk₃ : k₃.brk = k₂.brk + 1)
    {p : ProcessArg} (hp : p = e.obj.convert cur.pid k₂.brk k.brk
      (convertedFiber cur env e.obj.fiberId))
    (hl : r.kernel.listProcess = (k₃.setProcess e.addr p).listProcess)
    (hb : r.kernel.brk = k₃.brk) (hc : r.kernel.countThreads = k₃.countThreads + 1)
    (hret : r.ret = e.obj.fiberId) (hctx : r.context = cur.toContext) :
    Requested k cur .convertToFiber arg env r := by
  have hle := ho.brk_le
  have ht₃ : Tables k₃ := ho.tables.of_same hs₃
  have he₃ : e ∈ k₃.listProcess := by
    rw [hs₃.listProcess]
    exact ho.mem
  have hpid : p.pid = e.obj.pid := by rw [hp]; rfl
  have hb' : (k₃.setProcess e.addr p).brk ≤ r.kernel.brk := Nat.le_of_eq hb.symm
  refine ⟨(ht₃.setProcess he₃ hpid).of_eq hl hb', by omega, ?_, fun id hid => ?_,
    fun _ => hctx, ?_⟩
  · have hrec : r.kernel.record cur.tgid = some p := by
      rw [record_of_eq hl, ← ho.pid_eq]
      exact record_setProcess_self ht₃ he₃ hpid
    have hsource : k.record cur.tgid = some e.obj ∨
        k.record cur.tgid = none ∧ e.obj = newProcess cur.tgid := by
      rw [← hs₁.record cur.tgid]
      exact ho.source
    rw [hrec, hp]
    exact Change.converted hsource hthread (by omega) (by omega) (by omega) (by omega) (by omega)
      hret
  · rw [record_of_eq hl, record_setProcess_ne ht₃ he₃ hpid (by rwa [ho.pid_eq]), hs₃.record,
      ho.others id hid, hs₁.record]
  · have h0 : 0 ≤ r.ret := by omega
    rw [if_pos ⟨rfl, h0⟩, hc, hs₃.countThreads, ho.countThreads, hs₁.countThreads]

theorem requested_convertToFiber (h : Tables k) (hr : convertToFiber k cur env = .ok r) :
    Requested k cur .convertToFiber arg env r := by
  unfold convertToFiber at hr
  have hs₁ := sameTables_kzalloc k (env.kzalloc .fiberArg)
  cases hf : kzalloc k (env.kzalloc .fiberArg) with
  | mk fiber k₁ =>
    rw [hf] at hr hs₁
    simp only at hr hs₁
    split at hr
    · cases hr
      exact requested_idle h hs₁ (fun _ => neg_enomem) rfl
    · rename_i e k₂ hopen
      have ho := opened_findOrAddProcess (h.of_same hs₁) hopen
      split at hr
      · rename_i x hthread
        cases hr
        -- a new record has no thread to be found
        have hold : e.obj ≠ newProcess cur.tgid := by
          intro hnew
          rw [hnew] at hthread
          cases hthread
        exact requested_opened hs₁ ho (SameTables.refl k₂) neg_one_lt rfl (Or.inr hold)
      · rename_i hthread
        split at hr
        · rename_i k₃ ht
          cases hr
          have hs₃ := sameTables_kzalloc k₂ (env.kzalloc .threadArg)
          rw [ht] at hs₃
          refine requested_opened hs₁ ho hs₃ neg_enomem rfl (Or.inl ?_)
          cases hb : env.kzalloc .threadArg with
          | false => rfl
          | true => simp [hb, kzalloc] at ht
        · rename_i t k₃ ht
          obtain ⟨hs₃, rfl, hbrk₃⟩ := of_kzalloc ht
          split at hr
          · cases hr
          · rename_i f
            cases hr
            obtain ⟨_, rfl, hbrk₁⟩ := of_kzalloc hf
            exact requested_converted hs₁ ho hthread hs₃ hbrk₁ hbrk₃ rfl rfl rfl rfl rfl rfl

theorem requested_createFiber (h : Tables k) (hr : createFiber k cur env = .ok r) :
    Requested k cur .createFiber arg env r := by
  unfold createFiber at hr
  have hs₁ := sameTables_kzalloc k (env.kzalloc .createArg)
  cases ha : kzalloc k (env.kzalloc .createArg) with
  | mk args k₁ =>
    rw [ha] at hr hs₁
    simp only at hr hs₁
    have hs₂ := sameTables_kzalloc k₁ (env.kzalloc .fiberArg)
    cases hf : kzalloc k₁ (env.kzalloc .fiberArg) with
    | mk fiber k₂ =>
      rw [hf] at hr hs₂
      simp only at hr hs₂
      have hs := hs₁.trans hs₂
      split at hr
      · cases hr
      · rename_i a
        split at hr
        · cases hr
          exact requested_idle h hs (fun _ => neg_one_lt) rfl
        · split at hr
          · cases hr
            exact requested_idle h hs (fun _ => neg_one_lt) rfl
          · rename_i e he
            split at hr
            · cases hr
              exact requested_idle h (hs.trans (sameTables_kfree k₂ a)) (fun _ => neg_one_lt) rfl
            · rename_i thread hthread
              split at hr
              · cases hr
              · rename_i f
                cases hr
                obtain ⟨_, rfl, hbrk⟩ := of_kzalloc hf
                rw [hs.searchProcess] at he
                have hw := (hs.setProcess e.addr (e.obj.create k₁.brk
                  (createdFiber cur env.createArg e.obj.fiberId))).trans (sameTables_kfree _ a)
                have hlt : k₁.brk < k₂.brk := by omega
                exact requested_write h he (Change.created hthread hs₁.brk_le hlt rfl) rfl hw
                  (by decide) (fun _ => rfl)

theorem requested_switchToFiber (h : Tables k) (hr : switchToFiber k cur arg env = .ok r) :
    Requested k cur .switchToFiber arg env r := by
  have hs := SameTables.refl k
  unfold switchToFiber at hr
  split at hr
  · cases hr
    exact requested_idle h hs (fun _ => neg_one_lt) rfl
  · rename_i e he
    simp only at hr
    split at hr
    · cases hr
      exact requested_idle h hs (fun _ => neg_one_lt) rfl
    · rename_i fiber hfiber
      split at hr
      · rename_i hrun
        cases hr
        exact requested_write h he (Change.failed hfiber hrun neg_one_lt) rfl
          (SameTables.refl _) (by decide) (fun _ => rfl)
      · rename_i hrun
        split at hr
        · cases hr
          exact requested_idle h hs (fun _ => neg_one_lt) rfl
        · rename_i thread hthread
          obtain ⟨⟨a, old⟩, hold, hr⟩ := of_bind hr
          obtain ⟨⟨b, next⟩, hnext, hr⟩ := of_bind hr
          obtain ⟨hactive, hold⟩ := of_derefFiber hold
          obtain ⟨hb, hnext⟩ := of_derefFiber hnext
          cases hb
          cases hr
          have hstill : fiber.obj.running = false := by simpa using hrun
          exact requested_write h he
            (Change.switched hfiber hstill hthread hactive hold hnext rfl rfl) rfl
            (SameTables.refl _) (by decide) (fun hne => absurd rfl (hne rfl))

/-! ## The FLS commands -/

theorem requested_stored {e : Entry ProcessArg} {thread : Entry ThreadArg} {a : ℕ}
    {old f : FiberArg} (h : Tables k) (he : searchProcess k cur.tgid = some e)
    (hthread : searchThread cur.pid e.obj = some thread)
    (hold : derefFiber e.obj.fibers thread.obj.activeFiber = .ok (a, old))
    (hw : FlsWrite old arg env cmd r.ret f)
    (hs : SameTables (k.setFiber e a f) r.kernel) (hctx : r.context = cur.toContext) :
    Requested k cur cmd arg env r := by
  obtain ⟨hactive, hold⟩ := of_derefFiber hold
  refine requested_write h he (Change.stored hthread hactive hold hw) rfl hs ?_ (fun _ => hctx)
  rintro rfl
  cases hw

theorem requested_flsAlloc (h : Tables k) (hr : flsAlloc k cur = .ok r) :
    Requested k cur .flsAlloc arg env r := by
  have hs := SameTables.refl k
  unfold flsAlloc at hr
  split at hr
  · cases hr
    exact requested_idle h hs (fun _ => neg_one_lt) rfl
  · rename_i e he
    split at hr
    · cases hr
      exact requested_idle h hs (fun _ => neg_one_lt) rfl
    · rename_i thread hthread
      obtain ⟨⟨a, old⟩, hold, hr⟩ := of_bind hr
      obtain ⟨i, hi, hr⟩ := of_bind hr
      split at hr
      · cases hr
        exact requested_idle h hs (fun _ => neg_one_lt) rfl
      · rename_i hne
        cases hr
        exact requested_stored h he hthread hold (FlsWrite.alloc hi hne) (SameTables.refl _) rfl

theorem requested_flsFree (h : Tables k) (hr : flsFree k cur arg = .ok r) :
    Requested k cur .flsFree arg env r := by
  have hs := SameTables.refl k
  have hquiet : Command.flsFree.reports = true → r.ret < 0 := fun hc => by cases hc
  unfold flsFree at hr
  split at hr
  · cases hr
    exact requested_idle h hs hquiet rfl
  · rename_i e he
    split at hr
    · cases hr
      exact requested_idle h hs hquiet rfl
    · rename_i thread hthread
      split at hr
      · rename_i hrange
        obtain ⟨⟨a, old⟩, hold, hr⟩ := of_bind hr
        obtain ⟨f, hf, hr⟩ := of_bind hr
        cases hr
        exact requested_stored h he hthread hold (FlsWrite.free hrange.1 hrange.2 hf)
          (SameTables.refl _) rfl
      · cases hr
        exact requested_idle h hs hquiet rfl

theorem requested_flsGetValue (h : Tables k) (hr : flsGetValue k cur env = .ok r) :
    Requested k cur .flsGetValue arg env r := by
  have hquiet : Command.flsGetValue.reports = true → r.ret < 0 := fun hc => by cases hc
  unfold flsGetValue flsGetValueWith at hr
  have hs := sameTables_kzalloc k (env.kzalloc .flsArg)
  split at hr
  · rename_i k₁ ha
    cases hr
    rw [ha] at hs
    exact requested_idle h hs hquiet rfl
  · rename_i args k₁ ha
    rw [ha] at hs
    have hfree := hs.trans (sameTables_kfree k₁ args)
    split at hr
    · cases hr
      exact requested_idle h hs hquiet rfl
    · split at hr
      · cases hr
        exact requested_idle h hs hquiet rfl
      · split at hr
        · cases hr
          exact requested_idle h hfree hquiet rfl
        · obtain ⟨⟨a, old⟩, _, hr⟩ := of_bind hr
          obtain ⟨b, _, hr⟩ := of_bind hr
          split at hr
          · split at hr
            · cases hr
              exact requested_idle h hs hquiet rfl
            · cases hr
              exact requested_idle h hfree hquiet rfl
          · cases hr
            exact requested_idle h hfree hquiet rfl

theorem requested_flsSetValue (h : Tables k) (hr : flsSetValue k cur env = .ok r) :
    Requested k cur .flsSetValue arg env r := by
  have hquiet : Command.flsSetValue.reports = true → r.ret < 0 := fun hc => by cases hc
  unfold flsSetValue flsSetValueWith at hr
  have hs := sameTables_kzalloc k (env.kzalloc .flsArg)
  split at hr
  · rename_i k₁ ha
    cases hr
    rw [ha] at hs
    exact requested_idle h hs hquiet rfl
  · rename_i args k₁ ha
    rw [ha] at hs
    have hfree := hs.trans (sameTables_kfree k₁ args)
    split at hr
    · cases hr
      exact requested_idle h hs hquiet rfl
    · split at hr
      · cases hr
        exact requested_idle h hs hquiet rfl
      · rename_i e he
        split at hr
        · cases hr
          exact requested_idle h hfree hquiet rfl
        · rename_i thread hthread
          obtain ⟨⟨a, old⟩, hold, hr⟩ := of_bind hr
          obtain ⟨b, hb, hr⟩ := of_bind hr
          split at hr
          · rename_i htrue
            cases hr
            rw [htrue] at hb
            rw [hs.searchProcess] at he
            exact requested_stored h he hthread hold (FlsWrite.set hb)
              ((hs.setProcess _ _).trans (sameTables_kfree _ args)) rfl
          · cases hr
            exact requested_idle h hfree hquiet rfl

/-- Every request that returns. -/
theorem requested (h : Tables k) (hr : myIoctl k cur cmd arg env = .ok r) :
    Requested k cur cmd arg env r := by
  cases cmd with
  | convertToFiber => exact requested_convertToFiber h hr
  | createFiber => exact requested_createFiber h hr
  | switchToFiber => exact requested_switchToFiber h hr
  | flsAlloc => exact requested_flsAlloc h hr
  | flsFree => exact requested_flsFree h hr
  | flsGetValue => exact requested_flsGetValue h hr
  | flsSetValue => exact requested_flsSetValue h hr
  | other =>
    cases hr
    exact requested_idle h (SameTables.refl k) (fun hc => by cases hc) rfl

/-! ## The exit of a thread -/

/-- The exit of a converted thread of the record `e`, whose active fiber is
`a`. -/
structure Removed (k : Kernel) (e : Entry ProcessArg) (thread : Entry ThreadArg) (a : ℕ)
    (k' : Kernel) : Prop where
  countThreads : k'.countThreads = k.countThreads - 1
  record : k'.record e.obj.pid =
    if k'.countThreads = 0 then none else some (e.obj.exit thread.addr a)
  allocated : ∀ q, q ∈ k'.allocated ↔ q ∈ k.allocated ∧ q ≠ thread.addr ∧ q ≠ a ∧
    (k'.countThreads = 0 → q ≠ e.addr)

/-- What is known of an exit that returned: the thread was not converted and
nothing changed, or the thread and its active fiber were removed. -/
structure Exited (k : Kernel) (proId thrId : Pid) (k' : Kernel) : Prop where
  tables : Tables k'
  brk_eq : k'.brk = k.brk
  others : ∀ id, id ≠ proId → k'.record id = k.record id
  change : k' = k ∧ (∀ p, k.record proId = some p → searchThread thrId p = none) ∨
    ∃ e thread a old, searchProcess k proId = some e ∧ searchThread thrId e.obj = some thread ∧
      thread.obj.activeFiber = some a ∧ e.obj.fibers.deref a = some old ∧ Removed k e thread a k'

theorem exited {proId thrId : Pid} {k' : Kernel} (h : Tables k)
    (hx : preHandler k proId thrId = .ok k') : Exited k proId thrId k' := by
  unfold preHandler at hx
  split at hx
  · rename_i hnone
    cases hx
    refine ⟨h, rfl, fun _ _ => rfl, Or.inl ⟨rfl, fun p hp => ?_⟩⟩
    rw [Kernel.record, hnone] at hp
    cases hp
  · rename_i e he
    obtain ⟨hmem, hpid⟩ := of_searchProcess he
    split at hx
    · rename_i hnone
      cases hx
      refine ⟨h, rfl, fun _ _ => rfl, Or.inl ⟨rfl, fun p hp => ?_⟩⟩
      rw [Kernel.record, he] at hp
      cases hp
      exact hnone
    · rename_i thread hthread
      obtain ⟨⟨a, old⟩, hold, hx⟩ := of_bind hx
      obtain ⟨hactive, hold⟩ := of_derefFiber hold
      simp only at hx
      -- `k₁` is the kernel with the new record, and `e₁` is its entry there
      generalize hp : e.obj.exit thread.addr a = p at hx
      have hpp : p.pid = e.obj.pid := by rw [← hp]; rfl
      have h₁ := h.setProcess hmem hpp
      have hmem₁ : { e with obj := p } ∈ k.listProcess.modify e.addr fun _ => p :=
        mem_modify_self hmem
      split at hx
      · rename_i hzero
        cases hx
        have h₂ := h₁.delProcess e.addr
        refine ⟨h₂.of_eq rfl (Nat.le_refl _), rfl, fun id hid => ?_, Or.inr ⟨e, thread, a, old, he,
          hthread, hactive, hold, ⟨rfl, ?_, fun q => ?_⟩⟩⟩
        · rw [← record_setProcess_ne h hmem hpp (by rwa [hpid])]
          exact record_delProcess_ne h₁ hmem₁ (by rw [hpp, hpid]; exact hid)
        · rw [← hpp]
          exact (record_delProcess_self h₁ hmem₁).trans (if_pos hzero).symm
        · have hz : k.countThreads - 1 = 0 := hzero
          simp only [kfree, List.mem_filter, bne_iff_ne, Kernel.setProcess, hz]
          tauto
      · rename_i hne
        cases hx
        refine ⟨h₁.of_eq rfl (Nat.le_refl _), rfl, fun id hid => ?_, Or.inr ⟨e, thread, a, old, he,
          hthread, hactive, hold, ⟨rfl, ?_, fun q => ?_⟩⟩⟩
        · exact record_setProcess_ne h hmem hpp (by rwa [hpid])
        · rw [hp]
          exact (record_setProcess_self h hmem hpp).trans (if_neg hne).symm
        · have hz : k.countThreads - 1 ≠ 0 := hne
          simp only [kfree, List.mem_filter, bne_iff_ne, Kernel.setProcess, hz]
          tauto

/-- An exit only unlinks fibers. -/
theorem Exited.fibers_of_record {proId thrId id : Pid} {k' : Kernel} {p : ProcessArg}
    (he : Exited k proId thrId k') (h : Tables k) (hp : k'.record id = some p) :
    ∃ p₀, k.record id = some p₀ ∧ ∀ f ∈ p.fibers, f ∈ p₀.fibers := by
  by_cases hid : id = proId
  · subst hid
    rcases he.change with ⟨rfl, _⟩ | ⟨e, th, a, old, hfound, _, _, _, hrem⟩
    · exact ⟨p, hp, fun _ hf => hf⟩
    · obtain ⟨hmem, rfl⟩ := of_searchProcess hfound
      rw [hrem.record] at hp
      split at hp
      · cases hp
      · cases hp
        exact ⟨e.obj, record_of_mem h hmem, fun f hf => (mem_hashDel.mp hf).1⟩
  · rw [he.others id hid] at hp
    exact ⟨p, hp, fun _ hf => hf⟩

end LinuxFibers.Module
