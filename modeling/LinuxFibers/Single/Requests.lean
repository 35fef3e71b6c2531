import LinuxFibers.Single.Records

/-!
# What a request of the single-threaded module can do

`Change` lists every effect that a request has on the record of the caller's
process, and `requested` proves that each request that returns has one of them
and leaves every other record alone.  The tables stay well formed in every run
(`kernelOk_run`).
-/

namespace LinuxFibers.Single

open LinuxFibers.Lib HashTable LinuxFibers.Module

variable {k k' : Kernel} {cur : Task} {cmd : Command} {arg : Word} {env : Env} {r : Reply}

/-- What an FLS command writes to the active fiber `old`, and what it returns. -/
inductive FlsWrite (old : FiberArg) (arg : Word) (env : Env) : Command → ℤ → FiberArg → Prop where
  | alloc {i : ℕ} {g f : FiberArg} : findFirstZeroBit old = .ok i → changeBit old i = .ok g →
      setSlot g i 0 = .ok f → FlsWrite old arg env .flsAlloc i f
  | free {f : FiberArg} : clearBit old arg.toInt = .ok f → FlsWrite old arg env .flsFree 1 f
  | set {f : FiberArg} : testBit old env.flsArg.dwFlsIndex.toInt = .ok true →
      setSlot old env.flsArg.dwFlsIndex.toNat env.flsArg.lpFlsData = .ok f →
      FlsWrite old arg env .flsSetValue 0 f

/-- What a command returns when it has no effect. -/
def Idle (cmd : Command) (ret : ℤ) : Prop :=
  (cmd.reports = true → ret < 0) ∧ (cmd = .flsFree → ret = 0)

/-- The effect of a request on the record of the caller's process. -/
inductive Change (k : Kernel) (cur : Task) (arg : Word) (env : Env) (r : Reply) :
    Command → Option ProcessArg → Option ProcessArg → Prop where
  | idle {cmd : Command} {o : Option ProcessArg} :
      Idle cmd r.ret → Change k cur arg env r cmd o o
  | converted {o : Option ProcessArg} {p : ProcessArg} {t f : ℕ} :
      (o = some p ∨ o = none ∧ p = newProcess cur.tgid) → searchThread cur.pid p = none →
      k.brk ≤ t → t < r.kernel.brk → k.brk ≤ f → f < r.kernel.brk → t ≠ f → r.ret = p.fiberId →
      Change k cur arg env r .convertToFiber o
        (some (p.convert cur.pid t f (convertedFiber cur env p.fiberId)))
  | created {p : ProcessArg} {thread : Entry ThreadArg} {a f : ℕ} {old : FiberArg} :
      searchThread cur.pid p = some thread → thread.obj.activeFiber = some a →
      p.fibers.deref a = some old → k.brk ≤ f → f < r.kernel.brk → r.ret = p.fiberId →
      Change k cur arg env r .createFiber (some p)
        (some (p.create cur a f (createdFiber cur env p.fiberId)))
  | switched {p : ProcessArg} {fiber : Entry FiberArg} {thread : Entry ThreadArg} {a : ℕ}
      {old next : FiberArg} :
      searchFiber (arg.setWidth 32) p = some fiber → searchThread cur.pid p = some thread →
      thread.obj.activeFiber = some a → p.fibers.deref a = some old →
      (p.saved cur env a fiber.addr).deref fiber.addr = some next → r.ret = 0 →
      r.context = ⟨assignRegs cur.regs next.regs, next.fpuReg⟩ →
      Change k cur arg env r .switchToFiber (some p)
        (some (p.switch cur env thread.addr a fiber.addr))
  | stored {cmd : Command} {p : ProcessArg} {thread : Entry ThreadArg} {a : ℕ}
      {old f : FiberArg} :
      searchThread cur.pid p = some thread → thread.obj.activeFiber = some a →
      p.fibers.deref a = some old → FlsWrite old arg env cmd r.ret f →
      Change k cur arg env r cmd (some p)
        (some { p with fibers := p.fibers.modify a fun _ => f })

/-- What is known of a request that returned. -/
structure Requested (k : Kernel) (cur : Task) (cmd : Command) (arg : Word) (env : Env)
    (r : Reply) : Prop where
  tables : Tables r.kernel.shape
  brk_le : k.brk ≤ r.kernel.brk
  change : Change k cur arg env r cmd (k.record cur.tgid) (r.kernel.record cur.tgid)
  others : ∀ id, id ≠ cur.tgid → r.kernel.record id = k.record id

/-! ## Requests without an effect and with one write -/

theorem tables_of_eq (h : Tables k.shape) (hl : k'.listProcess = k.listProcess)
    (hb : k.brk ≤ k'.brk) : Tables k'.shape := by
  refine h.of_eq ?_ hb
  show k'.listProcess.image ProcessArg.shape = k.listProcess.image ProcessArg.shape
  rw [hl]

theorem searchProcess_of_eq (hl : k'.listProcess = k.listProcess) (id : Pid) :
    searchProcess k' id = searchProcess k id := by
  rw [searchProcess, searchProcess, hl]

theorem idle_neg_one (h : cmd ≠ .flsFree) : Idle cmd (-1) :=
  ⟨fun _ => neg_one_lt, fun hc => absurd hc h⟩

theorem setProcess_of_eq (hl : k'.listProcess = k.listProcess) (a : ℕ) (p : ProcessArg) :
    (k'.setProcess a p).listProcess = (k.setProcess a p).listProcess := by
  simp only [Kernel.setProcess, hl]

theorem requested_idle (h : Tables k.shape) (hl : r.kernel.listProcess = k.listProcess)
    (hb : k.brk ≤ r.kernel.brk) (hret : Idle cmd r.ret) :
    Requested k cur cmd arg env r where
  tables := tables_of_eq h hl hb
  brk_le := hb
  change := by
    rw [record_of_eq hl]
    exact Change.idle hret
  others id _ := record_of_eq hl id

/-- A request that writes the record of its process, in a kernel that grew. -/
theorem requested_write (h : Tables k.shape) {e : Entry ProcessArg} {p : ProcessArg}
    (hs : searchProcess k cur.tgid = some e)
    (hchange : Change k cur arg env r cmd (some e.obj) (some p)) (hp : p.pid = e.obj.pid)
    (hl : r.kernel.listProcess = (k.setProcess e.addr p).listProcess)
    (hb : k.brk ≤ r.kernel.brk) :
    Requested k cur cmd arg env r where
  tables := tables_of_eq (tables_setProcess h hs hp) hl hb
  brk_le := hb
  change := by
    rw [record_of_eq hl, record_setProcess_self h hs hp, record_of_searchProcess hs]
    exact hchange
  others id hid := by
    rw [record_of_eq hl]
    exact record_setProcess_ne h hs hp hid

/-! ## The heap -/

/-- `kmalloc` leaves the tables, and gives the next object when it succeeds. -/
theorem of_kmalloc {b : Bool} {q : Option ℕ} (h : kmalloc k b = (q, k')) :
    k'.listProcess = k.listProcess ∧ k.brk ≤ k'.brk ∧
      ∀ a, nonNull q = .ok a → a = k.brk ∧ k'.brk = k.brk + 1 := by
  cases b with
  | false =>
    cases h
    exact ⟨rfl, Nat.le_refl _, fun a ha => by cases ha⟩
  | true =>
    cases h
    refine ⟨rfl, Nat.le_succ _, fun a ha => ?_⟩
    cases ha
    exact ⟨rfl, rfl⟩

/-! ## The commands on fibers -/

/-- What `CONVERTTOFIBER` finds or makes. -/
structure Opened (k : Kernel) (id : Pid) (e : Entry ProcessArg) (k' : Kernel) : Prop where
  tables : Tables k'.shape
  found : searchProcess k' id = some e
  source : k.record id = some e.obj ∨ k.record id = none ∧ e.obj = newProcess id
  others : ∀ id', id' ≠ id → k'.record id' = k.record id'
  brk_le : k.brk ≤ k'.brk

theorem opened_findOrAddProcess (h : Tables k.shape) {id : Pid} {b : Bool} {e : Entry ProcessArg}
    (ho : findOrAddProcess k id b = .ok (e, k')) : Opened k id e k' := by
  unfold findOrAddProcess at ho
  split at ho
  · rename_i x hx
    cases ho
    exact ⟨h, hx, Or.inl (record_of_searchProcess hx), fun _ _ => rfl, Nat.le_refl _⟩
  · rename_i hnone
    cases hm : kmalloc k b with
    | mk process k₁ =>
    rw [hm] at ho
    obtain ⟨hl, hb, hnext⟩ := of_kmalloc hm
    obtain ⟨a, ha, ho⟩ := of_bind ho
    obtain ⟨haddr, hbrk⟩ := hnext a ha
    cases ho
    have hrec : k.record id = none := by
      rw [Kernel.record, hnone]
      rfl
    refine ⟨?_, search_hashAdd_self (beq_self_eq_true id), Or.inr ⟨hrec, rfl⟩, fun id' hid => ?_,
      hb⟩
    · have hgrown : Tables k₁.shape := tables_of_eq h hl hb
      have hnew : ∀ x ∈ k₁.shape.listProcess, x.addr ≠ a := by
        intro x hx
        have hx : x ∈ k.listProcess.image ProcessArg.shape := by
          rw [← hl]
          exact hx
        have hlt : x.addr < k.brk := h.addr_lt x hx
        omega
      have hlt : a < k₁.shape.brk := by
        show a < k₁.brk
        omega
      have hnone' : k₁.shape.record id = none := by
        rw [record_shape, record_of_eq hl, hrec]
        rfl
      exact hgrown.addProcess (p := (newProcess id).shape) hnew hlt hnone'
    · have hs := @search_hashAdd_of_not _ k.listProcess (hash32 id') (hash32 id) a
        (fun q => q.pid == id') (newProcess id) (beq_eq_false_iff_ne.mpr (Ne.symm hid))
      show Option.map Entry.obj ((k₁.listProcess.hashAdd (hash32 id) a (newProcess id)).search
        (hash32 id') fun q => q.pid == id') = _
      rw [hl, hs]
      rfl

theorem requested_convertToFiber (h : Tables k.shape) (hr : convertToFiber k cur env = .ok r) :
    Requested k cur .convertToFiber arg env r := by
  unfold convertToFiber at hr
  cases hm₁ : kmalloc k (env.kmalloc .fiberArg) with
  | mk fiber k₁ =>
  rw [hm₁] at hr
  obtain ⟨hl₁, hb₁, hnext₁⟩ := of_kmalloc hm₁
  obtain ⟨⟨e, k₂⟩, hopen, hr⟩ := of_bind hr
  have ho := opened_findOrAddProcess (tables_of_eq h hl₁ hb₁) hopen
  have hb₂ : k₁.brk ≤ k₂.brk := ho.brk_le
  have hsource : k.record cur.tgid = some e.obj ∨
      k.record cur.tgid = none ∧ e.obj = newProcess cur.tgid := by
    rw [← record_of_eq hl₁]
    exact ho.source
  have hothers : ∀ id, id ≠ cur.tgid → k₂.record id = k.record id := by
    intro id hid
    rw [ho.others id hid]
    exact record_of_eq hl₁ id
  simp only at hr
  split at hr
  · rename_i th hth
    cases hr
    refine ⟨ho.tables, Nat.le_trans hb₁ hb₂, ?_, hothers⟩
    rcases hsource with hold | ⟨_, hnew⟩
    · rw [hold, record_of_searchProcess ho.found]
      exact Change.idle (idle_neg_one nofun)
    · rw [hnew] at hth
      cases hth
  · rename_i hth
    cases hm₃ : kmalloc k₂ (env.kmalloc .threadArg) with
    | mk thread k₃ =>
    rw [hm₃] at hr
    obtain ⟨hl₃, hb₃, hnext₃⟩ := of_kmalloc hm₃
    obtain ⟨t, ht, hr⟩ := of_bind hr
    obtain ⟨f, hf, hr⟩ := of_bind hr
    obtain ⟨_, _, hr⟩ := of_bind hr
    obtain ⟨ht, hbt⟩ := hnext₃ t ht
    obtain ⟨hf, hbf⟩ := hnext₁ f hf
    have hfound : searchProcess k₃ cur.tgid = some e := by
      rw [searchProcess_of_eq hl₃]
      exact ho.found
    have htables : Tables k₃.shape := tables_of_eq ho.tables hl₃ hb₃
    generalize hp : e.obj.convert cur.pid t f (convertedFiber cur env e.obj.fiberId) = p at hr
    have hpid : p.pid = e.obj.pid := by
      rw [← hp]
      rfl
    cases hr
    refine ⟨tables_setProcess htables hfound hpid, ?_, ?_, fun id hid => ?_⟩
    · show k.brk ≤ k₃.brk
      omega
    · show Change _ _ _ _ _ _ _ ((k₃.setProcess e.addr p).record cur.tgid)
      rw [record_setProcess_self htables hfound hpid, ← hp]
      refine Change.converted hsource hth ?_ ?_ ?_ ?_ ?_ rfl
      · omega
      · show t < k₃.brk
        omega
      · omega
      · show f < k₃.brk
        omega
      · omega
    · show (k₃.setProcess e.addr p).record id = _
      rw [record_setProcess_ne htables hfound hpid hid, record_of_eq hl₃]
      exact hothers id hid

theorem requested_createFiber (h : Tables k.shape) (hr : createFiber k cur env = .ok r) :
    Requested k cur .createFiber arg env r := by
  unfold createFiber at hr
  cases hm₁ : kmalloc k (env.kmalloc .createArg) with
  | mk args k₁ =>
  cases hm₂ : kmalloc k₁ (env.kmalloc .fiberArg) with
  | mk fiber k₂ =>
  simp only [hm₁, hm₂] at hr
  obtain ⟨hl₁, hb₁, hnext₁⟩ := of_kmalloc hm₁
  obtain ⟨hl₂, hb₂, hnext₂⟩ := of_kmalloc hm₂
  have hl : k₂.listProcess = k.listProcess := hl₂.trans hl₁
  obtain ⟨_, _, hr⟩ := of_bind hr
  split at hr
  · cases hr
    exact requested_idle h hl (Nat.le_trans hb₁ hb₂) (idle_neg_one nofun)
  · rename_i e he
    split at hr
    · cases hr
      exact requested_idle h hl (Nat.le_trans hb₁ hb₂) (idle_neg_one nofun)
    · rename_i th hth
      obtain ⟨f, hf, hr⟩ := of_bind hr
      obtain ⟨_, _, hr⟩ := of_bind hr
      obtain ⟨⟨a, old⟩, hd, hr⟩ := of_bind hr
      obtain ⟨hactive, hold⟩ := of_derefFiber hd
      obtain ⟨hf, hbf⟩ := hnext₂ f hf
      cases hr
      have hfound : searchProcess k cur.tgid = some e := by rwa [← searchProcess_of_eq hl]
      refine requested_write h hfound (Change.created (f := f) hth hactive hold ?_ ?_ rfl) rfl ?_
        (Nat.le_trans hb₁ hb₂)
      · omega
      · show f < k₂.brk
        omega
      · exact setProcess_of_eq hl e.addr _

theorem requested_switchToFiber (h : Tables k.shape) (hr : switchToFiber k cur arg env = .ok r) :
    Requested k cur .switchToFiber arg env r := by
  unfold switchToFiber at hr
  split at hr
  · cases hr
    exact requested_idle h rfl (Nat.le_refl _) (idle_neg_one nofun)
  · rename_i e he
    simp only at hr
    split at hr
    · cases hr
      exact requested_idle h rfl (Nat.le_refl _) (idle_neg_one nofun)
    · rename_i fiber hfiber
      split at hr
      · cases hr
        exact requested_idle h rfl (Nat.le_refl _) (idle_neg_one nofun)
      · rename_i th hth
        split at hr
        · cases hr
        · obtain ⟨⟨a, old⟩, hd, hr⟩ := of_bind hr
          obtain ⟨⟨b, next⟩, hnext, hr⟩ := of_bind hr
          obtain ⟨hactive, hold⟩ := of_derefFiber hd
          obtain ⟨hb, hnext⟩ := of_derefFiber hnext
          cases hr
          cases hb
          exact requested_write h he (Change.switched hfiber hth hactive hold hnext rfl rfl) rfl rfl
            (Nat.le_refl _)

/-! ## The commands on fiber local storage -/

theorem requested_stored (h : Tables k.shape) {e : Entry ProcessArg} {th : Entry ThreadArg}
    {a : ℕ} {old f : FiberArg} (he : searchProcess k cur.tgid = some e)
    (hth : searchThread cur.pid e.obj = some th)
    (hd : derefFiber e.obj.fibers th.obj.activeFiber = .ok (a, old))
    (hw : FlsWrite old arg env cmd r.ret f)
    (hl : r.kernel.listProcess = (k.setFiber e a f).listProcess) (hb : k.brk ≤ r.kernel.brk) :
    Requested k cur cmd arg env r := by
  obtain ⟨hactive, hold⟩ := of_derefFiber hd
  exact requested_write h he (Change.stored hth hactive hold hw) rfl hl hb

theorem requested_flsAlloc (h : Tables k.shape) (hr : flsAlloc k cur = .ok r) :
    Requested k cur .flsAlloc arg env r := by
  unfold flsAlloc at hr
  split at hr
  · cases hr
    exact requested_idle h rfl (Nat.le_refl _) (idle_neg_one nofun)
  · rename_i e he
    split at hr
    · cases hr
      exact requested_idle h rfl (Nat.le_refl _) (idle_neg_one nofun)
    · rename_i th hth
      obtain ⟨⟨a, old⟩, hd, hr⟩ := of_bind hr
      obtain ⟨i, hi, hr⟩ := of_bind hr
      obtain ⟨g, hg, hr⟩ := of_bind hr
      obtain ⟨f, hf, hr⟩ := of_bind hr
      cases hr
      exact requested_stored h he hth hd (FlsWrite.alloc hi hg hf) rfl (Nat.le_refl _)

theorem requested_flsFree (h : Tables k.shape) (hr : flsFree k cur arg = .ok r) :
    Requested k cur .flsFree arg env r := by
  have hzero : Idle Command.flsFree 0 := ⟨nofun, fun _ => rfl⟩
  unfold flsFree at hr
  split at hr
  · cases hr
    exact requested_idle h rfl (Nat.le_refl _) hzero
  · rename_i e he
    split at hr
    · cases hr
      exact requested_idle h rfl (Nat.le_refl _) hzero
    · rename_i th hth
      obtain ⟨⟨a, old⟩, hd, hr⟩ := of_bind hr
      obtain ⟨f, hf, hr⟩ := of_bind hr
      cases hr
      exact requested_stored h he hth hd (FlsWrite.free hf) rfl (Nat.le_refl _)

theorem requested_flsGetValue (h : Tables k.shape) (hr : flsGetValue k cur arg = .ok r) :
    Requested k cur .flsGetValue arg env r := by
  have hquiet : ∀ ret, Idle Command.flsGetValue ret := fun _ => ⟨nofun, nofun⟩
  unfold flsGetValue at hr
  split at hr
  · cases hr
    exact requested_idle h rfl (Nat.le_refl _) (hquiet _)
  · split at hr
    · cases hr
      exact requested_idle h rfl (Nat.le_refl _) (hquiet _)
    · obtain ⟨_, _, hr⟩ := of_bind hr
      obtain ⟨b, _, hr⟩ := of_bind hr
      split at hr
      · obtain ⟨_, _, hr⟩ := of_bind hr
        cases hr
        exact requested_idle h rfl (Nat.le_refl _) (hquiet _)
      · cases hr
        exact requested_idle h rfl (Nat.le_refl _) (hquiet _)

theorem requested_flsSetValue (h : Tables k.shape) (hr : flsSetValue k cur env = .ok r) :
    Requested k cur .flsSetValue arg env r := by
  have hquiet : ∀ ret, Idle Command.flsSetValue ret := fun _ => ⟨nofun, nofun⟩
  unfold flsSetValue at hr
  cases hm : kmalloc k (env.kmalloc .flsArg) with
  | mk args k₁ =>
  simp only [hm] at hr
  obtain ⟨hl, hb, _⟩ := of_kmalloc hm
  obtain ⟨_, _, hr⟩ := of_bind hr
  split at hr
  · cases hr
    exact requested_idle h hl hb (hquiet _)
  · rename_i e he
    split at hr
    · cases hr
      exact requested_idle h hl hb (hquiet _)
    · rename_i th hth
      obtain ⟨⟨a, old⟩, hd, hr⟩ := of_bind hr
      obtain ⟨b, hb', hr⟩ := of_bind hr
      split at hr
      · rename_i htrue
        obtain ⟨f, hf, hr⟩ := of_bind hr
        cases hr
        rw [htrue] at hb'
        have hfound : searchProcess k cur.tgid = some e := by rwa [← searchProcess_of_eq hl]
        refine requested_stored h hfound hth hd (FlsWrite.set hb' hf) ?_ hb
        exact setProcess_of_eq hl e.addr _
      · cases hr
        exact requested_idle h hl hb (hquiet _)

/-- Every request that returns. -/
theorem requested (h : Tables k.shape) (hr : myIoctl k cur cmd arg env = .ok r) :
    Requested k cur cmd arg env r := by
  cases cmd with
  | convertToFiber => exact requested_convertToFiber h hr
  | createFiber => exact requested_createFiber h hr
  | switchToFiber => exact requested_switchToFiber h hr
  | flsAlloc => exact requested_flsAlloc h hr
  | flsFree => exact requested_flsFree h hr
  | flsGetValue => exact requested_flsGetValue h hr
  | flsSetValue => exact requested_flsSetValue h hr
  | other =>
    cases hr
    exact requested_idle h rfl (Nat.le_refl _) ⟨nofun, nofun⟩

/-! ## The invariant -/

/-- A write of local storage changes the bitmap and the slots only. -/
theorem FlsWrite.eq_with {old f : FiberArg} {ret : ℤ} (h : FlsWrite old arg env cmd ret f) :
    f = { old with flsBitmap := f.flsBitmap, flsArray := f.flsArray } := by
  have hbit : ∀ (x : FiberArg) (i : ℕ) (b : Bool), x.setBit i b =
      { x with flsBitmap := (x.setBit i b).flsBitmap, flsArray := (x.setBit i b).flsArray } := by
    intro x i b
    unfold FiberArg.setBit
    split <;> rfl
  have hslot : ∀ {x y : FiberArg} {i : ℕ} {v : Word}, setSlot x i v = .ok y →
      y = { x with flsArray := y.flsArray } := by
    intro x y i v hxy
    unfold setSlot at hxy
    split at hxy <;> cases hxy
    rfl
  cases h with
  | @alloc i _ _ _ hg hf =>
    obtain ⟨b, _, hg⟩ := of_bind hg
    cases hg
    rw [hslot hf, hbit old i !b]
  | free hf =>
    obtain ⟨_, _, hf⟩ := of_bind hf
    cases hf
    exact hbit old _ _
  | set _ hf => rw [hslot hf]

theorem FlsWrite.shape_eq {old f : FiberArg} {ret : ℤ} (h : FlsWrite old arg env cmd ret f) :
    f.shape = old.shape := by
  rw [h.eq_with]
  rfl

theorem linked_owned_change {o o' : Option ProcessArg} (hc : Change k cur arg env r cmd o o')
    (hle : k.brk ≤ r.kernel.brk) (hok : ∀ p, o = some p → Linked k.brk p.shape ∧ Owned p.shape) :
    ∀ p, o' = some p → Linked r.kernel.brk p.shape ∧ Owned p.shape := by
  intro p' hp'
  cases hc with
  | idle => exact ⟨(hok p' hp').1.mono hle, (hok p' hp').2⟩
  | @converted o p t f hsource hth ht ht' hf hf' hne =>
    cases hp'
    have hp : Linked k.brk p.shape ∧ Owned p.shape := by
      rcases hsource with heq | ⟨_, rfl⟩
      · exact hok p heq
      · exact ⟨linked_newProcess _ cur.tgid, owned_newProcess cur.tgid⟩
    have hnone : Module.searchThread cur.pid p.shape = none := by
      rw [searchThread_shape, hth]
      rfl
    rw [shape_convert]
    exact ⟨linked_convert hp.1 hnone hle ht ht' hf hf' rfl, owned_convert hp.1 hp.2 hf rfl⟩
  | created _ _ _ hf hf' =>
    cases hp'
    rw [shape_create]
    exact ⟨(hok _ rfl).1.create hle hf hf' rfl, owned_create (hok _ rfl).2 rfl⟩
  | @switched p fiber thread a old next hfiber hth hactive =>
    cases hp'
    obtain ⟨hfe, _, hstill⟩ := of_searchFiber hfiber
    rw [shape_switch p cur env Module.Env.plain thread.addr a fiber.addr (bareFiber 0 true)]
    have hswitch : Owned (p.shape.switch cur Module.Env.plain thread.addr a (bareFiber 0 true)
        fiber.addr) :=
      owned_switch (hok p rfl).1 (hok p rfl).2
        (mem_image_of_mem ThreadArg.shape (of_searchThread hth).1)
        (mem_image_of_mem FiberArg.shape hfe) hstill hactive
    have hlinked : Linked k.brk (p.shape.switch cur Module.Env.plain thread.addr a
        (bareFiber 0 true) fiber.addr) := linked_switch (hok p rfl).1 thread.addr a _ fiber.addr
    have hbare := hlinked.mapFibers (g := fun e => bareFiber e.obj.index e.obj.running)
      fun _ _ => rfl
    exact ⟨hbare.mono hle, hswitch.mapFibers fun _ _ => rfl⟩
  | @stored cmd p thread a old f hth hactive hold hw =>
    cases hp'
    rw [shape_modify]
    have hkeep : ∀ e ∈ p.shape.fibers, e.addr = a →
        f.shape.index = e.obj.index ∧ f.shape.running = e.obj.running := by
      intro e he ha
      obtain ⟨x, hx, rfl⟩ := of_mem_image he
      rw [hw.shape_eq, ← (fibers_unique (hok p rfl).1).obj_of_deref hold hx ha]
      exact ⟨rfl, rfl⟩
    have hm := linked_owned_modify (hok p rfl).1 (hok p rfl).2 a (fun _ => f.shape) hkeep
    exact ⟨hm.1.mono hle, hm.2⟩

/-- The invariant from its parts, for the records of the kernel. -/
theorem kernelOk_of_records (ht : Tables k.shape)
    (h : ∀ id p, k.record id = some p → Linked k.brk p.shape ∧ Owned p.shape) : KernelOk k := by
  have hall : ∀ id q, k.shape.record id = some q → Linked k.brk q ∧ Owned q := by
    intro id q hq
    rw [record_shape] at hq
    obtain ⟨p, hp, heq⟩ := Option.map_eq_some_iff.mp hq
    rw [← heq]
    exact h id p hp
  exact { ht with
    linked := fun id q hq => (hall id q hq).1
    owned := fun id q hq => (hall id q hq).2 }

theorem kernelOk_init : KernelOk Kernel.init :=
  kernelOk_of_records Module.kernelOk_init.toTables fun _ _ hp => by cases hp

theorem kernelOk_request (h : KernelOk k) (hr : myIoctl k cur cmd arg env = .ok r) :
    KernelOk r.kernel := by
  have hq := requested h.tables hr
  refine kernelOk_of_records hq.tables fun id p hp => ?_
  by_cases hid : id = cur.tgid
  · subst hid
    exact linked_owned_change hq.change hq.brk_le (fun p hp => ⟨h.linked hp, h.owned hp⟩) p hp
  · rw [hq.others id hid] at hp
    exact ⟨(h.linked hp).mono hq.brk_le, h.owned hp⟩

/-- What an exit does: nothing, or the removal of a thread and its fiber. -/
structure Exited (k : Kernel) (proId thrId : Pid) (k' : Kernel) : Prop where
  tables : Tables k'.shape
  brk_eq : k'.brk = k.brk
  others : ∀ id, id ≠ proId → k'.record id = k.record id
  change : k' = k ∨ ∃ e th a, searchProcess k proId = some e ∧
    searchThread thrId e.obj = some th ∧ th.obj.activeFiber = some a ∧
    k'.record proId = some (e.obj.exit th.addr a)

theorem exited {proId thrId : Pid} (h : Tables k.shape)
    (hx : preHandler k proId thrId = .ok k') : Exited k proId thrId k' := by
  unfold preHandler at hx
  split at hx
  · cases hx
    exact ⟨h, rfl, fun _ _ => rfl, Or.inl rfl⟩
  · rename_i e he
    split at hx
    · cases hx
      exact ⟨h, rfl, fun _ _ => rfl, Or.inl rfl⟩
    · rename_i th hth
      obtain ⟨⟨a, old⟩, hd, hx⟩ := of_bind hx
      obtain ⟨hactive, _⟩ := of_derefFiber hd
      cases hx
      have hpid : (e.obj.exit th.addr a).pid = e.obj.pid := rfl
      exact ⟨tables_setProcess h he hpid, rfl, fun id hid => record_setProcess_ne h he hpid hid,
        Or.inr ⟨e, th, a, he, hth, hactive, record_setProcess_self h he hpid⟩⟩

/-- An exit only unlinks fibers. -/
theorem Exited.fibers_of_record {proId thrId id : Pid} {p : ProcessArg}
    (hx : Exited k proId thrId k') (hp : k'.record id = some p) :
    ∃ p₀, k.record id = some p₀ ∧ ∀ f ∈ p.fibers, f ∈ p₀.fibers := by
  by_cases hid : id = proId
  · subst hid
    rcases hx.change with rfl | ⟨e, th, a, he, _, _, hrec⟩
    · exact ⟨p, hp, fun _ hf => hf⟩
    · rw [hrec, Option.some.injEq] at hp
      refine ⟨e.obj, record_of_searchProcess he, fun f hf => ?_⟩
      rw [← hp] at hf
      exact (mem_hashDel.mp hf).1
  · rw [hx.others id hid] at hp
    exact ⟨p, hp, fun _ hf => hf⟩

theorem kernelOk_exit {proId thrId : Pid} (h : KernelOk k)
    (hx : preHandler k proId thrId = .ok k') : KernelOk k' := by
  have he := exited h.tables hx
  refine kernelOk_of_records he.tables fun id p hp => ?_
  rw [he.brk_eq]
  by_cases hid : id = proId
  · subst hid
    rcases he.change with rfl | ⟨e, th, a, hfound, hth, hactive, hrec⟩
    · exact ⟨h.linked hp, h.owned hp⟩
    · rw [hrec, Option.some.injEq] at hp
      have hold := record_of_searchProcess hfound
      rw [← hp, shape_exit]
      exact ⟨linked_exit (h.linked hold) _ _, owned_exit (h.linked hold) (h.owned hold)
        (mem_image_of_mem ThreadArg.shape (of_searchThread hth).1) hactive⟩
  · rw [he.others id hid] at hp
    exact ⟨h.linked hp, h.owned hp⟩

/-! ## Runs -/

variable {s t : System} {a : Action}

theorem step_ioctl {tgid pid : Pid} (h : Step s (.ioctl tgid pid cmd arg env) t) :
    ∃ r, s.request tgid pid cmd arg env = .ok r ∧ t = s.resume tgid pid r := by
  obtain ⟨r, hr, ht⟩ := of_bind h
  cases ht
  exact ⟨r, hr, rfl⟩

theorem step_exit {tgid pid : Pid} (h : Step s (.exit tgid pid) t) :
    ∃ k, preHandler s.kernel tgid pid = .ok k ∧ t = { s with kernel := k } := by
  obtain ⟨k, hk, ht⟩ := of_bind h
  cases ht
  exact ⟨k, hk, rfl⟩

/-- How a request changes the record of the caller's process. -/
theorem change_of_request {id pid : Pid} {o : Option ProcessArg} (hok : KernelOk s.kernel)
    (hr : s.request id pid cmd arg env = .ok r) (ho : r.kernel.record id = o) :
    Change s.kernel (s.task id pid) arg env r cmd (s.kernel.record id) o :=
  ho ▸ (requested hok.tables hr).change

/-- A request leaves the records of the other processes. -/
theorem record_of_request {id pid tgid : Pid} (hok : KernelOk s.kernel)
    (hr : s.request id pid cmd arg env = .ok r) (hid : tgid ≠ id) :
    r.kernel.record tgid = s.kernel.record tgid :=
  (requested hok.tables hr).others tgid hid

theorem kernelOk_step (h : KernelOk s.kernel) (hs : Step s a t) : KernelOk t.kernel := by
  cases a with
  | user tgid pid c =>
    cases hs
    exact h
  | ioctl tgid pid cmd arg env =>
    obtain ⟨r, hr, rfl⟩ := step_ioctl hs
    exact kernelOk_request h hr
  | exit tgid pid =>
    obtain ⟨k, hk, rfl⟩ := step_exit hs
    exact kernelOk_exit h hk

theorem kernelOk_run {context : Pid × Pid → Context} {as : List Action}
    (h : Run Step (System.init context) as s) : KernelOk s.kernel :=
  h.invariant (I := fun s => KernelOk s.kernel) (fun _ _ _ hs ha => kernelOk_step hs ha)
    kernelOk_init

end LinuxFibers.Single
