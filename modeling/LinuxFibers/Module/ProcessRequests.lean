import LinuxFibers.Module.Process

/-!
# The requests as requests of one process

Every request answers what `Process.request` answers for the process of the
caller, leaves the caller's record standing for the process that
`Process.request` leaves, and stops in the same faults.  This is the simulation
of one request, command by command.

An exit does to the process of the thread what `Process.exit` does, unless it
was the last converted thread of all, when the record goes.
-/

namespace LinuxFibers.Module

open LinuxFibers.Lib HashTable

/-- The process of a `tgid`. -/
def Kernel.process (k : Kernel) (id : Pid) : Option Process :=
  (k.record id).map ProcessArg.toProcess

/-- What the caller of a request gets. -/
def Reply.answer (r : Reply) : Answer := ⟨r.ret, r.context, r.copied⟩

/-- What a reply is for the caller and its process. -/
def Reply.seen (id : Pid) (r : Reply) : Answer × Option Process :=
  (r.answer, r.kernel.process id)

variable {k k' : Kernel} {cur : Task} {cmd : Command} {arg : Word} {env : Env} {brk : ℕ}
  {p : ProcessArg} {e : Entry ProcessArg} {t : Entry ThreadArg}

/-! ## Searches -/

theorem process_of_search (he : searchProcess k cur.tgid = some e) :
    k.process cur.tgid = some e.obj.toProcess := by
  rw [Kernel.process, record_of_searchProcess he]
  rfl

theorem process_of_search_none (h : searchProcess k cur.tgid = none) :
    k.process cur.tgid = none := by
  rw [Kernel.process, Kernel.record, h]
  rfl

theorem SameTables.process (hs : SameTables k k') (id : Pid) : k'.process id = k.process id := by
  rw [Kernel.process, Kernel.process, hs.record]

theorem active_of_search_none {pid : Pid} (h : searchThread pid p = none) :
    p.toProcess.active pid = none := by
  show (searchThread pid p).bind _ = none
  rw [h]
  rfl

/-- The active fiber of a thread that was found. -/
theorem active_of_search {pid : Pid} (hl : Linked brk p) (ho : Owned p)
    (h : searchThread pid p = some t) : ∃ f ∈ p.fibers, t.obj.activeFiber = some f.addr ∧
      f.obj.running = true ∧ derefFiber p.fibers t.obj.activeFiber = .ok (f.addr, f.obj) ∧
      p.toProcess.active pid = some f.obj.index := by
  obtain ⟨f, hf, hactive, hrun, hderef⟩ := derefFiber_active hl ho h
  obtain ⟨ht, hpid⟩ := of_searchThread h
  exact ⟨f, hf, hactive, hrun, hderef,
    (active_eq_some hl).mpr ⟨t, ht, f, hf, hpid, hactive, rfl⟩⟩

section OnActive

variable {ret ret' : ℤ}
  {request : Process → ℕ → FiberArg → Except Fault (Answer × Option Process)}

theorem onActive_of_none (h : searchThread cur.pid p = none) :
    Process.onActive (some p.toProcess) cur ret ret' request =
      answer cur (some p.toProcess) ret' := by
  simp only [Process.onActive, active_of_search_none h]

/-- The request of a converted thread is one on its active fiber. -/
theorem onActive_of_search (hl : Linked brk p) (ho : Owned p)
    (h : searchThread cur.pid p = some t) : ∃ f ∈ p.fibers,
      derefFiber p.fibers t.obj.activeFiber = .ok (f.addr, f.obj) ∧
      Process.onActive (some p.toProcess) cur ret ret' request =
        request p.toProcess f.obj.index f.obj := by
  obtain ⟨f, hf, _, _, hderef, hi⟩ := active_of_search hl ho h
  refine ⟨f, hf, hderef, ?_⟩
  simp only [Process.onActive, hi, fiber_of_mem hl hf]

end OnActive

/-- The fiber that a switch looks up is the one that the process finds. -/
theorem find_toProcess (hl : Linked brk p) (arg : Word) :
    p.toProcess.find arg = (searchFiber (arg.setWidth 32) p).map Entry.obj := by
  apply Option.ext
  intro f
  unfold Process.find
  rw [Option.map_eq_some_iff, Option.filter_eq_some_iff, fiber_eq_some hl, beq_iff_eq]
  constructor
  · rintro ⟨⟨x, hx, rfl, hi⟩, hb⟩
    refine ⟨x, (search_eq_some_iff hx ?_ fun y hy hyi => ?_).mpr ?_, rfl⟩
    · exact beq_iff_eq.mpr hi
    · rw [beq_iff_eq, ← hi] at hyi
      exact hl.index_inj y hy x hx hyi
    · rw [hl.fiber_bucket x hx, hb]
  · rintro ⟨x, hs, rfl⟩
    obtain ⟨hx, hi⟩ := of_searchFiber hs
    have hb : x.bucket = hash32 (arg.setWidth 32) := (of_search hs).2.1
    rw [hl.fiber_bucket x hx] at hb
    exact ⟨⟨x, hx, rfl, hi⟩, hb⟩

/-! ## Replies -/

theorem seen_reply {o : Option Process} (hs : k'.process cur.tgid = o) (ret : ℤ) :
    (reply cur k' ret).map (Reply.seen cur.tgid) = answer cur o ret := by
  rw [← hs]
  rfl

/-- The process of the caller after its record was written. -/
theorem process_setProcess (h : Tables k) (he : searchProcess k cur.tgid = some e)
    (hp : p.pid = e.obj.pid)
    (hw : k'.listProcess = (k.setProcess e.addr p).listProcess) :
    k'.process cur.tgid = some p.toProcess := by
  obtain ⟨hmem, hpid⟩ := of_searchProcess he
  rw [Kernel.process, record_of_eq hw, ← hpid, record_setProcess_self h hmem hp]
  rfl

/-- The process of the caller after its active fiber was written. -/
theorem process_setFiber (hok : KernelOk k) (he : searchProcess k cur.tgid = some e)
    {f : Entry FiberArg} (hf : f ∈ e.obj.fibers) {g : FiberArg} (hg : g.index = f.obj.index)
    (hs : SameTables (k.setFiber e f.addr g) k') :
    k'.process cur.tgid = some (e.obj.toProcess.store f.obj.index g) := by
  have hl := hok.linked _ _ (record_of_searchProcess he)
  have hpid : { e.obj with fibers := e.obj.fibers.modify f.addr fun _ => g }.pid = e.obj.pid := rfl
  rw [process_setProcess hok.toTables he hpid hs.listProcess, toProcess_modify hl hf hg]

/-! ## The commands -/

theorem kzalloc_of_true {b : Bool} (hb : b = true) :
    ∃ k', kzalloc k b = (some k.brk, k') ∧ SameTables k k' := by
  subst hb
  exact ⟨_, rfl, sameTables_kzalloc k true⟩

theorem kzalloc_of_false {b : Bool} (hb : b = false) : kzalloc k b = (none, k) := by
  subst hb
  rfl

theorem seen_createFiber (hok : KernelOk k) :
    (createFiber k cur env).map (Reply.seen cur.tgid) =
      Process.createFiber (k.process cur.tgid) cur env := by
  unfold createFiber Process.createFiber
  cases hc : env.kzalloc .createArg with
  | false => rfl
  | true =>
    obtain ⟨k₁, hk₁, hs₁⟩ := @kzalloc_of_true k true rfl
    have hs₂ := hs₁.trans (sameTables_kzalloc k₁ (env.kzalloc .fiberArg))
    cases hf : kzalloc k₁ (env.kzalloc .fiberArg) with
    | mk fiber k₂ =>
      rw [hf] at hs₂
      simp only [hk₁, hf, Bool.not_true, Bool.false_eq_true, if_false]
      cases hcopy : env.copyFromUser with
      | false => exact seen_reply (hs₂.process _) _
      | true =>
        simp only [Bool.not_true, Bool.false_eq_true, if_false, hs₂.searchProcess]
        cases he : searchProcess k cur.tgid with
        | none =>
          have hnone := process_of_search_none he
          simp only [hnone]
          exact seen_reply ((hs₂.process _).trans hnone) _
        | some e =>
          have hsome := process_of_search he
          simp only [hsome]
          cases hthread : searchThread cur.pid e.obj with
          | none =>
            simp only [active_of_search_none hthread, Option.isNone_none, if_true]
            exact seen_reply (((hs₂.trans (sameTables_kfree k₂ k.brk)).process _).trans hsome) _
          | some t =>
            have hrec := record_of_searchProcess he
            have hl := hok.linked _ _ hrec
            have ho := hok.owned _ _ hrec
            obtain ⟨f, _, _, _, _, hi⟩ := active_of_search hl ho hthread
            simp only [hi, Option.isNone_some, Bool.false_eq_true, if_false]
            cases hb : env.kzalloc .fiberArg with
            | false =>
              rw [kzalloc_of_false hb, Prod.mk.injEq] at hf
              rw [← hf.1]
              rfl
            | true =>
              obtain ⟨k', hk', _⟩ := @kzalloc_of_true k₁ _ hb
              rw [hk', Prod.mk.injEq] at hf
              rw [← hf.1]
              have hw := (hs₂.setProcess e.addr (e.obj.create k₁.brk
                (createdFiber cur env.createArg e.obj.fiberId))).trans (sameTables_kfree _ k.brk)
              rw [← toProcess_create hl ho hs₁.brk_le rfl]
              refine seen_reply (process_setProcess hok.toTables he ?_ hw.listProcess) _
              rfl

/-- The process that a conversion finds or makes. -/
theorem process_findOrAddProcess {k₁ k₂ : Kernel} {b : Bool} (hs : SameTables k k₁)
    (hopen : findOrAddProcess k₁ cur.tgid b = some (e, k₂)) :
    ¬ (k.process cur.tgid = none ∧ b = false) ∧
      (k.process cur.tgid).getD Process.empty = e.obj.toProcess := by
  unfold findOrAddProcess at hopen
  rw [hs.searchProcess] at hopen
  split at hopen
  · rename_i x hx
    cases hopen
    rw [process_of_search hx]
    exact ⟨fun h => Option.some_ne_none _ h.1, rfl⟩
  · rename_i hnone
    rw [process_of_search_none hnone]
    cases b with
    | false => cases hopen
    | true =>
      cases hopen
      exact ⟨fun h => Bool.noConfusion h.2, rfl⟩

theorem findOrAddProcess_eq_none {id : Pid} {b : Bool} (hopen : findOrAddProcess k id b = none) :
    searchProcess k id = none ∧ b = false := by
  unfold findOrAddProcess at hopen
  split at hopen
  · cases hopen
  · rename_i hnone
    cases b with
    | false => exact ⟨hnone, rfl⟩
    | true => cases hopen

theorem seen_convertToFiber (hok : KernelOk k) :
    (convertToFiber k cur env).map (Reply.seen cur.tgid) =
      Process.convertToFiber (k.process cur.tgid) cur env := by
  unfold convertToFiber
  have hs₁ := sameTables_kzalloc k (env.kzalloc .fiberArg)
  cases hf : kzalloc k (env.kzalloc .fiberArg) with
  | mk fiber k₁ =>
    rw [hf] at hs₁
    have ht₁ : Tables k₁ := hok.toTables.of_same hs₁
    simp only
    cases hopen : findOrAddProcess k₁ cur.tgid (env.kzalloc .processArg) with
    | none =>
      obtain ⟨hnone, hfail⟩ := findOrAddProcess_eq_none hopen
      have hprocess : k.process cur.tgid = none :=
        (hs₁.process _).symm.trans (process_of_search_none hnone)
      rw [Process.convertToFiber, if_pos ⟨hprocess, hfail⟩]
      exact seen_reply (process_of_search_none hnone) _
    | some ek =>
      obtain ⟨e, k₂⟩ := ek
      have hopened := opened_findOrAddProcess ht₁ hopen
      obtain ⟨hmade, hprocess⟩ := process_findOrAddProcess hs₁ hopen
      have hfound : searchProcess k₂ cur.tgid = some e := by
        rw [← hopened.pid_eq]
        exact searchProcess_of_mem hopened.tables hopened.mem
      rw [Process.convertToFiber, if_neg hmade]
      simp only [hprocess]
      obtain ⟨hl, ho⟩ : Linked k.brk e.obj ∧ Owned e.obj := by
        rcases hopened.source with hrec | ⟨_, hnew⟩
        · rw [hs₁.record] at hrec
          exact ⟨hok.linked _ _ hrec, hok.owned _ _ hrec⟩
        · rw [hnew]
          exact ⟨linked_newProcess _ _, owned_newProcess _⟩
      cases hthread : searchThread cur.pid e.obj with
      | some t =>
        obtain ⟨f, _, _, _, _, hi⟩ := active_of_search hl ho hthread
        simp only [hi, Option.isSome_some, if_true]
        exact seen_reply (process_of_search hfound) _
      | none =>
        simp only [active_of_search_none hthread, Option.isSome_none, Bool.false_eq_true, if_false]
        cases hb : env.kzalloc .threadArg with
        | false =>
          simp only [kzalloc_of_false, Bool.not_false, if_true]
          exact seen_reply (process_of_search hfound) _
        | true =>
          obtain ⟨k₃, hk₃, hs₃⟩ := @kzalloc_of_true k₂ _ hb
          rw [hb] at hk₃
          simp only [hk₃, Bool.not_true, Bool.false_eq_true, if_false]
          cases hbf : env.kzalloc .fiberArg with
          | false =>
            rw [kzalloc_of_false hbf, Prod.mk.injEq] at hf
            rw [← hf.1]
            rfl
          | true =>
            obtain ⟨k', hk', hs'⟩ := @kzalloc_of_true k _ hbf
            rw [hk', Prod.mk.injEq] at hf
            have hb₂ : k.brk ≤ k₂.brk := Nat.le_trans hs₁.brk_le hopened.brk_le
            rw [← hf.1, ← toProcess_convert hl ho hthread hb₂ (Nat.le_refl _) rfl]
            refine seen_reply (process_setProcess hopened.tables hfound ?_ ?_) _
            · rfl
            · exact (hs₃.setProcess e.addr _).listProcess

/-! ### Switches of a record -/

section Switch

variable {target : Entry FiberArg}

theorem switch_missing (hl : Linked brk p) (hfiber : searchFiber (arg.setWidth 32) p = none) :
    Process.switchToFiber (some p.toProcess) cur arg env =
      answer cur (some p.toProcess) (-1) := by
  simp only [Process.switchToFiber, find_toProcess hl, hfiber, Option.map_none]

theorem switch_busy (hl : Linked brk p)
    (hfiber : searchFiber (arg.setWidth 32) p = some target)
    (hrun : target.obj.running = true) :
    Process.switchToFiber (some p.toProcess) cur arg env =
      answer cur
        (some { p with fibers := p.fibers.modify target.addr FiberArg.fail }.toProcess) (-1) := by
  have hfail : target.obj.fail.index = target.obj.index := rfl
  rw [toProcess_modify hl (of_searchFiber hfiber).1 hfail]
  simp only [Process.switchToFiber, find_toProcess hl, hfiber, Option.map_some, hrun, if_true]

theorem switch_unconverted (hl : Linked brk p)
    (hfiber : searchFiber (arg.setWidth 32) p = some target) (hrun : target.obj.running = false)
    (hthread : searchThread cur.pid p = none) :
    Process.switchToFiber (some p.toProcess) cur arg env =
      answer cur (some p.toProcess) (-1) := by
  simp only [Process.switchToFiber, find_toProcess hl, hfiber, Option.map_some, hrun,
    Bool.false_eq_true, if_false, onActive_of_none hthread]

/-- A switch that goes through, from the active fiber `old` of the thread. -/
theorem switch_done (hl : Linked brk p) (ho : Owned p)
    (hfiber : searchFiber (arg.setWidth 32) p = some target) (hrun : target.obj.running = false)
    (hthread : searchThread cur.pid p = some t) :
    ∃ old ∈ p.fibers, t.obj.activeFiber = some old.addr ∧ target.addr ≠ old.addr ∧
      Process.switchToFiber (some p.toProcess) cur arg env =
        .ok (⟨0, ⟨target.obj.regs, target.obj.fpuReg⟩, none⟩,
          some (p.switch cur env t.addr old.addr old.obj target.addr).toProcess) := by
  obtain ⟨htarget, _⟩ := of_searchFiber hfiber
  obtain ⟨ht, hpid⟩ := of_searchThread hthread
  obtain ⟨old, hold, hactive, holdrun, _, hi⟩ := active_of_search hl ho hthread
  have hne : target.addr ≠ old.addr := by
    intro ha
    rw [hl.fibers_unique.eq_of_addr htarget hold ha, holdrun] at hrun
    cases hrun
  refine ⟨old, hold, hactive, hne, ?_⟩
  rw [toProcess_switch hl ht hold htarget hne, hpid]
  simp only [Process.switchToFiber, find_toProcess hl, hfiber, Option.map_some, hrun,
    Bool.false_eq_true, if_false, Process.onActive, hi, fiber_of_mem hl hold]

end Switch

theorem seen_switchToFiber (hok : KernelOk k) :
    (switchToFiber k cur arg env).map (Reply.seen cur.tgid) =
      Process.switchToFiber (k.process cur.tgid) cur arg env := by
  unfold switchToFiber
  cases he : searchProcess k cur.tgid with
  | none =>
    have hnone := process_of_search_none he
    rw [hnone]
    exact seen_reply hnone _
  | some e =>
    have hsome := process_of_search he
    have hrec := record_of_searchProcess he
    have hl := hok.linked _ _ hrec
    have ho := hok.owned _ _ hrec
    simp only [hsome]
    cases hfiber : searchFiber (arg.setWidth 32) e.obj with
    | none =>
      rw [switch_missing hl hfiber]
      exact seen_reply hsome _
    | some target =>
      cases hrun : target.obj.running with
      | true =>
        have hpid : { e.obj with
            fibers := e.obj.fibers.modify target.addr FiberArg.fail }.pid = e.obj.pid := rfl
        rw [switch_busy hl hfiber hrun]
        simp only [hrun, if_true]
        exact seen_reply (process_setProcess hok.toTables he hpid rfl) _
      | false =>
        cases hthread : searchThread cur.pid e.obj with
        | none =>
          rw [switch_unconverted hl hfiber hrun hthread]
          simp only [hrun, Bool.false_eq_true, if_false]
          exact seen_reply hsome _
        | some t =>
          obtain ⟨old, hold, hactive, hne, hswitch⟩ :=
            @switch_done cur arg env _ _ _ _ hl ho hfiber hrun hthread
          have hnext : (e.obj.fibers.modify old.addr fun f => f.save cur.toContext).deref
              target.addr = some target.obj :=
            deref_of_mem (hl.fibers_unique.modify _ _)
              (mem_modify_of_ne (of_searchFiber hfiber).1 hne)
          have hp := @process_setProcess k _ cur (e.obj.switch cur env t.addr old.addr old.obj
            target.addr) e hok.toTables he rfl rfl
          rw [hswitch]
          simp only [hrun, Bool.false_eq_true, if_false, hactive, derefFiber,
            deref_of_mem hl.fibers_unique hold]
          show ((derefFiber (e.obj.fibers.modify old.addr fun f => f.save cur.toContext)
            (some target.addr)) >>= _).map _ = _
          simp only [derefFiber, hnext]
          show Except.ok (_, (k.setProcess _ _).process cur.tgid) = _
          rw [hp]
          rfl

theorem clearBit_index {f g : FiberArg} {i : ℤ} (h : clearBit f i = .ok g) :
    g.index = f.index := by
  rw [of_clearBit h, setBit_eq_with]

theorem seen_flsAlloc (hok : KernelOk k) :
    (flsAlloc k cur).map (Reply.seen cur.tgid) = Process.flsAlloc (k.process cur.tgid) cur := by
  unfold flsAlloc Process.flsAlloc
  cases he : searchProcess k cur.tgid with
  | none =>
    have hnone := process_of_search_none he
    rw [hnone]
    exact seen_reply hnone _
  | some e =>
    have hsome := process_of_search he
    have hrec := record_of_searchProcess he
    have hl := hok.linked _ _ hrec
    simp only [hsome]
    cases hthread : searchThread cur.pid e.obj with
    | none =>
      rw [onActive_of_none hthread]
      exact seen_reply hsome _
    | some t =>
      obtain ⟨f, hf, hderef, hactive⟩ := onActive_of_search hl (hok.owned _ _ hrec) hthread
      rw [hactive]
      simp only [hderef]
      show ((findFirstZeroBit f.obj) >>= _).map _ = _
      cases findFirstZeroBit f.obj with
      | error fault => rfl
      | ok i =>
        show Except.map _ (if _ then _ else _) = if _ then _ else _
        split
        · exact seen_reply hsome _
        · have hg : (f.obj.setBit i true).index = f.obj.index := by rw [setBit_eq_with]
          refine seen_reply (process_setFiber hok he hf ?_ (SameTables.refl _)) _
          exact hg

theorem seen_flsFree (hok : KernelOk k) :
    (flsFree k cur arg).map (Reply.seen cur.tgid) =
      Process.flsFree (k.process cur.tgid) cur arg := by
  unfold flsFree Process.flsFree
  cases he : searchProcess k cur.tgid with
  | none =>
    have hnone := process_of_search_none he
    rw [hnone]
    exact seen_reply hnone _
  | some e =>
    have hsome := process_of_search he
    have hrec := record_of_searchProcess he
    have hl := hok.linked _ _ hrec
    simp only [hsome]
    cases hthread : searchThread cur.pid e.obj with
    | none =>
      rw [onActive_of_none hthread]
      exact seen_reply hsome _
    | some t =>
      obtain ⟨f, hf, hderef, hactive⟩ := onActive_of_search hl (hok.owned _ _ hrec) hthread
      rw [hactive]
      simp only [hderef]
      split
      · show ((clearBit f.obj arg.toInt) >>= _).map _ = _
        cases hg : clearBit f.obj arg.toInt with
        | error fault => rfl
        | ok g =>
          exact seen_reply (process_setFiber hok he hf (clearBit_index hg) (SameTables.refl _)) _
      · exact seen_reply hsome _

theorem seen_flsGetValue (hok : KernelOk k) :
    (flsGetValue k cur env).map (Reply.seen cur.tgid) =
      Process.flsGetValue (k.process cur.tgid) cur env := by
  unfold flsGetValue flsGetValueWith Process.flsGetValue
  cases hb : env.kzalloc .flsArg with
  | false =>
    rw [kzalloc_of_false rfl]
    exact seen_reply rfl _
  | true =>
    obtain ⟨k₁, hk₁, hs⟩ := @kzalloc_of_true k true rfl
    have hfree := hs.trans (sameTables_kfree k₁ k.brk)
    rw [hk₁]
    cases hcopy : env.copyFromUser with
    | false => exact seen_reply (hs.process _) _
    | true =>
      simp only [Bool.not_true, Bool.false_eq_true, if_false, hs.searchProcess]
      cases he : searchProcess k cur.tgid with
      | none =>
        have hnone := process_of_search_none he
        rw [hnone]
        exact seen_reply ((hs.process _).trans hnone) _
      | some e =>
        have hsome := process_of_search he
        have hrec := record_of_searchProcess he
        have hl := hok.linked _ _ hrec
        simp only [hsome]
        cases hthread : searchThread cur.pid e.obj with
        | none =>
          rw [onActive_of_none hthread]
          exact seen_reply ((hfree.process _).trans hsome) _
        | some t =>
          obtain ⟨f, hf, hderef, hactive⟩ := onActive_of_search hl (hok.owned _ _ hrec) hthread
          rw [hactive]
          simp only [hderef]
          show ((testBit f.obj _) >>= _).map _ = _
          cases testBit f.obj env.flsArg.dwFlsIndex.toInt with
          | error fault => rfl
          | ok b =>
            cases b with
            | false => exact seen_reply ((hfree.process _).trans hsome) _
            | true =>
              cases env.copyToUser with
              | false => exact seen_reply ((hs.process _).trans hsome) _
              | true =>
                show Except.ok (_, (kfree k₁ k.brk).process cur.tgid) = _
                rw [hfree.process, hsome]
                rfl

theorem seen_flsSetValue (hok : KernelOk k) :
    (flsSetValue k cur env).map (Reply.seen cur.tgid) =
      Process.flsSetValue (k.process cur.tgid) cur env := by
  unfold flsSetValue flsSetValueWith Process.flsSetValue
  cases hb : env.kzalloc .flsArg with
  | false =>
    rw [kzalloc_of_false rfl]
    exact seen_reply rfl _
  | true =>
    obtain ⟨k₁, hk₁, hs⟩ := @kzalloc_of_true k true rfl
    have hfree := hs.trans (sameTables_kfree k₁ k.brk)
    rw [hk₁]
    cases hcopy : env.copyFromUser with
    | false => exact seen_reply (hs.process _) _
    | true =>
      simp only [Bool.not_true, Bool.false_eq_true, if_false, hs.searchProcess]
      cases he : searchProcess k cur.tgid with
      | none =>
        have hnone := process_of_search_none he
        rw [hnone]
        exact seen_reply ((hs.process _).trans hnone) _
      | some e =>
        have hsome := process_of_search he
        have hrec := record_of_searchProcess he
        have hl := hok.linked _ _ hrec
        simp only [hsome]
        cases hthread : searchThread cur.pid e.obj with
        | none =>
          rw [onActive_of_none hthread]
          exact seen_reply ((hfree.process _).trans hsome) _
        | some t =>
          obtain ⟨f, hf, hderef, hactive⟩ := onActive_of_search hl (hok.owned _ _ hrec) hthread
          rw [hactive]
          simp only [hderef]
          show ((testBit f.obj _) >>= _).map _ = _
          cases testBit f.obj env.flsArg.dwFlsIndex.toInt with
          | error fault => rfl
          | ok b =>
            cases b with
            | false => exact seen_reply ((hfree.process _).trans hsome) _
            | true =>
              let values := Function.update f.obj.flsArray env.flsArg.dwFlsIndex.toNat
                env.flsArg.lpFlsData
              let written : FiberArg := { f.obj with flsArray := values }
              have hw : SameTables (k.setFiber e f.addr written)
                  (kfree (k₁.setFiber e f.addr written) k.brk) :=
                (hs.setProcess e.addr _).trans (sameTables_kfree _ k.brk)
              have hg : written.index = f.obj.index := rfl
              exact seen_reply (process_setFiber hok he hf hg hw) _

/-- A request is the request of the process of the caller. -/
theorem seen_request (hok : KernelOk k) :
    (myIoctl k cur cmd arg env).map (Reply.seen cur.tgid) =
      Process.request (k.process cur.tgid) cur cmd arg env := by
  cases cmd with
  | convertToFiber => exact seen_convertToFiber hok
  | createFiber => exact seen_createFiber hok
  | switchToFiber => exact seen_switchToFiber hok
  | flsAlloc => exact seen_flsAlloc hok
  | flsFree => exact seen_flsFree hok
  | flsGetValue => exact seen_flsGetValue hok
  | flsSetValue => exact seen_flsSetValue hok
  | other => exact seen_reply rfl _

end LinuxFibers.Module
