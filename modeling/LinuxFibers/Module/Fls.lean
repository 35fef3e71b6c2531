import LinuxFibers.Module.Ownership

/-!
# Fiber local storage

`fls_bitmap` is declared with `sizeof(MAX_FLS)` bits, which is one word, and
`MAX_FLS` slots are used.  The bits from 64 on are bits of the saved registers
that follow the bitmap, and every switch overwrites these.  `slot_lost` is a run
in which a fiber loses slot 64 in this way.

A slot of the word is kept.  The invariant `KeptWord` says that a slot of the word
which the history calls held has its bit there and the value last stored in it,
and every step keeps it.  When no step asks for a slot while the word is full
(`hasFreeSlot`), all the slots held are slots of the word.  This is `Kept`, and
`flsGetValue_kept` reads the result off it.

A fiber is named by its address, which is never given out again.
-/

namespace LinuxFibers.Module

open LinuxFibers.Lib HashTable

variable {s t : System} {tr : List (System × Action)} {id pid : Pid} {cmd : Command}
  {arg : Word} {env : Env} {r : Reply} {f : FiberArg}

/-! ## Bits -/

theorem getLsbD_putBit (w : Word) {i j : ℕ} (hi : i < 64) (hj : j < 64) (b : Bool) :
    (putBit w i b).getLsbD j = if j = i then b else w.getLsbD j := by
  unfold putBit
  by_cases hij : j = i
  · subst hij
    cases b <;> simp [hj]
  · cases b <;> simp [hj, hij]

theorem setBit_flsArray (f : FiberArg) (i : ℕ) (b : Bool) :
    (f.setBit i b).flsArray = f.flsArray := by
  unfold FiberArg.setBit
  split
  · rfl
  · split <;> rfl

/-- A write of bit `i`, seen at a bit of the word. -/
theorem getLsbD_setBit (f : FiberArg) (i : ℕ) {j : ℕ} (hj : j < 64) (b : Bool) :
    (f.setBit i b).flsBitmap.getLsbD j = if j = i then b else f.flsBitmap.getLsbD j := by
  unfold FiberArg.setBit
  by_cases hi : i < 64
  · rw [if_pos hi]
    exact getLsbD_putBit f.flsBitmap hi hj b
  · have hij : j ≠ i := by omega
    rw [if_neg hi, if_neg hij]
    split <;> rfl

/-- The scan stops at a clear bit. -/
theorem zeroBitFrom_le {n i j z : ℕ} (h : zeroBitFrom f n i = .ok j) (hz : f.bit z = some false)
    (hi : i ≤ z) (hlt : z < i + n) : j ≤ z := by
  induction n generalizing i with
  | zero => omega
  | succ n ih =>
    rw [zeroBitFrom] at h
    split at h
    · cases h
    · cases h
      exact hi
    · rename_i hbit
      have hne : i ≠ z := by
        rintro rfl
        rw [hz] at hbit
        cases hbit
      exact ih h (by omega) (by omega)

/-- A word that is not full has a clear bit. -/
theorem exists_clear {w : Word} (h : w ≠ BitVec.allOnes 64) : ∃ z < 64, w.getLsbD z = false := by
  by_contra hall
  apply h
  apply BitVec.eq_of_getLsbD_eq
  intro z hz
  rw [BitVec.getLsbD_allOnes, decide_eq_true hz]
  by_contra hne
  exact hall ⟨z, hz, by simpa using hne⟩

/-- A fiber whose word is not full gets a slot of the word. -/
theorem findFirstZeroBit_lt {j : ℕ} (hroom : f.flsBitmap ≠ BitVec.allOnes 64)
    (h : findFirstZeroBit f = .ok j) : j < 64 := by
  obtain ⟨z, hz, hbit⟩ := exists_clear hroom
  have hclear : f.bit z = some false := by
    rw [FiberArg.bit, if_pos hz, hbit]
  have hle := zeroBitFrom_le h hclear (Nat.zero_le z) (by unfold maxFls; omega)
  omega

/-! ## The history of a slot -/

/-- What happens to a slot of a fiber. -/
inductive SlotEvent where
  | obtained
  | freed
  | stored (v : Word)

/-- What a request does to the slot `i` of the fiber that makes it. -/
def slotCall (cmd : Command) (arg : Word) (env : Env) (ret : ℤ) (i : ℕ) : Option SlotEvent :=
  match cmd with
  | .flsAlloc => if ret = i then some .obtained else none
  | .flsFree => if ret = 1 ∧ arg.toInt = i then some .freed else none
  | .flsSetValue =>
      if ret = 0 ∧ env.flsArg.dwFlsIndex.toNat = i then some (.stored env.flsArg.lpFlsData)
      else none
  | _ => none

/-- The address of the active fiber of a thread, and the fiber. -/
def System.activeFiber (s : System) (tgid pid : Pid) : Option (ℕ × FiberArg) := do
  let p ← s.kernel.record tgid
  let thread ← searchThread pid p
  let a ← thread.obj.activeFiber
  let f ← p.fibers.deref a
  return (a, f)

/-- What a step does to the slot `i` of the fiber at `a`. -/
def slotEvent (tgid : Pid) (a i : ℕ) : System × Action → Option SlotEvent
  | (s, .ioctl id pid cmd arg env) =>
      match s.request id pid cmd arg env with
      | .ok r =>
          if id = tgid ∧ (s.activeFiber id pid).map Prod.fst = some a then
            slotCall cmd arg env r.ret i
          else none
      | .error _ => none
  | _ => none

/-- Whether the slot is held after an event. -/
def SlotEvent.holds : SlotEvent → Option Bool
  | .obtained => some true
  | .freed => some false
  | .stored _ => none

/-- The value stored in a slot since it was obtained. -/
def SlotEvent.value : SlotEvent → Option (Option Word)
  | .obtained => some none
  | .freed => none
  | .stored v => some (some v)

/-- The fiber at `a` has obtained the slot `i` and has not freed it since. -/
def Holds (tr : List (System × Action)) (tgid : Pid) (a i : ℕ) : Prop :=
  latest (fun m => (slotEvent tgid a i m).bind SlotEvent.holds) tr = some true

/-- The newest value that the fiber at `a` stored in the slot `i` since it
obtained it. -/
def lastStored (tr : List (System × Action)) (tgid : Pid) (a i : ℕ) : Option Word :=
  (latest (fun m => (slotEvent tgid a i m).bind SlotEvent.value) tr).join

theorem slotEvent_request (hr : s.request id pid cmd arg env = .ok r) (tgid : Pid) (a i : ℕ) :
    slotEvent tgid a i (s, .ioctl id pid cmd arg env) =
      if id = tgid ∧ (s.activeFiber id pid).map Prod.fst = some a then
        slotCall cmd arg env r.ret i else none := by
  simp only [slotEvent, hr]

theorem holds_snoc_of_none {m : System × Action} {tgid : Pid} {a i : ℕ}
    (h : slotEvent tgid a i m = none) : Holds (tr ++ [m]) tgid a i ↔ Holds tr tgid a i := by
  unfold Holds
  rw [latest_snoc_of_none (by rw [h]; rfl)]

theorem lastStored_snoc_of_none {m : System × Action} {tgid : Pid} {a i : ℕ}
    (h : slotEvent tgid a i m = none) :
    lastStored (tr ++ [m]) tgid a i = lastStored tr tgid a i := by
  unfold lastStored
  rw [latest_snoc_of_none (by rw [h]; rfl)]

/-! ## Writes of a slot -/

/-- The slot `i` of a fiber is in use, and holds the value if there is one. -/
structure Slot (f : FiberArg) (i : ℕ) (o : Option Word) : Prop where
  lt : i < 64
  bit : f.flsBitmap.getLsbD i = true
  value : ∀ v, o = some v → f.flsArray i = v

/-- The slot `i` after a request of its fiber that wrote. -/
theorem slot_write {m : System × Action} {tgid : Pid} {a i : ℕ} {old : FiberArg} {ret : ℤ}
    (hw : FlsWrite old arg env cmd ret f) (hlt : i < 64)
    (hm : slotEvent tgid a i m = slotCall cmd arg env ret i)
    (hold : Holds tr tgid a i → Slot old i (lastStored tr tgid a i))
    (hheld : Holds (tr ++ [m]) tgid a i) : Slot f i (lastStored (tr ++ [m]) tgid a i) := by
  cases hw with
  | @alloc j hj hne =>
    by_cases hij : i = j
    · subst hij
      rw [slotCall, if_pos rfl] at hm
      refine ⟨hlt, ?_, fun v hv => ?_⟩
      · rw [getLsbD_setBit old i hlt, if_pos rfl]
      · rw [lastStored, latest_snoc_of_some (by rw [hm]; rfl)] at hv
        cases hv
    · rw [slotCall, if_neg fun h => hij (by omega)] at hm
      have hs := hold ((holds_snoc_of_none hm).mp hheld)
      rw [lastStored_snoc_of_none hm]
      refine ⟨hs.lt, ?_, fun v hv => ?_⟩
      · rw [getLsbD_setBit old j hs.lt, if_neg hij, hs.bit]
      · change Function.update (old.setBit j true).flsArray j 0 i = v
        rw [Function.update_of_ne hij, setBit_flsArray]
        exact hs.value v hv
  | free h0 hmax hf =>
    have hf := of_clearBit hf
    subst hf
    by_cases hij : arg.toInt = i
    · rw [slotCall, if_pos ⟨rfl, hij⟩] at hm
      rw [Holds, latest_snoc_of_some (by rw [hm]; rfl)] at hheld
      cases hheld
    · rw [slotCall, if_neg fun h => hij h.2] at hm
      have hs := hold ((holds_snoc_of_none hm).mp hheld)
      rw [lastStored_snoc_of_none hm]
      refine ⟨hs.lt, ?_, fun v hv => ?_⟩
      · rw [getLsbD_setBit old _ hs.lt, if_neg (by omega), hs.bit]
      · rw [setBit_flsArray]
        exact hs.value v hv
  | set hbit =>
    by_cases hij : env.flsArg.dwFlsIndex.toNat = i
    · rw [slotCall, if_pos ⟨rfl, hij⟩] at hm
      have hs : Slot old i (lastStored tr tgid a i) := by
        apply hold
        rwa [Holds, latest_snoc_of_none (by rw [hm]; rfl)] at hheld
      refine ⟨hs.lt, hs.bit, fun v hv => ?_⟩
      rw [lastStored, latest_snoc_of_some (by rw [hm]; rfl)] at hv
      cases hv
      change Function.update old.flsArray env.flsArg.dwFlsIndex.toNat _ i = _
      rw [hij, Function.update_self]
    · rw [slotCall, if_neg fun h => hij h.2] at hm
      have hs := hold ((holds_snoc_of_none hm).mp hheld)
      rw [lastStored_snoc_of_none hm]
      refine ⟨hs.lt, hs.bit, fun v hv => ?_⟩
      change Function.update old.flsArray env.flsArg.dwFlsIndex.toNat _ i = v
      rw [Function.update_of_ne (Ne.symm hij)]
      exact hs.value v hv

/-! ## The active fiber of a request -/

theorem of_activeFiber {a : ℕ} (h : s.activeFiber id pid = some (a, f)) :
    ∃ e th, searchProcess s.kernel id = some e ∧ searchThread pid e.obj = some th ∧
      th.obj.activeFiber = some a ∧ e.obj.fibers.deref a = some f := by
  obtain ⟨p, hp, h⟩ := Option.bind_eq_some_iff.mp h
  obtain ⟨th, hth, h⟩ := Option.bind_eq_some_iff.mp h
  obtain ⟨b, hb, h⟩ := Option.bind_eq_some_iff.mp h
  obtain ⟨g, hg, h⟩ := Option.bind_eq_some_iff.mp h
  cases h
  obtain ⟨e, he, rfl⟩ := Option.map_eq_some_iff.mp hp
  exact ⟨e, th, he, hth, hb, hg⟩

/-- The active fiber is in the record. -/
theorem entry_of_activeFiber {a : ℕ} (h : s.activeFiber id pid = some (a, f)) :
    ∃ p e, s.kernel.record id = some p ∧ e ∈ p.fibers ∧ e.addr = a ∧ e.obj = f := by
  obtain ⟨e, th, he, _, _, hf⟩ := of_activeFiber h
  obtain ⟨x, hx, ha, hobj⟩ := mem_of_deref hf
  exact ⟨e.obj, x, record_of_searchProcess he, hx, ha, hobj⟩

theorem activeFiber_lt (hok : KernelOk s.kernel) {a : ℕ}
    (h : s.activeFiber id pid = some (a, f)) : a < s.kernel.brk := by
  obtain ⟨p, e, hp, he, ha, _⟩ := entry_of_activeFiber h
  have hlt := (hok.linked id p hp).fibers_lt e he
  omega

theorem activeFiber_eq {p : ProcessArg} {thread : Entry ThreadArg} {a : ℕ}
    (hp : s.kernel.record id = some p) (hthread : searchThread pid p = some thread)
    (hactive : thread.obj.activeFiber = some a) (hold : p.fibers.deref a = some f) :
    s.activeFiber id pid = some (a, f) := by
  simp only [System.activeFiber, hp, hthread, hactive, hold, Option.bind_eq_bind,
    Option.bind_some, pure]

/-- The bit of a slot in use, as `test_bit` reads it. -/
theorem testBit_of_slot {i : ℕ} {o : Option Word} (h : Slot f i o) {index : Word}
    (hi : index.toNat = i) : testBit f index.toInt = .ok true := by
  have hlt := h.lt
  have hint : index.toInt = i := by
    rw [BitVec.toInt_eq_toNat_of_lt (by omega), hi]
  have hneg : ¬ (i : ℤ) < 0 := by omega
  rw [testBit, hint, if_neg hneg, Int.toNat_natCast, FiberArg.bit, if_pos hlt, h.bit]

/-- `FLSSETVALUE` of a slot in use stores the value. -/
theorem flsSetValue_stores {k : Kernel} {cur : Task} {e : Entry ProcessArg} {th : Entry ThreadArg}
    {a : ℕ} (he : searchProcess k cur.tgid = some e) (hth : searchThread cur.pid e.obj = some th)
    (hactive : th.obj.activeFiber = some a) (hf : e.obj.fibers.deref a = some f)
    (hbit : testBit f env.flsArg.dwFlsIndex.toInt = .ok true)
    (hr : flsSetValue k cur env = .ok r) (h0 : r.ret = 0) :
    ∃ k', SameTables k k' ∧ r.kernel = kfree (k'.setFiber e a { f with
      flsArray := Function.update f.flsArray env.flsArg.dwFlsIndex.toNat
        env.flsArg.lpFlsData }) k.brk := by
  unfold flsSetValue flsSetValueWith at hr
  have hs := sameTables_kzalloc k (env.kzalloc .flsArg)
  split at hr
  · cases hr
    cases h0
  · rename_i args k' ha
    obtain ⟨hs, rfl, _⟩ := of_kzalloc ha
    have hd : derefFiber e.obj.fibers th.obj.activeFiber = .ok (a, f) := by
      rw [hactive]
      simp only [derefFiber, hf]
    rw [← hs.searchProcess] at he
    split at hr
    · cases hr
      cases h0
    · simp only [he, hth, hd, hbit, bind, Except.bind, if_true] at hr
      cases hr
      exact ⟨k', hs, rfl⟩

/-! ## Steps -/

/-- A request for a slot is made by a fiber that has a clear bit in its word. -/
def hasFreeSlot (s : System) : Action → Bool
  | .ioctl tgid pid .flsAlloc _ _ =>
      match s.activeFiber tgid pid with
      | some (_, f) => f.flsBitmap != BitVec.allOnes 64
      | none => true
  | _ => true

/-- The steps that ask for no slot behind the word. -/
def WordStep (s : System) (a : Action) (t : System) : Prop := hasFreeSlot s a = true ∧ Step s a t

/-- The slots that the history calls held are in use and hold the value last
stored.  Nothing is held by a fiber that does not exist yet. -/
structure Kept (tr : List (System × Action)) (s : System) : Prop where
  fresh : ∀ tgid a i, s.kernel.brk ≤ a → ¬ Holds tr tgid a i
  slot : ∀ tgid p, s.kernel.record tgid = some p → ∀ f ∈ p.fibers, ∀ i,
    Holds tr tgid f.addr i → Slot f.obj i (lastStored tr tgid f.addr i)

/-- `Kept` for the slots of the word. -/
structure KeptWord (tr : List (System × Action)) (s : System) : Prop where
  fresh : ∀ tgid a i, s.kernel.brk ≤ a → ¬ Holds tr tgid a i
  slot : ∀ tgid p, s.kernel.record tgid = some p → ∀ f ∈ p.fibers, ∀ i < 64,
    Holds tr tgid f.addr i → Slot f.obj i (lastStored tr tgid f.addr i)

/-- A request does nothing to the slots of a fiber that does not make it. -/
theorem slotEvent_of_ne {tgid : Pid} {a : ℕ}
    (h : ∀ f, id = tgid → s.activeFiber id pid ≠ some (a, f)) (i : ℕ) :
    slotEvent tgid a i (s, .ioctl id pid cmd arg env) = none := by
  unfold slotEvent
  dsimp only
  split
  · apply if_neg
    rintro ⟨heq, hmap⟩
    obtain ⟨⟨b, f⟩, hf, rfl⟩ := Option.map_eq_some_iff.mp hmap
    exact h f heq hf
  · rfl

/-- A command on fibers does nothing to any slot. -/
theorem slotEvent_of_command (hcmd : ∀ ret i, slotCall cmd arg env ret i = none) (tgid : Pid)
    (a i : ℕ) : slotEvent tgid a i (s, .ioctl id pid cmd arg env) = none := by
  unfold slotEvent
  dsimp only
  split
  · rw [hcmd, ite_self]
  · rfl

/-- A fiber whose word and slots a step leaves alone. -/
theorem KeptWord.keep (hk : KeptWord tr s) {tgid : Pid} {p : ProcessArg} {m : System × Action}
    (hp : s.kernel.record tgid = some p) {e e' : Entry FiberArg} (he : e ∈ p.fibers)
    (haddr : e'.addr = e.addr) (hbitmap : e'.obj.flsBitmap = e.obj.flsBitmap)
    (harray : e'.obj.flsArray = e.obj.flsArray) {i : ℕ} (hi : i < 64)
    (hm : slotEvent tgid e.addr i m = none) (hheld : Holds (tr ++ [m]) tgid e'.addr i) :
    Slot e'.obj i (lastStored (tr ++ [m]) tgid e'.addr i) := by
  rw [haddr] at hheld ⊢
  rw [lastStored_snoc_of_none hm]
  have hs := hk.slot tgid p hp e he i hi ((holds_snoc_of_none hm).mp hheld)
  refine ⟨hs.lt, by rw [hbitmap, hs.bit], fun v hv => ?_⟩
  rw [harray]
  exact hs.value v hv

/-- The fibers of a switch keep their words and slots. -/
theorem switchedFiber_fls {cur : Task} (a : ℕ) (old : FiberArg) (target : ℕ)
    (e : Entry FiberArg) :
    (switchedFiber cur env a old target e).flsBitmap = e.obj.flsBitmap ∧
      (switchedFiber cur env a old target e).flsArray = e.obj.flsArray := by
  have hstop : ∀ (g : FiberArg) (now : Timespec),
      (g.stop now).flsBitmap = g.flsBitmap ∧ (g.stop now).flsArray = g.flsArray := by
    intro g now
    unfold FiberArg.stop
    split <;> exact ⟨rfl, rfl⟩
  have hsaved := hstop (e.obj.save cur.toContext) (env.clock 0)
  unfold switchedFiber
  dsimp only
  split <;> split
  · exact hsaved
  · exact ⟨rfl, rfl⟩
  · exact hsaved
  · exact ⟨rfl, rfl⟩

/-- The caller's fiber after `FLSSETVALUE` of a slot in use. -/
theorem fiber_of_set (hok : KernelOk s.kernel)
    (hr : s.request id pid .flsSetValue arg env = .ok r) (h0 : r.ret = 0) {a : ℕ}
    (hactive : s.activeFiber id pid = some (a, f))
    (hbit : testBit f env.flsArg.dwFlsIndex.toInt = .ok true) {p' : ProcessArg}
    (hp' : r.kernel.record id = some p') {e' : Entry FiberArg} (he' : e' ∈ p'.fibers)
    (ha : e'.addr = a) :
    e'.obj = { f with
      flsArray := Function.update f.flsArray env.flsArg.dwFlsIndex.toNat
        env.flsArg.lpFlsData } := by
  obtain ⟨e, th, he, hth, hath, hf⟩ := of_activeFiber hactive
  have hfound : searchProcess s.kernel (s.task id pid).tgid = some e := he
  obtain ⟨k', hs, hk'⟩ := flsSetValue_stores hfound hth hath hf hbit hr h0
  have hsearch : searchProcess k' id = some e := (hs.searchProcess id).trans he
  rw [hk'] at hp'
  exact of_setFiber (hok.toTables.of_same hs) hsearch hp' he' ha

/-- The caller's process after a request without an effect. -/
theorem keptWord_idle (hok : KernelOk s.kernel) (hk : KeptWord tr s)
    (hret : cmd.reports = true → r.ret < 0)
    (hr : s.request id pid cmd arg env = .ok r) {p : ProcessArg}
    (hp : s.kernel.record id = some p) (hp' : r.kernel.record id = some p)
    {e : Entry FiberArg} (he : e ∈ p.fibers) {i : ℕ} (hi : i < 64)
    (hheld : Holds (tr ++ [(s, .ioctl id pid cmd arg env)]) id e.addr i) :
    Slot e.obj i (lastStored (tr ++ [(s, .ioctl id pid cmd arg env)]) id e.addr i) := by
  by_cases hact : (s.activeFiber id pid).map Prod.fst = some e.addr
  · have hm := slotEvent_request hr id e.addr i
    rw [if_pos ⟨rfl, hact⟩] at hm
    by_cases hcall : slotCall cmd arg env r.ret i = none
    · rw [hcall] at hm
      exact hk.keep hp he rfl rfl rfl hi hm hheld
    · obtain ⟨⟨a, f⟩, hf, ha⟩ := Option.map_eq_some_iff.mp hact
      cases cmd with
      | flsAlloc =>
        have hneg := hret rfl
        exact absurd (if_neg (by omega)) hcall
      | flsFree =>
        rw [slotCall] at hm hcall
        split at hm
        · rw [Holds, latest_snoc_of_some (by rw [hm]; rfl)] at hheld
          cases hheld
        · rename_i hne
          exact absurd (if_neg hne) hcall
      | flsSetValue =>
        rw [slotCall] at hm hcall
        split at hm
        · rename_i hset
          obtain ⟨h0, hindex⟩ := hset
          have hs := hk.slot id p hp e he i hi
            (by rwa [Holds, latest_snoc_of_none (by rw [hm]; rfl)] at hheld)
          have hfe : e.obj = f := by
            obtain ⟨p₀, x, hp₀, hx, hxa, hobj⟩ := entry_of_activeFiber hf
            rw [hp, Option.some.injEq] at hp₀
            rw [← hp₀] at hx
            rw [← hobj, (hok.linked id p hp).fibers_unique.eq_of_addr he hx (by rw [← ha, hxa])]
          have hnew := fiber_of_set hok hr h0 hf (hfe ▸ testBit_of_slot hs hindex) hp' he ha.symm
          refine ⟨hs.lt, hs.bit, fun v hv => ?_⟩
          rw [lastStored, latest_snoc_of_some (by rw [hm]; rfl)] at hv
          cases hv
          have harray := congrFun (congrArg FiberArg.flsArray hnew) i
          change e.obj.flsArray i = Function.update f.flsArray env.flsArg.dwFlsIndex.toNat _ i
            at harray
          rw [harray, hindex, Function.update_self]
        · rename_i hne
          exact absurd (if_neg hne) hcall
      | convertToFiber => exact absurd rfl hcall
      | createFiber => exact absurd rfl hcall
      | switchToFiber => exact absurd rfl hcall
      | flsGetValue => exact absurd rfl hcall
      | other => exact absurd rfl hcall
  · have hm := slotEvent_request hr id e.addr i
    rw [if_neg fun h => hact h.2] at hm
    exact hk.keep hp he rfl rfl rfl hi hm hheld

/-- Everything a request leaves linked, for the caller's own process. -/
theorem keptWord_request_self (hok : KernelOk s.kernel) (hk : KeptWord tr s)
    (hr : s.request id pid cmd arg env = .ok r) {p' : ProcessArg}
    (hp' : r.kernel.record id = some p') {e' : Entry FiberArg} (he' : e' ∈ p'.fibers) {i : ℕ}
    (hi : i < 64) (hheld : Holds (tr ++ [(s, .ioctl id pid cmd arg env)]) id e'.addr i) :
    Slot e'.obj i (lastStored (tr ++ [(s, .ioctl id pid cmd arg env)]) id e'.addr i) := by
  have hc := change_of_request hok hr hp'
  generalize hbefore : s.kernel.record id = o at hc
  cases hc with
  | idle hret => exact keptWord_idle hok hk hret hr hbefore hp' he' hi hheld
  | opened => cases he'
  | @converted o p t f hsource _ _ _ hf =>
    have hnone := @slotEvent_of_command s id pid .convertToFiber arg env (fun _ _ => rfl) id
    rcases mem_hashAdd.mp he' with rfl | he'
    · exact absurd ((holds_snoc_of_none (hnone _ _)).mp hheld) (hk.fresh id _ i hf)
    · rcases hsource with rfl | ⟨_, rfl⟩
      · exact hk.keep hbefore he' rfl rfl rfl hi (hnone _ _) hheld
      · cases he'
  | @created p thread f _ hf =>
    have hnone := @slotEvent_of_command s id pid .createFiber arg env (fun _ _ => rfl) id
    rcases mem_hashAdd.mp he' with rfl | he'
    · exact absurd ((holds_snoc_of_none (hnone _ _)).mp hheld) (hk.fresh id _ i hf)
    · exact hk.keep hbefore he' rfl rfl rfl hi (hnone _ _) hheld
  | @failed p fiber =>
    have hnone := @slotEvent_of_command s id pid .switchToFiber arg env (fun _ _ => rfl) id
    rw [modify_eq_mapObj] at he'
    obtain ⟨e, he, rfl⟩ := mem_mapObj.mp he'
    refine hk.keep hbefore he ?_ ?_ ?_ hi (hnone _ _) hheld
    · rfl
    · change (if e.addr = fiber.addr then e.obj.fail else e.obj).flsBitmap = e.obj.flsBitmap
      split <;> rfl
    · change (if e.addr = fiber.addr then e.obj.fail else e.obj).flsArray = e.obj.flsArray
      split <;> rfl
  | @switched p fiber thread a old =>
    have hnone := @slotEvent_of_command s id pid .switchToFiber arg env (fun _ _ => rfl) id
    rw [switch_eq] at he'
    obtain ⟨e, he, rfl⟩ := mem_mapObj.mp he'
    have hfls := @switchedFiber_fls env (s.task id pid) a old fiber.addr e
    refine hk.keep hbefore he ?_ ?_ ?_ hi (hnone _ _) hheld
    · rfl
    · exact hfls.1
    · exact hfls.2
  | @stored _ p thread a old f hthread hactive hold hw =>
    have hact : s.activeFiber id pid = some (a, old) :=
      activeFiber_eq hbefore hthread hactive hold
    rw [modify_eq_mapObj] at he'
    obtain ⟨e, he, rfl⟩ := mem_mapObj.mp he'
    by_cases ha : e.addr = a
    · have hm := slotEvent_request hr id e.addr i
      rw [if_pos ⟨rfl, by rw [hact, ha]; rfl⟩] at hm
      have hobj : e.obj = old := (hok.linked id p hbefore).fibers_unique.obj_of_deref hold he ha
      subst hobj
      have hslot := slot_write hw hi hm (hk.slot id p hbefore e he i hi) hheld
      simpa only [if_pos ha] using hslot
    · have hm : slotEvent id e.addr i (s, .ioctl id pid cmd arg env) = none := by
        apply slotEvent_of_ne
        intro g _ hg
        rw [hact] at hg
        exact ha (congrArg Prod.fst (Option.some.inj hg)).symm
      have hslot := hk.keep hbefore he rfl rfl rfl hi hm hheld
      simpa only [if_neg ha] using hslot

theorem keptWord_request (hok : KernelOk s.kernel) (hk : KeptWord tr s)
    (hr : s.request id pid cmd arg env = .ok r) :
    KeptWord (tr ++ [(s, .ioctl id pid cmd arg env)]) (s.resume id pid r) := by
  have hq : Requested s.kernel (s.task id pid) cmd arg env r := requested hok.toTables hr
  constructor
  · intro tgid a i ha
    change r.kernel.brk ≤ a at ha
    have hlt : s.kernel.brk ≤ a := Nat.le_trans hq.brk_le ha
    have hm : slotEvent tgid a i (s, .ioctl id pid cmd arg env) = none := by
      apply slotEvent_of_ne
      rintro f rfl hf
      have := activeFiber_lt hok hf
      omega
    rw [holds_snoc_of_none hm]
    exact hk.fresh tgid a i hlt
  · intro tgid p' hp' e' he' i hi hheld
    change r.kernel.record tgid = some p' at hp'
    by_cases hid : id = tgid
    · subst hid
      exact keptWord_request_self hok hk hr hp' he' hi hheld
    · rw [record_of_request hok hr (Ne.symm hid)] at hp'
      have hm : slotEvent tgid e'.addr i (s, .ioctl id pid cmd arg env) = none :=
        slotEvent_of_ne (fun f h => absurd h hid) i
      exact hk.keep hp' he' rfl rfl rfl hi hm hheld

theorem keptWord_step {m : System × Action} (hok : KernelOk s.kernel) (hk : KeptWord tr s)
    (h : Recorded Step s m t) : KeptWord (tr ++ [m]) t := by
  obtain ⟨s', a⟩ := m
  obtain ⟨rfl, hstep⟩ := h
  cases a with
  | user tgid pid c =>
    cases hstep
    refine ⟨fun tgid a i ha => ?_, fun tgid p hp e he i hi hheld => ?_⟩
    · rw [holds_snoc_of_none rfl]
      exact hk.fresh tgid a i ha
    · exact hk.keep hp he rfl rfl rfl hi rfl hheld
  | ioctl id pid cmd arg env =>
    obtain ⟨r, hr, rfl⟩ := step_ioctl hstep
    exact keptWord_request hok hk hr
  | exit proId thrId =>
    obtain ⟨k, hx, rfl⟩ := step_exit hstep
    have he := exited hok.toTables hx
    refine ⟨fun tgid a i ha => ?_, fun tgid p hp e hmem i hi hheld => ?_⟩
    · rw [holds_snoc_of_none rfl]
      exact hk.fresh tgid a i (he.brk_eq ▸ ha)
    · change k.record tgid = some p at hp
      obtain ⟨p₀, hp₀, hsub⟩ := he.fibers_of_record hok.toTables hp
      exact hk.keep hp₀ (hsub e hmem) rfl rfl rfl hi rfl hheld

theorem keptWord_run {context : Pid × Pid → Context}
    (h : Run (Recorded Step) (System.init context) tr s) :
    KernelOk s.kernel ∧ KeptWord tr s := by
  refine h.invariantTrace (I := fun tr s => KernelOk s.kernel ∧ KeptWord tr s) ?_ ?_
  · intro tr s m t hs hm
    exact ⟨kernelOk_step hs.1 hm.2, keptWord_step hs.1 hs.2 hm⟩
  · refine ⟨kernelOk_init, fun tgid a i _ hheld => ?_, fun tgid p hp => ?_⟩
    · cases hheld
    · cases hp

/-! ## Runs that stay in the word -/

/-- What `FLSALLOC` gives is a clear bit of the caller's active fiber. -/
theorem of_flsAlloc (hok : KernelOk s.kernel) (hr : s.request id pid .flsAlloc arg env = .ok r)
    {i : ℕ} (hret : r.ret = i) :
    ∃ a f, s.activeFiber id pid = some (a, f) ∧ findFirstZeroBit f = .ok i ∧ i ≠ maxFls := by
  have hc := change_of_request hok hr rfl
  generalize hbefore : s.kernel.record id = o at hc
  generalize r.kernel.record id = o' at hc
  cases hc with
  | idle hneg =>
    have hlt := hneg rfl
    omega
  | @stored _ p thread a old f hthread hactive hold hw =>
    generalize hn : r.ret = n at hw
    cases hw with
    | @alloc j hj hne =>
      have hij : j = i := by omega
      subst hij
      exact ⟨a, old, activeFiber_eq hbefore hthread hactive hold, hj, hne⟩

/-- The slot that a request obtains. -/
theorem of_obtained {m : System × Action} {tgid : Pid} {a i : ℕ}
    (h : (slotEvent tgid a i m).bind SlotEvent.holds = some true) :
    ∃ s id pid arg env r, m = (s, .ioctl id pid .flsAlloc arg env) ∧
      s.request id pid .flsAlloc arg env = .ok r ∧ r.ret = i := by
  obtain ⟨ev, hev, hholds⟩ := Option.bind_eq_some_iff.mp h
  obtain ⟨s, act⟩ := m
  cases act with
  | user => cases hev
  | exit => cases hev
  | ioctl id pid cmd arg env =>
    simp only [slotEvent] at hev
    split at hev
    · rename_i r hr
      split at hev
      · cases cmd with
        | flsAlloc =>
          rw [slotCall] at hev
          split at hev
          · rename_i hret
            exact ⟨s, id, pid, arg, env, r, rfl, hr, hret⟩
          · cases hev
        | flsFree =>
          rw [slotCall] at hev
          split at hev <;> cases hev
          cases hholds
        | flsSetValue =>
          rw [slotCall] at hev
          split at hev <;> cases hev
          cases hholds
        | _ => cases hev
      · cases hev
    · cases hev

/-- A slot that is held has every property of the slots that a step gives. -/
theorem of_holds {step : System → Action → System → Prop} {P : ℕ → Prop}
    {context : Pid × Pid → Context} (hsub : ∀ s a t, step s a t → Step s a t)
    (hgiven : ∀ s id pid arg env t r i, KernelOk s.kernel →
      step s (.ioctl id pid .flsAlloc arg env) t →
      s.request id pid .flsAlloc arg env = .ok r → r.ret = (i : ℕ) → P i)
    (h : Run (Recorded step) (System.init context) tr s) {tgid : Pid} {a i : ℕ}
    (hheld : Holds tr tgid a i) : P i := by
  have hboth : KernelOk s.kernel ∧ ∀ tgid a i, Holds tr tgid a i → P i := by
    refine h.invariantTrace
      (I := fun tr s => KernelOk s.kernel ∧ ∀ tgid a i, Holds tr tgid a i → P i) ?_ ?_
    · intro tr s m t hs hm
      refine ⟨kernelOk_step hs.1 (hsub _ _ _ hm.2), fun tgid a i hheld => ?_⟩
      rw [Holds, latest_snoc, Option.or_eq_some_iff] at hheld
      rcases hheld with hnew | ⟨_, hold⟩
      · obtain ⟨s', id, pid, arg, env, r, hmeq, hr, hret⟩ := of_obtained hnew
        subst hmeq
        obtain ⟨heq, hstep⟩ := hm
        have heq : s' = s := heq
        subst heq
        exact hgiven _ _ _ _ _ _ _ _ hs.1 hstep hr hret
      · exact hs.2 tgid a i hold
    · exact ⟨kernelOk_init, fun tgid a i hheld => by cases hheld⟩
  exact hboth.2 tgid a i hheld

/-- When no step asks for a slot behind the word, none is held there. -/
theorem lt_of_holds {context : Pid × Pid → Context} {tgid : Pid} {a i : ℕ}
    (h : Run (Recorded WordStep) (System.init context) tr s) (hheld : Holds tr tgid a i) :
    i < 64 := by
  refine @of_holds _ _ WordStep (· < 64) _ (fun _ _ _ hm => hm.2) ?_ h _ _ _ hheld
  intro s id pid arg env t r i hok hstep hr hret
  obtain ⟨b, f, hactive, hfind, _⟩ := of_flsAlloc hok hr hret
  have hroom := hstep.1
  simp only [hasFreeSlot, hactive] at hroom
  exact findFirstZeroBit_lt (bne_iff_ne.mp hroom) hfind

theorem kept_run {context : Pid × Pid → Context}
    (h : Run (Recorded WordStep) (System.init context) tr s) :
    KernelOk s.kernel ∧ Kept tr s := by
  obtain ⟨hok, hk⟩ := keptWord_run (h.mono fun s m t hm => ⟨hm.1, hm.2.2⟩)
  refine ⟨hok, hk.fresh, fun tgid p hp f hf i hheld => ?_⟩
  exact hk.slot tgid p hp f hf i (lt_of_holds h hheld) hheld

/-! ## Values survive -/

/-- `FLSGETVALUE` of a slot in use gives its value. -/
theorem flsGetValue_gives {k : Kernel} {cur : Task} {e : Entry ProcessArg}
    {th : Entry ThreadArg} {a : ℕ} (he : searchProcess k cur.tgid = some e)
    (hth : searchThread cur.pid e.obj = some th) (hactive : th.obj.activeFiber = some a)
    (hf : e.obj.fibers.deref a = some f)
    (hbit : testBit f env.flsArg.dwFlsIndex.toInt = .ok true)
    (halloc : env.kzalloc .flsArg = true) (hfrom : env.copyFromUser = true)
    (hto : env.copyToUser = true) : ∃ r, flsGetValue k cur env = .ok r ∧ r.ret = 1 ∧
      r.copied = some ⟨env.flsArg.dwFlsIndex, f.flsArray env.flsArg.dwFlsIndex.toNat⟩ := by
  have hd : derefFiber e.obj.fibers th.obj.activeFiber = .ok (a, f) := by
    rw [hactive]
    simp only [derefFiber, hf]
  have hs := sameTables_kzalloc k true
  rw [← hs.searchProcess] at he
  unfold flsGetValue flsGetValueWith
  simp only [kzalloc, if_true] at he
  simp only [halloc, hfrom, hto, kzalloc, if_true, Bool.not_true, Bool.false_eq_true, if_false, he,
    hth, hd, hbit, bind, Except.bind]
  exact ⟨_, rfl, rfl, rfl⟩

/-- When no step asks for a slot behind the word, a fiber that holds the slot
`i` and last stored `v` in it reads `v` back whenever it is active. -/
theorem flsGetValue_kept {context : Pid × Pid → Context} {a i : ℕ} {v : Word}
    (h : Run (Recorded WordStep) (System.init context) tr s) (hheld : Holds tr id a i)
    (hstored : lastStored tr id a i = some v)
    (hactive : (s.activeFiber id pid).map Prod.fst = some a)
    (hindex : env.flsArg.dwFlsIndex.toNat = i) (halloc : env.kzalloc .flsArg = true)
    (hfrom : env.copyFromUser = true) (hto : env.copyToUser = true) :
    ∃ r, s.request id pid .flsGetValue arg env = .ok r ∧ r.ret = 1 ∧
      r.copied = some ⟨env.flsArg.dwFlsIndex, v⟩ := by
  obtain ⟨hok, hk⟩ := kept_run h
  obtain ⟨⟨b, f⟩, hf, rfl⟩ := Option.map_eq_some_iff.mp hactive
  obtain ⟨e, th, he, hth, hath, hderef⟩ := of_activeFiber hf
  obtain ⟨x, hx, rfl, rfl⟩ := mem_of_deref hderef
  have hs := hk.slot id e.obj (record_of_searchProcess he) x hx i hheld
  have he' : searchProcess s.kernel (s.task id pid).tgid = some e := he
  obtain ⟨r, hr, hret, hcopied⟩ := flsGetValue_gives he' hth hath hderef
    (testBit_of_slot hs hindex) halloc hfrom hto
  refine ⟨r, hr, hret, ?_⟩
  rw [hcopied, hindex, hs.value v hstored]

/-- An environment in which the user's `fls_arg_t` holds an index and a value. -/
def Env.fls (index value : Word) : Env := Env.good ⟨0, 0, 0⟩ ⟨index, value⟩ 1

/-- `flsGetValue_kept` for a slot that is read after a switch away and back. -/
theorem flsGetValue_kept_after_switch : ∃ (tr : List (System × Action)) (s : System),
    Run (Recorded WordStep) (System.init zeroContext) tr s ∧
    ∃ r, s.request 7 7 .flsGetValue 0 (Env.fls 0 0) = .ok r ∧ r.ret = 1 ∧
      r.copied = some ⟨0, 42⟩ := by
  obtain ⟨tr, s, hrun, hp⟩ := exists_history_of hasFreeSlot (System.init zeroContext)
    [.ioctl 7 7 .convertToFiber 0 Env.plain, .ioctl 7 7 .createFiber 0 Env.plain,
      .ioctl 7 7 .flsAlloc 0 Env.plain, .ioctl 7 7 .flsSetValue 0 (Env.fls 0 42),
      .ioctl 7 7 .switchToFiber 1 Env.plain, .ioctl 7 7 .flsAlloc 0 Env.plain,
      .ioctl 7 7 .switchToFiber 0 Env.plain]
    (fun tr s =>
      decide (latest (fun m => (slotEvent 7 0 0 m).bind SlotEvent.holds) tr = some true) &&
      decide (lastStored tr 7 0 0 = some 42) &&
      decide ((s.activeFiber 7 7).map Prod.fst = some 0)) (by decide +kernel)
  simp only [Bool.and_eq_true, decide_eq_true_eq] at hp
  exact ⟨tr, s, hrun, flsGetValue_kept hrun hp.1.1 hp.1.2 hp.2 rfl rfl rfl rfl⟩

/-- The slot 64 is lost in a switch away and back. -/
theorem slot_lost : ∃ (tr : List (System × Action)) (s : System) (r : Reply),
    Run (Recorded Step) (System.init zeroContext) tr s ∧ Holds tr 7 0 64 ∧
    lastStored tr 7 0 64 = some 42 ∧ (s.activeFiber 7 7).map Prod.fst = some 0 ∧
    s.request 7 7 .flsGetValue 0 (Env.fls 64 0) = .ok r ∧ r.ret = -1 := by
  obtain ⟨tr, s, hrun, hp⟩ := exists_history_of (fun _ _ => true) (System.init zeroContext)
    ([.ioctl 7 7 .convertToFiber 0 Env.plain, .ioctl 7 7 .createFiber 0 Env.plain] ++
      List.replicate 65 (.ioctl 7 7 .flsAlloc 0 Env.plain) ++
      [.ioctl 7 7 .flsSetValue 0 (Env.fls 64 42), .ioctl 7 7 .switchToFiber 1 Env.plain,
        .ioctl 7 7 .switchToFiber 0 Env.plain])
    (fun tr s =>
      decide (latest (fun m => (slotEvent 7 0 64 m).bind SlotEvent.holds) tr = some true) &&
      decide (lastStored tr 7 0 64 = some 42) &&
      decide ((s.activeFiber 7 7).map Prod.fst = some 0) &&
      (s.request 7 7 .flsGetValue 0 (Env.fls 64 0)).toOption.any fun r => r.ret == -1)
    (by decide +kernel)
  simp only [Bool.and_eq_true, decide_eq_true_eq] at hp
  obtain ⟨⟨⟨hheld, hstored⟩, hactive⟩, hp⟩ := hp
  obtain ⟨r, hr, hp⟩ := of_toOption_any hp
  exact ⟨tr, s, r, hrun.mono fun _ _ _ h => ⟨h.1, h.2.2⟩, hheld, hstored, hactive, hr,
    by simpa using hp⟩

end LinuxFibers.Module
