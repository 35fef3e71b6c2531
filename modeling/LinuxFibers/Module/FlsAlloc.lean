import LinuxFibers.Module.Fls
import LinuxFibers.Module.Paths
import Mathlib.Data.Nat.Find

/-!
# The allocation of fiber local storage

`FLSALLOC` looks for a clear bit among `MAX_FLS` bits, while `fls_bitmap` has 64
of them.  The steps of `StorageStep` read and flip no bit behind the word.  In
their runs the word of a fiber and the history of its slots say the same (`Exact`
is the half that `Kept` lacks), so `FLSALLOC` gives the smallest slot that is not
held, and changes nothing else.  `slot_behind_word` is a run that leaves the word
and sets a bit of a saved register.
-/

namespace LinuxFibers.Module

open LinuxFibers.Lib HashTable

variable {s t : System} {tr : List (System × Action)} {id pid : Pid} {cmd : Command}
  {arg : Word} {env : Env} {r : Reply} {f : FiberArg} {a i : ℕ}

/-! ## The bits of a request -/

/-- The number of bits of `DECLARE_BITMAP(fls_bitmap, sizeof(MAX_FLS))` in whole
words. -/
def flsStorage : ℕ := 64

/-- The bits that the scan of `find_first_zero_bit` reads. -/
def scanned (f : FiberArg) : ℕ → ℕ → List ℕ
  | 0, _ => []
  | n + 1, i => if f.bit i = some true then i :: scanned f n (i + 1) else [i]

/-- The bits of its active fiber that a request reads or flips.  `FLSALLOC` flips
the last bit that it reads. -/
def touchedBits (s : System) : Action → List ℤ
  | .ioctl id pid cmd arg env =>
      match s.activeFiber id pid with
      | none => []
      | some (_, f) =>
          match cmd with
          | .flsAlloc => (scanned f maxFls 0).map Int.ofNat
          | .flsFree => if 0 < arg.toInt ∧ arg.toInt < maxFls then [arg.toInt] else []
          | .flsGetValue | .flsSetValue =>
              if env.kzalloc .flsArg && env.copyFromUser then [env.flsArg.dwFlsIndex.toInt] else []
          | _ => []
  | _ => []

/-- The request asks for a slot of a fiber whose word has a clear bit, or names a
slot of the word. -/
def staysInWord (s : System) : Action → Bool
  | .ioctl id pid cmd arg env =>
      match s.activeFiber id pid with
      | none => true
      | some (_, f) =>
          match cmd with
          | .flsAlloc => f.flsBitmap != BitVec.allOnes 64
          | .flsFree => decide (¬ (64 ≤ arg.toInt ∧ arg.toInt < maxFls))
          | .flsGetValue | .flsSetValue =>
              decide (env.kzalloc .flsArg = true → env.copyFromUser = true →
                0 ≤ env.flsArg.dwFlsIndex.toInt ∧ env.flsArg.dwFlsIndex.toInt < 64)
          | _ => true
  | _ => true

/-- The steps that touch no bit behind the word. -/
def StorageStep (s : System) (a : Action) (t : System) : Prop :=
  staysInWord s a = true ∧ Step s a t

theorem bit_of_lt (f : FiberArg) (hi : i < 64) : f.bit i = some (f.flsBitmap.getLsbD i) := by
  rw [FiberArg.bit, if_pos hi]

/-- The scan finds the first clear bit, and reads no bit behind it. -/
theorem zeroBitFrom_first {n z : ℕ} (hz : f.bit z = some false)
    (hset : ∀ j < z, f.bit j = some true)
    (hi : i ≤ z) (hlt : z < i + n) :
    zeroBitFrom f n i = .ok z ∧ ∀ b ∈ scanned f n i, b ≤ z := by
  induction n generalizing i with
  | zero => omega
  | succ n ih =>
    by_cases heq : i = z
    · subst heq
      rw [zeroBitFrom, scanned, hz]
      exact ⟨rfl, by simp⟩
    · have hbit := hset i (by omega)
      have hnext : i + 1 ≤ z := by omega
      obtain ⟨hfind, hscan⟩ := ih hnext (by omega)
      rw [zeroBitFrom, scanned, hbit, if_pos rfl]
      refine ⟨hfind, fun b hb => ?_⟩
      rcases List.mem_cons.mp hb with rfl | hb
      · exact hi
      · exact hscan b hb

/-- The first clear bit of a word that is not full. -/
theorem exists_first_clear (h : f.flsBitmap ≠ BitVec.allOnes 64) : ∃ z < 64,
    f.flsBitmap.getLsbD z = false ∧ (∀ j < z, f.flsBitmap.getLsbD j = true) ∧
    findFirstZeroBit f = .ok z ∧ ∀ b ∈ scanned f maxFls 0, b ≤ z := by
  have hex : ∃ z, z < 64 ∧ f.flsBitmap.getLsbD z = false := exists_clear h
  classical
  obtain ⟨hlt, hclear⟩ := Nat.find_spec hex
  have hleast : ∀ j < Nat.find hex, f.flsBitmap.getLsbD j = true := by
    intro j hj
    have hmin := Nat.find_min hex hj
    by_contra hne
    exact hmin ⟨by omega, by simpa using hne⟩
  have hset : ∀ j < Nat.find hex, f.bit j = some true := by
    intro j hj
    rw [bit_of_lt f (by omega), hleast j hj]
  have hbit : f.bit (Nat.find hex) = some false := by
    rw [bit_of_lt f hlt, hclear]
  obtain ⟨hfind, hscan⟩ :=
    @zeroBitFrom_first f 0 maxFls _ hbit hset (Nat.zero_le _) (by unfold maxFls; omega)
  exact ⟨_, hlt, hclear, hleast, hfind, hscan⟩

theorem mem_scanned {n z : ℕ} (hset : ∀ j < z, f.bit j = some true) (hi : i ≤ z)
    (hlt : z < i + n) : z ∈ scanned f n i := by
  induction n generalizing i with
  | zero => omega
  | succ n ih =>
    rw [scanned]
    by_cases heq : i = z
    · subst heq
      split <;> simp
    · have hnext : i + 1 ≤ z := by omega
      rw [if_pos (hset i (by omega))]
      exact List.mem_cons_of_mem i (ih hnext (by omega))

/-- The scan of a full word reads the bit behind it. -/
theorem mem_scanned_of_full (h : f.flsBitmap = BitVec.allOnes 64) : 64 ∈ scanned f maxFls 0 := by
  apply mem_scanned
  · intro j hj
    rw [bit_of_lt f hj, h, BitVec.getLsbD_allOnes, decide_eq_true hj]
  · omega
  · unfold maxFls
    omega

theorem forall_mem_ite {c : Prop} [Decidable c] {x : ℤ} {p : ℤ → Prop} :
    (∀ b ∈ if c then [x] else [], p b) ↔ (c → p x) := by
  split <;> simp_all

/-- The bits that a request touches are in the word exactly when it stays there. -/
theorem staysInWord_iff (s : System) (a : Action) :
    staysInWord s a = true ↔ ∀ b ∈ touchedBits s a, 0 ≤ b ∧ b < flsStorage := by
  cases a with
  | user tgid pid c => simp [staysInWord, touchedBits]
  | exit tgid pid => simp [staysInWord, touchedBits]
  | ioctl id pid cmd arg env =>
    simp only [staysInWord, touchedBits, flsStorage]
    cases hact : s.activeFiber id pid with
    | none => simp
    | some x =>
      obtain ⟨a, f⟩ := x
      cases cmd with
      | flsAlloc =>
        constructor
        · intro h b hb
          obtain ⟨z, hz, _, _, _, hscan⟩ := exists_first_clear (bne_iff_ne.mp h)
          obtain ⟨j, hj, rfl⟩ := List.mem_map.mp hb
          have hle := hscan j hj
          simp only [Int.ofNat_eq_natCast]
          omega
        · intro h
          apply bne_iff_ne.mpr
          intro hfull
          have hmem := mem_scanned_of_full hfull
          have hlt := (h 64 (List.mem_map.mpr ⟨64, hmem, rfl⟩)).2
          omega
      | flsFree =>
        dsimp only
        rw [decide_eq_true_iff, forall_mem_ite]
        omega
      | flsGetValue =>
        dsimp only
        rw [decide_eq_true_iff, forall_mem_ite, Bool.and_eq_true, and_imp]
        rfl
      | flsSetValue =>
        dsimp only
        rw [decide_eq_true_iff, forall_mem_ite, Bool.and_eq_true, and_imp]
        rfl
      | convertToFiber => simp
      | createFiber => simp
      | switchToFiber => simp
      | other => simp

/-- A request that touches no bit behind the word asks for no slot there. -/
theorem hasFreeSlot_of_staysInWord {a : Action} (h : staysInWord s a = true) :
    hasFreeSlot s a = true := by
  cases a with
  | user => rfl
  | exit => rfl
  | ioctl id pid cmd arg env =>
    cases cmd with
    | flsAlloc =>
      simp only [staysInWord, hasFreeSlot] at h ⊢
      split at h
      · rename_i hact
        rw [hact]
      · rename_i hact
        rw [hact]
        exact h
    | _ => rfl

/-! ## `FLSALLOC` and `FLSFREE` of an active fiber -/

theorem flsAlloc_active {k : Kernel} {cur : Task} {e : Entry ProcessArg} {th : Entry ThreadArg}
    (he : searchProcess k cur.tgid = some e) (hth : searchThread cur.pid e.obj = some th)
    (hactive : th.obj.activeFiber = some a) (hf : e.obj.fibers.deref a = some f)
    (hfind : findFirstZeroBit f = .ok i) (hi : i < 64) :
    flsAlloc k cur = reply cur (k.setFiber e a { f with
      flsBitmap := putBit f.flsBitmap i true
      flsArray := Function.update f.flsArray i 0 }) i := by
  have hne : ¬ i = maxFls := by
    unfold maxFls
    omega
  simp only [flsAlloc, he, hth, hactive, derefFiber, hf, hfind, bind, Except.bind, if_neg hne,
    FiberArg.setBit, if_pos hi]

theorem flsFree_active {k : Kernel} {cur : Task} {e : Entry ProcessArg} {th : Entry ThreadArg}
    (he : searchProcess k cur.tgid = some e) (hth : searchThread cur.pid e.obj = some th)
    (hactive : th.obj.activeFiber = some a) (hf : e.obj.fibers.deref a = some f)
    (h0 : 0 < arg.toInt) (hlt : arg.toInt < 64) :
    flsFree k cur arg = reply cur (k.setFiber e a { f with
      flsBitmap := putBit f.flsBitmap arg.toInt.toNat false }) 1 := by
  have hrange : 0 < arg.toInt ∧ arg.toInt < maxFls := by
    unfold maxFls
    omega
  have hneg : ¬ arg.toInt < 0 := by omega
  have hbit : arg.toInt.toNat < 64 := by omega
  simp only [flsFree, he, hth, if_pos hrange, hactive, derefFiber, hf, clearBit, testBit,
    if_neg hneg, FiberArg.bit, if_pos hbit, FiberArg.setBit, bind, Except.bind]
  rfl

/-! ## The word and the history -/

/-- A bit of the word that is set belongs to a slot that is held. -/
def Exact (tr : List (System × Action)) (s : System) : Prop :=
  ∀ tgid p, s.kernel.record tgid = some p → ∀ e ∈ p.fibers, ∀ i < 64,
    e.obj.flsBitmap.getLsbD i = true → Holds tr tgid e.addr i

/-- The fiber had the slot before the step. -/
def HadBit (s : System) (tgid : Pid) (b i : ℕ) : Prop :=
  ∃ p e, s.kernel.record tgid = some p ∧ e ∈ p.fibers ∧ e.addr = b ∧
    e.obj.flsBitmap.getLsbD i = true

/-- A bit that a request of its fiber leaves set was set before, or was given. -/
theorem bit_of_write {old : FiberArg} {ret : ℤ} (hw : FlsWrite old arg env cmd ret f)
    (hi : i < 64) (hbit : f.flsBitmap.getLsbD i = true) :
    old.flsBitmap.getLsbD i = true ∨ cmd = .flsAlloc ∧ ret = i := by
  cases hw with
  | @alloc j hj hne =>
    by_cases hij : i = j
    · exact Or.inr ⟨rfl, by rw [hij]⟩
    · left
      change (old.setBit j true).flsBitmap.getLsbD i = true at hbit
      rwa [getLsbD_setBit old j hi, if_neg hij] at hbit
  | free h0 hmax hf =>
    left
    rw [of_clearBit hf, getLsbD_setBit old _ hi] at hbit
    split at hbit
    · cases hbit
    · exact hbit
  | set => exact Or.inl hbit

/-- A bit that is set in a fiber of the caller's process after a request was set
before, or was given to the caller's active fiber. -/
theorem bit_of_request (hok : KernelOk s.kernel) (hr : s.request id pid cmd arg env = .ok r)
    {p' : ProcessArg} (hp' : r.kernel.record id = some p') {e' : Entry FiberArg}
    (he' : e' ∈ p'.fibers) (hi : i < 64) (hbit : e'.obj.flsBitmap.getLsbD i = true) :
    HadBit s id e'.addr i ∨
      (s.activeFiber id pid).map Prod.fst = some e'.addr ∧ cmd = .flsAlloc ∧ r.ret = i := by
  have hc := change_of_request hok hr hp'
  generalize hbefore : s.kernel.record id = o at hc
  cases hc with
  | idle => exact Or.inl ⟨p', e', hbefore, he', rfl, hbit⟩
  | opened => cases he'
  | @converted o p t f hsource =>
    rcases mem_hashAdd.mp he' with rfl | he'
    · simp [convertedFiber] at hbit
    · rcases hsource with rfl | ⟨_, rfl⟩
      · exact Or.inl ⟨p, e', hbefore, he', rfl, hbit⟩
      · cases he'
  | @created p =>
    rcases mem_hashAdd.mp he' with rfl | he'
    · simp [createdFiber] at hbit
    · exact Or.inl ⟨p, e', hbefore, he', rfl, hbit⟩
  | @failed p fiber =>
    rw [modify_eq_mapObj] at he'
    obtain ⟨e, he, rfl⟩ := mem_mapObj.mp he'
    refine Or.inl ⟨p, e, hbefore, he, rfl, ?_⟩
    simp only at hbit
    split at hbit <;> exact hbit
  | @switched p fiber thread a old =>
    rw [switch_eq] at he'
    obtain ⟨e, he, rfl⟩ := mem_mapObj.mp he'
    have hfls := @switchedFiber_fls env (s.task id pid) a old fiber.addr e
    refine Or.inl ⟨p, e, hbefore, he, rfl, ?_⟩
    rw [← hfls.1]
    exact hbit
  | @stored _ p thread a old f hthread hactive hold hw =>
    rw [modify_eq_mapObj] at he'
    obtain ⟨e, he, rfl⟩ := mem_mapObj.mp he'
    by_cases ha : e.addr = a
    · have hobj : e.obj = old :=
        (hok.linked id p hbefore).fibers_unique.obj_of_deref hold he ha
      subst hobj
      simp only [if_pos ha] at hbit
      rcases bit_of_write hw hi hbit with hset | hgiven
      · exact Or.inl ⟨p, e, hbefore, he, rfl, hset⟩
      · have hact : s.activeFiber id pid = some (a, e.obj) :=
          activeFiber_eq hbefore hthread hactive hold
        refine Or.inr ⟨?_, hgiven⟩
        rw [hact, Option.map_some]
        exact congrArg some ha.symm
    · simp only [if_neg ha] at hbit
      exact Or.inl ⟨p, e, hbefore, he, rfl, hbit⟩

/-- A slot that `FLSFREE` gives back has its bit clear. -/
theorem freed_clear (hok : KernelOk s.kernel) (hactive : s.activeFiber id pid = some (a, f))
    (hr : s.request id pid .flsFree arg env = .ok r) (h1 : r.ret = 1) (hi : i < 64)
    (harg : arg.toInt = i) {p' : ProcessArg} (hp' : r.kernel.record id = some p')
    {e' : Entry FiberArg} (he' : e' ∈ p'.fibers) (ha : e'.addr = a) :
    e'.obj.flsBitmap.getLsbD i = false := by
  obtain ⟨e, th, he, hth, hath, hf⟩ := of_activeFiber hactive
  by_cases h0 : 0 < arg.toInt
  · have heq : flsFree s.kernel (s.task id pid) arg = .ok r := hr
    rw [flsFree_active he hth hath hf h0 (by omega)] at heq
    cases heq
    rw [of_setFiber hok.toTables he hp' he' ha, harg, Int.toNat_natCast,
      getLsbD_putBit f.flsBitmap hi hi, if_pos rfl]
  · have heq : flsFree s.kernel (s.task id pid) arg = .ok r := hr
    simp only [flsFree, show searchProcess s.kernel (s.task id pid).tgid = some e from he,
      show searchThread (s.task id pid).pid e.obj = some th from hth] at heq
    rw [if_neg fun h => h0 h.1] at heq
    cases heq
    cases h1

theorem exact_request (hok : KernelOk s.kernel) (hx : Exact tr s)
    (hr : s.request id pid cmd arg env = .ok r) :
    Exact (tr ++ [(s, .ioctl id pid cmd arg env)]) (s.resume id pid r) := by
  intro tgid p' hp' e' he' i hi hbit
  change r.kernel.record tgid = some p' at hp'
  by_cases hid : id = tgid
  · subst hid
    have hm := slotEvent_request hr id e'.addr i
    rcases bit_of_request hok hr hp' he' hi hbit with ⟨p, e, hp, he, ha, hset⟩ | ⟨hact, rfl, hret⟩
    · have hheld : Holds tr id e'.addr i := ha ▸ hx id p hp e he i hi hset
      by_cases hact : (s.activeFiber id pid).map Prod.fst = some e'.addr
      · rw [if_pos ⟨rfl, hact⟩] at hm
        cases cmd with
        | flsAlloc =>
          rw [slotCall] at hm
          split at hm
          · exact latest_snoc_of_some (by rw [hm]; rfl) tr
          · exact (holds_snoc_of_none hm).mpr hheld
        | flsFree =>
          rw [slotCall] at hm
          split at hm
          · rename_i hfreed
            obtain ⟨⟨b, f⟩, hf, hb⟩ := Option.map_eq_some_iff.mp hact
            have hclear := freed_clear hok hf hr hfreed.1 hi hfreed.2 hp' he' hb.symm
            rw [hclear] at hbit
            cases hbit
          · exact (holds_snoc_of_none hm).mpr hheld
        | flsSetValue =>
          rw [slotCall] at hm
          split at hm
          · rwa [Holds, latest_snoc_of_none (by rw [hm]; rfl)]
          · exact (holds_snoc_of_none hm).mpr hheld
        | _ => exact (holds_snoc_of_none hm).mpr hheld
      · rw [if_neg fun h => hact h.2] at hm
        exact (holds_snoc_of_none hm).mpr hheld
    · rw [if_pos ⟨rfl, hact⟩, slotCall, if_pos hret] at hm
      exact latest_snoc_of_some (by rw [hm]; rfl) tr
  · rw [record_of_request hok hr (Ne.symm hid)] at hp'
    have hm : slotEvent tgid e'.addr i (s, .ioctl id pid cmd arg env) = none :=
      slotEvent_of_ne (fun f h => absurd h hid) i
    exact (holds_snoc_of_none hm).mpr (hx tgid p' hp' e' he' i hi hbit)

theorem exact_step {m : System × Action} (hok : KernelOk s.kernel) (hx : Exact tr s)
    (h : Recorded Step s m t) : Exact (tr ++ [m]) t := by
  obtain ⟨s', a⟩ := m
  obtain ⟨rfl, hstep⟩ := h
  cases a with
  | user tgid pid c =>
    cases hstep
    intro tgid p hp e he i hi hbit
    exact (holds_snoc_of_none rfl).mpr (hx tgid p hp e he i hi hbit)
  | ioctl id pid cmd arg env =>
    obtain ⟨r, hr, rfl⟩ := step_ioctl hstep
    exact exact_request hok hx hr
  | exit proId thrId =>
    obtain ⟨k, hk, rfl⟩ := step_exit hstep
    intro tgid p hp e he i hi hbit
    obtain ⟨p₀, hp₀, hsub⟩ := (exited hok.toTables hk).fibers_of_record hok.toTables hp
    exact (holds_snoc_of_none rfl).mpr (hx tgid p₀ hp₀ e (hsub e he) i hi hbit)

theorem exact_run {context : Pid × Pid → Context}
    (h : Run (Recorded Step) (System.init context) tr s) : Exact tr s := by
  have hboth : KernelOk s.kernel ∧ Exact tr s := by
    refine h.invariantTrace (I := fun tr s => KernelOk s.kernel ∧ Exact tr s) ?_ ?_
    · intro tr s m t hs hm
      exact ⟨kernelOk_step hs.1 hm.2, exact_step hs.1 hs.2 hm⟩
    · exact ⟨kernelOk_init, fun tgid p hp => by cases hp⟩
  exact hboth.2

/-- In a run that touches no bit behind the word, the slots that the active fiber
of a thread holds are the bits of its word. -/
theorem holds_iff {context : Pid × Pid → Context}
    (h : Run (Recorded StorageStep) (System.init context) tr s)
    (hactive : s.activeFiber id pid = some (a, f)) (j : ℕ) :
    Holds tr id a j ↔ j < 64 ∧ f.flsBitmap.getLsbD j = true := by
  obtain ⟨hok, hk⟩ := kept_run (h.mono fun s m t hm =>
    ⟨hm.1, hasFreeSlot_of_staysInWord hm.2.1, hm.2.2⟩)
  have hx := exact_run (h.mono fun s m t hm => ⟨hm.1, hm.2.2⟩)
  obtain ⟨p, e, hp, he, ha, hobj⟩ := entry_of_activeFiber hactive
  rw [← ha, ← hobj]
  constructor
  · intro hheld
    have hs := hk.slot id p hp e he j hheld
    exact ⟨hs.lt, hs.bit⟩
  · rintro ⟨hj, hbit⟩
    exact hx id p hp e he j hj hbit

/-! ## What the commands leave alone -/

/-- A fiber without its bitmap and its slots. -/
def FiberArg.withoutFls (f : FiberArg) : FiberArg :=
  { f with flsBitmap := 0, flsArray := fun _ => 0 }

/-- A record whose fibers are without their bitmaps and slots. -/
def ProcessArg.withoutFls (p : ProcessArg) : ProcessArg :=
  { p with fibers := p.fibers.mapObj fun e => e.obj.withoutFls }

/-- The records of a kernel without the bitmaps and slots. -/
def Kernel.withoutFls (k : Kernel) : HashTable ProcessArg :=
  k.listProcess.mapObj fun e => e.obj.withoutFls

/-- A write of the bitmap and the slots of a fiber leaves everything else. -/
theorem setFiber_withoutFls {k : Kernel} {e : Entry ProcessArg} {g : FiberArg} (hok : KernelOk k)
    (he : searchProcess k id = some e) (hf : e.obj.fibers.deref a = some f)
    (hg : g.withoutFls = f.withoutFls) : (k.setFiber e a g).withoutFls = k.withoutFls := by
  obtain ⟨hmem, hid⟩ := of_searchProcess he
  obtain ⟨y, hy, hya, rfl⟩ := mem_of_deref hf
  have hunique := (hok.linked e.obj.pid e.obj (record_of_mem hok.toTables hmem)).fibers_unique
  have hobj : ({ e.obj with fibers := e.obj.fibers.modify a fun _ => g } : ProcessArg).withoutFls =
      e.obj.withoutFls := by
    unfold ProcessArg.withoutFls
    rw [modify_eq_mapObj, mapObj_mapObj]
    congr 1
    apply List.map_congr_left
    intro x hx
    by_cases hxa : x.addr = a
    · have hxy : x = y := hunique.eq_of_addr hx hy (by rw [hxa, hya])
      subst hxy
      simp only [if_pos hxa, hg]
    · simp only [if_neg hxa]
  unfold Kernel.setFiber Kernel.setProcess Kernel.withoutFls
  rw [modify_eq_mapObj, mapObj_mapObj]
  apply List.map_congr_left
  intro x hx
  by_cases hxe : x.addr = e.addr
  · have heq : x = e := hok.unique.eq_of_addr hx hmem hxe
    subst heq
    simp only [if_true, hobj]
  · simp only [if_neg hxe]

theorem withoutFls_of_eq {k k' : Kernel} (h : k'.listProcess = k.listProcess) :
    k'.withoutFls = k.withoutFls := by
  rw [Kernel.withoutFls, h, Kernel.withoutFls]

/-- The four commands on fiber local storage. -/
def Command.onFls : Command → Bool
  | .flsAlloc | .flsFree | .flsGetValue | .flsSetValue => true
  | _ => false

theorem testBit_returns {index : ℤ} (h0 : 0 ≤ index) (hlt : index < 64) :
    ∃ b, testBit f index = .ok b := by
  have hneg : ¬ index < 0 := by omega
  rw [testBit, if_neg hneg, bit_of_lt f (by omega)]
  exact ⟨_, rfl⟩

/-- A test of a bit of the word of the active fiber does not fault. -/
theorem testBit_of_active {k : Kernel} {cur : Task} {e e' : Entry ProcessArg}
    {th th' : Entry ThreadArg} {index : ℤ} {x : Fault} (he : searchProcess k cur.tgid = some e)
    (hth : searchThread cur.pid e.obj = some th)
    (hd : derefFiber e.obj.fibers th.obj.activeFiber = .ok (a, f))
    (he' : searchProcess k cur.tgid = some e') (hth' : searchThread cur.pid e'.obj = some th')
    (hstay : 0 ≤ index ∧ index < 64) :
    ¬ (derefFiber e'.obj.fibers th'.obj.activeFiber >>= fun af => testBit af.2 index) =
      .error x := by
  intro hx
  obtain ⟨b, hb⟩ := testBit_returns (f := f) hstay.1 hstay.2
  rw [he, Option.some.injEq] at he'
  subst he'
  rw [hth, Option.some.injEq] at hth'
  subst hth'
  rw [hd] at hx
  simp only [bind, Except.bind, hb, reduceCtorEq] at hx

theorem flsGetValue_leaves {k : Kernel} {cur : Task} {x : Except Fault Reply}
    {e : Entry ProcessArg} {th : Entry ThreadArg} (he : searchProcess k cur.tgid = some e)
    (hth : searchThread cur.pid e.obj = some th)
    (hd : derefFiber e.obj.fibers th.obj.activeFiber = .ok (a, f))
    (hstay : env.kzalloc .flsArg = true → env.copyFromUser = true →
      0 ≤ env.flsArg.dwFlsIndex.toInt ∧ env.flsArg.dwFlsIndex.toInt < 64)
    (hpath : GetPath testBit k cur env x) : ∃ r, x = .ok r ∧ r.kernel.withoutFls = k.withoutFls := by
  cases hpath with
  | faulted ha hu he' hth' hx =>
    exact absurd hx (testBit_of_active he hth hd he' hth' (hstay ha hu))
  | _ => exact ⟨_, rfl, withoutFls_of_eq rfl⟩

theorem flsSetValue_leaves {k : Kernel} {cur : Task} {x : Except Fault Reply}
    {e : Entry ProcessArg} {th : Entry ThreadArg} (hok : KernelOk k)
    (he : searchProcess k cur.tgid = some e)
    (hth : searchThread cur.pid e.obj = some th)
    (hd : derefFiber e.obj.fibers th.obj.activeFiber = .ok (a, f))
    (hstay : env.kzalloc .flsArg = true → env.copyFromUser = true →
      0 ≤ env.flsArg.dwFlsIndex.toInt ∧ env.flsArg.dwFlsIndex.toInt < 64)
    (hpath : SetPath testBit k cur env x) : ∃ r, x = .ok r ∧ r.kernel.withoutFls = k.withoutFls := by
  cases hpath with
  | faulted ha hu he' hth' hx =>
    exact absurd hx (testBit_of_active he hth hd he' hth' (hstay ha hu))
  | @stored _ _ b old _ _ he' _ hd' =>
    have hset := setFiber_withoutFls hok he' (of_derefFiber hd').2 (g := { old with
      flsArray := Function.update old.flsArray env.flsArg.dwFlsIndex.toNat env.flsArg.lpFlsData })
      rfl
    exact ⟨_, rfl, hset⟩
  | _ => exact ⟨_, rfl, withoutFls_of_eq rfl⟩

/-- A request on fiber local storage that touches no bit behind the word returns,
and changes nothing but a bitmap and slots. -/
theorem onFls_leaves (hok : KernelOk s.kernel) (hcmd : cmd.onFls = true)
    (hactive : s.activeFiber id pid = some (a, f))
    (hstay : staysInWord s (.ioctl id pid cmd arg env) = true) :
    ∃ r, s.request id pid cmd arg env = .ok r ∧ r.kernel.withoutFls = s.kernel.withoutFls := by
  obtain ⟨e, th, he, hth, hath, hf⟩ := of_activeFiber hactive
  have he' : searchProcess s.kernel (s.task id pid).tgid = some e := he
  have hth' : searchThread (s.task id pid).pid e.obj = some th := hth
  have hd : derefFiber e.obj.fibers th.obj.activeFiber = .ok (a, f) := by
    rw [hath]
    simp only [derefFiber, hf]
  simp only [staysInWord, hactive] at hstay
  cases cmd with
  | flsAlloc =>
    obtain ⟨z, hz, _, _, hfind, _⟩ := exists_first_clear (bne_iff_ne.mp hstay)
    refine ⟨_, flsAlloc_active he' hth' hath hf hfind hz, ?_⟩
    apply setFiber_withoutFls hok he hf
    rfl
  | flsFree =>
    by_cases h0 : 0 < arg.toInt ∧ arg.toInt < maxFls
    · have hlt : arg.toInt < 64 := by
        have hnot := of_decide_eq_true hstay
        omega
      refine ⟨_, flsFree_active he' hth' hath hf h0.1 hlt, ?_⟩
      apply setFiber_withoutFls hok he hf
      rfl
    · refine ⟨⟨0, s.kernel, (s.task id pid).toContext, none⟩, ?_, rfl⟩
      show flsFree s.kernel (s.task id pid) arg = _
      simp only [flsFree, he', hth', if_neg h0]
      rfl
  | flsGetValue =>
    exact flsGetValue_leaves he' hth' hd (of_decide_eq_true hstay) (get_path testBit _ _ _)
  | flsSetValue =>
    exact flsSetValue_leaves hok he' hth' hd (of_decide_eq_true hstay) (set_path testBit _ _ _)
  | _ => cases hcmd

/-! ## The smallest slot -/

/-- What `FLSALLOC` does for the fiber `f` at `a`, by the history of its slots. -/
structure Allocates (tr : List (System × Action)) (s : System) (id pid : Pid) (a : ℕ)
    (f : FiberArg) (r : Reply) : Prop where
  full : r.ret = -1 ↔ ∀ i < maxFls, Holds tr id a i
  least : ∀ i : ℕ, r.ret = i ↔ i < maxFls ∧ ¬ Holds tr id a i ∧ ∀ j < i, Holds tr id a j
  write : ∀ i : ℕ, r.ret = i → ∃ e, searchProcess s.kernel id = some e ∧
    r.kernel = s.kernel.setFiber e a { f with
      flsBitmap := putBit f.flsBitmap i true
      flsArray := Function.update f.flsArray i 0 }
  context : r.context = s.context (id, pid)

/-- In a run that touches no bit behind the word, `FLSALLOC` gives the smallest
slot that its fiber does not hold. -/
theorem allocates {context : Pid × Pid → Context}
    (h : Run (Recorded StorageStep) (System.init context) tr s)
    (hactive : s.activeFiber id pid = some (a, f))
    (hstay : staysInWord s (.ioctl id pid .flsAlloc arg env) = true)
    (hr : s.request id pid .flsAlloc arg env = .ok r) : Allocates tr s id pid a f r := by
  have hheld := fun j => holds_iff h hactive j
  obtain ⟨e, th, he, hth, hath, hf⟩ := of_activeFiber hactive
  simp only [staysInWord, hactive] at hstay
  obtain ⟨z, hz, hclear, hset, hfind, _⟩ := exists_first_clear (bne_iff_ne.mp hstay)
  have heq : flsAlloc s.kernel (s.task id pid) = .ok r := hr
  rw [flsAlloc_active he hth hath hf hfind hz] at heq
  cases heq
  have hfree : ¬ Holds tr id a z := by
    rw [hheld, hclear]
    simp
  constructor
  · constructor
    · intro hneg
      simp only at hneg
      omega
    · intro hall
      exact absurd (hall z (by unfold maxFls; omega)) hfree
  · intro i
    constructor
    · intro hi
      have hzi : z = i := by
        simp only at hi
        omega
      subst hzi
      refine ⟨by unfold maxFls; omega, hfree, fun j hj => ?_⟩
      exact (hheld j).mpr ⟨by omega, hset j hj⟩
    · rintro ⟨_, hi, hbelow⟩
      have hzi : z = i := by
        apply Nat.le_antisymm
        · by_contra hlt
          exact hi ((hheld i).mpr ⟨by omega, hset i (by omega)⟩)
        · by_contra hlt
          exact hfree (hbelow z (by omega))
      rw [hzi]
  · intro i hi
    have hzi : z = i := by
      simp only at hi
      omega
    subst hzi
    exact ⟨e, he, rfl⟩
  · rfl

/-- When no step touches a bit behind the word, every request on fiber local
storage of an active fiber touches bits of the word only and changes nothing but
a bitmap and slots, and `FLSALLOC` gives the smallest slot that is not held. -/
theorem flsAlloc_smallest {context : Pid × Pid → Context}
    (h : Run (Recorded StorageStep) (System.init context) tr s) (hcmd : cmd.onFls = true)
    (hactive : s.activeFiber id pid = some (a, f))
    (hstay : staysInWord s (.ioctl id pid cmd arg env) = true) :
    (∀ b ∈ touchedBits s (.ioctl id pid cmd arg env), 0 ≤ b ∧ b < flsStorage) ∧
    ∃ r, s.request id pid cmd arg env = .ok r ∧ r.kernel.withoutFls = s.kernel.withoutFls ∧
      (cmd = .flsAlloc → Allocates tr s id pid a f r) := by
  have hok := (kept_run (h.mono fun s m t hm =>
    ⟨hm.1, hasFreeSlot_of_staysInWord hm.2.1, hm.2.2⟩)).1
  obtain ⟨r, hr, hleaves⟩ := onFls_leaves hok hcmd hactive hstay
  refine ⟨(staysInWord_iff s _).mp hstay, r, hr, hleaves, ?_⟩
  rintro rfl
  exact allocates h hactive hstay hr

/-- `flsAlloc_smallest` after three slots were taken and the second was freed. -/
theorem flsAlloc_smallest_after_free : ∃ (tr : List (System × Action)) (s : System) (a : ℕ)
    (f : FiberArg) (r : Reply), Run (Recorded StorageStep) (System.init zeroContext) tr s ∧
    s.activeFiber 7 7 = some (a, f) ∧ s.request 7 7 .flsAlloc 0 Env.plain = .ok r ∧
    Allocates tr s 7 7 a f r ∧ r.ret = 1 := by
  obtain ⟨tr, s, hrun, hp⟩ := exists_history_of staysInWord (System.init zeroContext)
    [.ioctl 7 7 .convertToFiber 0 Env.plain, .ioctl 7 7 .flsAlloc 0 Env.plain,
      .ioctl 7 7 .flsAlloc 0 Env.plain, .ioctl 7 7 .flsAlloc 0 Env.plain,
      .ioctl 7 7 .flsFree 1 Env.plain]
    (fun _ s => staysInWord s (.ioctl 7 7 .flsAlloc 0 Env.plain) &&
      (s.activeFiber 7 7).isSome &&
      (s.request 7 7 .flsAlloc 0 Env.plain).toOption.any fun r => r.ret == 1) (by decide +kernel)
  simp only [Bool.and_eq_true] at hp
  obtain ⟨⟨hstay, hsome⟩, hret⟩ := hp
  obtain ⟨⟨a, f⟩, hactive⟩ := Option.isSome_iff_exists.mp hsome
  obtain ⟨r', hr', hret⟩ := of_toOption_any hret
  obtain ⟨_, r, hr, _, halloc⟩ := flsAlloc_smallest hrun rfl hactive hstay
  rw [hr, Except.ok.injEq] at hr'
  rw [← hr'] at hret
  exact ⟨tr, s, a, f, r, hrun, hactive, hr, halloc rfl, eq_of_beq hret⟩

/-- The 65th `FLSALLOC` of a fiber gives 64, and flips a bit of its saved `r15`. -/
theorem slot_behind_word : ∃ (tr : List (System × Action)) (s : System) (a : ℕ) (f g : FiberArg)
    (r : Reply), Run (Recorded Step) (System.init zeroContext) tr s ∧
    s.activeFiber 7 7 = some (a, f) ∧ s.request 7 7 .flsAlloc 0 Env.plain = .ok r ∧
    r.ret = 64 ∧ (flsStorage : ℤ) ∈ touchedBits s (.ioctl 7 7 .flsAlloc 0 Env.plain) ∧
    (s.resume 7 7 r).activeFiber 7 7 = some (a, g) ∧ f.regs .r15 = 0 ∧ g.regs .r15 = 1 := by
  obtain ⟨tr, s, hrun, hp⟩ := exists_history_of (fun _ _ => true) (System.init zeroContext)
    (.ioctl 7 7 .convertToFiber 0 Env.plain ::
      List.replicate 64 (.ioctl 7 7 .flsAlloc 0 Env.plain))
    (fun _ s =>
      decide ((flsStorage : ℤ) ∈ touchedBits s (.ioctl 7 7 .flsAlloc 0 Env.plain)) &&
      (s.activeFiber 7 7).any fun af =>
        (s.request 7 7 .flsAlloc 0 Env.plain).toOption.any fun r =>
          r.ret == 64 && (af.2.regs .r15 == 0) &&
            ((s.resume 7 7 r).activeFiber 7 7).any fun ag =>
              af.1 == ag.1 && ag.2.regs .r15 == 1) (by decide +kernel)
  simp only [Bool.and_eq_true, decide_eq_true_eq] at hp
  obtain ⟨htouch, hp⟩ := hp
  obtain ⟨⟨a, f⟩, hactive, hp⟩ := (Option.any_eq_true _ _).mp hp
  obtain ⟨r, hr, hp⟩ := of_toOption_any hp
  simp only [Bool.and_eq_true, beq_iff_eq] at hp
  obtain ⟨⟨hret, hf⟩, hp⟩ := hp
  obtain ⟨⟨b, g⟩, hnew, hp⟩ := (Option.any_eq_true _ _).mp hp
  simp only [Bool.and_eq_true, beq_iff_eq] at hp
  obtain ⟨rfl, hg⟩ := hp
  exact ⟨tr, s, a, f, g, r, hrun.mono fun _ _ _ h => ⟨h.1, h.2.2⟩, hactive, hr, hret, htouch,
    hnew, hf, hg⟩

end LinuxFibers.Module
