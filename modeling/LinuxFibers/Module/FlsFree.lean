import LinuxFibers.Module.FlsIndex
import LinuxFibers.Module.Library

/-!
# The release of a slot

`FlsFree` of `multi_thread/src/function_calls.c` over `FLSFREE` of the module.
The module returns 1 or 0, and the library calls every value but -1 a success, so
`FlsFree` never fails once the device is open.  The module also passes the index 0
by, which `FLSALLOC` gives.

`FreesSlot` says what `FlsFree` owes.  It holds for the indices in the range of a
converted thread, and for the slot 0 as long as it is not held
(`freesSlot_iff`).  A slot that was freed is a clear bit, and a clear bit other
than 0 keeps any number of rounds of `FlsAlloc` and `FlsFree` going
(`cycles_return`).
-/

namespace LinuxFibers.Module

open LinuxFibers.Lib HashTable

variable {s t : System} {tr : List (System × Action)} {id pid : Pid} {arg : Word} {env : Env}
  {r : Reply} {f g : FiberArg} {a i j : ℕ}

/-! ## The law -/

/-- `n` rounds in which the thread obtains a slot and frees it, with the slots it
obtains. -/
def Library.cycles (lib : Library) (tgid pid : Pid) (env : Env) :
    ℕ → System → Except Fault (List Word × System)
  | 0, s => .ok ([], s)
  | n + 1, s => do
      let (index, s) ← lib.flsAlloc s tgid pid env
      let (_, s) ← lib.flsFree s tgid pid index env
      let (indices, s) ← lib.cycles tgid pid env n s
      return (index :: indices, s)

/-- The thread was converted. -/
def System.Converted (s : System) (tgid pid : Pid) : Prop :=
  ∃ p, s.kernel.record tgid = some p ∧ (searchThread pid p).isSome = true

/-- What `FlsFree` owes for an index. -/
structure FreesSlot (lib : Library) (tr : List (System × Action)) (s : System) (id pid : Pid)
    (index : Word) (env : Env) : Prop where
  freed : ∀ a f, s.activeFiber id pid = some (a, f) → LiveIndex tr s id pid index →
    ∃ e g t, lib.flsFree s id pid index env = .ok (true, t) ∧
      searchProcess s.kernel id = some e ∧
      t.kernel.listProcess = (s.kernel.setFiber e a g).listProcess ∧
      g.flsArray = f.flsArray ∧
      (∀ j, g.bit j = if j = index.toNat then some false else f.bit j) ∧
      ∀ n, ∃ js u, lib.cycles id pid env n t = .ok (js, u) ∧ js.length = n ∧
        ∀ j ∈ js, 0 ≤ j.toInt ∧ j.toInt ≤ index.toInt
  rejected : ¬ (0 ≤ index.toInt ∧ index.toInt < maxFls) ∨ ¬ s.Converted id pid →
    ∃ t, lib.flsFree s id pid index env = .ok (false, t) ∧
      t.kernel.listProcess = s.kernel.listProcess

/-! ## Bits of the word and of the registers -/

theorem regOfBit_inj {i j : ℕ} {r : Reg} (hi : 64 ≤ i) (hj : 64 ≤ j) (hri : regOfBit i = some r)
    (hrj : regOfBit j = some r) : i / 64 = j / 64 := by
  have hnodup : Reg.layout.Nodup := by decide
  rw [regOfBit, if_neg (by omega)] at hri hrj
  have hlt : i / 64 - 1 < Reg.layout.length := (List.getElem?_eq_some_iff.mp hri).1
  have hinj := (List.getElem?_inj hlt hnodup).mp (hri.trans hrj.symm)
  omega

theorem isSome_bit_iff (f : FiberArg) (i : ℕ) :
    (f.bit i).isSome = true ↔ i < 64 ∨ (regOfBit i).isSome = true := by
  unfold FiberArg.bit
  split
  · rename_i hi
    exact ⟨fun _ => Or.inl hi, fun _ => rfl⟩
  · rename_i hi
    rw [Option.isSome_map]
    exact ⟨Or.inr, fun h => h.resolve_left hi⟩

/-- The bits in front of a bit are there, in every fiber. -/
theorem isSome_bit_of_le (hi : (f.bit i).isSome = true) (hle : j ≤ i) :
    (g.bit j).isSome = true := by
  rw [Option.isSome_iff_ne_none, ne_eq, bit_eq_none_iff] at hi ⊢
  omega

/-- A write of bit `i`, seen at any bit. -/
theorem bit_setBit (hi : (f.bit i).isSome = true) (b : Bool) (j : ℕ) :
    (f.setBit i b).bit j = if j = i then some b else f.bit j := by
  by_cases hj : j < 64
  · rw [bit_of_lt _ hj, bit_of_lt _ hj, getLsbD_setBit f i hj]
    split <;> rfl
  · have hbit : ∀ x : FiberArg, x.bit j = (regOfBit j).map fun r => (x.regs r).getLsbD (j % 64) :=
      fun x => by rw [FiberArg.bit, if_neg hj]
    rw [hbit, hbit]
    by_cases hi64 : i < 64
    · have hne : j ≠ i := by omega
      rw [FiberArg.setBit, if_pos hi64, if_neg hne]
    · have hsome := ((isSome_bit_iff f i).mp hi).resolve_left hi64
      obtain ⟨q, hq⟩ := Option.isSome_iff_exists.mp hsome
      rw [FiberArg.setBit, if_neg hi64, hq]
      cases hr : regOfBit j with
      | none =>
        have hne : j ≠ i := by
          intro heq
          rw [heq, hq] at hr
          cases hr
        rw [if_neg hne]
        rfl
      | some r =>
        have hmod : j % 64 < 64 := Nat.mod_lt j (by omega)
        have hmod' : i % 64 < 64 := Nat.mod_lt i (by omega)
        simp only [Option.map_some]
        by_cases hrq : r = q
        · -- the same word of the registers
          rw [hrq] at hr ⊢
          have hdiv := regOfBit_inj (by omega) (by omega) hr hq
          rw [Function.update_self, getLsbD_putBit _ hmod' hmod]
          by_cases hji : j = i
          · rw [if_pos hji, if_pos (by rw [hji])]
          · rw [if_neg hji, if_neg (by omega)]
        · have hne : j ≠ i := by
            intro heq
            rw [heq, hq, Option.some.injEq] at hr
            exact hrq hr.symm
          rw [Function.update_of_ne hrq, if_neg hne]

/-- The scan comes to a clear bit. -/
theorem zeroBitFrom_finds {n k : ℕ} (hclear : f.bit i = some false) (hk : k ≤ i)
    (hlt : i < k + n) : ∃ z ≤ i, zeroBitFrom f n k = .ok z ∧ f.bit z = some false := by
  induction n generalizing k with
  | zero => omega
  | succ n ih =>
    rw [zeroBitFrom]
    have hsome : (f.bit k).isSome = true := isSome_bit_of_le (by rw [hclear]; rfl) hk
    obtain ⟨b, hb⟩ := Option.isSome_iff_exists.mp hsome
    rw [hb]
    cases b with
    | false => exact ⟨k, hk, rfl, hb⟩
    | true =>
      have hne : k ≠ i := by
        intro heq
        rw [heq, hclear] at hb
        cases hb
      exact ih (by omega) (by omega)

/-- The scan runs to its end, or stops at a clear bit. -/
theorem clear_of_zeroBitFrom {n k : ℕ} (h : zeroBitFrom f n k = .ok i) :
    i = k + n ∨ f.bit i = some false := by
  induction n generalizing k with
  | zero =>
    cases h
    exact Or.inl rfl
  | succ n ih =>
    rw [zeroBitFrom] at h
    split at h
    · cases h
    · rename_i hclear
      cases h
      exact Or.inr hclear
    · rcases ih h with hend | hclear
      · exact Or.inl (by omega)
      · exact Or.inr hclear

/-! ## The two requests -/

/-- The active fiber after a write of it. -/
theorem activeFiber_of_write (hok : KernelOk s.kernel)
    (hactive : s.activeFiber id pid = some (a, f)) {e : Entry ProcessArg}
    (he : searchProcess s.kernel id = some e)
    (ht : t.kernel.listProcess = (s.kernel.setFiber e a g).listProcess) :
    t.activeFiber id pid = some (a, g) := by
  obtain ⟨e', th, he', hth, hath, hf⟩ := of_activeFiber hactive
  have heq : e' = e := Option.some.inj (he'.symm.trans he)
  subst heq
  obtain ⟨hmem, hid⟩ := of_searchProcess he
  have hrec : t.kernel.record id =
      some { e'.obj with fibers := e'.obj.fibers.modify a fun _ => g } := by
    rw [record_of_eq ht, ← hid]
    exact record_setFiber_self hok.toTables hmem a g
  obtain ⟨x, hx, rfl, _⟩ := mem_of_deref hf
  have hunique := (hok.linked _ _ (record_of_mem hok.toTables hmem)).fibers_unique
  have hread : (e'.obj.fibers.modify x.addr fun _ => g).deref x.addr = some g :=
    deref_of_mem (hunique.modify x.addr fun _ => g) (mem_modify_self hx)
  exact activeFiber_eq hrec hth hath hread

/-- `FLSALLOC` of an active fiber that has a clear bit. -/
theorem flsAlloc_finds (hactive : s.activeFiber id pid = some (a, f))
    (hfind : findFirstZeroBit f = .ok i) (hne : i ≠ maxFls) :
    ∃ e r, searchProcess s.kernel id = some e ∧ s.request id pid .flsAlloc arg env = .ok r ∧
      r.ret = i ∧ r.kernel = s.kernel.setFiber e a { f.setBit i true with
        flsArray := Function.update (f.setBit i true).flsArray i 0 } := by
  obtain ⟨e, th, he, hth, hath, hf⟩ := of_activeFiber hactive
  refine ⟨e, ⟨i, s.kernel.setFiber e a { f.setBit i true with
    flsArray := Function.update (f.setBit i true).flsArray i 0 }, (s.task id pid).toContext,
    none⟩, he, ?_, rfl, rfl⟩
  show flsAlloc s.kernel (s.task id pid) = _
  have he' : searchProcess s.kernel (s.task id pid).tgid = some e := he
  have hth' : searchThread (s.task id pid).pid e.obj = some th := hth
  simp only [flsAlloc, he', hth', hath, derefFiber, hf, hfind, bind, Except.bind, if_neg hne]
  rfl

/-- `FLSFREE` of an active fiber that has the bit. -/
theorem flsFree_clears (hactive : s.activeFiber id pid = some (a, f)) (h0 : 0 < arg.toInt)
    (hmax : arg.toInt < maxFls) (hbit : (f.bit arg.toInt.toNat).isSome = true) :
    ∃ e r, searchProcess s.kernel id = some e ∧ s.request id pid .flsFree arg env = .ok r ∧
      r.ret = 1 ∧ r.kernel = s.kernel.setFiber e a (f.setBit arg.toInt.toNat false) := by
  obtain ⟨e, th, he, hth, hath, hf⟩ := of_activeFiber hactive
  obtain ⟨b, hb⟩ := Option.isSome_iff_exists.mp hbit
  have hneg : ¬ arg.toInt < 0 := by omega
  refine ⟨e, ⟨1, s.kernel.setFiber e a (f.setBit arg.toInt.toNat false),
    (s.task id pid).toContext, none⟩, he, ?_, rfl, rfl⟩
  show flsFree s.kernel (s.task id pid) arg = _
  have he' : searchProcess s.kernel (s.task id pid).tgid = some e := he
  have hth' : searchThread (s.task id pid).pid e.obj = some th := hth
  simp only [flsFree, he', hth', if_pos (And.intro h0 hmax), hath, derefFiber, hf, clearBit,
    testBit, if_neg hneg, hb, bind, Except.bind]
  rfl

/-- `FLSFREE` outside the range that it checks, or without a converted thread. -/
theorem flsFree_refuses
    (h : ¬ (0 < arg.toInt ∧ arg.toInt < maxFls) ∨ ¬ s.Converted id pid) :
    ∃ r, s.request id pid .flsFree arg env = .ok r ∧ r.ret = 0 ∧ r.kernel = s.kernel := by
  refine ⟨⟨0, s.kernel, (s.task id pid).toContext, none⟩, ?_, rfl, rfl⟩
  show flsFree s.kernel (s.task id pid) arg = _
  unfold flsFree
  split
  · rfl
  · rename_i e he
    split
    · rfl
    · rename_i th hth
      have hconverted : s.Converted id pid := by
        have he : searchProcess s.kernel id = some e := he
        have hth : searchThread pid e.obj = some th := hth
        exact ⟨e.obj, record_of_searchProcess he, by rw [hth]; rfl⟩
      rw [if_neg (h.resolve_right fun hnot => hnot hconverted)]
      rfl

/-! ## The library calls -/

variable {lib : Library}

theorem flsAlloc_of_request (hready : lib.ready = true)
    (hr : s.request id pid .flsAlloc 0 env = .ok r) (hret : r.ret = i) (hi : i < maxFls) :
    lib.flsAlloc s id pid env = .ok (BitVec.ofNat 64 i, s.resume id pid r) := by
  have hi' : i < 4096 := hi
  have hno : ¬ IsErrno (i : ℤ) := by
    intro herr
    have := herr.2
    omega
  simp only [Library.flsAlloc, Library.ioctl, hready, if_true, hr, hret, bind, Except.bind, pure,
    Except.pure]
  rw [signExtend_callInt hno (by omega) (by omega), BitVec.ofInt_natCast]

/-- The library takes both values of the module for a success. -/
theorem flsFree_of_request {index : Word} (hready : lib.ready = true)
    (hr : s.request id pid .flsFree index env = .ok r) (hret : r.ret = 0 ∨ r.ret = 1) :
    lib.flsFree s id pid index env = .ok (true, s.resume id pid r) := by
  have hne : callInt r.ret ≠ -1 := callInt_ne_neg_one (by omega) (by omega)
  simp only [Library.flsFree, Library.ioctl, hready, if_true, hr, bind, Except.bind, pure,
    Except.pure, if_neg hne]

theorem flsFree_of_not_ready {index : Word} (hready : lib.ready = false) :
    lib.flsFree s id pid index env = .ok (false, s) := by
  simp only [Library.flsFree, Library.ioctl, hready, Bool.false_eq_true, if_false, bind,
    Except.bind, pure, Except.pure]
  rfl

theorem toInt_ofNat_of_lt (hi : i < maxFls) : (BitVec.ofNat 64 i).toInt = i := by
  have hi' : i < 4096 := hi
  have hnat : (BitVec.ofNat 64 i).toNat = i := by
    rw [BitVec.toNat_ofNat]
    exact Nat.mod_eq_of_lt (by omega)
  rw [BitVec.toInt_eq_toNat_of_lt (by omega), hnat]

/-- One round of a fiber that has a clear bit other than 0 obtains a slot up to
there, and leaves the bit clear. -/
theorem flsAlloc_flsFree (env : Env) (hready : lib.ready = true) (hok : KernelOk s.kernel)
    (hactive : s.activeFiber id pid = some (a, f)) (hclear : f.bit i = some false) (h0 : 0 < i)
    (hmax : i < maxFls) :
    ∃ z t u g, lib.flsAlloc s id pid env = .ok (BitVec.ofNat 64 z, t) ∧ z ≤ i ∧
      lib.flsFree t id pid (BitVec.ofNat 64 z) env = .ok (true, u) ∧ KernelOk u.kernel ∧
      u.activeFiber id pid = some (a, g) ∧ g.bit i = some false := by
  obtain ⟨z, hz, hfind, hzclear⟩ :=
    zeroBitFrom_finds hclear (Nat.zero_le i) (n := maxFls) (by omega)
  have hzmax : z < maxFls := by omega
  obtain ⟨e, r, he, hr, hret, hkernel⟩ :=
    @flsAlloc_finds s id pid 0 env f a z hactive hfind (by omega)
  have hcall := flsAlloc_of_request hready hr hret hzmax
  have hokt : KernelOk (s.resume id pid r).kernel := kernelOk_request hok hr
  -- the fiber in which `z` is taken
  have hbit : ∀ j, ({ f.setBit z true with
      flsArray := Function.update (f.setBit z true).flsArray z 0 } : FiberArg).bit j =
        if j = z then some true else f.bit j :=
    bit_setBit (by rw [hzclear]; rfl) true
  have htaken := @activeFiber_of_write s (s.resume id pid r) id pid f _ a hok hactive e he
    (congrArg Kernel.listProcess hkernel)
  generalize ({ f.setBit z true with
    flsArray := Function.update (f.setBit z true).flsArray z 0 } : FiberArg) = g at hbit htaken
  have hint := toInt_ofNat_of_lt hzmax
  by_cases hz0 : 0 < z
  · have hsome : (g.bit (BitVec.ofNat 64 z).toInt.toNat).isSome = true := by
      rw [hint, Int.toNat_natCast, hbit, if_pos rfl]
      rfl
    obtain ⟨e', r', he', hr', hret', hkernel'⟩ :=
      @flsFree_clears (s.resume id pid r) id pid (BitVec.ofNat 64 z) env g a htaken
        (by omega) (by omega) hsome
    have hfreed := @activeFiber_of_write _ ((s.resume id pid r).resume id pid r') id pid g _ a hokt
      htaken e' he' (congrArg Kernel.listProcess hkernel')
    refine ⟨z, _, _, _, hcall, hz, flsFree_of_request hready hr' (Or.inr hret'),
      kernelOk_request hokt hr', hfreed, ?_⟩
    rw [hint, Int.toNat_natCast] at hsome ⊢
    rw [bit_setBit hsome false i, hbit]
    split
    · rfl
    · exact hclear
  · -- the slot 0 is not freed
    obtain ⟨r', hr', hret', hkernel'⟩ :=
      @flsFree_refuses (s.resume id pid r) id pid (BitVec.ofNat 64 z) env (Or.inl (by omega))
    have hokt' : KernelOk r'.kernel := by rwa [hkernel']
    have hsame : ((s.resume id pid r).resume id pid r').activeFiber id pid = some (a, g) := by
      rw [← htaken]
      show (Option.bind (r'.kernel.record id) _) = _
      rw [hkernel']
      rfl
    refine ⟨z, _, _, g, hcall, hz, flsFree_of_request hready hr' (Or.inl hret'), hokt', hsame, ?_⟩
    rw [hbit, if_neg (by omega), hclear]

/-- A clear bit other than 0 keeps the rounds going. -/
theorem cycles_return (env : Env) (hready : lib.ready = true) (h0 : 0 < i) (hmax : i < maxFls)
    (n : ℕ) (hok : KernelOk s.kernel) (hactive : s.activeFiber id pid = some (a, f))
    (hclear : f.bit i = some false) :
    ∃ js u, lib.cycles id pid env n s = .ok (js, u) ∧ js.length = n ∧
      ∀ j ∈ js, 0 ≤ j.toInt ∧ j.toInt ≤ i := by
  induction n generalizing s f with
  | zero => exact ⟨[], s, rfl, rfl, fun j hj => by cases hj⟩
  | succ n ih =>
    obtain ⟨z, t, u, g, halloc, hz, hfree, hoku, hactiveu, hclearu⟩ :=
      flsAlloc_flsFree env hready hok hactive hclear h0 hmax
    obtain ⟨js, v, hrest, hlen, hjs⟩ := ih hoku hactiveu hclearu
    refine ⟨BitVec.ofNat 64 z :: js, v, ?_, by rw [List.length_cons, hlen], fun j hj => ?_⟩
    · simp only [Library.cycles, halloc, hfree, hrest, bind, Except.bind, pure, Except.pure]
    · rcases List.mem_cons.mp hj with heq | hj
      · have hint := toInt_ofNat_of_lt (Nat.lt_of_le_of_lt hz hmax)
        rw [heq]
        omega
      · exact hjs j hj

/-! ## Which slots are freed -/

/-- A slot that is held has a bit in every fiber. -/
theorem isSome_bit_of_holds {context : Pid × Pid → Context} {tgid : Pid}
    (h : Run (Recorded Step) (System.init context) tr s) (hheld : Holds tr tgid a i)
    (f : FiberArg) : (f.bit i).isSome = true := by
  refine @of_holds _ _ Step (fun i => (f.bit i).isSome = true) _ (fun _ _ _ hm => hm) ?_ h _ _ _
    hheld
  intro s id pid arg env t r i hok _ hr hret
  obtain ⟨_, g, _, hfind, hne⟩ := of_flsAlloc hok hr hret
  have hclear := (clear_of_zeroBitFrom hfind).resolve_left (by omega)
  exact isSome_bit_of_le (by rw [hclear]; rfl) (Nat.le_refl i)

theorem toNat_of_inRange {index : Word} (h0 : 0 ≤ index.toInt) :
    index.toInt.toNat = index.toNat := by
  rw [BitVec.toInt_eq_toNat_cond] at h0 ⊢
  have := index.isLt
  split at h0 <;> split <;> omega

/-- `FlsFree` of a live slot other than 0. -/
theorem freed_of_live {context : Pid × Pid → Context} {index : Word} (env : Env)
    (h : Run (Recorded Step) (System.init context) tr s) (hready : lib.ready = true)
    (h0 : index.toInt ≠ 0) (hactive : s.activeFiber id pid = some (a, f))
    (hlive : LiveIndex tr s id pid index) :
    ∃ e g t, lib.flsFree s id pid index env = .ok (true, t) ∧
      searchProcess s.kernel id = some e ∧
      t.kernel.listProcess = (s.kernel.setFiber e a g).listProcess ∧
      g.flsArray = f.flsArray ∧
      (∀ j, g.bit j = if j = index.toNat then some false else f.bit j) ∧
      ∀ n, ∃ js u, lib.cycles id pid env n t = .ok (js, u) ∧ js.length = n ∧
        ∀ j ∈ js, 0 ≤ j.toInt ∧ j.toInt ≤ index.toInt := by
  obtain ⟨hok, _⟩ := keptWord_run h
  obtain ⟨b, x, _, hle, hmax, hheld⟩ := hlive
  have hnat := toNat_of_inRange hle
  have hbit : (f.bit index.toInt.toNat).isSome = true := by
    rw [hnat]
    exact isSome_bit_of_holds h hheld f
  obtain ⟨e, r, he, hr, hret, hkernel⟩ :=
    @flsFree_clears s id pid index env f a hactive (by omega) hmax hbit
  have hokt : KernelOk (s.resume id pid r).kernel := kernelOk_request hok hr
  have hfreed := @activeFiber_of_write s (s.resume id pid r) id pid f _ a hok hactive e he
    (congrArg Kernel.listProcess hkernel)
  refine ⟨e, _, _, flsFree_of_request hready hr (Or.inr hret), he,
    congrArg Kernel.listProcess hkernel, setBit_flsArray f _ false, fun j => ?_, fun n => ?_⟩
  · rw [bit_setBit hbit, hnat]
  · have hclear : (f.setBit index.toInt.toNat false).bit index.toInt.toNat = some false := by
      rw [bit_setBit hbit, if_pos rfl]
    obtain ⟨js, u, hcycles, hlen, hjs⟩ :=
      cycles_return env hready (by omega) (by omega) n hokt hfreed hclear
    refine ⟨js, u, hcycles, hlen, fun j hj => ?_⟩
    have hj := hjs j hj
    omega

/-- The condition under which `FlsFree` does what it owes.  When the device cannot
be opened, `FlsFree` fails. -/
def Freeable (lib : Library) (tr : List (System × Action)) (s : System) (id pid : Pid)
    (index : Word) : Prop :=
  if lib.ready then
    s.Converted id pid ∧ 0 ≤ index.toInt ∧ index.toInt < maxFls ∧
      (index.toInt = 0 → ¬ LiveIndex tr s id pid index)
  else ¬ LiveIndex tr s id pid index

/-- In every reachable state, `FlsFree` does what it owes exactly for the indices
in the range of a converted thread, and among these not for the slot 0 when it
is held. -/
theorem freesSlot_iff {context : Pid × Pid → Context}
    (h : Run (Recorded Step) (System.init context) tr s) (lib : Library) (id pid : Pid)
    (index : Word) (env : Env) :
    FreesSlot lib tr s id pid index env ↔ Freeable lib tr s id pid index := by
  obtain ⟨hok, _⟩ := keptWord_run h
  unfold Freeable
  cases hready : lib.ready with
  | false =>
    rw [if_neg Bool.false_ne_true]
    have hcall := @flsFree_of_not_ready s id pid env lib index hready
    constructor
    · intro hc hlive
      have hheld := hlive
      obtain ⟨a, f, hactive, _⟩ := hheld
      obtain ⟨_, _, _, hfree, _⟩ := hc.freed a f hactive hlive
      rw [hcall] at hfree
      cases hfree
    · intro hnot
      exact ⟨fun a f hactive hlive => absurd hlive hnot, fun _ => ⟨s, hcall, rfl⟩⟩
  | true =>
    rw [if_pos rfl]
    constructor
    · intro hc
      -- a call that the module refuses is a success for the library
      have haccept : ¬ (¬ (0 ≤ index.toInt ∧ index.toInt < maxFls) ∨ ¬ s.Converted id pid) := by
        intro hrej
        obtain ⟨t, hfree, _⟩ := hc.rejected hrej
        obtain ⟨r, hr, hret, _⟩ := @flsFree_refuses s id pid index env
          (hrej.imp_left fun hnot hin => hnot ⟨by omega, hin.2⟩)
        rw [flsFree_of_request hready hr (Or.inl hret)] at hfree
        cases hfree
      rw [not_or, not_not, not_not] at haccept
      refine ⟨haccept.2, haccept.1.1, haccept.1.2, fun hzero hlive => ?_⟩
      have hslot := hlive
      obtain ⟨a, f, hactive, _, _, hheld⟩ := hslot
      obtain ⟨e, g, t, hfree, he, hwrite, _, hbits, _⟩ := hc.freed a f hactive hlive
      obtain ⟨r, hr, hret, hkernel⟩ := @flsFree_refuses s id pid index env (Or.inl (by omega))
      rw [flsFree_of_request hready hr (Or.inl hret)] at hfree
      cases hfree
      -- nothing was written, so the bit is still set
      have hnew := @activeFiber_of_write s (s.resume id pid r) id pid f g a hok hactive e he hwrite
      have hold : (s.resume id pid r).activeFiber id pid = some (a, f) := by
        rw [← hactive]
        show (Option.bind (r.kernel.record id) _) = _
        rw [hkernel]
        rfl
      rw [hnew, Option.some.injEq, Prod.mk.injEq] at hold
      have hnat : index.toNat = 0 := by
        rw [← toNat_of_inRange haccept.1.1, hzero]
        rfl
      rw [hnat] at hheld hbits
      have hset := (holds_iff_bit h hactive (by omega)).mp hheld
      have hclear := hbits 0
      rw [if_pos rfl, hold.2, bit_of_lt f (by omega), hset] at hclear
      cases hclear
    · rintro ⟨hconverted, hle, hmax, hzero⟩
      constructor
      · intro a f hactive hlive
        exact freed_of_live env h hready (fun h0 => hzero h0 hlive) hactive hlive
      · intro hrej
        rcases hrej with hout | hnot
        · exact absurd ⟨hle, hmax⟩ hout
        · exact absurd hconverted hnot

/-- `freesSlot_iff` for the second slot of a fiber that holds two. -/
theorem freesSlot_second : ∃ (tr : List (System × Action)) (s : System),
    Run (Recorded Step) (System.init zeroContext) tr s ∧ Holds tr 7 0 1 ∧
    FreesSlot ⟨false, true⟩ tr s 7 7 1 Env.plain := by
  obtain ⟨tr, s, hrun, hp⟩ := exists_history_of (fun _ _ => true) (System.init zeroContext)
    [.ioctl 7 7 .convertToFiber 0 Env.plain, .ioctl 7 7 .flsAlloc 0 Env.plain,
      .ioctl 7 7 .flsAlloc 0 Env.plain]
    (fun tr s =>
      decide (latest (fun m => (slotEvent 7 0 1 m).bind SlotEvent.holds) tr = some true) &&
      ((s.kernel.record 7).bind (searchThread 7)).isSome) (by decide +kernel)
  simp only [Bool.and_eq_true, decide_eq_true_eq] at hp
  obtain ⟨th, hth⟩ := Option.isSome_iff_exists.mp hp.2
  obtain ⟨p, hrec, hsome⟩ := Option.bind_eq_some_iff.mp hth
  have hstep : Run (Recorded Step) (System.init zeroContext) tr s :=
    hrun.mono fun _ _ _ h => ⟨h.1, h.2.2⟩
  have hconverted : s.Converted 7 7 := ⟨p, hrec, by rw [hsome]; rfl⟩
  refine ⟨tr, s, hstep, hp.1, (freesSlot_iff hstep _ 7 7 1 _).mpr ?_⟩
  show _ ∧ _
  exact ⟨hconverted, by decide, by decide, fun hzero => absurd hzero (by decide)⟩

/-- A fiber frees its slot 0 and an index out of the range.  `FlsFree` says yes
to both, and the slot 0 stays taken. -/
theorem slot_zero_stays : ∃ (tr : List (System × Action)) (s t u : System),
    Run (Recorded Step) (System.init zeroContext) tr s ∧ LiveIndex tr s 7 7 0 ∧
    Library.flsFree ⟨true, true⟩ s 7 7 0 Env.plain = .ok (true, t) ∧
    ¬ FreesSlot ⟨true, true⟩ tr s 7 7 0 Env.plain ∧
    Library.flsFree ⟨true, true⟩ s 7 7 4096 Env.plain = .ok (true, u) ∧
    ¬ FreesSlot ⟨true, true⟩ tr s 7 7 4096 Env.plain := by
  obtain ⟨tr, s, hrun, hp⟩ := exists_history_of (fun _ _ => true) (System.init zeroContext)
    [.ioctl 7 7 .convertToFiber 0 Env.plain, .ioctl 7 7 .flsAlloc 0 Env.plain]
    (fun tr s =>
      decide (latest (fun m => (slotEvent 7 0 0 m).bind SlotEvent.holds) tr = some true) &&
      decide ((s.activeFiber 7 7).map Prod.fst = some 0) &&
      ((Library.flsFree ⟨true, true⟩ s 7 7 0 Env.plain).toOption.any fun bt =>
        bt.1 && (bt.2.activeFiber 7 7).any fun af => af.2.bit 0 == some true) &&
      (Library.flsFree ⟨true, true⟩ s 7 7 4096 Env.plain).toOption.any Prod.fst)
    (by decide +kernel)
  simp only [Bool.and_eq_true, decide_eq_true_eq] at hp
  obtain ⟨⟨⟨hheld, hactive⟩, hzero⟩, hout⟩ := hp
  have hstep : Run (Recorded Step) (System.init zeroContext) tr s :=
    hrun.mono fun _ _ _ h => ⟨h.1, h.2.2⟩
  obtain ⟨⟨a, f⟩, hactive, rfl⟩ := Option.map_eq_some_iff.mp hactive
  have hlive : LiveIndex tr s 7 7 0 := ⟨0, f, hactive, by decide, by decide, hheld⟩
  obtain ⟨⟨b, t⟩, hfree, hzero⟩ := of_toOption_any hzero
  obtain ⟨hb, hbit⟩ := Bool.and_eq_true_iff.mp hzero
  rw [show b = true from hb] at hfree
  obtain ⟨⟨b', u⟩, hfree', hb'⟩ := of_toOption_any hout
  rw [show b' = true from hb'] at hfree'
  refine ⟨tr, s, t, u, hstep, hlive, hfree, fun hc => ?_, hfree', fun hc => ?_⟩
  · obtain ⟨e, g, t', hcall, he, hwrite, _, hbits, _⟩ := hc.freed _ f hactive hlive
    rw [hfree, Except.ok.injEq, Prod.mk.injEq] at hcall
    have hnew := activeFiber_of_write (keptWord_run hstep).1 hactive he (hcall.2 ▸ hwrite)
    rw [hnew, Option.any_some, hbits 0] at hbit
    cases hbit
  · obtain ⟨t', hcall, _⟩ := hc.rejected (Or.inl (by decide))
    rw [hfree'] at hcall
    cases hcall

end LinuxFibers.Module
