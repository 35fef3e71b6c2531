import LinuxFibers.Single.Library

/-!
# The allocation of fiber local storage in the single-threaded module

`fls_bitmap` has one word, and the bits from 64 to `MAX_FLS` are the first 63
words of `fls_array`.  No check keeps the indices and the values apart, and new
memory is not cleared.

`keepsBits` says that a step writes no value over these bits and makes no fiber
out of memory in which one of them is set.  In the runs of such steps the bits of
a fiber are its history (`Exact`), and `allocates_iff` says when the law of
allocation holds: some index is not taken, and the index that is read is one
that `FLSALLOC` can give, or its bit is clear.  `unallocated_read` is a run in
which the old contents of the memory are read at an index that was never given.
-/

namespace LinuxFibers.Single

open LinuxFibers.Lib HashTable LinuxFibers.Module

variable {s t : System} {tr : List (System × Action)} {id pid : Pid} {cmd : Command}
  {arg index : Word} {env : Env} {r : Reply} {f g : FiberArg} {a i j : ℕ}

/-! ## Bits -/

theorem getLsbD_putBit_self (w : Word) (i : ℕ) (hi : i < 64) (b : Bool) :
    (putBit w i b).getLsbD i = b := by
  cases b <;> simp [putBit, hi]

theorem getLsbD_putBit_ne (w : Word) (i : ℕ) {j : ℕ} (hj : j < 64) (hne : j ≠ i) (b : Bool) :
    (putBit w i b).getLsbD j = w.getLsbD j := by
  cases b <;> simp [putBit, hj, hne]

/-- A write of bit `i`, read back. -/
theorem bit_setBit_self (f : FiberArg) (h : (f.bit i).isSome = true) (b : Bool) :
    (f.setBit i b).bit i = some b := by
  unfold FiberArg.bit at h
  unfold FiberArg.setBit FiberArg.bit
  by_cases hi : i < 64
  · simp only [if_pos hi, getLsbD_putBit_self _ i hi]
  · have hmod : i % 64 < 64 := Nat.mod_lt i (by omega)
    have hslot : slotOfBit i < maxFls := by
      by_contra hout
      rw [if_neg hi, if_neg hout] at h
      cases h
    simp only [if_neg hi, if_pos hslot, Function.update_self, getLsbD_putBit_self _ _ hmod]

/-- A write of bit `i`, seen at another bit. -/
theorem bit_setBit_ne (f : FiberArg) (hne : j ≠ i) (b : Bool) :
    (f.setBit i b).bit j = f.bit j := by
  unfold FiberArg.setBit FiberArg.bit
  by_cases hi : i < 64
  · simp only [if_pos hi]
    split
    · rename_i hj
      rw [getLsbD_putBit_ne _ i hj hne]
    · rfl
  · simp only [if_neg hi]
    split
    · rfl
    · rename_i hj
      by_cases hslot : slotOfBit j = slotOfBit i
      · have hmod : j % 64 ≠ i % 64 := by
          unfold slotOfBit at hslot
          omega
        rw [hslot, Function.update_self, getLsbD_putBit_ne _ _ (Nat.mod_lt j (by omega)) hmod]
      · rw [Function.update_of_ne hslot]

/-- The scan stops at the first clear bit, or behind the last bit. -/
theorem zeroBitFrom_ok {n z : ℕ} (h : zeroBitFrom f n i = .ok z) :
    i ≤ z ∧ (∀ j, i ≤ j → j < z → f.bit j = some true) ∧
      (z = i + n ∨ z < i + n ∧ f.bit z = some false) := by
  induction n generalizing i with
  | zero =>
    cases h
    exact ⟨Nat.le_refl _, fun j hj hlt => by omega, Or.inl rfl⟩
  | succ n ih =>
    rw [zeroBitFrom] at h
    split at h
    · cases h
    · rename_i hbit
      cases h
      exact ⟨Nat.le_refl _, fun j hj hlt => by omega, Or.inr ⟨by omega, hbit⟩⟩
    · rename_i hbit
      obtain ⟨hle, hset, hend⟩ := ih h
      refine ⟨by omega, fun j hj hlt => ?_, ?_⟩
      · by_cases heq : j = i
        · rw [heq, hbit]
        · exact hset j (by omega) hlt
      · rcases hend with hz | ⟨hz, hclear⟩
        · exact Or.inl (by omega)
        · exact Or.inr ⟨by omega, hclear⟩

theorem zeroBitFrom_isOk {n : ℕ} (h : i + n ≤ maxFls) : ∃ z, zeroBitFrom f n i = .ok z := by
  induction n generalizing i with
  | zero => exact ⟨i, rfl⟩
  | succ n ih =>
    have hsome := bit_isSome f (show i < maxFls by omega)
    rw [zeroBitFrom]
    split
    · rename_i hnone
      rw [hnone] at hsome
      cases hsome
    · exact ⟨i, rfl⟩
    · exact ih (by omega)

/-- `FLSALLOC` finds an index, which is `MAX_FLS` when all bits are set. -/
theorem exists_findFirstZeroBit (f : FiberArg) : ∃ z, findFirstZeroBit f = .ok z ∧
    (z = maxFls ∧ (∀ j < maxFls, f.bit j = some true) ∨ z < maxFls ∧ f.bit z = some false) := by
  obtain ⟨z, hz⟩ := @zeroBitFrom_isOk f 0 maxFls (by omega)
  obtain ⟨_, hset, hend⟩ := zeroBitFrom_ok hz
  refine ⟨z, hz, ?_⟩
  rcases hend with heq | ⟨hlt, hclear⟩
  · exact Or.inl ⟨by omega, fun j hj => hset j (Nat.zero_le j) (by omega)⟩
  · exact Or.inr ⟨by omega, hclear⟩

/-! ## The history of an index -/

/-- Whether the index `i` is held by the fiber after its request. -/
def slotCall (cmd : Command) (arg : Word) (ret : ℤ) (i : ℕ) : Option Bool :=
  match cmd with
  | .flsAlloc => if ret = i then some true else none
  | .flsFree => if ret = 1 ∧ arg.toInt = i then some false else none
  | _ => none

/-- What a step does to the index `i` of the fiber at `a`. -/
def slotEvent (tgid : Pid) (a i : ℕ) : System × Action → Option Bool
  | (s, .ioctl id pid cmd arg env) =>
      match s.request id pid cmd arg env with
      | .ok r =>
          if id = tgid ∧ (s.activeFiber id pid).map Prod.fst = some a then
            slotCall cmd arg r.ret i
          else none
      | .error _ => none
  | _ => none

/-- The fiber at `a` was given the index `i` and has not freed it since. -/
def Holds (tr : List (System × Action)) (tgid : Pid) (a i : ℕ) : Prop :=
  latest (slotEvent tgid a i) tr = some true

theorem holds_snoc_of_none {m : System × Action} {tgid : Pid}
    (h : slotEvent tgid a i m = none) : Holds (tr ++ [m]) tgid a i ↔ Holds tr tgid a i := by
  rw [Holds, latest_snoc_of_none h, Holds]

theorem holds_snoc_of_some {m : System × Action} {tgid : Pid} {b : Bool}
    (h : slotEvent tgid a i m = some b) : Holds (tr ++ [m]) tgid a i ↔ b = true := by
  rw [Holds, latest_snoc_of_some h, Option.some.injEq]

theorem slotEvent_request (hr : s.request id pid cmd arg env = .ok r) (tgid : Pid) (a i : ℕ) :
    slotEvent tgid a i (s, .ioctl id pid cmd arg env) =
      if id = tgid ∧ (s.activeFiber id pid).map Prod.fst = some a then
        slotCall cmd arg r.ret i else none := by
  simp only [slotEvent, hr]

/-- A request does nothing to the indices of a fiber that does not make it. -/
theorem slotEvent_of_ne {tgid : Pid} (hr : s.request id pid cmd arg env = .ok r)
    (h : ∀ f, id = tgid → s.activeFiber id pid ≠ some (a, f)) (i : ℕ) :
    slotEvent tgid a i (s, .ioctl id pid cmd arg env) = none := by
  rw [slotEvent_request hr]
  apply if_neg
  rintro ⟨heq, hmap⟩
  obtain ⟨⟨b, f⟩, hf, hb⟩ := Option.map_eq_some_iff.mp hmap
  cases hb
  exact h f heq hf

theorem slotEvent_of_call {tgid : Pid} (hr : s.request id pid cmd arg env = .ok r)
    (hcall : slotCall cmd arg r.ret i = none) :
    slotEvent tgid a i (s, .ioctl id pid cmd arg env) = none := by
  rw [slotEvent_request hr, hcall, ite_self]

theorem slotCall_of_idle (h : Idle cmd r.ret) : slotCall cmd arg r.ret i = none := by
  cases cmd with
  | flsAlloc =>
    have hneg := h.1 rfl
    exact if_neg (by omega)
  | flsFree =>
    have hzero := h.2 rfl
    exact if_neg fun hret => by omega
  | _ => rfl

/-! ## Steps that keep the bits -/

/-- The slots of `fls_array` that hold the bits of indices. -/
def sharedSlots : ℕ := slotOfBit maxFls

/-- No bit of an index is set. -/
def clearBits (f : FiberArg) : Bool :=
  f.flsBitmap == 0 && (List.range sharedSlots).all fun slot => f.flsArray slot == 0

/-- A new fiber is made of memory with clear bits, and `FLSALLOC` and `FLSSETVALUE`
change no slot that holds bits of indices. -/
def keepsBits (s : System) : Action → Bool
  | .ioctl id pid cmd _ env =>
      match cmd, s.activeFiber id pid with
      | .convertToFiber, none => clearBits env.oldFiber
      | .createFiber, some _ => clearBits env.oldFiber
      | .flsAlloc, some (_, f) =>
          match findFirstZeroBit f with
          | .ok i => decide (i < sharedSlots → f.flsArray i = 0)
          | .error _ => true
      | .flsSetValue, some (_, f) =>
          let index := env.flsArg.dwFlsIndex
          match testBit f index.toInt with
          | .ok true =>
              decide (index.toNat < sharedSlots →
                f.flsArray index.toNat = env.flsArg.lpFlsData)
          | _ => true
      | _, _ => true
  | _ => true

/-- The steps that keep the bits. -/
def AllocStep (s : System) (a : Action) (t : System) : Prop := keepsBits s a = true ∧ Step s a t

theorem bit_of_clearBits (h : clearBits f = true) (hj : j < maxFls) : f.bit j = some false := by
  obtain ⟨hword, hslots⟩ := Bool.and_eq_true_iff.mp h
  have hzero : ∀ n, BitVec.getLsbD (0 : Word) n = false := fun _ => BitVec.getLsbD_zero
  have hlt : slotOfBit j < maxFls := by
    unfold slotOfBit maxFls at *
    omega
  unfold FiberArg.bit
  by_cases h64 : j < 64
  · rw [if_pos h64, eq_of_beq hword, hzero]
  · have hslot : slotOfBit j ∈ List.range sharedSlots := by
      rw [List.mem_range]
      unfold sharedSlots slotOfBit maxFls at *
      omega
    rw [if_neg h64, if_pos hlt, eq_of_beq (List.all_eq_true.mp hslots _ hslot), hzero]

/-- A write of a slot that keeps the bits of indices. -/
theorem bit_of_write {v : Word} (h : i < sharedSlots → f.flsArray i = v) (hj : j < maxFls) :
    ({ f with flsArray := Function.update f.flsArray i v } : FiberArg).bit j = f.bit j := by
  by_cases hi : i < sharedSlots
  · rw [← h hi, Function.update_eq_self]
  · apply bit_update
    unfold sharedSlots slotOfBit maxFls at *
    omega

theorem of_testBit {index : ℤ} {b : Bool} (h : testBit f index = .ok b) :
    0 ≤ index ∧ f.bit index.toNat = some b := by
  unfold testBit at h
  split at h
  · cases h
  · split at h
    · cases h
    · rename_i hbit
      cases h
      exact ⟨by omega, hbit⟩

theorem of_setSlot {v : Word} (h : setSlot f i v = .ok g) :
    i < maxFls ∧ g = { f with flsArray := Function.update f.flsArray i v } := by
  unfold setSlot at h
  split at h
  · rename_i hlt
    cases h
    exact ⟨hlt, rfl⟩
  · cases h

/-- `FLSALLOC` in a step that keeps the bits. -/
theorem bit_alloc (hfind : findFirstZeroBit f = .ok i) {f' : FiberArg}
    (hchange : changeBit f i = .ok f') (hset : setSlot f' i 0 = .ok g)
    (hkeep : i < sharedSlots → f.flsArray i = 0) :
    i < maxFls ∧ ∀ j < maxFls, g.bit j = if j = i then some true else f.bit j := by
  obtain ⟨b, htest, hf'⟩ := of_bind hchange
  cases hf'
  obtain ⟨_, hbit⟩ := of_testBit htest
  rw [Int.toNat_natCast] at hbit
  obtain ⟨hlt, hg⟩ := of_setSlot hset
  obtain ⟨z, hz, hcases⟩ := exists_findFirstZeroBit f
  have heq : z = i := Except.ok.inj (hz.symm.trans hfind)
  rw [heq] at hcases
  have hclear : f.bit i = some false := by
    rcases hcases with ⟨hout, _⟩ | ⟨_, hclear⟩
    · omega
    · exact hclear
  have hb : b = false := Option.some.inj (hbit.symm.trans hclear)
  have hslot : i < sharedSlots → (f.setBit i !b).flsArray i = 0 := by
    intro hi
    have hne : 64 ≤ i → i ≠ slotOfBit i := by
      unfold slotOfBit
      omega
    rw [← hkeep hi]
    unfold FiberArg.setBit
    split
    · rfl
    · exact Function.update_of_ne (hne (by omega)) _ _
  refine ⟨hlt, fun j hj => ?_⟩
  rw [hg, bit_of_write hslot hj, hb]
  split
  · rename_i hji
    rw [hji]
    exact bit_setBit_self f (by rw [hclear]; rfl) _
  · rename_i hji
    exact bit_setBit_ne f hji _

theorem bit_free {index : ℤ} (h : clearBit f index = .ok g) :
    ∀ j : ℕ, g.bit j = if index = j then some false else f.bit j := by
  obtain ⟨b, htest, hg⟩ := of_bind h
  cases hg
  obtain ⟨h0, hbit⟩ := of_testBit htest
  intro j
  split
  · rename_i hji
    have heq : index.toNat = j := by omega
    rw [heq] at hbit ⊢
    exact bit_setBit_self f (by rw [hbit]; rfl) _
  · rename_i hji
    exact bit_setBit_ne f (by omega) _

/-- The bit and the history of an index after a write of the fiber. -/
theorem holds_write {m : System × Action} {tgid : Pid} {ret : ℤ}
    (hw : FlsWrite f arg env cmd ret g) (hs : s.activeFiber id pid = some (a, f))
    (hkeep : keepsBits s (.ioctl id pid cmd arg env) = true)
    (hm : ∀ j, slotEvent tgid a j m = slotCall cmd arg ret j)
    (hold : ∀ j < maxFls, f.bit j = some true ↔ Holds tr tgid a j) :
    ∀ j < maxFls, g.bit j = some true ↔ Holds (tr ++ [m]) tgid a j := by
  intro j hj
  cases hw with
  | @alloc i f' _ hfind hchange hset =>
    simp only [keepsBits, hs, hfind, decide_eq_true_eq] at hkeep
    obtain ⟨_, hbits⟩ := bit_alloc hfind hchange hset hkeep
    rw [hbits j hj]
    by_cases hji : j = i
    · rw [if_pos hji, holds_snoc_of_some (b := true) ((hm j).trans (if_pos (by omega)))]
      simp
    · rw [if_neg hji, holds_snoc_of_none ((hm j).trans (if_neg (by omega)))]
      exact hold j hj
  | free hclear =>
    rw [bit_free hclear j]
    by_cases hji : arg.toInt = j
    · rw [if_pos hji, holds_snoc_of_some (b := false) ((hm j).trans (if_pos ⟨rfl, hji⟩))]
      simp
    · rw [if_neg hji, holds_snoc_of_none ((hm j).trans (if_neg fun h => hji h.2))]
      exact hold j hj
  | set htest hset =>
    simp only [keepsBits, hs, htest, decide_eq_true_eq] at hkeep
    obtain ⟨_, hg⟩ := of_setSlot hset
    rw [hg, bit_of_write hkeep hj, holds_snoc_of_none (hm j)]
    exact hold j hj

/-! ## The bits are the history -/

/-- The bits of a fiber are the indices that it holds.  Nothing is held by a fiber
that does not exist yet. -/
structure Exact (tr : List (System × Action)) (s : System) : Prop where
  fresh : ∀ tgid a i, s.kernel.brk ≤ a → ¬ Holds tr tgid a i
  bit : ∀ tgid p, s.kernel.record tgid = some p → ∀ e ∈ p.fibers, ∀ j < maxFls,
    e.obj.bit j = some true ↔ Holds tr tgid e.addr j

/-- A fiber whose bits a step leaves alone. -/
theorem Exact.keep (hx : Exact tr s) {tgid : Pid} {p : ProcessArg} {m : System × Action}
    (hp : s.kernel.record tgid = some p) {e e' : Entry FiberArg} (he : e ∈ p.fibers)
    (haddr : e'.addr = e.addr) (hbit : ∀ j, e'.obj.bit j = e.obj.bit j)
    (hm : ∀ j, slotEvent tgid e.addr j m = none) :
    ∀ j < maxFls, e'.obj.bit j = some true ↔ Holds (tr ++ [m]) tgid e'.addr j := by
  intro j hj
  rw [haddr, hbit, holds_snoc_of_none (hm j)]
  exact hx.bit tgid p hp e he j hj

/-- A fiber that a step makes of clear memory. -/
theorem Exact.new (hx : Exact tr s) {tgid : Pid} {m : System × Action} {e' : Entry FiberArg}
    (hnew : s.kernel.brk ≤ e'.addr) (hclear : ∀ j < maxFls, e'.obj.bit j = some false)
    (hm : ∀ j, slotEvent tgid e'.addr j m = none) :
    ∀ j < maxFls, e'.obj.bit j = some true ↔ Holds (tr ++ [m]) tgid e'.addr j := by
  intro j hj
  rw [hclear j hj, holds_snoc_of_none (hm j)]
  constructor
  · intro h
    cases h
  · intro h
    exact absurd h (hx.fresh tgid e'.addr j hnew)

/-- The bits of the active fiber of a thread. -/
theorem Exact.active (hx : Exact tr s) (h : s.activeFiber id pid = some (a, f)) :
    ∀ j < maxFls, f.bit j = some true ↔ Holds tr id a j := by
  obtain ⟨p, e, hp, he, ha, hobj⟩ := entry_of_activeFiber h
  have hbits := hx.bit id p hp e he
  rwa [ha, hobj] at hbits

theorem bit_of_fls (hbitmap : g.flsBitmap = f.flsBitmap) (harray : g.flsArray = f.flsArray)
    (j : ℕ) : g.bit j = f.bit j := by
  rw [FiberArg.bit, FiberArg.bit, hbitmap, harray]

theorem bit_switchedFiber (cur : Task) (env : Env) (a target : ℕ) (e : Entry FiberArg) (j : ℕ) :
    (switchedFiber cur env a target e).bit j = e.obj.bit j := by
  apply bit_of_fls
  all_goals
    unfold switchedFiber
    dsimp only
    split <;> split <;> rfl

/-- The fibers of the caller's process after a request. -/
theorem exact_request_self (hok : KernelOk s.kernel) (hx : Exact tr s)
    (hkeep : keepsBits s (.ioctl id pid cmd arg env) = true)
    (hr : s.request id pid cmd arg env = .ok r) {p' : ProcessArg}
    (hp' : r.kernel.record id = some p') {e' : Entry FiberArg} (he' : e' ∈ p'.fibers) :
    ∀ j < maxFls, e'.obj.bit j = some true ↔
      Holds (tr ++ [(s, .ioctl id pid cmd arg env)]) id e'.addr j := by
  have hc := change_of_request hok hr hp'
  generalize hbefore : s.kernel.record id = o at hc
  cases hc with
  | idle hidle =>
    exact hx.keep hbefore he' rfl (fun _ => rfl) fun j =>
      slotEvent_of_call hr (slotCall_of_idle hidle)
  | @converted _ p t f hsource hnone _ _ hf =>
    have hquiet : ∀ a j, slotEvent id a j (s, .ioctl id pid .convertToFiber arg env) = none :=
      fun a j => slotEvent_of_call hr rfl
    have hactive : s.activeFiber id pid = none := by
      rcases hsource with heq | ⟨heq, _⟩
      · have hnone : searchThread pid p = none := hnone
        simp only [System.activeFiber, hbefore, heq, Option.bind_eq_bind, Option.bind_some, hnone,
          Option.bind_none]
      · simp only [System.activeFiber, hbefore, heq, Option.bind_eq_bind, Option.bind_none]
    simp only [keepsBits, hactive] at hkeep
    rcases mem_hashAdd.mp he' with hnew | hold
    · rw [hnew]
      exact hx.new hf (fun j hj => bit_of_clearBits hkeep hj) (hquiet _)
    · rcases hsource with heq | ⟨_, heq⟩
      · exact hx.keep (hbefore.trans heq) hold rfl (fun _ => rfl) (hquiet _)
      · rw [heq] at hold
        cases hold
  | @created p thread a f old hthread hath hold hf =>
    have hquiet : ∀ a j, slotEvent id a j (s, .ioctl id pid .createFiber arg env) = none :=
      fun a j => slotEvent_of_call hr rfl
    have hactive : s.activeFiber id pid = some (a, old) :=
      activeFiber_eq hbefore hthread hath hold
    simp only [keepsBits, hactive] at hkeep
    rcases mem_hashAdd.mp he' with hnew | hmem
    · rw [hnew]
      exact hx.new hf (fun j hj => bit_of_clearBits hkeep hj) (hquiet _)
    · rw [modify_eq_mapObj] at hmem
      obtain ⟨e, he, heq⟩ := mem_mapObj.mp hmem
      rw [heq]
      refine hx.keep hbefore he rfl (fun j => ?_) (hquiet _)
      apply bit_of_fls
      all_goals
        dsimp only
        split <;> rfl
  | @switched p fiber thread a old next =>
    rw [switch_fibers] at he'
    obtain ⟨e, he, heq⟩ := mem_mapObj.mp he'
    rw [heq]
    exact hx.keep hbefore he rfl (fun j => bit_switchedFiber _ _ _ _ e j) fun j =>
      slotEvent_of_call hr rfl
  | @stored _ p thread a old f hthread hath hold hw =>
    have hactive : s.activeFiber id pid = some (a, old) :=
      activeFiber_eq hbefore hthread hath hold
    rw [modify_eq_mapObj] at he'
    obtain ⟨e, he, heq⟩ := mem_mapObj.mp he'
    by_cases ha : e.addr = a
    · have hex : e.obj = old :=
        (fibers_unique (hok.linked hbefore)).obj_of_deref hold he ha
      have hm : ∀ j, slotEvent id a j (s, .ioctl id pid cmd arg env) =
          slotCall cmd arg r.ret j := by
        intro j
        rw [slotEvent_request hr, hactive]
        exact if_pos ⟨rfl, rfl⟩
      have hbits := hx.bit id p hbefore e he
      rw [hex, ha] at hbits
      rw [heq]
      simp only [ha, if_true]
      exact holds_write hw hactive hkeep hm hbits
    · rw [heq]
      refine hx.keep hbefore he rfl (fun j => by simp only [if_neg ha]) fun j => ?_
      apply slotEvent_of_ne hr
      intro g _ hg
      rw [hactive] at hg
      exact ha (congrArg Prod.fst (Option.some.inj hg)).symm

theorem exact_request (hok : KernelOk s.kernel) (hx : Exact tr s)
    (hkeep : keepsBits s (.ioctl id pid cmd arg env) = true)
    (hr : s.request id pid cmd arg env = .ok r) :
    Exact (tr ++ [(s, .ioctl id pid cmd arg env)]) (s.resume id pid r) := by
  have hq : Requested s.kernel (s.task id pid) cmd arg env r := requested hok.tables hr
  constructor
  · intro tgid a i ha
    have ha : r.kernel.brk ≤ a := ha
    have hle : s.kernel.brk ≤ a := Nat.le_trans hq.brk_le ha
    have hm : slotEvent tgid a i (s, .ioctl id pid cmd arg env) = none := by
      apply slotEvent_of_ne hr
      intro f _ hf
      obtain ⟨p, e, hp, he, hea, _⟩ := entry_of_activeFiber hf
      have hlt := fibers_lt (hok.linked hp) he
      omega
    rw [holds_snoc_of_none hm]
    exact hx.fresh tgid a i hle
  · intro tgid p' hp' e' he'
    have hp' : r.kernel.record tgid = some p' := hp'
    by_cases hid : id = tgid
    · subst hid
      exact exact_request_self hok hx hkeep hr hp' he'
    · rw [record_of_request hok hr (Ne.symm hid)] at hp'
      exact hx.keep hp' he' rfl (fun _ => rfl) fun j =>
        slotEvent_of_ne hr (fun f h => absurd h hid) j

theorem exact_step {m : System × Action} (hok : KernelOk s.kernel) (hx : Exact tr s)
    (h : Recorded AllocStep s m t) : Exact (tr ++ [m]) t := by
  obtain ⟨s', act⟩ := m
  obtain ⟨heq, hkeep, hstep⟩ := h
  have heq : s' = s := heq
  subst heq
  cases act with
  | user tgid pid c =>
    cases hstep
    refine ⟨fun tgid a i ha => ?_, fun tgid p hp e he => ?_⟩
    · rw [holds_snoc_of_none rfl]
      exact hx.fresh tgid a i ha
    · exact hx.keep hp he rfl (fun _ => rfl) fun _ => rfl
  | ioctl id pid cmd arg env =>
    obtain ⟨r, hr, rfl⟩ := step_ioctl hstep
    exact exact_request hok hx hkeep hr
  | exit proId thrId =>
    obtain ⟨k, hk, rfl⟩ := step_exit hstep
    have hexit := exited hok.tables hk
    refine ⟨fun tgid a i ha => ?_, fun tgid p hp e he => ?_⟩
    · rw [holds_snoc_of_none rfl]
      exact hx.fresh tgid a i (hexit.brk_eq ▸ ha)
    · obtain ⟨p₀, hp₀, hsub⟩ := hexit.fibers_of_record hp
      exact hx.keep hp₀ (hsub e he) rfl (fun _ => rfl) fun _ => rfl

/-- In runs of steps that keep the bits, the bits are the history. -/
theorem exact_run {context : Pid × Pid → Context}
    (h : Run (Recorded AllocStep) (System.init context) tr s) :
    KernelOk s.kernel ∧ Exact tr s := by
  refine h.invariantTrace (I := fun tr s => KernelOk s.kernel ∧ Exact tr s) ?_ ?_
  · intro tr s m t hs hm
    exact ⟨kernelOk_step hs.1 hm.2.2, exact_step hs.1 hs.2 hm⟩
  · refine ⟨kernelOk_init, fun tgid a i _ hheld => ?_, fun tgid p hp => ?_⟩
    · cases hheld
    · cases hp

/-- The index that a request gives is an index of `fls_array`. -/
theorem lt_of_slotEvent {m : System × Action} {tgid : Pid} (hok : KernelOk s.kernel)
    (h : Recorded Step s m t) (hm : slotEvent tgid a i m = some true) : i < maxFls := by
  obtain ⟨s', act⟩ := m
  obtain ⟨heq, hstep⟩ := h
  have heq : s' = s := heq
  subst heq
  cases act with
  | user => cases hm
  | exit => cases hm
  | ioctl id pid cmd arg env =>
    obtain ⟨r, hr, _⟩ := step_ioctl hstep
    rw [slotEvent_request hr] at hm
    split at hm
    · cases cmd with
      | flsAlloc =>
        have hret : r.ret = i := by
          by_contra hne
          rw [slotCall, if_neg hne] at hm
          cases hm
        have hc := change_of_request hok hr rfl
        generalize s'.kernel.record id = o at hc
        generalize r.kernel.record id = o' at hc
        cases hc with
        | idle hidle =>
          have hneg := hidle.1 rfl
          omega
        | stored _ _ _ hw =>
          generalize hn : r.ret = n at hw
          cases hw with
          | alloc _ _ hset =>
            obtain ⟨hlt, _⟩ := of_setSlot hset
            omega
      | flsFree =>
        rw [slotCall] at hm
        split at hm <;> cases hm
      | _ => cases hm
    · cases hm

theorem lt_of_holds {context : Pid × Pid → Context} {tgid : Pid}
    (h : Run (Recorded Step) (System.init context) tr s) (hheld : Holds tr tgid a i) :
    i < maxFls := by
  have hboth : KernelOk s.kernel ∧ ∀ tgid a i, Holds tr tgid a i → i < maxFls := by
    refine h.invariantTrace
      (I := fun tr s => KernelOk s.kernel ∧ ∀ tgid a i, Holds tr tgid a i → i < maxFls) ?_ ?_
    · intro tr s m t hs hm
      refine ⟨kernelOk_step hs.1 hm.2, fun tgid a i hheld => ?_⟩
      rw [Holds, latest_snoc, Option.or_eq_some_iff] at hheld
      rcases hheld with hnew | ⟨_, hold⟩
      · exact lt_of_slotEvent hs.1 hm hnew
      · exact hs.2 tgid a i hold
    · exact ⟨kernelOk_init, fun tgid a i hheld => by cases hheld⟩
  exact hboth.2 tgid a i hheld

/-! ## The law of allocation -/

/-- What `FLSALLOC` and `FLSGETVALUE` of the index owe to the active fiber at `a`.
An index that `FLSALLOC` gives was not held, -1 is given when all indices are
held, `FLSGETVALUE` refuses an index that is not held, and the slot that is
cleared is one of `fls_array`. -/
structure Allocates (tr : List (System × Action)) (s : System) (id pid : Pid) (a : ℕ)
    (f : FiberArg) (index : Word) : Prop where
  fresh : ∀ arg env r, s.request id pid .flsAlloc arg env = .ok r → 0 ≤ r.ret →
    r.ret < maxFls ∧ ¬ Holds tr id a r.ret.toNat
  full : (∀ i < maxFls, Holds tr id a i) → ∀ arg env,
    ∃ r, s.request id pid .flsAlloc arg env = .ok r ∧ r.ret = -1
  unheld : (∀ i : ℕ, index.toInt = i → ¬ Holds tr id a i) → ∀ env,
    ∃ r, s.request id pid .flsGetValue index env = .ok r ∧ r.ret = -1
  inside : ∀ i, findFirstZeroBit f = .ok i → i < maxFls

/-- `FLSALLOC` of a thread with an active fiber. -/
theorem flsAlloc_eq (hactive : s.activeFiber id pid = some (a, f)) (arg : Word) (env : Env) :
    ∃ e, s.request id pid .flsAlloc arg env = (do
      let index ← findFirstZeroBit f
      let g ← changeBit f index
      let g ← setSlot g index 0
      reply (s.task id pid) (s.kernel.setFiber e a g) index) := by
  obtain ⟨e, th, he, hth, hath, hf⟩ := of_activeFiber hactive
  have he' : searchProcess s.kernel (s.task id pid).tgid = some e := he
  have hth' : searchThread (s.task id pid).pid e.obj = some th := hth
  refine ⟨e, ?_⟩
  show flsAlloc s.kernel (s.task id pid) = _
  unfold flsAlloc
  simp only [he', hth', hath, derefFiber, hf, bind, Except.bind]

/-- `FLSGETVALUE` of a thread with an active fiber. -/
theorem flsGetValue_eq (hactive : s.activeFiber id pid = some (a, f)) (arg : Word) (env : Env) :
    s.request id pid .flsGetValue arg env = (do
      if ← testBit f arg.toInt then
        let value ← slot f arg.toNat
        reply (s.task id pid) s.kernel value.toInt
      else reply (s.task id pid) s.kernel (-1)) := by
  obtain ⟨e, th, he, hth, hath, hf⟩ := of_activeFiber hactive
  have he' : searchProcess s.kernel (s.task id pid).tgid = some e := he
  have hth' : searchThread (s.task id pid).pid e.obj = some th := hth
  show flsGetValue s.kernel (s.task id pid) arg = _
  unfold flsGetValue
  simp only [he', hth', hath, derefFiber, hf, bind, Except.bind]

/-- `FLSALLOC` gives the first clear bit. -/
theorem flsAlloc_gives (hactive : s.activeFiber id pid = some (a, f))
    (hfind : findFirstZeroBit f = .ok i) (hr : s.request id pid .flsAlloc arg env = .ok r) :
    r.ret = i ∧ i < maxFls := by
  obtain ⟨e, heq⟩ := flsAlloc_eq hactive arg env
  rw [heq] at hr
  obtain ⟨j, hj, hr⟩ := of_bind hr
  obtain ⟨f₁, _, hr⟩ := of_bind hr
  obtain ⟨f₂, hset, hr⟩ := of_bind hr
  have hji : j = i := Except.ok.inj (hj.symm.trans hfind)
  cases hr
  rw [hji] at hset ⊢
  exact ⟨rfl, (of_setSlot hset).1⟩

/-- `FLSGETVALUE` refuses the indices whose bit is clear, and those behind
`fls_array` only then. -/
theorem refuses_iff (hactive : s.activeFiber id pid = some (a, f)) (env : Env)
    (hout : ¬ (0 ≤ index.toInt ∧ index.toInt < maxFls)) :
    (∃ r, s.request id pid .flsGetValue index env = .ok r ∧ r.ret = -1) ↔
      0 ≤ index.toInt ∧ f.bit index.toInt.toNat = some false := by
  rw [flsGetValue_eq hactive]
  constructor
  · rintro ⟨r, hr, _⟩
    obtain ⟨b, htest, hr⟩ := of_bind hr
    obtain ⟨h0, hbit⟩ := of_testBit htest
    cases b with
    | false => exact ⟨h0, hbit⟩
    | true =>
      obtain ⟨v, hslot, _⟩ := of_bind hr
      have hge : ¬ index.toNat < maxFls := by
        rw [BitVec.toInt_eq_toNat_cond] at hout h0
        unfold maxFls at *
        split at h0 <;> rename_i hpos
        · rw [if_pos hpos] at hout
          omega
        · omega
      rw [slot, if_neg hge] at hslot
      cases hslot
  · rintro ⟨h0, hbit⟩
    rw [testBit_of_inRange h0 hbit]
    exact ⟨_, rfl, rfl⟩

/-- In runs of steps that keep the bits, the law of allocation holds while an index
is free, for every index that is read in the range, and behind it where a clear
bit happens to be. -/
theorem allocates_iff {context : Pid × Pid → Context}
    (h : Run (Recorded AllocStep) (System.init context) tr s)
    (hactive : s.activeFiber id pid = some (a, f)) (index : Word) :
    Allocates tr s id pid a f index ↔
      (∃ i < maxFls, ¬ Holds tr id a i) ∧ 0 ≤ index.toInt ∧
        (maxFls ≤ index.toInt → f.bit index.toInt.toNat = some false) := by
  obtain ⟨hok, hx⟩ := exact_run h
  have hrun : Run (Recorded Step) (System.init context) tr s :=
    h.mono fun s m t hm => ⟨hm.1, hm.2.2⟩
  have hbits := hx.active hactive
  obtain ⟨z, hz, hcases⟩ := exists_findFirstZeroBit f
  constructor
  · intro hlaw
    have hfree : ∃ i < maxFls, ¬ Holds tr id a i := by
      by_contra hnone
      have hall : ∀ i < maxFls, Holds tr id a i := by
        intro i hi
        by_contra hi'
        exact hnone ⟨i, hi, hi'⟩
      obtain ⟨r, hr, _⟩ := hlaw.full hall 0 Env.clear
      obtain ⟨_, hlt⟩ := flsAlloc_gives hactive hz hr
      rcases hcases with ⟨hout, _⟩ | ⟨_, hclear⟩
      · omega
      · have hset := (hbits z hlt).mpr (hall z hlt)
        rw [hclear] at hset
        cases hset
    refine ⟨hfree, ?_⟩
    by_cases hin : 0 ≤ index.toInt ∧ index.toInt < maxFls
    · exact ⟨hin.1, fun hge => by omega⟩
    · have hunheld : ∀ i : ℕ, index.toInt = i → ¬ Holds tr id a i := by
        intro i hi hheld
        have hlt := lt_of_holds hrun hheld
        omega
      obtain ⟨h0, hbit⟩ := (refuses_iff hactive Env.clear hin).mp (hlaw.unheld hunheld Env.clear)
      exact ⟨h0, fun _ => hbit⟩
  · rintro ⟨⟨i, hi, hfree⟩, h0, hbehind⟩
    have hclear : z < maxFls ∧ f.bit z = some false := by
      rcases hcases with ⟨_, hall⟩ | hclear
      · exact absurd ((hbits i hi).mp (hall i hi)) hfree
      · exact hclear
    refine ⟨fun arg env r hr _ => ?_, fun hall => absurd (hall i hi) hfree, fun hunheld env => ?_,
      fun j hj => ?_⟩
    · obtain ⟨hret, hlt⟩ := flsAlloc_gives hactive hz hr
      rw [hret, Int.toNat_natCast]
      refine ⟨by omega, fun hheld => ?_⟩
      have hset := (hbits z hlt).mpr hheld
      rw [hclear.2] at hset
      cases hset
    · by_cases hmax : index.toInt < maxFls
      · obtain ⟨hnat, hlt⟩ := toNat_of_inRange h0 hmax
        obtain ⟨r, hr, _, hret⟩ := @flsGetValue_returns s id pid f a index env hactive h0 hmax
        have hnot : f.bit index.toNat ≠ some true := fun hset =>
          hunheld index.toNat (by omega) ((hbits _ hlt).mp hset)
        obtain ⟨b, hb⟩ := Option.isSome_iff_exists.mp (bit_isSome f hlt)
        cases b with
        | true => exact absurd hb hnot
        | false => exact ⟨r, hr, hret hb⟩
      · have hout : ¬ (0 ≤ index.toInt ∧ index.toInt < maxFls) := fun hin => hmax hin.2
        exact (refuses_iff hactive env hout).mpr ⟨h0, hbehind (by omega)⟩
    · have heq : z = j := Except.ok.inj (hz.symm.trans hj)
      omega

/-- Everything succeeds, and new memory holds the word in the place of the bitmap. -/
def Env.dirty (word : Word) : Env :=
  { Env.clear with oldFiber := { Env.clear.oldFiber with flsBitmap := word } }

/-- `allocates_iff` after an allocation, for an index that was not given. -/
theorem allocates_after_alloc : ∃ (tr : List (System × Action)) (s : System) (f : FiberArg),
    Run (Recorded AllocStep) (System.init zeroContext) tr s ∧ Holds tr 7 0 0 ∧
    s.activeFiber 7 7 = some (0, f) ∧ Allocates tr s 7 7 0 f 5 := by
  obtain ⟨tr, s, hrun, hp⟩ := Lib.exists_history System.exec keepsBits (System.init zeroContext)
    [.ioctl 7 7 .convertToFiber 0 Env.clear, .ioctl 7 7 .flsAlloc 0 Env.clear]
    (fun tr s => decide (latest (slotEvent 7 0 0) tr = some true) &&
      decide (latest (slotEvent 7 0 5) tr ≠ some true) &&
      (s.activeFiber 7 7).any fun af => af.1 == 0) (by decide +kernel)
  simp only [Bool.and_eq_true, decide_eq_true_eq] at hp
  obtain ⟨⟨hheld, hfree⟩, hany⟩ := hp
  obtain ⟨⟨a, f⟩, hactive, ha⟩ := (Option.any_eq_true _ _).mp hany
  have ha : a = 0 := eq_of_beq ha
  rw [ha] at hactive
  refine ⟨tr, s, f, hrun, hheld, hactive, (allocates_iff hrun hactive 5).mpr ?_⟩
  exact ⟨⟨5, by decide, hfree⟩, by decide, fun hge => absurd hge (by decide)⟩

/-- An index that `FLSALLOC` never gave is read, because the memory of the fiber had
its bit set. -/
theorem unallocated_read : ∃ (tr : List (System × Action)) (s : System) (f : FiberArg) (r : Reply),
    Run (Recorded Step) (System.init zeroContext) tr s ∧ s.activeFiber 7 7 = some (0, f) ∧
    latest (slotEvent 7 0 5) tr = none ∧
    s.request 7 7 .flsGetValue 5 Env.clear = .ok r ∧ r.ret = 0 ∧
    ¬ Allocates tr s 7 7 0 f 5 := by
  obtain ⟨tr, s, hrun, hp⟩ := Lib.exists_history System.exec (fun _ _ => true)
    (System.init zeroContext)
    [.ioctl 7 7 .convertToFiber 0 (Env.dirty 32), .ioctl 7 7 .flsAlloc 0 Env.clear]
    (fun tr s => decide (latest (slotEvent 7 0 5) tr = none) &&
      ((s.activeFiber 7 7).any fun af => af.1 == 0) &&
      (s.request 7 7 .flsGetValue 5 Env.clear).toOption.any fun r => r.ret == 0) (by decide +kernel)
  simp only [Bool.and_eq_true, decide_eq_true_eq] at hp
  obtain ⟨⟨hnever, hany⟩, hp⟩ := hp
  obtain ⟨⟨a, f⟩, hactive, ha⟩ := (Option.any_eq_true _ _).mp hany
  have ha : a = 0 := eq_of_beq ha
  rw [ha] at hactive
  obtain ⟨r, hr, hp⟩ := of_toOption_any hp
  refine ⟨tr, s, f, r, hrun.mono fun _ _ _ h => ⟨h.1, h.2.2⟩, hactive, hnever, hr,
    eq_of_beq hp, fun hlaw => ?_⟩
  have hunheld : ∀ i : ℕ, (5 : Word).toInt = i → ¬ Holds tr 7 0 i := by
    intro i hi
    have hi : (5 : ℤ) = i := hi
    have heq : i = 5 := by omega
    rw [heq, Holds, hnever]
    nofun
  obtain ⟨r', hr', hret⟩ := hlaw.unheld hunheld Env.clear
  rw [hr] at hr'
  cases hr'
  rw [eq_of_beq hp] at hret
  cases hret

/-! ## Runs without `FLSFREE` and `FLSSETVALUE`

Without these two, the indices of a fiber are given in ascending order.  The slot
that `FLSALLOC` clears then holds bits of indices that were not given, so clear
memory is all that such a run needs. -/

/-- A step that frees no index and sets no value, and makes fibers of clear memory. -/
def growsOnly (s : System) : Action → Bool
  | .ioctl _ _ .flsFree _ _ => false
  | .ioctl _ _ .flsSetValue _ _ => false
  | .ioctl _ _ .flsAlloc _ _ => true
  | a => keepsBits s a

/-- The indices of a fiber are all below the first one that it does not hold. -/
def Ascending (tr : List (System × Action)) : Prop :=
  ∀ tgid a i j, i ≤ j → Holds tr tgid a j → Holds tr tgid a i

/-- A slot whose bits are all clear is 0. -/
theorem slot_eq_zero (h : ∀ n < 64, f.bit (64 * (i + 1) + n) = some false) (hi : i < maxFls) :
    f.flsArray i = 0 := by
  apply BitVec.eq_of_getLsbD_eq
  intro n hn
  have hbit := h n hn
  have h64 : ¬ 64 * (i + 1) + n < 64 := by omega
  have hslot : slotOfBit (64 * (i + 1) + n) = i := by
    unfold slotOfBit
    omega
  have hmod : (64 * (i + 1) + n) % 64 = n := by omega
  rw [FiberArg.bit, if_neg h64, hslot, if_pos hi, hmod, Option.some.injEq] at hbit
  rw [hbit]
  exact BitVec.getLsbD_zero.symm

theorem keepsBits_of_ascending (hx : Exact tr s) (hasc : Ascending tr) (id pid : Pid) (arg : Word)
    (env : Env) : keepsBits s (.ioctl id pid .flsAlloc arg env) = true := by
  cases hactive : s.activeFiber id pid with
  | none => simp only [keepsBits, hactive]
  | some af =>
    obtain ⟨a, f⟩ := af
    have hbits := hx.active hactive
    obtain ⟨z, hz, hcases⟩ := exists_findFirstZeroBit f
    simp only [keepsBits, hactive, hz, decide_eq_true_eq]
    intro hlt
    have hshared : sharedSlots = 63 := rfl
    rcases hcases with ⟨hout, _⟩ | ⟨hmax, hclear⟩
    · unfold maxFls at hout
      omega
    · refine slot_eq_zero (fun n hn => ?_) hmax
      have hj : 64 * (z + 1) + n < maxFls := by
        unfold maxFls
        omega
      obtain ⟨b, hb⟩ := Option.isSome_iff_exists.mp (bit_isSome f hj)
      cases b with
      | false => exact hb
      | true =>
        -- the bit would be a later index than the first one that is not held
        have hheld := hasc id a z _ (by omega) ((hbits _ hj).mp hb)
        rw [(hbits z hmax).mpr hheld] at hclear
        cases hclear

/-- Runs that only allocate keep the bits. -/
theorem run_of_growsOnly {context : Pid × Pid → Context}
    (h : Run (Recorded fun s a t => growsOnly s a = true ∧ Step s a t) (System.init context) tr s) :
    Run (Recorded AllocStep) (System.init context) tr s ∧ Ascending tr := by
  induction h with
  | nil => exact ⟨Run.nil, fun tgid a i j _ hheld => by cases hheld⟩
  | @snoc tr s t m _ hm ih =>
    obtain ⟨hrun, hasc⟩ := ih
    obtain ⟨_, hx⟩ := exact_run hrun
    obtain ⟨s', act⟩ := m
    obtain ⟨heq, hgrows, hstep⟩ := hm
    have heq : s' = s := heq
    subst heq
    have hquiet : (∀ tgid a j, slotEvent tgid a j (s', act) = none) →
        Ascending (tr ++ [(s', act)]) := by
      intro hnone tgid a i j hij hheld
      rw [holds_snoc_of_none (hnone _ _ _)] at hheld ⊢
      exact hasc tgid a i j hij hheld
    cases act with
    | user => exact ⟨Run.snoc hrun ⟨rfl, rfl, hstep⟩, hquiet fun _ _ _ => rfl⟩
    | exit => exact ⟨Run.snoc hrun ⟨rfl, rfl, hstep⟩, hquiet fun _ _ _ => rfl⟩
    | ioctl id pid cmd arg env =>
      obtain ⟨r, hr, _⟩ := step_ioctl hstep
      cases cmd with
      | flsFree => cases hgrows
      | flsSetValue => cases hgrows
      | flsAlloc =>
        have hkeep := keepsBits_of_ascending hx hasc id pid arg env
        refine ⟨Run.snoc hrun ⟨rfl, hkeep, hstep⟩, fun tgid a i j hij hheld => ?_⟩
        by_cases hcaller : id = tgid ∧ (s'.activeFiber id pid).map Prod.fst = some a
        · have hevent : ∀ i, slotEvent tgid a i (s', .ioctl id pid .flsAlloc arg env) =
              if r.ret = i then some true else none := by
            intro i
            rw [slotEvent_request hr, if_pos hcaller]
            rfl
          by_cases hnew : r.ret = j
          · -- the indices below the new one were held
            by_cases heq : i = j
            · rwa [heq]
            · obtain ⟨rfl, hmap⟩ := hcaller
              obtain ⟨⟨b, f⟩, hactive, hb⟩ := Option.map_eq_some_iff.mp hmap
              have hb : b = a := hb
              subst hb
              have hbits := hx.active hactive
              obtain ⟨z, hz, _⟩ := exists_findFirstZeroBit f
              obtain ⟨hret, hlt⟩ := flsAlloc_gives hactive hz hr
              have hset := (zeroBitFrom_ok hz).2.1 i (Nat.zero_le i) (by omega)
              rw [holds_snoc_of_none ((hevent i).trans (if_neg (by omega)))]
              exact (hbits i (by omega)).mp hset
          · rw [holds_snoc_of_none ((hevent j).trans (if_neg hnew))] at hheld
            have hold := hasc tgid a i j hij hheld
            by_cases hi : r.ret = i
            · rw [holds_snoc_of_some (b := true) ((hevent i).trans (if_pos hi))]
            · rwa [holds_snoc_of_none ((hevent i).trans (if_neg hi))]
        · have hnone : ∀ i, slotEvent tgid a i (s', .ioctl id pid .flsAlloc arg env) = none := by
            intro i
            rw [slotEvent_request hr, if_neg hcaller]
          rw [holds_snoc_of_none (hnone _)] at hheld ⊢
          exact hasc tgid a i j hij hheld
      | _ =>
        exact ⟨Run.snoc hrun ⟨rfl, hgrows, hstep⟩, hquiet fun _ _ _ => slotEvent_of_call hr rfl⟩

end LinuxFibers.Single
