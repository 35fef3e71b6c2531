import LinuxFibers.Module.Library
import LinuxFibers.Single.Requests

/-!
# Values through the library of the single-threaded module

`FlsSetValue` and `FlsGetValue` of `single_thread/Library/function_calls.c`.
`FLSGETVALUE` returns the value itself, so a value goes back to the user as the
value of a system call: as the `int` of `callInt`, widened again.  `RoundTrip` says
that a value which is set is the value that is read next, and `roundTrip_iff` says
which values make this trip.
-/

namespace LinuxFibers.Single

open LinuxFibers.Lib HashTable LinuxFibers.Module

/-! ## The calls -/

/-- `ioctl(fd, cmd, arg)`, which fails on a bad descriptor. -/
def Library.ioctl (lib : Library) (s : System) (tgid pid : Pid) (cmd : Command) (arg : Word)
    (env : Env) : Except Fault (BitVec 32 × System) :=
  if lib.ready then do
    let r ← s.request tgid pid cmd arg env
    return (callInt r.ret, s.resume tgid pid r)
  else .ok (-1, s)

/-- `FlsSetValue`.  The module reads the index and the value from the memory of
the caller. -/
def Library.flsSetValue (lib : Library) (s : System) (tgid pid : Pid) (dwFlsIndex lpFlsData : Word)
    (env : Env) : Except Fault System := do
  let (_, s) ← Library.ioctl lib s tgid pid .flsSetValue 0
    { env with flsArg := ⟨dwFlsIndex, lpFlsData⟩ }
  return s

/-- `FlsGetValue`. -/
def Library.flsGetValue (lib : Library) (s : System) (tgid pid : Pid) (dwFlsIndex : Word)
    (env : Env) : Except Fault (Word × System) := do
  let (ret, s) ← Library.ioctl lib s tgid pid .flsGetValue dwFlsIndex env
  let ret := ret.signExtend 64
  return (if ret = -1 then -1 else ret, s)

/-- The value that is set is the value that is read next. -/
def RoundTrip (lib : Library) (s : System) (tgid pid : Pid) (index value : Word)
    (env env' : Env) : Prop :=
  ∃ t u, Library.flsSetValue lib s tgid pid index value env = .ok t ∧
    Library.flsGetValue lib t tgid pid index env' = .ok (value, u)

/-! ## The active fiber -/

/-- The address of the active fiber of a thread, and the fiber. -/
def System.activeFiber (s : System) (tgid pid : Pid) : Option (ℕ × FiberArg) := do
  let p ← s.kernel.record tgid
  let thread ← searchThread pid p
  let a ← thread.obj.activeFiber
  let f ← p.fibers.deref a
  return (a, f)

variable {s t : System} {id pid : Pid} {f g : FiberArg} {a i : ℕ} {arg : Word} {env : Env}
  {r : Reply}

theorem of_activeFiber (h : s.activeFiber id pid = some (a, f)) :
    ∃ e th, searchProcess s.kernel id = some e ∧ searchThread pid e.obj = some th ∧
      th.obj.activeFiber = some a ∧ e.obj.fibers.deref a = some f := by
  obtain ⟨p, hp, h⟩ := Option.bind_eq_some_iff.mp h
  obtain ⟨th, hth, h⟩ := Option.bind_eq_some_iff.mp h
  obtain ⟨b, hb, h⟩ := Option.bind_eq_some_iff.mp h
  obtain ⟨g, hg, h⟩ := Option.bind_eq_some_iff.mp h
  cases h
  obtain ⟨e, he, rfl⟩ := Option.map_eq_some_iff.mp hp
  exact ⟨e, th, he, hth, hb, hg⟩

/-- The active fiber is in the record. -/
theorem entry_of_activeFiber (h : s.activeFiber id pid = some (a, f)) :
    ∃ p e, s.kernel.record id = some p ∧ e ∈ p.fibers ∧ e.addr = a ∧ e.obj = f := by
  obtain ⟨e, th, he, _, _, hf⟩ := of_activeFiber h
  obtain ⟨x, hx, ha, hobj⟩ := mem_of_deref hf
  exact ⟨e.obj, x, record_of_searchProcess he, hx, ha, hobj⟩

theorem activeFiber_eq {p : ProcessArg} {thread : Entry ThreadArg}
    (hp : s.kernel.record id = some p) (hthread : searchThread pid p = some thread)
    (hactive : thread.obj.activeFiber = some a) (hold : p.fibers.deref a = some f) :
    s.activeFiber id pid = some (a, f) := by
  simp only [System.activeFiber, hp, hthread, hactive, hold, Option.bind_eq_bind,
    Option.bind_some, pure]

/-- The active fiber after a write of it. -/
theorem activeFiber_of_write (hok : KernelOk s.kernel)
    (hactive : s.activeFiber id pid = some (a, f)) {e : Entry ProcessArg}
    (he : searchProcess s.kernel id = some e)
    (ht : t.kernel.listProcess = (s.kernel.setFiber e a g).listProcess) :
    t.activeFiber id pid = some (a, g) := by
  obtain ⟨e', th, he', hth, hath, hf⟩ := of_activeFiber hactive
  have heq : e' = e := Option.some.inj (he'.symm.trans he)
  subst heq
  have hrec : t.kernel.record id =
      some { e'.obj with fibers := e'.obj.fibers.modify a fun _ => g } := by
    rw [record_of_eq ht]
    exact record_setProcess_self hok.tables he rfl
  obtain ⟨x, hx, rfl, _⟩ := mem_of_deref hf
  have hunique := fibers_unique (hok.linked (record_of_searchProcess he))
  have hread : (e'.obj.fibers.modify x.addr fun _ => g).deref x.addr = some g :=
    deref_of_mem (hunique.modify x.addr fun _ => g) (mem_modify_self hx)
  exact activeFiber_eq hrec hth hath hread

/-- The active fiber in a kernel with the same tables. -/
theorem activeFiber_of_eq (hl : t.kernel.listProcess = s.kernel.listProcess) :
    t.activeFiber id pid = s.activeFiber id pid := by
  simp only [System.activeFiber, record_of_eq hl]

/-! ## The two requests -/

/-- The storage behind the bitmap has all the bits of the slots. -/
theorem bit_isSome (f : FiberArg) (hi : i < maxFls) : (f.bit i).isSome = true := by
  have hi' : i < 4096 := hi
  have hslot : slotOfBit i < maxFls := by
    unfold slotOfBit maxFls
    omega
  unfold FiberArg.bit
  split
  · rfl
  · rfl

theorem testBit_of_inRange {index : Word} (h0 : 0 ≤ index.toInt) {b : Bool}
    (hb : f.bit index.toInt.toNat = some b) : testBit f index.toInt = .ok b := by
  have hneg : ¬ index.toInt < 0 := by omega
  rw [testBit, if_neg hneg, hb]

theorem toNat_of_inRange {index : Word} (h0 : 0 ≤ index.toInt) (hmax : index.toInt < maxFls) :
    index.toInt.toNat = index.toNat ∧ index.toNat < maxFls := by
  rw [BitVec.toInt_eq_toNat_cond] at h0 hmax ⊢
  have := index.isLt
  unfold maxFls at hmax ⊢
  split at h0 <;> split <;> omega

/-- `FLSSETVALUE` of an index in the range. -/
theorem flsSetValue_writes (hactive : s.activeFiber id pid = some (a, f))
    (h0 : 0 ≤ env.flsArg.dwFlsIndex.toInt) (hmax : env.flsArg.dwFlsIndex.toInt < maxFls)
    (halloc : env.kmalloc .flsArg = true) :
    ∃ r, s.request id pid .flsSetValue arg env = .ok r ∧
      (f.bit env.flsArg.dwFlsIndex.toNat = some true →
        ∃ e, searchProcess s.kernel id = some e ∧
          r.kernel.listProcess = (s.kernel.setFiber e a { f with
            flsArray := Function.update f.flsArray env.flsArg.dwFlsIndex.toNat
              env.flsArg.lpFlsData }).listProcess) ∧
      (f.bit env.flsArg.dwFlsIndex.toNat = some false →
        r.kernel.listProcess = s.kernel.listProcess) := by
  obtain ⟨hnat, hlt⟩ := toNat_of_inRange h0 hmax
  obtain ⟨e, th, he, hth, hath, hf⟩ := of_activeFiber hactive
  have he' : searchProcess ⟨s.kernel.listProcess, s.kernel.brk + 1⟩ (s.task id pid).tgid =
      some e := he
  have hth' : searchThread (s.task id pid).pid e.obj = some th := hth
  obtain ⟨b, hb⟩ := Option.isSome_iff_exists.mp (bit_isSome f hlt)
  have htest : testBit f env.flsArg.dwFlsIndex.toInt = .ok b :=
    testBit_of_inRange h0 (by rw [hnat, hb])
  have hrequest : s.request id pid .flsSetValue arg env =
      flsSetValue s.kernel (s.task id pid) env := rfl
  rw [hrequest, hb]
  unfold flsSetValue
  simp only [halloc, kmalloc, if_true, nonNull, bind, Except.bind, he', hth', hath, derefFiber, hf,
    htest]
  cases b with
  | true =>
    simp only [if_true, setSlot, if_pos hlt]
    exact ⟨_, rfl, fun _ => ⟨e, he, rfl⟩, fun hfalse => by cases hfalse⟩
  | false =>
    simp only [Bool.false_eq_true, if_false]
    exact ⟨_, rfl, fun htrue => (by cases htrue), fun _ => rfl⟩

/-- `FLSGETVALUE` of an index in the range. -/
theorem flsGetValue_returns (hactive : s.activeFiber id pid = some (a, f))
    (h0 : 0 ≤ arg.toInt) (hmax : arg.toInt < maxFls) :
    ∃ r, s.request id pid .flsGetValue arg env = .ok r ∧
      (f.bit arg.toNat = some true → r.ret = (f.flsArray arg.toNat).toInt) ∧
      (f.bit arg.toNat = some false → r.ret = -1) := by
  obtain ⟨hnat, hlt⟩ := toNat_of_inRange h0 hmax
  obtain ⟨e, th, he, hth, hath, hf⟩ := of_activeFiber hactive
  have he' : searchProcess s.kernel (s.task id pid).tgid = some e := he
  have hth' : searchThread (s.task id pid).pid e.obj = some th := hth
  obtain ⟨b, hb⟩ := Option.isSome_iff_exists.mp (bit_isSome f hlt)
  have htest : testBit f arg.toInt = .ok b := testBit_of_inRange h0 (by rw [hnat, hb])
  have hrequest : s.request id pid .flsGetValue arg env =
      flsGetValue s.kernel (s.task id pid) arg := rfl
  rw [hrequest, hb]
  unfold flsGetValue
  simp only [bind, Except.bind, he', hth', hath, derefFiber, hf, htest]
  cases b with
  | true =>
    simp only [if_true, slot, if_pos hlt]
    exact ⟨_, rfl, fun _ => rfl, fun hfalse => by cases hfalse⟩
  | false =>
    simp only [Bool.false_eq_true, if_false]
    exact ⟨_, rfl, fun htrue => (by cases htrue), fun _ => rfl⟩

/-! ## Which values make the trip -/

variable {lib : Library} {index value : Word} {env' : Env}

/-- A value that the library gets through `FLSGETVALUE`. -/
theorem flsGetValue_of_request (hready : lib.ready = true)
    (hr : s.request id pid .flsGetValue index env = .ok r) :
    Library.flsGetValue lib s id pid index env =
      .ok ((callInt r.ret).signExtend 64, s.resume id pid r) := by
  simp only [Library.flsGetValue, Library.ioctl, hready, if_true, hr, bind, Except.bind, pure,
    Except.pure, Except.ok.injEq, Prod.mk.injEq, and_true]
  split
  · rename_i hneg
    exact hneg.symm
  · rfl

theorem flsSetValue_of_request (hready : lib.ready = true)
    (hr : s.request id pid .flsSetValue 0 { env with flsArg := ⟨index, value⟩ } = .ok r) :
    Library.flsSetValue lib s id pid index value env = .ok (s.resume id pid r) := by
  simp only [Library.flsSetValue, Library.ioctl, hready, if_true, hr, bind, Except.bind, pure,
    Except.pure]

/-- What is read is the value of the trip exactly when the widened `int` is. -/
theorem flsGetValue_eq_iff (hready : lib.ready = true)
    (hr : s.request id pid .flsGetValue index env = .ok r) :
    (∃ u, Library.flsGetValue lib s id pid index env = .ok (value, u)) ↔
      (callInt r.ret).signExtend 64 = value := by
  rw [flsGetValue_of_request hready hr]
  constructor
  · rintro ⟨u, hu⟩
    cases hu
    rfl
  · intro heq
    rw [heq]
    exact ⟨_, rfl⟩

/-- Without the device nothing is set and -1 is read. -/
theorem roundTrip_of_not_ready (hready : lib.ready = false) :
    RoundTrip lib s id pid index value env env' ↔ value = -1 := by
  have hset : Library.flsSetValue lib s id pid index value env = .ok s := by
    simp only [Library.flsSetValue, Library.ioctl, hready, Bool.false_eq_true, if_false, bind,
      Except.bind, pure, Except.pure]
  have hget : Library.flsGetValue lib s id pid index env' = .ok (-1, s) := by
    simp only [Library.flsGetValue, Library.ioctl, hready, Bool.false_eq_true, if_false, bind,
      Except.bind, pure, Except.pure]
    rfl
  constructor
  · rintro ⟨t, u, ht, hu⟩
    rw [hset] at ht
    cases ht
    rw [hget] at hu
    cases hu
    rfl
  · intro heq
    rw [heq]
    exact ⟨s, s, by rw [← heq]; exact hset, hget⟩

/-- A write of a slot, seen at a bit that is not stored in it. -/
theorem bit_update {j : ℕ} (f : FiberArg) (v : Word) (h : j < 64 ∨ slotOfBit j ≠ i) :
    ({ f with flsArray := Function.update f.flsArray i v } : FiberArg).bit j = f.bit j := by
  unfold FiberArg.bit
  split
  · rfl
  · rename_i hj
    have hne := h.resolve_left hj
    simp only [Function.update_of_ne hne]

/-- The request faults when its arguments do not get memory. -/
theorem not_roundTrip_of_null (hready : lib.ready = true)
    (halloc : env.kmalloc .flsArg = false) : ¬ RoundTrip lib s id pid index value env env' := by
  rintro ⟨t, u, ht, _⟩
  have hfault : s.request id pid .flsSetValue 0 { env with flsArg := ⟨index, value⟩ } =
      .error .nullPointer := by
    show flsSetValue s.kernel (s.task id pid) { env with flsArg := ⟨index, value⟩ } = _
    simp only [flsSetValue, halloc, kmalloc, Bool.false_eq_true, if_false, nonNull, bind,
      Except.bind]
  simp only [Library.flsSetValue, Library.ioctl, hready, if_true, hfault, bind,
    Except.bind] at ht
  cases ht

/-- After a set that returns the trip is decided by what the next request reads. -/
theorem roundTrip_iff_ret {t : System} (hready : lib.ready = true)
    (hset : Library.flsSetValue lib s id pid index value env = .ok t)
    (hr : t.request id pid .flsGetValue index env' = .ok r) :
    RoundTrip lib s id pid index value env env' ↔ (callInt r.ret).signExtend 64 = value := by
  rw [← flsGetValue_eq_iff hready hr]
  constructor
  · rintro ⟨t', u, ht, hu⟩
    rw [hset] at ht
    cases ht
    exact ⟨u, hu⟩
  · rintro ⟨u, hu⟩
    exact ⟨t, u, hset, hu⟩

theorem eq_neg_one_iff_toInt (w : Word) : w = -1 ↔ w.toInt = -1 := by
  constructor
  · intro heq
    rw [heq]
    rfl
  · intro heq
    exact BitVec.eq_of_toInt_eq heq

/-- The trip of a value through a slot whose bit is set. -/
theorem roundTrip_of_bit (hok : KernelOk s.kernel)
    (hactive : s.activeFiber id pid = some (a, f)) (h0 : 0 ≤ index.toInt)
    (hmax : index.toInt < maxFls) (hready : lib.ready = true)
    (halloc : env.kmalloc .flsArg = true) (hb : f.bit index.toNat = some true) :
    RoundTrip lib s id pid index value env env' ↔ value = -1 ∨
      ¬ IsErrno value.toInt ∧ -2 ^ 31 ≤ value.toInt ∧ value.toInt < 2 ^ 31 := by
  obtain ⟨r, hr, hset, _⟩ := @flsSetValue_writes s id pid f a 0
    { env with flsArg := ⟨index, value⟩ } hactive h0 hmax halloc
  obtain ⟨e, he, hwrite⟩ := hset hb
  have hnew := @activeFiber_of_write s (s.resume id pid r) id pid f _ a hok hactive e he hwrite
  obtain ⟨r', hr', hvalue, _⟩ := @flsGetValue_returns _ id pid _ a index env' hnew h0 hmax
  have hne : index.toNat < 64 ∨ slotOfBit index.toNat ≠ index.toNat := by
    unfold slotOfBit
    omega
  have hret := hvalue ((bit_update f value hne).trans hb)
  rw [roundTrip_iff_ret hready (flsSetValue_of_request hready hr) hr', hret]
  show (callInt (Function.update f.flsArray index.toNat value index.toNat).toInt).signExtend
    64 = value ↔ _
  rw [Function.update_self, signExtend_callInt_iff, eq_neg_one_iff_toInt]

/-- Through a slot whose bit is clear only -1 makes the trip. -/
theorem roundTrip_of_clear (hactive : s.activeFiber id pid = some (a, f))
    (h0 : 0 ≤ index.toInt) (hmax : index.toInt < maxFls) (hready : lib.ready = true)
    (halloc : env.kmalloc .flsArg = true) (hb : f.bit index.toNat = some false) :
    RoundTrip lib s id pid index value env env' ↔ value = -1 := by
  obtain ⟨r, hr, _, hclear⟩ := @flsSetValue_writes s id pid f a 0
    { env with flsArg := ⟨index, value⟩ } hactive h0 hmax halloc
  have hsame := @activeFiber_of_eq s (s.resume id pid r) id pid (hclear hb)
  rw [hactive] at hsame
  obtain ⟨r', hr', _, hfail⟩ := @flsGetValue_returns _ id pid _ a index env' hsame h0 hmax
  have hone : ((-1 : BitVec 32).signExtend 64 : Word) = -1 := by decide
  rw [roundTrip_iff_ret hready (flsSetValue_of_request hready hr) hr', hfail hb,
    callInt_of_errno (by decide), hone]
  exact eq_comm

/-- A value that was set comes back when the bit of the slot is set and the value
makes the trip through an `int`.  The value -1 always comes back. -/
theorem roundTrip_iff {context : Pid × Pid → Context} {as : List Action}
    (h : Run Step (System.init context) as s) (hactive : s.activeFiber id pid = some (a, f))
    (h0 : 0 ≤ index.toInt) (hmax : index.toInt < maxFls) (lib : Library) (value : Word)
    (env env' : Env) :
    RoundTrip lib s id pid index value env env' ↔
      if lib.ready then
        env.kmalloc .flsArg = true ∧ (value = -1 ∨ f.bit index.toNat = some true ∧
          ¬ IsErrno value.toInt ∧ -2 ^ 31 ≤ value.toInt ∧ value.toInt < 2 ^ 31)
      else value = -1 := by
  have hok := kernelOk_run h
  obtain ⟨_, hlt⟩ := toNat_of_inRange h0 hmax
  obtain ⟨b, hb⟩ := Option.isSome_iff_exists.mp (bit_isSome f hlt)
  cases hready : lib.ready with
  | false => exact roundTrip_of_not_ready hready
  | true =>
    rw [if_pos rfl]
    cases halloc : env.kmalloc .flsArg with
    | false => simp [not_roundTrip_of_null hready halloc]
    | true =>
      cases b with
      | true =>
        rw [roundTrip_of_bit hok hactive h0 hmax hready halloc hb]
        simp only [hb, true_and]
      | false =>
        rw [roundTrip_of_clear hactive h0 hmax hready halloc hb]
        simp [hb]

/-- Everything succeeds, and new memory is clear. -/
def Env.clear : Env := Env.good ⟨0, 0, 0⟩ ⟨0, 0⟩ 0

/-- `roundTrip_iff` for the value 3 in the first slot. -/
theorem roundTrip_three : ∃ (s : System) (as : List Action) (a : ℕ) (f : FiberArg),
    Run Step (System.init zeroContext) as s ∧ s.activeFiber 7 7 = some (a, f) ∧
    f.bit 0 = some true ∧ RoundTrip ⟨false, true⟩ s 7 7 0 3 Env.clear Env.clear := by
  obtain ⟨s, hrun, hp⟩ := Lib.exists_run System.exec (fun _ _ => true) (System.init zeroContext)
    [.ioctl 7 7 .convertToFiber 0 Env.clear, .ioctl 7 7 .flsAlloc 0 Env.clear]
    (fun s => (s.activeFiber 7 7).any fun af => af.2.bit 0 == some true) (by decide +kernel)
  have hstep : Run Step (System.init zeroContext) _ s := hrun.mono fun _ _ _ h => h.2
  obtain ⟨⟨a, f⟩, hactive, hbit⟩ := (Option.any_eq_true _ _).mp hp
  have hbit : f.bit 0 = some true := eq_of_beq hbit
  refine ⟨s, _, a, f, hstep, hactive, hbit,
    (roundTrip_iff hstep hactive (by decide) (by decide) _ 3 Env.clear Env.clear).mpr ?_⟩
  exact ⟨rfl, Or.inr ⟨hbit, by decide, by decide, by decide⟩⟩

/-- The value 2^31 comes back with the upper half of its bits set. -/
theorem value_sign_extended : ∃ (s t u : System) (as : List Action) (a : ℕ) (f : FiberArg),
    Run Step (System.init zeroContext) as s ∧ s.activeFiber 7 7 = some (a, f) ∧
    f.bit 0 = some true ∧
    Library.flsSetValue ⟨true, true⟩ s 7 7 0 0x80000000 Env.clear = .ok t ∧
    Library.flsGetValue ⟨true, true⟩ t 7 7 0 Env.clear = .ok (0xFFFFFFFF80000000, u) ∧
    ¬ RoundTrip ⟨true, true⟩ s 7 7 0 0x80000000 Env.clear Env.clear := by
  obtain ⟨s, hrun, hp⟩ := Lib.exists_run System.exec (fun _ _ => true) (System.init zeroContext)
    [.ioctl 7 7 .convertToFiber 0 Env.clear, .ioctl 7 7 .flsAlloc 0 Env.clear]
    (fun s => ((s.activeFiber 7 7).any fun af => af.2.bit 0 == some true) &&
      (Library.flsSetValue ⟨true, true⟩ s 7 7 0 0x80000000 Env.clear).toOption.any fun t =>
        (Library.flsGetValue ⟨true, true⟩ t 7 7 0 Env.clear).toOption.any fun vu =>
          vu.1 == 0xFFFFFFFF80000000) (by decide +kernel)
  obtain ⟨hany, hp⟩ := Bool.and_eq_true_iff.mp hp
  obtain ⟨⟨a, f⟩, hactive, hbit⟩ := (Option.any_eq_true _ _).mp hany
  obtain ⟨t, ht, hp⟩ := of_toOption_any hp
  obtain ⟨⟨value, u⟩, hu, hp⟩ := of_toOption_any hp
  rw [show value = 0xFFFFFFFF80000000 from eq_of_beq hp] at hu
  refine ⟨s, t, u, _, a, f, hrun.mono fun _ _ _ h => h.2, hactive, eq_of_beq hbit, ht, hu, ?_⟩
  rintro ⟨t', u', ht', hu'⟩
  rw [ht] at ht'
  cases ht'
  rw [hu] at hu'
  cases hu'

end LinuxFibers.Single
