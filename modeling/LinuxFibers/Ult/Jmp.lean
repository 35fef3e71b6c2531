import LinuxFibers.Lib.X86

/-!
# `_set_jmp` and `_long_jmp`

The two routines of `jmp.S`, instruction by instruction, and the macro `set_jmp` of
`jmp.h`.  `setJmp_spec` says which `exec_context_t` the first one writes, and
`longJmp_spec` what the second one does with any `exec_context_t`.
`longJmp_setJmp` puts the two together.
-/

namespace LinuxFibers.Jmp

open LinuxFibers.Lib X86

/-! ## `exec_context_t` -/

/-- `exec_context_t`. -/
structure ExecContext where
  regs : Reg → Word
  rip : Word
  flags : Word
  others : BitVec (8 * 512)

/-- The offset of the field of a register in `exec_context_t`. -/
def offset : Reg → ℕ
  | .rax => 0
  | .rdx => 8
  | .rcx => 16
  | .rbx => 24
  | .rsp => 32
  | .rbp => 40
  | .rsi => 48
  | .rdi => 56
  | .r8 => 64
  | .r9 => 72
  | .r10 => 80
  | .r11 => 88
  | .r12 => 96
  | .r13 => 104
  | .r14 => 112
  | .r15 => 120

/-- `sizeof(exec_context_t)`. -/
def contextSize : ℕ := 656

/-- The context at an address. -/
def readContext (mem : ByteMemory) (env : Word) : ExecContext where
  regs r := load64 mem (env + BitVec.ofNat 64 (offset r))
  rip := load64 mem (env + 128#64)
  flags := load64 mem (env + 136#64)
  others := mem.load 512 (env + 144#64)

/-! ## The routines -/

/-- `_set_jmp`, up to the flags. -/
def setJmpFlags : List Instr :=
  [.pushq .rax,
   .pushq .r11,
   .lahf,
   .seto .rax,
   .pushq .rax]

/-- `_set_jmp`, the general-purpose registers, the flags and the return address. -/
def setJmpSave : List Instr :=
  [.movq .rdi .rax,
   .load 16 .rsp .r11,
   .store .r11 0 .rax,
   .store .rdx 8 .rax,
   .store .rcx 16 .rax,
   .store .rbx 24 .rax,
   .store .rsp 32 .rax,
   .addqMem 16#64 32 .rax,
   .store .rbp 40 .rax,
   .store .rsi 48 .rax,
   .load 32 .rsp .r11,
   .store .r11 56 .rax,
   .store .r8 64 .rax,
   .store .r9 72 .rax,
   .store .r10 80 .rax,
   .load 8 .rsp .r11,
   .store .r11 88 .rax,
   .store .r12 96 .rax,
   .store .r13 104 .rax,
   .store .r14 112 .rax,
   .store .r15 120 .rax,
   .load 0 .rsp .rdx,
   .store .rdx 136 .rax,
   .load 24 .rsp .r11,
   .store .r11 128 .rax]

/-- `_set_jmp`, from `fxsave` on. -/
def setJmpReturn : List Instr :=
  [.fxsave 144 .rax,
   .addq 24#64 .rsp,
   .xorq .rax .rax,
   .ret]

/-- `_set_jmp`. -/
def setJmp : List Instr := setJmpFlags ++ (setJmpSave ++ setJmpReturn)

/-- `_long_jmp`. -/
def longJmp : List Instr :=
  [.movq .rdi .rax,
   .load 128 .rax .r10,
   .load 32 .rax .r11,
   .store .r10 8 .r11,
   .store .rsi 0 .r11,
   .load 8 .rax .rdx,
   .load 16 .rax .rcx,
   .load 24 .rax .rbx,
   .load 32 .rax .rsp,
   .load 40 .rax .rbp,
   .load 48 .rax .rsi,
   .load 64 .rax .r8,
   .load 72 .rax .r9,
   .load 80 .rax .r10,
   .load 88 .rax .r11,
   .load 96 .rax .r12,
   .load 104 .rax .r13,
   .load 112 .rax .r14,
   .load 136 .rax .rax,
   .addb 0x7f#8 .rax,
   .sahf,
   .movq .rdi .rax,
   .load 56 .rax .rdi,
   .load 120 .rax .r15,
   .fxrstor 144 .rax,
   .load 32 .rax .rsp,
   .popq .rax,
   .ret]

/-! ## The macro -/

/-- `set_jmp(env)` up to the entry of `_set_jmp`: the push of `%rdi`, the argument and the
call, which pushes `ret`. -/
def enterSetJmp (m : Machine) (env ret : Word) : Machine :=
  ((m.push (m.regs .rdi)).setReg .rdi env).push ret

/-- The return address, at the entry of `_set_jmp`. -/
def returnAddress (e : Machine) : Word := load64 e.mem (e.regs .rsp)

/-- The word that the macro has pushed, at the entry of `_set_jmp`. -/
def pushedRdi (e : Machine) : Word := load64 e.mem (e.regs .rsp + 8#64)

/-- What `_set_jmp` finds when the macro was used in `m`. -/
theorem enterSetJmp_spec (m : Machine) (env ret : Word) :
    returnAddress (enterSetJmp m env ret) = ret ∧
      pushedRdi (enterSetJmp m env ret) = m.regs .rdi ∧
      (enterSetJmp m env ret).regs .rdi = env ∧
      (enterSetJmp m env ret).regs .rsp = m.regs .rsp - 16#64 ∧
      (enterSetJmp m env ret).flags = m.flags ∧ (enterSetJmp m env ret).fpu = m.fpu ∧
      ∀ r, r ≠ .rdi → r ≠ .rsp → (enterSetJmp m env ret).regs r = m.regs r := by
  have hsp : m.regs .rsp = m.regs .rsp - 16#64 + 16#64 := by rw [BitVec.sub_add_cancel]
  generalize m.regs .rsp - 16#64 = sp at hsp
  simp (disch := decide) only [enterSetJmp, returnAddress, pushedRdi, Machine.push,
    Machine.regs_setReg, Machine.mem_setReg, Machine.regs_setMem, Machine.mem_setMem,
    Machine.setMem_setReg, reduceCtorEq, if_true, if_false, hsp, sub_ofNat, add_ofNat,
    Nat.reduceSub, Nat.reduceAdd, load64_store64_self, load64_store64_of_le, true_and]
  refine ⟨BitVec.add_zero sp, rfl, rfl, fun r hrdi hrsp => ?_⟩
  rw [if_neg hrsp, if_neg hrdi, if_neg hrsp]

/-- The word of the flags that `_set_jmp` saves: `lahf` and `seto` into `%rax`. -/
def flagsWord (e : Machine) : Word :=
  withLow (withHigh (e.regs .rax) (ahOf e.flags)) (if e.flags.of then 1 else 0)

/-- A context depends on its bytes. -/
theorem readContext_congr {mem mem' : ByteMemory} {env : Word}
    (h : ∀ b, Within b env contextSize → mem b = mem' b) :
    readContext mem env = readContext mem' env := by
  have hword : ∀ d, d + 8 ≤ contextSize →
      load64 mem (env + BitVec.ofNat 64 d) = load64 mem' (env + BitVec.ofNat 64 d) := fun d hd =>
    load64_congr fun b hb => h b (within_part hd (by decide) hb)
  have hregs : ∀ r, offset r + 8 ≤ contextSize := fun r => by cases r <;> decide
  have hothers : mem.load 512 (env + 144#64) = mem'.load 512 (env + 144#64) :=
    ByteMemory.load_congr (by decide) fun b hb =>
      h b (within_part (show 144 + 512 ≤ contextSize by decide) (by decide) hb)
  rw [readContext, readContext, funext fun r => hword (offset r) (hregs r),
    hword 128 (by decide), hword 136 (by decide), hothers]

/-- `fxsave` writes the last field. -/
theorem readContext_fxsave (mem : ByteMemory) (env : Word) (fpu : BitVec (8 * 512)) :
    readContext (mem.store 512 (env + 144#64) fpu) env =
      { readContext mem env with others := fpu } := by
  have hword : ∀ d, d + 8 ≤ 144 →
      load64 (mem.store 512 (env + 144#64) fpu) (env + BitVec.ofNat 64 d) =
        load64 mem (env + BitVec.ofNat 64 d) := fun d hd =>
    ByteMemory.load_store_of_apart (by decide)
      (apart_add (.inl hd) (by omega) (by decide)) fpu
  have hregs : ∀ r, offset r + 8 ≤ 144 := fun r => by cases r <;> decide
  rw [readContext, readContext, funext fun r => hword (offset r) (hregs r),
    hword 128 (by decide), hword 136 (by decide), ByteMemory.load_store_self (by decide)]

/-- The context that `_set_jmp` saves. -/
def savedContext (e : Machine) : ExecContext where
  regs
    | .rsp => e.regs .rsp - 8#64
    | .rdi => pushedRdi e
    | r => e.regs r
  rip := returnAddress e
  flags := flagsWord e
  others := e.fpu

/-- The stack of `_set_jmp`, from the word of the flags to the word that the macro has
pushed. -/
def frame (e : Machine) : Word := e.regs .rsp - 24#64

/-! ## `_set_jmp` -/

theorem rsp_eq (e : Machine) : e.regs .rsp = frame e + 24#64 := by
  rw [frame, BitVec.sub_add_cancel]

/-- The machine `m` after `_set_jmp` has saved the flags. -/
structure FlagsSaved (e m : Machine) : Prop where
  regs : ∀ r, m.regs r = if r = .rsp then frame e else if r = .rax then flagsWord e else e.regs r
  fpu : m.fpu = e.fpu
  flagsWord : load64 m.mem (frame e + 0#64) = flagsWord e
  r11 : load64 m.mem (frame e + 8#64) = e.regs .r11
  rax : load64 m.mem (frame e + 16#64) = e.regs .rax
  returnAddress : load64 m.mem (frame e + 24#64) = returnAddress e
  pushedRdi : load64 m.mem (frame e + 32#64) = pushedRdi e
  mem : ∀ b, ¬ Within b (frame e) 24 → m.mem b = e.mem b

theorem setJmpFlags_spec (e : Machine) : ∃ m, run setJmpFlags e = some m ∧ FlagsSaved e m := by
  have hsp := rsp_eq e
  simp (disch := decide) only [setJmpFlags, run, exec, Machine.push, Machine.regs_setReg,
    Machine.regs_setMem, Machine.mem_setMem, Machine.mem_setReg, Machine.flags_setReg,
    Machine.flags_setMem, Machine.setMem_setReg, Machine.setMem_setMem, reduceCtorEq, if_true,
    if_false, Option.bind_some, Option.some.injEq, exists_eq_left', hsp, sub_ofNat,
    Nat.reduceSub]
  constructor
  · intro r
    cases r <;> simp only [Machine.regs_setReg, Machine.regs_setMem, reduceCtorEq, if_true,
      if_false, BitVec.add_zero]
    rfl
  · rfl
  · simp only [Machine.mem_setReg, Machine.mem_setMem, load64_store64_self]
    rfl
  · simp (disch := decide) only [Machine.mem_setReg, Machine.mem_setMem, load64_store64_self,
      load64_store64_of_le]
  · simp (disch := decide) only [Machine.mem_setReg, Machine.mem_setMem, load64_store64_self,
      load64_store64_of_le]
  · simp (disch := decide) only [Machine.mem_setReg, Machine.mem_setMem, load64_store64_of_le,
      returnAddress, hsp]
  · simp (disch := decide) only [Machine.mem_setReg, Machine.mem_setMem, load64_store64_of_le,
      pushedRdi, hsp, add_ofNat, Nat.reduceAdd]
  · intro b hb
    simp (disch := decide) only [Machine.mem_setReg, Machine.mem_setMem, store64_of_not_within hb]

/-- The machine `s` after `_set_jmp` has saved the registers of `m`, whose stack pointer is
at the word of the flags. -/
structure RegsSaved (m s : Machine) : Prop where
  saved : (readContext s.mem (m.regs .rdi)).regs = fun r => match r with
    | .rax => load64 m.mem (m.regs .rsp + 16#64)
    | .rsp => m.regs .rsp + 16#64
    | .rdi => load64 m.mem (m.regs .rsp + 32#64)
    | .r11 => load64 m.mem (m.regs .rsp + 8#64)
    | r => m.regs r
  rip : (readContext s.mem (m.regs .rdi)).rip = load64 m.mem (m.regs .rsp + 24#64)
  flags : (readContext s.mem (m.regs .rdi)).flags = load64 m.mem (m.regs .rsp + 0#64)
  rax : s.regs .rax = m.regs .rdi
  regs : ∀ r, r ∉ [Reg.rax, .rdx, .r11] → s.regs r = m.regs r
  fpu : s.fpu = m.fpu
  mem : ∀ b, ¬ Within b (m.regs .rdi) contextSize → s.mem b = m.mem b

theorem setJmpSave_spec {m : Machine} (h : Apart (m.regs .rdi) contextSize (m.regs .rsp) 40) :
    ∃ s, run setJmpSave m = some s ∧ RegsSaved m s := by
  simp (disch := decide) only [setJmpSave, run, exec, Machine.address, Option.bind_some,
    Machine.regs_setReg, Machine.mem_setReg, Machine.regs_setMem, Machine.mem_setMem,
    Machine.regs_setFlags, Machine.mem_setFlags, reduceCtorEq, if_true, if_false,
    Option.some.injEq, exists_eq_left', Machine.setMem_setReg, Machine.setMem_setFlags,
    Machine.setMem_setMem, Machine.setFlags_setReg, load64_store64_self,
    load64_store64_of_part h.symm]
  constructor
  · funext r
    cases r <;> simp (disch := decide) only [readContext, offset, Machine.mem_setReg,
      Machine.mem_setFlags, Machine.mem_setMem, load64_store64_self, load64_store64_of_le]
  · simp (disch := decide) only [readContext, offset, Machine.mem_setReg,
      Machine.mem_setFlags, Machine.mem_setMem, load64_store64_self, load64_store64_of_le]
  · simp (disch := decide) only [readContext, offset, Machine.mem_setReg,
      Machine.mem_setFlags, Machine.mem_setMem, load64_store64_self, load64_store64_of_le]
  · simp only [Machine.regs_setReg, reduceCtorEq, if_true, if_false]
  · intro r hr
    cases r <;> simp_all
  · rfl
  · intro b hb
    simp (disch := decide) only [Machine.mem_setReg, Machine.mem_setFlags, Machine.mem_setMem,
      store64_of_not_within hb]

/-- The context is complete up to its last field. -/
theorem RegsSaved.context {e m s : Machine} (h : RegsSaved m s) (hrsp : m.regs .rsp = frame e)
    (hflags : FlagsSaved e m) :
    readContext s.mem (m.regs .rdi) =
      { savedContext e with others := (readContext s.mem (m.regs .rdi)).others } := by
  have hsaved : (readContext s.mem (m.regs .rdi)).regs = (savedContext e).regs := by
    rw [h.saved, hrsp]
    funext r
    cases r with
    | rax => exact hflags.rax
    | rdi => exact hflags.pushedRdi
    | r11 => exact hflags.r11
    | rsp =>
        show _ = e.regs .rsp - 8#64
        rw [rsp_eq, sub_ofNat (by decide)]
    | _ => exact hflags.regs _
  have hrip := h.rip
  have hword := h.flags
  rw [hrsp] at hrip hword
  rw [ExecContext.mk.injEq]
  exact ⟨hsaved, hrip.trans hflags.returnAddress, hword.trans hflags.flagsWord, rfl⟩

theorem aligned_add {a : Word} (h : a.toNat % 16 = 0) : (a + 144#64).toNat % 16 = 0 := by
  rw [BitVec.toNat_add, BitVec.toNat_ofNat]
  omega

theorem setJmpReturn_spec {m : Machine} (h : (m.regs .rax).toNat % 16 = 0) :
    ∃ s, run setJmpReturn m = some s ∧
      s.mem = m.mem.store 512 (m.regs .rax + 144#64) m.fpu ∧
      s.rip = load64 s.mem (m.regs .rsp + 24#64) ∧ s.regs .rsp = m.regs .rsp + 32#64 ∧
      s.regs .rax = 0 ∧ ∀ r, r ≠ .rax → r ≠ .rsp → s.regs r = m.regs r := by
  simp only [setJmpReturn, run, exec, Machine.address, aligned_add h, if_true, if_false,
    Option.bind_some, Option.some.injEq, exists_eq_left', reduceCtorEq, Machine.regs_setReg,
    Machine.regs_setMem, Machine.mem_setReg, Machine.mem_setMem, Machine.regs_setFlags,
    Machine.mem_setFlags, Machine.setFlags_setReg, Machine.setFlags_setFlags,
    Machine.regs_setRip, Machine.mem_setRip, Machine.rip_setRip, add_ofNat, Nat.reduceAdd,
    BitVec.xor_self, true_and]
  refine ⟨rfl, fun r hrax hrsp => ?_⟩
  rw [if_neg hrsp, if_neg hrax, if_neg hrsp]

/-- The machine `s` after `_set_jmp` was called in `e`. -/
structure Returned (e s : Machine) : Prop where
  context : readContext s.mem (e.regs .rdi) = savedContext e
  rip : s.rip = returnAddress e
  rsp : s.regs .rsp = e.regs .rsp + 8#64
  rax : s.regs .rax = 0
  regs : ∀ r, r ∉ [Reg.rax, .rdx, .r11, .rsp] → s.regs r = e.regs r
  mem : ∀ b, ¬ Within b (e.regs .rdi) contextSize → ¬ Within b (frame e) 24 → s.mem b = e.mem b

theorem setJmp_spec {e : Machine} (hEnv : (e.regs .rdi).toNat % 16 = 0)
    (hApart : Apart (e.regs .rdi) contextSize (frame e) 40) :
    ∃ s, run setJmp e = some s ∧ Returned e s := by
  obtain ⟨m, hm, hflags⟩ := setJmpFlags_spec e
  have hrdi : m.regs .rdi = e.regs .rdi := hflags.regs .rdi
  have hrsp : m.regs .rsp = frame e := hflags.regs .rsp
  obtain ⟨m', hm', hsaved⟩ := setJmpSave_spec (m := m) (by rw [hrdi, hrsp]; exact hApart)
  have hrsp' : m'.regs .rsp = frame e := (hsaved.regs .rsp (by decide)).trans hrsp
  obtain ⟨s, hs, hmem, hrip, hsp, hrax, hregs⟩ :=
    setJmpReturn_spec (m := m') (by rw [hsaved.rax, hrdi]; exact hEnv)
  refine ⟨s, ?_, ?_⟩
  · rw [setJmp, run_append, hm, Option.bind_some, run_append, hm', Option.bind_some]
    exact hs
  have hmem' : ∀ b, ¬ Within b (e.regs .rdi) contextSize → s.mem b = m.mem b := by
    intro b hb
    rw [hmem, hsaved.rax, hrdi, ByteMemory.store_of_not_within
      (fun hin => hb (within_part (show 144 + 512 ≤ contextSize by decide) (by decide) hin))]
    exact hsaved.mem b (by rw [hrdi]; exact hb)
  constructor
  · rw [hmem, hsaved.rax, hrdi, readContext_fxsave, hsaved.fpu, hflags.fpu, ← hrdi]
    rw [hsaved.context hrsp hflags]
    rfl
  · rw [hrip, hrsp', ← hflags.returnAddress]
    exact load64_congr fun b hb => hmem' b fun hin =>
      hApart b hin (within_part (show 24 + 8 ≤ 40 by decide) (by decide) hb)
  · rw [hsp, hrsp', rsp_eq, add_ofNat]
  · exact hrax
  · intro r hr
    simp only [List.mem_cons, List.not_mem_nil, or_false, not_or] at hr
    obtain ⟨hrax', hrdx, hr11, hrsp''⟩ := hr
    rw [hregs r hrax' hrsp'', hsaved.regs r (by simp [hrax', hrdx, hr11]), hflags.regs r,
      if_neg hrsp'', if_neg hrax']
  · intro b hEnv hFrame
    exact (hmem' b hEnv).trans (hflags.mem b hFrame)

/-! ## `_long_jmp` -/

/-- The machine `r` after `_long_jmp` was called in `l` with the context `c`. -/
structure Jumped (c : ExecContext) (l r : Machine) : Prop where
  rip : r.rip = c.rip
  rsp : r.regs .rsp = c.regs .rsp + 16#64
  rax : r.regs .rax = l.regs .rsi
  regs : ∀ q, q ∉ [Reg.rax, .rsp] → r.regs q = c.regs q
  flags : r.flags = flagsOf (high c.flags) (addFlags (low c.flags) 0x7f#8).of
  fpu : r.fpu = c.others
  mem : ∀ b, ¬ Within b (c.regs .rsp) 16 → r.mem b = l.mem b

theorem longJmp_spec {l : Machine} {c : ExecContext} (hc : readContext l.mem (l.regs .rdi) = c)
    (hEnv : (l.regs .rdi).toNat % 16 = 0)
    (hApart : Apart (l.regs .rdi) contextSize (c.regs .rsp) 16) :
    ∃ r, run longJmp l = some r ∧ Jumped c l r := by
  have hsp : load64 l.mem (l.regs .rdi + 32#64) = c.regs .rsp := by rw [← hc]; rfl
  have hfpu : ∀ mem v d, d + 8 ≤ 16 →
      (store64 mem (c.regs .rsp + BitVec.ofNat 64 d) v).load 512 (l.regs .rdi + 144#64) =
        mem.load 512 (l.regs .rdi + 144#64) := fun mem v d hd =>
    ByteMemory.load_store_of_apart (by decide)
      (hApart.part (show 144 + 512 ≤ contextSize by decide) hd (by decide) (by decide)) v
  simp (disch := decide) only [longJmp, run, exec, Machine.address, aligned_add hEnv, if_true,
    if_false, Option.bind_some, Option.some.injEq, exists_eq_left', reduceCtorEq,
    Machine.regs_setReg, Machine.regs_setMem, Machine.mem_setReg, Machine.mem_setMem,
    Machine.regs_setFlags, Machine.mem_setFlags, Machine.flags_setFlags, Machine.flags_setReg,
    Machine.setMem_setReg, Machine.setMem_setMem, Machine.setFlags_setReg,
    Machine.setFlags_setFlags, Machine.regs_setFpu, Machine.mem_setFpu, hsp,
    load64_store64_of_part hApart, load64_store64_self, load64_store64_of_le, add_ofNat,
    Nat.reduceAdd, hfpu]
  constructor
  · rw [Machine.rip_setRip, ← hc]
    rfl
  · simp only [Machine.regs_setReg, Machine.regs_setRip, if_true]
  · simp only [Machine.regs_setReg, Machine.regs_setRip, reduceCtorEq, if_true, if_false]
  · intro q hq
    rw [← hc]
    cases q with
    | rax => exact absurd hq (by decide)
    | rsp => exact absurd hq (by decide)
    | _ =>
        simp only [Machine.regs_setReg, Machine.regs_setRip, Machine.regs_setFpu, reduceCtorEq,
          if_true, if_false]
        rfl
  · simp only [Machine.flags_setReg, Machine.flags_setRip, Machine.flags_setFpu,
      Machine.flags_setFlags, high_withLow]
    rw [← hc]
    rfl
  · simp only [Machine.fpu_setReg, Machine.fpu_setRip, Machine.fpu_setFpu]
    rw [← hc]
    rfl
  · intro b hb
    simp (disch := decide) only [Machine.mem_setReg, Machine.mem_setRip, Machine.mem_setFpu,
      Machine.mem_setFlags, Machine.mem_setMem, store64_of_not_within hb]

/-! ## The round trip -/

/-- `env` as `set_jmp` needs it, at the entry of `_set_jmp`: aligned as the type
`exec_context_t` is, and distinct from the words of the stack that are used. -/
structure ValidEnv (e : Machine) : Prop where
  aligned : (e.regs .rdi).toNat % 16 = 0
  apart : Apart (e.regs .rdi) contextSize (frame e) 40

theorem ValidEnv.apart_saved {e : Machine} (h : ValidEnv e) :
    Apart (e.regs .rdi) contextSize ((savedContext e).regs .rsp) 16 := by
  show Apart (e.regs .rdi) contextSize (e.regs .rsp - 8#64) 16
  have hpart : Apart (e.regs .rdi + 0#64) contextSize (frame e + 16#64) 16 :=
    h.apart.part (by decide) (by decide) (by decide) (by decide)
  rw [BitVec.add_zero] at hpart
  rw [rsp_eq, sub_ofNat (by decide)]
  exact hpart

/-- What the code behind the call of `_set_jmp` in `e` finds when `_long_jmp` was called in
`l`: the stack pointer as `_set_jmp` left it, the value, `%rdi` as the macro pushed it, the
other registers, the flags and the FPU as they were in `e`, and the memory as `_long_jmp`
found it, except for the two words below the stack pointer. -/
structure Resumed (e l r : Machine) : Prop where
  rip : r.rip = returnAddress e
  rsp : r.regs .rsp = e.regs .rsp + 8#64
  rax : r.regs .rax = l.regs .rsi
  rdi : r.regs .rdi = pushedRdi e
  regs : ∀ q, q ∉ [Reg.rax, .rdi, .rsp] → r.regs q = e.regs q
  flags : r.flags = e.flags
  fpu : r.fpu = e.fpu
  mem : ∀ b, ¬ Within b (r.regs .rsp - 16#64) 16 → r.mem b = l.mem b

theorem Jumped.resumed {e l r : Machine} (h : Jumped (savedContext e) l r) : Resumed e l r where
  rip := h.rip
  rsp := by
    rw [h.rsp]
    show e.regs .rsp - 8#64 + 16#64 = _
    rw [rsp_eq, sub_ofNat (by decide), add_ofNat, add_ofNat]
  rax := h.rax
  rdi := h.regs .rdi (by decide)
  regs q hq := by
    simp only [List.mem_cons, List.not_mem_nil, or_false, not_or] at hq
    rw [h.regs q (by simp [hq])]
    cases q <;> first | rfl | exact absurd rfl hq.2.1 | exact absurd rfl hq.2.2
  flags := by
    rw [h.flags]
    show flagsOf (high (flagsWord e)) (addFlags (low (flagsWord e)) 0x7f#8).of = e.flags
    rw [flagsWord, high_withLow, high_withHigh, low_withLow, of_addFlags_0x7f, flagsOf_ahOf]
  fpu := h.fpu
  mem b hb := by
    refine h.mem b ?_
    rw [h.rsp, BitVec.add_sub_cancel] at hb
    exact hb

theorem setJmp_resumed {e : Machine} (h : ValidEnv e) :
    ∃ s, run setJmp e = some s ∧ Returned e s ∧
      ∀ l : Machine, l.regs .rdi = e.regs .rdi →
        (∀ b, Within b (e.regs .rdi) contextSize → l.mem b = s.mem b) →
        ∃ r, run longJmp l = some r ∧ Resumed e l r := by
  obtain ⟨s, hs, hreturned⟩ := setJmp_spec h.aligned h.apart
  refine ⟨s, hs, hreturned, fun l hrdi hmem => ?_⟩
  have hcontext : readContext l.mem (l.regs .rdi) = savedContext e := by
    rw [hrdi, readContext_congr hmem]
    exact hreturned.context
  obtain ⟨r, hr, hjumped⟩ := longJmp_spec hcontext (by rw [hrdi]; exact h.aligned)
    (by rw [hrdi]; exact h.apart_saved)
  exact ⟨r, hr, hjumped.resumed⟩

/-- The round trip of `set_jmp` and `long_jmp`. -/
theorem longJmp_setJmp {e : Machine} (h : ValidEnv e) :
    ∃ s, run setJmp e = some s ∧ s.rip = returnAddress e ∧ s.regs .rsp = e.regs .rsp + 8#64 ∧
      ∀ l : Machine, l.regs .rdi = e.regs .rdi →
        (∀ b, Within b (e.regs .rdi) contextSize → l.mem b = s.mem b) →
        ∃ r, run longJmp l = some r ∧ Resumed e l r := by
  obtain ⟨s, hs, hreturned, hjump⟩ := setJmp_resumed h
  exact ⟨s, hs, hreturned.rip, hreturned.rsp, hjump⟩

/-- A machine before the macro, whose stack is at `0x8000`. -/
def exampleMachine (rax : Word) : Machine :=
  ⟨fun r => if r = .rsp then 0x8000 else if r = .rax then rax else 7,
    ⟨true, false, true, false, true, true⟩, 3, fun _ => 0, 0⟩

theorem exampleMachine_validEnv (rax : Word) :
    ValidEnv (enterSetJmp (exampleMachine rax) 0x1000 0x400) where
  aligned := show (0x1000#64).toNat % 16 = 0 by decide
  apart := apart_of_le (a := 0x1000#64) (b := 0x8000#64 - 8#64 - 8#64 - 24#64) (by decide)
    (by decide)

/-- `longJmp_setJmp` for a jump with the value 5 from the machine that `_set_jmp` leaves. -/
theorem longJmp_setJmp_five :
    ∃ l r, l.regs .rsi = 5 ∧ run longJmp l = some r ∧ r.rip = 0x400 ∧ r.regs .rax = 5 ∧
      r.regs .rdi = 7 ∧ r.regs .rbx = 7 ∧ r.flags = ⟨true, false, true, false, true, true⟩ := by
  obtain ⟨s, _, _, _, hjump⟩ := longJmp_setJmp (exampleMachine_validEnv 0)
  obtain ⟨r, hr, hresumed⟩ := hjump ((s.setReg .rdi 0x1000).setReg .rsi 5) rfl (fun _ _ => rfl)
  obtain ⟨hret, hrdi, _, _, hflags, _, hregs⟩ := enterSetJmp_spec (exampleMachine 0) 0x1000 0x400
  refine ⟨_, r, rfl, hr, hresumed.rip.trans hret, hresumed.rax, hresumed.rdi.trans hrdi, ?_,
    hresumed.flags.trans hflags⟩
  exact (hresumed.regs .rbx (by decide)).trans (hregs .rbx (by decide) (by decide))

end LinuxFibers.Jmp
