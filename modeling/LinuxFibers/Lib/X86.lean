import LinuxFibers.Lib.ByteMemory
import Mathlib.Logic.Function.Basic

/-!
# Some instructions of x86-64

The general-purpose registers, the status flags, the image of the FPU, the memory and
the instructions that move data between them.  A program is a list of instructions
that ends with `ret`.

* The FPU is the image of 512 bytes that `fxsave` writes and `fxrstor` reads.
* `fxsave` and `fxrstor` need an address that is a multiple of 16, and fault
  otherwise.  No other access faults.
* The auxiliary carry flag is undefined after `xor`.  Here it is kept.
-/

namespace LinuxFibers.Lib.X86

abbrev Word := BitVec 64

abbrev Byte := BitVec 8

/-- The general-purpose registers. -/
inductive Reg where
  | rax | rcx | rdx | rbx | rsp | rbp | rsi | rdi
  | r8 | r9 | r10 | r11 | r12 | r13 | r14 | r15
  deriving DecidableEq

/-- The status flags. -/
structure Flags where
  sf : Bool
  zf : Bool
  af : Bool
  pf : Bool
  cf : Bool
  of : Bool
  deriving DecidableEq

/-- The state of a processor and its memory.  `rip` is where the last `ret` goes. -/
structure Machine where
  regs : Reg → Word
  flags : Flags
  fpu : BitVec (8 * 512)
  mem : ByteMemory
  rip : Word

/-- The instructions, with the operands in the order of the assembler: `load 8 rax rdx`
is `movq 8(%rax), %rdx`.  The byte instructions are on the lowest byte of a register. -/
inductive Instr where
  | pushq (src : Reg)
  | popq (dst : Reg)
  | movq (src dst : Reg)
  | load (disp : ℕ) (base dst : Reg)
  | store (src : Reg) (disp : ℕ) (base : Reg)
  | addq (imm : Word) (dst : Reg)
  | addqMem (imm : Word) (disp : ℕ) (base : Reg)
  | addb (imm : Byte) (dst : Reg)
  | xorq (src dst : Reg)
  | lahf
  | sahf
  | seto (dst : Reg)
  | fxsave (disp : ℕ) (base : Reg)
  | fxrstor (disp : ℕ) (base : Reg)
  | ret
  deriving DecidableEq

/-! ## Words and bytes -/

/-- A load of a quadword. -/
def load64 (m : ByteMemory) (a : Word) : Word := m.load 8 a

/-- A store of a quadword. -/
def store64 (m : ByteMemory) (a v : Word) : ByteMemory := m.store 8 a v

/-- The lowest byte, as `%al` of `%rax`. -/
def low (w : Word) : Byte := w.extractLsb' 0 8

/-- The second byte, as `%ah` of `%rax`. -/
def high (w : Word) : Byte := w.extractLsb' 8 8

/-- The word with another lowest byte. -/
def withLow (w : Word) (b : Byte) : Word := (w.extractLsb' 8 56 ++ b : BitVec (56 + 8))

/-- The word with another second byte. -/
def withHigh (w : Word) (b : Byte) : Word :=
  (w.extractLsb' 16 48 ++ (b ++ low w : BitVec (8 + 8)) : BitVec (48 + (8 + 8)))

/-! ## Flags -/

/-- The parity flag of a result. -/
def evenParity (b : Byte) : Bool := (List.range 8).countP (fun i => b.getLsbD i) % 2 == 0

/-- The flags after an addition. -/
def addFlags {w : ℕ} (x y : BitVec w) : Flags where
  sf := (x + y).msb
  zf := x + y == 0
  af := decide (16 ≤ x.toNat % 16 + y.toNat % 16)
  pf := evenParity ((x + y).setWidth 8)
  cf := decide (2 ^ w ≤ x.toNat + y.toNat)
  of := x.msb == y.msb && (x + y).msb != x.msb

/-- The flags after `xor`. -/
def xorFlags (f : Flags) (x y : Word) : Flags where
  sf := (x ^^^ y).msb
  zf := x ^^^ y == 0
  af := f.af
  pf := evenParity (low (x ^^^ y))
  cf := false
  of := false

/-- The byte that `lahf` loads. -/
def ahOf (f : Flags) : Byte :=
  BitVec.ofBoolListLE [f.cf, true, f.pf, false, f.af, false, f.zf, f.sf]

/-- The flags that `sahf` sets. -/
def flagsOf (ah : Byte) (of : Bool) : Flags where
  sf := ah.getLsbD 7
  zf := ah.getLsbD 6
  af := ah.getLsbD 4
  pf := ah.getLsbD 2
  cf := ah.getLsbD 0
  of := of

/-! ## Execution -/

namespace Machine

def setReg (m : Machine) (r : Reg) (v : Word) : Machine :=
  { m with regs := Function.update m.regs r v }

def setMem (m : Machine) (mem : ByteMemory) : Machine := { m with mem := mem }

def setFlags (m : Machine) (f : Flags) : Machine := { m with flags := f }

def setFpu (m : Machine) (fpu : BitVec (8 * 512)) : Machine := { m with fpu := fpu }

def setRip (m : Machine) (rip : Word) : Machine := { m with rip := rip }

/-- The address `disp(base)`. -/
def address (m : Machine) (disp : ℕ) (base : Reg) : Word := m.regs base + BitVec.ofNat 64 disp

/-- The word on the top of the stack is written. -/
def push (m : Machine) (v : Word) : Machine :=
  (m.setMem (store64 m.mem (m.regs .rsp - 8#64) v)).setReg .rsp (m.regs .rsp - 8#64)

end Machine

/-- One instruction. -/
def exec (m : Machine) : Instr → Option Machine
  | .pushq src => some (m.push (m.regs src))
  | .popq dst =>
      some ((m.setReg .rsp (m.regs .rsp + 8#64)).setReg dst (load64 m.mem (m.address 0 .rsp)))
  | .movq src dst => some (m.setReg dst (m.regs src))
  | .load disp base dst => some (m.setReg dst (load64 m.mem (m.address disp base)))
  | .store src disp base => some (m.setMem (store64 m.mem (m.address disp base) (m.regs src)))
  | .addq imm dst =>
      some ((m.setReg dst (m.regs dst + imm)).setFlags (addFlags (m.regs dst) imm))
  | .addqMem imm disp base =>
      let v := load64 m.mem (m.address disp base)
      some ((m.setMem (store64 m.mem (m.address disp base) (v + imm))).setFlags (addFlags v imm))
  | .addb imm dst =>
      some ((m.setReg dst (withLow (m.regs dst) (low (m.regs dst) + imm))).setFlags
        (addFlags (low (m.regs dst)) imm))
  | .xorq src dst =>
      some ((m.setReg dst (m.regs dst ^^^ m.regs src)).setFlags
        (xorFlags m.flags (m.regs dst) (m.regs src)))
  | .lahf => some (m.setReg .rax (withHigh (m.regs .rax) (ahOf m.flags)))
  | .sahf => some (m.setFlags (flagsOf (high (m.regs .rax)) m.flags.of))
  | .seto dst => some (m.setReg dst (withLow (m.regs dst) (if m.flags.of then 1 else 0)))
  | .fxsave disp base =>
      if (m.address disp base).toNat % 16 = 0 then
        some (m.setMem (m.mem.store 512 (m.address disp base) m.fpu))
      else none
  | .fxrstor disp base =>
      if (m.address disp base).toNat % 16 = 0 then
        some (m.setFpu (m.mem.load 512 (m.address disp base)))
      else none
  | .ret =>
      some ((m.setReg .rsp (m.regs .rsp + 8#64)).setRip (load64 m.mem (m.address 0 .rsp)))

/-- The instructions of a routine. -/
def run : List Instr → Machine → Option Machine
  | [], m => some m
  | i :: is, m => (exec m i).bind (run is)

theorem run_append (is js : List Instr) (m : Machine) :
    run (is ++ js) m = (run is m).bind (run js) := by
  induction is generalizing m with
  | nil => rfl
  | cons i is ih =>
      show (exec m i).bind (run (is ++ js)) = ((exec m i).bind (run is)).bind (run js)
      cases exec m i with
      | none => rfl
      | some m' => exact ih m'

namespace Machine

variable {m : Machine} {r r' : Reg} {v : Word} {mem mem' : ByteMemory} {f f' : Flags}
  {fpu : BitVec (8 * 512)}

@[simp] theorem regs_setReg : (m.setReg r v).regs r' = if r' = r then v else m.regs r' :=
  Function.update_apply m.regs r v r'

@[simp] theorem flags_setReg : (m.setReg r v).flags = m.flags := rfl

@[simp] theorem fpu_setReg : (m.setReg r v).fpu = m.fpu := rfl

@[simp] theorem mem_setReg : (m.setReg r v).mem = m.mem := rfl

@[simp] theorem regs_setMem : (m.setMem mem).regs = m.regs := rfl

@[simp] theorem flags_setMem : (m.setMem mem).flags = m.flags := rfl

@[simp] theorem fpu_setMem : (m.setMem mem).fpu = m.fpu := rfl

@[simp] theorem mem_setMem : (m.setMem mem).mem = mem := rfl

@[simp] theorem regs_setFlags : (m.setFlags f).regs = m.regs := rfl

@[simp] theorem flags_setFlags : (m.setFlags f).flags = f := rfl

@[simp] theorem fpu_setFlags : (m.setFlags f).fpu = m.fpu := rfl

@[simp] theorem mem_setFlags : (m.setFlags f).mem = m.mem := rfl

@[simp] theorem regs_setFpu : (m.setFpu fpu).regs = m.regs := rfl

@[simp] theorem flags_setFpu : (m.setFpu fpu).flags = m.flags := rfl

@[simp] theorem fpu_setFpu : (m.setFpu fpu).fpu = fpu := rfl

@[simp] theorem mem_setFpu : (m.setFpu fpu).mem = m.mem := rfl

@[simp] theorem regs_setRip : (m.setRip v).regs = m.regs := rfl

@[simp] theorem flags_setRip : (m.setRip v).flags = m.flags := rfl

@[simp] theorem fpu_setRip : (m.setRip v).fpu = m.fpu := rfl

@[simp] theorem mem_setRip : (m.setRip v).mem = m.mem := rfl

@[simp] theorem rip_setRip : (m.setRip v).rip = v := rfl

/-! The updates of the memory and of the flags stand in front of those of the registers,
and only the last one of each stays. -/

@[simp] theorem setMem_setReg : (m.setReg r v).setMem mem = (m.setMem mem).setReg r v := rfl

@[simp] theorem setMem_setFlags : (m.setFlags f).setMem mem = (m.setMem mem).setFlags f := rfl

@[simp] theorem setMem_setMem : (m.setMem mem).setMem mem' = m.setMem mem' := rfl

@[simp] theorem setFlags_setReg : (m.setReg r v).setFlags f = (m.setFlags f).setReg r v := rfl

@[simp] theorem setFlags_setFlags : (m.setFlags f).setFlags f' = m.setFlags f' := rfl

end Machine

/-! ## Loads and stores of quadwords -/

theorem load64_congr {m m' : ByteMemory} {a : Word} (h : ∀ b, Within b a 8 → m b = m' b) :
    load64 m a = load64 m' a :=
  ByteMemory.load_congr (by decide) h

theorem load64_store64_self (m : ByteMemory) (a v : Word) : load64 (store64 m a v) a = v :=
  ByteMemory.load_store_self (n := 8) (by decide) m a v

theorem load64_store64_of_apart {m : ByteMemory} {a b : Word} (h : Apart a 8 b 8) (v : Word) :
    load64 (store64 m b v) a = load64 m a :=
  ByteMemory.load_store_of_apart (by decide) h v

theorem load64_store64_of_le {m : ByteMemory} {a v : Word} {i j : ℕ}
    (h : i + 8 ≤ j ∨ j + 8 ≤ i) (hi : i + 8 ≤ 2 ^ 64) (hj : j + 8 ≤ 2 ^ 64) :
    load64 (store64 m (a + BitVec.ofNat 64 j) v) (a + BitVec.ofNat 64 i) =
      load64 m (a + BitVec.ofNat 64 i) :=
  load64_store64_of_apart (apart_add h hi hj) v

/-- A word of one range and a word of another. -/
theorem load64_store64_of_part {m : ByteMemory} {a b v : Word} {n k i j : ℕ} (h : Apart a n b k)
    (hn : n ≤ 2 ^ 64) (hk : k ≤ 2 ^ 64) (hi : i + 8 ≤ n) (hj : j + 8 ≤ k) :
    load64 (store64 m (b + BitVec.ofNat 64 j) v) (a + BitVec.ofNat 64 i) =
      load64 m (a + BitVec.ofNat 64 i) :=
  load64_store64_of_apart (h.part hi hj hn hk) v

theorem store64_of_not_within {m : ByteMemory} {a b v : Word} {n i : ℕ} (h : ¬ Within b a n)
    (hn : n ≤ 2 ^ 64) (hi : i + 8 ≤ n) : store64 m (a + BitVec.ofNat 64 i) v b = m b :=
  ByteMemory.store_of_not_within (fun hb => h (within_part hi hn hb)) v

theorem sub_ofNat {a : Word} {i j : ℕ} (h : j ≤ i) :
    a + BitVec.ofNat 64 i - BitVec.ofNat 64 j = a + BitVec.ofNat 64 (i - j) := by
  rw [show BitVec.ofNat 64 i = BitVec.ofNat 64 (i - j) + BitVec.ofNat 64 j by
    rw [← BitVec.ofNat_add, Nat.sub_add_cancel h], ← BitVec.add_assoc, BitVec.add_sub_cancel]

theorem add_ofNat {a : Word} {i j : ℕ} :
    a + BitVec.ofNat 64 i + BitVec.ofNat 64 j = a + BitVec.ofNat 64 (i + j) := by
  rw [BitVec.add_assoc, ← BitVec.ofNat_add]

/-! ## Flags in memory -/

theorem high_withHigh (w : Word) (b : Byte) : high (withHigh w b) = b := by
  refine BitVec.eq_of_getLsbD_eq fun i hi => ?_
  rw [high, withHigh, BitVec.getLsbD_extractLsb', decide_eq_true hi, Bool.true_and]
  show BitVec.getLsbD (_ ++ (_ ++ _)) _ = _
  rw [BitVec.getLsbD_append, if_pos (by omega), BitVec.getLsbD_append, if_neg (by omega),
    Nat.add_sub_cancel_left]

theorem low_withLow (w : Word) (b : Byte) : low (withLow w b) = b := by
  refine BitVec.eq_of_getLsbD_eq fun i hi => ?_
  rw [low, withLow, BitVec.getLsbD_extractLsb', decide_eq_true hi, Bool.true_and]
  show BitVec.getLsbD (_ ++ _) _ = _
  rw [BitVec.getLsbD_append, if_pos (by omega), Nat.zero_add]

theorem high_withLow (w : Word) (b : Byte) : high (withLow w b) = high w := by
  refine BitVec.eq_of_getLsbD_eq fun i hi => ?_
  rw [high, high, withLow, BitVec.getLsbD_extractLsb', BitVec.getLsbD_extractLsb',
    decide_eq_true hi, Bool.true_and, Bool.true_and]
  show BitVec.getLsbD (_ ++ _) _ = _
  rw [BitVec.getLsbD_append, if_neg (by omega), BitVec.getLsbD_extractLsb',
    decide_eq_true (by omega), Bool.true_and]
  exact congrArg w.getLsbD (by omega)

theorem flagsOf_ahOf (f : Flags) : flagsOf (ahOf f) f.of = f := by
  simp only [flagsOf, ahOf, BitVec.getLsbD_ofBoolListLE]
  rfl

/-- Adding `0x7f` to a byte that is 0 or 1 overflows exactly for 1. -/
theorem of_addFlags_0x7f (b : Bool) : (addFlags (if b then 1 else 0 : Byte) 0x7f#8).of = b := by
  cases b <;> decide

end LinuxFibers.Lib.X86
