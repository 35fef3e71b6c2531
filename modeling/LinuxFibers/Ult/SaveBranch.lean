import LinuxFibers.Ult.Basic
import LinuxFibers.Ult.Jmp

/-!
# The branch of `context_switch`

`context_switch` saves a context and jumps to another one when `set_jmp` returns 0, and
goes on behind the macro when it returns anything else.  A fiber that is resumed by
another `context_switch` finds there the `%rax` that `_set_jmp` has saved, as an `int`:
`continues_iff`.

`takesSaveBranch_value` connects the routines with the model of the fibers, in which a
saved context is its `rax`.
-/

namespace LinuxFibers.Jmp

open LinuxFibers.Lib X86

/-- `_set_ret` of the macro `set_jmp`, behind a return to it: an `int`. -/
def setRet (m : Machine) : BitVec 32 := (m.regs .rax).setWidth 32

/-- `if(set_jmp(context_old->context) == 0)`. -/
def takesSaveBranch (m : Machine) : Bool := setRet m == 0

/-- In `l`, a `context_switch` calls
`long_jmp(context_new->context, context_new->context->rax)` for the context that `_set_jmp`
has saved in `e`, which is as it was in `s`. -/
structure SwitchCall (e s l : Machine) : Prop where
  rdi : l.regs .rdi = e.regs .rdi
  rsi : l.regs .rsi = (readContext l.mem (e.regs .rdi)).regs .rax
  context : ∀ b, Within b (e.regs .rdi) contextSize → l.mem b = s.mem b

/-- The fiber that `context_switch` saves in `e` takes the branch of the macro when
`_set_jmp` returns, and goes on behind the macro whenever another `context_switch` resumes
it. -/
def Continues (e : Machine) : Prop :=
  ∃ s, run setJmp e = some s ∧ takesSaveBranch s = true ∧
    ∀ l, SwitchCall e s l → ∃ r, run longJmp l = some r ∧ r.rip = returnAddress e ∧
      takesSaveBranch r = false

variable {e s l r : Machine}

theorem takesSaveBranch_iff : takesSaveBranch r = true ↔ (r.regs .rax).setWidth 32 = 0#32 :=
  beq_iff_eq

/-- The value of the call is the saved `%rax`. -/
theorem SwitchCall.value (h : SwitchCall e s l) (hs : Returned e s) :
    l.regs .rsi = e.regs .rax := by
  rw [h.rsi, readContext_congr h.context, hs.context]
  rfl

/-- A call as `context_switch` makes it is possible. -/
theorem exists_switchCall (e s : Machine) : ∃ l, SwitchCall e s l :=
  ⟨(s.setReg .rdi (e.regs .rdi)).setReg .rsi ((readContext s.mem (e.regs .rdi)).regs .rax),
    rfl, rfl, fun _ _ => rfl⟩

theorem switchCall_resumed (h : ValidEnv e) :
    ∃ s, run setJmp e = some s ∧ takesSaveBranch s = true ∧
      ∀ l, SwitchCall e s l → ∃ r, run longJmp l = some r ∧ r.rip = returnAddress e ∧
        r.regs .rax = e.regs .rax := by
  obtain ⟨s, hs, hreturned, hjump⟩ := setJmp_resumed h
  refine ⟨s, hs, takesSaveBranch_iff.mpr (by rw [hreturned.rax]; rfl), fun l hcall => ?_⟩
  obtain ⟨r, hr, hresumed⟩ := hjump l hcall.rdi hcall.context
  exact ⟨r, hr, hresumed.rip, hresumed.rax.trans (hcall.value hreturned)⟩

/-- `context_switch_create` and `context_restore` pass 1, which never takes the branch. -/
theorem takesSaveBranch_one (h : Resumed e l r) (hone : l.regs .rsi = 1) :
    takesSaveBranch r = false := by
  rw [takesSaveBranch, setRet, h.rax, hone]
  rfl

/-- The branch of the routines is the branch of the model of the fibers. -/
theorem takesSaveBranch_value (k : Ult.ContextSwitch) (h : Resumed e l r)
    (hvalue : l.regs .rsi = k.value (e.regs .rax)) :
    takesSaveBranch r = Ult.State.savesAgain (k.value (e.regs .rax)) := by
  rw [takesSaveBranch, setRet, h.rax, hvalue]
  rfl

/-- A fiber that is saved with 0 in the low half of `%rax` runs into the branch once more
when it is resumed. -/
theorem takesSaveBranch_of_zero (h : ValidEnv e) (hzero : (e.regs .rax).setWidth 32 = 0#32) :
    ∃ s l r, run setJmp e = some s ∧ SwitchCall e s l ∧ run longJmp l = some r ∧
      r.rip = returnAddress e ∧ takesSaveBranch r = true := by
  obtain ⟨s, hs, _, hresume⟩ := switchCall_resumed h
  obtain ⟨l, hcall⟩ := exists_switchCall e s
  obtain ⟨r, hr, hrip, hrax⟩ := hresume l hcall
  refine ⟨s, l, r, hs, hcall, hr, hrip, takesSaveBranch_iff.mpr ?_⟩
  rw [hrax]
  exact hzero

theorem not_continues_of_zero (h : ValidEnv e) (hzero : (e.regs .rax).setWidth 32 = 0#32) :
    ¬ Continues e := by
  intro hcontinues
  obtain ⟨s, l, r, hs, hcall, hr, _, hbranch⟩ := takesSaveBranch_of_zero h hzero
  obtain ⟨s', hs', _, hjump⟩ := hcontinues
  rw [hs, Option.some.injEq] at hs'
  obtain ⟨r', hr', _, hbranch'⟩ := hjump l (hs' ▸ hcall)
  rw [hr, Option.some.injEq] at hr'
  rw [← hr', hbranch] at hbranch'
  cases hbranch'

/-- A resumed fiber goes on behind the macro exactly when the low half of `%rax` was not 0
at the save. -/
theorem continues_iff (h : ValidEnv e) :
    Continues e ↔ (e.regs .rax).setWidth 32 ≠ 0#32 := by
  constructor
  · intro hcontinues hzero
    exact not_continues_of_zero h hzero hcontinues
  · intro hne
    obtain ⟨s, hs, hfirst, hresume⟩ := switchCall_resumed h
    refine ⟨s, hs, hfirst, fun l hcall => ?_⟩
    obtain ⟨r, hr, hrip, hrax⟩ := hresume l hcall
    refine ⟨r, hr, hrip, Bool.eq_false_iff.mpr fun htrue => hne ?_⟩
    rw [← hrax]
    exact takesSaveBranch_iff.mp htrue

/-- `continues_iff` for a fiber that is saved with 9 in `%rax`. -/
theorem continues_nine : Continues (enterSetJmp (exampleMachine 9) 0x1000 0x400) :=
  (continues_iff (exampleMachine_validEnv 9)).mpr (show (9#64).setWidth 32 ≠ 0#32 by decide)

/-- A fiber that is saved with `0x100000000` in `%rax`. -/
theorem takesSaveBranch_again :
    (∃ s l r, run setJmp (enterSetJmp (exampleMachine 0x100000000) 0x1000 0x400) = some s ∧
      SwitchCall (enterSetJmp (exampleMachine 0x100000000) 0x1000 0x400) s l ∧
      run longJmp l = some r ∧ takesSaveBranch r = true) ∧
    ¬ Continues (enterSetJmp (exampleMachine 0x100000000) 0x1000 0x400) := by
  have hvalid := exampleMachine_validEnv 0x100000000
  have hzero : ((0x100000000#64).setWidth 32 : BitVec 32) = 0#32 := by decide
  obtain ⟨s, l, r, hs, hcall, hr, _, hbranch⟩ := takesSaveBranch_of_zero hvalid hzero
  exact ⟨⟨s, l, r, hs, hcall, hr, hbranch⟩, not_continues_of_zero hvalid hzero⟩

end LinuxFibers.Jmp
