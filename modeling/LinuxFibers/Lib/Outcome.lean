import Mathlib.Data.Nat.Notation

/-!
# Outcomes of calls that can fail

`Outcome allowed P x` says that the call `x` returns a value with the property
`P`, or fails with an error that is `allowed`.  It is a postcondition for both
ways in which a call can end, and nothing here knows what the errors are.

`bind` is the rule for one call after the other, and a loop is an induction over
it.  `of_ok` and `of_error` read a proved outcome back on a call that ended.
-/

namespace LinuxFibers.Lib

variable {ε α β : Type}

/-- The call returns a value with `P` or fails with an allowed error. -/
def Outcome (allowed : ε → Prop) (P : α → Prop) : Except ε α → Prop
  | .ok a => P a
  | .error e => allowed e

namespace Outcome

variable {allowed : ε → Prop} {P : α → Prop} {Q : β → Prop} {x : Except ε α}

theorem ok {a : α} (h : P a) : Outcome allowed P (.ok a) := h

theorem error {e : ε} (h : allowed e) : Outcome allowed P (.error e) := h

theorem of_ok {a : α} (h : Outcome allowed P x) (hx : x = .ok a) : P a := by
  subst hx
  exact h

theorem of_error {e : ε} (h : Outcome allowed P x) (hx : x = .error e) : allowed e := by
  subst hx
  exact h

theorem mono {P' : α → Prop} (h : Outcome allowed P x) (hle : ∀ a, P a → P' a) :
    Outcome allowed P' x := by
  cases x with
  | ok a => exact hle a h
  | error e => exact h

/-- One call after the other. -/
theorem bind {f : α → Except ε β} (h : Outcome allowed P x)
    (hf : ∀ a, P a → Outcome allowed Q (f a)) : Outcome allowed Q (x >>= f) := by
  cases x with
  | ok a => exact hf a h
  | error e => exact h

end Outcome

end LinuxFibers.Lib
