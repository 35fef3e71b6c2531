import Mathlib.Algebra.Ring.Nat
import Mathlib.Data.List.Basic
import Mathlib.Data.Nat.Notation

/-!
# The intervals of a signal

A signal that is on or off is looked at again and again.  A look is a `Sample`:
whether the signal is on from then on, and the time, read once for an interval
that ends there and once for an interval that begins there.

`timeline` collects the maximal intervals in which the signal is on: one begins
where it goes on, is not touched while it stays on, and ends where it goes off.
The signal is off before the first look.
-/

namespace LinuxFibers.Lib

/-- One look at a signal. -/
structure Sample where
  on : Bool
  stop : ℕ
  start : ℕ

/-- A completed interval. -/
structure Interval where
  start : ℕ
  stop : ℕ

/-- The start of the open interval, if there is one, and the completed intervals in
order. -/
structure Timeline where
  since : Option ℕ
  completed : List Interval

namespace Timeline

/-- Before the first look. -/
def empty : Timeline := ⟨none, []⟩

/-- The effect of one look. -/
def look (w : Timeline) (x : Sample) : Timeline :=
  match w.since, x.on with
  | none, true => ⟨some x.start, w.completed⟩
  | none, false => w
  | some _, true => w
  | some b, false => ⟨none, w.completed ++ [⟨b, x.stop⟩]⟩

/-- The completed time in whole units, each interval rounded down. -/
def units (w : Timeline) (unit : ℕ) : ℕ :=
  (w.completed.map fun i => (i.stop - i.start) / unit).sum

/-- No interval ends before it starts. -/
def Forward (w : Timeline) : Prop := ∀ i ∈ w.completed, i.start ≤ i.stop

variable {w : Timeline} {x : Sample} {b : ℕ}

theorem look_idle (h : w.since = none) (hx : x.on = false) : w.look x = w := by
  simp only [look, h, hx]

theorem look_begin (h : w.since = none) (hx : x.on = true) :
    w.look x = ⟨some x.start, w.completed⟩ := by
  simp only [look, h, hx]

theorem look_stay (h : w.since = some b) (hx : x.on = true) : w.look x = w := by
  simp only [look, h, hx]

theorem look_end (h : w.since = some b) (hx : x.on = false) :
    w.look x = ⟨none, w.completed ++ [⟨b, x.stop⟩]⟩ := by
  simp only [look, h, hx]

theorem units_append (w : Timeline) (o : Option ℕ) (i : Interval) (unit : ℕ) :
    units ⟨o, w.completed ++ [i]⟩ unit = w.units unit + (i.stop - i.start) / unit := by
  simp only [units, List.map_append, List.map_cons, List.map_nil, List.sum_append, List.sum_cons,
    List.sum_nil, Nat.add_zero]

end Timeline

/-- The intervals of a signal. -/
def timeline (xs : List Sample) : Timeline := xs.foldl Timeline.look Timeline.empty

theorem timeline_snoc (xs : List Sample) (x : Sample) :
    timeline (xs ++ [x]) = (timeline xs).look x :=
  List.foldl_append

end LinuxFibers.Lib
