import Mathlib.Data.Nat.Notation
import Mathlib.Data.Int.Notation

/-!
# Installing a table, all or nothing

`installAll` installs the entries of a table in their order.  When an entry fails,
the entries before it are removed, the last one first, and the error is returned.
An `install` returns 0 or an error, as C functions do.

`Undoable` is what the operations on one entry have to do.  `installAll` then is all
or nothing, for tables of any length and errors at any place.
-/

namespace LinuxFibers.Lib

variable {σ τ : Type}

/-! ## The loops -/

/-- The entries before `i` are removed, the last one first. -/
def unwind (remove : ℕ → σ → σ) : ℕ → σ → σ
  | 0, s => s
  | i + 1, s => unwind remove i (remove i s)

/-- The next `left` entries are installed, from `i` on. -/
def installFrom (install : ℕ → σ → ℤ × σ) (remove : ℕ → σ → σ) : ℕ → ℕ → σ → ℤ × σ
  | 0, _, s => (0, s)
  | left + 1, i, s =>
      if (install i s).1 ≠ 0 then ((install i s).1, unwind remove i (install i s).2)
      else installFrom install remove left (i + 1) (install i s).2

/-- All `count` entries are installed. -/
def installAll (install : ℕ → σ → ℤ × σ) (remove : ℕ → σ → σ) (count : ℕ) (s : σ) : ℤ × σ :=
  installFrom install remove count 0 s

/-- The next `left` entries are removed, from `i` on. -/
def removeFrom (remove : ℕ → σ → σ) : ℕ → ℕ → σ → σ
  | 0, _, s => s
  | left + 1, i, s => removeFrom remove left (i + 1) (remove i s)

/-- All `count` entries are removed, the first one first. -/
def removeAll (remove : ℕ → σ → σ) (count : ℕ) (s : σ) : σ :=
  removeFrom remove count 0 s

/-! ## What the loops do -/

/-- The operations on the entry `i` are about one part of the state.  An `install`
that fails leaves the part clean. -/
structure Undoable (install : ℕ → σ → ℤ × σ) (remove : ℕ → σ → σ) (part : ℕ → σ → τ)
    (Clean Done : τ → Prop) : Prop where
  installed : ∀ i s, Clean (part i s) → (install i s).1 = 0 → Done (part i (install i s).2)
  failed : ∀ i s, Clean (part i s) → (install i s).1 ≠ 0 → Clean (part i (install i s).2)
  removed : ∀ i s, Done (part i s) → Clean (part i (remove i s))
  install_other : ∀ i j s, j ≠ i → part j (install i s).2 = part j s
  remove_other : ∀ i j s, j ≠ i → part j (remove i s) = part j s

section

variable {install : ℕ → σ → ℤ × σ} {remove : ℕ → σ → σ} {part : ℕ → σ → τ}
  {Clean Done : τ → Prop} {s : σ} {i j left count : ℕ}

theorem installFrom_succ_of_error (h : (install i s).1 ≠ 0) :
    installFrom install remove (left + 1) i s =
      ((install i s).1, unwind remove i (install i s).2) := by
  rw [installFrom, if_pos h]

theorem installFrom_succ_of_ok (h : (install i s).1 = 0) :
    installFrom install remove (left + 1) i s =
      installFrom install remove left (i + 1) (install i s).2 := by
  rw [installFrom, if_neg (fun hne => hne h)]

/-- A table whose entries return no positive value returns none. -/
theorem installFrom_nonpos (h : ∀ i s, (install i s).1 ≤ 0) :
    (installFrom install remove left i s).1 ≤ 0 := by
  induction left generalizing i s with
  | zero => exact Int.le_refl 0
  | succ left ih =>
    rw [installFrom]
    split
    · exact h i s
    · exact ih

/-- Which entries fail is known when the errors do not depend on the state, as far as
it keeps `Known`. -/
theorem installFrom_eq_zero_iff (Known : σ → Prop) (err : ℕ → ℤ)
    (herr : ∀ i s, Known s → (install i s).1 = err i)
    (hkeep : ∀ i s, Known s → Known (install i s).2) (h : Known s) :
    (installFrom install remove left i s).1 = 0 ↔
      ∀ j, i ≤ j → j < i + left → err j = 0 := by
  induction left generalizing i s with
  | zero => exact ⟨fun _ j hle hlt => absurd hlt (by omega), fun _ => rfl⟩
  | succ left ih =>
      by_cases hi : (install i s).1 = 0
      · rw [installFrom_succ_of_ok hi, ih (hkeep i s h)]
        constructor
        · intro hrest j hle hlt
          by_cases hj : j = i
          · rw [hj, ← herr i s h]
            exact hi
          · exact hrest j (by omega) (by omega)
        · intro hall j hle hlt
          exact hall j (by omega) (by omega)
      · rw [installFrom_succ_of_error hi]
        constructor
        · intro hzero
          exact absurd hzero hi
        · intro hall
          rw [herr i s h]
          exact hall i (Nat.le_refl i) (by omega)

theorem installAll_eq_zero_iff (Known : σ → Prop) (err : ℕ → ℤ)
    (herr : ∀ i s, Known s → (install i s).1 = err i)
    (hkeep : ∀ i s, Known s → Known (install i s).2) (h : Known s) :
    (installAll install remove count s).1 = 0 ↔ ∀ j, j < count → err j = 0 := by
  rw [installAll, installFrom_eq_zero_iff Known err herr hkeep h, Nat.zero_add]
  exact ⟨fun hall j hj => hall j (Nat.zero_le j) hj, fun hall j _ hj => hall j hj⟩

/-- What no operation changes is not changed. -/
theorem unwind_keeps {β : Type} {f : σ → β} (hr : ∀ i s, f (remove i s) = f s) :
    f (unwind remove i s) = f s := by
  induction i generalizing s with
  | zero => rfl
  | succ i ih =>
      rw [unwind, ih]
      exact hr i s

theorem installFrom_keeps {β : Type} {f : σ → β} (hi : ∀ i s, f (install i s).2 = f s)
    (hr : ∀ i s, f (remove i s) = f s) : f (installFrom install remove left i s).2 = f s := by
  induction left generalizing i s with
  | zero => rfl
  | succ left ih =>
      by_cases hzero : (install i s).1 = 0
      · rw [installFrom_succ_of_ok hzero, ih]
        exact hi i s
      · rw [installFrom_succ_of_error hzero]
        exact (unwind_keeps hr).trans (hi i s)

theorem removeFrom_keeps {β : Type} {f : σ → β} (hr : ∀ i s, f (remove i s) = f s) :
    f (removeFrom remove left i s) = f s := by
  induction left generalizing i s with
  | zero => rfl
  | succ left ih =>
      rw [removeFrom, ih]
      exact hr i s

namespace Undoable

theorem unwind_other (h : Undoable install remove part Clean Done) (hle : i ≤ j) :
    part j (unwind remove i s) = part j s := by
  induction i generalizing s with
  | zero => rfl
  | succ i ih =>
      rw [unwind, ih (by omega)]
      exact h.remove_other i j s (by omega)

theorem unwind_clean (h : Undoable install remove part Clean Done)
    (hdone : ∀ j, j < i → Done (part j s)) : ∀ j, j < i → Clean (part j (unwind remove i s)) := by
  induction i generalizing s with
  | zero => exact fun j hj => absurd hj (by omega)
  | succ i ih =>
      intro j hj
      rw [unwind]
      by_cases hji : j = i
      · rw [hji, h.unwind_other (Nat.le_refl i)]
        exact h.removed i s (hdone i (by omega))
      · refine ih (fun l hl => ?_) j (by omega)
        rw [h.remove_other i l s (by omega)]
        exact hdone l (by omega)

/-- The invariant of the loop: the entries before `i` are installed and the others are
clean. -/
theorem installFrom_allOrNothing (h : Undoable install remove part Clean Done)
    (hdone : ∀ j, j < i → Done (part j s))
    (hclean : ∀ j, i ≤ j → j < i + left → Clean (part j s)) :
    ((installFrom install remove left i s).1 ≠ 0 →
      ∀ j, j < i + left → Clean (part j (installFrom install remove left i s).2)) ∧
    ((installFrom install remove left i s).1 = 0 →
      ∀ j, j < i + left → Done (part j (installFrom install remove left i s).2)) := by
  induction left generalizing i s with
  | zero => exact ⟨fun hne => absurd rfl hne, fun _ j hj => hdone j hj⟩
  | succ left ih =>
      have hi : Clean (part i s) := hclean i (Nat.le_refl i) (by omega)
      by_cases hzero : (install i s).1 = 0
      · rw [installFrom_succ_of_ok hzero, show i + (left + 1) = i + 1 + left by omega]
        refine ih (fun j hj => ?_) (fun j hle hlt => ?_)
        · by_cases hji : j = i
          · rw [hji]
            exact h.installed i s hi hzero
          · rw [h.install_other i j s hji]
            exact hdone j (by omega)
        · rw [h.install_other i j s (by omega)]
          exact hclean j (by omega) (by omega)
      · rw [installFrom_succ_of_error hzero]
        refine ⟨fun _ j hj => ?_, fun heq => absurd heq hzero⟩
        by_cases hlt : j < i
        · refine h.unwind_clean (fun l hl => ?_) j hlt
          rw [h.install_other i l s (by omega)]
          exact hdone l hl
        · rw [h.unwind_other (by omega)]
          by_cases hji : j = i
          · rw [hji]
            exact h.failed i s hi hzero
          · rw [h.install_other i j s hji]
            exact hclean j (by omega) (by omega)

theorem installAll_allOrNothing (h : Undoable install remove part Clean Done)
    (hclean : ∀ j, j < count → Clean (part j s)) :
    ((installAll install remove count s).1 ≠ 0 →
      ∀ j, j < count → Clean (part j (installAll install remove count s).2)) ∧
    ((installAll install remove count s).1 = 0 →
      ∀ j, j < count → Done (part j (installAll install remove count s).2)) := by
  have hloop := h.installFrom_allOrNothing (s := s) (i := 0) (fun j hj => absurd hj (by omega))
    (fun j _ hlt => hclean j ((Nat.zero_add count) ▸ hlt))
  rw [Nat.zero_add] at hloop
  exact hloop

theorem removeFrom_other (h : Undoable install remove part Clean Done) (hlt : j < i) :
    part j (removeFrom remove left i s) = part j s := by
  induction left generalizing i s with
  | zero => rfl
  | succ left ih =>
      rw [removeFrom, ih (by omega)]
      exact h.remove_other i j s (by omega)

theorem removeFrom_clean (h : Undoable install remove part Clean Done)
    (hdone : ∀ j, i ≤ j → j < i + left → Done (part j s)) :
    ∀ j, i ≤ j → j < i + left → Clean (part j (removeFrom remove left i s)) := by
  induction left generalizing i s with
  | zero => exact fun j _ hlt => absurd hlt (by omega)
  | succ left ih =>
      intro j hle hlt
      rw [removeFrom]
      by_cases hji : j = i
      · rw [hji, h.removeFrom_other (Nat.lt_succ_self i)]
        exact h.removed i s (hdone i (Nat.le_refl i) (by omega))
      · refine ih (fun l hl hl' => ?_) j (by omega) (by omega)
        rw [h.remove_other i l s (by omega)]
        exact hdone l (by omega) (by omega)

theorem removeAll_clean (h : Undoable install remove part Clean Done)
    (hdone : ∀ j, j < count → Done (part j s)) :
    ∀ j, j < count → Clean (part j (removeAll remove count s)) := fun j hj =>
  h.removeFrom_clean (fun l _ hl => hdone l (by omega)) j (by omega) (by omega)

end Undoable

end

end LinuxFibers.Lib
