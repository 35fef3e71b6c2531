import LinuxFibers.Lib.Run

/-!
# Systems made of parts

A system is made of parts when each of its steps is a step of one part and
leaves the others as they are.  A run of the system then shows each part a run of
its own: the labels that the part hears, in their order (`Parts.project`).

The label that a part hears is an input together with an output.  An input is
settled in a state when the part has one answer to it.  Two runs of a part that
hear the same inputs, all settled, have the same outputs and end in the same
state (`Run.eq_of_settled`), whatever the other parts do.
-/

namespace LinuxFibers.Lib

variable {σ ι κ τ α β : Type}

/-- The steps of a system whose state shows each part a view.  A part hears the
labels of its own steps, and `inv` is an invariant of the system. -/
structure Parts (step : σ → ι → σ → Prop) (inv : σ → Prop) (view : κ → σ → τ)
    (heard : κ → ι → Option α) (part : κ → τ → α → τ → Prop) : Prop where
  keeps : ∀ s a t, inv s → step s a t → inv t
  own : ∀ s a t k x, inv s → step s a t → heard k a = some x → part k (view k s) x (view k t)
  frame : ∀ s a t k, inv s → step s a t → heard k a = none → view k t = view k s

section Parts

variable {step : σ → ι → σ → Prop} {inv : σ → Prop} {view : κ → σ → τ}
  {heard : κ → ι → Option α} {part : κ → τ → α → τ → Prop} {s t : σ} {tr : List ι}

/-- A run of the system is a run of every part. -/
theorem Parts.project (hp : Parts step inv view heard part) (hs : inv s)
    (h : Run step s tr t) (k : κ) :
    inv t ∧ Run (part k) (view k s) (tr.filterMap (heard k)) (view k t) := by
  induction h with
  | nil => exact ⟨hs, Run.nil⟩
  | @snoc tr u v a _ ha ih =>
    obtain ⟨hu, hrun⟩ := ih
    refine ⟨hp.keeps u a v hu ha, ?_⟩
    rw [List.filterMap_append]
    cases hk : heard k a with
    | none =>
      rw [List.filterMap_cons_none hk, List.filterMap_nil, List.append_nil,
        hp.frame u a v k hu ha hk]
      exact hrun
    | some x =>
      rw [List.filterMap_cons_some hk, List.filterMap_nil]
      exact hrun.snoc (hp.own u a v k x hu ha hk)

end Parts

/-! ## Inputs and outputs -/

/-- The part has at most one answer to the input. -/
def Settled (part : τ → α × β → τ → Prop) (m : τ) (x : α) : Prop :=
  ∀ y y' n n', part m (x, y) n → part m (x, y') n' → y = y' ∧ n = n'

/-- A run whose inputs are all settled is the only one with these inputs. -/
theorem Run.eq_of_settled {part : τ → α × β → τ → Prop} {m n n' : τ} {tr tr' : List (α × β)}
    (h : Run (fun m x n => Settled part m x.1 ∧ part m x n) m tr n) (h' : Run part m tr' n')
    (hin : tr.map Prod.fst = tr'.map Prod.fst) : tr = tr' ∧ n = n' := by
  induction h generalizing tr' n' with
  | nil =>
    obtain rfl : tr' = [] := List.map_eq_nil_iff.mp hin.symm
    exact ⟨rfl, h'.eq_of_nil.symm⟩
  | @snoc tr u v x _ hx ih =>
    rw [List.map_append] at hin
    obtain ⟨as, bs, rfl, has, hbs⟩ := List.map_eq_append_iff.mp hin.symm
    obtain ⟨x', rfl, hx'⟩ := List.map_eq_singleton_iff.mp hbs
    obtain ⟨w, hw, hlast⟩ := h'.of_snoc
    obtain ⟨rfl, rfl⟩ := ih hw has.symm
    obtain ⟨a, y⟩ := x
    obtain ⟨a', y'⟩ := x'
    obtain rfl : a' = a := hx'
    obtain ⟨rfl, rfl⟩ := hx.1 y y' v n' hx.2 hlast
    exact ⟨rfl, rfl⟩

end LinuxFibers.Lib
