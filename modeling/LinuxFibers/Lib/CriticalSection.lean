import LinuxFibers.Lib.Run
import Mathlib.Logic.Function.Basic

/-!
# Critical sections

Threads share data behind a lock.  Each thread has a local state of its own, and
its code says when it takes the lock, what the steps are that it takes with the
lock held, when it gives the lock back, and how its local state changes otherwise.
Only the steps under the lock read and write the data.

`Code.Step` interleaves the steps of all threads.  `Code.Atomic` takes a whole
section as one step.  `Code.atomic_run` says that every run of the first, up to a
moment when the lock is free, is a run of the second with the same labels: the
sections take effect in the order in which the lock is given back.
-/

namespace LinuxFibers.Lib

variable {κ δ ℓ ι : Type}

/-- The code of the threads `κ` over the data `δ`, with the local states `ℓ` and
the events `ι`.  A step that a thread cannot take gives nothing. -/
structure Code (κ δ ℓ ι : Type) where
  enters : κ → ℓ → Option ℓ
  inside : κ → δ × ℓ → ι → Option (δ × ℓ)
  leaves : κ → ℓ → ι → Option ℓ
  outside : κ → ℓ → ι → Option ℓ

/-- The data, the thread that holds the lock, and the local states. -/
structure Guarded (κ δ ℓ : Type) where
  data : δ
  owner : Option κ
  loc : κ → ℓ

/-- A step of a thread. -/
inductive Move (ι : Type) where
  | enter
  | inside (a : ι)
  | leave (a : ι)
  | outside (a : ι)

/-- What a step is when a section is one step: its end. -/
def Move.effect : Move ι → Option (Move ι)
  | .enter => none
  | .inside _ => none
  | .leave a => some (.leave a)
  | .outside a => some (.outside a)

namespace Code

variable [DecidableEq κ] (c : Code κ δ ℓ ι)

/-- The steps under the lock, as a relation. -/
def Inside (k : κ) (x : δ × ℓ) (a : ι) (y : δ × ℓ) : Prop := c.inside k x a = some y

/-- The interleaved steps. -/
inductive Step : Guarded κ δ ℓ → κ × Move ι → Guarded κ δ ℓ → Prop where
  | enter {s : Guarded κ δ ℓ} {k : κ} {l : ℓ} :
      s.owner = none → c.enters k (s.loc k) = some l →
      Step s (k, .enter) ⟨s.data, some k, Function.update s.loc k l⟩
  | inside {s : Guarded κ δ ℓ} {k : κ} {a : ι} {d : δ} {l : ℓ} :
      s.owner = some k → c.inside k (s.data, s.loc k) a = some (d, l) →
      Step s (k, .inside a) ⟨d, some k, Function.update s.loc k l⟩
  | leave {s : Guarded κ δ ℓ} {k : κ} {a : ι} {l : ℓ} :
      s.owner = some k → c.leaves k (s.loc k) a = some l →
      Step s (k, .leave a) ⟨s.data, none, Function.update s.loc k l⟩
  | outside {s : Guarded κ δ ℓ} {k : κ} {a : ι} {l : ℓ} :
      s.owner ≠ some k → c.outside k (s.loc k) a = some l →
      Step s (k, .outside a) { s with loc := Function.update s.loc k l }

/-- The interleaved steps, executed. -/
def exec (s : Guarded κ δ ℓ) : κ × Move ι → Except Unit (Guarded κ δ ℓ)
  | (k, .enter) =>
      match s.owner, c.enters k (s.loc k) with
      | none, some l => .ok ⟨s.data, some k, Function.update s.loc k l⟩
      | _, _ => .error ()
  | (k, .inside a) =>
      match c.inside k (s.data, s.loc k) a with
      | some (d, l) =>
          if s.owner = some k then .ok ⟨d, some k, Function.update s.loc k l⟩ else .error ()
      | none => .error ()
  | (k, .leave a) =>
      match c.leaves k (s.loc k) a with
      | some l =>
          if s.owner = some k then .ok ⟨s.data, none, Function.update s.loc k l⟩ else .error ()
      | none => .error ()
  | (k, .outside a) =>
      match c.outside k (s.loc k) a with
      | some l =>
          if s.owner = some k then .error ()
          else .ok { s with loc := Function.update s.loc k l }
      | none => .error ()

/-- A section that nobody interrupts. -/
inductive Section (k : κ) : δ × ℓ → ι → δ × ℓ → Prop where
  | mk {d d' : δ} {l l₁ l₂ l' : ℓ} {as : List ι} {a : ι} :
      c.enters k l = some l₁ → Run (c.Inside k) (d, l₁) as (d', l₂) →
      c.leaves k l₂ a = some l' →
      Section k (d, l) a (d', l')

/-- The data and the local states, with every section as one step. -/
inductive Atomic : δ × (κ → ℓ) → κ × Move ι → δ × (κ → ℓ) → Prop where
  | whole {d d' : δ} {loc : κ → ℓ} {k : κ} {a : ι} {l : ℓ} :
      c.Section k (d, loc k) a (d', l) →
      Atomic (d, loc) (k, .leave a) (d', Function.update loc k l)
  | outside {d : δ} {loc : κ → ℓ} {k : κ} {a : ι} {l : ℓ} :
      c.outside k (loc k) a = some l →
      Atomic (d, loc) (k, .outside a) (d, Function.update loc k l)

/-- Where the atomic run is, next to the interleaved state `s`: at `s`, or at the
entry of the section that the owner of the lock is in. -/
inductive Pending (s : Guarded κ δ ℓ) : δ × (κ → ℓ) → Prop where
  | free : s.owner = none → Pending s (s.data, s.loc)
  | held {k : κ} {d : δ} {loc : κ → ℓ} {l : ℓ} {as : List ι} :
      s.owner = some k → c.enters k (loc k) = some l →
      Run (c.Inside k) (d, l) as (s.data, s.loc k) → (∀ j, j ≠ k → s.loc j = loc j) →
      Pending s (d, loc)

/-- The effects of the steps, in their order. -/
def effects (tr : List (κ × Move ι)) : List (κ × Move ι) :=
  tr.filterMap fun x => x.2.effect.map (Prod.mk x.1)

variable {c} {s t : Guarded κ δ ℓ} {x : δ × (κ → ℓ)} {m : κ × Move ι}

theorem step_of_exec (h : c.exec s m = .ok t) : c.Step s m t := by
  obtain ⟨k, m⟩ := m
  cases m with
  | enter =>
    simp only [exec] at h
    split at h
    · rename_i howner henter
      cases h
      exact Step.enter howner henter
    · cases h
  | inside a =>
    simp only [exec] at h
    split at h
    · rename_i hinside
      split at h
      · rename_i howner
        cases h
        exact Step.inside howner hinside
      · cases h
    · cases h
  | leave a =>
    simp only [exec] at h
    split at h
    · rename_i hleave
      split at h
      · rename_i howner
        cases h
        exact Step.leave howner hleave
      · cases h
    · cases h
  | outside a =>
    simp only [exec] at h
    split at h
    · rename_i hout
      split at h
      · cases h
      · rename_i howner
        cases h
        exact Step.outside howner hout
    · cases h

omit [DecidableEq κ] in
theorem effects_append (tr tr' : List (κ × Move ι)) :
    effects (tr ++ tr') = effects tr ++ effects tr' :=
  List.filterMap_append

theorem update_congr {f g : κ → ℓ} {k : κ} (l : ℓ) (h : ∀ j, j ≠ k → f j = g j) :
    Function.update f k l = Function.update g k l := by
  funext j
  by_cases hj : j = k
  · subst hj
    rw [Function.update_self, Function.update_self]
  · rw [Function.update_of_ne hj, Function.update_of_ne hj, h j hj]

/-- A step while the lock is free. -/
theorem Pending.step_free (hfree : s.owner = none) (h : c.Step s m t) :
    ∃ y, c.Pending t y ∧ Run c.Atomic (s.data, s.loc) (effects [m]) y := by
  cases h with
  | @enter k l _ henter =>
    have hrun : Run (c.Inside k) (s.data, l) [] (s.data, Function.update s.loc k l k) := by
      rw [Function.update_self]
      exact Run.nil
    have hothers : ∀ j, j ≠ k → Function.update s.loc k l j = s.loc j := fun j hj =>
      Function.update_of_ne hj l s.loc
    exact ⟨_, Pending.held rfl henter hrun hothers, Run.nil⟩
  | inside howner _ =>
    rw [hfree] at howner
    cases howner
  | leave howner _ =>
    rw [hfree] at howner
    cases howner
  | outside _ hout => exact ⟨_, Pending.free hfree, Run.single (Atomic.outside hout)⟩

/-- A step while a thread holds the lock. -/
theorem Pending.step_held {k : κ} {d : δ} {loc : κ → ℓ} {l : ℓ} {as : List ι}
    (hheld : s.owner = some k) (henter : c.enters k (loc k) = some l)
    (hrun : Run (c.Inside k) (d, l) as (s.data, s.loc k)) (hothers : ∀ j, j ≠ k → s.loc j = loc j)
    (h : c.Step s m t) :
    ∃ y, c.Pending t y ∧ Run c.Atomic (d, loc) (effects [m]) y := by
  cases h with
  | enter howner _ =>
    rw [hheld] at howner
    cases howner
  | @inside j a d' l' howner hinside =>
    obtain rfl := Option.some.inj (hheld.symm.trans howner)
    have hrun' : Run (c.Inside k) (d, l) (as ++ [a]) (d', Function.update s.loc k l' k) := by
      rw [Function.update_self]
      exact hrun.snoc hinside
    have hothers' : ∀ j, j ≠ k → Function.update s.loc k l' j = loc j := fun j hj =>
      (Function.update_of_ne hj l' s.loc).trans (hothers j hj)
    exact ⟨_, Pending.held rfl henter hrun' hothers', Run.nil⟩
  | @leave j a l' howner hleave =>
    obtain rfl := Option.some.inj (hheld.symm.trans howner)
    refine ⟨_, Pending.free rfl, Run.single ?_⟩
    rw [update_congr l' hothers]
    exact Atomic.whole ⟨henter, hrun, hleave⟩
  | @outside j a l' howner hout =>
    have hne : k ≠ j := fun heq => howner (by rw [hheld, heq])
    rw [hothers j hne.symm] at hout
    have henter' : c.enters k (Function.update loc j l' k) = some l := by
      rw [Function.update_of_ne hne]
      exact henter
    have hrun' : Run (c.Inside k) (d, l) as (s.data, Function.update s.loc j l' k) := by
      rw [Function.update_of_ne hne]
      exact hrun
    have hothers' : ∀ i, i ≠ k → Function.update s.loc j l' i = Function.update loc j l' i := by
      intro i hi
      by_cases hij : i = j
      · subst hij
        rw [Function.update_self, Function.update_self]
      · rw [Function.update_of_ne hij, Function.update_of_ne hij, hothers i hi]
    exact ⟨_, Pending.held hheld henter' hrun' hothers', Run.single (Atomic.outside hout)⟩

/-- A run of the threads, next to the atomic run of its effects. -/
theorem pending_run {tr : List (κ × Move ι)} (hfree : s.owner = none) (h : Run c.Step s tr t) :
    ∃ y, c.Pending t y ∧ Run c.Atomic (s.data, s.loc) (effects tr) y := by
  induction h with
  | nil => exact ⟨_, Pending.free hfree, Run.nil⟩
  | @snoc tr u v m _ hm ih =>
    obtain ⟨x, hx, hrun⟩ := ih
    rw [effects_append]
    cases hx with
    | free hu =>
      obtain ⟨y, hy, hlast⟩ := Pending.step_free hu hm
      exact ⟨y, hy, hrun.append hlast⟩
    | held hu henter hinside hothers =>
      obtain ⟨y, hy, hlast⟩ := Pending.step_held hu henter hinside hothers hm
      exact ⟨y, hy, hrun.append hlast⟩

/-- A run between two moments at which the lock is free is a run of whole
sections, in the order in which they end. -/
theorem atomic_run {tr : List (κ × Move ι)} (hs : s.owner = none) (h : Run c.Step s tr t)
    (ht : t.owner = none) : Run c.Atomic (s.data, s.loc) (effects tr) (t.data, t.loc) := by
  obtain ⟨y, hy, hrun⟩ := pending_run hs h
  cases hy with
  | free => exact hrun
  | held howner =>
    rw [ht] at howner
    cases howner

/-- The owner of the lock can take its own steps, whatever the others do. -/
theorem run_of_inside {k : κ} {d : δ} {loc : κ → ℓ} {as : List ι} {y : δ × ℓ}
    (h : Run (c.Inside k) (d, loc k) as y) :
    Run c.Step ⟨d, some k, loc⟩ (as.map fun a => (k, .inside a))
      ⟨y.1, some k, Function.update loc k y.2⟩ := by
  induction h with
  | nil =>
    rw [Function.update_eq_self]
    exact Run.nil
  | @snoc as u v a _ ha ih =>
    rw [List.map_append]
    have hstep : c.Step ⟨u.1, some k, Function.update loc k u.2⟩ (k, .inside a)
        ⟨v.1, some k, Function.update (Function.update loc k u.2) k v.2⟩ := by
      have hself : Function.update loc k u.2 k = u.2 := Function.update_self k u.2 loc
      apply Step.inside rfl
      show c.inside k (u.1, Function.update loc k u.2 k) a = some v
      rw [hself]
      exact ha
    rw [Function.update_idem] at hstep
    exact ih.snoc hstep

end Code

end LinuxFibers.Lib
