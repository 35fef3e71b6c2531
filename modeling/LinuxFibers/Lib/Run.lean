import Mathlib.Data.List.Induction

/-!
# Runs of a labelled step relation

A system is a relation `step s a t`: in state `s` the label `a` can lead to
state `t`.  `Run step s tr t` says that the labels `tr`, in this order, lead
from `s` to `t`.  Nothing here knows what the states or the labels are.

The trace grows at its end, so that a property of the history (the last time
something happened, everything that happened so far) is proved by one
induction that looks at the newest label only.
-/

namespace LinuxFibers.Lib

variable {σ ι : Type}

/-- The labels `tr` lead from `s` to the last state. -/
inductive Run (step : σ → ι → σ → Prop) (s : σ) : List ι → σ → Prop where
  | nil : Run step s [] s
  | snoc {tr : List ι} {t u : σ} {a : ι} :
      Run step s tr t → step t a u → Run step s (tr ++ [a]) u

namespace Run

variable {step : σ → ι → σ → Prop} {s t u : σ} {tr tr' : List ι} {a : ι}

theorem single (h : step s a t) : Run step s [a] t :=
  snoc nil h

/-- A property that every step keeps holds at the end of every run that
starts with it. -/
theorem invariant {I : σ → Prop} (hstep : ∀ s a t, I s → step s a t → I t)
    (h : Run step s tr t) (hs : I s) : I t := by
  induction h with
  | nil => exact hs
  | snoc _ ha ih => exact hstep _ _ _ ih ha

/-- The same for a property of the trace and the state it leads to. -/
theorem invariantTrace {I : List ι → σ → Prop}
    (hstep : ∀ tr s a t, I tr s → step s a t → I (tr ++ [a]) t)
    (h : Run step s tr t) (hs : I [] s) : I tr t := by
  induction h with
  | nil => exact hs
  | snoc _ ha ih => exact hstep _ _ _ _ ih ha

/-- A run of a smaller step relation is a run of a larger one. -/
theorem mono {step' : σ → ι → σ → Prop} (hle : ∀ s a t, step s a t → step' s a t)
    (h : Run step s tr t) : Run step' s tr t := by
  induction h with
  | nil => exact nil
  | snoc _ ha ih => exact snoc ih (hle _ _ _ ha)

/-- A run whose labels all have a property is a run of the steps with it. -/
theorem restrict {P : ι → Prop} (h : Run step s tr t) (hP : ∀ a ∈ tr, P a) :
    Run (fun s a t => P a ∧ step s a t) s tr t := by
  induction h with
  | nil => exact nil
  | snoc _ ha ih =>
    refine snoc (ih fun b hb => hP b (List.mem_append_left _ hb)) ⟨hP _ ?_, ha⟩
    exact List.mem_append_right _ (List.mem_singleton_self _)

theorem append (h : Run step s tr t) (h' : Run step t tr' u) :
    Run step s (tr ++ tr') u := by
  induction h' with
  | nil => simpa using h
  | snoc _ ha ih =>
    rw [← List.append_assoc]
    exact snoc ih ha

theorem cons (ha : step s a t) (h : Run step t tr u) : Run step s (a :: tr) u :=
  append (single ha) h

/-- The last step of a run whose trace ends in `a`. -/
theorem of_snoc (h : Run step s (tr ++ [a]) u) :
    ∃ t, Run step s tr t ∧ step t a u := by
  generalize hx : tr ++ [a] = xs at h
  cases h with
  | nil => simp at hx
  | snoc h' ha =>
    obtain ⟨rfl, hl⟩ := List.append_inj' hx rfl
    cases hl
    exact ⟨_, h', ha⟩

/-- A run cut at any point of its trace. -/
theorem of_append (h : Run step s (tr ++ tr') u) :
    ∃ t, Run step s tr t ∧ Run step t tr' u := by
  induction tr' using List.reverseRecOn generalizing u with
  | nil => exact ⟨u, by simpa using h, nil⟩
  | append_singleton xs x ih =>
    rw [← List.append_assoc] at h
    obtain ⟨v, hv, hx⟩ := of_snoc h
    obtain ⟨t, ht, ht'⟩ := ih hv
    exact ⟨t, ht, snoc ht' hx⟩

theorem eq_of_nil (h : Run step s [] t) : t = s := by
  generalize hx : ([] : List ι) = xs at h
  cases h with
  | nil => rfl
  | snoc _ _ => simp at hx

/-- The first step of a run. -/
theorem of_cons (h : Run step s (a :: tr) u) : ∃ t, step s a t ∧ Run step t tr u := by
  obtain ⟨t, hfirst, hrest⟩ := of_append (show Run step s ([a] ++ tr) u from h)
  obtain ⟨s', hnil, hstep⟩ := of_snoc (show Run step s ([] ++ [a]) t from hfirst)
  rw [eq_of_nil hnil] at hstep
  exact ⟨t, hstep, hrest⟩

/-- Steps with one result have runs with one end. -/
theorem unique (hstep : ∀ s a t u, step s a t → step s a u → t = u) (h : Run step s tr t)
    (h' : Run step s tr u) : t = u := by
  induction h generalizing u with
  | nil => exact (eq_of_nil h').symm
  | snoc _ ha ih =>
    obtain ⟨v, hrun, hlast⟩ := of_snoc h'
    rw [← ih hrun] at hlast
    exact hstep _ _ _ _ ha hlast

/-- A run is followed by one over related labels, if its steps are. -/
theorem simulate {τ κ : Type} {step : σ → ι → σ → Prop} {step' : τ → κ → τ → Prop}
    {R : σ → τ → Prop} {P : ι → κ → Prop}
    (hstep : ∀ s s' a a' t, R s s' → P a a' → step s a t → ∃ t', step' s' a' t' ∧ R t t')
    {s t : σ} {s' : τ} {tr : List ι} {tr' : List κ} (hs : R s s') (htr : List.Forall₂ P tr tr')
    (h : Run step s tr t) : ∃ t', Run step' s' tr' t' ∧ R t t' := by
  induction htr generalizing s s' with
  | nil =>
    rw [eq_of_nil h]
    exact ⟨s', nil, hs⟩
  | cons ha _ ih =>
    obtain ⟨u, hfirst, hrest⟩ := of_cons h
    obtain ⟨u', hfirst', hu⟩ := hstep _ _ _ _ _ hs ha hfirst
    obtain ⟨t', hrest', ht⟩ := ih hu hrest
    exact ⟨t', cons hfirst' hrest', ht⟩

end Run

/-! ## Steps that can fail -/

/-- The computation in front of a bind that returned. -/
theorem of_bind {ε α β : Type} {x : Except ε α} {f : α → Except ε β} {b : β}
    (h : (x >>= f) = .ok b) : ∃ a, x = .ok a ∧ f a = .ok b := by
  cases x with
  | error e => cases h
  | ok a => exact ⟨a, rfl, h⟩

/-- A test of the value that was computed. -/
theorem of_toOption_any {ε α : Type} {x : Except ε α} {p : α → Bool}
    (h : x.toOption.any p = true) : ∃ a, x = .ok a ∧ p a = true := by
  cases x with
  | error e => cases h
  | ok a => exact ⟨a, rfl, h⟩

/-! ## Concrete runs -/

/-- The end of a list of labels under an executable step, when each label is
allowed and the step returns. -/
def replay {ε : Type} (exec : σ → ι → Except ε σ) (ok : σ → ι → Bool) : σ → List ι → Option σ
  | s, [] => some s
  | s, a :: as =>
      if ok s a then
        match exec s a with
        | .ok t => replay exec ok t as
        | .error _ => none
      else none

theorem run_of_replay {ε : Type} {exec : σ → ι → Except ε σ} {ok : σ → ι → Bool}
    {as : List ι} : ∀ {s t : σ}, replay exec ok s as = some t →
      Run (fun s a t => ok s a = true ∧ exec s a = .ok t) s as t := by
  induction as with
  | nil =>
    intro s t h
    cases h
    exact Run.nil
  | cons a as ih =>
    intro s t h
    rw [replay] at h
    split at h
    · rename_i hok
      split at h
      · rename_i u hu
        exact Run.cons ⟨hok, hu⟩ (ih h)
      · cases h
    · cases h

/-- A run of concrete labels exists when its evaluation ends in a state with
the property. -/
theorem exists_run {ε : Type} (exec : σ → ι → Except ε σ) (ok : σ → ι → Bool) (s : σ)
    (as : List ι) (p : σ → Bool) (h : (replay exec ok s as).any p = true) :
    ∃ t, Run (fun s a t => ok s a = true ∧ exec s a = .ok t) s as t ∧ p t = true := by
  obtain ⟨t, ht, hp⟩ := (Option.any_eq_true _ _).mp h
  exact ⟨t, run_of_replay ht, hp⟩

/-! ## Histories -/

/-- The step whose label also has the state before it, so that the trace of a
run is its full history. -/
def Recorded (step : σ → ι → σ → Prop) (s : σ) (m : σ × ι) (t : σ) : Prop :=
  m.1 = s ∧ step s m.2 t

/-- A run with its history is a run. -/
theorem Run.ofRecorded {step : σ → ι → σ → Prop} {s t : σ} {tr : List (σ × ι)}
    (h : Run (Recorded step) s tr t) : Run step s (tr.map Prod.snd) t := by
  induction h with
  | nil => exact Run.nil
  | snoc _ ha ih =>
    rw [List.map_append]
    exact Run.snoc ih ha.2

/-- A run has a history. -/
theorem Run.exists_recorded {step : σ → ι → σ → Prop} {s t : σ} {tr : List ι}
    (h : Run step s tr t) : ∃ tr', Run (Recorded step) s tr' t := by
  induction h with
  | nil => exact ⟨[], Run.nil⟩
  | @snoc tr u v a _ ha ih =>
    obtain ⟨tr', h'⟩ := ih
    have hstep : Recorded step u (u, a) v := ⟨rfl, ha⟩
    exact ⟨_, Run.snoc h' hstep⟩

/-- The step whose label also has the states before and after it. -/
def Traced (step : σ → ι → σ → Prop) (s : σ) (x : σ × ι × σ) (t : σ) : Prop :=
  x.1 = s ∧ x.2.2 = t ∧ step s x.2.1 t

/-- A run has a trace of its states. -/
theorem Run.exists_traced {step : σ → ι → σ → Prop} {s t : σ} {tr : List ι}
    (h : Run step s tr t) : ∃ tr', Run (Traced step) s tr' t := by
  induction h with
  | nil => exact ⟨[], Run.nil⟩
  | @snoc tr u v a _ ha ih =>
    obtain ⟨tr', h'⟩ := ih
    have hstep : Traced step u (u, a, v) v := ⟨rfl, rfl, ha⟩
    exact ⟨_, Run.snoc h' hstep⟩

/-- The history of a list of labels under an executable step. -/
def history {ε : Type} (exec : σ → ι → Except ε σ) : σ → List ι → List (σ × ι)
  | _, [] => []
  | s, a :: as =>
      (s, a) :: match exec s a with
        | .ok t => history exec t as
        | .error _ => []

theorem recorded_of_replay {ε : Type} {exec : σ → ι → Except ε σ} {ok : σ → ι → Bool}
    {as : List ι} : ∀ {s t : σ}, replay exec ok s as = some t →
      Run (Recorded fun s a t => ok s a = true ∧ exec s a = .ok t) s (history exec s as) t := by
  induction as with
  | nil =>
    intro s t h
    cases h
    exact Run.nil
  | cons a as ih =>
    intro s t h
    rw [replay] at h
    rw [history]
    split at h
    · rename_i hok
      split at h
      · rename_i u hu
        have hstep : Recorded (fun s a t => ok s a = true ∧ exec s a = .ok t) s (s, a) u :=
          ⟨rfl, hok, hu⟩
        exact Run.cons hstep (ih h)
      · cases h
    · cases h

/-- `exists_run` with the history of the run. -/
theorem exists_history {ε : Type} (exec : σ → ι → Except ε σ) (ok : σ → ι → Bool) (s : σ)
    (as : List ι) (p : List (σ × ι) → σ → Bool)
    (h : (replay exec ok s as).any (p (history exec s as)) = true) :
    ∃ tr t, Run (Recorded fun s a t => ok s a = true ∧ exec s a = .ok t) s tr t ∧
      p tr t = true := by
  obtain ⟨t, ht, hp⟩ := (Option.any_eq_true _ _).mp h
  exact ⟨_, t, recorded_of_replay ht, hp⟩

theorem history_labels {ε : Type} {exec : σ → ι → Except ε σ} {ok : σ → ι → Bool}
    {as : List ι} : ∀ {s t : σ}, replay exec ok s as = some t →
      (history exec s as).map Prod.snd = as := by
  induction as with
  | nil =>
    intro s t _
    rfl
  | cons a as ih =>
    intro s t h
    rw [replay] at h
    split at h
    · split at h
      · rename_i u hu
        simp only [history, hu, List.map_cons, ih h]
      · cases h
    · cases h

/-- `exists_history` with the labels of the history. -/
theorem exists_history_labels {ε : Type} (exec : σ → ι → Except ε σ) (s : σ) (as : List ι)
    (p : List (σ × ι) → σ → Bool)
    (h : (replay exec (fun _ _ => true) s as).any (p (history exec s as)) = true) :
    ∃ tr t, Run (Recorded fun s a t => exec s a = .ok t) s tr t ∧ tr.map Prod.snd = as ∧
      p tr t = true := by
  obtain ⟨t, ht, hp⟩ := (Option.any_eq_true _ _).mp h
  refine ⟨_, t, (recorded_of_replay ht).mono ?_, history_labels ht, hp⟩
  rintro _ _ _ ⟨hrec, _, hexec⟩
  exact ⟨hrec, hexec⟩

/-- What the newest label that says something says. -/
def latest {β : Type} (f : ι → Option β) (tr : List ι) : Option β := tr.reverse.findSome? f

theorem latest_snoc {β : Type} (f : ι → Option β) (tr : List ι) (a : ι) :
    latest f (tr ++ [a]) = (f a).or (latest f tr) := by
  simp only [latest, List.reverse_append, List.reverse_singleton, List.singleton_append,
    List.findSome?_cons]
  cases f a <;> rfl

theorem latest_snoc_of_none {β : Type} {f : ι → Option β} {a : ι} (h : f a = none)
    (tr : List ι) : latest f (tr ++ [a]) = latest f tr := by
  rw [latest_snoc, h, Option.none_or]

theorem latest_snoc_of_some {β : Type} {f : ι → Option β} {a : ι} {b : β} (h : f a = some b)
    (tr : List ι) : latest f (tr ++ [a]) = some b := by
  rw [latest_snoc, h, Option.some_or]

end LinuxFibers.Lib
