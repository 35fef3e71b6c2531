import LinuxFibers.Ult.Alarm

/-!
# The contexts of fibers under the alarm

`ult_switch_to` changes `current` before the old context is saved, so a handler
that starts in between saves the context of the wrong fiber.  In
`context_overwritten` a thread that executes fiber 0 writes the context of
fiber 1.

`Inv` is the invariant of the runs in which no handler takes a flag while the
call that it interrupted holds one, and no saved `set_jmp` returns 0
(`undisturbed`).  `Shape` says what the calls of a thread know: below a call
that has taken a flag, all others have not.  `owns` is the fibers whose flags a
thread holds, and `Parked` is what holds of a fiber that no thread executes: its
context is the place where it was suspended.  `Inv.of_turn` has what a step must
keep, and each step of the program is one use of it.
-/

namespace LinuxFibers.Ult.Alarm

open LinuxFibers.Lib Alarm.State Fibers

/-- The fiber whose flag a call of `ult_switch_to` has taken. -/
def tried : Point → Option ℕ
  | .setCurrent _ target | .setJmp _ target => some target
  | .unlock (.ultSwitchTo _ target) | .longJmp (.ultSwitchTo _ target) => some target
  | _ => none

@[simp] theorem tried_entry (ult : Option ℕ) : tried (.entry ult) = none := rfl

@[simp] theorem tried_trylock (source : Option ℕ) (target : ℕ) :
    tried (.trylock source target) = none := rfl

@[simp] theorem tried_setCurrent (source : Option ℕ) (target : ℕ) :
    tried (.setCurrent source target) = some target := rfl

@[simp] theorem tried_setJmp (source : Option ℕ) (target : ℕ) :
    tried (.setJmp source target) = some target := rfl

@[simp] theorem tried_unlock (source target : ℕ) :
    tried (.unlock (.ultSwitchTo source target)) = some target := rfl

@[simp] theorem tried_longJmp (source target : ℕ) :
    tried (.longJmp (.ultSwitchTo source target)) = some target := rfl

/-- The fibers that a thread is switching to. -/
def switchingTo (th : Thread) : List ℕ := th.calls.filterMap tried

/-- No call takes a flag above another that has taken one, and no `long_jmp` goes
to a `set_jmp` that returns 0 again. -/
def undisturbed (s : State) (m : Turn) : Bool :=
  let th := s.thread m.tid
  match m.act, th.calls with
  | .creat _, [] => !Ult.State.savesAgain m.rax
  | .step, .trylock _ target :: rest =>
      s.running target || rest.all fun p => (tried p).isNone
  | .step, .longJmp k :: _ => (k.new th.current).all fun f =>
      (s.context f).all fun c => !Ult.State.savesAgain (k.value c.rax)
  | _, _ => true

/-- The steps that nothing disturbs. -/
def UndisturbedStep (s : State) (m : Turn) (t : State) : Prop :=
  undisturbed s m = true ∧ Step s m t

/-- The calls that the fiber `f` has in progress when a step suspends it: the
step clears its flag in `ult_switch_to`, or makes the fiber. -/
def suspends (f : ℕ) (x : State × Turn) : Option (List Point) :=
  let th := x.1.thread x.2.tid
  match x.2.act, th.calls with
  | .creat _, [] => if f = x.1.ultId then some [] else none
  | .step, .unlock _ :: rest => if th.stack = some f then some rest else none
  | _, _ => none

/-- The law of the contexts, for a run with the steps `tr` to the state `s`. -/
structure Intact (tr : List (State × Turn)) (s : State) : Prop where
  /-- A step writes the context of the fiber that it executes, or of a new one. -/
  saved : ∀ x ∈ tr, ∀ t, x.1.exec x.2 = .ok t → ∀ f, t.context f ≠ x.1.context f →
    (x.1.thread x.2.tid).stack = some f ∨ x.1.ultId ≤ f
  /-- A `long_jmp` to a fiber goes on with the calls that it was suspended with. -/
  resumed : ∀ past x, past ++ [x] <+: tr → ∀ k rest target, x.2.act = .step →
    (x.1.thread x.2.tid).calls = .longJmp k :: rest →
    k.new (x.1.thread x.2.tid).current = some target → ∀ t, x.1.exec x.2 = .ok t →
    (t.thread x.2.tid).stack = some target ∧ (t.thread x.2.tid).current = some target ∧
      latest (suspends target) past = some (t.thread x.2.tid).calls
  /-- A fiber whose flag is set is executed, or a thread is switching to it. -/
  released : ∀ f, s.running f = true →
    ∃ q, (s.thread q).stack = some f ∨ f ∈ switchingTo (s.thread q)

/-! ## The invariant -/

/-- A call in the fiber `o` that has not taken a flag. -/
def Waiting (o : Option ℕ) : Point → Prop
  | .entry _ => True
  | .trylock source _ => source = o
  | _ => False

/-- Calls in the fiber `o` that have not taken a flag. -/
def Quiet (o : Option ℕ) (calls : List Point) : Prop := ∀ p ∈ calls, Waiting o p

/-- The calls of a thread in the fiber `o`, with the value of `current`. -/
def Shape (o cur : Option ℕ) : List Point → Prop
  | [] => cur = o
  | .entry _ :: rest => Shape o cur rest
  | .trylock source _ :: rest =>
      Shape o cur rest ∧ (rest.filterMap tried = [] → source = o)
  | .setCurrent source target :: rest =>
      source = o ∧ cur = o ∧ o ≠ some target ∧ Quiet o rest
  | .setJmp source target :: rest =>
      source = o ∧ cur = some target ∧ o ≠ some target ∧ Quiet o rest
  | .unlock (.ultSwitchTo f target) :: rest | .longJmp (.ultSwitchTo f target) :: rest =>
      o = some f ∧ cur = some target ∧ f ≠ target ∧ Quiet o rest
  | _ => False

/-- A call whose flag is the only one that the thread still holds. -/
def jumping : Point → Bool
  | .longJmp _ => true
  | _ => false

/-- The fiber that a thread executes and has not released. -/
def executing (th : Thread) : Option ℕ := if th.calls.any jumping then none else th.stack

/-- The fibers whose flag a thread has set. -/
def owns (th : Thread) : List ℕ := (executing th).toList ++ switchingTo th

/-- A fiber that no thread executes: its context is where it was suspended. -/
def Parked (tr : List (State × Turn)) (s : State) (f : ℕ) : Prop :=
  ∃ k calls v, s.context f = some ⟨.switched k calls, v⟩ ∧ Quiet (some f) calls ∧
    latest (suspends f) tr = some calls

/-- What is true of a thread. -/
structure Local (s : State) (th : Thread) : Prop where
  shape : Shape th.stack th.current th.calls
  saved : ∀ k rest, .unlock k :: rest <:+ th.calls → ∀ f, th.stack = some f →
    ∃ v, s.context f = some ⟨.switched k rest, v⟩

/-- The invariant of the runs that nothing disturbs. -/
structure Inv (tr : List (State × Turn)) (s : State) : Prop where
  own : ∀ q, Local s (s.thread q)
  held : ∀ q, ∀ f ∈ owns (s.thread q), s.running f = true
  owned : ∀ f, s.running f = true → ∃ q, f ∈ owns (s.thread q)
  disjoint : ∀ q q' f, f ∈ owns (s.thread q) → f ∈ owns (s.thread q') → q = q'
  lt : ∀ q, ∀ f ∈ owns (s.thread q), f < s.ultId
  returned_lt : ∀ f ∈ s.returned, f < s.ultId
  parked : ∀ f < s.ultId, (∀ q, executing (s.thread q) ≠ some f) → Parked tr s f

variable {tr : List (State × Turn)} {s t : State} {th : Thread} {q f : ℕ} {m : Turn}
  {o cur : Option ℕ} {calls rest : List Point} {k : ContextSwitch}

theorem Quiet.filterMap_tried (h : Quiet o calls) : calls.filterMap tried = [] := by
  refine List.filterMap_eq_nil_iff.mpr fun p hp => ?_
  have hw : Waiting o p := h p hp
  cases p with
  | entry | trylock => rfl
  | _ => exact hw.elim

theorem Quiet.any_jumping (h : Quiet o calls) : calls.any jumping = false := by
  refine List.any_eq_false.mpr fun p hp => ?_
  have hw : Waiting o p := h p hp
  cases p with
  | entry | trylock => simp [jumping]
  | _ => exact hw.elim

theorem Quiet.not_unlock (h : Quiet o calls) : ¬ .unlock k :: rest <:+ calls :=
  fun hs => h _ (hs.subset List.mem_cons_self)

/-- Calls that have not taken a flag are a shape of their own fiber. -/
theorem Quiet.shape (h : Quiet o calls) : Shape o o calls := by
  induction calls with
  | nil => rfl
  | cons p rest ih =>
    have hw : Waiting o p := h p List.mem_cons_self
    have hrest : Quiet o rest := fun p' hp' => h p' (List.mem_cons_of_mem _ hp')
    cases p with
    | entry => exact ih hrest
    | trylock => exact ⟨ih hrest, fun _ => hw⟩
    | _ => exact hw.elim

/-- Without a flag taken, `current` is the fiber that the thread executes. -/
theorem Shape.quiet (h : Shape o cur calls) (hc : calls.filterMap tried = []) :
    cur = o ∧ Quiet o calls := by
  induction calls with
  | nil => exact ⟨h, fun p hp => absurd hp List.not_mem_nil⟩
  | cons p rest ih =>
    cases p with
    | entry ult =>
      have hrest := ih h (by simpa using hc)
      exact ⟨hrest.1, List.forall_mem_cons.mpr ⟨trivial, hrest.2⟩⟩
    | trylock source target =>
      have hc : rest.filterMap tried = [] := by simpa using hc
      have hrest := ih h.1 hc
      exact ⟨hrest.1, List.forall_mem_cons.mpr ⟨h.2 hc, hrest.2⟩⟩
    | setCurrent => simp at hc
    | setJmp => simp at hc
    | unlock k =>
      cases k with
      | ultSwitchTo => simp at hc
      | _ => exact h.elim
    | longJmp k =>
      cases k with
      | ultSwitchTo => simp at hc
      | _ => exact h.elim

/-- A call before its `ult_unlock` has not left the fiber. -/
theorem Shape.not_jumping (h : Shape o cur calls) (hs : .unlock k :: rest <:+ calls) :
    calls.any jumping = false := by
  induction calls with
  | nil => exact absurd (List.suffix_nil.mp hs) (List.cons_ne_nil _ _)
  | cons p rest' ih =>
    have hcases := List.suffix_cons_iff.mp hs
    cases p with
    | entry ult =>
      have hs' := hcases.resolve_left (by simp)
      simpa [jumping] using ih h hs'
    | trylock source target =>
      have hs' := hcases.resolve_left (by simp)
      simpa [jumping] using ih h.1 hs'
    | setCurrent source target =>
      exact absurd (hcases.resolve_left (by simp)) h.2.2.2.not_unlock
    | setJmp source target =>
      exact absurd (hcases.resolve_left (by simp)) h.2.2.2.not_unlock
    | unlock k' =>
      cases k' with
      | ultSwitchTo => simpa [jumping] using h.2.2.2.any_jumping
      | _ => exact h.elim
    | longJmp k' =>
      cases k' with
      | ultSwitchTo => exact absurd (hcases.resolve_left (by simp)) h.2.2.2.not_unlock
      | _ => exact h.elim

theorem executing_of_quiet (h : Quiet o th.calls) : executing th = th.stack := by
  simp [executing, h.any_jumping]

theorem owns_of_quiet (h : Quiet o th.calls) : owns th = th.stack.toList := by
  simp [owns, executing_of_quiet h, switchingTo, h.filterMap_tried]

theorem mem_owns_of_executing (h : executing th = some f) : f ∈ owns th := by
  simp [owns, h]

theorem stack_of_executing (h : executing th = some f) : th.stack = some f := by
  unfold executing at h
  split at h
  · cases h
  · exact h

theorem Local.of_quiet (hstack : th.stack = o) (hcur : th.current = o) (h : Quiet o th.calls) :
    Local s th where
  shape := by
    rw [hstack, hcur]
    exact h.shape
  saved := fun _ _ hs => absurd hs h.not_unlock

/-! ## What a step keeps -/

/-- A step of the thread `q`.  The flags that it gives up are cleared, those that
it gets were clear, and it leaves the contexts of the fibers alone that it does
not execute. -/
theorem Inv.of_turn (h : Inv tr s) (q : ℕ)
    (hthread : ∀ q', q' ≠ q → t.thread q' = s.thread q')
    (hult : s.ultId ≤ t.ultId) (hreturned : ∀ f ∈ t.returned, f < t.ultId)
    (hlocal : Local t (t.thread q))
    (hrunning : ∀ f, t.running f = true ↔
      f ∈ owns (t.thread q) ∨ s.running f = true ∧ f ∉ owns (s.thread q))
    (hgot : ∀ f ∈ owns (t.thread q),
      (f ∈ owns (s.thread q) ∨ s.running f = false) ∧ f < t.ultId)
    (hcontext : ∀ f, executing (s.thread q) ≠ some f → f < s.ultId →
      t.context f = s.context f ∧ suspends f (s, m) = none)
    (hparked : ∀ f < t.ultId, executing (t.thread q) ≠ some f →
      s.ultId ≤ f ∨ executing (s.thread q) = some f → Parked (tr ++ [(s, m)]) t f) :
    Inv (tr ++ [(s, m)]) t where
  own q' := by
    by_cases hq : q' = q
    · rw [hq]
      exact hlocal
    · rw [hthread q' hq]
      refine ⟨(h.own q').shape, fun k rest hs f hf => ?_⟩
      have hexec : executing (s.thread q') = some f := by
        simp [executing, (h.own q').shape.not_jumping hs, hf]
      have hmem := mem_owns_of_executing hexec
      have hne : executing (s.thread q) ≠ some f := fun hx =>
        hq (h.disjoint q' q f hmem (mem_owns_of_executing hx))
      rw [(hcontext f hne (h.lt q' f hmem)).1]
      exact (h.own q').saved k rest hs f hf
  held q' f hf := by
    refine (hrunning f).mpr ?_
    by_cases hq : q' = q
    · exact Or.inl (hq ▸ hf)
    · rw [hthread q' hq] at hf
      exact Or.inr ⟨h.held q' f hf, fun hx => hq (h.disjoint q' q f hf hx)⟩
  owned f hf := by
    rcases (hrunning f).mp hf with hmem | ⟨hrun, hmem⟩
    · exact ⟨q, hmem⟩
    · obtain ⟨q', hq'⟩ := h.owned f hrun
      have hne : q' ≠ q := fun heq => hmem (heq ▸ hq')
      exact ⟨q', by rwa [hthread q' hne]⟩
  disjoint := by
    have hother : ∀ q' f, q' ≠ q → f ∈ owns (t.thread q) → f ∉ owns (t.thread q') := by
      intro q' f hq hf hf'
      rw [hthread q' hq] at hf'
      rcases (hgot f hf).1 with hold | hclear
      · exact hq (h.disjoint q' q f hf' hold)
      · rw [h.held q' f hf'] at hclear
        cases hclear
    intro q₁ q₂ f h₁ h₂
    by_cases hq₁ : q₁ = q
    · by_contra hne
      exact hother q₂ f (fun hq₂ => hne (hq₁.trans hq₂.symm)) (hq₁ ▸ h₁) h₂
    · by_cases hq₂ : q₂ = q
      · exact absurd h₁ (hother q₁ f hq₁ (hq₂ ▸ h₂))
      · rw [hthread q₁ hq₁] at h₁
        rw [hthread q₂ hq₂] at h₂
        exact h.disjoint q₁ q₂ f h₁ h₂
  lt q' f hf := by
    by_cases hq : q' = q
    · exact (hgot f (hq ▸ hf)).2
    · rw [hthread q' hq] at hf
      exact Nat.lt_of_lt_of_le (h.lt q' f hf) hult
  returned_lt := hreturned
  parked f hf hidle := by
    by_cases hnew : s.ultId ≤ f ∨ executing (s.thread q) = some f
    · exact hparked f hf (hidle q) hnew
    · obtain ⟨hlt, hne⟩ := not_or.mp hnew
      obtain ⟨hctx, hsus⟩ := hcontext f hne (Nat.lt_of_not_le hlt)
      have hidle' : ∀ q', executing (s.thread q') ≠ some f := by
        intro q'
        by_cases hq : q' = q
        · rw [hq]
          exact hne
        · rw [← hthread q' hq]
          exact hidle q'
      obtain ⟨k, calls, v, hc, hquiet, hlast⟩ := h.parked f (Nat.lt_of_not_le hlt) hidle'
      exact ⟨k, calls, v, hctx.trans hc, hquiet, by rw [latest_snoc_of_none hsus, hlast]⟩

/-- The same for a step that takes no flag and gives none up. -/
theorem Inv.of_owns (h : Inv tr s) (q : ℕ)
    (hthread : ∀ q', q' ≠ q → t.thread q' = s.thread q')
    (hult : t.ultId = s.ultId) (hreturned : t.returned = s.returned)
    (hrunning : t.running = s.running)
    (hlocal : Local t (t.thread q)) (howns : owns (t.thread q) = owns (s.thread q))
    (hexec : ∀ f, executing (s.thread q) = some f → executing (t.thread q) = some f)
    (hcontext : ∀ f, executing (s.thread q) ≠ some f → f < s.ultId →
      t.context f = s.context f ∧ suspends f (s, m) = none) :
    Inv (tr ++ [(s, m)]) t := by
  refine h.of_turn q hthread (Nat.le_of_eq hult.symm) ?_ hlocal ?_ ?_ hcontext ?_
  · rw [hreturned, hult]
    exact h.returned_lt
  · intro f
    rw [howns, hrunning]
    have := h.held q f
    tauto
  · intro f hf
    rw [howns] at hf
    rw [hult]
    exact ⟨Or.inl hf, h.lt q f hf⟩
  · intro f hf hidle hor
    rw [hult] at hf
    exact absurd (hexec f (hor.resolve_left (Nat.not_le.mpr hf))) hidle

/-- A step that only moves the thread `q` on. -/
theorem Inv.setThread (h : Inv tr s) (hlocal : Local s th) (howns : owns th = owns (s.thread q))
    (hexec : executing th = executing (s.thread q)) (hsus : ∀ f, suspends f (s, m) = none) :
    Inv (tr ++ [(s, m)]) (s.setThread q th) := by
  have hself : (s.setThread q th).thread q = th := setThread_self th
  refine h.of_owns q (fun q' hq => setThread_of_ne hq th) rfl rfl rfl ?_ (by rw [hself, howns]) ?_
    (fun f _ _ => ⟨rfl, hsus f⟩)
  · rw [hself]
    exact ⟨hlocal.shape, hlocal.saved⟩
  · intro f hf
    rw [hself, hexec, hf]

/-- The same for the calls of the thread. -/
theorem Inv.setCalls (h : Inv tr s)
    (hshape : Shape (s.thread q).stack (s.thread q).current calls)
    (hsaved : ∀ k rest, .unlock k :: rest <:+ calls → .unlock k :: rest <:+ (s.thread q).calls)
    (htried : calls.filterMap tried = (s.thread q).calls.filterMap tried)
    (hjump : calls.any jumping = (s.thread q).calls.any jumping)
    (hsus : ∀ f, suspends f (s, m) = none) :
    Inv (tr ++ [(s, m)]) (s.setCalls q calls) := by
  have hexec : executing { s.thread q with calls := calls } = executing (s.thread q) := by
    simp only [executing, hjump]
  refine h.setThread ⟨hshape, fun k rest hs => ?_⟩ ?_ hexec hsus
  · exact (h.own q).saved k rest (hsaved k rest hs)
  · simp only [owns, hexec, switchingTo, htried]

/-! ## The steps -/

theorem Inv.not_running (h : Inv tr s) (hf : s.ultId ≤ f) : s.running f = false := by
  by_contra hrun
  obtain ⟨q, hq⟩ := h.owned f (by simpa using hrun)
  exact absurd (h.lt q f hq) (Nat.not_lt.mpr hf)

/-- A new fiber that is given to the program. -/
theorem Inv.returned_cons (h : Inv tr s) : ∀ f ∈ s.ultId :: s.returned, f < s.ultId + 1 :=
  List.forall_mem_cons.mpr ⟨Nat.lt_succ_self _, fun f hf => Nat.lt_succ_of_lt (h.returned_lt f hf)⟩

theorem inv_call {ult : Option ℕ} (h : Inv tr s) (hact : m.act = .call ult) :
    Inv (tr ++ [(s, m)])
      (s.setCalls m.tid (.entry ult :: (s.thread m.tid).calls)) := by
  refine h.setCalls (h.own m.tid).shape (fun k rest hs => ?_) (by simp [List.filterMap_cons])
    (by simp [jumping]) (fun f => by simp [suspends, hact])
  exact (List.suffix_cons_iff.mp hs).resolve_left (by simp)

theorem inv_entry {ult : Option ℕ} (h : Inv tr s) (hact : m.act = .step)
    (hcalls : (s.thread m.tid).calls = .entry ult :: rest)
    (ht : s.ultSwitchTo m.tid (.entry ult) rest m.rax = .ok t) : Inv (tr ++ [(s, m)]) t := by
  have hshape := (h.own m.tid).shape
  have hsus : ∀ f, suspends f (s, m) = none := fun f => by simp [suspends, hact, hcalls]
  rw [hcalls] at hshape
  cases ult with
  | none =>
    cases ht
    refine h.setCalls hshape (fun k rest' hs => ?_) (by simp [hcalls, List.filterMap_cons])
      (by simp [hcalls, jumping]) hsus
    rw [hcalls]
    exact List.suffix_cons_iff.mpr (Or.inr hs)
  | some target =>
    cases ht
    refine h.setCalls ⟨hshape, fun hc => ?_⟩ (fun k rest' hs => ?_)
      (by simp [hcalls, List.filterMap_cons])
      (by simp [hcalls, jumping]) hsus
    · exact (hshape.quiet hc).1
    · rw [hcalls]
      exact List.suffix_cons_iff.mpr (Or.inr ((List.suffix_cons_iff.mp hs).resolve_left (by simp)))

/-- A thread that takes the flag of `target`. -/
theorem inv_taken {source : Option ℕ} {target : ℕ} (h : Inv tr s)
    (hact : m.act = .step) (hcalls : (s.thread m.tid).calls = .trylock source target :: rest)
    (hreturned : target ∈ s.returned) (hclear : s.running target = false)
    (hnone : rest.filterMap tried = []) :
    Inv (tr ++ [(s, m)])
      (setCalls (s.setRunning target true) m.tid (.setCurrent source target :: rest)) := by
  have hshape := (h.own m.tid).shape
  rw [hcalls] at hshape
  obtain ⟨hcur, hquiet⟩ := hshape.quiet (by simpa using hnone)
  have hsource : source = (s.thread m.tid).stack := hshape.2 hnone
  have hrest : Quiet (s.thread m.tid).stack rest :=
    fun p hp => hquiet p (List.mem_cons_of_mem _ hp)
  rw [← hcalls] at hquiet
  have howns := owns_of_quiet hquiet
  have hne : (s.thread m.tid).stack ≠ some target := by
    intro heq
    have hheld := h.held m.tid target (by simp [howns, heq])
    rw [hclear] at hheld
    cases hheld
  let th : Thread := { s.thread m.tid with calls := .setCurrent source target :: rest }
  have hthread : (setCalls (s.setRunning target true) m.tid
      (.setCurrent source target :: rest)).thread m.tid = th := setCalls_self _
  have hexec : executing th = (s.thread m.tid).stack := by
    simp [executing, th, jumping, hrest.any_jumping]
  have howns' : owns th = owns (s.thread m.tid) ++ [target] := by
    simp only [owns, hexec, executing_of_quiet hquiet, switchingTo, th, hcalls,
      List.filterMap_cons, tried_setCurrent, tried_trylock, hnone, List.append_nil]
  refine h.of_turn m.tid (fun q' hq => setCalls_of_ne hq _) (Nat.le_refl _) h.returned_lt ?_ ?_ ?_
    (fun f _ _ => ⟨rfl, by simp [suspends, hact, hcalls]⟩) ?_
  · rw [hthread]
    refine ⟨⟨hsource, hcur, hne, hrest⟩, fun k rest' hs => ?_⟩
    exact absurd ((List.suffix_cons_iff.mp hs).resolve_left (by simp)) hrest.not_unlock
  · intro f
    rw [hthread, howns', List.mem_append, List.mem_singleton]
    by_cases hf : f = target
    · have hrun : (s.setRunning target true).running target = true := setRunning_self true
      rw [hf]
      exact iff_of_true hrun (Or.inl (Or.inr rfl))
    · have hrun : (s.setRunning target true).running f = s.running f := setRunning_of_ne hf true
      have := h.held m.tid f
      show (s.setRunning target true).running f = true ↔ _
      rw [hrun]
      tauto
  · intro f hf
    rw [hthread, howns', List.mem_append, List.mem_singleton] at hf
    rcases hf with hf | rfl
    · exact ⟨Or.inl hf, h.lt m.tid f hf⟩
    · exact ⟨Or.inr hclear, h.returned_lt f hreturned⟩
  · intro f hf hidle hor
    rw [hthread, hexec, ← executing_of_quiet hquiet] at hidle
    exact absurd (hor.resolve_left (Nat.not_le.mpr hf)) hidle

theorem inv_trylock {source : Option ℕ} {target : ℕ} (h : Inv tr s)
    (hact : m.act = .step) (hcalls : (s.thread m.tid).calls = .trylock source target :: rest)
    (hund : undisturbed s m = true)
    (ht : s.ultSwitchTo m.tid (.trylock source target) rest m.rax = .ok t) :
    Inv (tr ++ [(s, m)]) t := by
  have hshape := (h.own m.tid).shape
  rw [hcalls] at hshape
  simp only [ultSwitchTo] at ht
  split at ht
  · cases ht
  · rename_i hreturned
    split at ht
    · cases ht
      refine h.setCalls hshape.1 (fun k rest' hs => ?_) (by simp [hcalls, List.filterMap_cons])
        (by simp [hcalls, jumping]) (fun f => by simp [suspends, hact, hcalls])
      rw [hcalls]
      exact List.suffix_cons_iff.mpr (Or.inr hs)
    · rename_i hrun
      cases ht
      have hclear : s.running target = false := by simpa using hrun
      have hnone : rest.filterMap tried = [] := by
        simp only [undisturbed, hact, hcalls, hclear, Bool.false_or, List.all_eq_true,
          Option.isNone_iff_eq_none] at hund
        exact List.filterMap_eq_nil_iff.mpr hund
      exact inv_taken h hact hcalls (not_not.mp hreturned) hclear hnone

theorem inv_setCurrent {source : Option ℕ} {target : ℕ} (h : Inv tr s)
    (hact : m.act = .step) (hcalls : (s.thread m.tid).calls = .setCurrent source target :: rest)
    (ht : s.ultSwitchTo m.tid (.setCurrent source target) rest m.rax = .ok t) :
    Inv (tr ++ [(s, m)]) t := by
  have hshape := (h.own m.tid).shape
  rw [hcalls] at hshape
  obtain ⟨hsource, _, hne, hquiet⟩ := hshape
  cases ht
  have hexec : executing { s.thread m.tid with
      current := some target, calls := .setJmp source target :: rest } =
      executing (s.thread m.tid) := by
    simp [executing, hcalls, jumping]
  refine h.setThread ⟨⟨hsource, rfl, hne, hquiet⟩, fun k rest' hs => ?_⟩ ?_ hexec
    (fun f => by simp [suspends, hact, hcalls])
  · exact absurd ((List.suffix_cons_iff.mp hs).resolve_left (by simp)) hquiet.not_unlock
  · simp [owns, hexec, switchingTo, hcalls]

theorem inv_setJmp {source : Option ℕ} {target : ℕ} (h : Inv tr s)
    (hact : m.act = .step) (hcalls : (s.thread m.tid).calls = .setJmp source target :: rest)
    (ht : s.ultSwitchTo m.tid (.setJmp source target) rest m.rax = .ok t) :
    Inv (tr ++ [(s, m)]) t := by
  have hshape := (h.own m.tid).shape
  rw [hcalls] at hshape
  obtain ⟨hsource, hcur, hne, hquiet⟩ := hshape
  cases source with
  | none => cases ht
  | some g =>
    cases ht
    let k : ContextSwitch := .ultSwitchTo g target
    let th : Thread := { s.thread m.tid with calls := .unlock k :: rest }
    have hthread : (setCalls (s.setContext g ⟨.switched k rest, m.rax⟩) m.tid
        (.unlock k :: rest)).thread m.tid = th := setCalls_self _
    have hexec : executing (s.thread m.tid) = some g := by
      simp [executing, hcalls, jumping, hquiet.any_jumping, ← hsource]
    have hexec' : executing th = some g := by
      simp [executing, th, jumping, hquiet.any_jumping, ← hsource]
    have howns' : owns th = owns (s.thread m.tid) := by
      simp [owns, hexec, hexec', switchingTo, th, k, hcalls]
    refine h.of_owns m.tid (fun q' hq => setCalls_of_ne hq _) rfl rfl rfl ?_
      (by rw [hthread, howns']) ?_ ?_
    · rw [hthread]
      have hgt : g ≠ target := fun heq => hne (hsource.symm.trans (congrArg some heq))
      refine ⟨⟨hsource.symm, hcur, hgt, hquiet⟩, fun k' rest' hs f hf => ?_⟩
      rcases List.suffix_cons_iff.mp hs with heq | hs
      · cases heq
        have hfg : g = f := Option.some.inj (hsource.trans hf)
        exact ⟨m.rax, hfg ▸ setContext_self _⟩
      · exact absurd hs hquiet.not_unlock
    · intro f hf
      rw [hthread, hexec', ← hexec, hf]
    · intro f hidle _
      have hfg : f ≠ g := fun heq => hidle (heq ▸ hexec)
      exact ⟨setContext_of_ne hfg _, by simp [suspends, hact, hcalls]⟩

theorem inv_unlock (h : Inv tr s) (hact : m.act = .step)
    (hcalls : (s.thread m.tid).calls = .unlock k :: rest)
    (ht : s.ultSwitchTo m.tid (.unlock k) rest m.rax = .ok t) : Inv (tr ++ [(s, m)]) t := by
  have hshape := (h.own m.tid).shape
  rw [hcalls] at hshape
  cases k with
  | contextCreate => exact hshape.elim
  | contextCreateBoot => exact hshape.elim
  | ultSwitchTo g target =>
    obtain ⟨hstack, hcur, hne, hquiet⟩ := hshape
    cases ht
    let k : ContextSwitch := .ultSwitchTo g target
    let th : Thread := { s.thread m.tid with calls := .longJmp k :: rest }
    have hthread : (setCalls (s.setRunning g false) m.tid
        (.longJmp k :: rest)).thread m.tid = th := setCalls_self _
    have hexec : executing (s.thread m.tid) = some g := by
      simp [executing, hcalls, jumping, hquiet.any_jumping, hstack]
    have hexec' : executing th = none := by simp [executing, th, jumping]
    have howns : owns (s.thread m.tid) = [g, target] := by
      simp [owns, hexec, switchingTo, hcalls, hquiet.filterMap_tried]
    have howns' : owns th = [target] := by
      simp [owns, hexec', switchingTo, th, k, hquiet.filterMap_tried]
    have hmem : target ∈ owns (s.thread m.tid) := by simp [howns]
    refine h.of_turn m.tid (fun q' hq => setCalls_of_ne hq _) (Nat.le_refl _) h.returned_lt ?_ ?_ ?_ ?_ ?_
    · rw [hthread]
      refine ⟨⟨hstack, hcur, hne, hquiet⟩, fun k' rest' hs => ?_⟩
      exact absurd ((List.suffix_cons_iff.mp hs).resolve_left (by simp)) hquiet.not_unlock
    · intro f
      rw [hthread, howns, howns']
      by_cases hf : f = g
      · have hrun : (s.setRunning g false).running g = false := setRunning_self false
        have : g ≠ target := hne
        rw [hf]
        show (s.setRunning g false).running g = true ↔ _
        rw [hrun]
        simp [this]
      · have hrun : (s.setRunning g false).running f = s.running f := setRunning_of_ne hf false
        have hheld := h.held m.tid target hmem
        show (s.setRunning g false).running f = true ↔ _
        rw [hrun]
        by_cases hft : f = target
        · simp [hft, hheld]
        · simp [hf, hft]
    · intro f hf
      rw [hthread, howns', List.mem_singleton] at hf
      rw [hf]
      exact ⟨Or.inl hmem, h.lt m.tid target hmem⟩
    · intro f hidle _
      have hfg : g ≠ f := fun heq => hidle (heq ▸ hexec)
      exact ⟨rfl, by simp [suspends, hact, hcalls, hstack, hfg]⟩
    · intro f hf _ hor
      have hfg : f = g := Option.some.inj
        ((hor.resolve_left (Nat.not_le.mpr hf)).symm.trans hexec)
      subst hfg
      obtain ⟨v, hv⟩ := (h.own m.tid).saved k rest (hcalls ▸ List.suffix_rfl) f hstack
      have hlast : suspends f (s, m) = some rest := by simp [suspends, hact, hcalls, hstack]
      exact ⟨k, rest, v, hv, hstack ▸ hquiet, latest_snoc_of_some hlast tr⟩

/-- A `long_jmp` finds the calls that the fiber was suspended with. -/
theorem of_longJmp (h : Inv tr s) (hact : m.act = .step)
    (hcalls : (s.thread m.tid).calls = .longJmp k :: rest) (hund : undisturbed s m = true)
    (ht : s.ultSwitchTo m.tid (.longJmp k) rest m.rax = .ok t) :
    ∃ source target calls, k = .ultSwitchTo source target ∧
      t = s.setThread m.tid { s.thread m.tid with stack := some target, calls := calls } ∧
      (s.thread m.tid).current = some target ∧ owns (s.thread m.tid) = [target] ∧
      Quiet (some target) calls ∧ latest (suspends target) tr = some calls := by
  have hshape := (h.own m.tid).shape
  rw [hcalls] at hshape
  cases k with
  | contextCreate => exact hshape.elim
  | contextCreateBoot => exact hshape.elim
  | ultSwitchTo source target =>
    obtain ⟨_, hcur, _, hquiet⟩ := hshape
    have hexec : executing (s.thread m.tid) = none := by simp [executing, hcalls, jumping]
    have howns : owns (s.thread m.tid) = [target] := by
      simp [owns, hexec, switchingTo, hcalls, hquiet.filterMap_tried]
    have hmem : target ∈ owns (s.thread m.tid) := by simp [howns]
    have hidle : ∀ q, executing (s.thread q) ≠ some target := by
      intro q hq
      have hself := h.disjoint q m.tid target (mem_owns_of_executing hq) hmem
      rw [hself, hexec] at hq
      cases hq
    obtain ⟨k, calls, v, hc, hsaved, hlast⟩ := h.parked target (h.lt m.tid target hmem) hidle
    have hvalue : Ult.State.savesAgain v = false := by
      simpa [undisturbed, hact, hcalls, ContextSwitch.new, hc, ContextSwitch.value] using hund
    simp only [ultSwitchTo, ContextSwitch.new, hc, resume, ContextSwitch.value, hvalue] at ht
    cases ht
    exact ⟨source, target, calls, rfl, rfl, hcur, howns, hsaved, hlast⟩

theorem inv_longJmp (h : Inv tr s) (hact : m.act = .step)
    (hcalls : (s.thread m.tid).calls = .longJmp k :: rest) (hund : undisturbed s m = true)
    (ht : s.ultSwitchTo m.tid (.longJmp k) rest m.rax = .ok t) : Inv (tr ++ [(s, m)]) t := by
  obtain ⟨source, target, calls, _, hset, hcur, howns, hquiet, _⟩ :=
    of_longJmp h hact hcalls hund ht
  subst hset
  let th : Thread := { s.thread m.tid with stack := some target, calls := calls }
  have hquiet' : Quiet (some target) th.calls := hquiet
  have hself : (s.setThread m.tid th).thread m.tid = th := setThread_self th
  have hexec : executing (s.thread m.tid) = none := by simp [executing, hcalls, jumping]
  have howns' : owns th = owns (s.thread m.tid) := by
    rw [howns]
    exact owns_of_quiet hquiet'
  refine h.of_owns m.tid (fun q' hq => setThread_of_ne hq th) rfl rfl rfl ?_
    (by rw [hself, howns']) ?_ (fun f _ _ => ⟨rfl, by simp [suspends, hact, hcalls]⟩)
  · rw [hself]
    exact Local.of_quiet rfl hcur hquiet'
  · intro f hf
    rw [hexec] at hf
    cases hf

theorem inv_convert (h : Inv tr s) (hact : m.act = .convert)
    (hcalls : (s.thread m.tid).calls = []) (ht : s.ultConvert m.tid m.rax = .ok t) :
    Inv (tr ++ [(s, m)]) t := by
  have hsus : ∀ f, suspends f (s, m) = none := fun f => by simp [suspends, hact]
  cases hstack : (s.thread m.tid).stack with
  | some f =>
    simp only [ultConvert, hstack] at ht
    cases ht
  | none =>
    simp only [ultConvert, hstack] at ht
    cases ht
    let th : Thread := { s.thread m.tid with stack := some s.ultId, current := some s.ultId }
    have hquiet : Quiet (some s.ultId) th.calls := by simp [th, hcalls, Quiet]
    have hquiet' : Quiet none (s.thread m.tid).calls := by simp [hcalls, Quiet]
    have howns' : owns th = [s.ultId] := owns_of_quiet hquiet
    have howns : owns (s.thread m.tid) = [] := by simp [owns_of_quiet hquiet', hstack]
    refine h.of_turn m.tid (fun q' hq => setThread_of_ne hq _) (Nat.le_succ _) h.returned_cons ?_ ?_ ?_ ?_ ?_
    · rw [setThread_self]
      exact Local.of_quiet rfl rfl hquiet
    · intro f
      rw [setThread_self]
      show Function.update s.running s.ultId true f = true ↔ f ∈ owns th ∨ _
      rw [howns, howns']
      by_cases hf : f = s.ultId
      · simp [hf]
      · simp [hf]
    · intro f hf
      rw [setThread_self] at hf
      have hf : f ∈ owns th := hf
      rw [howns', List.mem_singleton] at hf
      rw [hf]
      exact ⟨Or.inr (h.not_running (Nat.le_refl _)), Nat.lt_succ_self _⟩
    · intro f _ hf
      exact ⟨setContext_of_ne (Nat.ne_of_lt hf) _, hsus f⟩
    · intro f hf hidle hor
      rw [setThread_self] at hidle
      have hexec : executing th = some s.ultId := executing_of_quiet hquiet
      have hf : f < s.ultId + 1 := hf
      rcases hor with hge | hold
      · have heq : f = s.ultId := by omega
        exact absurd hexec (heq ▸ hidle)
      · rw [executing_of_quiet hquiet', hstack] at hold
        cases hold

theorem inv_creat {boot : Word} (h : Inv tr s) (hact : m.act = .creat boot)
    (hcalls : (s.thread m.tid).calls = []) (hund : undisturbed s m = true)
    (ht : s.ultCreat m.tid boot m.rax = .ok t) : Inv (tr ++ [(s, m)]) t := by
  have hshape := (h.own m.tid).shape
  rw [hcalls] at hshape
  have hrax : Ult.State.savesAgain m.rax = false := by
    simpa [undisturbed, hact, hcalls] using hund
  cases hcur : (s.thread m.tid).current with
  | none =>
    simp only [ultCreat, hcur] at ht
    cases ht
  | some creator =>
    simp only [ultCreat, hcur, hrax] at ht
    cases ht
    have hstack : (s.thread m.tid).stack = some creator := hshape.symm.trans hcur
    let th : Thread := { s.thread m.tid with
      current := some creator, contextCreat := some s.ultId, calls := [] }
    have hquiet : Quiet (some creator) th.calls := by simp [th, Quiet]
    have hquiet' : Quiet (some creator) (s.thread m.tid).calls := by simp [hcalls, Quiet]
    have howns : owns (s.thread m.tid) = [creator] := by simp [owns_of_quiet hquiet', hstack]
    have howns' : owns th = [creator] := by
      rw [owns_of_quiet hquiet]
      show (s.thread m.tid).stack.toList = [creator]
      rw [hstack]
      rfl
    have hmem : creator ∈ owns (s.thread m.tid) := by simp [howns]
    have hlt := h.lt m.tid creator hmem
    have hclear := h.not_running (Nat.le_refl s.ultId)
    refine h.of_turn m.tid (fun q' hq => setThread_of_ne hq _) (Nat.le_succ _) h.returned_cons ?_ ?_ ?_ ?_ ?_
    · rw [setThread_self]
      exact Local.of_quiet hstack rfl hquiet
    · intro f
      rw [setThread_self]
      show Function.update (Function.update s.running creator true) s.ultId false f = true ↔
        f ∈ owns th ∨ _
      rw [howns, howns']
      by_cases hf : f = s.ultId
      · have hne : f ≠ creator := by omega
        simp [hf, hclear, (hf ▸ hne : s.ultId ≠ creator)]
      · rw [Function.update_of_ne hf]
        by_cases hfc : f = creator
        · simp [hfc]
        · simp [hfc]
    · intro f hf
      rw [setThread_self] at hf
      have hf : f ∈ owns th := hf
      rw [howns', List.mem_singleton] at hf
      rw [hf]
      exact ⟨Or.inl hmem, Nat.lt_succ_of_lt hlt⟩
    · intro f hidle hf
      rw [executing_of_quiet hquiet', hstack] at hidle
      have hne : f ≠ creator := fun heq => hidle (congrArg some heq.symm)
      have hnew : f ≠ s.ultId := Nat.ne_of_lt hf
      refine ⟨?_, by simp [suspends, hact, hcalls, hnew]⟩
      exact (setContext_of_ne hnew _).trans (setContext_of_ne hne _)
    · intro f hf hidle hor
      rw [setThread_self] at hidle
      have hf : f < s.ultId + 1 := hf
      have hexec : executing th = some creator := (executing_of_quiet hquiet).trans hstack
      rw [executing_of_quiet hquiet', hstack, ← hexec] at hor
      have heq : f = s.ultId := by
        have hge := hor.resolve_right hidle
        omega
      have hlast : suspends f (s, m) = some [] := by simp [suspends, hact, hcalls, heq]
      refine ⟨.contextCreateBoot, [], boot, ?_, by simp [Quiet], latest_snoc_of_some hlast tr⟩
      rw [heq]
      exact setContext_self _

theorem inv_init : Inv [] State.init where
  own _ := Local.of_quiet (o := none) rfl rfl (by simp [State.init, Thread.start, Quiet])
  held _ f hf := absurd hf (by simp [State.init, Thread.start, owns, executing, switchingTo])
  owned f hf := by cases hf
  disjoint _ _ f hf := absurd hf (by simp [State.init, Thread.start, owns, executing, switchingTo])
  lt _ f hf := absurd hf (by simp [State.init, Thread.start, owns, executing, switchingTo])
  returned_lt f hf := absurd hf List.not_mem_nil
  parked f hf := absurd hf (Nat.not_lt_zero f)

theorem inv_step (h : Inv tr s) (hm : UndisturbedStep s m t) : Inv (tr ++ [(s, m)]) t := by
  obtain ⟨hund, ht⟩ := hm
  unfold Step exec at ht
  split at ht
  · exact inv_convert h ‹_› ‹_› ht
  · exact inv_creat h ‹_› ‹_› hund ht
  · cases ht
    exact inv_call h ‹_›
  · rename_i p rest hact hcalls
    cases p with
    | entry ult => exact inv_entry h hact hcalls ht
    | trylock source target => exact inv_trylock h hact hcalls hund ht
    | setCurrent source target => exact inv_setCurrent h hact hcalls ht
    | setJmp source target => exact inv_setJmp h hact hcalls ht
    | unlock k => exact inv_unlock h hact hcalls ht
    | longJmp k => exact inv_longJmp h hact hcalls hund ht
  · cases ht

theorem inv_run {tr : List (State × Turn)}
    (h : Run (Recorded UndisturbedStep) State.init tr s) : Inv tr s :=
  h.invariantTrace (I := fun tr s => Inv tr s) (by
    rintro tr s ⟨s', m⟩ t hs ⟨rfl, hm⟩
    exact inv_step hs hm) inv_init

/-! ## The law of the contexts -/

/-- A step writes the context of the fiber that it executes, or of a new one. -/
theorem context_of_exec (h : Inv tr s) (ht : s.exec m = .ok t)
    (hf : t.context f ≠ s.context f) :
    (s.thread m.tid).stack = some f ∨ s.ultId ≤ f := by
  have hshape := (h.own m.tid).shape
  by_contra hno
  obtain ⟨hstack, hlt⟩ := not_or.mp hno
  have hnew : f ≠ s.ultId := by omega
  apply hf
  unfold exec at ht
  split at ht
  · unfold ultConvert at ht
    simp only at ht
    split at ht
    · cases ht
    · cases ht
      exact setContext_of_ne hnew _
  · rename_i hcalls
    rw [hcalls] at hshape
    unfold ultCreat at ht
    simp only at ht
    split at ht
    · cases ht
    · rename_i creator hcur
      cases ht
      have hne : f ≠ creator := fun heq =>
        hstack (hshape.symm.trans (hcur.trans (congrArg some heq.symm)))
      exact (setContext_of_ne hnew _).trans (setContext_of_ne hne _)
  · cases ht
    rfl
  · rename_i p rest _ hcalls
    rw [hcalls] at hshape
    cases p with
    | entry ult => cases ult <;> cases ht <;> rfl
    | trylock source target =>
      simp only [ultSwitchTo] at ht
      split at ht
      · cases ht
      · split at ht <;> cases ht <;> rfl
    | setCurrent source target =>
      cases ht
      rfl
    | setJmp source target =>
      cases source with
      | none => cases ht
      | some g =>
        cases ht
        have hne : f ≠ g := fun heq => hstack (hshape.1.symm.trans (congrArg some heq.symm))
        exact setContext_of_ne hne _
    | unlock k =>
      simp only [ultSwitchTo] at ht
      split at ht <;> cases ht
      rfl
    | longJmp k =>
      simp only [ultSwitchTo] at ht
      split at ht
      · cases ht
      · split at ht <;> cases ht
        unfold resume
        split
        · rfl
        · split <;> rfl
  · cases ht

/-- A fiber whose flag is set is executed, or a thread is switching to it. -/
theorem released_of_inv (h : Inv tr s) (hf : s.running f = true) :
    ∃ q, (s.thread q).stack = some f ∨ f ∈ switchingTo (s.thread q) := by
  obtain ⟨q, hq⟩ := h.owned f hf
  rcases List.mem_append.mp hq with hexec | hswitch
  · exact ⟨q, Or.inl (stack_of_executing (Option.mem_toList.mp hexec))⟩
  · exact ⟨q, Or.inr hswitch⟩

/-- In a run that nothing disturbs, the contexts are intact: a fiber's context is
written by code of the fiber, a switch goes on where the fiber was suspended, and
a flag that is set has a thread. -/
theorem context_integrity {tr : List (State × Turn)} {s : State}
    (h : Run (Recorded UndisturbedStep) State.init tr s) : Intact tr s where
  saved := by
    intro x hx t ht f hf
    obtain ⟨past, future, heq⟩ := List.mem_iff_append.mp hx
    have hsplit : tr = past ++ [x] ++ future := by simp [heq]
    obtain ⟨_, hpast, _⟩ := Run.of_append (hsplit ▸ h)
    obtain ⟨_, hrun, hfirst, _⟩ := Run.of_snoc hpast
    exact context_of_exec (hfirst ▸ inv_run hrun) ht hf
  resumed := by
    intro past x hprefix k rest target hact hcalls hnew t ht
    obtain ⟨future, hsplit⟩ := hprefix
    obtain ⟨_, hpast, _⟩ := Run.of_append (hsplit ▸ h)
    obtain ⟨_, hrun, hfirst, hund, _⟩ := Run.of_snoc hpast
    subst hfirst
    simp only [exec, hact, hcalls] at ht
    obtain ⟨source, target', calls, hk, hset, hcur, _, _, hlast⟩ :=
      of_longJmp (inv_run hrun) hact hcalls hund ht
    subst hk
    cases hnew
    rw [hset, setThread_self]
    exact ⟨rfl, hcur, hlast⟩
  released := fun _ hf => released_of_inv (inv_run h) hf

/-- Thread 0 makes the fibers 0, 1 and 2. -/
def makingRun : List Turn := [⟨0, .convert, 1⟩, ⟨0, .creat 1, 1⟩, ⟨0, .creat 1, 1⟩]

/-- All steps of a call of `ult_switch_to`. -/
def switchRun (tid target : ℕ) : List Turn :=
  ⟨tid, .call (some target), 1⟩ :: List.replicate 6 ⟨tid, .step, 1⟩

/-- Fiber 0 switches to fiber 1 under a handler that switches to fiber 2 before
the flag of fiber 1 is taken, and is resumed there by thread 1. -/
theorem context_integrity_nested : ∃ tr s, Run (Recorded UndisturbedStep) State.init tr s ∧
    Intact tr s ∧ (s.thread 1).calls = [.trylock (some 0) 1] := by
  obtain ⟨tr, s, h, hp⟩ := exists_history State.exec undisturbed State.init
    (makingRun ++ [⟨1, .convert, 1⟩, ⟨0, .call (some 1), 1⟩, ⟨0, .step, 1⟩] ++ switchRun 0 2 ++
      switchRun 1 0)
    (fun _ s => (s.thread 1).calls == [.trylock (some 0) 1]) (by decide +kernel)
  have hrun : Run (Recorded UndisturbedStep) State.init tr s := h
  exact ⟨tr, s, hrun, context_integrity hrun, beq_iff_eq.mp hp⟩

/-- A handler that starts after `current = to` saves the context of fiber 1 while
the thread executes fiber 0. -/
theorem context_overwritten : ∃ tr s, Run (Recorded Step) State.init tr s ∧ ¬ Intact tr s := by
  obtain ⟨tr, s, h, hp⟩ := exists_history State.exec (fun _ _ => true) State.init
    (makingRun ++ [⟨0, .call (some 1), 1⟩, ⟨0, .step, 1⟩, ⟨0, .step, 1⟩, ⟨0, .step, 1⟩,
      ⟨0, .call (some 2), 1⟩, ⟨0, .step, 1⟩, ⟨0, .step, 1⟩, ⟨0, .step, 1⟩, ⟨0, .step, 1⟩])
    (fun tr _ => tr.any fun x => (x.1.thread x.2.tid).stack == some 0 && decide (1 < x.1.ultId) &&
      (x.1.exec x.2).toOption.any fun t => t.context 1 != x.1.context 1) (by decide +kernel)
  have hrun : Run (Recorded Step) State.init tr s :=
    h.mono fun s x t hx => ⟨hx.1, hx.2.2⟩
  refine ⟨tr, s, hrun, fun hintact => ?_⟩
  obtain ⟨x, hx, hp⟩ := List.any_eq_true.mp hp
  simp only [Bool.and_eq_true, beq_iff_eq, decide_eq_true_eq] at hp
  obtain ⟨⟨hstack, hlt⟩, hwrite⟩ := hp
  obtain ⟨t, ht, hwrite⟩ := of_toOption_any hwrite
  rcases hintact.saved x hx t ht 1 (by simpa using hwrite) with hself | hnew
  · rw [hstack] at hself
    cases hself
  · omega

end LinuxFibers.Ult.Alarm
