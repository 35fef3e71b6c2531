import LinuxFibers.Ult.Basic
import Mathlib.Data.List.Basic

/-!
# One thread on a stack

A thread that switches away clears the flag of its fiber while it still executes
on the stack of that fiber, until its `long_jmp`.  `stack_shared` is a run in
which another thread takes the flag and jumps onto the stack in between.

`Inv` is the invariant of the runs in which no `long_jmp` lands in that window
and none makes the `set_jmp` of a macro return 0 (`inOrder`).  It says which
flags a thread holds at each point of its code (`flags`), and that a fiber is
claimed by one thread at most (`claims`, the flags together with a fiber that was
allocated and is not locked yet).  A thread that jumps onto a stack claims the
fiber, so that nobody else executes there but a thread that is leaving it.
-/

namespace LinuxFibers.Ult

open LinuxFibers.Lib State Fibers

/-- The fibers that a thread has for itself. -/
def claims (th : Thread) : List ℕ :=
  match th.pc with
  | .user => th.current.toList
  | .tried source target => [source, target]
  | .setJmp k | .unlock k => (k.old th.current th.contextCreat).toList ++ (k.new th.current).toList
  | .longJmp k => (k.new th.current).toList
  | .lockNew ctx => ctx :: th.current.toList
  | .lockCreator => th.stack.toList

/-- The fibers whose flag a thread has set. -/
def flags (th : Thread) : List ℕ :=
  match th.pc with
  | .lockNew _ => th.current.toList
  | _ => claims th

/-- The fiber that a thread has unlocked and whose stack it has not left. -/
def leaving (th : Thread) : Option ℕ :=
  match th.pc with
  | .longJmp k => k.old th.current th.contextCreat
  | _ => none

/-- The `set_jmp` of a macro does not return 0 a second time. -/
def leavesMacro (c : ExecContext) (value : Word) : Bool :=
  match c.resume with
  | .switched _ => !savesAgain value
  | _ => true

/-- A `long_jmp` takes the stack of a fiber that no thread is leaving, and leaves
the macro behind. -/
def inOrder (threads : List ℕ) (s : State) (m : Turn) : Bool :=
  let th := s.thread m.tid
  match th.pc, m.act with
  | .longJmp k, .step => (k.new th.current).all fun f =>
      (threads.all fun q => leaving (s.thread q) != some f) &&
      (s.context f).all fun c => leavesMacro c (k.value c.rax)
  | _, _ => true

/-- The steps in order. -/
def OrderedStep (threads : List ℕ) (s : State) (m : Turn) (t : State) : Prop :=
  inOrder threads s m = true ∧ Step threads s m t

/-! ## The invariant -/

/-- The operands of a macro while a thread executes it. -/
structure Operands (k : ContextSwitch) (th : Thread) : Prop where
  old : k.old th.current th.contextCreat = th.stack
  some_old : ∃ f, k.old th.current th.contextCreat = some f
  some_new : ∃ f, k.new th.current = some f
  ne : k.old th.current th.contextCreat ≠ k.new th.current
  current : ∀ source target, k = .ultSwitchTo source target → th.current = some target

/-- The thread-local variables of a thread, from its point in the code. -/
def Shape (th : Thread) : Prop :=
  match th.pc with
  | .user => th.current = th.stack
  | .tried source target => th.stack = some source ∧ th.current = some source ∧ source ≠ target
  | .setJmp k | .unlock k | .longJmp k => Operands k th ∧
      ∀ ctx, k = .contextCreate ctx → th.contextCreat = some ctx
  | .lockNew ctx => th.current = th.stack ∧ th.contextCreat = some ctx ∧
      ∃ c, th.current = some c ∧ c ≠ ctx
  | .lockCreator => th.contextCreat = th.stack ∧ (∃ ctx, th.stack = some ctx) ∧
      ∃ c, th.current = some c

/-- The fiber that a thread is making, as long as its context is that of the
trampoline. -/
def making (th : Thread) : Option ℕ :=
  match th.pc with
  | .lockNew ctx => some ctx
  | .setJmp (.contextCreate ctx) | .unlock (.contextCreate ctx)
  | .longJmp (.contextCreate ctx) => some ctx
  | .lockCreator | .setJmp .contextCreateBoot => th.contextCreat
  | _ => none

/-- What is true of a thread. -/
structure Local (s : State) (th : Thread) : Prop where
  shape : Shape th
  flagged : ∀ f ∈ flags th, s.running f = true
  lt : ∀ f ∈ claims th, f < s.ultId
  leaving_lt : ∀ f, leaving th = some f → f < s.ultId
  current_returned : ∀ f, th.current = some f → f ∈ s.returned
  target_returned : ∀ source target, th.pc = .tried source target → target ∈ s.returned
  hidden : ∀ ctx, th.pc = .lockNew ctx → ctx ∉ s.returned
  fresh : ∀ ctx, making th = some ctx → ∃ v, s.context ctx = some ⟨.trampoline, v⟩
  unlisted : ∀ f ctx v, s.context f = some ⟨.switched (.contextCreate ctx), v⟩ →
    th.pc ≠ .lockNew ctx

/-- The invariant of the ordered runs. -/
structure Inv (threads : List ℕ) (s : State) : Prop where
  own : ∀ q, Local s (s.thread q)
  disjoint : ∀ q q' f, f ∈ claims (s.thread q) → f ∈ claims (s.thread q') → q = q'
  apart : ∀ q q' f, (s.thread q).stack = some f → (s.thread q').stack = some f → q = q'
  returned_lt : ∀ f ∈ s.returned, f < s.ultId
  create_lt : ∀ f ctx v, s.context f = some ⟨.switched (.contextCreate ctx), v⟩ → ctx < s.ultId
  made : ∀ f v, s.context f = some ⟨.trampoline, v⟩ → ∃ q, making (s.thread q) = some f
  outside : ∀ q, q ∉ threads → s.thread q = Thread.start

/-- Where a thread executes: on the stack of a fiber whose flag it holds, or of
the one that it is leaving. -/
theorem stack_flag {th : Thread} (h : Shape th) {f : ℕ} (hf : th.stack = some f) :
    f ∈ flags th ∨ leaving th = some f := by
  unfold Shape at h
  unfold flags leaving claims
  cases hpc : th.pc with
  | user =>
    rw [hpc] at h
    left
    simp [show th.current = th.stack from h, hf]
  | tried source target =>
    rw [hpc] at h
    left
    have := h.1
    rw [hf] at this
    simp [Option.some.inj this]
  | setJmp k =>
    rw [hpc] at h
    left
    simp [h.1.old, hf]
  | unlock k =>
    rw [hpc] at h
    left
    simp [h.1.old, hf]
  | longJmp k =>
    rw [hpc] at h
    right
    simp only
    rw [h.1.old, hf]
  | lockNew ctx =>
    rw [hpc] at h
    left
    simp [h.1, hf]
  | lockCreator =>
    left
    simp [hf]

variable {threads : List ℕ} {s t : State} {th : Thread} {q f : ℕ}

theorem flags_subset (h : f ∈ flags th) : f ∈ claims th := by
  unfold flags at h
  split at h
  · rename_i hpc
    unfold claims
    rw [hpc]
    exact List.mem_cons_of_mem _ h
  · exact h

/-- A fiber in the making is claimed. -/
theorem making_mem (h : Shape th) (hf : making th = some f) : f ∈ claims th := by
  unfold making at hf
  unfold Shape at h
  unfold claims
  cases hpc : th.pc with
  | user =>
    rw [hpc] at hf
    cases hf
  | tried source target =>
    rw [hpc] at hf
    cases hf
  | setJmp k =>
    rw [hpc] at h hf
    cases k with
    | ultSwitchTo source target => cases hf
    | contextCreate ctx =>
      cases hf
      simp [ContextSwitch.new]
    | contextCreateBoot => simp_all [ContextSwitch.old]
  | unlock k =>
    rw [hpc] at hf
    cases k with
    | contextCreate ctx =>
      cases hf
      simp [ContextSwitch.new]
    | _ => cases hf
  | longJmp k =>
    rw [hpc] at hf
    cases k with
    | contextCreate ctx =>
      cases hf
      simp [ContextSwitch.new]
    | _ => cases hf
  | lockNew ctx =>
    rw [hpc] at hf
    cases hf
    exact List.mem_cons_self
  | lockCreator =>
    rw [hpc] at h hf
    have hstack : th.stack = some f := h.1.symm.trans hf
    simp [hstack]

/-! ## What the other threads keep -/

theorem Local.setThread (h : Local s th) (q : ℕ) (th' : Thread) : Local (s.setThread q th') th :=
  { h with }

/-- A flag that is set. -/
theorem Local.lock (h : Local s th) (f : ℕ) : Local (s.setRunning f true) th :=
  { h with
    flagged := fun g hg => by
      by_cases hgf : g = f
      · rw [hgf, setRunning_self]
      · rw [setRunning_of_ne hgf, h.flagged g hg] }

/-- A flag that is cleared. -/
theorem Local.unlock (h : Local s th) (hf : f ∉ flags th) :
    Local (s.setRunning f false) th :=
  { h with
    flagged := fun g hg => by
      have hgf : g ≠ f := fun heq => hf (heq ▸ hg)
      rw [setRunning_of_ne hgf, h.flagged g hg] }

/-- A context that is saved. -/
theorem Local.save (h : Local s th) {c : ExecContext} (hf : making th ≠ some f)
    (hc : ∀ ctx, c.resume = .switched (.contextCreate ctx) → th.pc ≠ .lockNew ctx) :
    Local (s.setContext f c) th :=
  { h with
    fresh := fun g hg => by
      have hgf : g ≠ f := fun heq => hf (heq ▸ hg)
      obtain ⟨v, hv⟩ := h.fresh g hg
      exact ⟨v, by rw [setContext_of_ne hgf, hv]⟩
    unlisted := fun g ctx v hg => by
      by_cases hgf : g = f
      · rw [hgf, setContext_self] at hg
        cases hg
        exact hc ctx rfl
      · rw [setContext_of_ne hgf] at hg
        exact h.unlisted g ctx v hg }

/-- A fiber that is returned to the program. -/
theorem Local.publish (h : Local s th) {ctx : ℕ} (hc : th.pc ≠ .lockNew ctx) :
    Local { s with returned := ctx :: s.returned } th :=
  { h with
    current_returned := fun g hg => List.mem_cons_of_mem _ (h.current_returned g hg)
    target_returned := fun a b hg => List.mem_cons_of_mem _ (h.target_returned a b hg)
    hidden := fun g hg hmem => by
      rcases List.mem_cons.mp hmem with rfl | hmem
      · exact hc hg
      · exact h.hidden g hg hmem }

/-- An `id` that is given out. -/
theorem Local.next (h : Local s th) : Local { s with ultId := s.ultId + 1 } th :=
  { h with
    lt := fun g hg => Nat.lt_succ_of_lt (h.lt g hg)
    leaving_lt := fun g hg => Nat.lt_succ_of_lt (h.leaving_lt g hg) }

/-- A thread that is neither about to leave a stack nor about to lock a new
fiber. -/
theorem Local.busy (hshape : Shape th) (hflags : flags th = claims th)
    (hclaims : ∀ f ∈ claims th, s.running f = true ∧ f < s.ultId) (hleaving : leaving th = none)
    (hcurrent : ∀ f, th.current = some f → f ∈ s.returned)
    (htarget : ∀ source target, th.pc = .tried source target → target ∈ s.returned)
    (hnew : ∀ ctx, th.pc ≠ .lockNew ctx)
    (hfresh : ∀ ctx, making th = some ctx → ∃ v, s.context ctx = some ⟨.trampoline, v⟩) :
    Local s th := by
  refine ⟨hshape, fun f hf => ?_, fun f hf => (hclaims f hf).2, fun f hf => ?_, hcurrent, htarget,
    fun ctx hctx => absurd hctx (hnew ctx), hfresh, fun _ ctx _ _ => hnew ctx⟩
  · rw [hflags] at hf
    exact (hclaims f hf).1
  · rw [hleaving] at hf
    cases hf

/-- The invariant after a step of the thread `q`, which becomes `th`. -/
theorem Inv.move (h : Inv threads s) (hq : q ∈ threads)
    (hthread : t.thread = Function.update s.thread q th)
    (hothers : ∀ q', q' ≠ q → Local t (s.thread q')) (hown : Local t th)
    (hclaims : ∀ f ∈ claims th, f ∈ claims (s.thread q) ∨
      ∀ q', q' ≠ q → f ∉ claims (s.thread q'))
    (hstack : th.stack = (s.thread q).stack ∨
      ∀ f, th.stack = some f → ∀ q', q' ≠ q → (s.thread q').stack ≠ some f)
    (hreturned : ∀ f ∈ t.returned, f < t.ultId)
    (hcreate : ∀ f ctx v, t.context f = some ⟨.switched (.contextCreate ctx), v⟩ → ctx < t.ultId)
    (hmade : ∀ f v, t.context f = some ⟨.trampoline, v⟩ →
      making th = some f ∨ ∃ q', q' ≠ q ∧ making (s.thread q') = some f) :
    Inv threads t := by
  have hself : t.thread q = th := by rw [hthread, Function.update_self]
  have hother : ∀ q', q' ≠ q → t.thread q' = s.thread q' := fun q' hne => by
    rw [hthread, Function.update_of_ne hne]
  have hfar : ∀ q', q' ≠ q → ∀ f ∈ claims th, f ∉ claims (s.thread q') := by
    intro q' hne f hf hf'
    rcases hclaims f hf with hmem | hnone
    · exact hne (h.disjoint q' q f hf' hmem)
    · exact hnone q' hne hf'
  have hapart : ∀ q', q' ≠ q → ∀ f, th.stack = some f → (s.thread q').stack ≠ some f := by
    intro q' hne f hf hf'
    rcases hstack with heq | hnone
    · exact hne (h.apart q' q f hf' (heq ▸ hf))
    · exact hnone f hf q' hne hf'
  refine ⟨fun q' => ?_, fun q₁ q₂ f h₁ h₂ => ?_, fun q₁ q₂ f h₁ h₂ => ?_, hreturned, hcreate,
    fun f v hv => ?_, fun q' hq' => ?_⟩
  · by_cases hne : q' = q
    · rw [hne, hself]
      exact hown
    · rw [hother q' hne]
      exact hothers q' hne
  · by_cases hne₁ : q₁ = q <;> by_cases hne₂ : q₂ = q
    · rw [hne₁, hne₂]
    · rw [hne₁, hself] at h₁
      rw [hother q₂ hne₂] at h₂
      exact absurd h₂ (hfar q₂ hne₂ f h₁)
    · rw [hne₂, hself] at h₂
      rw [hother q₁ hne₁] at h₁
      exact absurd h₁ (hfar q₁ hne₁ f h₂)
    · rw [hother q₁ hne₁] at h₁
      rw [hother q₂ hne₂] at h₂
      exact h.disjoint q₁ q₂ f h₁ h₂
  · by_cases hne₁ : q₁ = q <;> by_cases hne₂ : q₂ = q
    · rw [hne₁, hne₂]
    · rw [hne₁, hself] at h₁
      rw [hother q₂ hne₂] at h₂
      exact absurd h₂ (hapart q₂ hne₂ f h₁)
    · rw [hne₂, hself] at h₂
      rw [hother q₁ hne₁] at h₁
      exact absurd h₁ (hapart q₁ hne₁ f h₂)
    · rw [hother q₁ hne₁] at h₁
      rw [hother q₂ hne₂] at h₂
      exact h.apart q₁ q₂ f h₁ h₂
  · rcases hmade f v hv with hmk | ⟨q', hne, hmk⟩
    · exact ⟨q, by rw [hself, hmk]⟩
    · exact ⟨q', by rw [hother q' hne, hmk]⟩
  · rw [hother q' fun heq => hq' (heq ▸ hq)]
    exact h.outside q' hq'

/-! ## Steps that take a flag -/

/-- A fiber that the program knows and whose flag is clear is claimed by no
thread. -/
theorem Inv.unclaimed (h : Inv threads s) (hf : f ∈ s.returned) (hrun : s.running f = false)
    (q : ℕ) : f ∉ claims (s.thread q) := by
  intro hmem
  have hloc := h.own q
  have hnot : f ∉ flags (s.thread q) := by
    intro hflag
    rw [hloc.flagged f hflag] at hrun
    cases hrun
  cases hpc : (s.thread q).pc with
  | lockNew ctx =>
    unfold claims at hmem
    unfold flags at hnot
    rw [hpc] at hmem hnot
    rcases List.mem_cons.mp hmem with rfl | hmem
    · exact hloc.hidden f hpc hf
    · exact hnot hmem
  | _ =>
    unfold flags at hnot
    rw [hpc] at hnot
    exact hnot hmem

/-- The fibers in the making after a step of `q` that keeps its own. -/
theorem Inv.made_move (h : Inv threads s) {v : Word}
    (hth : making (s.thread q) = some f → making th = some f)
    (hv : s.context f = some ⟨.trampoline, v⟩) :
    making th = some f ∨ ∃ q', q' ≠ q ∧ making (s.thread q') = some f := by
  obtain ⟨q', hq'⟩ := h.made f v hv
  by_cases hne : q' = q
  · exact Or.inl (hth (hne ▸ hq'))
  · exact Or.inr ⟨q', hne, hq'⟩

/-- A thread that takes the flag of a fiber which no other thread claims. -/
theorem Inv.lock (h : Inv threads s) (hq : q ∈ threads)
    (hother : ∀ q', q' ≠ q → f ∉ claims (s.thread q'))
    (hclaims : ∀ g ∈ claims th, g = f ∨ g ∈ claims (s.thread q))
    (hstack : th.stack = (s.thread q).stack)
    (hmaking : ∀ f, making (s.thread q) = some f → making th = some f)
    (hown : Local (s.setRunning f true) th) :
    Inv threads ((s.setRunning f true).setThread q th) := by
  refine h.move hq rfl (fun q' _ => ((h.own q').lock f).setThread q th)
    (hown.setThread q th) (fun g hg => ?_) (Or.inl hstack) h.returned_lt h.create_lt
    (fun g _ => h.made_move (hmaking g))
  rcases hclaims g hg with rfl | hg
  · exact Or.inr hother
  · exact Or.inl hg

/-- A successful `ult_trylock`. -/
theorem inv_tried (h : Inv threads s) (hq : q ∈ threads) {stack contextCreat : Option ℕ}
    {source target : ℕ} (hth : s.thread q = ⟨stack, some source, contextCreat, .user⟩)
    (hret : target ∈ s.returned) (hrun : s.running target = false) :
    Inv threads ((s.setRunning target true).setThread q
      ⟨stack, some source, contextCreat, .tried source target⟩) := by
  have hloc := h.own q
  rw [hth] at hloc
  have hstack : some source = stack := hloc.shape
  have hsource : s.running source = true := hloc.flagged source (List.mem_singleton_self source)
  have hne : source ≠ target := by
    rintro rfl
    rw [hrun] at hsource
    cases hsource
  refine h.lock hq (fun q' _ => h.unclaimed hret hrun q') ?_ (by rw [hth]) ?_ ?_
  · intro g hg
    rw [hth]
    rcases List.mem_pair.mp hg with rfl | rfl
    · exact Or.inr (List.mem_singleton_self g)
    · exact Or.inl rfl
  · intro g hg
    rw [hth] at hg
    cases hg
  · refine Local.busy ⟨hstack.symm, rfl, hne⟩ rfl (fun g hg => ?_) rfl hloc.current_returned
      (fun a b hab => ?_) (fun ctx hctx => ?_) (fun ctx hctx => ?_)
    · rcases List.mem_pair.mp hg with rfl | rfl
      · rw [setRunning_of_ne hne]
        exact ⟨hsource, hloc.lt g (List.mem_singleton_self g)⟩
      · exact ⟨setRunning_self true, h.returned_lt g hret⟩
    · cases hab
      exact hret
    · cases hctx
    · cases hctx

/-- `ult_lock(context)` in `context_switch_create`. -/
theorem inv_lockNew (h : Inv threads s) (hq : q ∈ threads) {stack current contextCreat : Option ℕ}
    {ctx : ℕ} (hth : s.thread q = ⟨stack, current, contextCreat, .lockNew ctx⟩) :
    Inv threads ((s.setRunning ctx true).setThread q
      ⟨stack, current, contextCreat, .setJmp (.contextCreate ctx)⟩) := by
  have hloc := h.own q
  rw [hth] at hloc
  obtain ⟨hstack, hcreat, c, hc, hne⟩ := hloc.shape
  have hmem : ctx ∈ claims (s.thread q) := by
    rw [hth]
    exact List.mem_cons_self
  change current = stack at hstack
  change current = some c at hc
  subst hstack hc
  have hclaims : ∀ g ∈ claims ⟨some c, some c, contextCreat, .setJmp (.contextCreate ctx)⟩,
      g = c ∨ g = ctx := fun g hg => List.mem_pair.mp hg
  refine h.lock hq (fun q' hq' hmem' => hq' (h.disjoint q' q ctx hmem' hmem)) ?_ (by rw [hth])
    ?_ ?_
  · intro g hg
    rw [hth]
    rcases hclaims g hg with rfl | rfl
    · exact Or.inr (List.mem_cons_of_mem _ (List.mem_singleton_self g))
    · exact Or.inl rfl
  · intro g hg
    rw [hth] at hg
    exact hg
  · have hops : Operands (.contextCreate ctx)
        ⟨some c, some c, contextCreat, .setJmp (.contextCreate ctx)⟩ := by
      refine ⟨rfl, ⟨c, rfl⟩, ⟨ctx, rfl⟩, ?_, ?_⟩
      · intro heq
        exact hne (Option.some.inj heq)
      · intro a b hab
        cases hab
    refine Local.busy ⟨hops, ?_⟩ rfl (fun g hg => ?_) rfl hloc.current_returned
      (fun a b hab => ?_) (fun ctx' hctx => ?_) hloc.fresh
    · intro ctx' heq
      cases heq
      exact hcreat
    · rcases hclaims g hg with rfl | rfl
      · rw [setRunning_of_ne hne]
        exact ⟨hloc.flagged g (List.mem_singleton_self g),
          hloc.lt g (List.mem_cons_of_mem _ (List.mem_singleton_self g))⟩
      · exact ⟨setRunning_self true, hloc.lt g List.mem_cons_self⟩
    · cases hab
    · cases hctx

/-- `ult_lock(current)` in `context_create_boot`. -/
theorem inv_lockCreator (h : Inv threads s) (hq : q ∈ threads) {stack contextCreat : Option ℕ}
    {c : ℕ} (hth : s.thread q = ⟨stack, some c, contextCreat, .lockCreator⟩)
    (hrun : s.running c = false) :
    Inv threads ((s.setRunning c true).setThread q
      ⟨stack, some c, contextCreat, .setJmp .contextCreateBoot⟩) := by
  have hloc := h.own q
  rw [hth] at hloc
  obtain ⟨hcreat, ⟨ctx, hctx⟩, _⟩ := hloc.shape
  change contextCreat = stack at hcreat
  change stack = some ctx at hctx
  subst hcreat hctx
  have hret : c ∈ s.returned := hloc.current_returned c rfl
  have hrunning : s.running ctx = true := hloc.flagged ctx (List.mem_singleton_self ctx)
  have hne : ctx ≠ c := by
    rintro rfl
    rw [hrun] at hrunning
    cases hrunning
  have hclaims : ∀ g ∈ claims ⟨some ctx, some c, some ctx, .setJmp .contextCreateBoot⟩,
      g = ctx ∨ g = c := fun g hg => List.mem_pair.mp hg
  refine h.lock hq (fun q' _ => h.unclaimed hret hrun q') ?_ (by rw [hth]) ?_ ?_
  · intro g hg
    rw [hth]
    rcases hclaims g hg with rfl | rfl
    · exact Or.inr (List.mem_singleton_self g)
    · exact Or.inl rfl
  · intro g hg
    rw [hth] at hg
    exact hg
  · have hops : Operands .contextCreateBoot
        ⟨some ctx, some c, some ctx, .setJmp .contextCreateBoot⟩ := by
      refine ⟨rfl, ⟨ctx, rfl⟩, ⟨c, rfl⟩, ?_, ?_⟩
      · intro heq
        exact hne (Option.some.inj heq)
      · intro a b hab
        cases hab
    refine Local.busy ⟨hops, ?_⟩ rfl (fun g hg => ?_) rfl hloc.current_returned
      (fun a b hab => ?_) (fun ctx' hctx => ?_) hloc.fresh
    · intro ctx' heq
      cases heq
    · rcases hclaims g hg with rfl | rfl
      · rw [setRunning_of_ne hne]
        exact ⟨hrunning, hloc.lt g (List.mem_singleton_self g)⟩
      · exact ⟨setRunning_self true, h.returned_lt g hret⟩
    · cases hab
    · cases hctx

/-! ## The steps of a macro -/

/-- `current = to`. -/
theorem inv_switched (h : Inv threads s) (hq : q ∈ threads) {stack current contextCreat : Option ℕ}
    {source target : ℕ} (hth : s.thread q = ⟨stack, current, contextCreat, .tried source target⟩) :
    Inv threads (s.setThread q
      ⟨stack, some target, contextCreat, .setJmp (.ultSwitchTo source target)⟩) := by
  have hloc := h.own q
  rw [hth] at hloc
  obtain ⟨hstack, hcurrent, hne⟩ := hloc.shape
  refine h.move hq rfl (fun q' _ => (h.own q').setThread q _) (Local.setThread ?_ q _)
    (fun g hg => ?_) (Or.inl (by rw [hth])) h.returned_lt h.create_lt
    (fun g _ => h.made_move fun hg => ?_)
  · have hops : Operands (.ultSwitchTo source target)
        ⟨stack, some target, contextCreat, .setJmp (.ultSwitchTo source target)⟩ := by
      refine ⟨hstack.symm, ⟨source, rfl⟩, ⟨target, rfl⟩, ?_, ?_⟩
      · intro heq
        exact hne (Option.some.inj heq)
      · intro a b hab
        cases hab
        rfl
    refine Local.busy ⟨hops, ?_⟩ rfl (fun g hg => ?_) rfl (fun g hg => ?_) (fun a b hab => ?_)
      (fun ctx hctx => ?_) (fun ctx hctx => ?_)
    · intro ctx hctx
      cases hctx
    · exact ⟨hloc.flagged g hg, hloc.lt g hg⟩
    · cases hg
      exact hloc.target_returned source target rfl
    · cases hab
    · cases hctx
    · cases hctx
  · rw [hth]
    exact Or.inl hg
  · rw [hth] at hg
    cases hg

/-- `set_jmp`. -/
theorem inv_setJmp (h : Inv threads s) (hq : q ∈ threads) {stack current contextCreat : Option ℕ}
    {k : ContextSwitch} {rax : Word} (hth : s.thread q = ⟨stack, current, contextCreat, .setJmp k⟩)
    (hf : k.old (s.thread q).current (s.thread q).contextCreat = some f) :
    Inv threads ((s.setContext f ⟨.switched k, rax⟩).setThread q
      ⟨stack, current, contextCreat, .unlock k⟩) := by
  have hloc := h.own q
  rw [hth] at hloc hf
  obtain ⟨hops, hcreat⟩ := hloc.shape
  have hmem : f ∈ claims (s.thread q) := by
    rw [hth]
    exact List.mem_append_left _ (by rw [hf]; exact List.mem_singleton_self f)
  have hnew : ∀ ctx, k = .contextCreate ctx → ctx ∈ claims (s.thread q) ∧ ctx ≠ f := by
    rintro ctx rfl
    refine ⟨?_, fun heq => hops.ne ?_⟩
    · rw [hth]
      exact List.mem_append_right _ (List.mem_singleton_self ctx)
    · rw [hf, ← heq]
      rfl
  have hmade : ∀ g, making ⟨stack, current, contextCreat, .unlock k⟩ = some g →
      k = .contextCreate g := by
    intro g hg
    cases k with
    | contextCreate ctx =>
      cases hg
      rfl
    | _ => cases hg
  refine h.move hq rfl (fun q' hq' => Local.setThread ?_ q _) (Local.setThread ?_ q _)
    (fun g hg => ?_) (Or.inl (by rw [hth])) h.returned_lt (fun g ctx v hg => ?_)
    (fun g v hg => ?_)
  · refine (h.own q').save (fun hmk => hq' ?_) (fun ctx hctx hpc => hq' ?_)
    · exact h.disjoint q' q f (making_mem (h.own q').shape hmk) hmem
    · cases hctx
      apply h.disjoint q' q ctx _ (hnew ctx rfl).1
      unfold claims
      rw [hpc]
      exact List.mem_cons_self
  · refine Local.busy ⟨⟨hops.old, hops.some_old, hops.some_new, hops.ne, hops.current⟩, hcreat⟩ rfl
      (fun g hg => ⟨hloc.flagged g hg, hloc.lt g hg⟩) rfl hloc.current_returned (fun a b hab => ?_)
      (fun ctx hctx => ?_) (fun ctx hctx => ?_)
    · cases hab
    · cases hctx
    · obtain rfl := hmade ctx hctx
      obtain ⟨v, hv⟩ := hloc.fresh ctx rfl
      exact ⟨v, (setContext_of_ne (hnew ctx rfl).2 _).trans hv⟩
  · rw [hth]
    exact Or.inl hg
  · change (s.setContext f ⟨.switched k, rax⟩).context g = _ at hg
    by_cases hgf : g = f
    · rw [hgf, setContext_self] at hg
      cases hg
      exact (h.own q).lt ctx (hnew ctx rfl).1
    · rw [setContext_of_ne hgf] at hg
      exact h.create_lt g ctx v hg
  · change (s.setContext f ⟨.switched k, rax⟩).context g = _ at hg
    by_cases hgf : g = f
    · rw [hgf, setContext_self] at hg
      cases hg
    · rw [setContext_of_ne hgf] at hg
      refine h.made_move (fun hmk => ?_) hg
      rw [hth] at hmk
      cases k with
      | ultSwitchTo source target => cases hmk
      | contextCreate ctx => exact hmk
      | contextCreateBoot =>
        change contextCreat = some f at hf
        change contextCreat = some g at hmk
        rw [hf] at hmk
        exact absurd (Option.some.inj hmk).symm hgf

/-- `ult_unlock`. -/
theorem inv_unlock (h : Inv threads s) (hq : q ∈ threads) {stack current contextCreat : Option ℕ}
    {k : ContextSwitch} (hth : s.thread q = ⟨stack, current, contextCreat, .unlock k⟩)
    (hf : k.old (s.thread q).current (s.thread q).contextCreat = some f) :
    Inv threads ((s.setRunning f false).setThread q
      ⟨stack, current, contextCreat, .longJmp k⟩) := by
  have hloc := h.own q
  rw [hth] at hloc hf
  obtain ⟨hops, hcreat⟩ := hloc.shape
  obtain ⟨g, hg⟩ := hops.some_new
  have hne : g ≠ f := by
    rintro rfl
    exact hops.ne (hf.trans hg.symm)
  have hold : f ∈ claims ⟨stack, current, contextCreat, .unlock k⟩ :=
    List.mem_append_left _ (by rw [hf]; exact List.mem_singleton_self f)
  have hnew : g ∈ claims ⟨stack, current, contextCreat, .unlock k⟩ :=
    List.mem_append_right _ (by rw [hg]; exact List.mem_singleton_self g)
  have hmem : f ∈ claims (s.thread q) := by
    rw [hth]
    exact hold
  have hclaims : ∀ i ∈ claims ⟨stack, current, contextCreat, .longJmp k⟩, i = g := by
    intro i hi
    change i ∈ (k.new current).toList at hi
    rw [hg] at hi
    exact List.mem_singleton.mp hi
  have hleft : ∀ i, leaving ⟨stack, current, contextCreat, .longJmp k⟩ = some i → i = f := by
    intro i hi
    change k.old current contextCreat = some i at hi
    rw [hf] at hi
    exact (Option.some.inj hi).symm
  refine h.move hq rfl (fun q' hq' => Local.setThread ?_ q _) (Local.setThread ?_ q _)
    (fun i hi => ?_) (Or.inl (by rw [hth])) h.returned_lt h.create_lt
    (fun i _ => h.made_move fun hmk => ?_)
  · exact (h.own q').unlock fun hmem' => hq' (h.disjoint q' q f (flags_subset hmem') hmem)
  · refine ⟨⟨⟨hops.old, hops.some_old, hops.some_new, hops.ne, hops.current⟩, hcreat⟩,
      fun i hi => ?_, fun i hi => ?_, fun i hi => ?_, hloc.current_returned,
      fun a b hab => ?_, fun ctx hctx => ?_, fun ctx hctx => ?_, fun _ ctx _ _ hctx => ?_⟩
    · rw [hclaims i hi, setRunning_of_ne hne, hloc.flagged g hnew]
    · rw [hclaims i hi]
      exact hloc.lt g hnew
    · rw [hleft i hi]
      exact hloc.lt f hold
    · cases hab
    · cases hctx
    · exact hloc.fresh ctx (by cases k <;> exact hctx)
    · cases hctx
  · rw [hclaims i hi, hth]
    exact Or.inl hnew
  · rw [hth] at hmk
    cases k <;> exact hmk

/-! ## The change of the stack -/

theorem target_mem {stack current contextCreat : Option ℕ} {k : ContextSwitch}
    (hth : s.thread q = ⟨stack, current, contextCreat, .longJmp k⟩)
    (hf : k.new (s.thread q).current = some f) : f ∈ claims (s.thread q) := by
  rw [hth] at hf ⊢
  change f ∈ (k.new current).toList
  rw [hf]
  exact List.mem_singleton_self f

/-- A thread that claims a fiber is alone on its stack once the others have left
it. -/
theorem Inv.alone (h : Inv threads s) (hmem : f ∈ claims (s.thread q))
    (hfree : ∀ q', leaving (s.thread q') ≠ some f) {q' : ℕ} (hne : q' ≠ q) :
    (s.thread q').stack ≠ some f := by
  intro hstack
  rcases stack_flag (h.own q').shape hstack with hflag | hleave
  · exact hne (h.disjoint q' q f (flags_subset hflag) hmem)
  · exact hfree q' hleave

/-- A context of the trampoline is reached by the `long_jmp` of
`context_switch_create` alone, and that one reaches no other. -/
theorem Inv.trampoline_iff (h : Inv threads s) {stack current contextCreat : Option ℕ}
    {k : ContextSwitch} (hth : s.thread q = ⟨stack, current, contextCreat, .longJmp k⟩)
    (hf : k.new (s.thread q).current = some f) {c : ExecContext} (hc : s.context f = some c) :
    c.resume = .trampoline ↔ k = .contextCreate f := by
  have hmem := target_mem hth hf
  constructor
  · intro hres
    have hctx : s.context f = some ⟨.trampoline, c.rax⟩ := by rw [hc, ← hres]
    obtain ⟨q', hq'⟩ := h.made f c.rax hctx
    have heq : q' = q := h.disjoint q' q f (making_mem (h.own q').shape hq') hmem
    rw [heq, hth] at hq'
    cases k with
    | contextCreate ctx =>
      cases hq'
      rfl
    | _ => cases hq'
  · rintro rfl
    have hmk : making (s.thread q) = some f := by
      rw [hth]
      rfl
    obtain ⟨v, hv⟩ := (h.own q).fresh f hmk
    rw [hc] at hv
    rw [Option.some.inj hv]

/-- The first jump onto the stack of a new fiber. -/
theorem inv_boot (h : Inv threads s) (hq : q ∈ threads) {stack current contextCreat : Option ℕ}
    (hth : s.thread q = ⟨stack, current, contextCreat, .longJmp (.contextCreate f)⟩)
    (hfree : ∀ q', leaving (s.thread q') ≠ some f) :
    Inv threads (s.setThread q ⟨some f, current, contextCreat, .lockCreator⟩) := by
  have htarget : f ∈ claims (s.thread q) := target_mem hth (by rw [hth]; rfl)
  have hloc := h.own q
  rw [hth] at hloc
  obtain ⟨hops, hcreat⟩ := hloc.shape
  have hcreat : contextCreat = some f := hcreat f rfl
  obtain ⟨c, hc⟩ := hops.some_old
  have hc : current = some c := hc
  subst hcreat hc
  have hmem : ∀ g ∈ claims ⟨some f, some c, some f, .lockCreator⟩,
      g ∈ claims ⟨stack, some c, some f, .longJmp (.contextCreate f)⟩ := fun g hg => hg
  refine h.move hq rfl (fun q' _ => (h.own q').setThread q _) (Local.setThread ?_ q _)
    (fun g hg => ?_) (Or.inr fun g hg q' hq' => ?_) h.returned_lt h.create_lt
    (fun g _ => h.made_move fun hmk => ?_)
  · refine Local.busy ⟨rfl, ⟨f, rfl⟩, ⟨c, rfl⟩⟩ rfl
      (fun g hg => ⟨hloc.flagged g (hmem g hg), hloc.lt g (hmem g hg)⟩) rfl hloc.current_returned
      (fun a b hab => ?_) (fun ctx hctx => ?_) hloc.fresh
    · cases hab
    · cases hctx
  · rw [hth]
    exact Or.inl (hmem g hg)
  · rw [← Option.some.inj hg]
    exact h.alone htarget hfree hq'
  · rw [hth] at hmk
    exact hmk

/-- A jump onto the stack of a fiber that has run before. -/
theorem inv_landed (h : Inv threads s) (hq : q ∈ threads) {stack contextCreat : Option ℕ}
    {k : ContextSwitch} (hth : s.thread q = ⟨stack, some f, contextCreat, .longJmp k⟩)
    (hf : k.new (s.thread q).current = some f) (hk : ∀ ctx, k ≠ .contextCreate ctx)
    (hfree : ∀ q', leaving (s.thread q') ≠ some f) :
    Inv threads (s.setThread q ⟨some f, some f, contextCreat, .user⟩) := by
  have htarget := target_mem hth hf
  have hloc := h.own q
  rw [hth] at hloc
  have hmem : f ∈ claims ⟨stack, some f, contextCreat, .longJmp k⟩ := hth ▸ htarget
  have hclaims : ∀ g ∈ claims ⟨some f, some f, contextCreat, .user⟩, g = f :=
    fun g hg => List.mem_singleton.mp hg
  refine h.move hq rfl (fun q' _ => (h.own q').setThread q _) (Local.setThread ?_ q _)
    (fun g hg => ?_) (Or.inr fun g hg q' hq' => ?_) h.returned_lt h.create_lt
    (fun g _ => h.made_move fun hmk => ?_)
  · refine Local.busy rfl rfl (fun g hg => ?_) rfl hloc.current_returned (fun a b hab => ?_)
      (fun ctx hctx => ?_) (fun ctx hctx => ?_)
    · rw [hclaims g hg]
      exact ⟨hloc.flagged f hmem, hloc.lt f hmem⟩
    · cases hab
    · cases hctx
    · cases hctx
  · rw [hclaims g hg]
    exact Or.inl htarget
  · rw [← Option.some.inj hg]
    exact h.alone htarget hfree hq'
  · rw [hth] at hmk
    cases k with
    | contextCreate ctx => exact absurd rfl (hk ctx)
    | _ => cases hmk

/-- The return of `ult_creat`, on whatever thread it happens. -/
theorem Inv.publish (h : Inv threads s) {ctx : ℕ} {v : Word}
    (hf : s.context f = some ⟨.switched (.contextCreate ctx), v⟩) :
    Inv threads { s with returned := ctx :: s.returned } :=
  { h with
    own := fun q => (h.own q).publish ((h.own q).unlisted f ctx v hf)
    returned_lt := fun g hg => by
      rcases List.mem_cons.mp hg with rfl | hg
      · exact h.create_lt f g v hf
      · exact h.returned_lt g hg }

/-- `long_jmp`. -/
theorem inv_longJmp (h : Inv threads s) (hq : q ∈ threads) {stack current contextCreat : Option ℕ}
    {k : ContextSwitch} (hth : s.thread q = ⟨stack, current, contextCreat, .longJmp k⟩)
    (hf : k.new (s.thread q).current = some f) {c : ExecContext} (hc : s.context f = some c)
    (hfree : ∀ q', leaving (s.thread q') ≠ some f) (hbeyond : leavesMacro c (k.value c.rax) = true)
    (ht : s.resume q f c (k.value c.rax) = .ok t) : Inv threads t := by
  have hiff := h.trampoline_iff hth hf hc
  by_cases hk : k = .contextCreate f
  · subst hk
    have hres := hiff.mpr rfl
    unfold resume at ht
    rw [hres, hth] at ht
    cases ht
    exact inv_boot h hq hth hfree
  · have hold : ∀ ctx, k ≠ .contextCreate ctx := by
      rintro ctx rfl
      rw [hth] at hf
      exact hk (congrArg _ (Option.some.inj hf))
    have hcurrent : current = some f := by
      have hshape := (h.own q).shape
      rw [hth] at hshape hf
      cases k with
      | ultSwitchTo source target =>
        cases hf
        exact hshape.1.current _ _ rfl
      | contextCreate ctx => exact absurd rfl (hold ctx)
      | contextCreateBoot => exact hf
    subst hcurrent
    obtain ⟨r, v⟩ := c
    unfold resume at ht
    rw [hth] at ht
    cases r with
    | trampoline => exact absurd (hiff.mp rfl) hk
    | convert =>
      cases ht
      exact inv_landed h hq hth hf hold hfree
    | switched k' =>
      have hagain : savesAgain (k.value v) = false := by
        simpa [leavesMacro] using hbeyond
      simp only [hagain, Bool.false_eq_true, if_false] at ht
      cases k' with
      | contextCreate ctx =>
        cases ht
        exact inv_landed (h.publish hc) hq hth hf hold hfree
      | _ =>
        cases ht
        exact inv_landed h hq hth hf hold hfree

/-! ## New fibers -/

/-- A new `id` is in the hands of no thread. -/
theorem Inv.new_id (h : Inv threads s) (q : ℕ) :
    s.ultId ∉ claims (s.thread q) ∧ (s.thread q).stack ≠ some s.ultId := by
  have hmem : s.ultId ∉ claims (s.thread q) := fun hmem => Nat.lt_irrefl _ ((h.own q).lt _ hmem)
  refine ⟨hmem, fun hstack => ?_⟩
  rcases stack_flag (h.own q).shape hstack with hflag | hleave
  · exact hmem (flags_subset hflag)
  · exact Nat.lt_irrefl _ ((h.own q).leaving_lt _ hleave)

theorem Inv.new_context (h : Inv threads s) {c : ExecContext}
    (hc : c.resume = .convert ∨ c.resume = .trampoline) (q : ℕ) {s' : State}
    (hs' : Local s' (s.thread q)) : Local (s'.setContext s.ultId c) (s.thread q) := by
  refine hs'.save (fun hmk => (h.new_id q).1 (making_mem hs'.shape hmk)) (fun ctx hctx => ?_)
  rw [hctx] at hc
  rcases hc with hc | hc <;> cases hc

/-- The saved contexts after that of a new fiber. -/
theorem switched_of_new {c : ExecContext} {n : ℕ}
    (hc : c.resume = .convert ∨ c.resume = .trampoline)
    {k : ContextSwitch} {v : Word} (hf : (s.setContext n c).context f = some ⟨.switched k, v⟩) :
    s.context f = some ⟨.switched k, v⟩ := by
  by_cases hfn : f = n
  · rw [hfn, setContext_self] at hf
    cases hf
    rcases hc with hc | hc <;> cases hc
  · rw [setContext_of_ne hfn] at hf
    exact hf

/-- `ult_convert`. -/
theorem inv_convert (h : Inv threads s) (hq : q ∈ threads) {rax : Word}
    (hpc : (s.thread q).pc = .user) (ht : s.ultConvert q rax = .ok t) : Inv threads t := by
  have hnew := h.new_id
  cases hstack : (s.thread q).stack with
  | some _ =>
    simp only [ultConvert, hstack] at ht
    cases ht
  | none =>
    simp only [ultConvert, hstack] at ht
    cases ht
    have hc : Resume.convert = .convert ∨ Resume.convert = .trampoline := Or.inl rfl
    have hclaims : ∀ g ∈ claims ⟨some s.ultId, some s.ultId, (s.thread q).contextCreat, .user⟩,
        g = s.ultId := fun g hg => List.mem_singleton.mp hg
    rw [hpc]
    refine h.move hq rfl (fun q' _ => Local.setThread (h.new_context hc q' ?_) q _)
      (Local.setThread ?_ q _) (fun g hg => ?_) (Or.inr fun g hg q' _ => ?_) (fun g hg => ?_)
      (fun g ctx v hg => ?_) (fun g v hg => ?_)
    · refine Local.lock (Local.publish (h.own q').next fun hpc' => (hnew q').1 ?_) s.ultId
      unfold claims
      rw [hpc']
      exact List.mem_cons_self
    · refine Local.busy rfl rfl (fun g hg => ?_) rfl (fun g hg => ?_) (fun a b hab => ?_)
        (fun ctx hctx => ?_) (fun ctx hctx => ?_)
      · rw [hclaims g hg]
        exact ⟨setRunning_self true, Nat.lt_succ_self _⟩
      · rw [Option.some.inj hg]
        exact List.mem_cons_self
      · cases hab
      · cases hctx
      · cases hctx
    · rw [hclaims g hg]
      exact Or.inr fun q' _ => (hnew q').1
    · rw [← Option.some.inj hg]
      exact (hnew q').2
    · rcases List.mem_cons.mp hg with rfl | hg
      · exact Nat.lt_succ_self _
      · exact Nat.lt_succ_of_lt (h.returned_lt g hg)
    · exact Nat.lt_succ_of_lt (h.create_lt g ctx v (switched_of_new hc hg))
    · by_cases hgn : g = s.ultId
      · rw [hgn] at hg
        cases (setContext_self _).symm.trans hg
      · refine h.made_move (fun hmk => ?_) ((setContext_of_ne hgn _).symm.trans hg)
        unfold making at hmk
        rw [hpc] at hmk
        cases hmk

/-- `ult_creat` up to the return of `raise`. -/
theorem inv_creat (h : Inv threads s) (hq : q ∈ threads) {rax : Word}
    (hpc : (s.thread q).pc = .user) (ht : s.ultCreat q rax = .ok t) : Inv threads t := by
  have hnew := h.new_id
  have hloc := h.own q
  cases hcur : (s.thread q).current with
  | none =>
    simp only [ultCreat, hcur] at ht
    cases ht
  | some c =>
    simp only [ultCreat, hcur] at ht
    cases ht
    have hres : Resume.trampoline = .convert ∨ Resume.trampoline = .trampoline := Or.inr rfl
    have hmem : c ∈ claims (s.thread q) := by
      unfold claims
      rw [hpc, hcur]
      exact List.mem_singleton_self c
    have hne : c ≠ s.ultId := by
      rintro rfl
      exact (hnew q).1 hmem
    have hflag : c ∈ flags (s.thread q) := by
      unfold flags
      rw [hpc]
      exact hmem
    have hshape := hloc.shape
    unfold Shape at hshape
    rw [hpc] at hshape
    change (s.thread q).current = (s.thread q).stack at hshape
    rw [hcur] at hshape
    refine h.move hq rfl (fun q' _ => Local.setThread (h.new_context hres q' ?_) q _)
      (Local.setThread ?_ q _) (fun g hg => ?_) (Or.inl rfl) (fun g hg => ?_)
      (fun g ctx v hg => ?_) (fun g v hg => ?_)
    · exact Local.unlock (h.own q').next fun hflag => (hnew q').1 (flags_subset hflag)
    · refine ⟨⟨hshape, rfl, c, rfl, hne⟩, fun g hg => ?_, fun g hg => ?_,
        fun g hg => ?_, hcur ▸ hloc.current_returned, fun a b hab => ?_, fun ctx hctx hret => ?_,
        fun ctx hctx => ?_, fun g ctx v hg hctx => ?_⟩
      · rw [List.mem_singleton.mp hg]
        exact (setRunning_of_ne hne false).trans (hloc.flagged c hflag)
      · rcases List.mem_cons.mp hg with rfl | hg
        · exact Nat.lt_succ_self _
        · rw [List.mem_singleton.mp hg]
          exact Nat.lt_succ_of_lt (hloc.lt c hmem)
      · cases hg
      · cases hab
      · cases hctx
        exact Nat.lt_irrefl _ (h.returned_lt _ hret)
      · cases hctx
        exact ⟨rax, setContext_self _⟩
      · cases hctx
        exact Nat.lt_irrefl _ (h.create_lt g _ v (switched_of_new hres hg))
    · rcases List.mem_cons.mp hg with rfl | hg
      · exact Or.inr fun q' _ => (hnew q').1
      · rw [List.mem_singleton.mp hg]
        exact Or.inl hmem
    · exact Nat.lt_succ_of_lt (h.returned_lt g hg)
    · exact Nat.lt_succ_of_lt (h.create_lt g ctx v (switched_of_new hres hg))
    · by_cases hgn : g = s.ultId
      · exact Or.inl (hgn ▸ rfl)
      · refine h.made_move (fun hmk => ?_) ((setContext_of_ne hgn _).symm.trans hg)
        unfold making at hmk
        rw [hpc] at hmk
        cases hmk

/-! ## Every run -/

/-- The threads outside the list have not left their first stack. -/
theorem Inv.free (h : Inv threads s)
    (hall : (threads.all fun q => leaving (s.thread q) != some f) = true) (q : ℕ) :
    leaving (s.thread q) ≠ some f := by
  by_cases hq : q ∈ threads
  · exact bne_iff_ne.mp (List.all_eq_true.mp hall q hq)
  · rw [h.outside q hq]
    intro heq
    cases heq

/-- `ult_switch_to`. -/
theorem inv_switchTo (h : Inv threads s) (hq : q ∈ threads) {stack current contextCreat : Option ℕ}
    {ult : Option ℕ} (hth : s.thread q = ⟨stack, current, contextCreat, .user⟩)
    (ht : s.ultSwitchTo q ult = .ok t) : Inv threads t := by
  unfold ultSwitchTo at ht
  cases ult with
  | none =>
    cases ht
    exact h
  | some target =>
    simp only [hth] at ht
    split at ht
    · cases ht
    · rename_i hret
      cases current with
      | none => cases ht
      | some source =>
        cases hrun : s.running target with
        | true =>
          simp only [hrun, if_true] at ht
          cases ht
          exact h
        | false =>
          simp only [hrun, Bool.false_eq_true, if_false] at ht
          cases ht
          exact inv_tried h hq hth (not_not.mp hret) hrun

/-- `ult_lock` spins or takes the flag. -/
theorem of_ultLock {k : ContextSwitch} (ht : s.ultLock q f k = .ok t) :
    t = s ∨ s.running f = false ∧
      t = (s.setRunning f true).setThread q { s.thread q with pc := .setJmp k } := by
  unfold ultLock at ht
  split at ht
  · cases ht
    exact Or.inl rfl
  · rename_i hrun
    cases ht
    exact Or.inr ⟨Bool.eq_false_iff.mpr hrun, rfl⟩

/-- Every step in order keeps the invariant. -/
theorem inv_step {m : Turn} (h : Inv threads s) (hm : OrderedStep threads s m t) :
    Inv threads t := by
  obtain ⟨hord, hq, hexec⟩ := hm
  obtain ⟨q, act, rax⟩ := m
  rcases hth : s.thread q with ⟨stack, current, contextCreat, pc⟩
  simp only [State.exec, hth] at hexec
  simp only [inOrder, hth] at hord
  cases pc with
  | user =>
    have hpc : (s.thread q).pc = .user := by rw [hth]
    cases act with
    | convert => exact inv_convert h hq hpc hexec
    | creat => exact inv_creat h hq hpc hexec
    | step => cases hexec
    | switchTo ult => exact inv_switchTo h hq hth hexec
  | tried source target =>
    cases act with
    | step =>
      cases hexec
      exact inv_switched h hq hth
    | _ => cases hexec
  | lockNew ctx =>
    cases act with
    | step =>
      rcases of_ultLock hexec with rfl | ⟨_, rfl⟩
      · exact h
      · rw [hth]
        exact inv_lockNew h hq hth
    | _ => cases hexec
  | lockCreator =>
    cases act with
    | step =>
      cases current with
      | none => cases hexec
      | some c =>
        rcases of_ultLock hexec with rfl | ⟨hrun, rfl⟩
        · exact h
        · rw [hth]
          exact inv_lockCreator h hq hth hrun
    | _ => cases hexec
  | setJmp k =>
    cases act with
    | step =>
      simp only at hexec
      split at hexec
      · cases hexec
      · rename_i f hf
        cases hexec
        exact inv_setJmp h hq hth (by rw [hth, hf])
    | _ => cases hexec
  | unlock k =>
    cases act with
    | step =>
      simp only at hexec
      split at hexec
      · cases hexec
      · rename_i f hf
        cases hexec
        exact inv_unlock h hq hth (by rw [hth, hf])
    | _ => cases hexec
  | longJmp k =>
    cases act with
    | step =>
      simp only at hexec hord
      split at hexec
      · cases hexec
      · rename_i f hf
        split at hexec
        · cases hexec
        · rename_i c hc
          rw [hf, Option.all_some, Bool.and_eq_true, hc, Option.all_some] at hord
          exact inv_longJmp h hq hth (by rw [hth, hf]) hc (h.free hord.1) hord.2 hexec
    | _ => cases hexec

theorem inv_init (threads : List ℕ) : Inv threads State.init := by
  refine ⟨fun q => ?_, fun q q' f hf => ?_, fun q q' f hf => ?_, fun f hf => ?_,
    fun f ctx v hf => ?_, fun f v hf => ?_, fun q _ => rfl⟩
  · refine Local.busy rfl rfl (fun f hf => ?_) rfl (fun f hf => ?_) (fun a b hab => ?_)
      (fun ctx hctx => ?_) (fun ctx hctx => ?_)
    all_goals contradiction
  all_goals contradiction

/-- Whatever the number of threads and the order of their steps, two of them do
not execute on one stack, as long as no `long_jmp` takes a stack between the
`ult_unlock` and the `long_jmp` of the thread on it, or makes the `set_jmp` of a
macro return 0. -/
theorem stack_exclusive {ms : List Turn} (h : Run (OrderedStep threads) State.init ms s)
    {q q' : ℕ} (hne : q ≠ q') {f : ℕ} (hf : (s.thread q).stack = some f) :
    (s.thread q').stack ≠ some f := by
  have hinv : Inv threads s :=
    h.invariant (fun _ _ _ hs hm => inv_step hs hm) (inv_init threads)
  intro hf'
  exact hne (hinv.apart q q' f hf hf')

/-- Two threads with a fiber of their own, the first of which creates a third
fiber and switches to it, up to its `ult_unlock`. -/
def leavingRun : List Turn :=
  [⟨0, .convert, 1⟩, ⟨0, .creat, 1⟩] ++ List.replicate 8 ⟨0, .step, 1⟩ ++
    [⟨1, .convert, 1⟩, ⟨0, .switchTo (some 1), 1⟩] ++ List.replicate 3 ⟨0, .step, 1⟩

/-- The second thread switches to the fiber of the first one, up to its
`long_jmp`. -/
def takingRun : List Turn := ⟨1, .switchTo (some 0), 1⟩ :: List.replicate 3 ⟨1, .step, 1⟩

/-- The threads exchange their stacks. -/
theorem stack_exclusive_switch : ∃ ms s, Run (OrderedStep [0, 1]) State.init ms s ∧
    (s.thread 0).stack = some 1 ∧ (s.thread 1).stack = some 0 ∧ (s.thread 1).stack ≠ some 1 := by
  obtain ⟨s, h, hp⟩ := exists_run State.exec
    (fun s m => inOrder [0, 1] s m && [0, 1].contains m.tid)
    State.init (leavingRun ++ takingRun ++ [⟨0, .step, 1⟩, ⟨1, .step, 1⟩])
    (fun s => (s.thread 0).stack == some 1 && (s.thread 1).stack == some 0) (by decide +kernel)
  have hrun : Run (OrderedStep [0, 1]) State.init _ s := h.mono fun s m t hm => by
    have hok := (Bool.and_eq_true _ _).mp hm.1
    exact ⟨hok.1, List.contains_iff_mem.mp hok.2, hm.2⟩
  simp only [Bool.and_eq_true, beq_iff_eq] at hp
  exact ⟨_, s, hrun, hp.1, hp.2, stack_exclusive hrun (by decide) hp.1⟩

/-- The flag of the fiber 0 is cleared by the thread 0, which is still on its
stack when the thread 1 jumps there. -/
theorem stack_shared : ∃ ms s, Run (Step [0, 1]) State.init ms s ∧
    (s.thread 0).stack = some 0 ∧ (s.thread 1).stack = some 0 := by
  obtain ⟨s, h, hp⟩ := exists_run State.exec (fun _ m => [0, 1].contains m.tid)
    State.init (leavingRun ++ takingRun ++ [⟨1, .step, 1⟩])
    (fun s => (s.thread 0).stack == some 0 && (s.thread 1).stack == some 0) (by decide +kernel)
  have hrun : Run (Step [0, 1]) State.init _ s :=
    h.mono fun s m t hm => ⟨List.contains_iff_mem.mp hm.1, hm.2⟩
  simp only [Bool.and_eq_true, beq_iff_eq] at hp
  exact ⟨_, s, hrun, hp⟩

theorem resume_stack {c : ExecContext} {value : Word} (ht : s.resume q f c value = .ok t) :
    (t.thread q).stack = some f ∧ ∀ q', q' ≠ q → t.thread q' = s.thread q' := by
  have hset : ∀ (u : State) (th : Thread), u.thread = s.thread → th.stack = some f →
      ((u.setThread q th).thread q).stack = some f ∧
        ∀ q', q' ≠ q → (u.setThread q th).thread q' = s.thread q' := by
    intro u th hu hstack
    exact ⟨by rw [setThread_self, hstack], fun q' hne => by rw [setThread_of_ne hne, hu]⟩
  unfold resume at ht
  split at ht
  · split at ht
    · cases ht
    · cases ht
      exact hset s _ rfl rfl
  · cases ht
    exact hset s _ rfl rfl
  · split at ht
    · cases ht
      exact hset s _ rfl rfl
    · split at ht
      · cases ht
        exact hset _ _ rfl rfl
      · cases ht
        exact hset s _ rfl rfl

/-- Where a `long_jmp` does take a stack in that window, two threads are on it. -/
theorem stack_taken {ms : List Turn} (h : Run (OrderedStep threads) State.init ms s) {m : Turn}
    {k : ContextSwitch} (hpc : (s.thread m.tid).pc = .longJmp k)
    (hf : k.new (s.thread m.tid).current = some f) {q' : ℕ} (hleave : leaving (s.thread q') = some f)
    (ht : s.exec m = .ok t) :
    m.tid ≠ q' ∧ (t.thread m.tid).stack = some f ∧ (t.thread q').stack = some f := by
  have hinv : Inv threads s :=
    h.invariant (fun _ _ _ hs hm => inv_step hs hm) (inv_init threads)
  have hshape := (hinv.own q').shape
  have hshape' := (hinv.own m.tid).shape
  have hstack : (s.thread q').stack = some f := by
    unfold leaving at hleave
    split at hleave
    · rename_i k' hk'
      unfold Shape at hshape
      rw [hk'] at hshape
      exact hshape.1.old.symm.trans hleave
    · cases hleave
  have hne : m.tid ≠ q' := by
    rintro rfl
    unfold leaving at hleave
    unfold Shape at hshape'
    rw [hpc] at hleave hshape'
    exact hshape'.1.ne (hleave.trans hf.symm)
  have hresume : ∃ c, s.resume m.tid f c (k.value c.rax) = .ok t := by
    unfold State.exec at ht
    simp only [hpc] at ht
    cases hact : m.act with
    | step =>
      simp only [hact, hf] at ht
      split at ht
      · cases ht
      · rename_i c _
        exact ⟨c, ht⟩
    | _ => simp [hact] at ht
  obtain ⟨c, hc⟩ := hresume
  obtain ⟨hself, hother⟩ := resume_stack hc
  exact ⟨hne, hself, by rw [hother q' hne.symm, hstack]⟩

end LinuxFibers.Ult
