import LinuxFibers.Lib.Run
import Mathlib.Data.Nat.Notation
import Mathlib.Logic.Function.Basic

/-!
# The threads of `create_threads`

`create_threads` of `multi_thread/src/thread.c` and the threads that it starts,
in atomic steps in any order: a thread reads `thread_counter`, tries the
compare-and-swap, reads the two fields of the block that it was given, calls the
start routine, and frees the block when the routine has returned.

* `create_threads` allocates one block and gives it to all its threads.  The read
  of a block that was freed and a second `free` are `Fault`s.
* `malloc` and `pthread_create` succeed, and the start routine returns and does
  not touch the block.
* The type of the start routine and of its argument are arbitrary, since the code
  only passes them on.

`create_sharesSafely_iff` is the exact number of threads for which the block is
shared safely: at most one.  With more threads some interleavings are safe for a
while, but none lets all threads return: `not_all_returned`.
-/

namespace LinuxFibers.Threads

open LinuxFibers.Lib

/-- `unsigned int`. -/
abbrev Word := BitVec 32

/-- `struct _helper_thread`. -/
structure HelperThread (ρ α : Type) where
  startRoutine : ρ
  arg : α

/-- The next step of a thread in `__helper_create_thread`. -/
inductive Pc (ρ α : Type) where
  /-- The read of `thread_counter` and the write of `tid`. -/
  | readCounter
  /-- The compare-and-swap. -/
  | swap (oldCounter : Word)
  /-- The read of `real_arg->start_routine`. -/
  | loadRoutine
  /-- The read of `real_arg->arg`. -/
  | loadArg (startRoutine : ρ)
  /-- The call of the start routine. -/
  | call (startRoutine : ρ) (arg : α)
  /-- The start routine, up to its return. -/
  | running
  /-- `free(arg)`. -/
  | free
  /-- After `return NULL`. -/
  | returned

/-- The memory and the threads.  The thread `t` is the one that the round `t` of
`create_threads` starts, and `calls t` are the calls that it has made. -/
structure State (ρ α : Type) where
  threadCounter : Word
  block : Option (HelperThread ρ α)
  frees : ℕ
  created : ℕ
  tid : ℕ → Word
  pc : ℕ → Pc ρ α
  calls : ℕ → List (ρ × α)

/-- What stops a thread. -/
inductive Fault where
  | useAfterFree
  | doubleFree
  | misuse
  deriving DecidableEq

/-- The next round of `create_threads`, or the next step of a thread. -/
inductive Act where
  | create
  | step (t : ℕ)

variable {ρ α : Type}

namespace State

/-- `create_threads` up to its loop, with any `thread_counter`. -/
def start (threadCounter : Word) (startRoutine : ρ) (arg : α) : State ρ α :=
  ⟨threadCounter, some ⟨startRoutine, arg⟩, 0, 0, fun _ => 0, fun _ => .readCounter, fun _ => []⟩

/-- A thread that moves on. -/
def goto (s : State ρ α) (t : ℕ) (pc : Pc ρ α) : State ρ α :=
  { s with pc := Function.update s.pc t pc }

/-- One step of a thread. -/
def execThread (s : State ρ α) (t : ℕ) : Except Fault (State ρ α) :=
  match s.pc t with
  | .readCounter =>
      let s' := { s with tid := Function.update s.tid t (s.threadCounter + 1) }
      .ok (s'.goto t (.swap s.threadCounter))
  | .swap oldCounter =>
      if s.threadCounter = oldCounter then
        .ok ({ s with threadCounter := s.tid t }.goto t .loadRoutine)
      else .ok (s.goto t .readCounter)
  | .loadRoutine =>
      match s.block with
      | none => .error .useAfterFree
      | some b => .ok (s.goto t (.loadArg b.startRoutine))
  | .loadArg startRoutine =>
      match s.block with
      | none => .error .useAfterFree
      | some b => .ok (s.goto t (.call startRoutine b.arg))
  | .call startRoutine arg =>
      let calls := Function.update s.calls t (s.calls t ++ [(startRoutine, arg)])
      .ok ({ s with calls := calls }.goto t .running)
  | .running => .ok (s.goto t .free)
  | .free =>
      match s.block with
      | none => .error .doubleFree
      | some _ => .ok ({ s with block := none, frees := s.frees + 1 }.goto t .returned)
  | .returned => .error .misuse

/-- One step of the program, for `n` threads. -/
def exec (n : ℕ) (s : State ρ α) : Act → Except Fault (State ρ α)
  | .create => if s.created < n then .ok { s with created := s.created + 1 } else .error .misuse
  | .step t => if t < s.created then s.execThread t else .error .misuse

end State

/-- The steps of `create_threads(n, ..)` and its threads. -/
def Step (n : ℕ) (s : State ρ α) (act : Act) (s' : State ρ α) : Prop := s.exec n act = .ok s'

/-- The calls that a thread has made when it is at a step. -/
def callsAt (startRoutine : ρ) (arg : α) : Pc ρ α → List (ρ × α)
  | .running | .free | .returned => [(startRoutine, arg)]
  | _ => []

/-- The block is used as it should be: every thread that has not returned can take
its next step, which is no read of a freed block and no second `free`, a thread
has called the start routine with its argument once when it is past the call and
never before, the block was freed at most once, and all threads can still be
created and return. -/
structure SharesSafely (n : ℕ) (startRoutine : ρ) (arg : α) (s : State ρ α) : Prop where
  steps : ∀ t, t < s.created → s.pc t ≠ .returned → ∃ s', Step n s (.step t) s'
  calls : ∀ t, s.calls t = callsAt startRoutine arg (s.pc t)
  frees : s.frees ≤ 1
  finishes : ∃ acts s', Run (Step n) s acts s' ∧ s'.created = n ∧
    ∀ t, t < n → s'.pc t = .returned

namespace State

variable {s : State ρ α} {t u : ℕ}

@[simp] theorem goto_self (pc : Pc ρ α) : (s.goto t pc).pc t = pc :=
  show Function.update s.pc t pc t = pc from Function.update_self t pc s.pc

theorem goto_of_ne (h : u ≠ t) (pc : Pc ρ α) : (s.goto t pc).pc u = s.pc u :=
  show Function.update s.pc t pc u = _ from Function.update_of_ne h pc s.pc

/-! ## The step of a thread at each place -/

theorem execThread_readCounter (h : s.pc t = .readCounter) :
    s.execThread t = .ok ({ s with
      tid := Function.update s.tid t (s.threadCounter + 1) }.goto t (.swap s.threadCounter)) := by
  rw [execThread, h]

theorem execThread_swap {oldCounter : Word} (h : s.pc t = .swap oldCounter) :
    s.execThread t = if s.threadCounter = oldCounter then
        .ok ({ s with threadCounter := s.tid t }.goto t .loadRoutine)
      else .ok (s.goto t .readCounter) := by
  rw [execThread, h]

theorem execThread_loadRoutine (h : s.pc t = .loadRoutine) {b : HelperThread ρ α}
    (hb : s.block = some b) : s.execThread t = .ok (s.goto t (.loadArg b.startRoutine)) := by
  rw [execThread, h, hb]

theorem execThread_loadArg {f : ρ} (h : s.pc t = .loadArg f) {b : HelperThread ρ α}
    (hb : s.block = some b) : s.execThread t = .ok (s.goto t (.call f b.arg)) := by
  rw [execThread, h, hb]

theorem execThread_call {f : ρ} {x : α} (h : s.pc t = .call f x) :
    s.execThread t = .ok ({ s with
      calls := Function.update s.calls t (s.calls t ++ [(f, x)]) }.goto t .running) := by
  rw [execThread, h]

theorem execThread_running (h : s.pc t = .running) : s.execThread t = .ok (s.goto t .free) := by
  rw [execThread, h]

theorem execThread_free (h : s.pc t = .free) {b : HelperThread ρ α} (hb : s.block = some b) :
    s.execThread t = .ok ({ s with block := none, frees := s.frees + 1 }.goto t .returned) := by
  rw [execThread, h, hb]

/-- The three steps that need the block. -/
theorem execThread_freed (hb : s.block = none) {s' : State ρ α}
    (h : s.execThread t = .ok s') : s.pc t ≠ .loadRoutine ∧ (∀ f, s.pc t ≠ .loadArg f) ∧
      s.pc t ≠ .free := by
  refine ⟨fun hpc => ?_, fun f hpc => ?_, fun hpc => ?_⟩ <;> rw [execThread, hpc, hb] at h <;>
    cases h

end State

/-! ## What a step keeps, for any number of threads -/

/-- What a thread has read so far is what `create_threads` was given. -/
def Loaded (startRoutine : ρ) (arg : α) : Pc ρ α → Prop
  | .loadArg f => f = startRoutine
  | .call f x => f = startRoutine ∧ x = arg
  | _ => True

/-- The threads that have returned: none while the block is there, and one since it was
freed. -/
def BlockShared (startRoutine : ρ) (arg : α) (s : State ρ α) : Prop :=
  s.block = some ⟨startRoutine, arg⟩ ∧ s.frees = 0 ∧ (∀ t, s.pc t ≠ .returned) ∨
    s.block = none ∧ s.frees = 1 ∧ ∃ t, s.pc t = .returned ∧ ∀ u, s.pc u = .returned → u = t

/-- The invariant for any number of threads: the calls are right, and the block is
there until the first thread returns. -/
structure Shared (n : ℕ) (startRoutine : ρ) (arg : α) (s : State ρ α) : Prop where
  bounded : s.created ≤ n
  idle : ∀ t, s.created ≤ t → s.pc t = .readCounter
  loaded : ∀ t, Loaded startRoutine arg (s.pc t)
  calls : ∀ t, s.calls t = callsAt startRoutine arg (s.pc t)
  block : BlockShared startRoutine arg s

theorem shared_start (n : ℕ) (threadCounter : Word) (startRoutine : ρ) (arg : α) :
    Shared n startRoutine arg (State.start threadCounter startRoutine arg) where
  bounded := Nat.zero_le n
  idle _ _ := rfl
  loaded _ := trivial
  calls _ := rfl
  block := Or.inl ⟨rfl, rfl, fun _ h => by cases h⟩

section Steps

variable {n : ℕ} {startRoutine : ρ} {arg : α} {s s' : State ρ α} {t : ℕ}

/-- A step of `t` to `pc`, which changes nothing of the other threads. -/
theorem Shared.move (h : Shared n startRoutine arg s) (ht : t < s.created) {pc : Pc ρ α}
    (hcreated : s'.created = s.created) (hpc : s'.pc t = pc)
    (hcalls : s'.calls t = callsAt startRoutine arg pc)
    (hother : ∀ u, u ≠ t → s'.pc u = s.pc u ∧ s'.calls u = s.calls u)
    (hloaded : Loaded startRoutine arg pc)
    (hblock : BlockShared startRoutine arg s') :
    Shared n startRoutine arg s' := by
  refine ⟨by rw [hcreated]; exact h.bounded, fun u hu => ?_, fun u => ?_, fun u => ?_, hblock⟩
  · have hne : u ≠ t := by omega
    rw [(hother u hne).1]
    exact h.idle u (by omega)
  · by_cases hut : u = t
    · rw [hut, hpc]
      exact hloaded
    · rw [(hother u hut).1]
      exact h.loaded u
  · by_cases hut : u = t
    · rw [hut, hpc]
      exact hcalls
    · rw [(hother u hut).1, (hother u hut).2]
      exact h.calls u

/-- A step that does not touch the block keeps what is known of it. -/
theorem Shared.keepBlock (h : Shared n startRoutine arg s) (hb : s'.block = s.block)
    (hf : s'.frees = s.frees) (hother : ∀ u, u ≠ t → s'.pc u = s.pc u)
    (hbefore : s.pc t ≠ .returned) (hafter : s'.pc t ≠ .returned) :
    BlockShared startRoutine arg s' := by
  rw [BlockShared, hb, hf]
  refine h.block.imp (fun hlive => ⟨hlive.1, hlive.2.1, fun u => ?_⟩)
    (fun hfreed => ⟨hfreed.1, hfreed.2.1, ?_⟩)
  · by_cases hut : u = t
    · rw [hut]
      exact hafter
    · rw [hother u hut]
      exact hlive.2.2 u
  · obtain ⟨u, hu, hone⟩ := hfreed.2.2
    have hut : u ≠ t := fun hut => hbefore (by rw [← hut]; exact hu)
    refine ⟨u, by rw [hother u hut]; exact hu, fun v hv => hone v ?_⟩
    have hvt : v ≠ t := fun hvt => hafter (by rw [← hvt]; exact hv)
    rw [← hother v hvt]
    exact hv

/-- A step that writes the counter or a `tid` only. -/
theorem Shared.goto (h : Shared n startRoutine arg s) (ht : t < s.created) {pc : Pc ρ α}
    {threadCounter : Word} {tid : ℕ → Word} (hbefore : s.pc t ≠ .returned)
    (hafter : pc ≠ .returned) (hcalls : s.calls t = callsAt startRoutine arg pc)
    (hloaded : Loaded startRoutine arg pc) :
    Shared n startRoutine arg
      ({ s with threadCounter := threadCounter, tid := tid }.goto t pc) := by
  have hother : ∀ u, u ≠ t →
      ({ s with threadCounter := threadCounter, tid := tid }.goto t pc).pc u = s.pc u :=
    fun u hu => State.goto_of_ne hu _
  have hself : ({ s with threadCounter := threadCounter, tid := tid }.goto t pc).pc t = pc :=
    State.goto_self pc
  refine h.move ht rfl hself hcalls (fun u hu => ⟨hother u hu, rfl⟩) hloaded
    (h.keepBlock rfl rfl hother hbefore ?_)
  rw [hself]
  exact hafter

theorem Shared.execThread (h : Shared n startRoutine arg s) (ht : t < s.created)
    (hstep : s.execThread t = .ok s') : Shared n startRoutine arg s' := by
  have hcalls := h.calls t
  have hload := h.loaded t
  have hneeds : s.pc t = .loadRoutine ∨ (∃ f, s.pc t = .loadArg f) ∨ s.pc t = .free →
      s.block = some ⟨startRoutine, arg⟩ ∧ s.frees = 0 ∧ ∀ u, s.pc u ≠ .returned := fun hpc => by
    rcases h.block with hlive | ⟨hb, _, _⟩
    · exact hlive
    · obtain ⟨h1, h2, h3⟩ := State.execThread_freed hb hstep
      rcases hpc with hpc | ⟨f, hpc⟩ | hpc
      · exact absurd hpc h1
      · exact absurd hpc (h2 f)
      · exact absurd hpc h3
  cases hpc : s.pc t with
  | readCounter =>
    rw [hpc] at hcalls
    rw [State.execThread_readCounter hpc] at hstep
    cases hstep
    exact h.goto ht (by simp [hpc]) (by simp) hcalls trivial
  | swap oldCounter =>
    rw [hpc] at hcalls
    rw [State.execThread_swap hpc] at hstep
    split at hstep
    · cases hstep
      exact h.goto ht (by simp [hpc]) (by simp) hcalls trivial
    · cases hstep
      exact h.goto ht (by simp [hpc]) (by simp) hcalls trivial
  | loadRoutine =>
    rw [hpc] at hcalls
    rw [State.execThread_loadRoutine hpc (hneeds (Or.inl hpc)).1] at hstep
    cases hstep
    exact h.goto ht (by simp [hpc]) (by simp) hcalls rfl
  | loadArg f =>
    rw [hpc] at hcalls hload
    rw [State.execThread_loadArg hpc (hneeds (Or.inr (Or.inl ⟨f, hpc⟩))).1] at hstep
    cases hstep
    exact h.goto ht (by simp [hpc]) (by simp) hcalls ⟨hload, rfl⟩
  | call f x =>
    rw [hpc] at hcalls hload
    rw [State.execThread_call hpc] at hstep
    cases hstep
    obtain ⟨hf, hx⟩ := hload
    refine h.move ht rfl (State.goto_self _) ?_
      (fun u hu => ⟨State.goto_of_ne hu _, Function.update_of_ne hu _ _⟩) trivial
      (h.keepBlock rfl rfl (fun u hu => State.goto_of_ne hu _) ?_ ?_)
    · show Function.update s.calls t (s.calls t ++ [(f, x)]) t = [(startRoutine, arg)]
      rw [Function.update_self, hcalls, hf, hx]
      rfl
    · simp [hpc]
    · simp
  | running =>
    rw [hpc] at hcalls
    rw [State.execThread_running hpc] at hstep
    cases hstep
    exact h.goto ht (by simp [hpc]) (by simp) hcalls trivial
  | free =>
    rw [hpc] at hcalls
    obtain ⟨hb, hf, hnone⟩ := hneeds (Or.inr (Or.inr hpc))
    rw [State.execThread_free hpc hb] at hstep
    cases hstep
    refine h.move ht rfl (State.goto_self _) hcalls (fun u hu => ⟨State.goto_of_ne hu _, rfl⟩)
      trivial (Or.inr ⟨rfl, ?_, t, State.goto_self _, fun u hu => ?_⟩)
    · show s.frees + 1 = 1
      rw [hf]
    · by_contra hut
      rw [State.goto_of_ne hut] at hu
      exact hnone u hu
  | returned =>
    rw [State.execThread, hpc] at hstep
    cases hstep

theorem shared_step {act : Act} (h : Shared n startRoutine arg s) (hstep : Step n s act s') :
    Shared n startRoutine arg s' := by
  cases act with
  | create =>
    rw [Step, State.exec] at hstep
    split at hstep
    · rename_i hlt
      cases hstep
      exact ⟨hlt, fun t ht => h.idle t (Nat.le_of_succ_le ht), h.loaded, h.calls, h.block⟩
    · cases hstep
  | step t =>
    rw [Step, State.exec] at hstep
    split at hstep
    · rename_i ht
      exact h.execThread ht hstep
    · cases hstep

end Steps

theorem shared_run {n : ℕ} {threadCounter : Word} {startRoutine : ρ} {arg : α}
    {acts : List Act} {s : State ρ α}
    (h : Run (Step n) (State.start threadCounter startRoutine arg) acts s) :
    Shared n startRoutine arg s :=
  h.invariant (fun _ _ _ => shared_step) (shared_start n threadCounter startRoutine arg)

/-- The threads that have returned are at most one. -/
theorem Shared.eq_of_returned {n : ℕ} {startRoutine : ρ} {arg : α} {s : State ρ α} {t u : ℕ}
    (h : Shared n startRoutine arg s) (ht : s.pc t = .returned) (hu : s.pc u = .returned) :
    t = u := by
  rcases h.block with ⟨_, _, hnone⟩ | ⟨_, _, v, _, hone⟩
  · exact absurd ht (hnone t)
  · rw [hone t ht, hone u hu]

/-- No interleaving of two threads or more lets all of them return. -/
theorem not_all_returned {n : ℕ} {threadCounter : Word} {startRoutine : ρ} {arg : α}
    {acts : List Act} {s : State ρ α} (hn : 2 ≤ n)
    (h : Run (Step n) (State.start threadCounter startRoutine arg) acts s) :
    ¬ ∀ t, t < n → s.pc t = .returned := by
  intro hall
  have heq := (shared_run h).eq_of_returned (hall 0 (by omega)) (hall 1 (by omega))
  cases heq

/-! ## A thread that runs alone -/

section Alone

variable {n : ℕ} {s : State ρ α} {t : ℕ}

/-- The number of steps that a thread is away from its return, when it runs
alone. -/
def remaining (s : State ρ α) (t : ℕ) : ℕ :=
  match s.pc t with
  | .readCounter => 7
  | .swap oldCounter => if s.threadCounter = oldCounter then 6 else 8
  | .loadRoutine => 5
  | .loadArg _ => 4
  | .call _ _ => 3
  | .running => 2
  | .free => 1
  | .returned => 0

/-- While the block is there, a thread that has not returned can take a step, and
the step brings it closer to its return. -/
theorem execThread_live {b : HelperThread ρ α} (hb : s.block = some b)
    (hpc : s.pc t ≠ .returned) :
    ∃ s', s.execThread t = .ok s' ∧ remaining s' t < remaining s t ∧ s'.created = s.created ∧
      (∀ u, u ≠ t → s'.pc u = s.pc u) ∧
      (s'.block = some b ∧ s'.pc t ≠ .returned ∨ s'.block = none ∧ s'.pc t = .returned) := by
  cases hat : s.pc t with
  | readCounter =>
    exact ⟨_, State.execThread_readCounter hat, by simp [remaining, hat, State.goto], rfl,
      fun u hu => State.goto_of_ne hu _, Or.inl ⟨hb, by simp⟩⟩
  | swap oldCounter =>
    have hswap := State.execThread_swap hat
    by_cases hsame : s.threadCounter = oldCounter
    · rw [if_pos hsame] at hswap
      exact ⟨_, hswap, by simp [remaining, hat, hsame], rfl,
        fun u hu => State.goto_of_ne hu _, Or.inl ⟨hb, by simp⟩⟩
    · rw [if_neg hsame] at hswap
      exact ⟨_, hswap, by simp [remaining, hat, hsame], rfl,
        fun u hu => State.goto_of_ne hu _, Or.inl ⟨hb, by simp⟩⟩
  | loadRoutine =>
    exact ⟨_, State.execThread_loadRoutine hat hb, by simp [remaining, hat], rfl,
      fun u hu => State.goto_of_ne hu _, Or.inl ⟨hb, by simp⟩⟩
  | loadArg f =>
    exact ⟨_, State.execThread_loadArg hat hb, by simp [remaining, hat], rfl,
      fun u hu => State.goto_of_ne hu _, Or.inl ⟨hb, by simp⟩⟩
  | call f x =>
    exact ⟨_, State.execThread_call hat, by simp [remaining, hat], rfl,
      fun u hu => State.goto_of_ne hu _, Or.inl ⟨hb, by simp⟩⟩
  | running =>
    exact ⟨_, State.execThread_running hat, by simp [remaining, hat], rfl,
      fun u hu => State.goto_of_ne hu _, Or.inl ⟨hb, by simp⟩⟩
  | free =>
    exact ⟨_, State.execThread_free hat hb, by simp [remaining, hat], rfl,
      fun u hu => State.goto_of_ne hu _, Or.inr ⟨rfl, by simp⟩⟩
  | returned => exact absurd hat hpc

theorem step_of_execThread {s' : State ρ α} (ht : t < s.created)
    (hexec : s.execThread t = .ok s') : Step n s (.step t) s' := by
  rw [Step, State.exec, if_pos ht]
  exact hexec

/-- A thread that runs alone while the block is there returns and frees it.  The
induction is on the steps that remain. -/
theorem thread_returns {b : HelperThread ρ α} (k : ℕ) :
    ∀ {s : State ρ α}, remaining s t ≤ k → s.block = some b → s.pc t ≠ .returned →
      t < s.created →
      ∃ acts s', Run (Step n) s acts s' ∧ s'.pc t = .returned ∧ s'.block = none ∧
        s'.created = s.created ∧ ∀ u, u ≠ t → s'.pc u = s.pc u := by
  induction k with
  | zero =>
    intro s hk hb hpc _
    obtain ⟨s', _, hless, _⟩ := execThread_live hb hpc
    omega
  | succ k ih =>
    intro s hk hb hpc ht
    obtain ⟨s₁, hexec, hless, hcreated, hother, hafter⟩ := execThread_live hb hpc
    have hstep : Step n s (.step t) s₁ := step_of_execThread ht hexec
    rcases hafter with ⟨hb₁, hpc₁⟩ | ⟨hfreed, hreturned⟩
    · obtain ⟨acts, s', hrun, hreturned, hfreed, hcreated', hother'⟩ :=
        ih (by omega) hb₁ hpc₁ (by omega)
      exact ⟨_, s', Run.cons hstep hrun, hreturned, hfreed, hcreated'.trans hcreated,
        fun u hu => (hother' u hu).trans (hother u hu)⟩
    · exact ⟨_, s₁, Run.single hstep, hreturned, hfreed, hcreated, hother⟩

/-- A thread that reads the counter and then swaps it, with no other step in between,
leaves the loop. -/
theorem readCounter_leaves (hpc : s.pc t = .readCounter) (ht : t < s.created) :
    ∃ s', Run (Step n) s [.step t, .step t] s' ∧ s'.pc t = .loadRoutine ∧
      s'.created = s.created ∧ s'.block = s.block ∧ ∀ u, u ≠ t → s'.pc u = s.pc u := by
  let s₁ : State ρ α := { s with
    tid := Function.update s.tid t (s.threadCounter + 1) }.goto t (.swap s.threadCounter)
  let s₂ : State ρ α := { s₁ with threadCounter := s₁.tid t }.goto t .loadRoutine
  have hread : s.execThread t = .ok s₁ := State.execThread_readCounter hpc
  have hpc₁ : s₁.pc t = .swap s.threadCounter := State.goto_self _
  have hswap : s₁.execThread t = .ok s₂ := (State.execThread_swap hpc₁).trans (if_pos rfl)
  refine ⟨s₂, Run.cons (step_of_execThread ht hread) (Run.single (step_of_execThread ht hswap)),
    State.goto_self _, rfl, rfl, fun u hu => ?_⟩
  exact (State.goto_of_ne hu _).trans (State.goto_of_ne hu _)

/-- A thread that leaves the loop when the block was freed stops at the read of
the block. -/
theorem thread_stops (hb : s.block = none) (hpc : s.pc t = .readCounter) (ht : t < s.created) :
    ∃ acts s', Run (Step n) s acts s' ∧ s'.pc t = .loadRoutine ∧ s'.created = s.created ∧
      s'.execThread t = .error .useAfterFree := by
  obtain ⟨s', hrun, hpc', hcreated, hblock, _⟩ := readCounter_leaves (n := n) hpc ht
  refine ⟨_, s', hrun, hpc', hcreated, ?_⟩
  rw [State.execThread, hpc', hblock, hb]

end Alone

/-! ## The number of threads -/

section Threads

variable {n : ℕ} {startRoutine : ρ} {arg : α} {s : State ρ α}

/-- With one thread the block is there until this thread has returned. -/
theorem Shared.block_live (h : Shared n startRoutine arg s) (hn : n ≤ 1)
    (hpc : s.pc 0 ≠ .returned) : s.block = some ⟨startRoutine, arg⟩ := by
  rcases h.block with ⟨hb, _, _⟩ | ⟨_, _, t, ht, _⟩
  · exact hb
  · exfalso
    by_cases hlt : t < s.created
    · have hbounded := h.bounded
      have hzero : t = 0 := by omega
      exact hpc (by rw [← hzero]; exact ht)
    · rw [h.idle t (Nat.le_of_not_lt hlt)] at ht
      cases ht

theorem Shared.finishes (h : Shared n startRoutine arg s) (hn : n ≤ 1) :
    ∃ acts s', Run (Step n) s acts s' ∧ s'.created = n ∧ ∀ t, t < n → s'.pc t = .returned := by
  have hbounded := h.bounded
  by_cases hall : s.created = n
  · by_cases hreturned : s.pc 0 = .returned
    · refine ⟨[], s, Run.nil, hall, fun t ht => ?_⟩
      rw [show t = 0 by omega]
      exact hreturned
    · by_cases hzero : n = 0
      · exact ⟨[], s, Run.nil, hall, fun t ht => by omega⟩
      · obtain ⟨acts, s', hrun, hpc, _, hcreated, _⟩ :=
          thread_returns (n := n) _ (Nat.le_refl _) (h.block_live hn hreturned) hreturned (by omega)
        refine ⟨acts, s', hrun, hcreated.trans hall, fun t ht => ?_⟩
        rw [show t = 0 by omega]
        exact hpc
  · have hlt : s.created < n := by omega
    have hcreate : Step n s .create { s with created := s.created + 1 } := by
      rw [Step, State.exec, if_pos hlt]
    have hpc : s.pc 0 ≠ .returned := by
      rw [h.idle 0 (by omega)]
      exact fun hread => by cases hread
    obtain ⟨acts, s', hrun, hpc', _, hcreated, _⟩ :=
      thread_returns (n := n) (s := { s with created := s.created + 1 }) (t := 0) _ (Nat.le_refl _)
        (h.block_live hn hpc) hpc (Nat.succ_pos _)
    refine ⟨_, s', Run.cons hcreate hrun, hcreated.trans (show s.created + 1 = n by omega),
      fun t ht => ?_⟩
    rw [show t = 0 by omega]
    exact hpc'

theorem Shared.sharesSafely (h : Shared n startRoutine arg s) (hn : n ≤ 1) :
    SharesSafely n startRoutine arg s where
  steps t ht hpc := by
    have hbounded := h.bounded
    have hzero : t = 0 := by omega
    rw [hzero] at hpc ht ⊢
    obtain ⟨s', hexec, _⟩ := execThread_live (h.block_live hn hpc) hpc
    exact ⟨s', step_of_execThread ht hexec⟩
  calls := h.calls
  frees := by
    rcases h.block with ⟨_, hf, _⟩ | ⟨_, hf, _⟩ <;> omega
  finishes := h.finishes hn

/-- With two threads one of them can return before the other has read the
block. -/
theorem exists_useAfterFree (hn : 2 ≤ n) (threadCounter : Word) (startRoutine : ρ) (arg : α) :
    ∃ acts s, Run (Step n) (State.start threadCounter startRoutine arg) acts s ∧
      1 < s.created ∧ s.pc 1 = .loadRoutine ∧ s.execThread 1 = .error .useAfterFree := by
  have hfirst : Step n (State.start threadCounter startRoutine arg) .create
      { State.start threadCounter startRoutine arg with created := 1 } := by
    rw [Step, State.exec]
    exact if_pos (show 0 < n by omega)
  have hsecond : Step n { State.start threadCounter startRoutine arg with created := 1 } .create
      { State.start threadCounter startRoutine arg with created := 2 } := by
    rw [Step, State.exec]
    exact if_pos (show 1 < n by omega)
  obtain ⟨acts, s₁, hrun, _, hfreed, hcreated, hother⟩ :=
    thread_returns (n := n) (t := 0)
      (s := { State.start threadCounter startRoutine arg with created := 2 }) _ (Nat.le_refl _)
      (show _ = some ⟨startRoutine, arg⟩ from rfl) (fun h => by cases h) (show 0 < 2 by decide)
  have hcreated₁ : s₁.created = 2 := hcreated
  obtain ⟨acts', s₂, hrun', hpc, hcreated', hfault⟩ :=
    thread_stops (n := n) (t := 1) hfreed (hother 1 (by decide)) (by omega)
  exact ⟨_, s₂, Run.cons hfirst (Run.cons hsecond (hrun.append hrun')), by omega, hpc, hfault⟩

end Threads

/-- The block is shared safely in every interleaving exactly when there is at
most one thread to share it. -/
theorem create_sharesSafely_iff (n : ℕ) (threadCounter : Word) (startRoutine : ρ) (arg : α) :
    (∀ acts s, Run (Step n) (State.start threadCounter startRoutine arg) acts s →
      SharesSafely n startRoutine arg s) ↔ n ≤ 1 := by
  constructor
  · intro hsafe
    by_contra hn
    obtain ⟨acts, s, hrun, hcreated, hpc, hfault⟩ :=
      exists_useAfterFree (n := n) (by omega) threadCounter startRoutine arg
    have hread : s.pc 1 ≠ .returned := by
      rw [hpc]
      exact fun h => by cases h
    obtain ⟨s', hstep⟩ := (hsafe acts s hrun).steps 1 hcreated hread
    rw [Step, State.exec, if_pos hcreated, hfault] at hstep
    cases hstep
  · intro hn acts s hrun
    exact (shared_run hrun).sharesSafely hn

/-- Two threads.  The first one returns and frees the block, and then the second
one leaves the loop and reads it. -/
theorem create_useAfterFree :
    ∃ s : State ℕ ℕ, Run (Step 2) (State.start 0 7 8)
        [.create, .create, .step 0, .step 0, .step 0, .step 0, .step 0, .step 0, .step 0,
          .step 1, .step 1] s ∧
      s.frees = 1 ∧ s.exec 2 (.step 1) = .error .useAfterFree := by
  obtain ⟨s, hrun, hp⟩ := Lib.exists_run (State.exec 2) (fun _ _ => true)
    (State.start 0 7 8 : State ℕ ℕ)
    [.create, .create, .step 0, .step 0, .step 0, .step 0, .step 0, .step 0, .step 0,
      .step 1, .step 1]
    (fun s => decide (s.frees = 1) && match s.exec 2 (.step 1) with
      | .error f => decide (f = .useAfterFree)
      | .ok _ => false)
    (by decide)
  obtain ⟨hfrees, hfault⟩ := Bool.and_eq_true_iff.mp hp
  refine ⟨s, hrun.mono fun _ _ _ hs => hs.2, of_decide_eq_true hfrees, ?_⟩
  split at hfault
  · rename_i f hf
    rw [hf, of_decide_eq_true hfault]
  · cases hfault

end LinuxFibers.Threads
