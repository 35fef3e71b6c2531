import LinuxFibers.Lib.Tickets
import LinuxFibers.Threads.Create
import Mathlib.Algebra.Group.Nat.Defs

/-!
# The identifiers of the threads

A thread leaves the loop of `__helper_create_thread` with the `tid` that its
compare-and-swap has written to `thread_counter`.  The loop is a dispenser of
tickets: a successful compare-and-swap gives the next ticket to its thread, and no
other step gives one (`numbered_step`).

`tids_distinct` is about all interleavings of all steps of the threads.  A thread
that has left the loop may go on or stay where it is.  `all_leave` says that all of
them can leave it.
-/

namespace LinuxFibers.Threads

open LinuxFibers.Lib

variable {ρ α : Type}

/-- The places of the loop. -/
def Pc.inLoop : Pc ρ α → Bool
  | .readCounter | .swap _ => true
  | _ => false

/-- The dispenser `d` has given the tickets from `c` on: `thread_counter` counts them,
the holders are the threads that have left the loop, their `tid`s are their tickets, and
a thread at its compare-and-swap has written `tid`. -/
structure Numbered (c : Word) (d : Dispenser ℕ) (s : State ρ α) : Prop where
  counter : s.threadCounter = c + BitVec.ofNat 32 d.served
  left : ∀ t, t ∈ d.holders ↔ (s.pc t).inLoop = false
  tid : ∀ t, t ∈ d.holders → s.tid t = c + BitVec.ofNat 32 (d.ticket t)
  attempt : ∀ t oldCounter, s.pc t = .swap oldCounter → s.tid t = oldCounter + 1

theorem numbered_start (c : Word) (startRoutine : ρ) (arg : α) :
    Numbered c Dispenser.empty (State.start c startRoutine arg) where
  counter := (BitVec.add_zero c).symm
  left _ := by
    constructor
    · intro hmem
      cases hmem
    · intro hleft
      cases hleft
  tid _ hmem := by cases hmem
  attempt _ _ hpc := by cases hpc

variable {n : ℕ} {c oldCounter : Word} {d : Dispenser ℕ} {s s' : State ρ α} {t : ℕ}

/-! ## The steps of the loop -/

theorem Numbered.not_mem (h : Numbered c d s) (hin : (s.pc t).inLoop = true) :
    t ∉ d.holders := by
  rw [h.left t, hin]
  exact Bool.noConfusion

/-- A step of `t` that gives no ticket: the counter and the other threads are as they
were, and `t` is in the loop as before. -/
theorem Numbered.move (h : Numbered c d s) (hcounter : s'.threadCounter = s.threadCounter)
    (hloop : (s'.pc t).inLoop = (s.pc t).inLoop)
    (hother : ∀ u, u ≠ t → s'.pc u = s.pc u ∧ s'.tid u = s.tid u)
    (htid : t ∈ d.holders → s'.tid t = s.tid t)
    (hattempt : ∀ oldCounter, s'.pc t = .swap oldCounter → s'.tid t = oldCounter + 1) :
    Numbered c d s' := by
  constructor
  · rw [hcounter]
    exact h.counter
  · intro u
    by_cases hu : u = t
    · rw [hu, hloop]
      exact h.left t
    · rw [(hother u hu).1]
      exact h.left u
  · intro u hmem
    by_cases hu : u = t
    · rw [hu] at hmem ⊢
      rw [htid hmem]
      exact h.tid t hmem
    · rw [(hother u hu).2]
      exact h.tid u hmem
  · intro u oldCounter hpc
    by_cases hu : u = t
    · rw [hu] at hpc ⊢
      exact hattempt oldCounter hpc
    · rw [(hother u hu).1] at hpc
      rw [(hother u hu).2]
      exact h.attempt u oldCounter hpc

/-- The read of the counter and the write of `tid`. -/
theorem Numbered.readCounter (h : Numbered c d s) (hpc : s.pc t = .readCounter) :
    Numbered c d ({ s with
      tid := Function.update s.tid t (s.threadCounter + 1) }.goto t (.swap s.threadCounter)) := by
  refine h.move rfl (by rw [State.goto_self, hpc]; rfl)
    (fun u hu => ⟨State.goto_of_ne hu _, Function.update_of_ne hu _ _⟩) (fun hmem => ?_)
    (fun oldCounter hswap => ?_)
  · exact absurd hmem (h.not_mem (by rw [hpc]; rfl))
  · rw [State.goto_self, Pc.swap.injEq] at hswap
    rw [← hswap]
    exact Function.update_self t (s.threadCounter + 1) s.tid

/-- A compare-and-swap that fails. -/
theorem Numbered.retry (h : Numbered c d s) (hpc : s.pc t = .swap oldCounter) :
    Numbered c d (s.goto t .readCounter) := by
  refine h.move rfl (by rw [State.goto_self, hpc]; rfl)
    (fun u hu => ⟨State.goto_of_ne hu _, rfl⟩) (fun _ => rfl) (fun oldCounter hswap => ?_)
  rw [State.goto_self] at hswap
  cases hswap

/-- A compare-and-swap that succeeds gives the next ticket. -/
theorem Numbered.swap (h : Numbered c d s) (hpc : s.pc t = .swap oldCounter)
    (hsame : s.threadCounter = oldCounter) (hmem : t ∉ d.holders) :
    Numbered c (d.serve t hmem) ({ s with threadCounter := s.tid t }.goto t .loadRoutine) := by
  have hone : BitVec.ofNat 32 (d.served + 1) = BitVec.ofNat 32 d.served + 1 := BitVec.ofNat_add ..
  have htid : s.tid t = c + BitVec.ofNat 32 (d.served + 1) := by
    rw [h.attempt t oldCounter hpc, ← hsame, h.counter, hone, BitVec.add_assoc]
  constructor
  · rw [Dispenser.served_serve]
    exact htid
  · intro u
    show u ∈ d.holders ++ [t] ↔ _
    rw [List.mem_append, List.mem_singleton]
    by_cases hu : u = t
    · rw [hu, State.goto_self]
      exact ⟨fun _ => rfl, fun _ => .inr rfl⟩
    · rw [State.goto_of_ne hu]
      exact ⟨fun hin => (h.left u).mp (hin.resolve_right hu),
        fun hleft => .inl ((h.left u).mpr hleft)⟩
  · intro u hin
    by_cases hu : u = t
    · rw [hu, Dispenser.ticket_serve_self hmem]
      exact htid
    · have hold : u ∈ d.holders :=
        (List.mem_append.mp hin).resolve_right fun hone => hu (List.mem_singleton.mp hone)
      rw [Dispenser.ticket_serve_of_mem hmem hold]
      exact h.tid u hold
  · intro u oldCounter hswap
    by_cases hu : u = t
    · rw [hu, State.goto_self] at hswap
      cases hswap
    · rw [State.goto_of_ne hu] at hswap
      exact h.attempt u oldCounter hswap

/-- The steps behind the loop write neither the counter nor a `tid`, and do not lead back
into the loop. -/
theorem execThread_left (hleft : (s.pc t).inLoop = false) (hstep : s.execThread t = .ok s') :
    s'.threadCounter = s.threadCounter ∧ s'.tid = s.tid ∧ (s'.pc t).inLoop = false ∧
      ∀ u, u ≠ t → s'.pc u = s.pc u := by
  rw [State.execThread] at hstep
  cases hpc : s.pc t with
  | readCounter =>
    rw [hpc] at hleft
    cases hleft
  | swap oldCounter =>
    rw [hpc] at hleft
    cases hleft
  | loadRoutine =>
    rw [hpc] at hstep
    cases hb : s.block <;> rw [hb] at hstep <;> cases hstep
    exact ⟨rfl, rfl, by rw [State.goto_self]; rfl, fun u hu => State.goto_of_ne hu _⟩
  | loadArg f =>
    rw [hpc] at hstep
    cases hb : s.block <;> rw [hb] at hstep <;> cases hstep
    exact ⟨rfl, rfl, by rw [State.goto_self]; rfl, fun u hu => State.goto_of_ne hu _⟩
  | call f x =>
    rw [hpc] at hstep
    cases hstep
    exact ⟨rfl, rfl, by rw [State.goto_self]; rfl, fun u hu => State.goto_of_ne hu _⟩
  | running =>
    rw [hpc] at hstep
    cases hstep
    exact ⟨rfl, rfl, by rw [State.goto_self]; rfl, fun u hu => State.goto_of_ne hu _⟩
  | free =>
    rw [hpc] at hstep
    cases hb : s.block <;> rw [hb] at hstep <;> cases hstep
    exact ⟨rfl, rfl, by rw [State.goto_self]; rfl, fun u hu => State.goto_of_ne hu _⟩
  | returned =>
    rw [hpc] at hstep
    cases hstep

/-- A step behind the loop. -/
theorem Numbered.goOn (h : Numbered c d s) (hleft : (s.pc t).inLoop = false)
    (hstep : s.execThread t = .ok s') : Numbered c d s' := by
  obtain ⟨hcounter, htid, hleft', hother⟩ := execThread_left hleft hstep
  refine h.move hcounter (hleft'.trans hleft.symm) (fun u hu => ⟨hother u hu, by rw [htid]⟩)
    (fun _ => by rw [htid]) (fun oldCounter hswap => ?_)
  rw [hswap] at hleft'
  cases hleft'

/-! ## The runs -/

/-- One step of a thread is one move of the dispenser. -/
theorem Numbered.execThread (h : Numbered c d s) (hstep : s.execThread t = .ok s') :
    ∃ d', d.Moves d' ∧ Numbered c d' s' := by
  cases hin : (s.pc t).inLoop with
  | false => exact ⟨d, .waits, h.goOn hin hstep⟩
  | true =>
    have hmem : t ∉ d.holders := h.not_mem hin
    cases hpc : s.pc t with
    | readCounter =>
      rw [State.execThread_readCounter hpc] at hstep
      cases hstep
      exact ⟨d, .waits, h.readCounter hpc⟩
    | swap oldCounter =>
      rw [State.execThread_swap hpc] at hstep
      by_cases hsame : s.threadCounter = oldCounter
      · rw [if_pos hsame] at hstep
        cases hstep
        exact ⟨_, .serves t hmem, h.swap hpc hsame hmem⟩
      · rw [if_neg hsame] at hstep
        cases hstep
        exact ⟨d, .waits, h.retry hpc⟩
    | _ =>
      rw [hpc] at hin
      cases hin

theorem numbered_step {act : Act} (h : Numbered c d s) (hstep : Step n s act s') :
    ∃ d', d.Moves d' ∧ Numbered c d' s' := by
  cases act with
  | create =>
    rw [Step, State.exec] at hstep
    split at hstep
    · cases hstep
      exact ⟨d, .waits, h.counter, h.left, h.tid, h.attempt⟩
    · cases hstep
  | step t =>
    rw [Step, State.exec] at hstep
    split at hstep
    · exact h.execThread hstep
    · cases hstep

variable {startRoutine : ρ} {arg : α} {acts : List Act}

/-- A run of the threads is a run of the dispenser. -/
theorem numbered_run (h : Run (Step n) (State.start c startRoutine arg) acts s) :
    ∃ d, Run (fun d (_ : Act) d' => d.Moves d') Dispenser.empty acts d ∧ Numbered c d s := by
  refine h.invariantTrace (I := fun acts s => ∃ d,
    Run (fun d (_ : Act) d' => d.Moves d') Dispenser.empty acts d ∧ Numbered c d s) ?_
    ⟨_, Run.nil, numbered_start c startRoutine arg⟩
  intro acts s act s' hd hstep
  obtain ⟨d, hrun, hnumbered⟩ := hd
  obtain ⟨d', hmove, hnumbered'⟩ := numbered_step hnumbered hstep
  exact ⟨d', Run.snoc hrun hmove, hnumbered'⟩

/-- When all threads have left the loop, they are the holders of the tickets. -/
theorem Numbered.all_left (h : Numbered c d s) (hshared : Shared n startRoutine arg s)
    (hleft : ∀ t, t < n → (s.pc t).inLoop = false) (t : ℕ) : t ∈ d.holders ↔ t < n := by
  rw [h.left t]
  constructor
  · intro hout
    by_contra hge
    have hbounded := hshared.bounded
    rw [hshared.idle t (by omega)] at hout
    cases hout
  · exact hleft t

/-- An identifier, when the counter does not wrap around. -/
theorem toNat_ticket {k : ℕ} (hwrap : c.toNat + n < 2 ^ 32) (hk : k ≤ n) :
    (c + BitVec.ofNat 32 k).toNat = c.toNat + k := by
  rw [BitVec.toNat_add, BitVec.toNat_ofNat]
  omega

/-- Once all `n` threads have left the loop, their identifiers are distinct, they are the
numbers from `c + 1` to `c + n`, and the counter is `c + n`. -/
theorem tids_distinct (hwrap : c.toNat + n < 2 ^ 32)
    (h : Run (Step n) (State.start c startRoutine arg) acts s)
    (hleft : ∀ t, t < n → (s.pc t).inLoop = false) :
    (∀ t u, t < n → u < n → s.tid t = s.tid u → t = u) ∧
      (∀ k, (∃ t, t < n ∧ (s.tid t).toNat = k) ↔ c.toNat + 1 ≤ k ∧ k ≤ c.toNat + n) ∧
      s.threadCounter.toNat = c.toNat + n := by
  obtain ⟨d, _, hnumbered⟩ := numbered_run h
  have hmem := hnumbered.all_left (shared_run h) hleft
  have hserved : d.served = n := Dispenser.served_of_mem_iff hmem
  have htid : ∀ t, t < n → (s.tid t).toNat = c.toNat + d.ticket t := fun t ht => by
    rw [hnumbered.tid t ((hmem t).mpr ht)]
    exact toNat_ticket hwrap (hserved ▸ Dispenser.ticket_le ((hmem t).mpr ht))
  refine ⟨fun t u ht hu heq => ?_, fun k => ⟨fun hk => ?_, fun hk => ?_⟩, ?_⟩
  · have hticket : c.toNat + d.ticket t = c.toNat + d.ticket u := by
      rw [← htid t ht, ← htid u hu, heq]
    exact Dispenser.eq_of_ticket_eq ((hmem t).mpr ht) (by omega)
  · obtain ⟨t, ht, heq⟩ := hk
    have hle : d.ticket t ≤ d.served := Dispenser.ticket_le ((hmem t).mpr ht)
    have hpos : 0 < d.ticket t := Nat.succ_pos _
    rw [htid t ht] at heq
    omega
  · obtain ⟨t, ht, heq⟩ := d.exists_ticket (show 0 < k - c.toNat by omega) (by omega)
    refine ⟨t, (hmem t).mp ht, ?_⟩
    rw [htid t ((hmem t).mp ht), heq]
    omega
  · rw [hnumbered.counter, hserved]
    exact toNat_ticket hwrap (Nat.le_refl n)

/-- Two threads from the counter 5.  Both read it, the second one swaps first, and the
first one has to try again. -/
theorem tids_distinct_two :
    ∃ s : State ℕ ℕ, Run (Step 2) (State.start 5 7 8)
        [.create, .create, .step 0, .step 1, .step 1, .step 0, .step 0, .step 0] s ∧
      s.tid 0 = 7 ∧ s.tid 1 = 6 ∧ (∀ t u, t < 2 → u < 2 → s.tid t = s.tid u → t = u) ∧
      s.threadCounter.toNat = 7 := by
  obtain ⟨s, hrun, hp⟩ := exists_run (State.exec 2) (fun _ _ => true)
    (State.start 5 7 8 : State ℕ ℕ)
    [.create, .create, .step 0, .step 1, .step 1, .step 0, .step 0, .step 0]
    (fun s => decide (s.tid 0 = 7 ∧ s.tid 1 = 6 ∧
      (s.pc 0).inLoop = false ∧ (s.pc 1).inLoop = false))
    (by decide)
  obtain ⟨hfirst, hsecond, hleft₀, hleft₁⟩ := of_decide_eq_true hp
  have hrun : Run (Step 2) (State.start 5 7 8) _ s := hrun.mono fun _ _ _ hs => hs.2
  obtain ⟨hdistinct, _, hcounter⟩ := tids_distinct (by decide) hrun fun t ht => by
    match t with
    | 0 => exact hleft₀
    | 1 => exact hleft₁
  exact ⟨s, hrun, hfirst, hsecond, hdistinct, hcounter⟩

/-! ## Leaving the loop -/

/-- A thread that runs alone leaves the loop, whatever the others have done before. -/
theorem thread_leaves (ht : t < s.created) :
    ∃ acts s', Run (Step n) s acts s' ∧ (s'.pc t).inLoop = false ∧ s'.created = s.created ∧
      ∀ u, u ≠ t → s'.pc u = s.pc u := by
  cases hpc : s.pc t with
  | readCounter =>
    obtain ⟨s', hrun, hpc', hcreated, _, hother⟩ := readCounter_leaves (n := n) hpc ht
    exact ⟨_, s', hrun, by rw [hpc']; rfl, hcreated, hother⟩
  | swap oldCounter =>
    have hswap := State.execThread_swap hpc
    by_cases hsame : s.threadCounter = oldCounter
    · rw [if_pos hsame] at hswap
      exact ⟨_, _, Run.single (step_of_execThread ht hswap), by rw [State.goto_self]; rfl, rfl,
        fun u hu => State.goto_of_ne hu _⟩
    · rw [if_neg hsame] at hswap
      have hpc' : (s.goto t .readCounter).pc t = .readCounter := State.goto_self _
      obtain ⟨s', hrun, hpc'', hcreated, _, hother⟩ := readCounter_leaves (n := n) hpc' ht
      exact ⟨_, s', Run.cons (step_of_execThread ht hswap) hrun, by rw [hpc'']; rfl, hcreated,
        fun u hu => (hother u hu).trans (State.goto_of_ne hu _)⟩
  | _ => exact ⟨[], s, Run.nil, by rw [hpc]; rfl, rfl, fun _ _ => rfl⟩

/-- The other rounds of `create_threads`. -/
theorem all_created (s : State ρ α) {k : ℕ} (hk : s.created + k ≤ n) :
    ∃ acts s', Run (Step n) s acts s' ∧ s'.created = s.created + k := by
  induction k with
  | zero => exact ⟨[], s, Run.nil, rfl⟩
  | succ k ih =>
    obtain ⟨acts, s', hrun, hcreated⟩ := ih (by omega)
    have hcreate : Step n s' .create { s' with created := s'.created + 1 } := by
      rw [Step, State.exec, if_pos (by omega)]
    exact ⟨_, _, Run.snoc hrun hcreate, by rw [hcreated]; rfl⟩

/-- In every reachable state, all threads can still leave the loop. -/
theorem all_leave (h : Run (Step n) (State.start c startRoutine arg) acts s) :
    ∃ acts' s', Run (Step n) s acts' s' ∧ ∀ t, t < n → (s'.pc t).inLoop = false := by
  have hbounded := (shared_run h).bounded
  obtain ⟨acts₁, s₁, hrun₁, hcreated₁⟩ := all_created (n := n) s (k := n - s.created) (by omega)
  have hsome : ∀ k, k ≤ n → ∃ acts' s', Run (Step n) s acts' s' ∧ s'.created = n ∧
      ∀ t, t < k → (s'.pc t).inLoop = false := by
    intro k hk
    induction k with
    | zero => exact ⟨_, s₁, hrun₁, by omega, fun t ht => absurd ht (by omega)⟩
    | succ k ih =>
      obtain ⟨acts₂, s₂, hrun₂, hcreated₂, hleft⟩ := ih (by omega)
      obtain ⟨acts₃, s₃, hrun₃, hout, hcreated₃, hother⟩ :=
        thread_leaves (n := n) (s := s₂) (t := k) (by omega)
      refine ⟨_, s₃, hrun₂.append hrun₃, by omega, fun t ht => ?_⟩
      by_cases htk : t = k
      · rw [htk]
        exact hout
      · rw [hother t htk]
        exact hleft t (by omega)
  obtain ⟨acts', s', hrun', _, hleft⟩ := hsome n (Nat.le_refl n)
  exact ⟨acts', s', hrun', hleft⟩

end LinuxFibers.Threads
