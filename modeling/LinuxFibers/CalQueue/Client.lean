import LinuxFibers.CalQueue.Resize
import LinuxFibers.Lib.Run

/-!
# Runs of the calendar queue

A client puts events into the queue and gets them back.  `Client` is the queue
together with the events put and got so far, `exec` is one call, and a call is
`admissible` when its priority is not negative and not below the priority of
the last event got, which is what `ProcessEvent` guarantees.

`Conserved` is the invariant of this module: as long as no resize samples
separations that sum to a negative number (`resizesWell`), the queue stays
`Ready` and the events put are the events got and the events stored.  A payload
can be any value here.  `calqueueGet` gives pointers, and its `NULL` means the
empty queue only when no `NULL` was put (`putsEvent`, `Eventful`).

The condition is needed.  `new_width` samples through `calqueueDeq`, and the
direct search of `calqueueDeq` moves `lastbucket` and leaves `buckettop`, so
the sample can come out of order.  `calqueuePut_leaves_window` is a run in
which the width becomes negative and the next copy writes in front of the
window.
-/

namespace LinuxFibers.CalQueue

open LinuxFibers.Lib

variable {α : Type}

/-- A call of the client. -/
inductive Op (α : Type) where
  | put (n : Node α)
  | get

/-- The queue and the history of the calls. -/
structure Client (α : Type) where
  queue : Calqueue α
  puts : List (Node α)
  gots : List (Node α)

/-- The client after `calqueueInit` on any memory. -/
def start (q : Calqueue α) : Client α := ⟨calqueueInit q, [], []⟩

/-- The priority of the last event got. -/
def lastGot (c : Client α) : ℚ := c.gots.getLast?.elim 0 Node.priority

/-- One call. -/
def exec (c : Client α) : Op α → Except Fault (Client α)
  | .put n => do
      let q ← calqueuePut c.queue n.priority n.payload
      return { c with queue := q, puts := c.puts ++ [n] }
  | .get => do
      let (e, q) ← calqueueDeq c.queue
      return { c with queue := q, gots := c.gots ++ e.toList }

/-- A put is for now or later. -/
def admissible (c : Client α) : Op α → Bool
  | .put n => decide (0 ≤ n.priority) && decide (lastGot c ≤ n.priority)
  | .get => true

/-- The resize that the call triggers, if it triggers one, samples separations
that do not sum to a negative number. -/
def resizesWell (q : Calqueue α) : Op α → Bool
  | .put n => !growing (inserted q n) || widthOk (inserted q n)
  | .get =>
      match takeNext q with
      | .ok (_, q₁) => !shrinking q₁ || widthOk q₁
      | .error _ => true

/-- The admissible calls that return. -/
def Step (c : Client α) (op : Op α) (d : Client α) : Prop :=
  admissible c op = true ∧ exec c op = .ok d

/-- The calls that return and resize well. -/
def WideStep (c : Client α) (op : Op α) (d : Client α) : Prop :=
  resizesWell c.queue op = true ∧ Step c op d

/-- A run of concrete calls under a condition. -/
theorem exists_run (ok : Client α → Op α → Bool) (c : Client α) (ops : List (Op α))
    (p : Client α → Bool)
    (h : (replay exec (fun c op => ok c op && admissible c op) c ops).any p = true) :
    ∃ d, Run (fun c op d => ok c op = true ∧ Step c op d) c ops d ∧ p d = true := by
  obtain ⟨d, hd, hp⟩ := Lib.exists_run exec _ c ops p h
  refine ⟨d, hd.mono fun c op d hs => ?_, hp⟩
  obtain ⟨hok, hadm⟩ := Bool.and_eq_true_iff.mp hs.1
  exact ⟨hok, hadm, hs.2⟩

/-- The fault that stops a call. -/
def faultOf {β : Type} : Except Fault β → Option Fault
  | .error f => some f
  | .ok _ => none

theorem eq_error_of_faultOf {β : Type} {x : Except Fault β} {f : Fault}
    (h : faultOf x = some f) : x = .error f := by
  cases x with
  | error g => rw [Option.some.inj h]
  | ok => cases h

/-! ## What a call does to a queue that is ready -/

theorem admissible_put {c : Client α} {n : Node α} (h : admissible c (.put n) = true) :
    0 ≤ n.priority ∧ lastGot c ≤ n.priority := by
  simpa [admissible] using h

theorem resizesWell_put {q : Calqueue α} {n : Node α} (h : resizesWell q (.put n) = true) :
    growing (inserted q n) = true → widthOk (inserted q n) = true := by
  intro hg
  simpa [resizesWell, hg] using h

theorem resizesWell_get {q : Calqueue α} (h : resizesWell q .get = true) :
    ∀ e q₁, takeNext q = .ok (e, q₁) → shrinking q₁ = true → widthOk q₁ = true := by
  intro e q₁ ht hs
  simpa [resizesWell, ht, hs] using h

/-- An admissible put on a ready queue returns with the event stored. -/
theorem exec_put {c : Client α} (h : Ready c.queue) {n : Node α}
    (hadm : admissible c (.put n) = true) (hw : resizesWell c.queue (.put n) = true) :
    ∃ q', exec c (.put n) = .ok { c with queue := q', puts := c.puts ++ [n] } ∧ Ready q' ∧
      stored q' = n ::ₘ stored c.queue ∧ q'.lastprio = c.queue.lastprio ∧
      (q' = inserted c.queue n ∨ ∃ m, Rebuilt (inserted c.queue n) m q') := by
  obtain ⟨q', hput, hr, hst, hlp, hform⟩ :=
    put_spec h (admissible_put hadm).1 (resizesWell_put hw)
  refine ⟨q', ?_, hr, hst, hlp, hform⟩
  simp [exec, hput, bind, Except.bind, pure, Except.pure]

/-- A get on a ready queue that is not empty returns with one stored event
less. -/
theorem exec_get {c : Client α} (h : Ready c.queue) (hne : c.queue.qsize ≠ 0)
    (hw : resizesWell c.queue .get = true) :
    ∃ e q₁ q', exec c .get = .ok { c with queue := q', gots := c.gots ++ [e] } ∧
      takeNext c.queue = .ok (e, q₁) ∧ calqueueDeq c.queue = .ok (some e, q') ∧ Ready q' ∧
      stored c.queue = e ::ₘ stored q' ∧ q'.lastprio = e.priority ∧
      (q' = q₁ ∨ ∃ m, Rebuilt q₁ m q') := by
  obtain ⟨e, q₁, q', ht, hdeq, hr, hst, hlp, hform⟩ := deq_spec h hne (resizesWell_get hw)
  refine ⟨e, q₁, q', ?_, ht, hdeq, hr, hst, hlp, hform⟩
  simp [exec, hdeq, bind, Except.bind, pure, Except.pure]

theorem exec_get_empty {c : Client α} (he : c.queue.qsize = 0) :
    exec c .get = .ok c := by
  simp [exec, deq_empty he, bind, Except.bind, pure, Except.pure]

/-! ## The multiset of the events -/

/-- The queue is ready, and no event was lost or duplicated. -/
structure Conserved (c : Client α) : Prop where
  ready : Ready c.queue
  events : (c.puts : Multiset (Node α)) = ↑c.gots + stored c.queue

theorem conserved_start (q : Calqueue α) : Conserved (start q) :=
  ⟨(ready_init q).1, by simp [start, (ready_init q).2]⟩

theorem conserved_step {c d : Client α} {op : Op α} (h : Conserved c) (hs : WideStep c op d) :
    Conserved d := by
  obtain ⟨hw, hadm, hexec⟩ := hs
  cases op with
  | put n =>
    obtain ⟨q', he, hr, hst, _⟩ := exec_put h.ready hadm hw
    cases Except.ok.inj (he.symm.trans hexec)
    refine ⟨hr, ?_⟩
    rw [hst, Multiset.add_cons, ← h.events, ← Multiset.coe_add, add_comm]
    rfl
  | get =>
    by_cases he : c.queue.qsize = 0
    · cases Except.ok.inj ((exec_get_empty he).symm.trans hexec)
      exact h
    · obtain ⟨e, _, q', hx, _, _, hr, hst, _⟩ := exec_get h.ready he hw
      cases Except.ok.inj (hx.symm.trans hexec)
      refine ⟨hr, ?_⟩
      rw [h.events, hst, ← Multiset.coe_add, add_assoc]
      rfl

/-- A call on a conserved queue returns. -/
theorem exec_returns {c : Client α} (h : Conserved c) {op : Op α}
    (hadm : admissible c op = true) (hw : resizesWell c.queue op = true) :
    ∃ d, exec c op = .ok d := by
  cases op with
  | put n =>
    obtain ⟨q', he, _⟩ := exec_put h.ready hadm hw
    exact ⟨_, he⟩
  | get =>
    by_cases he : c.queue.qsize = 0
    · exact ⟨_, exec_get_empty he⟩
    · obtain ⟨e, _, q', hx, _⟩ := exec_get h.ready he hw
      exact ⟨_, hx⟩

/-! ## Payloads that are pointers -/

section Payloads

variable {β : Type}

/-- The call puts no `NULL`. -/
def putsEvent : Op (Option β) → Bool
  | .put n => n.payload.isSome
  | .get => true

/-- The calls that return, resize well and put no `NULL`. -/
def EventStep (c : Client (Option β)) (op : Op (Option β)) (d : Client (Option β)) : Prop :=
  putsEvent op = true ∧ WideStep c op d

/-- No event was lost or duplicated, and every one of them is an event. -/
structure Eventful (c : Client (Option β)) : Prop extends Conserved c where
  payload : ∀ n ∈ c.puts, n.payload ≠ none

theorem eventful_start (q : Calqueue (Option β)) : Eventful (start q) :=
  ⟨conserved_start q, fun _ hn => absurd hn List.not_mem_nil⟩

theorem eventful_step {c d : Client (Option β)} {op : Op (Option β)} (h : Eventful c)
    (hstep : EventStep c op d) : Eventful d := by
  obtain ⟨hevent, hwide⟩ := hstep
  refine ⟨conserved_step h.toConserved hwide, fun n hn => ?_⟩
  obtain ⟨_, _, hexec⟩ := hwide
  cases op with
  | put m =>
    obtain ⟨q', _, hd⟩ := of_bind hexec
    rw [← Except.ok.inj hd] at hn
    rcases List.mem_append.mp hn with hn | hn
    · exact h.payload n hn
    · rw [List.mem_singleton.mp hn]
      exact Option.isSome_iff_ne_none.mp hevent
  | get =>
    obtain ⟨r, _, hd⟩ := of_bind hexec
    rw [← Except.ok.inj hd] at hn
    exact h.payload n hn

theorem eventful_run {q : Calqueue (Option β)} {ops : List (Op (Option β))}
    {c : Client (Option β)} (h : Run EventStep (start q) ops c) : Eventful c :=
  h.invariant (fun _ _ _ => eventful_step) (eventful_start q)

/-- What is stored was put. -/
theorem Eventful.stored_payload {c : Client (Option β)} (h : Eventful c) :
    ∀ e ∈ stored c.queue, e.payload ≠ none := by
  intro e he
  apply h.payload
  rw [← Multiset.mem_coe, h.events]
  exact Multiset.mem_add.mpr (Or.inr he)

/-- `calqueueGet` gives the payload of the event that is taken. -/
theorem get_of_deq {q q' : Calqueue (Option β)} {e : Node (Option β)}
    (hdeq : calqueueDeq q = .ok (some e, q')) : calqueueGet q = .ok (e.payload, q') := by
  simp [calqueueGet, hdeq, bind, Except.bind, pure, Except.pure]

/-- `calqueueGet` gives `NULL` for the empty queue, and only for it when no
`NULL` is stored. -/
theorem get_null_iff {q : Calqueue (Option β)} (h : Ready q)
    (hstored : ∀ e ∈ stored q, e.payload ≠ none) (hw : resizesWell q .get = true) :
    ∃ r q', calqueueGet q = .ok (r, q') ∧ (r = none ↔ calqueueEmpty q = true) := by
  by_cases he : q.qsize = 0
  · refine ⟨none, q, ?_, by simp [calqueueEmpty, he]⟩
    simp [calqueueGet, deq_empty he, bind, Except.bind, pure, Except.pure]
  · obtain ⟨e, _, q', _, hdeq, _, hst, _⟩ := deq_spec h he (resizesWell_get hw)
    have hmem : e ∈ stored q := by
      rw [hst]
      exact Multiset.mem_cons_self e _
    exact ⟨e.payload, q', get_of_deq hdeq, by simp [calqueueEmpty, he, hstored e hmem]⟩

/-- No event is lost or duplicated in a run that puts no `NULL` and whose
resizes sample separations that do not sum to a negative number: the payloads
put are the payloads got and the payloads stored, `qsize` counts the stored
nodes, every further call stays inside the window and returns, and `calqueueGet`
gives `NULL` exactly for the empty queue. -/
theorem no_event_lost {q : Calqueue (Option β)} {ops : List (Op (Option β))}
    {c : Client (Option β)} (h : Run EventStep (start q) ops c) :
    ((c.puts.map Node.payload : List (Option β)) : Multiset (Option β)) =
        ↑(c.gots.map Node.payload) + (stored c.queue).map Node.payload ∧
      c.queue.qsize = (stored c.queue).card ∧
      (∀ op, admissible c op = true → resizesWell c.queue op = true →
        ∃ d, exec c op = .ok d) ∧
      (resizesWell c.queue .get = true → ∃ r q', calqueueGet c.queue = .ok (r, q') ∧
        (r = none ↔ calqueueEmpty c.queue = true)) := by
  have hc := eventful_run h
  refine ⟨?_, hc.ready.size, fun op hadm hw => exec_returns hc.toConserved hadm hw,
    fun hw => get_null_iff hc.ready hc.stored_payload hw⟩
  have hmap := congrArg (Multiset.map Node.payload) hc.events
  simpa only [Multiset.map_add, Multiset.map_coe] using hmap

end Payloads

/-- Some memory for a queue. -/
def blank (α : Type) : Calqueue α :=
  ⟨fun _ => [], fun _ => false, 0, 0, 0, 0, false, 0, 0, 0, .nan, .nan⟩

/-- `no_event_lost` on five puts, the last of which grows the calendar. -/
theorem no_event_lost_growing :
    ∃ c : Client (Option ℕ), c.queue.nbuckets = 4 ∧
      ((c.puts.map Node.payload : List (Option ℕ)) : Multiset (Option ℕ)) =
          ↑(c.gots.map Node.payload) + (stored c.queue).map Node.payload ∧
        c.queue.qsize = (stored c.queue).card ∧
        (∀ op, admissible c op = true → resizesWell c.queue op = true →
          ∃ d, exec c op = .ok d) ∧
        (resizesWell c.queue .get = true → ∃ r q', calqueueGet c.queue = .ok (r, q') ∧
          (r = none ↔ calqueueEmpty c.queue = true)) := by
  obtain ⟨c, hrun, hn⟩ := exists_run
    (fun c op => putsEvent op && resizesWell c.queue op) (start (blank (Option ℕ)))
    [.put ⟨0, some 0⟩, .put ⟨1, some 1⟩, .put ⟨2, some 2⟩, .put ⟨3, some 3⟩, .put ⟨4, some 4⟩]
    (fun c => decide (c.queue.nbuckets = 4)) (by decide +kernel)
  have hevents : Run EventStep (start (blank (Option ℕ))) _ c := hrun.mono fun c op d h =>
    ⟨(Bool.and_eq_true_iff.mp h.1).1, (Bool.and_eq_true_iff.mp h.1).2, h.2⟩
  exact ⟨c, decide_eq_true_iff.mp hn, no_event_lost hevents⟩

/-- A sample out of order.  After a jump of the direct search the event at
17/4 is sampled before the three at 29/8, and the separations of the sample are
-5/8, 0, 0 and a large one.  The new width is -5/8, and the copy of an event at
29/8 goes to the bucket -1. -/
theorem calqueuePut_leaves_window :
    ∃ c : Client (Option ℕ), Run Step (start (blank (Option ℕ)))
        [.put ⟨25 / 8, some 0⟩, .get, .put ⟨29 / 8, some 1⟩, .put ⟨29 / 8, some 2⟩,
          .put ⟨29 / 8, some 3⟩, .put ⟨17 / 4, some 4⟩] c ∧
      admissible c (.put ⟨1000, some 5⟩) = true ∧
      exec c (.put ⟨1000, some 5⟩) = .error (.calendarIndex (-1)) := by
  obtain ⟨c, hrun, hp⟩ := exists_run (fun _ _ => true) (start (blank (Option ℕ)))
    [.put ⟨25 / 8, some 0⟩, .get, .put ⟨29 / 8, some 1⟩, .put ⟨29 / 8, some 2⟩,
      .put ⟨29 / 8, some 3⟩, .put ⟨17 / 4, some 4⟩]
    (fun c => admissible c (.put ⟨1000, some 5⟩) &&
      decide (faultOf (exec c (.put ⟨1000, some 5⟩)) = some (.calendarIndex (-1))))
    (by decide +kernel)
  obtain ⟨hadm, hf⟩ := Bool.and_eq_true_iff.mp hp
  exact ⟨c, hrun.mono fun _ _ _ h => h.2, hadm,
    eq_error_of_faultOf (decide_eq_true_iff.mp hf)⟩

end LinuxFibers.CalQueue
