import LinuxFibers.Gsm.Signal
import Mathlib.Algebra.BigOperators.Group.Finset.Piecewise
import Mathlib.Algebra.Order.BigOperators.Group.Finset
import Mathlib.Order.Interval.Finset.Nat

/-!
# The end of the benchmark

`main_loop` of `multi_thread/src/main.c` as a whole, for all fibers: each runs the
simulation of a cell, adds its time to `exec_millis` and takes itself off
`completed_fibers`, and the first fiber waits until that is 0, prints the times
and ends the program.

* The steps of the fibers come in any order.  Which thread takes them does not
  matter, since a fiber runs on one thread at a time.
* The local variables of `main_loop` are in `Fiber`.  `loop` has the state, the
  queue and the identifier, and `Phase` is where the fiber is.
* What the two calls of `FlsAlloc` return, what `gettimeofday` returns and the
  random values are part of the steps.
* The queue of a fiber is a collection of pending events: every event that was put
  is got once, in any order, and a get returns.  That is assumed of `calqueue` here.
  `queueLoop_follows` says when its calendar does so, and a calendar whose width has
  become negative does not.
* A fiber that has taken itself off switches to others for ever, which changes
  nothing here.
-/

namespace LinuxFibers.Gsm

open LinuxFibers.Lib

/-! ## The end of a loop -/

section LastCall

variable {id : Word} {timestamp : ℚ} {channel : ℤ} {ks : List Turn} {u v : Loop} {k : Turn}

/-- The events that a cell has counted. -/
structure Counters (stopped : Bool) (s : LpState) : Prop where
  events : s.executedEvents = s.arrivingCalls + s.completeCalls
  bound : s.completeCalls.toNat ≤ 15000
  last : stopped = true ↔ s.completeCalls = completeCalls

theorem toNat_completeCalls : completeCalls.toNat = 15000 := rfl

theorem Counters.blocked {s : LpState} (h : Counters false s) (now : ℚ) :
    Counters false (blocked (logged s now) now) where
  events := by
    show s.executedEvents + 1 = s.arrivingCalls + 1 + s.completeCalls
    rw [h.events]
    ac_rfl
  bound := h.bound
  last := h.last

theorem Counters.connected {s : LpState} (h : Counters false s) (now : ℚ) (i : ℕ)
    (heap : LinkedList.Heap Channel) : Counters false (connected (logged s now) now i heap) where
  events := by
    show s.executedEvents + 1 = s.arrivingCalls + 1 + s.completeCalls
    rw [h.events]
    ac_rfl
  bound := h.bound
  last := h.last

theorem Counters.released {s : LpState} (h : Counters false s) (now : ℚ) (ch : ℤ)
    (head : Option ℕ) (heap : LinkedList.Heap Channel) :
    Counters (lastCall (logged s now)).nonzero (released (logged s now) ch head heap) := by
  have hne : s.completeCalls ≠ completeCalls := fun heq => Bool.noConfusion (h.last.mpr heq)
  have hlt : s.completeCalls.toNat < 15000 := by
    have hnat : s.completeCalls.toNat ≠ completeCalls.toNat := fun heq =>
      hne (BitVec.eq_of_toNat_eq heq)
    rw [toNat_completeCalls] at hnat
    have hbound := h.bound
    omega
  refine ⟨?_, ?_, ?_⟩
  · show s.executedEvents + 1 = s.arrivingCalls + (s.completeCalls + 1)
    rw [h.events]
    ac_rfl
  · show (s.completeCalls + 1).toNat ≤ 15000
    bv_omega
  · show (lastCall (logged s now)).nonzero = true ↔ s.completeCalls + 1 = completeCalls
    unfold lastCall
    show (if s.completeCalls + 1 = completeCalls then Ret.one else .zero).nonzero = true ↔ _
    split
    · exact ⟨fun _ => by assumption, fun _ => rfl⟩
    · exact ⟨fun h => Bool.noConfusion h, fun h => absurd h (by assumption)⟩

/-- The counters of a cell in every state. -/
theorem counters_run (h : Run Step (Loop.start id timestamp channel) ks u) :
    ks = [] ∧ u = Loop.start id timestamp channel ∨
      ∃ s, u.state = some s ∧ Counters u.stopped s := by
  refine (h.invariantTrace (I := fun ks u => Run Step (Loop.start id timestamp channel) ks u ∧
    (ks = [] ∧ u = Loop.start id timestamp channel ∨
      ∃ s, u.state = some s ∧ Counters u.stopped s)) ?_ ⟨Run.nil, .inl ⟨rfl, rfl⟩⟩).2
  rintro ks u k v ⟨hrun, hu⟩ hstep
  refine ⟨hrun.snoc hstep, .inr ?_⟩
  rcases hu with ⟨rfl, rfl⟩ | ⟨s, hst, hc⟩
  · obtain ⟨rfl, _⟩ := signals_start hstep
    refine ⟨_, rfl, rfl, Nat.zero_le _, ?_⟩
    show false = true ↔ (0 : Word) = completeCalls
    decide
  · rcases signals_run hrun with ⟨_, rfl⟩ | ⟨hr, s', nodes, hst', hsig⟩
    · cases hst
    · obtain rfl := Option.some.inj (hst'.symm.trans hst)
      obtain ⟨hstop, hk⟩ := stopped_of_exec hstep
      rw [hstop] at hc
      have hexec : u.exec k = .ok v := hstep
      obtain ⟨e, _, ⟨r, hv⟩ | ⟨i, heap, r, hv, _⟩ | ⟨head, heap, r, hv, _⟩⟩ :=
        exec_cases hr hstop hst hsig.listed hk
      · cases hexec.symm.trans hv
        exact ⟨_, rfl, hc.blocked e.timestamp⟩
      · cases hexec.symm.trans hv
        exact ⟨_, rfl, hc.connected e.timestamp i heap⟩
      · cases hexec.symm.trans hv
        exact ⟨_, rfl, hc.released e.timestamp e.channel head heap⟩

/-- The turn that handles a pending `END_CALL`. -/
theorem exists_endTurn {s : LpState} {e : Msg} (hr : Running id u) (hstop : u.stopped = false)
    (hst : u.state = some s) (hc : Counters false s) (he : e ∈ u.pending)
    (htype : e.type = endCall) :
    ∃ k v t, Step u k v ∧ Running id v ∧ v.state = some t ∧ Counters v.stopped t ∧
      t.completeCalls = s.completeCalls + 1 := by
  obtain ⟨st, hst', hsane, hbooked⟩ := hr.cell
  obtain rfl := Option.some.inj (hst'.symm.trans hst)
  obtain ⟨ns, hrep⟩ := hsane.rep
  obtain ⟨nodes, hnodes, _⟩ := hrep.exists_nodes
  obtain ⟨i, hi, rfl⟩ := List.getElem_of_mem he
  let k : Turn := ⟨i, sameDraws⟩
  let e := u.pending[i]
  have hget : u.pending[k.pick]? = some e := List.getElem?_eq_getElem hi
  have hrecv : e.receiver = u.id :=
    (hbooked.receivers e (List.getElem_mem hi)).trans hr.id_eq.symm
  have hch := exists_channel hsane hbooked hnodes hget htype
  have hnlog : Nodes (logged st e.timestamp) nodes := hnodes.of_eq rfl rfl rfl
  obtain ⟨head, heap, hevent, _⟩ := endCall_nodes hnlog hch k.draws
  have hstep := exec_endCall hstop hget hrecv htype hst hevent
  obtain ⟨v, hv, hrunning⟩ := running_turn (k := k) hr hstop hi
  cases hv.symm.trans hstep
  exact ⟨k, _, _, hstep, hrunning, rfl, hc.released e.timestamp e.channel head heap, rfl⟩

/-- A cell can end one more call. -/
theorem exists_nextEnd {s : LpState} (hr : Running id u) (hstop : u.stopped = false)
    (hst : u.state = some s) (hc : Counters false s) :
    ∃ ks v t, Run Step u ks v ∧ Running id v ∧ v.state = some t ∧ Counters v.stopped t ∧
      t.completeCalls = s.completeCalls + 1 := by
  by_cases hend : ∃ e ∈ u.pending, e.type = endCall
  · obtain ⟨e, he, htype⟩ := hend
    obtain ⟨k, v, t, hstep, hv⟩ := exists_endTurn hr hstop hst hc he htype
    exact ⟨[k], v, t, Run.single hstep, hv⟩
  · -- no channel is busy, and a call can start
    obtain ⟨st, hst', hsane, hbooked⟩ := hr.cell
    obtain rfl := Option.some.inj (hst'.symm.trans hst)
    obtain ⟨ns, hrep⟩ := hsane.rep
    obtain ⟨nodes, hnodes, _⟩ := hrep.exists_nodes
    have hnone : (u.pending.filter fun e => e.type == endCall) = [] := by
      refine List.filter_eq_nil_iff.mpr fun e he htype => hend ⟨e, he, ?_⟩
      exact beq_iff_eq.mp htype
    have hbusy : busyChannels st = [] := by
      have hperm := hbooked.ends
      rw [hnone] at hperm
      exact List.map_eq_nil_iff.mp hperm.nil_eq.symm
    have hfree : st.channelCounter ≠ 0 := by
      intro hzero
      have hcounter := hsane.counter
      rw [hzero, hbusy, hsane.perCell] at hcounter
      cases hcounter
    have hpos : 0 < u.pending.countP fun e => e.type == startCall := by
      rw [hbooked.starts]
      exact Nat.one_pos
    obtain ⟨e, he, htype⟩ := List.countP_pos_iff.mp hpos
    obtain ⟨i, hi, rfl⟩ := List.getElem_of_mem he
    let k : Turn := ⟨i, sameDraws⟩
    let e := u.pending[i]
    have hget : u.pending[k.pick]? = some e := List.getElem?_eq_getElem hi
    have hrecv : e.receiver = u.id := (hbooked.receivers e he).trans hr.id_eq.symm
    have hlog : Sane (logged st e.timestamp) := hsane.log e.timestamp (st.executedEvents + 1)
    have hnlog : Nodes (logged st e.timestamp) nodes := hnodes.of_eq rfl rfl rfl
    rcases startCall_nodes hlog hnlog e.receiver e.timestamp (u.pending.eraseIdx k.pick) k.draws
      with ⟨hzero, _⟩ | ⟨_, c, heap, _, hevent, _⟩
    · exact absurd hzero hfree
    · have hstep := exec_startCall hstop hget hrecv (beq_iff_eq.mp htype) hst hevent
      obtain ⟨v, hv, hrunning⟩ := running_turn (k := k) hr hstop hi
      cases hv.symm.trans hstep
      have hmem : packEvent e.receiver endCall
          (e.timestamp + (logged st e.timestamp).taDuration * k.draws.duration) c ∈
          u.pending.eraseIdx k.pick ++ [packEvent e.receiver endCall
            (e.timestamp + (logged st e.timestamp).taDuration * k.draws.duration) c] ++
            [nextCall e.receiver (logged st e.timestamp) e.timestamp k.draws] :=
        List.mem_append_left _ (List.mem_append_right _ List.mem_cons_self)
      obtain ⟨k', w, t, hstep', hrunning', hw, hcw, hcomplete⟩ :=
        exists_endTurn hrunning rfl rfl (hc.connected e.timestamp c heap) hmem rfl
      exact ⟨[k, k'], w, t, Run.cons hstep (Run.single hstep'), hrunning', hw, hcw, hcomplete⟩

/-- A cell can always come to the end of its loop. -/
theorem exists_stop (n : ℕ) : ∀ {u : Loop} {s : LpState}, Running id u → u.state = some s →
    Counters u.stopped s → 15000 - s.completeCalls.toNat ≤ n →
    ∃ ks v, Run Step u ks v ∧ v.stopped = true := by
  induction n with
  | zero =>
    intro u s _ _ hc hn
    have hbound := hc.bound
    have hlast : s.completeCalls = completeCalls := by
      apply BitVec.eq_of_toNat_eq
      rw [toNat_completeCalls]
      omega
    exact ⟨[], u, Run.nil, hc.last.mpr hlast⟩
  | succ n ih =>
    intro u s hr hst hc hn
    cases hstop : u.stopped with
    | true => exact ⟨[], u, Run.nil, hstop⟩
    | false =>
      rw [hstop] at hc
      obtain ⟨ks, v, t, hrun, hr', hst', hc', hcomplete⟩ := exists_nextEnd hr hstop hst hc
      have hless : 15000 - t.completeCalls.toNat ≤ n := by
        have hbound := hc'.bound
        have hbound' := hc.bound
        rw [hcomplete] at hbound ⊢
        bv_omega
      obtain ⟨ks', w, hrun', hw⟩ := ih hr' hst' hc' hless
      exact ⟨ks ++ ks', w, hrun.append hrun', hw⟩

/-- The rest of every run of a cell can be run to its end. -/
theorem loop_stops (h : Run Step (Loop.start id timestamp channel) ks u) :
    ∃ ks' v, Run Step u ks' v ∧ v.stopped = true := by
  have hafter : ∀ {ks u}, Run Step (Loop.start id timestamp channel) ks u → ks ≠ [] →
      ∃ ks' v, Run Step u ks' v ∧ v.stopped = true := by
    intro ks u h hne
    rcases counters_run h with ⟨hnil, _⟩ | ⟨s, hst, hc⟩
    · exact absurd hnil hne
    · rcases signals_run h with ⟨hnil, _⟩ | ⟨hr, _⟩
      · exact absurd hnil hne
      · exact exists_stop _ hr hst hc (le_refl _)
  by_cases hne : ks = []
  · subst hne
    obtain rfl := h.eq_of_nil
    have hfirst : Step (Loop.start id timestamp channel) ⟨0, sameDraws⟩ _ :=
      exec_initEvent id timestamp channel rfl
    obtain ⟨ks', v, hrun, hv⟩ := hafter (h.snoc hfirst) (List.cons_ne_nil _ _)
    exact ⟨_, v, Run.cons hfirst hrun, hv⟩
  · exact hafter h hne

end LastCall

/-! ## The program -/

/-- `struct timeval`. -/
structure Timeval where
  sec : ℤ
  usec : ℤ

/-- The milliseconds of a reading. -/
def Timeval.millis (t : Timeval) : ℤ := t.sec * 1000 + t.usec.tdiv 1000

/-- `timer_value_milli`.  The variable is an `int`. -/
def timerValueMilli (timer now : Timeval) : Word :=
  BitVec.ofInt 32 now.millis - BitVec.ofInt 32 timer.millis

/-- Where a fiber is in `main_loop`. -/
inductive Phase where
  /-- Not yet switched to. -/
  | created
  /-- In the loop. -/
  | looping
  /-- Behind the loop. -/
  | left
  /-- Behind `timer_value_milli`. -/
  | timed
  /-- Behind the addition to `exec_millis`. -/
  | added
  /-- Behind the subtraction from `completed_fibers`. -/
  | notified
  /-- Behind the wait of the first fiber. -/
  | awaited
  deriving DecidableEq

/-- The local variables of `main_loop`. -/
structure Fiber where
  phase : Phase
  runtime : Timeval
  loop : Loop
  millis : Word

/-- The end of the program. -/
inductive Exit where
  /-- The two times that are printed. -/
  | success (initTime runTime : ℚ)
  | noStorage
  | fault (f : Fault)

/-- The variables of the program. -/
structure Benchmark where
  numFibers : Word
  initMillis : BitVec 64
  completedFibers : Word
  execMillis : BitVec 64
  fibers : ℕ → Fiber
  exit : Option Exit

/-- A step of a fiber. -/
inductive FiberEvent where
  /-- The first lines, with the two results of `FlsAlloc` and what `malloc` left in
  the event. -/
  | start (qIdx stateIdx : ℤ) (timestamp : ℚ) (channel : ℤ) (now : Timeval)
  | turn (k : Turn)
  | time (now : Timeval)
  | add
  | notify
  | wait
  | finish

namespace Benchmark

/-- `main` up to the call of `main_loop`. -/
def start (numFibers : Word) (initMillis : BitVec 64) (fibers : ℕ → Fiber) : Benchmark :=
  ⟨numFibers, initMillis, numFibers, 0, fun id => { fibers id with phase := .created }, none⟩

/-- The identifiers of the fibers. -/
def ids (s : Benchmark) : Finset ℕ := Finset.Icc 1 s.numFibers.toNat

/-- A fiber with other variables. -/
def setFiber (s : Benchmark) (id : ℕ) (f : Fiber) : Benchmark :=
  { s with fibers := Function.update s.fibers id f }

/-- The last lines of `main_loop`. -/
def report (s : Benchmark) : Exit :=
  .success (s.initMillis.toNat / 1000) (s.execMillis.toNat / 1000 / s.numFibers.toNat)

/-- A step of the fiber `id`. -/
def exec (s : Benchmark) (m : ℕ × FiberEvent) : Except Unit Benchmark :=
  let (id, event) := m
  let f := s.fibers id
  if s.exit.isSome ∨ id < 1 ∨ s.numFibers.toNat < id then .error ()
  else
    match f.phase, event with
    | .created, .start qIdx stateIdx timestamp channel now =>
        if qIdx = -1 ∨ stateIdx = -1 then .ok { s with exit := some .noStorage }
        else
          .ok (s.setFiber id { f with
            phase := .looping
            loop := Loop.start (BitVec.ofNat 32 id) timestamp channel
            runtime := now })
    | .looping, .turn k =>
        match f.loop.exec k with
        | .ok l =>
            .ok (s.setFiber id { f with
              phase := if l.stopped then .left else .looping, loop := l })
        | .error .misuse => .error ()
        | .error e => .ok { s with exit := some (.fault e) }
    | .left, .time now =>
        .ok (s.setFiber id { f with phase := .timed, millis := timerValueMilli f.runtime now })
    | .timed, .add =>
        .ok { s.setFiber id { f with phase := .added } with
          execMillis := s.execMillis + f.millis.setWidth 64 }
    | .added, .notify =>
        .ok { s.setFiber id { f with phase := .notified } with
          completedFibers := s.completedFibers - 1 }
    | .notified, .wait =>
        if id ≠ 1 then .error ()
        else if s.completedFibers ≠ 0 then .ok s
        else .ok (s.setFiber id { f with phase := .awaited })
    | .awaited, .finish => .ok { s with exit := some s.report }
    | _, _ => .error ()

end Benchmark

/-- The steps of the benchmark. -/
def BenchmarkStep (s : Benchmark) (m : ℕ × FiberEvent) (t : Benchmark) : Prop := s.exec m = .ok t

/-! ## What a step is -/

/-- The effect of a step of the fiber `id`. -/
inductive Effect (s : Benchmark) (id : ℕ) : FiberEvent → Benchmark → Prop where
  | start {qIdx stateIdx : ℤ} {timestamp : ℚ} {channel : ℤ} {now : Timeval} :
      (s.fibers id).phase = .created →
      Effect s id (.start qIdx stateIdx timestamp channel now) (s.setFiber id { s.fibers id with
        phase := .looping
        loop := Loop.start (BitVec.ofNat 32 id) timestamp channel
        runtime := now })
  | noStorage {qIdx stateIdx : ℤ} {timestamp : ℚ} {channel : ℤ} {now : Timeval} :
      qIdx = -1 ∨ stateIdx = -1 →
      Effect s id (.start qIdx stateIdx timestamp channel now) { s with exit := some .noStorage }
  | turn {k : Turn} {l : Loop} :
      (s.fibers id).phase = .looping → Step (s.fibers id).loop k l →
      Effect s id (.turn k) (s.setFiber id { s.fibers id with
        phase := if l.stopped then .left else .looping, loop := l })
  | fault {k : Turn} {e : Fault} :
      (s.fibers id).phase = .looping → (s.fibers id).loop.exec k = .error e → e ≠ .misuse →
      Effect s id (.turn k) { s with exit := some (.fault e) }
  | time {now : Timeval} :
      (s.fibers id).phase = .left →
      Effect s id (.time now) (s.setFiber id { s.fibers id with
        phase := .timed, millis := timerValueMilli (s.fibers id).runtime now })
  | add :
      (s.fibers id).phase = .timed →
      Effect s id .add { s.setFiber id { s.fibers id with phase := .added } with
        execMillis := s.execMillis + (s.fibers id).millis.setWidth 64 }
  | notify :
      (s.fibers id).phase = .added →
      Effect s id .notify { s.setFiber id { s.fibers id with phase := .notified } with
        completedFibers := s.completedFibers - 1 }
  | wait : Effect s id .wait s
  | awaited :
      (s.fibers id).phase = .notified → s.completedFibers = 0 →
      Effect s id .wait (s.setFiber id { s.fibers id with phase := .awaited })
  | finish :
      (s.fibers id).phase = .awaited → Effect s id .finish { s with exit := some s.report }

variable {s t : Benchmark} {id : ℕ} {event : FiberEvent}

/-- A step is taken by one of the fibers, before the end of the program, and it has
one of the effects. -/
theorem effect_of_step (h : BenchmarkStep s (id, event) t) :
    s.exit = none ∧ id ∈ s.ids ∧ Effect s id event t := by
  unfold BenchmarkStep Benchmark.exec at h
  dsimp only at h
  split at h
  · cases h
  · rename_i hok
    simp only [not_or, Bool.not_eq_true, Option.isSome_eq_false_iff, Option.isNone_iff_eq_none,
      not_lt] at hok
    refine ⟨hok.1, Finset.mem_Icc.mpr hok.2, ?_⟩
    split at h
    · rename_i hphase
      split at h
      · rename_i hno
        cases h
        exact Effect.noStorage hno
      · cases h
        exact Effect.start hphase
    · rename_i hphase
      split at h
      · rename_i l hl
        cases h
        exact Effect.turn hphase hl
      · cases h
      · rename_i e hmisuse he
        cases h
        exact Effect.fault hphase he hmisuse
    · rename_i hphase
      cases h
      exact Effect.time hphase
    · rename_i hphase
      cases h
      exact Effect.add hphase
    · rename_i hphase
      cases h
      exact Effect.notify hphase
    · rename_i hphase
      split at h
      · cases h
      · split at h
        · cases h
          exact Effect.wait
        · rename_i hzero
          cases h
          exact Effect.awaited hphase (not_not.mp hzero)
    · rename_i hphase
      cases h
      exact Effect.finish hphase
    · cases h

/-! ## The invariant -/

/-- The loop of the fiber `id`, from its start. -/
def Ran (id : ℕ) (l : Loop) : Prop :=
  ∃ timestamp channel ks, Run Step (Loop.start (BitVec.ofNat 32 id) timestamp channel) ks l

/-- What the phase of a fiber says of its loop. -/
def FiberOk (id : ℕ) (f : Fiber) : Prop :=
  match f.phase with
  | .created => True
  | .looping => Ran id f.loop ∧ f.loop.stopped = false
  | _ => Ran id f.loop ∧ f.loop.stopped = true

/-- 1 for a fiber that has taken itself off. -/
def Fiber.off (f : Fiber) : ℕ :=
  match f.phase with
  | .notified | .awaited => 1
  | _ => 0

/-- The time that a fiber has added. -/
def Fiber.added (f : Fiber) : ℕ :=
  match f.phase with
  | .added | .notified | .awaited => f.millis.toNat
  | _ => 0

/-- The invariant of the program. -/
structure BenchmarkOk (s : Benchmark) : Prop where
  fibers : ∀ id ∈ s.ids, FiberOk id (s.fibers id)
  completed : s.completedFibers.toNat + ∑ id ∈ s.ids, (s.fibers id).off = s.numFibers.toNat
  millis : s.execMillis.toNat = ∑ id ∈ s.ids, (s.fibers id).added
  awaited : ∀ id ∈ s.ids, (s.fibers id).phase = .awaited → s.completedFibers = 0
  exit : ∀ e, s.exit = some e → e = .noStorage ∨ s.completedFibers = 0 ∧ e = s.report

theorem fibers_setFiber_self (s : Benchmark) (id : ℕ) (f : Fiber) :
    (s.setFiber id f).fibers id = f := by
  show Function.update s.fibers id f id = f
  rw [Function.update_self]

theorem fibers_setFiber_of_ne {j : ℕ} (h : j ≠ id) (f : Fiber) :
    (s.setFiber id f).fibers j = s.fibers j := by
  show Function.update s.fibers id f j = s.fibers j
  rw [Function.update_of_ne h]

theorem sum_setFiber (g : Fiber → ℕ) (hid : id ∈ s.ids) (f : Fiber) :
    ∑ i ∈ s.ids, g ((s.setFiber id f).fibers i) + g (s.fibers id) =
      ∑ i ∈ s.ids, g (s.fibers i) + g f := by
  have hupdate : (fun i => g ((s.setFiber id f).fibers i)) =
      Function.update (fun i => g (s.fibers i)) id (g f) := by
    funext i
    exact Function.apply_update (fun _ => g) s.fibers id f i
  have hsplit := Finset.sum_eq_add_sum_sdiff_singleton_of_mem hid fun i => g (s.fibers i)
  rw [hupdate, Finset.sum_update_of_mem hid, hsplit]
  omega

/-- A fiber whose sum does not change. -/
theorem sum_setFiber_of_eq (g : Fiber → ℕ) (hid : id ∈ s.ids) {f : Fiber}
    (hf : g f = g (s.fibers id)) :
    ∑ i ∈ s.ids, g ((s.setFiber id f).fibers i) = ∑ i ∈ s.ids, g (s.fibers i) := by
  have hsum := sum_setFiber g hid f
  omega

theorem forall_setFiber {P : ℕ → Fiber → Prop} (h : ∀ i ∈ s.ids, P i (s.fibers i)) {f : Fiber}
    (hf : P id f) : ∀ i ∈ s.ids, P i ((s.setFiber id f).fibers i) := by
  intro i hi
  show P i (Function.update s.fibers id f i)
  by_cases heq : i = id
  · subst heq
    rw [Function.update_self]
    exact hf
  · rw [Function.update_of_ne heq]
    exact h i hi

/-- The sum of the added times fits into 64 bits. -/
theorem sum_added_lt (s : Benchmark) (fibers : ℕ → Fiber) :
    ∑ i ∈ s.ids, (fibers i).added < 2 ^ 64 := by
  have hle : ∀ i ∈ s.ids, (fibers i).added ≤ 2 ^ 32 - 1 := by
    intro i _
    have hlt := (fibers i).millis.isLt
    unfold Fiber.added
    split <;> omega
  have hcard : s.ids.card ≤ 2 ^ 32 - 1 := by
    have hlt := s.numFibers.isLt
    rw [Benchmark.ids, Nat.card_Icc]
    omega
  have hsum := Finset.sum_le_card_nsmul s.ids (fun i => (fibers i).added) (2 ^ 32 - 1) hle
  rw [Nat.nsmul_eq_mul] at hsum
  have hmul := Nat.mul_le_mul_right (2 ^ 32 - 1) hcard
  omega

/-- A fiber that changes nothing but itself, and neither adds its time nor takes
itself off. -/
theorem BenchmarkOk.setFiber (h : BenchmarkOk s) (hexit : s.exit = none) (hid : id ∈ s.ids)
    {f : Fiber} (hf : FiberOk id f) (hoff : f.off = (s.fibers id).off)
    (hadded : f.added = (s.fibers id).added)
    (hawaited : f.phase = .awaited → s.completedFibers = 0) : BenchmarkOk (s.setFiber id f) where
  fibers := forall_setFiber h.fibers hf
  completed := by
    have hsum := sum_setFiber_of_eq Fiber.off hid hoff
    show s.completedFibers.toNat + ∑ i ∈ s.ids, ((s.setFiber id f).fibers i).off = _
    rw [hsum]
    exact h.completed
  millis := by
    have hsum := sum_setFiber_of_eq Fiber.added hid hadded
    show s.execMillis.toNat = ∑ i ∈ s.ids, ((s.setFiber id f).fibers i).added
    rw [hsum]
    exact h.millis
  awaited := forall_setFiber (P := fun _ f => f.phase = .awaited → s.completedFibers = 0)
    h.awaited hawaited
  exit e he := by
    have hnone : s.exit = some e := he
    rw [hexit] at hnone
    cases hnone

/-- The program ends. -/
theorem BenchmarkOk.leave (h : BenchmarkOk s) {e : Exit}
    (he : e = .noStorage ∨ s.completedFibers = 0 ∧ e = s.report) :
    BenchmarkOk { s with exit := some e } where
  fibers := h.fibers
  completed := h.completed
  millis := h.millis
  awaited := h.awaited
  exit e' he' := by
    obtain rfl := Option.some.inj he'
    exact he

theorem off_le_one (f : Fiber) : f.off ≤ 1 := by
  unfold Fiber.off
  split <;> decide

/-- A fiber adds its time. -/
theorem BenchmarkOk.add (h : BenchmarkOk s) (hexit : s.exit = none) (hid : id ∈ s.ids)
    (hphase : (s.fibers id).phase = .timed) :
    BenchmarkOk { s.setFiber id { s.fibers id with phase := .added } with
      execMillis := s.execMillis + (s.fibers id).millis.setWidth 64 } := by
  have hf := h.fibers id hid
  rw [FiberOk, hphase] at hf
  let f : Fiber := { s.fibers id with phase := .added }
  have hoff := sum_setFiber_of_eq (f := f) Fiber.off hid (by simp only [Fiber.off, hphase, f])
  have hsum := sum_setFiber Fiber.added hid f
  have hold : (s.fibers id).added = 0 := by simp only [Fiber.added, hphase]
  have hnew : f.added = (s.fibers id).millis.toNat := rfl
  have hlt := sum_added_lt s (s.setFiber id f).fibers
  refine ⟨forall_setFiber h.fibers hf, ?_, ?_, ?_, fun e he => ?_⟩
  · show s.completedFibers.toNat + ∑ i ∈ s.ids, ((s.setFiber id f).fibers i).off = _
    rw [hoff]
    exact h.completed
  · show (s.execMillis + (s.fibers id).millis.setWidth 64).toNat =
      ∑ i ∈ s.ids, ((s.setFiber id f).fibers i).added
    have hwide : ((s.fibers id).millis.setWidth 64).toNat = (s.fibers id).millis.toNat :=
      BitVec.toNat_setWidth_of_le (by decide)
    have hmillis := h.millis
    rw [BitVec.toNat_add, hwide, Nat.mod_eq_of_lt] <;> omega
  · exact forall_setFiber (P := fun _ f => f.phase = .awaited → s.completedFibers = 0) h.awaited
      (fun h => by cases h)
  · have hnone : s.exit = some e := he
    rw [hexit] at hnone
    cases hnone

/-- A fiber takes itself off. -/
theorem BenchmarkOk.notify (h : BenchmarkOk s) (hexit : s.exit = none) (hid : id ∈ s.ids)
    (hphase : (s.fibers id).phase = .added) :
    BenchmarkOk { s.setFiber id { s.fibers id with phase := .notified } with
      completedFibers := s.completedFibers - 1 } := by
  have hf := h.fibers id hid
  rw [FiberOk, hphase] at hf
  let f : Fiber := { s.fibers id with phase := .notified }
  have hadded := sum_setFiber_of_eq (f := f) Fiber.added hid
    (by simp only [Fiber.added, hphase, f])
  have hsum := sum_setFiber Fiber.off hid f
  have hold : (s.fibers id).off = 0 := by simp only [Fiber.off, hphase]
  have hnew : f.off = 1 := rfl
  have hle : ∑ i ∈ s.ids, ((s.setFiber id f).fibers i).off ≤ s.numFibers.toNat := by
    have hcard := Finset.sum_le_card_nsmul s.ids _ 1
      fun i _ => off_le_one ((s.setFiber id f).fibers i)
    rw [Nat.nsmul_eq_mul, Nat.mul_one, Benchmark.ids, Nat.card_Icc, Nat.add_sub_cancel] at hcard
    exact hcard
  have hcompleted := h.completed
  have hpos : s.completedFibers.toNat ≠ 0 := by omega
  refine ⟨forall_setFiber h.fibers hf, ?_, ?_, ?_, fun e he => ?_⟩
  · show (s.completedFibers - 1).toNat + ∑ i ∈ s.ids, ((s.setFiber id f).fibers i).off =
      s.numFibers.toNat
    have hsub : (s.completedFibers - 1).toNat = s.completedFibers.toNat - 1 := by bv_omega
    omega
  · show s.execMillis.toNat = ∑ i ∈ s.ids, ((s.setFiber id f).fibers i).added
    rw [hadded]
    exact h.millis
  · have hnone : ∀ i ∈ s.ids, (s.fibers i).phase = .awaited → s.completedFibers - 1 = 0 := by
      intro i hi hawaited
      exact absurd (by rw [h.awaited i hi hawaited]; rfl) hpos
    exact forall_setFiber (P := fun _ f => f.phase = .awaited → s.completedFibers - 1 = 0) hnone
      (fun h => by cases h)
  · have hnone : s.exit = some e := he
    rw [hexit] at hnone
    cases hnone

/-- A turn of the loop of a fiber returns. -/
theorem turn_ok {f : Fiber} {k : Turn} {e : Fault} (hf : FiberOk id f) (hphase : f.phase = .looping)
    (he : f.loop.exec k = .error e) : e = .misuse := by
  rw [FiberOk, hphase] at hf
  obtain ⟨⟨timestamp, channel, ks, hrun⟩, hstop⟩ := hf
  obtain ⟨_, hlive⟩ := cell_bookkeeping hrun
  obtain ⟨hne, hturns⟩ := hlive hstop
  by_cases hk : k.pick < f.loop.pending.length
  · obtain ⟨u, hu⟩ := hturns k hk
    rw [hu] at he
    cases he
  · have hget : f.loop.pending[k.pick]? = none := List.getElem?_eq_none (not_lt.mp hk)
    simp only [Loop.exec, hstop, hne, hget, Bool.false_eq_true, if_false] at he
    cases he
    rfl

/-- What one step of the benchmark preserves. -/
theorem benchmarkOk_step (h : BenchmarkOk s) (hstep : BenchmarkStep s (id, event) t) :
    BenchmarkOk t := by
  obtain ⟨hexit, hid, heffect⟩ := effect_of_step hstep
  have hf := h.fibers id hid
  cases heffect with
  | start hphase =>
    refine h.setFiber hexit hid ⟨⟨_, _, [], Run.nil⟩, rfl⟩ ?_ ?_ (fun h => by cases h)
    · simp only [Fiber.off, hphase]
    · simp only [Fiber.added, hphase]
  | noStorage => exact h.leave (.inl rfl)
  | @turn k l hphase hl =>
    rw [FiberOk, hphase] at hf
    obtain ⟨⟨timestamp, channel, ks, hrun⟩, _⟩ := hf
    have hran : Ran id l := ⟨timestamp, channel, ks ++ [k], hrun.snoc hl⟩
    cases hstop : l.stopped with
    | false =>
      refine h.setFiber hexit hid ⟨hran, hstop⟩ ?_ ?_ (fun h => by cases h)
      · simp only [Fiber.off, hphase, Bool.false_eq_true, if_false]
      · simp only [Fiber.added, hphase, Bool.false_eq_true, if_false]
    | true =>
      refine h.setFiber hexit hid ⟨hran, hstop⟩ ?_ ?_ (fun h => by cases h)
      · simp only [Fiber.off, hphase, if_true]
      · simp only [Fiber.added, hphase, if_true]
  | fault hphase he hmisuse => exact absurd (turn_ok hf hphase he) hmisuse
  | time hphase =>
    rw [FiberOk, hphase] at hf
    refine h.setFiber hexit hid hf ?_ ?_ (fun h => by cases h)
    · simp only [Fiber.off, hphase]
    · simp only [Fiber.added, hphase]
  | add hphase => exact h.add hexit hid hphase
  | notify hphase => exact h.notify hexit hid hphase
  | wait => exact h
  | awaited hphase hzero =>
    rw [FiberOk, hphase] at hf
    refine h.setFiber hexit hid hf ?_ ?_ fun _ => hzero
    · simp only [Fiber.off, hphase]
    · simp only [Fiber.added, hphase]
  | finish hphase => exact h.leave (.inr ⟨h.awaited id hid hphase, rfl⟩)

/-! ## Every run -/

variable {numFibers : Word} {initMillis : BitVec 64} {fibers : ℕ → Fiber}
  {tr : List (ℕ × FiberEvent)}

theorem benchmarkOk_start (numFibers : Word) (initMillis : BitVec 64) (fibers : ℕ → Fiber) :
    BenchmarkOk (Benchmark.start numFibers initMillis fibers) where
  fibers _ _ := trivial
  completed := by
    have hzero : ∑ id ∈ (Benchmark.start numFibers initMillis fibers).ids,
        ((Benchmark.start numFibers initMillis fibers).fibers id).off = 0 :=
      Finset.sum_eq_zero fun _ _ => rfl
    rw [hzero]
    rfl
  millis := (Finset.sum_eq_zero fun _ _ => rfl).symm
  awaited _ _ h := by cases h
  exit e he := by cases he

/-- `num_fibers` and `init_millis` do not change. -/
theorem constants_step (h : BenchmarkStep s (id, event) t) :
    t.numFibers = s.numFibers ∧ t.initMillis = s.initMillis := by
  obtain ⟨_, _, heffect⟩ := effect_of_step h
  cases heffect <;> exact ⟨rfl, rfl⟩

theorem benchmark_run (h : Run BenchmarkStep (Benchmark.start numFibers initMillis fibers) tr s) :
    BenchmarkOk s ∧ s.numFibers = numFibers ∧ s.initMillis = initMillis := by
  refine h.invariant (I := fun s =>
    BenchmarkOk s ∧ s.numFibers = numFibers ∧ s.initMillis = initMillis) ?_
    ⟨benchmarkOk_start _ _ _, rfl, rfl⟩
  rintro s ⟨id, event⟩ t ⟨hok, hnum, hinit⟩ hstep
  obtain ⟨hnum', hinit'⟩ := constants_step hstep
  exact ⟨benchmarkOk_step hok hstep, hnum'.trans hnum, hinit'.trans hinit⟩

/-- When `completed_fibers` is 0, every fiber has taken itself off. -/
theorem BenchmarkOk.all_off (h : BenchmarkOk s) (hzero : s.completedFibers = 0) :
    ∀ id ∈ s.ids, (s.fibers id).off = 1 := by
  have hsum := h.completed
  rw [hzero] at hsum
  have hcard : ∑ id ∈ s.ids, 1 = s.numFibers.toNat := by
    rw [Finset.sum_const, Nat.nsmul_eq_mul, Nat.mul_one, Benchmark.ids, Nat.card_Icc,
      Nat.add_sub_cancel]
  have heq : ∑ id ∈ s.ids, (s.fibers id).off = ∑ id ∈ s.ids, 1 := by
    rw [hcard, ← hsum]
    exact (Nat.zero_add _).symm
  exact (Finset.sum_eq_sum_iff_of_le fun id _ => off_le_one (s.fibers id)).mp heq

theorem off_eq_one {f : Fiber} (h : f.off = 1) : f.phase = .notified ∨ f.phase = .awaited := by
  unfold Fiber.off at h
  split at h
  · exact .inl (by assumption)
  · exact .inr (by assumption)
  · cases h

/-- What a fiber has done when it takes itself off: the cell has ended 15000 calls,
and its books are in order. -/
def Done (id : ℕ) (f : Fiber) : Prop :=
  ∃ st, f.loop.state = some st ∧ st.completeCalls = completeCalls ∧
    st.executedEvents = st.arrivingCalls + completeCalls ∧
    Booked (BitVec.ofNat 32 id) st f.loop.pending

theorem done_of_stopped {f : Fiber} (h : Ran id f.loop) (hstop : f.loop.stopped = true) :
    Done id f := by
  obtain ⟨timestamp, channel, ks, hrun⟩ := h
  have hne : ks ≠ [] := by
    rintro rfl
    rw [hrun.eq_of_nil] at hstop
    cases hstop
  obtain ⟨st, hst, hbooked⟩ := (cell_bookkeeping hrun).1 hne
  rcases counters_run hrun with ⟨hnil, _⟩ | ⟨st', hst', hc⟩
  · exact absurd hnil hne
  · obtain rfl := Option.some.inj (hst'.symm.trans hst)
    have hlast := hc.last.mp hstop
    exact ⟨st', hst, hlast, by rw [← hlast]; exact hc.events, hbooked⟩

/-- In every state of the benchmark, `completed_fibers` is the number of fibers that
have not taken themselves off, and `exec_millis` is the sum of the times that were
added, however the fibers are interleaved. -/
theorem completed_fibers_exact
    (h : Run BenchmarkStep (Benchmark.start numFibers initMillis fibers) tr s) :
    s.completedFibers.toNat + ∑ id ∈ Finset.Icc 1 numFibers.toNat, (s.fibers id).off =
        numFibers.toNat ∧
      s.execMillis.toNat = ∑ id ∈ Finset.Icc 1 numFibers.toNat, (s.fibers id).added := by
  obtain ⟨hok, hnum, _⟩ := benchmark_run h
  have hids : s.ids = Finset.Icc 1 numFibers.toNat := by rw [Benchmark.ids, hnum]
  rw [← hids]
  refine ⟨?_, hok.millis⟩
  rw [hok.completed, hnum]

/-- When the queues give every event once, the benchmark ends in one of two ways.
Either a fiber got no local storage, or every fiber has ended 15000 calls with its
books in order, and the time that is printed is the mean of the times of all
fibers. -/
theorem benchmark_exit {e : Exit}
    (h : Run BenchmarkStep (Benchmark.start numFibers initMillis fibers) tr s)
    (he : s.exit = some e) :
    e = .noStorage ∨
      e = .success (initMillis.toNat / 1000)
        ((∑ id ∈ Finset.Icc 1 numFibers.toNat, (s.fibers id).millis.toNat : ℕ) / 1000 /
          numFibers.toNat) ∧
      ∀ id ∈ Finset.Icc 1 numFibers.toNat, Done id (s.fibers id) := by
  obtain ⟨hok, hnum, hinit⟩ := benchmark_run h
  rcases hok.exit e he with rfl | ⟨hzero, rfl⟩
  · exact .inl rfl
  · right
    have hids : s.ids = Finset.Icc 1 numFibers.toNat := by rw [Benchmark.ids, hnum]
    have hoff := hok.all_off hzero
    have hsum : ∑ id ∈ s.ids, (s.fibers id).added = ∑ id ∈ s.ids, (s.fibers id).millis.toNat := by
      refine Finset.sum_congr rfl fun id hid => ?_
      rcases off_eq_one (hoff id hid) with hphase | hphase <;> simp only [Fiber.added, hphase]
    rw [← hids]
    refine ⟨?_, fun id hid => ?_⟩
    · rw [Benchmark.report, hok.millis, hsum, hnum, hinit]
    · have hf := hok.fibers id hid
      rcases off_eq_one (hoff id hid) with hphase | hphase
      · rw [FiberOk, hphase] at hf
        exact done_of_stopped hf.1 hf.2
      · rw [FiberOk, hphase] at hf
        exact done_of_stopped hf.1 hf.2

/-! ## The end is reached -/

/-- The steps that a fiber behind its loop takes until it has taken itself off. -/
def Fiber.rank (f : Fiber) : ℕ :=
  match f.phase with
  | .left => 3
  | .timed => 2
  | .added => 1
  | _ => 0

/-- The fiber is behind its loop. -/
def Fiber.Behind (f : Fiber) : Prop := f.phase ≠ .created ∧ f.phase ≠ .looping

/-- The guard of a step. -/
theorem guard_false (hexit : s.exit = none) (hid : id ∈ s.ids) :
    ¬ (s.exit.isSome = true ∨ id < 1 ∨ s.numFibers.toNat < id) := by
  obtain ⟨h₁, h₂⟩ := Finset.mem_Icc.mp hid
  rw [hexit]
  rintro (h | h | h)
  · cases h
  · omega
  · omega

theorem behind_of {f : Fiber} (h : f.rank ≠ 0 ∨ f.off ≠ 0) : f.Behind := by
  unfold Fiber.rank Fiber.off at h
  unfold Fiber.Behind
  cases hphase : f.phase <;> simp_all

/-- A fiber on its way from its loop can take its next step. -/
theorem exists_step (hexit : s.exit = none) (hid : id ∈ s.ids) (hrank : (s.fibers id).rank ≠ 0) :
    ∃ event t f, BenchmarkStep s (id, event) t ∧ t.exit = none ∧ t.numFibers = s.numFibers ∧
      t.fibers = (s.setFiber id f).fibers ∧ f.Behind ∧ f.rank + 1 = (s.fibers id).rank := by
  have hguard := guard_false hexit hid
  cases hphase : (s.fibers id).phase with
  | created => exact absurd (by simp only [Fiber.rank, hphase]) hrank
  | looping => exact absurd (by simp only [Fiber.rank, hphase]) hrank
  | left =>
    let f : Fiber := { s.fibers id with
      phase := .timed, millis := timerValueMilli (s.fibers id).runtime ⟨0, 0⟩ }
    have hf : f.Behind := behind_of (.inl (Nat.succ_ne_zero 1))
    have hstep : BenchmarkStep s (id, .time ⟨0, 0⟩) (s.setFiber id f) := by
      simp only [BenchmarkStep, Benchmark.exec, if_neg hguard, hphase]
      rfl
    exact ⟨_, _, f, hstep, hexit, rfl, rfl, hf, by simp only [Fiber.rank, hphase, f]⟩
  | timed =>
    let f : Fiber := { s.fibers id with phase := .added }
    have hf : f.Behind := behind_of (.inl (Nat.succ_ne_zero 0))
    have hstep : BenchmarkStep s (id, .add) { s.setFiber id f with
        execMillis := s.execMillis + (s.fibers id).millis.setWidth 64 } := by
      simp only [BenchmarkStep, Benchmark.exec, if_neg hguard, hphase]
      rfl
    exact ⟨_, _, f, hstep, hexit, rfl, rfl, hf, by simp only [Fiber.rank, hphase, f]⟩
  | added =>
    let f : Fiber := { s.fibers id with phase := .notified }
    have hf : f.Behind := behind_of (.inr (Nat.succ_ne_zero 0))
    have hstep : BenchmarkStep s (id, .notify) { s.setFiber id f with
        completedFibers := s.completedFibers - 1 } := by
      simp only [BenchmarkStep, Benchmark.exec, if_neg hguard, hphase]
      rfl
    exact ⟨_, _, f, hstep, hexit, rfl, rfl, hf, by simp only [Fiber.rank, hphase, f]⟩
  | notified => exact absurd (by simp only [Fiber.rank, hphase]) hrank
  | awaited => exact absurd (by simp only [Fiber.rank, hphase]) hrank

/-- When every fiber has taken itself off, the first one ends the program. -/
theorem exit_of_off (hok : BenchmarkOk s) (hexit : s.exit = none) (hnum : s.numFibers ≠ 0)
    (hoff : ∀ id ∈ s.ids, (s.fibers id).off = 1) :
    ∃ tr t, Run BenchmarkStep s tr t ∧ ∃ a b, t.exit = some (.success a b) := by
  have hpos : 1 ≤ s.numFibers.toNat := by
    have hne : s.numFibers.toNat ≠ 0 := fun hz => hnum (BitVec.eq_of_toNat_eq hz)
    omega
  have hone : 1 ∈ s.ids := Finset.mem_Icc.mpr ⟨le_refl 1, hpos⟩
  have hzero : s.completedFibers = 0 := by
    have hcompleted := hok.completed
    rw [Finset.sum_congr rfl hoff, Finset.sum_const, Nat.nsmul_eq_mul, Nat.mul_one, Benchmark.ids,
      Nat.card_Icc, Nat.add_sub_cancel] at hcompleted
    have hnat : s.completedFibers.toNat = 0 := by omega
    exact BitVec.eq_of_toNat_eq hnat
  have hfinish : ∀ {u : Benchmark}, u.exit = none → 1 ∈ u.ids → (u.fibers 1).phase = .awaited →
      BenchmarkStep u (1, .finish) { u with exit := some u.report } := by
    intro u hexit hid hphase
    simp only [BenchmarkStep, Benchmark.exec, if_neg (guard_false hexit hid), hphase]
  rcases off_eq_one (hoff 1 hone) with hphase | hphase
  · have hwait : BenchmarkStep s (1, .wait)
        (s.setFiber 1 { s.fibers 1 with phase := .awaited }) := by
      simp only [BenchmarkStep, Benchmark.exec, if_neg (guard_false hexit hone), hphase, hzero,
        ne_eq, not_true_eq_false, if_false]
    have hself : ((s.setFiber 1 { s.fibers 1 with phase := .awaited }).fibers 1).phase =
        .awaited := by
      rw [fibers_setFiber_self]
    exact ⟨_, _, (Run.single hwait).snoc (hfinish hexit hone hself), _, _, rfl⟩
  · exact ⟨_, _, Run.single (hfinish hexit hone hphase), _, _, rfl⟩

theorem exit_of_behind (n : ℕ) : ∀ {s : Benchmark}, BenchmarkOk s → s.exit = none →
    s.numFibers ≠ 0 → (∀ id ∈ s.ids, (s.fibers id).Behind) →
    ∑ id ∈ s.ids, (s.fibers id).rank = n →
    ∃ tr t, Run BenchmarkStep s tr t ∧ ∃ a b, t.exit = some (.success a b) := by
  induction n with
  | zero =>
    intro s hok hexit hnum hbehind hrank
    refine exit_of_off hok hexit hnum fun id hid => ?_
    have hzero := Finset.sum_eq_zero_iff.mp hrank id hid
    obtain ⟨h₁, h₂⟩ := hbehind id hid
    unfold Fiber.off
    unfold Fiber.rank at hzero
    cases hphase : (s.fibers id).phase <;> simp_all
  | succ n ih =>
    intro s hok hexit hnum hbehind hrank
    have hne : ∑ id ∈ s.ids, (s.fibers id).rank ≠ 0 := by omega
    obtain ⟨id, hid, hid'⟩ := Finset.exists_ne_zero_of_sum_ne_zero hne
    obtain ⟨event, t, f, hstep, hexit', hnum', hfibers, hf, hless⟩ := exists_step hexit hid hid'
    have hids : t.ids = s.ids := by rw [Benchmark.ids, Benchmark.ids, hnum']
    have hsum := sum_setFiber Fiber.rank hid f
    rw [← hfibers] at hsum
    have hbehind' : ∀ i ∈ t.ids, (t.fibers i).Behind := by
      rw [hids, hfibers]
      exact forall_setFiber (P := fun _ f => f.Behind) hbehind hf
    have hrank' : ∑ i ∈ t.ids, (t.fibers i).rank = n := by
      rw [hids]
      omega
    obtain ⟨tr, u, hrun, hu⟩ :=
      ih (benchmarkOk_step hok hstep) hexit' (hnum' ▸ hnum) hbehind' hrank'
    exact ⟨_, u, Run.cons hstep hrun, hu⟩

/-- The fiber `id` has come behind its loop, and the others have not moved. -/
structure Onward (id : ℕ) (s t : Benchmark) : Prop where
  exit : t.exit = none
  num : t.numFibers = s.numFibers
  behind : (t.fibers id).Behind
  others : ∀ j, j ≠ id → t.fibers j = s.fibers j

/-- The turns of a cell up to its end, as steps of its fiber. -/
theorem onward_of_loop {ks : List Turn} {l : Loop} : ∀ {s : Benchmark}, s.exit = none →
    id ∈ s.ids → (s.fibers id).phase = .looping → (s.fibers id).loop.stopped = false →
    Run Step (s.fibers id).loop ks l → l.stopped = true →
    ∃ tr t, Run BenchmarkStep s tr t ∧ Onward id s t := by
  induction ks with
  | nil =>
    intro s _ _ _ hstop hrun hl
    rw [← hrun.eq_of_nil, hl] at hstop
    cases hstop
  | cons k ks ih =>
    intro s hexit hid hphase hstop hrun hl
    obtain ⟨l₁, hfirst, hrest⟩ := hrun.of_cons
    let f : Fiber := { s.fibers id with
      phase := if l₁.stopped then .left else .looping, loop := l₁ }
    have hturn : (s.fibers id).loop.exec k = .ok l₁ := hfirst
    have hstep : BenchmarkStep s (id, .turn k) (s.setFiber id f) := by
      simp only [BenchmarkStep, Benchmark.exec, if_neg (guard_false hexit hid), hphase, hturn]
      rfl
    have hself := fibers_setFiber_self s id f
    cases hstop₁ : l₁.stopped with
    | true =>
      have hf : f.phase = .left := by simp only [f, hstop₁, if_true]
      refine ⟨_, _, Run.single hstep, hexit, rfl, ?_, fun j hj => fibers_setFiber_of_ne hj f⟩
      rw [hself, Fiber.Behind, hf]
      decide
    | false =>
      have hf : f.phase = .looping := by
        simp only [f, hstop₁, Bool.false_eq_true, if_false]
      have hphase' : ((s.setFiber id f).fibers id).phase = .looping := by rw [hself, hf]
      have hloop' : ((s.setFiber id f).fibers id).loop = l₁ := by rw [hself]
      obtain ⟨tr, t, hrun', ht⟩ := ih (s := s.setFiber id f) hexit hid hphase'
        (by rw [hloop', hstop₁]) (by rw [hloop']; exact hrest) hl
      refine ⟨_, t, Run.cons hstep hrun', ht.exit, ht.num, ht.behind, fun j hj => ?_⟩
      rw [ht.others j hj, fibers_setFiber_of_ne hj]

/-- Every fiber can come behind its loop. -/
theorem exists_onward (hok : BenchmarkOk s) (hexit : s.exit = none) (hid : id ∈ s.ids) :
    ∃ tr t, Run BenchmarkStep s tr t ∧ Onward id s t := by
  have hf := hok.fibers id hid
  by_cases hbehind : (s.fibers id).Behind
  · exact ⟨[], s, Run.nil, hexit, rfl, hbehind, fun _ _ => rfl⟩
  · cases hphase : (s.fibers id).phase with
    | created =>
      let l := Loop.start (BitVec.ofNat 32 id) 0 0
      let f : Fiber := { s.fibers id with phase := .looping, loop := l, runtime := ⟨0, 0⟩ }
      have hstep : BenchmarkStep s (id, .start 0 1 0 0 ⟨0, 0⟩) (s.setFiber id f) := by
        simp only [BenchmarkStep, Benchmark.exec, if_neg (guard_false hexit hid), hphase]
        rfl
      have hnil : Run Step l [] l := Run.nil
      obtain ⟨ks, v, hrun, hv⟩ := loop_stops hnil
      have hself := fibers_setFiber_self s id f
      obtain ⟨tr, t, hrun', ht⟩ := onward_of_loop (s := s.setFiber id f) hexit hid
        (by rw [hself]) (by rw [hself]; rfl) (by rw [hself]; exact hrun) hv
      refine ⟨_, t, Run.cons hstep hrun', ht.exit, ht.num, ht.behind, fun j hj => ?_⟩
      rw [ht.others j hj, fibers_setFiber_of_ne hj]
    | looping =>
      rw [FiberOk, hphase] at hf
      obtain ⟨⟨timestamp, channel, ks, hran⟩, hstop⟩ := hf
      obtain ⟨ks', v, hrun, hv⟩ := loop_stops hran
      exact onward_of_loop hexit hid hphase hstop hrun hv
    | left =>
      exact absurd (by rw [Fiber.Behind, hphase]; decide) hbehind
    | timed =>
      exact absurd (by rw [Fiber.Behind, hphase]; decide) hbehind
    | added =>
      exact absurd (by rw [Fiber.Behind, hphase]; decide) hbehind
    | notified =>
      exact absurd (by rw [Fiber.Behind, hphase]; decide) hbehind
    | awaited =>
      exact absurd (by rw [Fiber.Behind, hphase]; decide) hbehind

theorem benchmarkOk_of_run {tr : List (ℕ × FiberEvent)} (hok : BenchmarkOk s)
    (h : Run BenchmarkStep s tr t) : BenchmarkOk t :=
  h.invariant (fun _ _ _ hu hstep => benchmarkOk_step hu hstep) hok

/-- The first `n` fibers can come behind their loops. -/
theorem exists_behind (hok : BenchmarkOk s) (hexit : s.exit = none) (n : ℕ) :
    ∃ tr t, Run BenchmarkStep s tr t ∧ t.exit = none ∧ t.numFibers = s.numFibers ∧
      ∀ id ∈ s.ids, id ≤ n → (t.fibers id).Behind := by
  induction n with
  | zero =>
    refine ⟨[], s, Run.nil, hexit, rfl, fun id hid hn => ?_⟩
    have hpos := (Finset.mem_Icc.mp hid).1
    omega
  | succ n ih =>
    obtain ⟨tr, t, hrun, hexit', hnum, hbehind⟩ := ih
    have hids : t.ids = s.ids := by rw [Benchmark.ids, Benchmark.ids, hnum]
    by_cases hn : n + 1 ∈ s.ids
    · obtain ⟨tr', u, hrun', hu⟩ :=
        exists_onward (benchmarkOk_of_run hok hrun) hexit' (hids ▸ hn)
      refine ⟨tr ++ tr', u, hrun.append hrun', hu.exit, hu.num.trans hnum, fun id hid hle => ?_⟩
      by_cases heq : id = n + 1
      · rw [heq]
        exact hu.behind
      · rw [hu.others id heq]
        exact hbehind id hid (by omega)
    · refine ⟨tr, t, hrun, hexit', hnum, fun id hid hle => hbehind id hid ?_⟩
      have hne : id ≠ n + 1 := fun heq => hn (heq ▸ hid)
      omega

theorem BenchmarkOk.exists_success (hok : BenchmarkOk s) (hexit : s.exit = none)
    (hnum : s.numFibers ≠ 0) :
    ∃ tr t, Run BenchmarkStep s tr t ∧ ∃ a b, t.exit = some (.success a b) := by
  obtain ⟨tr₁, u, hrun, hexit', hnumu, hbehind⟩ := exists_behind hok hexit s.numFibers.toNat
  have hids : u.ids = s.ids := by rw [Benchmark.ids, Benchmark.ids, hnumu]
  have hall : ∀ id ∈ u.ids, (u.fibers id).Behind := fun id hid =>
    hbehind id (hids ▸ hid) (Finset.mem_Icc.mp (hids ▸ hid)).2
  obtain ⟨tr₂, t, hrun', ht⟩ := exit_of_behind _ (benchmarkOk_of_run hok hrun) hexit'
    (hnumu ▸ hnum) hall rfl
  exact ⟨tr₁ ++ tr₂, t, hrun.append hrun', ht⟩

/-- Two fibers before their first steps. -/
def twoFibers : Benchmark :=
  Benchmark.start 2 7 fun _ => ⟨.created, ⟨0, 0⟩, Loop.start 0 0 0, 0⟩

/-- A whole run of two fibers. -/
theorem exists_twoFibers :
    ∃ tr t, Run BenchmarkStep twoFibers tr t ∧ ∃ a b, t.exit = some (.success a b) := by
  have hok : BenchmarkOk twoFibers := benchmarkOk_start _ _ _
  exact hok.exists_success rfl (by decide)

/-- `completed_fibers_exact` at the end of a whole run. -/
theorem completed_fibers_exact_two_fibers : ∃ tr t, Run BenchmarkStep twoFibers tr t ∧
    t.exit ≠ none ∧ t.completedFibers.toNat + ∑ id ∈ Finset.Icc 1 2, (t.fibers id).off = 2 := by
  obtain ⟨tr, t, hrun, a, b, ht⟩ := exists_twoFibers
  exact ⟨tr, t, hrun, by rw [ht]; exact Option.some_ne_none _, (completed_fibers_exact hrun).1⟩

/-- `benchmark_exit` for a whole run. -/
theorem benchmark_exit_two_fibers : ∃ tr t, Run BenchmarkStep twoFibers tr t ∧
    ∀ id ∈ Finset.Icc 1 2, Done id (t.fibers id) := by
  obtain ⟨tr, t, hrun, a, b, ht⟩ := exists_twoFibers
  rcases benchmark_exit hrun ht with hno | ⟨_, hdone⟩
  · cases hno
  · exact ⟨tr, t, hrun, hdone⟩

end LinuxFibers.Gsm
