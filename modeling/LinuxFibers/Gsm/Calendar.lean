import LinuxFibers.CalQueue.Order
import LinuxFibers.Gsm.Signal

/-!
# The loop of a cell on its calendar queue

`Loop` picks any pending event.  `QueueLoop` is the loop of `main_loop` with the
queue that it has, a `calqueue` of its own: `calqueue_get` says which event comes
next, and the events that `ProcessEvent` schedules go to `calqueue_put` in their
order.  A payload is a pointer to an event, and `none` is `NULL`.

* `queueLoop_follows`: as long as the resizes of the queue sample in order, a run of
  `QueueLoop` is a run of `Loop`, with the stored nodes as the pending events, and no
  further turn fails.  In particular no bucket outside the calendar is used, no event
  is missing and none has the wrong receiver.
* `events_in_time`: when no get jumps either, a cell never handles an event that is
  before its time.

The times of `ProcessEvent` are not negative, since `Random` and `Expent` are not.
-/

namespace LinuxFibers.Gsm

open LinuxFibers.Lib CalQueue

/-- What ends a turn: the cell, or the queue. -/
inductive Failure where
  | cell (f : Fault)
  | queue (f : CalQueue.Fault)

/-- The loop of a fiber, with its queue. -/
structure QueueLoop where
  id : Word
  state : Option LpState
  queue : Calqueue (Option Msg)
  stopped : Bool

/-- The calls of `calqueue_put` for events, in their order. -/
def putEvents (q : Calqueue (Option Msg)) : List Msg → Except CalQueue.Fault (Calqueue (Option Msg))
  | [] => .ok q
  | m :: ms => do
      let q ← calqueuePut q m.timestamp (some m)
      putEvents q ms

namespace QueueLoop

/-- `main_loop` up to the loop.  The queue is in any memory, and the event has the
time and the channel that `malloc` left in it. -/
def start (id : Word) (timestamp : ℚ) (channel : ℤ) (memory : Calqueue (Option Msg)) :
    Except Failure QueueLoop := do
  let q ← (calqueuePut (calqueueInit memory) 0
    (some ⟨id, id, initEvent, timestamp, channel⟩)).mapError .queue
  return ⟨id, none, q, false⟩

/-- A turn of the loop of `main_loop`. -/
def exec (u : QueueLoop) (d : Draws) : Except Failure QueueLoop :=
  if u.stopped then .error (.cell .misuse)
  else do
    match ← (calqueueGet u.queue).mapError .queue with
    | (none, _) => throw (.cell .noEvents)
    | (some event, q) =>
        if event.receiver ≠ u.id then throw (.cell .wrongReceiver)
        let (ret, state, events) ← (processEvent event u.state [] d).mapError .cell
        let q ← (putEvents q events).mapError .queue
        if event.type = initEvent then
          return { u with state := ret.pointer, queue := q }
        else
          return { u with state := state, queue := q, stopped := ret.nonzero }

end QueueLoop

/-- The draws are not negative. -/
def Draws.Timely (d : Draws) : Prop := 0 ≤ d.start ∧ 0 ≤ d.duration ∧ 0 ≤ d.arrival

instance (d : Draws) : Decidable d.Timely := inferInstanceAs (Decidable (_ ∧ _))

/-- The puts of events meet a condition. -/
def putsUnder (ok : Calqueue (Option Msg) → Op (Option Msg) → Bool) (q : Calqueue (Option Msg)) : List Msg → Bool
  | [] => true
  | m :: ms => ok q (.put ⟨m.timestamp, some m⟩) &&
      match calqueuePut q m.timestamp (some m) with
      | .ok q => putsUnder ok q ms
      | .error _ => true

/-- The calls of the queue in a turn meet a condition. -/
def QueueLoop.turnUnder (ok : Calqueue (Option Msg) → Op (Option Msg) → Bool) (u : QueueLoop) (d : Draws) : Bool :=
  ok u.queue .get &&
    match calqueueGet u.queue with
    | .ok (some event, q) =>
        match processEvent event u.state [] d with
        | .ok (_, _, events) => putsUnder ok q events
        | .error _ => true
    | _ => true

/-- The turns with draws that are not negative and with calls of the queue that meet
a condition. -/
def QueueStep (ok : Calqueue (Option Msg) → Op (Option Msg) → Bool) (u : QueueLoop) (d : Draws) (v : QueueLoop) :
    Prop :=
  d.Timely ∧ u.turnUnder ok d = true ∧ u.exec d = .ok v

/-! ## The events of a turn -/

variable {id : Word} {e : Msg} {s : Option LpState} {q : List Msg} {d : Draws}

theorem startCallEvent_append (me : Word) (now : ℚ) (st : LpState) (q : List Msg) (d : Draws) :
    startCallEvent me now st q d =
      (startCallEvent me now st [] d).map fun r => (r.1, q ++ r.2) := by
  unfold startCallEvent
  by_cases hzero : st.channelCounter = 0
  · simp only [if_pos hzero, pure_bind]
    cases expent (recomputeTa st.refTa now) d.arrival with
    | error f => rfl
    | ok x => rfl
  · simp only [if_neg hzero]
    cases expent st.taDuration d.duration with
    | error f => rfl
    | ok x =>
      simp only [ok_bind]
      cases LpState.allocation _ d with
      | error f => rfl
      | ok r =>
        simp only [ok_bind, pure_bind]
        cases expent (recomputeTa r.2.refTa now) d.arrival with
        | error f => rfl
        | ok y =>
          simp only [ok_bind, List.nil_append, List.append_assoc]
          rfl

/-- `ProcessEvent` puts its events behind those of the queue. -/
theorem processEvent_append (e : Msg) (s : Option LpState) (q : List Msg) (d : Draws) :
    processEvent e s q d = (processEvent e s [] d).map fun r => (r.1, r.2.1, q ++ r.2.2) := by
  unfold processEvent
  by_cases hinit : e.type = initEvent
  · simp only [if_pos hinit]
    rfl
  · by_cases hstart : e.type = startCall
    · simp only [if_neg hinit, if_pos hstart]
      cases s with
      | none => rfl
      | some st =>
        simp only [Option.map_some]
        rw [startCallEvent_append _ _ _ q]
        cases startCallEvent e.receiver e.timestamp _ [] d with
        | error f => rfl
        | ok r => rfl
    · by_cases hend : e.type = endCall
      · simp only [if_neg hinit, if_neg hstart, if_pos hend]
        cases s with
        | none => rfl
        | some st =>
          simp only [Option.map_some]
          cases endCallEvent e.channel _ d with
          | error f => rfl
          | ok r =>
            simp only [ok_bind, pure, Except.pure, Except.map, List.append_nil]
      · simp only [if_neg hinit, if_neg hstart, if_neg hend]
        rfl

theorem startCall_ne_initEvent : startCall ≠ initEvent := by decide

theorem endCall_ne_initEvent : endCall ≠ initEvent := by decide

theorem expent_nonneg {mean draw x : ℚ} (h : expent mean draw = .ok x) (hd : 0 ≤ draw) :
    0 ≤ x := by
  unfold expent at h
  split at h
  · cases h
  · rename_i hmean
    cases h
    exact mul_nonneg (not_lt.mp hmean) hd

/-- The events of a call are not before it. -/
theorem startCallEvent_timely {me : Word} {now : ℚ} {st t : LpState} {events : List Msg}
    (hd : d.Timely) (h : startCallEvent me now st [] d = .ok (t, events)) :
    ∀ m ∈ events, now ≤ m.timestamp ∧ m.type ≠ initEvent := by
  unfold startCallEvent at h
  by_cases hzero : st.channelCounter = 0
  · simp only [if_pos hzero, pure_bind] at h
    obtain ⟨x, hx, hrest⟩ := of_bind h
    cases hrest
    intro m hm
    rw [List.nil_append, List.mem_singleton] at hm
    subst hm
    exact ⟨le_add_of_nonneg_right (expent_nonneg hx hd.2.2), startCall_ne_initEvent⟩
  · simp only [if_neg hzero] at h
    obtain ⟨x, hx, hrest⟩ := of_bind h
    obtain ⟨a, _, hrest⟩ := of_bind hrest
    obtain ⟨r, hr, hrest⟩ := of_bind hrest
    cases hr
    obtain ⟨y, hy, hrest⟩ := of_bind hrest
    cases hrest
    intro m hm
    rw [List.nil_append, List.mem_append, List.mem_singleton, List.mem_singleton] at hm
    rcases hm with rfl | rfl
    · exact ⟨le_add_of_nonneg_right (expent_nonneg hx hd.2.1), endCall_ne_initEvent⟩
    · exact ⟨le_add_of_nonneg_right (expent_nonneg hy hd.2.2), startCall_ne_initEvent⟩

/-- The events that `ProcessEvent` schedules are not before the one that it handles,
and the first one is not before 0. -/
theorem processEvent_timely {ret : Ret} {s' : Option LpState} {events : List Msg} (hd : d.Timely)
    (h : processEvent e s [] d = .ok (ret, s', events)) :
    ∀ m ∈ events, (if e.type = initEvent then 0 else e.timestamp) ≤ m.timestamp ∧
      m.type ≠ initEvent := by
  unfold processEvent at h
  by_cases hinit : e.type = initEvent
  · simp only [if_pos hinit] at h ⊢
    cases h
    intro m hm
    rw [List.nil_append, List.mem_singleton] at hm
    subst hm
    exact ⟨mul_nonneg (by norm_num) hd.1, startCall_ne_initEvent⟩
  · by_cases hstart : e.type = startCall
    · simp only [if_neg hinit, if_pos hstart] at h ⊢
      cases s with
      | none => cases h
      | some st =>
        simp only [Option.map_some] at h
        obtain ⟨r, hr, hrest⟩ := of_bind h
        cases hrest
        exact startCallEvent_timely hd hr
    · by_cases hend : e.type = endCall
      · simp only [if_neg hinit, if_neg hstart, if_pos hend] at h ⊢
        cases s with
        | none => cases h
        | some st =>
          simp only [Option.map_some] at h
          obtain ⟨r, hr, hrest⟩ := of_bind h
          cases hrest
          exact fun m hm => absurd hm List.not_mem_nil
      · simp only [if_neg hinit, if_neg hstart, if_neg hend] at h
        cases h

/-- What a turn of `Loop` is. -/
theorem of_exec {u v : Loop} {k : Turn} (h : u.exec k = .ok v) :
    ∃ e ret s events, u.pending[k.pick]? = some e ∧ e.receiver = u.id ∧
      processEvent e u.state [] k.draws = .ok (ret, s, events) ∧
      v = if e.type = initEvent then
          { u with state := ret.pointer, pending := u.pending.eraseIdx k.pick ++ events }
        else { u with
          state := s, pending := u.pending.eraseIdx k.pick ++ events, stopped := ret.nonzero } := by
  obtain ⟨hstop, hk⟩ := stopped_of_exec h
  have hget : u.pending[k.pick]? = some u.pending[k.pick] := List.getElem?_eq_getElem hk
  by_cases hrecv : u.pending[k.pick].receiver = u.id
  · rw [exec_of_get hstop hget hrecv, processEvent_append] at h
    obtain ⟨r, hr, hrest⟩ := of_bind h
    cases hevent : processEvent u.pending[k.pick] u.state [] k.draws with
    | error f =>
      rw [hevent] at hr
      cases hr
    | ok x =>
      rw [hevent] at hr
      cases hr
      refine ⟨_, x.1, x.2.1, x.2.2, hget, hrecv, hevent, ?_⟩
      split at hrest
      · rename_i hinit
        rw [if_pos hinit]
        exact (Except.ok.inj hrest).symm
      · rename_i hinit
        rw [if_neg hinit]
        exact (Except.ok.inj hrest).symm
  · have hne : u.pending ≠ [] := List.ne_nil_of_mem (List.getElem_mem hk)
    simp only [Loop.exec, hstop, hne, hget, if_false, ne_eq, hrecv, not_false_eq_true, if_true,
      Bool.false_eq_true] at h
    cases h

/-! ## The puts of a turn -/

/-- The calls of the queue that meet a condition. -/
def CallUnder (ok : Calqueue (Option Msg) → Op (Option Msg) → Bool) (c : Client (Option Msg)) (op : Op (Option Msg)) (c' : Client (Option Msg)) :
    Prop :=
  ok c.queue op = true ∧ CalQueue.Step c op c'

/-- The node of an event. -/
def nodeOf (m : Msg) : Node (Option Msg) := ⟨m.timestamp, some m⟩

variable {ok : Calqueue (Option Msg) → Op (Option Msg) → Bool} {c c₁ : Client (Option Msg)} {u v : QueueLoop} {l l' : Loop}

theorem conserved_call (hok : ∀ q op, ok q op = true → resizesWell q op = true) {op : Op (Option Msg)}
    (h : Conserved c) (hcall : CallUnder ok c op c₁) : Conserved c₁ :=
  conserved_step h ⟨hok _ _ hcall.1, hcall.2⟩

/-- The puts of events that are not before the last one got return. -/
theorem exists_puts (hok : ∀ q op, ok q op = true → resizesWell q op = true) {events : List Msg} :
    ∀ {c : Client (Option Msg)}, Conserved c → putsUnder ok c.queue events = true →
    (∀ m ∈ events, 0 ≤ m.timestamp ∧ lastGot c ≤ m.timestamp) →
    ∃ c', putEvents c.queue events = .ok c'.queue ∧
      Run (CallUnder ok) c (events.map fun m => .put (nodeOf m)) c' ∧ lastGot c' = lastGot c ∧
      stored c'.queue = ↑(events.map nodeOf) + stored c.queue := by
  induction events with
  | nil => exact fun {c} _ _ _ => ⟨c, rfl, Run.nil, rfl, (zero_add _).symm⟩
  | cons m events ih =>
    intro c hc hunder htimes
    obtain ⟨hput, hrest⟩ := Bool.and_eq_true_iff.mp hunder
    have hadm : admissible c (.put (nodeOf m)) = true := by
      obtain ⟨h0, hlast⟩ := htimes m List.mem_cons_self
      exact Bool.and_eq_true_iff.mpr ⟨decide_eq_true h0, decide_eq_true hlast⟩
    obtain ⟨q', hexec, hready, hstored, _⟩ := exec_put hc.ready hadm (hok _ _ hput)
    have hcall : CallUnder ok c (.put (nodeOf m))
        { c with queue := q', puts := c.puts ++ [nodeOf m] } := ⟨hput, hadm, hexec⟩
    have hq : calqueuePut c.queue m.timestamp (some m) = .ok q' := by
      simp only [CalQueue.exec, nodeOf] at hexec
      obtain ⟨q, hq, hrest⟩ := of_bind hexec
      cases hrest
      exact hq
    rw [hq] at hrest
    obtain ⟨c', hputs, hrun, hlast, hst⟩ := ih (conserved_call hok hc hcall) hrest
      fun m hm => htimes m (List.mem_cons_of_mem _ hm)
    refine ⟨c', ?_, Run.cons hcall hrun, hlast, ?_⟩
    · rw [putEvents, hq]
      exact hputs
    · rw [hst, hstored, List.map_cons, ← Multiset.cons_coe, Multiset.add_cons, Multiset.cons_add]

/-! ## The simulation -/

/-- The loop on its queue, next to the loop that picks any pending event.  `c` is the
queue with its history. -/
structure Follows (u : QueueLoop) (c : Client (Option Msg)) (l : Loop) : Prop where
  queue : c.queue = u.queue
  id : l.id = u.id
  state : l.state = u.state
  stopped : l.stopped = u.stopped
  pending : (stored c.queue).map Node.payload = ↑(l.pending.map some)
  stamped : ∀ n ∈ stored c.queue, ∀ m, n.payload = some m →
    n.priority = if m.type = initEvent then 0 else m.timestamp
  clock : ∀ s, u.state = some s → s.lvt = lastGot c

theorem lastGot_snoc (c : Client (Option Msg)) (q : Calqueue (Option Msg)) (n : Node (Option Msg)) :
    lastGot { c with queue := q, gots := c.gots ++ [n] } = n.priority := by
  simp [lastGot]

/-- A turn, by its three calls. -/
theorem exec_of_got {q q₂ : Calqueue (Option Msg)} {ret : Ret} {s' : Option LpState} {events : List Msg}
    (hstop : u.stopped = false) (hgot : calqueueGet u.queue = .ok (some e, q))
    (hrecv : e.receiver = u.id) (hevent : processEvent e u.state [] d = .ok (ret, s', events))
    (hput : putEvents q events = .ok q₂) :
    u.exec d = .ok (if e.type = initEvent then { u with state := ret.pointer, queue := q₂ }
      else { u with state := s', queue := q₂, stopped := ret.nonzero }) := by
  simp only [QueueLoop.exec, hstop, Bool.false_eq_true, if_false, hgot, hrecv, hevent, hput,
    Except.mapError, ok_bind, ne_eq, not_true_eq_false]
  split <;> rfl

theorem QueueLoop.not_stopped (h : u.exec d = .ok v) : u.stopped = false := by
  cases hstop : u.stopped with
  | false => rfl
  | true =>
    simp only [QueueLoop.exec, hstop, if_true] at h
    cases h

theorem Booked.type_ne {st : LpState} {pending : List Msg} {m : Msg} (h : Booked id st pending)
    (hm : m ∈ pending) : m.type ≠ initEvent := by
  rcases h.others m hm with htype | htype
  · rw [htype]
    exact startCall_ne_initEvent
  · rw [htype]
    exact endCall_ne_initEvent

/-- What is stored points to a pending event. -/
theorem Follows.exists_event (h : Follows u c l) {n : Node (Option Msg)}
    (hn : n ∈ stored c.queue) : ∃ m ∈ l.pending, n.payload = some m := by
  have hmem : n.payload ∈ (↑(l.pending.map some) : Multiset (Option Msg)) := by
    rw [← h.pending]
    exact Multiset.mem_map_of_mem _ hn
  obtain ⟨m, hm, hpayload⟩ := List.mem_map.mp (Multiset.mem_coe.mp hmem)
  exact ⟨m, hm, hpayload.symm⟩

/-- The event that the queue returns is a pending one, and the others stay. -/
theorem exists_got (hc : Conserved c) (h : Follows u c l) (hne : l.pending ≠ [])
    (hwide : resizesWell c.queue .get = true) :
    ∃ n q m i, CalQueue.exec c .get = .ok { c with queue := q, gots := c.gots ++ [n] } ∧
      calqueueGet u.queue = .ok (some m, q) ∧ n.payload = some m ∧
      stored c.queue = n ::ₘ stored q ∧ i < l.pending.length ∧ l.pending[i]? = some m ∧
      (((l.pending.eraseIdx i).map some : List (Option Msg)) : Multiset (Option Msg)) =
        (stored q).map Node.payload := by
  have hsize : c.queue.qsize ≠ 0 := by
    rw [hc.ready.size]
    intro hzero
    have hcard : (stored c.queue).card = 0 := by exact_mod_cast hzero
    have hmap := congrArg Multiset.card h.pending
    rw [Multiset.card_map, hcard, Multiset.coe_card, List.length_map] at hmap
    exact hne (List.length_eq_zero_iff.mp hmap.symm)
  obtain ⟨n, _, q, hexec, _, hdeq, _, hstored, _⟩ := exec_get hc.ready hsize hwide
  have hn : n ∈ stored c.queue := by
    rw [hstored]
    exact Multiset.mem_cons_self _ _
  obtain ⟨m, hm, hpayload⟩ := h.exists_event hn
  have hgot : calqueueGet u.queue = .ok (some m, q) := by
    rw [← h.queue, ← hpayload]
    exact get_of_deq hdeq
  obtain ⟨i, hi, hpick⟩ := List.getElem_of_mem hm
  have hperm : (l.pending[i] :: l.pending.eraseIdx i).Perm l.pending :=
    List.getElem_cons_eraseIdx_perm hi
  have hcons := Multiset.coe_eq_coe.mpr (hperm.map some)
  rw [List.map_cons, ← Multiset.cons_coe, hpick, ← h.pending, hstored, Multiset.map_cons,
    hpayload] at hcons
  refine ⟨n, q, m, i, hexec, hgot, hpayload, hstored, hi, ?_, (Multiset.cons_inj_right _).mp hcons⟩
  rw [← hpick]
  exact List.getElem?_eq_getElem hi

/-- The time of a cell after a turn. -/
theorem lvt_of_turn {timestamp : ℚ} {channel : ℤ} {ks : List Turn} {k : Turn} {st : LpState}
    (hrun : Run Step (Loop.start id timestamp channel) ks l) (hstep : Step l k l')
    (he : l.pending[k.pick]? = some e) (hst : l'.state = some st) :
    st.lvt = if e.type = initEvent then 0 else e.timestamp := by
  obtain ⟨hstop, hk⟩ := stopped_of_exec hstep
  have hexec : l.exec k = .ok l' := hstep
  rcases signals_run hrun with ⟨_, rfl⟩ | ⟨hr, st₀, nodes, hst₀, hsig⟩
  · have hzero : k.pick = 0 := Nat.lt_one_iff.mp hk
    cases hexec.symm.trans (exec_initEvent id timestamp channel hzero)
    cases hst
    rw [hzero] at he
    cases he
    rfl
  · obtain ⟨_, _, _, hbooked⟩ := hr.cell
    rw [if_neg (hbooked.type_ne (List.mem_of_getElem? he))]
    obtain ⟨e', he', ⟨r, hw⟩ | ⟨j, heap, r, hw, _⟩ | ⟨head, heap, r, hw, _⟩⟩ :=
      exec_cases hr hstop hst₀ hsig.listed hk
    all_goals
      cases Option.some.inj (he'.symm.trans he)
      cases hexec.symm.trans hw
      cases hst
      rfl

/-- A turn on the queue is a turn of `Loop`. -/
theorem exists_turn (hok : ∀ q op, ok q op = true → resizesWell q op = true) {timestamp : ℚ}
    {channel : ℤ} {ks : List Turn} (hrun : Run Step (Loop.start id timestamp channel) ks l)
    (hc : Conserved c) (h : Follows u c l) (hstop : u.stopped = false) (hd : d.Timely)
    (hunder : u.turnUnder ok d = true) :
    ∃ v c' k l' ops, u.exec d = .ok v ∧ Run (CallUnder ok) c ops c' ∧ Step l k l' ∧
      k.draws = d ∧ Follows v c' l' := by
  obtain ⟨hne, hlive⟩ := (cell_bookkeeping hrun).2 (h.stopped.trans hstop)
  obtain ⟨hget, hputs⟩ := Bool.and_eq_true_iff.mp hunder
  rw [← h.queue] at hget
  -- the get
  obtain ⟨n, q, m, i, hexec, hgot, hpayload, hstored, hi, hpick, hrest⟩ :=
    exists_got hc h hne (hok _ _ hget)
  let c₁ : Client (Option Msg) := { c with queue := q, gots := c.gots ++ [n] }
  have hcall : CallUnder ok c .get c₁ := ⟨hget, rfl, hexec⟩
  have hn : n ∈ stored c.queue := by
    rw [hstored]
    exact Multiset.mem_cons_self _ _
  have hstamp := h.stamped n hn m hpayload
  have hlast₁ : lastGot c₁ = n.priority := lastGot_snoc c q n
  -- the event, as a turn of `Loop`
  let k : Turn := ⟨i, d⟩
  obtain ⟨l', hl'⟩ := hlive k hi
  obtain ⟨e, ret, s', events, he, hrecv, hevent, hv⟩ := of_exec hl'
  obtain rfl : e = m := Option.some.inj (he.symm.trans hpick)
  have hevent : processEvent e l.state [] d = .ok (ret, s', events) := hevent
  have htimely := processEvent_timely hd hevent
  have hclock : ∀ s, l'.state = some s → s.lvt = n.priority := fun s hs =>
    (lvt_of_turn hrun hl' he hs).trans hstamp.symm
  -- the puts
  have htimes : ∀ m ∈ events, 0 ≤ m.timestamp ∧ lastGot c₁ ≤ m.timestamp := by
    intro m hm
    have hle := (htimely m hm).1
    rw [← hstamp] at hle
    exact ⟨(hc.ready.nonneg n hn).trans hle, hlast₁.le.trans hle⟩
  simp only [hgot, ← h.state, hevent] at hputs
  obtain ⟨c₂, hput, hrun₂, hlast₂, hstored₂⟩ :=
    exists_puts hok (conserved_call hok hc hcall) hputs htimes
  have hpending₂ : (stored c₂.queue).map Node.payload =
      ↑((l.pending.eraseIdx i ++ events).map some) := by
    rw [hstored₂, Multiset.map_add, List.map_append, ← Multiset.coe_add, hrest, add_comm,
      Multiset.map_coe, List.map_map]
    rfl
  have hstamped₂ : ∀ f ∈ stored c₂.queue, ∀ m, f.payload = some m →
      f.priority = if m.type = initEvent then 0 else m.timestamp := by
    intro f hf m hm
    rw [hstored₂] at hf
    rcases Multiset.mem_add.mp hf with hf | hf
    · obtain ⟨x, hx, rfl⟩ := List.mem_map.mp (Multiset.mem_coe.mp hf)
      rw [← Option.some.inj hm]
      exact (if_neg (htimely x hx).2).symm
    · exact h.stamped f (by rw [hstored]; exact Multiset.mem_cons_of_mem hf) m hm
  -- both loops after the turn
  have hexec' := exec_of_got (q := c₁.queue) hstop hgot (hrecv.trans h.id) (h.state ▸ hevent) hput
  refine ⟨_, c₂, k, l', _, hexec', Run.cons hcall hrun₂, hl', rfl, ?_⟩
  by_cases hinit : e.type = initEvent
  · rw [if_pos hinit] at hv ⊢
    have hclock' : ∀ s, ret.pointer = some s → s.lvt = lastGot c₂ := fun s hs => by
      rw [hlast₂, hlast₁]
      exact hclock s (by rw [hv]; exact hs)
    rw [hv]
    exact ⟨rfl, h.id, rfl, h.stopped, hpending₂, hstamped₂, hclock'⟩
  · rw [if_neg hinit] at hv ⊢
    have hclock' : ∀ s, s' = some s → s.lvt = lastGot c₂ := fun s hs => by
      rw [hlast₂, hlast₁]
      exact hclock s (by rw [hv]; exact hs)
    rw [hv]
    exact ⟨rfl, h.id, rfl, rfl, hpending₂, hstamped₂, hclock'⟩

/-! ## Every run -/

variable {timestamp : ℚ} {channel : ℤ} {memory : Calqueue (Option Msg)} {u₀ : QueueLoop} {ds : List Draws}

/-- The first put, on the empty calendar. -/
theorem start_follows (id : Word) (timestamp : ℚ) (channel : ℤ) (memory : Calqueue (Option Msg)) :
    ∃ u₀ c₀, QueueLoop.start id timestamp channel memory = .ok u₀ ∧ Ordered c₀ ∧
      Follows u₀ c₀ (Loop.start id timestamp channel) := by
  let n : Node (Option Msg) := ⟨0, some ⟨id, id, initEvent, timestamp, channel⟩⟩
  let c := CalQueue.start memory
  have hadm : admissible c (.put n) = true := rfl
  have hwide : resizesWell c.queue (.put n) = true := rfl
  obtain ⟨q', hexec, hready, hstored, _⟩ :=
    exec_put (conserved_start memory).ready hadm hwide
  have hq : calqueuePut (calqueueInit memory) 0 n.payload = .ok q' := by
    simp only [CalQueue.exec] at hexec
    obtain ⟨q, hq, hrest⟩ := of_bind hexec
    cases hrest
    exact hq
  have hordered := ordered_step (ordered_start memory) ⟨rfl, hwide, hadm, hexec⟩
  have hst : stored q' = {n} := by
    rw [hstored]
    show n ::ₘ stored (calqueueInit memory) = {n}
    rw [(ready_init memory).2]
    rfl
  refine ⟨⟨id, none, q', false⟩, _, ?_, hordered, rfl, rfl, rfl, rfl, ?_, ?_, ?_⟩
  · simp only [QueueLoop.start]
    rw [hq]
    rfl
  · show (stored q').map Node.payload = _
    rw [hst]
    rfl
  · intro f hf m hm
    have hf' : f ∈ stored q' := hf
    rw [hst, Multiset.mem_singleton] at hf'
    rw [hf'] at hm ⊢
    cases Option.some.inj hm
    rfl
  · exact fun s hs => by cases hs

/-- A run on the queue, next to one of `Loop`. -/
theorem follows_run (hok : ∀ q op, ok q op = true → resizesWell q op = true)
    (hstart : QueueLoop.start id timestamp channel memory = .ok u₀)
    (h : Run (QueueStep ok) u₀ ds u) :
    ∃ c₀ c ops ks l, Ordered c₀ ∧ Run (CallUnder ok) c₀ ops c ∧ Conserved c ∧
      Run Step (Loop.start id timestamp channel) ks l ∧ ks.map Turn.draws = ds ∧
      Follows u c l := by
  obtain ⟨u₁, c₀, hstart', hordered, hfollows⟩ := start_follows id timestamp channel memory
  cases hstart'.symm.trans hstart
  induction h with
  | nil =>
    exact ⟨c₀, c₀, [], [], _, hordered, Run.nil, hordered.toConserved, Run.nil, rfl, hfollows⟩
  | @snoc ds u v d _ hstep ih =>
    obtain ⟨c₀, c, ops, ks, l, h₀, hrun, hc, hloop, hdraws, hf⟩ := ih
    obtain ⟨hd, hunder, hexec⟩ := hstep
    have hstop := QueueLoop.not_stopped hexec
    obtain ⟨v', c', k, l', ops', hv, hrun', hl, hk, hf'⟩ :=
      exists_turn hok hloop hc hf hstop hd hunder
    cases hv.symm.trans hexec
    have hc' : Conserved c' :=
      hrun'.invariant (fun _ _ _ hcons hcall => conserved_call hok hcons hcall) hc
    refine ⟨c₀, c', ops ++ ops', ks ++ [k], l', h₀, hrun.append hrun', hc', hloop.snoc hl, ?_, hf'⟩
    rw [List.map_append, hdraws, ← hk]
    rfl

/-- As long as the resizes of the calendar sample in order, `main_loop` on its queue
is a run of `Loop`: the stored nodes are the pending events, and the state is the
same.  No further turn with such calls fails. -/
theorem queueLoop_follows (hstart : QueueLoop.start id timestamp channel memory = .ok u₀)
    (h : Run (QueueStep resizesWell) u₀ ds u) :
    (∃ ks l, Run Step (Loop.start id timestamp channel) ks l ∧ ks.map Turn.draws = ds ∧
        l.state = u.state ∧ l.stopped = u.stopped ∧
        (stored u.queue).map Node.payload = ↑(l.pending.map some)) ∧
      (u.stopped = false → ∀ d : Draws, d.Timely → u.turnUnder resizesWell d = true →
        ∃ v, u.exec d = .ok v) := by
  obtain ⟨_, c, _, ks, l, _, _, hc, hloop, hdraws, hf⟩ := follows_run (fun _ _ h => h) hstart h
  refine ⟨⟨ks, l, hloop, hdraws, hf.state, hf.stopped, ?_⟩, fun hstop d hd hunder => ?_⟩
  · rw [← hf.queue]
    exact hf.pending
  · obtain ⟨v, _, _, _, _, hv, _⟩ := exists_turn (fun _ _ h => h) hloop hc hf hstop hd hunder
    exact ⟨v, hv⟩

/-- A concrete run from the start exists. -/
theorem exists_queueRun (ok : Calqueue (Option Msg) → Op (Option Msg) → Bool) (ds : List Draws)
    (p : QueueLoop → Bool)
    (h : (QueueLoop.start 1 0 0 (blank (Option Msg))).toOption.any (fun u₀ =>
      (replay QueueLoop.exec (fun u d => decide d.Timely && u.turnUnder ok d) u₀ ds).any p)
        = true) :
    ∃ u₀ u, QueueLoop.start 1 0 0 (blank (Option Msg)) = .ok u₀ ∧ Run (QueueStep ok) u₀ ds u ∧
      p u = true := by
  obtain ⟨u₀, hstart, hreplay⟩ := of_toOption_any h
  obtain ⟨u, hrun, hp⟩ := exists_run QueueLoop.exec _ u₀ ds p hreplay
  refine ⟨u₀, u, hstart, hrun.mono fun _ _ _ hstep => ?_, hp⟩
  obtain ⟨hd, hunder⟩ := Bool.and_eq_true_iff.mp hstep.1
  exact ⟨of_decide_eq_true hd, hunder, hstep.2⟩

/-- Five turns: the event `INIT` and four calls, the last of which grows the
calendar. -/
theorem queueLoop_follows_grown : ∃ u₀ u, QueueLoop.start 1 0 0 (blank (Option Msg)) = .ok u₀ ∧
    Run (QueueStep resizesWell) u₀ (List.replicate 5 sameDraws) u ∧ u.queue.nbuckets = 4 ∧
    (∃ ks l, Run Step (Loop.start 1 0 0) ks l ∧
      ks.map Turn.draws = List.replicate 5 sameDraws ∧ l.state = u.state ∧
      l.stopped = u.stopped ∧ (stored u.queue).map Node.payload = ↑(l.pending.map some)) ∧
    ∃ v, u.exec sameDraws = .ok v := by
  obtain ⟨u₀, u, hstart, hrun, hp⟩ := exists_queueRun resizesWell (List.replicate 5 sameDraws)
    (fun u => decide (u.queue.nbuckets = 4) && !u.stopped && u.turnUnder resizesWell sameDraws)
    (by decide +kernel)
  obtain ⟨hleft, hunder⟩ := Bool.and_eq_true_iff.mp hp
  obtain ⟨hn, hstop⟩ := Bool.and_eq_true_iff.mp hleft
  obtain ⟨hloop, hnext⟩ := queueLoop_follows hstart hrun
  refine ⟨u₀, u, hstart, hrun, of_decide_eq_true hn, hloop,
    hnext ?_ sameDraws (by decide +kernel) hunder⟩
  rwa [Bool.not_eq_true'] at hstop

/-! ## The order of the events -/

/-- The gets stay in their bucket, and the resizes sample in order. -/
def inTime (q : Calqueue (Option Msg)) (op : Op (Option Msg)) : Bool := staysInBucket q op && resizesWell q op

theorem orderedStep_of_call {op : Op (Option Msg)} (h : CallUnder inTime c op c₁) :
    OrderedStep c op c₁ := by
  obtain ⟨hstay, hwide⟩ := Bool.and_eq_true_iff.mp h.1
  exact ⟨hstay, hwide, h.2⟩

theorem lastGot_mono {op : Op (Option Msg)} (h : Ordered c) (hstep : OrderedStep c op c₁) :
    lastGot c ≤ lastGot c₁ := by
  obtain ⟨_, hw, hadm, hexec⟩ := hstep
  cases op with
  | put n =>
    obtain ⟨q', hx, _⟩ := exec_put h.ready hadm hw
    cases Except.ok.inj (hx.symm.trans hexec)
    exact le_refl _
  | get =>
    by_cases hempty : c.queue.qsize = 0
    · cases Except.ok.inj ((exec_get_empty hempty).symm.trans hexec)
      exact le_refl _
    · obtain ⟨n, _, q', hx, _, _, _, hst, _⟩ := exec_get h.ready hempty hw
      cases Except.ok.inj (hx.symm.trans hexec)
      rw [lastGot_snoc, ← h.lastprio_eq]
      exact h.inOrder.lastprio_le n (by rw [hst]; exact Multiset.mem_cons_self _ _)

theorem ordered_calls {ops : List (Op (Option Msg))} (h : Ordered c)
    (hrun : Run (CallUnder inTime) c ops c₁) : Ordered c₁ ∧ lastGot c ≤ lastGot c₁ := by
  refine hrun.invariant (I := fun c₁ => Ordered c₁ ∧ lastGot c ≤ lastGot c₁) ?_ ⟨h, le_refl _⟩
  rintro c₁ op c₂ ⟨ho, hle⟩ hcall
  have hstep := orderedStep_of_call hcall
  exact ⟨ordered_step ho hstep, hle.trans (lastGot_mono ho hstep)⟩

theorem resizesWell_of_inTime (q : Calqueue (Option Msg)) (op : Op (Option Msg)) (h : inTime q op = true) :
    resizesWell q op = true :=
  (Bool.and_eq_true_iff.mp h).2

/-- A cell never handles an event before its time, when no get of its queue jumps
either: all events that are stored are at `lvt` or later, and `lvt` does not go
back. -/
theorem events_in_time (hstart : QueueLoop.start id timestamp channel memory = .ok u₀)
    (h : Run (QueueStep inTime) u₀ ds u) {st : LpState} (hst : u.state = some st) :
    (∀ n ∈ stored u.queue, ∃ m, n.payload = some m ∧ st.lvt ≤ m.timestamp) ∧
      ∀ d v st', QueueStep inTime u d v → v.state = some st' → st.lvt ≤ st'.lvt := by
  obtain ⟨c₀, c, ops, ks, l, h₀, hrun, hc, hloop, _, hf⟩ :=
    follows_run resizesWell_of_inTime hstart h
  obtain ⟨ho, _⟩ := ordered_calls h₀ hrun
  have hclock := hf.clock st hst
  refine ⟨fun n hn => ?_, fun d v st' hstep hst' => ?_⟩
  · rw [← hf.queue] at hn
    obtain ⟨m, hmem, hpayload⟩ := hf.exists_event hn
    have hle := ho.inOrder.lastprio_le n hn
    rw [ho.lastprio_eq, ← hclock, hf.stamped n hn m hpayload] at hle
    refine ⟨m, hpayload, ?_⟩
    rcases signals_run hloop with ⟨_, rfl⟩ | ⟨hr, _⟩
    · rw [← hf.state] at hst
      cases hst
    · obtain ⟨_, _, _, hbooked⟩ := hr.cell
      rwa [if_neg (hbooked.type_ne hmem)] at hle
  · obtain ⟨hd, hunder, hexec⟩ := hstep
    have hstop := QueueLoop.not_stopped hexec
    obtain ⟨v', c', _, _, _, hv, hrun', _, _, hf'⟩ :=
      exists_turn resizesWell_of_inTime hloop hc hf hstop hd hunder
    cases hv.symm.trans hexec
    rw [hclock, hf'.clock st' hst']
    exact (ordered_calls ho hrun').2

/-- Three turns, and the state in front of each later one. -/
theorem events_in_time_first_call : ∃ u₀ u st, QueueLoop.start 1 0 0 (blank (Option Msg)) = .ok u₀ ∧
    Run (QueueStep inTime) u₀ [sameDraws, sameDraws, sameDraws] u ∧ u.state = some st ∧
    (∀ n ∈ stored u.queue, ∃ m, n.payload = some m ∧ st.lvt ≤ m.timestamp) ∧
      ∀ d v st', QueueStep inTime u d v → v.state = some st' → st.lvt ≤ st'.lvt := by
  obtain ⟨u₀, u, hstart, hrun, hp⟩ := exists_queueRun inTime [sameDraws, sameDraws, sameDraws]
    (fun u => u.state.isSome) (by decide +kernel)
  obtain ⟨st, hst⟩ := Option.isSome_iff_exists.mp hp
  exact ⟨u₀, u, st, hstart, hrun, hst, events_in_time hstart hrun hst⟩

end LinuxFibers.Gsm
