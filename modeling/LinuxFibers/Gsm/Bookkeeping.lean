import LinuxFibers.Gsm.Allocator
import Mathlib.Tactic.Positivity

/-!
# The bookkeeping of a cell

The pending events, the counters and the busy channels of a cell fit together
after every turn of `main_loop`, whatever the random values are and in whatever
order the queue delivers the events.

`Sane` is what the state knows of its busy channels, and `Booked` adds the pending
events.  `startCallEvent_spec` and `endCallEvent_spec` are the effects of the two
events, and `booked_turn` is a turn of the loop.  In particular no turn ends in one
of the aborts and exits.
-/

namespace LinuxFibers.Gsm

open LinuxFibers.Lib

/-- The busy channels, as the `channel` field of an event has them. -/
def busyIds (st : LpState) : List ℤ := (busyChannels st).map Int.ofNat

/-- What a state knows of its busy channels. -/
structure Sane (st : LpState) : Prop where
  rep : ∃ ns, Rep st ns
  perCell : st.channelsPerCell = channelsPerCell
  refTa : 0 ≤ st.refTa
  taDuration : 0 ≤ st.taDuration
  counter : (st.channelCounter.toNat : ℤ) = st.channelsPerCell - (busyChannels st).length
  arriving : st.arrivingCalls =
    st.blockedOnSetup + st.completeCalls + BitVec.ofNat 32 (busyChannels st).length

/-- The law of the cell `id` with the state `st` and the pending events. -/
structure Booked (id : Word) (st : LpState) (pending : List Msg) : Prop where
  starts : pending.countP (fun e => e.type == startCall) = 1
  others : ∀ e ∈ pending, e.type = startCall ∨ e.type = endCall
  /-- Each busy channel is that of exactly one pending `END_CALL`. -/
  ends : ((pending.filter fun e => e.type == endCall).map Msg.channel).Perm (busyIds st)
  receivers : ∀ e ∈ pending, e.receiver = id
  counter : (st.channelCounter.toNat : ℤ) = st.channelsPerCell - (busyChannels st).length
  arriving : st.arrivingCalls =
    st.blockedOnSetup + st.completeCalls + BitVec.ofNat 32 (busyChannels st).length

variable {id me : Word} {st t : LpState} {q pending : List Msg} {d : Draws} {ch : ℤ} {now : ℚ}

theorem expent_ok {mean : ℚ} (h : 0 ≤ mean) (draw : ℚ) :
    expent mean draw = .ok (mean * draw) := by
  rw [expent, if_neg (not_lt.mpr h)]

theorem recomputeTa_nonneg {refTa : ℚ} (h : 0 ≤ refTa) (timeNow : ℚ) :
    0 ≤ recomputeTa refTa timeNow := by
  unfold recomputeTa
  dsimp only
  split_ifs <;> positivity

/-- Some channel is free as long as not all are busy. -/
theorem exists_free (h : (busyChannels st).length < st.channelsPerCell.toNat) :
    ∃ i < st.channelsPerCell.toNat, checkChannel st.channelState i = false := by
  by_contra hno
  have hall : busyChannels st = List.range st.channelsPerCell.toNat := by
    refine List.filter_eq_self.mpr fun i hi => ?_
    by_contra hclear
    exact hno ⟨i, List.mem_range.mp hi, by simpa using hclear⟩
  rw [hall, List.length_range] at h
  omega

theorem ofNat_succ_word (n : ℕ) : BitVec.ofNat 32 (n + 1) = BitVec.ofNat 32 n + 1 := by
  rw [BitVec.ofNat_add]
  rfl

/-- The list of the channels does not depend on the counters and the times of a cell. -/
theorem Rep.of_eq {ns : List (ℕ × ℤ)} (h : Rep st ns) (hheap : t.heap = st.heap)
    (hbrk : t.brk = st.brk) (hchannels : t.channels = st.channels)
    (hstate : t.channelState = st.channelState) (hcell : t.channelsPerCell = st.channelsPerCell) :
    Rep t ns where
  listed := by
    rw [Listed, hheap, hchannels]
    exact h.listed
  nodup := h.nodup
  lt := by
    rw [hbrk]
    exact h.lt
  freed := by
    rw [hheap]
    exact h.freed
  busy := by
    rw [busyChannels, hcell, hstate]
    exact h.busy

/-- The time and the number of events say nothing of the channels. -/
theorem Sane.log (h : Sane st) (now : ℚ) (n : Word) :
    Sane { st with lvt := now, executedEvents := n } where
  rep := by
    obtain ⟨ns, hrep⟩ := h.rep
    exact ⟨ns, hrep.of_eq rfl rfl rfl rfl rfl⟩
  perCell := h.perCell
  refTa := h.refTa
  taDuration := h.taDuration
  counter := h.counter
  arriving := h.arriving

/-- A call arrives while no channel is free. -/
theorem Sane.block (h : Sane st) : Sane { st with
    arrivingCalls := st.arrivingCalls + 1, blockedOnSetup := st.blockedOnSetup + 1 } where
  rep := by
    obtain ⟨ns, hrep⟩ := h.rep
    exact ⟨ns, hrep.of_eq rfl rfl rfl rfl rfl⟩
  perCell := h.perCell
  refTa := h.refTa
  taDuration := h.taDuration
  counter := h.counter
  arriving := by
    show st.arrivingCalls + 1 = st.blockedOnSetup + 1 + st.completeCalls +
      BitVec.ofNat 32 (busyChannels st).length
    rw [h.arriving]
    ac_rfl

/-- A call arrives and takes a channel. -/
theorem Sane.take (h : Sane st) (hne : st.channelCounter ≠ 0) (d : Draws) :
    ∃ (ch : ℤ) (t : LpState), LpState.allocation { st with
        arrivingCalls := st.arrivingCalls + 1
        channelCounter := st.channelCounter - 1 } d = .ok (ch, t) ∧
      Sane t ∧ (busyIds t).Perm (ch :: busyIds st) := by
  obtain ⟨ns, hrep⟩ := h.rep
  have hcounter := h.counter
  have hpos : 0 < st.channelCounter.toNat := by
    have hzero : st.channelCounter.toNat ≠ 0 := fun hz => hne (BitVec.eq_of_toNat_eq hz)
    omega
  have hlt : (busyChannels st).length < st.channelsPerCell.toNat := by omega
  obtain ⟨i, hfirst⟩ := exists_firstFree (exists_free hlt)
  obtain ⟨hi, hclear, _⟩ := firstFree_eq_some.mp hfirst
  let st₁ : LpState := { st with
    arrivingCalls := st.arrivingCalls + 1, channelCounter := st.channelCounter - 1 }
  have hrep₁ : Rep st₁ ns := hrep.of_eq rfl rfl rfl rfl rfl
  have hfirst₁ : st₁.firstFree = some i := hfirst
  obtain ⟨heap, halloc, hrep'⟩ := hrep₁.allocation hfirst₁ d
  let t : LpState := { st₁ with
    channelState := setChannel st.channelState i
    channels := some st.brk, heap := heap, brk := st.brk + 1 }
  have hperm : (busyChannels t).Perm (i :: busyChannels st) := busy_setChannel rfl rfl hi hclear
  have hlen := hperm.length_eq
  rw [List.length_cons] at hlen
  refine ⟨i, t, halloc, ⟨⟨_, hrep'⟩, h.perCell, h.refTa, h.taDuration, ?_, ?_⟩,
    hperm.map Int.ofNat⟩
  · show ((st.channelCounter - 1).toNat : ℤ) = st.channelsPerCell - (busyChannels t).length
    have hsub : (st.channelCounter - 1).toNat = st.channelCounter.toNat - 1 := by bv_omega
    omega
  · show st.arrivingCalls + 1 = st.blockedOnSetup + st.completeCalls +
      BitVec.ofNat 32 (busyChannels t).length
    rw [hlen, ofNat_succ_word, h.arriving]
    ac_rfl

/-- A call ends and gives its channel up. -/
theorem Sane.release (h : Sane st) (hch : ch ∈ busyIds st) (d : Draws) :
    ∃ t : LpState, LpState.deallocation { st with
        channelCounter := st.channelCounter + 1
        completeCalls := st.completeCalls + 1 } ch d = .ok t ∧
      Sane t ∧ (busyIds st).Perm (ch :: busyIds t) := by
  obtain ⟨ns, hrep⟩ := h.rep
  obtain ⟨i, hi, heq⟩ := List.mem_map.mp hch
  have hcounter := h.counter
  let st₁ : LpState := { st with
    channelCounter := st.channelCounter + 1, completeCalls := st.completeCalls + 1 }
  have hrep₁ : Rep st₁ ns := hrep.of_eq rfl rfl rfl rfl rfl
  obtain ⟨_, _, _, head, heap, _, hdealloc, hrep'⟩ :=
    hrep₁.deallocation (hrep.busy.mem_iff.mpr hch) d
  have hnat : ch.toNat = i := by
    rw [← heq]
    rfl
  rw [hnat] at hdealloc hrep'
  let t : LpState := { st₁ with
    channelState := resetChannel st.channelState i, channels := head, heap := heap }
  have hperm : (busyChannels st).Perm (i :: busyChannels t) := busy_resetChannel rfl rfl hi
  have hlen := hperm.length_eq
  rw [List.length_cons] at hlen
  refine ⟨t, hdealloc, ⟨⟨_, hrep'⟩, h.perCell, h.refTa, h.taDuration, ?_, ?_⟩, ?_⟩
  · show ((st.channelCounter + 1).toNat : ℤ) = st.channelsPerCell - (busyChannels t).length
    have hper : st.channelsPerCell = 1000 := h.perCell
    have hadd : (st.channelCounter + 1).toNat = st.channelCounter.toNat + 1 := by bv_omega
    omega
  · show st.arrivingCalls = st.blockedOnSetup + (st.completeCalls + 1) +
      BitVec.ofNat 32 (busyChannels t).length
    rw [h.arriving, hlen, ofNat_succ_word]
    ac_rfl
  · rw [← heq]
    exact hperm.map Int.ofNat

/-! ## The events -/

/-- `START_CALL` schedules the end of the call, if a channel is free, and the next
call. -/
theorem startCallEvent_spec (h : Sane st) (me : Word) (now : ℚ) (q : List Msg) (d : Draws) :
    ∃ t ends stamp, startCallEvent me now st q d =
        .ok (t, q ++ ends ++ [packEvent me startCall stamp (-1)]) ∧ Sane t ∧
      (∀ e ∈ ends, e.type = endCall ∧ e.receiver = me) ∧
      (busyIds t).Perm (ends.map Msg.channel ++ busyIds st) := by
  have hta : ∀ u : LpState, Sane u → Sane { u with ta := recomputeTa u.refTa now } := by
    intro u hu
    obtain ⟨ns, hrep⟩ := hu.rep
    exact ⟨⟨ns, hrep.of_eq rfl rfl rfl rfl rfl⟩, hu.perCell, hu.refTa,
      hu.taDuration, hu.counter, hu.arriving⟩
  have hexpent : ∀ u : LpState, Sane u → expent (recomputeTa u.refTa now) d.arrival =
      .ok (recomputeTa u.refTa now * d.arrival) :=
    fun u hu => expent_ok (recomputeTa_nonneg hu.refTa now) d.arrival
  by_cases hzero : st.channelCounter = 0
  · refine ⟨_, [], now + recomputeTa st.refTa now * d.arrival, ?_, hta _ h.block, by simp,
      List.Perm.refl _⟩
    simp only [startCallEvent, hzero, if_true, pure_bind, hexpent st h, ok_bind, List.append_nil]
    rfl
  · obtain ⟨ch, t, halloc, ht, hperm⟩ := h.take hzero d
    let stamp := now + st.taDuration * d.duration
    refine ⟨_, [packEvent me endCall stamp ch], now + recomputeTa t.refTa now * d.arrival, ?_,
      hta t ht, ?_, hperm⟩
    · simp only [startCallEvent, hzero, if_false, expent_ok h.taDuration, ok_bind, halloc,
        pure_bind, hexpent t ht]
      rfl
    · intro e he
      rw [List.mem_singleton.mp he]
      exact ⟨rfl, rfl⟩

/-- `END_CALL` gives up the channel of the call. -/
theorem endCallEvent_spec (h : Sane st) (hch : ch ∈ busyIds st) (d : Draws) :
    ∃ ret t, endCallEvent ch st d = .ok (ret, t) ∧ Sane t ∧
      (busyIds st).Perm (ch :: busyIds t) := by
  obtain ⟨t, hdealloc, ht, hperm⟩ := h.release hch d
  refine ⟨if t.completeCalls = completeCalls then .one else .zero, t, ?_, ht, hperm⟩
  simp only [endCallEvent, hdealloc, ok_bind]
  rfl

/-! ## The loop -/

/-- The invariant of the loop after `INIT`. -/
structure Running (id : Word) (s : Loop) : Prop where
  id_eq : s.id = id
  cell : ∃ st, s.state = some st ∧ Sane st ∧ Booked id st s.pending

theorem sane_initState (d : Draws) : Sane (initState d) where
  rep := ⟨[], rep_initState d⟩
  perCell := rfl
  refTa := by
    show (0 : ℚ) ≤ 16 / 100
    norm_num
  taDuration := by
    show (0 : ℚ) ≤ 60
    norm_num
  counter := by
    rw [busyChannels_initState]
    rfl
  arriving := by
    rw [busyChannels_initState]
    rfl

/-- A turn that returns picks a pending event before the end of the loop. -/
theorem stopped_of_exec {s u : Loop} {k : Turn} (h : s.exec k = .ok u) :
    s.stopped = false ∧ k.pick < s.pending.length := by
  unfold Loop.exec at h
  split at h
  · cases h
  · rename_i hstop
    split at h
    · cases h
    · split at h
      · cases h
      · rename_i hget
        exact ⟨by simpa using hstop, (List.getElem?_eq_some_iff.mp hget).1⟩

/-- The first turn handles `INIT`. -/
theorem exec_start (id : Word) (timestamp : ℚ) (channel : ℤ) (d : Draws) :
    ∃ u, (Loop.start id timestamp channel).exec ⟨0, d⟩ = .ok u ∧ Running id u ∧
      u.stopped = false := by
  let u : Loop := ⟨id, some (initState d), [packEvent id startCall (20 * d.start) (-1)], false⟩
  have hexec : (Loop.start id timestamp channel).exec ⟨0, d⟩ = .ok u := by
    simp [Loop.exec, Loop.start, processEvent, Ret.pointer, u]
  refine ⟨u, hexec, ⟨rfl, initState d, rfl, sane_initState d, ?_⟩, rfl⟩
  exact {
    starts := rfl
    others := fun e he => Or.inl (by rw [List.mem_singleton.mp he]; rfl)
    ends := by
      rw [busyIds, busyChannels_initState]
      rfl
    receivers := fun e he => by rw [List.mem_singleton.mp he]; rfl
    counter := (sane_initState d).counter
    arriving := (sane_initState d).arriving }

section Handled

variable {rest : List Msg} {e : Msg}

/-- The books after a `START_CALL`: its successor and the ends that it schedules take
its place. -/
theorem Booked.start (h : Booked id st pending) (hperm : (e :: rest).Perm pending)
    (htype : e.type = startCall) (ht : Sane t) {ends : List Msg}
    (hev : ∀ x ∈ ends, x.type = endCall ∧ x.receiver = e.receiver)
    (hbusy : (busyIds t).Perm (ends.map Msg.channel ++ busyIds st)) (stamp : ℚ) :
    Booked id t (rest ++ ends ++ [packEvent e.receiver startCall stamp (-1)]) := by
  have hrest : ∀ x ∈ rest, x ∈ pending := fun x hx =>
    hperm.subset (List.mem_cons_of_mem _ hx)
  have hrecv := h.receivers e (hperm.subset List.mem_cons_self)
  have hcount := hperm.countP_eq fun e => e.type == startCall
  have hends := (hperm.filter fun e => e.type == endCall).map Msg.channel
  have hstart : (e.type == startCall) = true := by rw [htype]; rfl
  have hend : (e.type == endCall) = false := by rw [htype]; rfl
  have hnone : ends.countP (fun e => e.type == startCall) = 0 := by
    refine List.countP_eq_zero.mpr fun x hx => ?_
    rw [(hev x hx).1]
    decide
  have hall : ends.filter (fun e => e.type == endCall) = ends := by
    refine List.filter_eq_self.mpr fun x hx => ?_
    rw [(hev x hx).1]
    rfl
  rw [h.starts, List.countP_cons, hstart] at hcount
  rw [List.filter_cons, hend] at hends
  refine ⟨?_, ?_, ?_, ?_, ht.counter, ht.arriving⟩
  · rw [List.countP_append, List.countP_append, hnone]
    show _ + 0 + 1 = 1
    simp only [if_true] at hcount
    omega
  · intro x hx
    rcases List.mem_append.mp hx with hx | hx
    · rcases List.mem_append.mp hx with hx | hx
      · exact h.others x (hrest x hx)
      · exact Or.inr (hev x hx).1
    · exact Or.inl (by rw [List.mem_singleton.mp hx]; rfl)
  · rw [List.filter_append, List.filter_append, hall]
    show ((rest.filter _ ++ ends ++ []).map Msg.channel).Perm _
    rw [List.append_nil, List.map_append]
    refine (hends.trans h.ends).append_right _ |>.trans ?_
    exact List.perm_append_comm.trans hbusy.symm
  · intro x hx
    rcases List.mem_append.mp hx with hx | hx
    · rcases List.mem_append.mp hx with hx | hx
      · exact h.receivers x (hrest x hx)
      · exact (hev x hx).2.trans hrecv
    · rw [List.mem_singleton.mp hx]
      exact hrecv

/-- The channel of a pending `END_CALL` is busy, and the others have the rest. -/
theorem Booked.busy_cons (h : Booked id st pending) (hperm : (e :: rest).Perm pending)
    (htype : e.type = endCall) :
    (e.channel :: (rest.filter fun e => e.type == endCall).map Msg.channel).Perm
      (busyIds st) := by
  have hends := (hperm.filter fun e => e.type == endCall).map Msg.channel
  have hend : (e.type == endCall) = true := by rw [htype]; rfl
  rw [List.filter_cons, hend] at hends
  exact hends.trans h.ends

/-- The books after an `END_CALL`. -/
theorem Booked.finish (h : Booked id st pending) (hperm : (e :: rest).Perm pending)
    (htype : e.type = endCall) (ht : Sane t)
    (hbusy : (busyIds st).Perm (e.channel :: busyIds t)) : Booked id t rest := by
  have hrest : ∀ x ∈ rest, x ∈ pending := fun x hx =>
    hperm.subset (List.mem_cons_of_mem _ hx)
  have hcount := hperm.countP_eq fun e => e.type == startCall
  have hstart : (e.type == startCall) = false := by rw [htype]; rfl
  rw [h.starts, List.countP_cons, hstart] at hcount
  exact {
    starts := by
      simp only [Bool.false_eq_true, if_false] at hcount
      exact hcount
    others := fun x hx => h.others x (hrest x hx)
    ends := ((h.busy_cons hperm htype).trans hbusy).cons_inv
    receivers := fun x hx => h.receivers x (hrest x hx)
    counter := ht.counter
    arriving := ht.arriving }

end Handled

/-- A turn after `INIT` handles the pending event that it picks. -/
theorem running_turn {s : Loop} {k : Turn} (h : Running id s) (hstop : s.stopped = false)
    (hk : k.pick < s.pending.length) : ∃ u, s.exec k = .ok u ∧ Running id u := by
  obtain ⟨st, hst, hsane, hbooked⟩ := h.cell
  let e := s.pending[k.pick]
  let rest := s.pending.eraseIdx k.pick
  have hperm : (e :: rest).Perm s.pending := List.getElem_cons_eraseIdx_perm hk
  have hmem : e ∈ s.pending := List.getElem_mem hk
  have hne : s.pending ≠ [] := List.ne_nil_of_mem hmem
  have hget : s.pending[k.pick]? = some e := List.getElem?_eq_getElem hk
  have hrecv : e.receiver = s.id := (hbooked.receivers e hmem).trans h.id_eq.symm
  have hlog := hsane.log e.timestamp (st.executedEvents + 1)
  have hexec : s.exec k = (processEvent e s.state rest k.draws >>= fun r =>
      if e.type = initEvent then pure { s with state := r.1.pointer, pending := r.2.2 }
      else pure { s with state := r.2.1, pending := r.2.2, stopped := r.1.nonzero }) := by
    simp only [Loop.exec, hstop, hne, hget, hrecv, if_false, ne_eq, not_true_eq_false,
      Bool.false_eq_true, rest]
  rcases hbooked.others e hmem with htype | htype
  · obtain ⟨t, ends, stamp, hrun, ht, hev, hbusy⟩ :=
      startCallEvent_spec hlog e.receiver e.timestamp rest k.draws
    refine ⟨{ s with
      state := some t
      pending := rest ++ ends ++ [packEvent e.receiver startCall stamp (-1)]
      stopped := false }, ?_, h.id_eq, t, rfl, ht,
      hbooked.start hperm htype ht hev hbusy stamp⟩
    rw [hexec, hst]
    simp only [processEvent, htype, if_true, Option.map_some, hrun, ok_bind]
    rfl
  · have hch : e.channel ∈ busyIds st :=
      (hbooked.busy_cons hperm htype).subset List.mem_cons_self
    obtain ⟨ret, t, hrun, ht, hbusy⟩ := endCallEvent_spec hlog hch k.draws
    refine ⟨{ s with state := some t, pending := rest, stopped := ret.nonzero }, ?_, h.id_eq,
      t, rfl, ht, hbooked.finish hperm htype ht hbusy⟩
    rw [hexec, hst]
    simp only [processEvent, htype, if_true, Option.map_some, hrun, ok_bind]
    rfl

/-- After `INIT`, every run of `main_loop` keeps the law of the cell, and no turn
before the end ends the program. -/
theorem cell_bookkeeping {id : Word} {timestamp : ℚ} {channel : ℤ} {ks : List Turn} {s : Loop}
    (h : Run Step (Loop.start id timestamp channel) ks s) :
    (ks ≠ [] → ∃ st, s.state = some st ∧ Booked id st s.pending) ∧
      (s.stopped = false → s.pending ≠ [] ∧
        ∀ k : Turn, k.pick < s.pending.length → ∃ u, s.exec k = .ok u) := by
  have hinv : ks = [] ∧ s = Loop.start id timestamp channel ∨ ks ≠ [] ∧ Running id s := by
    refine h.invariantTrace (I := fun ks s =>
      ks = [] ∧ s = Loop.start id timestamp channel ∨ ks ≠ [] ∧ Running id s) ?_ (Or.inl ⟨rfl, rfl⟩)
    intro ks s k u hs hstep
    have hk := stopped_of_exec hstep
    refine Or.inr ⟨List.append_ne_nil_of_right_ne_nil _ (List.cons_ne_nil _ _), ?_⟩
    rcases hs with ⟨_, rfl⟩ | ⟨_, hs⟩
    · have hpick : k = ⟨0, k.draws⟩ := by
        have hlt : k.pick < 1 := hk.2
        have hzero : k.pick = 0 := by omega
        rw [← hzero]
      obtain ⟨v, hv, hrunning, _⟩ := exec_start id timestamp channel k.draws
      have hexec : (Loop.start id timestamp channel).exec k = .ok u := hstep
      rw [hpick, hv] at hexec
      cases hexec
      exact hrunning
    · obtain ⟨v, hv, hrunning⟩ := running_turn hs hk.1 hk.2
      have heq := hv.symm.trans hstep
      cases heq
      exact hrunning
  rcases hinv with ⟨hnil, rfl⟩ | ⟨_, hrunning⟩
  · refine ⟨fun hne => absurd hnil hne, fun _ => ⟨List.cons_ne_nil _ _, fun k hk => ?_⟩⟩
    have hlt : k.pick < 1 := hk
    have hzero : k.pick = 0 := by omega
    obtain ⟨v, hv, _⟩ := exec_start id timestamp channel k.draws
    exact ⟨v, by rw [← hv, ← hzero]⟩
  · obtain ⟨st, hst, _, hbooked⟩ := hrunning.cell
    refine ⟨fun _ => ⟨st, hst, hbooked⟩, fun hstop => ⟨?_, fun k hk => ?_⟩⟩
    · intro hnil
      have hstarts := hbooked.starts
      rw [hnil] at hstarts
      cases hstarts
    · obtain ⟨u, hu, _⟩ := running_turn hrunning hstop hk
      exact ⟨u, hu⟩

/-- A call starts, and the next one before it ends. -/
theorem cell_bookkeeping_calls : ∃ (s : Loop) (st : LpState),
    Run Step (Loop.start 1 0 0) [⟨0, sameDraws⟩, ⟨0, sameDraws⟩, ⟨1, sameDraws⟩, ⟨0, sameDraws⟩] s ∧
    s.state = some st ∧ Booked 1 st s.pending ∧ s.pending ≠ [] ∧ s.stopped = false := by
  obtain ⟨s, h, hp⟩ := exists_run Loop.exec (fun _ _ => true) (Loop.start 1 0 0)
    [⟨0, sameDraws⟩, ⟨0, sameDraws⟩, ⟨1, sameDraws⟩, ⟨0, sameDraws⟩]
    (fun s => !s.stopped) (by decide +kernel)
  have hrun : Run Step (Loop.start 1 0 0)
      [⟨0, sameDraws⟩, ⟨0, sameDraws⟩, ⟨1, sameDraws⟩, ⟨0, sameDraws⟩] s :=
    h.mono fun _ _ _ hk => hk.2
  have hstop : s.stopped = false := by simpa using hp
  obtain ⟨hlaw, hlive⟩ := cell_bookkeeping hrun
  obtain ⟨st, hst, hbooked⟩ := hlaw (by simp)
  exact ⟨s, st, hrun, hst, hbooked, (hlive hstop).1, hstop⟩

end LinuxFibers.Gsm
