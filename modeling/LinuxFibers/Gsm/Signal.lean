import LinuxFibers.Gsm.Bookkeeping
import Mathlib.Data.List.Find

/-!
# The signal data of a cell

`allocation` draws the power of a new channel from the powers of the others, and
`fading_recheck` draws all fadings again.  `Nodes` is the list `channels` with the
values in it, and `Nodes.allocation` and `Nodes.deallocation` are the two calls on
these values.

* `signals_in_range`: every channel of the list has a power between `MIN_POWER`
  and `MAX_POWER`, and all fadings are from the same `fading_recheck`.
* `garbage_unobserved`: what `malloc` leaves in the memory of the first event, of
  `sir_data` and behind the last channel of `channel_state` has no influence on a
  run.
-/

namespace LinuxFibers.Gsm

open LinuxFibers.Lib LinkedList

variable {s t : LpState} {nodes : List (ℕ × Channel)} {d d' : Draws} {ch : ℤ} {i : ℕ}

/-! ## The list with its values -/

/-- The list `channels` has the nodes `nodes`, and these are all nodes that are
allocated. -/
structure Nodes (s : LpState) (nodes : List (ℕ × Channel)) : Prop where
  seg : Seg s.heap none s.channels nodes none
  nodup : (nodes.map Prod.fst).Nodup
  lt : ∀ a ∈ nodes.map Prod.fst, a < s.brk
  freed : ∀ a, a ∉ nodes.map Prod.fst → s.heap a = none

/-- A node after `fading_recheck`. -/
def rechecked (d : Draws) (n : ℕ × Channel) : ℕ × Channel :=
  (n.1, { n.2 with sirData := { n.2.sirData with fading := .fin (d.recheck n.1) } })

/-- The interference of the nodes with a new channel. -/
def summ (d : Draws) (nodes : List (ℕ × Channel)) : ExactDouble :=
  (walk (LpState.interference d) nodes (.fin 0)).2

/-- The node of a new channel. -/
def newNode (s : LpState) (d : Draws) (nodes : List (ℕ × Channel)) (i : ℕ) : ℕ × Channel :=
  (s.brk, ⟨i, LpState.newSirData d (summ d nodes) d.sirData⟩)

theorem Nodes.length_le (h : Nodes s nodes) : nodes.length ≤ s.brk := by
  have hnd : ((nodes.map label).map Prod.fst).Nodup := by
    rw [← map_fst_label rfl]
    exact h.nodup
  have hlt : ∀ a ∈ (nodes.map label).map Prod.fst, a < s.brk := by
    rw [← map_fst_label rfl]
    exact h.lt
  have hle := length_le_brk hnd hlt
  rwa [List.length_map] at hle

/-- The counters and the times of a cell are not in its list. -/
theorem Nodes.of_eq (h : Nodes s nodes) (hheap : t.heap = s.heap)
    (hchannels : t.channels = s.channels) (hbrk : t.brk = s.brk) : Nodes t nodes where
  seg := by
    rw [hheap, hchannels]
    exact h.seg
  nodup := h.nodup
  lt := by
    rw [hbrk]
    exact h.lt
  freed := by
    rw [hheap]
    exact h.freed

theorem Rep.exists_nodes {ns : List (ℕ × ℤ)} (h : Rep s ns) :
    ∃ nodes, Nodes s nodes ∧ nodes.map label = ns := by
  obtain ⟨nodes, hseg, hlabel⟩ := h.listed
  have hfst := map_fst_label hlabel
  exact ⟨nodes, ⟨hseg, hfst ▸ h.nodup, hfst ▸ h.lt, hfst ▸ h.freed⟩, hlabel⟩

theorem map_fst_rechecked (d : Draws) (nodes : List (ℕ × Channel)) :
    (nodes.map (rechecked d)).map Prod.fst = nodes.map Prod.fst := by
  rw [List.map_map]
  rfl

/-- The list determines the heap and its head. -/
theorem Nodes.unique (h : Nodes s nodes) (h' : Nodes t nodes) :
    s.heap = t.heap ∧ s.channels = t.channels := by
  have hhead := h.seg.head_unique h'.seg
  refine ⟨funext fun a => ?_, hhead⟩
  by_cases ha : a ∈ nodes.map Prod.fst
  · exact h.seg.eq_of_mem (hhead ▸ h'.seg) a ha
  · rw [h.freed a ha, h'.freed a ha]

/-! ## The two calls on the values -/

theorem walk_recheck (d : Draws) (nodes : List (ℕ × Channel)) :
    (walk (fun a c () =>
      ({ c with sirData := { c.sirData with fading := .fin (d.recheck a) } }, ())) nodes ()).1 =
      nodes.map (rechecked d) := by
  induction nodes with
  | nil => rfl
  | cons n nodes ih =>
    simp only [walk, List.map_cons, ih]
    rfl

/-- The nodes that `interference` has disturbed are the same after
`fading_recheck`. -/
theorem rechecked_interference (d : Draws) (nodes : List (ℕ × Channel)) (b : ExactDouble) :
    (walk (LpState.interference d) nodes b).1.map (rechecked d) = nodes.map (rechecked d) := by
  induction nodes generalizing b with
  | nil => rfl
  | cons n nodes ih =>
    simp only [walk, List.map_cons, ih]
    rfl

theorem Nodes.fadingRecheck (h : Nodes s nodes) (d : Draws) :
    ∃ heap, s.fadingRecheck d = .ok { s with heap := heap } ∧
      Nodes { s with heap := heap } (nodes.map (rechecked d)) := by
  obtain ⟨heap, hrun, hseg, hframe⟩ := h.seg.forEach_eq_walk (fun a c () =>
    ({ c with sirData := { c.sirData with fading := .fin (d.recheck a) } }, ()))
    h.nodup h.length_le ()
  rw [walk_recheck] at hseg
  have hfst := map_fst_rechecked d nodes
  refine ⟨heap, ?_, hseg, hfst ▸ h.nodup, hfst ▸ h.lt, fun a ha => ?_⟩
  · simp only [LpState.fadingRecheck, hrun]
    rfl
  · rw [hfst] at ha
    exact (hframe a ha).trans (h.freed a ha)

/-- `allocation` puts the new channel on top and draws all fadings again. -/
theorem Nodes.allocation (h : Nodes s nodes) (hfree : s.firstFree = some i) (d : Draws) :
    ∃ heap, s.allocation d = .ok (i, { s with
        channelState := setChannel s.channelState i
        channels := some s.brk, heap := heap, brk := s.brk + 1 }) ∧
      Nodes { s with
        channelState := setChannel s.channelState i
        channels := some s.brk, heap := heap, brk := s.brk + 1 }
        ((newNode s d nodes i :: nodes).map (rechecked d)) := by
  have hnew : s.brk ∉ nodes.map Prod.fst := fun hmem => Nat.lt_irrefl _ (h.lt _ hmem)
  obtain ⟨h₁, hset, hc₁, hseg₁, hframe₁⟩ := h.seg.push h.nodup hnew ⟨i, d.sirData⟩
  obtain ⟨h₂, hrun, hseg₂, hframe₂⟩ := hseg₁.forEach_eq_walk (LpState.interference d) h.nodup
    h.length_le (.fin 0)
  have hfst := map_fst_walk (LpState.interference d) nodes (.fin 0)
  have hc₂ : h₂ s.brk = some ⟨⟨i, d.sirData⟩, none, s.channels⟩ := by rw [hframe₂ _ hnew, hc₁]
  let new := newNode s d nodes i
  let others := (walk (LpState.interference d) nodes (.fin 0)).1
  let s₃ : LpState := { s with
    channelState := setChannel s.channelState i
    channels := some s.brk
    heap := Function.update h₂ s.brk (some ⟨new.2, none, s.channels⟩)
    brk := s.brk + 1 }
  have hfst₃ : (new :: others).map Prod.fst = s.brk :: nodes.map Prod.fst := by
    rw [List.map_cons, hfst]
    rfl
  have h₃ : Nodes s₃ (new :: others) := by
    refine ⟨⟨rfl, s.channels, Function.update_self _ _ _, ?_⟩, ?_, ?_, fun a ha => ?_⟩
    · exact hseg₂.update (hfst ▸ hnew) _
    · rw [hfst₃]
      exact List.nodup_cons.mpr ⟨hnew, h.nodup⟩
    · rw [hfst₃]
      exact List.forall_mem_cons.mpr
        ⟨Nat.lt_succ_self _, fun a ha => Nat.lt_succ_of_lt (h.lt a ha)⟩
    · rw [hfst₃, List.mem_cons, not_or] at ha
      show Function.update h₂ s.brk _ a = none
      rw [Function.update_of_ne ha.1, hframe₂ a ha.2, hframe₁ a ha.1 ha.2, h.freed a ha.2]
  obtain ⟨heap, hcheck, hnodes⟩ := h₃.fadingRecheck d
  refine ⟨heap, ?_, ?_⟩
  · simp only [LpState.allocation, hfree, hset, access_ok, hrun, load_of_some hc₂, ok_bind]
    exact congrArg (fun r => r >>= fun s => pure ((i : ℤ), s)) hcheck
  · rw [List.map_cons, rechecked_interference, ← List.map_cons] at hnodes
    exact hnodes

/-- `deallocation` takes the first node of its channel out and draws all fadings
again. -/
theorem Nodes.deallocation (h : Nodes s nodes) (hch : ∃ n ∈ nodes, n.2.channelId = ch)
    (d : Draws) :
    ∃ head heap, s.deallocation ch d = .ok { s with
        channelState := resetChannel s.channelState ch.toNat, channels := head, heap := heap } ∧
      Nodes { s with
        channelState := resetChannel s.channelState ch.toNat, channels := head, heap := heap }
        ((nodes.eraseP fun n => n.2.channelId == ch).map (rechecked d)) := by
  have hfind := h.seg.find? (fun c => c.channelId == ch) h.length_le
  have hsome : (nodes.find? fun n => n.2.channelId == ch).isSome = true := by
    obtain ⟨n, hn, heq⟩ := hch
    exact List.find?_isSome.mpr ⟨n, hn, beq_iff_eq.mpr heq⟩
  obtain ⟨⟨a, v⟩, hn⟩ := Option.isSome_iff_exists.mp hsome
  obtain ⟨hv, xs, ys, rfl, hbefore⟩ := List.find?_eq_some_iff_append.mp hn
  have herase : (xs ++ (a, v) :: ys).eraseP (fun n => n.2.channelId == ch) = xs ++ ys := by
    have hnone : ∀ n ∈ xs, ¬ (n.2.channelId == ch) = true := fun n hn => by
      simpa using hbefore n hn
    have hfirst : ((a, v) :: ys).eraseP (fun n => n.2.channelId == ch) = ys :=
      List.eraseP_cons_of_pos hv
    rw [List.eraseP_append_right _ hnone, hfirst]
  obtain ⟨head, heap, hunlink, hseg, hframe⟩ := unlink_eq h.seg h.nodup
  let s₁ : LpState := { s with
    channelState := resetChannel s.channelState ch.toNat, channels := head, heap := free heap a }
  have hsub : (xs ++ ys).Sublist (xs ++ (a, v) :: ys) :=
    (List.Sublist.refl _).append (List.sublist_cons_self _ _)
  have h₁ : Nodes s₁ (xs ++ ys) := by
    refine ⟨hseg, h.nodup.sublist (hsub.map Prod.fst),
      fun b hb => h.lt b ((hsub.map Prod.fst).subset hb), fun b hb => ?_⟩
    show free heap a b = none
    by_cases hba : b = a
    · rw [hba, free, Function.update_self]
    · have hout : b ∉ (xs ++ (a, v) :: ys).map Prod.fst := by
        simp only [List.map_append, List.map_cons, List.mem_append, List.mem_cons] at hb ⊢
        tauto
      rw [hframe b hout, h.freed b hout]
  obtain ⟨heap', hcheck, hnodes⟩ := h₁.fadingRecheck d
  refine ⟨head, heap', ?_, ?_⟩
  · simp only [LpState.deallocation, hfind, hn, Option.map_some, access_ok, ok_bind, hunlink]
    exact hcheck
  · rw [herase]
    exact hnodes

/-! ## The power of a channel -/

/-- The powers that `allocation` gives. -/
abbrev Power := { p : ℚ // minPower ≤ p ∧ p ≤ maxPower }

/-- The comparisons with the bounds turn every value but not-a-number into a
power. -/
theorem clamp_power {x : ExactDouble} (hx : x ≠ .nan) : ∃ p : Power,
    (let x := if x.lt (.fin minPower) then .fin minPower else x
      if ExactDouble.lt (.fin maxPower) x then .fin maxPower else x) = .fin p := by
  have hle : minPower ≤ maxPower := by
    unfold minPower maxPower
    norm_num
  cases x with
  | nan => exact absurd rfl hx
  | inf neg =>
    cases neg with
    | true =>
      refine ⟨⟨minPower, le_refl _, hle⟩, ?_⟩
      simp only [ExactDouble.lt, if_true]
      exact if_neg (by rw [decide_eq_true_eq]; exact not_lt.mpr hle)
    | false => exact ⟨⟨maxPower, hle, le_refl _⟩, rfl⟩
  | fin q =>
    by_cases hlow : q < minPower
    · refine ⟨⟨minPower, le_refl _, hle⟩, ?_⟩
      simp only [ExactDouble.lt_fin, hlow, decide_true, if_true, not_lt.mpr hle, decide_false,
        Bool.false_eq_true, if_false]
    · by_cases hhigh : maxPower < q
      · refine ⟨⟨maxPower, hle, le_refl _⟩, ?_⟩
        simp only [ExactDouble.lt_fin, hlow, decide_false, Bool.false_eq_true, if_false, hhigh,
          decide_true, if_true]
      · refine ⟨⟨q, not_lt.mp hlow, not_lt.mp hhigh⟩, ?_⟩
        simp only [ExactDouble.lt_fin, hlow, decide_false, Bool.false_eq_true, if_false, hhigh]

theorem newSirData_power (d : Draws) (q : ℚ) (sir : SirData) :
    ∃ p : Power, (LpState.newSirData d (.fin q) sir).power = .fin p := by
  unfold LpState.newSirData
  by_cases hq : q = 0
  · refine ⟨⟨minPower, le_refl _, ?_⟩, ?_⟩
    · unfold minPower maxPower
      norm_num
    · rw [if_pos (congrArg ExactDouble.fin hq)]
  · have hne : ¬ ExactDouble.fin q = .fin 0 := fun h => hq (ExactDouble.fin.inj h)
    have hsum : sirAim * q ≠ 0 := by
      unfold sirAim
      simpa using hq
    obtain ⟨p, hp⟩ := clamp_power (ExactDouble.div_ne_nan hsum (d.pathGain * d.newFading))
    rw [if_neg hne]
    exact ⟨p, hp⟩

/-- Every node has a power. -/
def Powered (nodes : List (ℕ × Channel)) : Prop :=
  ∀ n ∈ nodes, ∃ p : Power, n.2.sirData.power = .fin p

/-- The interference of nodes with a power is finite. -/
theorem walk_interference {b : ℚ} (h : Powered nodes) (d : Draws) :
    ∃ q, (walk (LpState.interference d) nodes (.fin b)).2 = .fin q := by
  induction nodes generalizing b with
  | nil => exact ⟨b, rfl⟩
  | cons n nodes ih =>
    obtain ⟨p, hp⟩ := h n List.mem_cons_self
    have hsum : (LpState.interference d n.1 n.2 (.fin b)).2 =
        .fin (b + d.crossPathGain n.1 * p * d.fading n.1) := by
      simp only [LpState.interference, hp, ExactDouble.fin_mul_fin, ExactDouble.fin_add_fin]
    simp only [walk, hsum]
    exact ih fun n hn => h n (List.mem_cons_of_mem _ hn)

theorem Powered.rechecked (h : Powered nodes) (d : Draws) :
    Powered (nodes.map (rechecked d)) := by
  intro n hn
  obtain ⟨m, hm, rfl⟩ := List.mem_map.mp hn
  exact h m hm

theorem Powered.newNode (h : Powered nodes) (s : LpState) (d : Draws) (i : ℕ) :
    Powered (newNode s d nodes i :: nodes) := by
  obtain ⟨q, hq⟩ := @walk_interference nodes 0 h d
  refine List.forall_mem_cons.mpr ⟨?_, h⟩
  show ∃ p : Power, (LpState.newSirData d (summ d nodes) d.sirData).power = .fin p
  rw [summ, hq]
  exact newSirData_power d q d.sirData

/-! ## The events, as equations -/

variable {me : Word} {now : ℚ} {q : List Msg} {k k' : Turn} {u u' : Loop} {id : Word}

/-- The state after a call that finds no free channel. -/
def blocked (s : LpState) (now : ℚ) : LpState :=
  { s with
    arrivingCalls := s.arrivingCalls + 1
    blockedOnSetup := s.blockedOnSetup + 1
    ta := recomputeTa s.refTa now }

/-- The state in which `allocation` is called. -/
def accepted (s : LpState) : LpState :=
  { s with
    arrivingCalls := s.arrivingCalls + 1
    channelCounter := s.channelCounter - 1 }

/-- The state after a call that took the channel `i`, with the list in `heap`. -/
def connected (s : LpState) (now : ℚ) (i : ℕ) (heap : Heap Channel) : LpState :=
  { accepted s with
    channelState := setChannel s.channelState i
    channels := some s.brk
    heap := heap
    brk := s.brk + 1
    ta := recomputeTa s.refTa now }

/-- The state after the call on `ch` ended, with the list `heap`. -/
def released (s : LpState) (ch : ℤ) (head : Option ℕ) (heap : Heap Channel) : LpState :=
  { s with
    channelCounter := s.channelCounter + 1
    completeCalls := s.completeCalls + 1
    channelState := resetChannel s.channelState ch.toNat
    channels := head
    heap := heap }

/-- The event for the next call. -/
def nextCall (me : Word) (s : LpState) (now : ℚ) (d : Draws) : Msg :=
  packEvent me startCall (now + recomputeTa s.refTa now * d.arrival) (-1)

theorem startCallEvent_blocked (h : Sane s) (hzero : s.channelCounter = 0) :
    startCallEvent me now s q d = .ok (blocked s now, q ++ [nextCall me s now d]) := by
  simp only [startCallEvent, if_pos hzero, pure_bind,
    expent_ok (recomputeTa_nonneg h.refTa now), ok_bind]
  rfl

theorem startCallEvent_connected (h : Sane s) (hne : s.channelCounter ≠ 0) {heap : Heap Channel}
    (halloc : (accepted s).allocation d = .ok ((i : ℤ), { accepted s with
      channelState := setChannel s.channelState i
      channels := some s.brk, heap := heap, brk := s.brk + 1 })) :
    startCallEvent me now s q d = .ok (connected s now i heap,
      q ++ [packEvent me endCall (now + s.taDuration * d.duration) i] ++
        [nextCall me s now d]) := by
  have halloc' : LpState.allocation { s with
      arrivingCalls := s.arrivingCalls + 1, channelCounter := s.channelCounter - 1 } d = _ := halloc
  simp only [startCallEvent, hne, if_false, expent_ok h.taDuration, ok_bind, halloc', pure_bind]
  have hta : 0 ≤ recomputeTa (accepted s).refTa now := recomputeTa_nonneg h.refTa now
  rw [expent_ok hta]
  rfl

/-- A cell with a channel left finds it. -/
theorem Sane.exists_firstFree (h : Sane s) (hne : s.channelCounter ≠ 0) :
    ∃ i, s.firstFree = some i := by
  have hcounter := h.counter
  have hzero : s.channelCounter.toNat ≠ 0 := fun hz => hne (BitVec.eq_of_toNat_eq hz)
  exact Gsm.exists_firstFree (exists_free (by omega))

/-- The effect of `START_CALL` on the list. -/
theorem startCall_nodes (hs : Sane s) (h : Nodes s nodes) (me : Word) (now : ℚ) (q : List Msg)
    (d : Draws) :
    (s.channelCounter = 0 ∧
      startCallEvent me now s q d = .ok (blocked s now, q ++ [nextCall me s now d])) ∨
    s.channelCounter ≠ 0 ∧ ∃ i heap, s.firstFree = some i ∧
      startCallEvent me now s q d = .ok (connected s now i heap,
        q ++ [packEvent me endCall (now + s.taDuration * d.duration) i] ++
          [nextCall me s now d]) ∧
      Nodes (connected s now i heap) ((newNode s d nodes i :: nodes).map (rechecked d)) := by
  by_cases hzero : s.channelCounter = 0
  · exact .inl ⟨hzero, startCallEvent_blocked hs hzero⟩
  · obtain ⟨i, hi⟩ := hs.exists_firstFree hzero
    have hacc : Nodes (accepted s) nodes := h.of_eq rfl rfl rfl
    have hi' : (accepted s).firstFree = some i := hi
    obtain ⟨heap, halloc, hnodes⟩ := hacc.allocation hi' d
    exact .inr ⟨hzero, i, heap, hi, startCallEvent_connected hs hzero halloc,
      hnodes.of_eq rfl rfl rfl⟩

/-- The value that ends the loop with the last call. -/
def lastCall (s : LpState) : Ret := if s.completeCalls + 1 = completeCalls then .one else .zero

/-- The effect of `END_CALL` on the list. -/
theorem endCall_nodes (h : Nodes s nodes) (hch : ∃ n ∈ nodes, n.2.channelId = ch) (d : Draws) :
    ∃ head heap, endCallEvent ch s d = .ok (lastCall s, released s ch head heap) ∧
      Nodes (released s ch head heap)
        ((nodes.eraseP fun n => n.2.channelId == ch).map (rechecked d)) := by
  let s₁ : LpState := { s with
    channelCounter := s.channelCounter + 1, completeCalls := s.completeCalls + 1 }
  have h₁ : Nodes s₁ nodes := h.of_eq rfl rfl rfl
  obtain ⟨head, heap, hdealloc, hnodes⟩ := h₁.deallocation hch d
  refine ⟨head, heap, ?_, hnodes.of_eq rfl rfl rfl⟩
  have hdealloc' : LpState.deallocation { s with
      channelCounter := s.channelCounter + 1, completeCalls := s.completeCalls + 1 } ch d = _ :=
    hdealloc
  simp only [endCallEvent, hdealloc', ok_bind]
  rfl

/-- The state in which an event is handled. -/
def logged (s : LpState) (now : ℚ) : LpState :=
  { s with lvt := now, executedEvents := s.executedEvents + 1 }

/-- The turn that handles a pending event. -/
theorem exec_of_get {e : Msg} (hstop : u.stopped = false) (hget : u.pending[k.pick]? = some e)
    (hrecv : e.receiver = u.id) :
    u.exec k = (processEvent e u.state (u.pending.eraseIdx k.pick) k.draws >>= fun r =>
      if e.type = initEvent then pure { u with state := r.1.pointer, pending := r.2.2 }
      else pure { u with state := r.2.1, pending := r.2.2, stopped := r.1.nonzero }) := by
  have hne : u.pending ≠ [] := by
    intro hnil
    rw [hnil] at hget
    cases hget
  simp only [Loop.exec, hstop, hne, hget, hrecv, if_false, ne_eq, not_true_eq_false,
    Bool.false_eq_true]

theorem exec_startCall {e : Msg} (hstop : u.stopped = false) (hget : u.pending[k.pick]? = some e)
    (hrecv : e.receiver = u.id) (htype : e.type = startCall) (hst : u.state = some s) {r : List Msg}
    (hevent : startCallEvent e.receiver e.timestamp (logged s e.timestamp)
      (u.pending.eraseIdx k.pick) k.draws = .ok (t, r)) :
    u.exec k = .ok { u with state := some t, pending := r, stopped := false } := by
  have hevent' : startCallEvent e.receiver e.timestamp { s with
      lvt := e.timestamp, executedEvents := s.executedEvents + 1 }
      (u.pending.eraseIdx k.pick) k.draws = .ok (t, r) := hevent
  have htypes : (startCall = initEvent) = False := by decide
  rw [exec_of_get hstop hget hrecv, hst]
  simp only [processEvent, htype, htypes, if_false, if_true, Option.map_some, hevent', ok_bind]
  rfl

theorem exec_endCall {e : Msg} (hstop : u.stopped = false) (hget : u.pending[k.pick]? = some e)
    (hrecv : e.receiver = u.id) (htype : e.type = endCall) (hst : u.state = some s) {r : Ret}
    (hevent : endCallEvent e.channel (logged s e.timestamp) k.draws = .ok (r, t)) :
    u.exec k = .ok { u with
      state := some t, pending := u.pending.eraseIdx k.pick, stopped := r.nonzero } := by
  have hevent' : endCallEvent e.channel { s with
      lvt := e.timestamp, executedEvents := s.executedEvents + 1 } k.draws = .ok (r, t) := hevent
  have htypes : (endCall = initEvent) = False ∧ (endCall = startCall) = False := by decide
  rw [exec_of_get hstop hget hrecv, hst]
  simp only [processEvent, htype, htypes.1, htypes.2, if_false, if_true, Option.map_some, hevent',
    ok_bind]
  rfl

/-! ## Powers and fadings in every run -/

/-- The channels of a cell have powers, and their fadings are from one of the
turns `ks`. -/
structure Signals (ks : List Turn) (s : LpState) (nodes : List (ℕ × Channel)) : Prop where
  listed : Nodes s nodes
  powered : Powered nodes
  fadings : ∃ k ∈ ks, ∀ n ∈ nodes, n.2.sirData.fading = .fin (k.draws.recheck n.1)

theorem rechecked_fadings (d : Draws) (nodes : List (ℕ × Channel)) :
    ∀ n ∈ nodes.map (rechecked d), n.2.sirData.fading = .fin (d.recheck n.1) := by
  intro n hn
  obtain ⟨m, _, rfl⟩ := List.mem_map.mp hn
  rfl

/-- A turn that leaves the list. -/
theorem Signals.keep {ks : List Turn} (h : Signals ks s nodes) (hheap : t.heap = s.heap)
    (hchannels : t.channels = s.channels) (hbrk : t.brk = s.brk) (k : Turn) :
    Signals (ks ++ [k]) t nodes where
  listed := h.listed.of_eq hheap hchannels hbrk
  powered := h.powered
  fadings := by
    obtain ⟨k', hk', hfading⟩ := h.fadings
    exact ⟨k', List.mem_append_left _ hk', hfading⟩

/-- A turn that ends in `fading_recheck`. -/
theorem Signals.recheck {ks : List Turn} (k : Turn) (hn : Nodes t (nodes.map (rechecked k.draws)))
    (hp : Powered nodes) : Signals (ks ++ [k]) t (nodes.map (rechecked k.draws)) where
  listed := hn
  powered := hp.rechecked k.draws
  fadings := ⟨k, List.mem_append_right _ List.mem_cons_self, rechecked_fadings k.draws nodes⟩

/-- The channel of a pending `END_CALL` is in the list. -/
theorem exists_channel (hs : Sane s) (hb : Booked id s u.pending) (h : Nodes s nodes) {e : Msg}
    (hget : u.pending[k.pick]? = some e) (htype : e.type = endCall) :
    ∃ n ∈ nodes, n.2.channelId = e.channel := by
  obtain ⟨hk, rfl⟩ := List.getElem?_eq_some_iff.mp hget
  have hbusy := (hb.busy_cons (List.getElem_cons_eraseIdx_perm hk) htype).subset List.mem_cons_self
  obtain ⟨ns, hrep⟩ := hs.rep
  obtain ⟨nodes', hnodes', rfl⟩ := hrep.exists_nodes
  obtain rfl := h.seg.nodes_unique hnodes'.seg
  obtain ⟨_, hl, hch⟩ := List.mem_map.mp (hrep.busy.mem_iff.mpr hbusy)
  obtain ⟨n, hn, rfl⟩ := List.mem_map.mp hl
  exact ⟨n, hn, hch⟩

/-- What a turn does after `INIT`. -/
theorem exec_cases (hr : Running id u) (hstop : u.stopped = false) (hst : u.state = some s)
    (hn : Nodes s nodes) (hk : k.pick < u.pending.length) :
    ∃ e, u.pending[k.pick]? = some e ∧
      ((∃ r, u.exec k = .ok { u with
          state := some (blocked (logged s e.timestamp) e.timestamp), pending := r
          stopped := false }) ∨
      (∃ i heap r, u.exec k = .ok { u with
          state := some (connected (logged s e.timestamp) e.timestamp i heap), pending := r
          stopped := false } ∧
        Nodes (connected (logged s e.timestamp) e.timestamp i heap)
          ((newNode (logged s e.timestamp) k.draws nodes i :: nodes).map (rechecked k.draws))) ∨
      ∃ head heap r, u.exec k = .ok { u with
          state := some (released (logged s e.timestamp) e.channel head heap), pending := r
          stopped := (lastCall (logged s e.timestamp)).nonzero } ∧
        Nodes (released (logged s e.timestamp) e.channel head heap)
          ((nodes.eraseP fun n => n.2.channelId == e.channel).map (rechecked k.draws))) := by
  obtain ⟨st, hst', hsane, hbooked⟩ := hr.cell
  obtain rfl : st = s := Option.some.inj (hst'.symm.trans hst)
  let e := u.pending[k.pick]
  have hget : u.pending[k.pick]? = some e := List.getElem?_eq_getElem hk
  have hmem : e ∈ u.pending := List.getElem_mem hk
  have hrecv : e.receiver = u.id := (hbooked.receivers e hmem).trans hr.id_eq.symm
  have hlog : Sane (logged st e.timestamp) := hsane.log e.timestamp (st.executedEvents + 1)
  have hnlog : Nodes (logged st e.timestamp) nodes := hn.of_eq rfl rfl rfl
  refine ⟨e, hget, ?_⟩
  rcases hbooked.others e hmem with htype | htype
  · rcases startCall_nodes hlog hnlog e.receiver e.timestamp (u.pending.eraseIdx k.pick) k.draws
      with ⟨_, hevent⟩ | ⟨_, i, heap, _, hevent, hnodes⟩
    · exact .inl ⟨_, exec_startCall hstop hget hrecv htype hst hevent⟩
    · exact .inr (.inl ⟨i, heap, _, exec_startCall hstop hget hrecv htype hst hevent, hnodes⟩)
  · have hch := exists_channel hsane hbooked hn hget htype
    obtain ⟨head, heap, hevent, hnodes⟩ := endCall_nodes hnlog hch k.draws
    exact .inr (.inr ⟨head, heap, _, exec_endCall hstop hget hrecv htype hst hevent, hnodes⟩)

/-- The signal data of the cell after the turns `ks`. -/
def SignalsAfter (ks : List Turn) (u : Loop) : Prop :=
  ∃ s nodes, u.state = some s ∧ Signals ks s nodes

theorem signals_turn {ks : List Turn} (hr : Running id u) (h : SignalsAfter ks u)
    (hstep : Step u k u') : SignalsAfter (ks ++ [k]) u' := by
  obtain ⟨s, nodes, hst, hsig⟩ := h
  obtain ⟨hstop, hk⟩ := stopped_of_exec hstep
  have hexec : u.exec k = .ok u' := hstep
  obtain ⟨e, _, ⟨r, hv⟩ | ⟨i, heap, r, hv, hnodes⟩ | ⟨head, heap, r, hv, hnodes⟩⟩ :=
    exec_cases hr hstop hst hsig.listed hk
  · cases hexec.symm.trans hv
    have hkeep := hsig.keep (t := blocked (logged s e.timestamp) e.timestamp) rfl rfl rfl k
    exact ⟨_, nodes, rfl, hkeep⟩
  · cases hexec.symm.trans hv
    exact ⟨_, _, rfl, Signals.recheck k hnodes (hsig.powered.newNode _ _ _)⟩
  · cases hexec.symm.trans hv
    have hpowered : Powered (nodes.eraseP fun n => n.2.channelId == e.channel) :=
      fun n hn => hsig.powered n (List.mem_of_mem_eraseP hn)
    exact ⟨_, _, rfl, Signals.recheck k hnodes hpowered⟩

/-- The loop after `INIT`. -/
def Loop.initialized (id : Word) (d : Draws) : Loop :=
  ⟨id, some (initState d), [packEvent id startCall (20 * d.start) (-1)], false⟩

theorem exec_initEvent (id : Word) (timestamp : ℚ) (channel : ℤ) (hk : k.pick = 0) :
    (Loop.start id timestamp channel).exec k = .ok (Loop.initialized id k.draws) := by
  simp [Loop.exec, Loop.start, Loop.initialized, processEvent, Ret.pointer, hk]

/-- The first turn makes an empty list. -/
theorem signals_start {timestamp : ℚ} {channel : ℤ}
    (hstep : Step (Loop.start id timestamp channel) k u) :
    u = Loop.initialized id k.draws ∧ Running id u ∧ SignalsAfter [k] u := by
  obtain ⟨_, hk⟩ := stopped_of_exec hstep
  have hzero : k.pick = 0 := Nat.lt_one_iff.mp hk
  have hexec : (Loop.start id timestamp channel).exec k = .ok u := hstep
  cases hexec.symm.trans (exec_initEvent id timestamp channel hzero)
  obtain ⟨v, hv, hrunning, _⟩ := exec_start id timestamp channel k.draws
  cases hv.symm.trans (exec_initEvent (k := ⟨0, k.draws⟩) id timestamp channel rfl)
  refine ⟨rfl, hrunning, _, [], rfl, ⟨rfl, List.nodup_nil, ?_, fun _ _ => rfl⟩, ?_, k,
    List.mem_cons_self, ?_⟩
  · exact fun a ha => absurd ha List.not_mem_nil
  · exact fun n hn => absurd hn List.not_mem_nil
  · exact fun n hn => absurd hn List.not_mem_nil

/-- A run of the loop is its start, or it is after `INIT`. -/
theorem signals_run {timestamp : ℚ} {channel : ℤ} {ks : List Turn}
    (h : Run Step (Loop.start id timestamp channel) ks u) :
    ks = [] ∧ u = Loop.start id timestamp channel ∨ Running id u ∧ SignalsAfter ks u := by
  refine h.invariantTrace (I := fun ks u =>
    ks = [] ∧ u = Loop.start id timestamp channel ∨ Running id u ∧ SignalsAfter ks u) ?_
    (.inl ⟨rfl, rfl⟩)
  rintro ks v k w (⟨rfl, rfl⟩ | ⟨hr, hsig⟩) hstep
  · exact .inr (signals_start hstep).2
  · obtain ⟨hstop, hk⟩ := stopped_of_exec hstep
    obtain ⟨w', hw, hr'⟩ := running_turn hr hstop hk
    cases hw.symm.trans hstep
    exact .inr ⟨hr', signals_turn hr hsig hstep⟩

/-- In every state of a cell, whatever the random values are, the list has a power
from 3 to 3000 for each of its channels, and the fadings of all of them are from
one turn. -/
theorem signals_in_range {timestamp : ℚ} {channel : ℤ} {ks : List Turn}
    (h : Run Step (Loop.start id timestamp channel) ks u) (hst : u.state = some s) :
    ∃ nodes, Seg s.heap none s.channels nodes none ∧
      (∀ n ∈ nodes, ∃ p : Power, n.2.sirData.power = .fin p) ∧
      ∃ k ∈ ks, ∀ n ∈ nodes, n.2.sirData.fading = .fin (k.draws.recheck n.1) := by
  rcases signals_run h with ⟨_, rfl⟩ | ⟨_, s', nodes, hst', hsig⟩
  · cases hst
  · obtain rfl := Option.some.inj (hst'.symm.trans hst)
    exact ⟨nodes, hsig.listed.seg, hsig.powered, hsig.fadings⟩

/-- Two calls, the second of which disturbs the first, and the end of the first. -/
def twoCalls (d : Draws) : List Turn := [⟨0, d⟩, ⟨0, d⟩, ⟨1, d⟩, ⟨0, d⟩]

/-- `signals_in_range` after the end of the first of two calls. -/
theorem signals_in_range_two_calls : ∃ (u : Loop) (s : LpState) (nodes : List (ℕ × Channel)),
    Run Step (Loop.start 1 0 0) (twoCalls sameDraws) u ∧ u.state = some s ∧
      Seg s.heap none s.channels nodes none ∧ s.channels ≠ none ∧
      ∀ n ∈ nodes, ∃ p : Power, n.2.sirData.power = .fin p := by
  obtain ⟨u, h, hp⟩ := exists_run Loop.exec (fun _ _ => true) (Loop.start 1 0 0)
    (twoCalls sameDraws) (fun u => u.state.any fun s => s.channels.isSome) (by decide +kernel)
  have hrun : Run Step (Loop.start 1 0 0) (twoCalls sameDraws) u :=
    h.mono fun _ _ _ hk => hk.2
  obtain ⟨s, hst, hsome⟩ := (Option.any_eq_true _ _).mp hp
  obtain ⟨nodes, hseg, hpower, _⟩ := signals_in_range hrun hst
  exact ⟨u, s, nodes, hrun, hst, hseg, Option.isSome_iff_ne_none.mp hsome, hpower⟩

/-! ## The memory from `malloc` -/

/-- The states agree but behind the last channel of `channel_state`. -/
def Agree (s s' : LpState) : Prop :=
  ∃ cs, s' = { s with channelState := cs } ∧ ∀ w < 32, cs w = s.channelState w

/-- The draws agree but in the memory from `malloc`. -/
def SameDraws (d d' : Draws) : Prop :=
  ∃ sir cs, d' = { d with sirData := sir, channelState := cs }

/-- The turns agree but in the memory from `malloc`. -/
def SameTurn (k k' : Turn) : Prop := k'.pick = k.pick ∧ SameDraws k.draws k'.draws

/-- The loops agree but in the memory from `malloc`. -/
def SameLoop (u u' : Loop) : Prop :=
  u'.id = u.id ∧ u'.pending = u.pending ∧ u'.stopped = u.stopped ∧
    ∃ s s', u.state = some s ∧ u'.state = some s' ∧ Agree s s'

variable {cs : ℕ → Word} {st : LpState}

theorem checkChannel_congr (hcs : ∀ w < 32, cs w = s.channelState w) (hi : i < 1000) :
    checkChannel cs i = checkChannel s.channelState i := by
  unfold checkChannel
  rw [hcs (i / 32) (by omega)]

theorem busyChannels_congr (hs : Sane s) (hcs : ∀ w < 32, cs w = s.channelState w) :
    busyChannels { s with channelState := cs } = busyChannels s := by
  unfold busyChannels
  apply List.filter_congr
  intro i hi
  have hlt : i < s.channelsPerCell.toNat := List.mem_range.mp hi
  rw [hs.perCell] at hlt
  exact checkChannel_congr hcs hlt

theorem firstFree_congr (hs : Sane s) (hcs : ∀ w < 32, cs w = s.channelState w) :
    LpState.firstFree { s with channelState := cs } = s.firstFree := by
  unfold LpState.firstFree
  apply List.find?_congr
  intro i hi
  have hlt : i < s.channelsPerCell.toNat := List.mem_range.mp hi
  rw [hs.perCell] at hlt
  rw [checkChannel_congr hcs hlt]

theorem Sane.congr (hs : Sane s) (hcs : ∀ w < 32, cs w = s.channelState w) :
    Sane { s with channelState := cs } where
  rep := by
    obtain ⟨ns, hrep⟩ := hs.rep
    refine ⟨ns, hrep.listed, hrep.nodup, hrep.lt, hrep.freed, ?_⟩
    rw [busyChannels_congr hs hcs]
    exact hrep.busy
  perCell := hs.perCell
  refTa := hs.refTa
  taDuration := hs.taDuration
  counter := by
    rw [busyChannels_congr hs hcs]
    exact hs.counter
  arriving := by
    rw [busyChannels_congr hs hcs]
    exact hs.arriving

theorem setChannel_congr (hcs : ∀ w < 32, cs w = s.channelState w) (i : ℕ) :
    ∀ w < 32, setChannel cs i w = setChannel s.channelState i w := by
  intro w hw
  unfold setChannel
  by_cases hwi : w = i / 32
  · subst hwi
    rw [Function.update_self, Function.update_self, hcs _ hw]
  · rw [Function.update_of_ne hwi, Function.update_of_ne hwi, hcs w hw]

theorem resetChannel_congr (hcs : ∀ w < 32, cs w = s.channelState w) (i : ℕ) :
    ∀ w < 32, resetChannel cs i w = resetChannel s.channelState i w := by
  intro w hw
  unfold resetChannel
  by_cases hwi : w = i / 32
  · subst hwi
    rw [Function.update_self, Function.update_self, hcs _ hw]
  · rw [Function.update_of_ne hwi, Function.update_of_ne hwi, hcs w hw]

/-- The power of the new channel, and its fading after `fading_recheck`, do not
depend on the memory. -/
theorem rechecked_newNode (s : LpState) (d : Draws) (nodes : List (ℕ × Channel)) (i : ℕ)
    (sir : SirData) (cs : ℕ → Word) :
    rechecked { d with sirData := sir, channelState := cs }
        (newNode s { d with sirData := sir, channelState := cs } nodes i) =
      rechecked d (newNode s d nodes i) := by
  have hsum : summ { d with sirData := sir, channelState := cs } nodes = summ d nodes := rfl
  unfold rechecked newNode LpState.newSirData
  rw [hsum]
  dsimp only
  split <;> rfl

/-- The list after `allocation` does not depend on the memory. -/
theorem connected_heap {heap heap' : Heap Channel} {now : ℚ} (sir : SirData) (cs' : ℕ → Word)
    (h : Nodes (connected s now i heap) ((newNode s d nodes i :: nodes).map (rechecked d)))
    (h' : Nodes (connected { s with channelState := cs } now i heap')
      ((newNode { s with channelState := cs } { d with sirData := sir, channelState := cs' }
        nodes i :: nodes).map (rechecked { d with sirData := sir, channelState := cs' }))) :
    heap' = heap := by
  rw [List.map_cons] at h h'
  have hnew := rechecked_newNode s d nodes i sir cs'
  have hbrk : newNode { s with channelState := cs } { d with sirData := sir, channelState := cs' }
      nodes i = newNode s { d with sirData := sir, channelState := cs' } nodes i := rfl
  rw [hbrk, hnew] at h'
  exact (Nodes.unique h' h).1

/-- `START_CALL` with other memory. -/
theorem startCallEvent_agree {e : Msg} {r : List Msg} (hs : Sane s) (hn : Nodes s nodes)
    (ha : Agree s st) (hd : SameDraws d d')
    (hevent : startCallEvent e.receiver e.timestamp s q d = .ok (t, r)) :
    ∃ t', startCallEvent e.receiver e.timestamp st q d' = .ok (t', r) ∧ Agree t t' := by
  obtain ⟨cs, rfl, hcs⟩ := ha
  obtain ⟨sir, cs', rfl⟩ := hd
  have hs' : Sane { s with channelState := cs } := hs.congr hcs
  have hn' : Nodes { s with channelState := cs } nodes := hn.of_eq rfl rfl rfl
  rcases startCall_nodes hs hn e.receiver e.timestamp q d with
    ⟨hzero, hrun⟩ | ⟨hne, i, heap, hi, hrun, hnodes⟩
  · cases hevent.symm.trans hrun
    exact ⟨_, startCallEvent_blocked hs' hzero, cs, rfl, hcs⟩
  · cases hevent.symm.trans hrun
    rcases startCall_nodes hs' hn' e.receiver e.timestamp q
      { d with sirData := sir, channelState := cs' } with
      ⟨hzero, _⟩ | ⟨_, i', heap', hi', hrun', hnodes'⟩
    · exact absurd hzero hne
    · rw [firstFree_congr hs hcs, hi] at hi'
      cases hi'
      obtain rfl := connected_heap sir cs' hnodes hnodes'
      exact ⟨_, hrun', setChannel cs i, rfl, setChannel_congr hcs i⟩

/-- `END_CALL` with other memory. -/
theorem endCallEvent_agree {r : Ret} (hn : Nodes s nodes) (ha : Agree s st)
    (hd : SameDraws d d') (hch : ∃ n ∈ nodes, n.2.channelId = ch)
    (hevent : endCallEvent ch s d = .ok (r, t)) :
    ∃ t', endCallEvent ch st d' = .ok (r, t') ∧ Agree t t' := by
  obtain ⟨cs, rfl, hcs⟩ := ha
  obtain ⟨sir, cs', rfl⟩ := hd
  have hn' : Nodes { s with channelState := cs } nodes := hn.of_eq rfl rfl rfl
  obtain ⟨head, heap, hrun, hnodes⟩ := endCall_nodes hn hch d
  obtain ⟨head', heap', hrun', hnodes'⟩ :=
    endCall_nodes hn' hch { d with sirData := sir, channelState := cs' }
  cases hevent.symm.trans hrun
  have hnodes'' : Nodes (released { s with channelState := cs } ch head' heap')
      ((nodes.eraseP fun n => n.2.channelId == ch).map (rechecked d)) := hnodes'
  obtain ⟨hheap, hhead⟩ := hnodes''.unique hnodes
  obtain rfl : heap' = heap := hheap
  obtain rfl : head' = head := hhead
  exact ⟨_, hrun', resetChannel cs ch.toNat, rfl, resetChannel_congr hcs ch.toNat⟩

/-- A turn with other memory. -/
theorem sameLoop_turn {v : Loop} (hr : Running id u)
    (hn : ∃ s nodes, u.state = some s ∧ Nodes s nodes) (hsame : SameLoop u u')
    (hk : SameTurn k k') (hstep : Step u k v) :
    ∃ v', Step u' k' v' ∧ SameLoop v v' := by
  obtain ⟨hid, hpending, hstopped, s, s', hst, hst', hagree⟩ := hsame
  obtain ⟨s₁, nodes, hst₁, hnodes⟩ := hn
  obtain rfl := Option.some.inj (hst₁.symm.trans hst)
  obtain ⟨s₂, hst₂, hsane, hbooked⟩ := hr.cell
  obtain rfl := Option.some.inj (hst₂.symm.trans hst)
  obtain ⟨hstop, hlt⟩ := stopped_of_exec hstep
  obtain ⟨hpick, hdraws⟩ := hk
  let e := u.pending[k.pick]
  have hget : u.pending[k.pick]? = some e := List.getElem?_eq_getElem hlt
  have hmem : e ∈ u.pending := List.getElem_mem hlt
  have hrecv : e.receiver = u.id := (hbooked.receivers e hmem).trans hr.id_eq.symm
  have hlog : Sane (logged s₂ e.timestamp) := hsane.log e.timestamp (s₂.executedEvents + 1)
  have hnlog : Nodes (logged s₂ e.timestamp) nodes := hnodes.of_eq rfl rfl rfl
  have hget' : u'.pending[k'.pick]? = some e := by rw [hpending, hpick, hget]
  have hrecv' : e.receiver = u'.id := by rw [hid, hrecv]
  have hrest : u'.pending.eraseIdx k'.pick = u.pending.eraseIdx k.pick := by rw [hpending, hpick]
  have halog : Agree (logged s₂ e.timestamp) (logged s' e.timestamp) := by
    obtain ⟨cs, rfl, hcs⟩ := hagree
    exact ⟨cs, rfl, hcs⟩
  have hexec : u.exec k = .ok v := hstep
  have hstop' : u'.stopped = false := hstopped.trans hstop
  rcases hbooked.others e hmem with htype | htype
  · obtain ⟨t, _, _, hevent, _⟩ :=
      startCallEvent_spec hlog e.receiver e.timestamp (u.pending.eraseIdx k.pick) k.draws
    obtain ⟨t', hevent', hat⟩ := startCallEvent_agree hlog hnlog halog hdraws hevent
    rw [← hrest] at hevent'
    have hturn := exec_startCall hstop hget hrecv htype hst hevent
    have hturn' := exec_startCall hstop' hget' hrecv' htype hst' hevent'
    cases hexec.symm.trans hturn
    refine ⟨_, hturn', hid, ?_, rfl, t, t', rfl, rfl, hat⟩
    dsimp only
    rw [hrest]
  · have hch := exists_channel hsane hbooked hnodes hget htype
    obtain ⟨head, heap, hevent, _⟩ := endCall_nodes hnlog hch k.draws
    obtain ⟨t', hevent', hat⟩ := endCallEvent_agree hnlog halog hdraws hch hevent
    have hturn := exec_endCall hstop hget hrecv htype hst hevent
    have hturn' := exec_endCall hstop' hget' hrecv' htype hst' hevent'
    cases hexec.symm.trans hturn
    exact ⟨_, hturn', hid, hrest, rfl, _, t', rfl, rfl, hat⟩

theorem agree_initState (hd : SameDraws d d') : Agree (initState d) (initState d') := by
  obtain ⟨sir, cs, rfl⟩ := hd
  refine ⟨_, rfl, fun w hw => ?_⟩
  have hwords : w < (BitVec.ofInt 32 channelsPerCell).toNat / 32 + 1 := by
    have hval : (BitVec.ofInt 32 channelsPerCell).toNat = 1000 := by decide
    omega
  show (if _ then (0 : Word) else _) = if _ then (0 : Word) else _
  rw [if_pos hwords, if_pos hwords]

/-- The memory that `malloc` returns, for the first event, for `sir_data` and for
`channel_state`, has no influence on the run of a cell: with other contents of it
the same turns can be taken, and they lead to the same pending events, counters,
channels, powers and fadings. -/
theorem garbage_unobserved {timestamp timestamp' : ℚ} {channel channel' : ℤ} {ks ks' : List Turn}
    (h : Run Step (Loop.start id timestamp channel) ks u) (hks : List.Forall₂ SameTurn ks ks') :
    ∃ u', Run Step (Loop.start id timestamp' channel') ks' u' ∧ (ks ≠ [] → SameLoop u u') := by
  cases hks with
  | nil => exact ⟨_, Run.nil, fun hne => absurd rfl hne⟩
  | @cons k k' ks ks' hk hrest =>
    obtain ⟨v, hfirst, hrun⟩ := h.of_cons
    obtain ⟨rfl, hrunning, s, nodes, hst, hsig⟩ := signals_start hfirst
    obtain ⟨hpick, hdraws⟩ := hk
    obtain ⟨_, hlt⟩ := stopped_of_exec hfirst
    have hzero : k'.pick = 0 := hpick.trans (Nat.lt_one_iff.mp hlt)
    have hfirst' : Step (Loop.start id timestamp' channel') k' (Loop.initialized id k'.draws) :=
      exec_initEvent id timestamp' channel' hzero
    have hstart : k'.draws.start = k.draws.start := by
      obtain ⟨sir, cs, hd⟩ := hdraws
      rw [hd]
    let I (u u' : Loop) : Prop := Running id u ∧
      (∃ s nodes, u.state = some s ∧ Nodes s nodes) ∧ SameLoop u u'
    have hpending : (Loop.initialized id k'.draws).pending =
        (Loop.initialized id k.draws).pending := by
      rw [Loop.initialized, hstart]
      rfl
    have hinit : I (Loop.initialized id k.draws) (Loop.initialized id k'.draws) :=
      ⟨hrunning, ⟨s, nodes, hst, hsig.listed⟩, rfl, hpending, rfl, _, _, rfl, rfl,
        agree_initState hdraws⟩
    have hsim : ∀ u u' a a' t, I u u' → SameTurn a a' → Step u a t →
        ∃ t', Step u' a' t' ∧ I t t' := by
      rintro u u' a a' t ⟨hr, hnodes, hsame⟩ ha hstep
      obtain ⟨t', hstep', hsame'⟩ := sameLoop_turn hr hnodes hsame ha hstep
      obtain ⟨hstop, hlt⟩ := stopped_of_exec hstep
      obtain ⟨w, hw, hr'⟩ := running_turn hr hstop hlt
      cases hw.symm.trans hstep
      refine ⟨t', hstep', hr', ?_, hsame'⟩
      obtain ⟨st, hst', hsane, _⟩ := hr'.cell
      obtain ⟨ns, hrep⟩ := hsane.rep
      obtain ⟨nodes', hnodes', _⟩ := hrep.exists_nodes
      exact ⟨st, nodes', hst', hnodes'⟩
    obtain ⟨u', hrun', _, _, hsame⟩ := Run.simulate hsim hinit hrest hrun
    exact ⟨u', Run.cons hfirst' hrun', fun _ => hsame⟩

/-- Other memory. -/
def otherDraws : Draws :=
  { sameDraws with sirData := ⟨.nan, .inf true⟩, channelState := fun _ => 0 }

/-- `garbage_unobserved` for two calls. -/
theorem garbage_unobserved_two_calls : ∃ u u', Run Step (Loop.start 1 0 0) (twoCalls sameDraws) u ∧
    Run Step (Loop.start 1 8 5) (twoCalls otherDraws) u' ∧ SameLoop u u' := by
  obtain ⟨u, h, _⟩ := exists_run Loop.exec (fun _ _ => true) (Loop.start 1 0 0)
    (twoCalls sameDraws) (fun u => !u.stopped) (by decide +kernel)
  have hrun : Run Step (Loop.start 1 0 0) (twoCalls sameDraws) u :=
    h.mono fun _ _ _ hk => hk.2
  have hturn : ∀ n, SameTurn ⟨n, sameDraws⟩ ⟨n, otherDraws⟩ := fun n =>
    ⟨rfl, ⟨.nan, .inf true⟩, fun _ => 0, rfl⟩
  have hks : List.Forall₂ SameTurn (twoCalls sameDraws) (twoCalls otherDraws) :=
    .cons (hturn 0) (.cons (hturn 0) (.cons (hturn 1) (.cons (hturn 0) .nil)))
  have hother : ∃ u', Run Step (Loop.start 1 8 5) (twoCalls otherDraws) u' ∧
      (twoCalls sameDraws ≠ [] → SameLoop u u') := garbage_unobserved hrun hks
  obtain ⟨u', hrun', hsame⟩ := hother
  exact ⟨u, u', hrun, hrun', hsame (List.cons_ne_nil _ _)⟩

end LinuxFibers.Gsm
