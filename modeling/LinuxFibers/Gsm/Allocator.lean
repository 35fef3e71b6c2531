import LinuxFibers.Lib.Run
import LinuxFibers.Gsm.Model
import Mathlib.Data.List.Perm.Subperm
import Mathlib.Data.List.Nodup
import Mathlib.Data.List.Range

/-!
# The representation of the busy channels

A cell has its busy channels twice: as the bits of `channel_state` and as the
nodes of the list `channels`.  `Rep s ns` says that the list of `s` has the nodes
`ns`, each as its address and channel number, and that the numbers are those of
the bits that are set.

* `checkChannel_setChannel` and `checkChannel_resetChannel` are what the macros do
  to the bits.
* `Rep.allocation` and `Rep.deallocation` are the effects of the two functions.
* `allocator_representation` has this for every sequence of calls.
-/

namespace LinuxFibers.Gsm

open LinuxFibers.Lib LinkedList

variable {cs : ℕ → Word} {i j : ℕ}

/-! ## Bits -/

theorem checkChannel_eq (cs : ℕ → Word) (i : ℕ) :
    checkChannel cs i = (cs (i / 32)).getLsbD (i % 32) := by
  have hi : i % 32 < 32 := Nat.mod_lt i (by decide)
  rw [checkChannel, channelBit, ← BitVec.twoPow_eq, BitVec.and_twoPow]
  cases h : (cs (i / 32)).getLsbD (i % 32) with
  | false => rfl
  | true =>
    have hbit : (BitVec.twoPow 32 (i % 32)).getLsbD (i % 32) = true := by
      simp [hi]
    simp only [if_true, bne_iff_ne, ne_eq]
    intro hzero
    rw [hzero] at hbit
    simp at hbit

theorem getLsbD_channelBit (i j : ℕ) :
    (channelBit i).getLsbD (j % 32) = decide (j % 32 = i % 32) := by
  have hi : i % 32 < 32 := Nat.mod_lt i (by decide)
  rw [channelBit, ← BitVec.twoPow_eq, BitVec.getLsbD_twoPow]
  simp [hi, eq_comm]

/-- `SET_CHANNEL` sets one bit. -/
theorem checkChannel_setChannel (cs : ℕ → Word) (i j : ℕ) :
    checkChannel (setChannel cs i) j = (decide (j = i) || checkChannel cs j) := by
  simp only [checkChannel_eq, setChannel]
  by_cases hword : j / 32 = i / 32
  · have hiff : j % 32 = i % 32 ↔ j = i := by omega
    rw [hword, Function.update_self, BitVec.getLsbD_or, getLsbD_channelBit, Bool.or_comm]
    simp only [hiff]
  · have hne : j ≠ i := fun heq => hword (by rw [heq])
    rw [Function.update_of_ne hword]
    simp [hne]

/-- `RESET_CHANNEL` clears one bit. -/
theorem checkChannel_resetChannel (cs : ℕ → Word) (i j : ℕ) :
    checkChannel (resetChannel cs i) j = (decide (j ≠ i) && checkChannel cs j) := by
  have hj : j % 32 < 32 := Nat.mod_lt j (by decide)
  simp only [checkChannel_eq, resetChannel]
  by_cases hword : j / 32 = i / 32
  · have hiff : j % 32 = i % 32 ↔ j = i := by omega
    rw [hword, Function.update_self, BitVec.getLsbD_and, BitVec.getLsbD_not, getLsbD_channelBit,
      Bool.and_comm]
    simp only [hiff, hj, decide_true, Bool.true_and, ne_eq, decide_not]
  · have hne : j ≠ i := fun heq => hword (by rw [heq])
    rw [Function.update_of_ne hword]
    simp [hne]

/-- The numbers below `n` with a property, when one more number has it. -/
theorem filter_range_perm {n : ℕ} {p q : ℕ → Bool} (hi : i < n) (hp : p i = false)
    (hq : ∀ j, q j = (decide (j = i) || p j)) :
    ((List.range n).filter q).Perm (i :: (List.range n).filter p) := by
  have hnd := List.nodup_range (n := n)
  have hmem : i ∉ (List.range n).filter p := by simp [hp]
  refine (List.perm_ext_iff_of_nodup (hnd.filter q)
    (List.nodup_cons.mpr ⟨hmem, hnd.filter p⟩)).mpr fun j => ?_
  simp only [List.mem_filter, List.mem_range, List.mem_cons, hq, Bool.or_eq_true,
    decide_eq_true_eq]
  constructor
  · rintro ⟨hj, rfl | hpj⟩
    · exact Or.inl rfl
    · exact Or.inr ⟨hj, hpj⟩
  · rintro (rfl | ⟨hj, hpj⟩)
    · exact ⟨hi, Or.inl rfl⟩
    · exact ⟨hj, Or.inr hpj⟩

/-! ## The representation -/

/-- The channels whose bit is set. -/
def busyChannels (s : LpState) : List ℕ :=
  (List.range s.channelsPerCell.toNat).filter (checkChannel s.channelState)

/-- The address and the channel number of a node. -/
def label (n : ℕ × Channel) : ℕ × ℤ := (n.1, n.2.channelId)

/-- The list `channels` has the nodes `ns`. -/
def Listed (s : LpState) (ns : List (ℕ × ℤ)) : Prop :=
  ∃ nodes, Seg s.heap none s.channels nodes none ∧ nodes.map label = ns

/-- The nodes `ns` of the list are all nodes that are allocated, and their numbers
are the busy channels. -/
structure Rep (s : LpState) (ns : List (ℕ × ℤ)) : Prop where
  listed : Listed s ns
  nodup : (ns.map Prod.fst).Nodup
  lt : ∀ a ∈ ns.map Prod.fst, a < s.brk
  freed : ∀ a, a ∉ ns.map Prod.fst → s.heap a = none
  busy : (ns.map Prod.snd).Perm ((busyChannels s).map Int.ofNat)

variable {s t : LpState} {ns : List (ℕ × ℤ)} {nodes : List (ℕ × Channel)} {d : Draws} {ch : ℤ}

theorem map_fst_label (h : nodes.map label = ns) : nodes.map Prod.fst = ns.map Prod.fst := by
  rw [← h, List.map_map]
  rfl

theorem mem_busyChannels : i ∈ busyChannels s ↔
    i < s.channelsPerCell.toNat ∧ checkChannel s.channelState i = true := by
  simp [busyChannels]

theorem nodup_busyChannels (s : LpState) : (busyChannels s).Nodup :=
  List.nodup_range.filter _

/-- A free channel whose bit is set. -/
theorem busy_setChannel (hn : t.channelsPerCell = s.channelsPerCell)
    (ht : t.channelState = setChannel s.channelState i) (hi : i < s.channelsPerCell.toNat)
    (hfree : checkChannel s.channelState i = false) :
    (busyChannels t).Perm (i :: busyChannels s) := by
  rw [busyChannels, hn, ht]
  exact filter_range_perm hi hfree (checkChannel_setChannel s.channelState i)

/-- A busy channel whose bit is cleared. -/
theorem busy_resetChannel (hn : t.channelsPerCell = s.channelsPerCell)
    (ht : t.channelState = resetChannel s.channelState i) (hi : i ∈ busyChannels s) :
    (busyChannels s).Perm (i :: busyChannels t) := by
  obtain ⟨hlt, hbusy⟩ := mem_busyChannels.mp hi
  rw [busyChannels, busyChannels, hn, ht]
  refine filter_range_perm hlt ?_ fun j => ?_
  · rw [checkChannel_resetChannel]
    simp
  · rw [checkChannel_resetChannel]
    by_cases hj : j = i
    · simp [hj, hbusy]
    · simp [hj]

/-- A list is not longer than the number of addresses given out. -/
theorem length_le_brk (hnd : (ns.map Prod.fst).Nodup) (hlt : ∀ a ∈ ns.map Prod.fst, a < n) :
    ns.length ≤ n := by
  have hsub : ns.map Prod.fst ⊆ List.range n := fun a ha => List.mem_range.mpr (hlt a ha)
  have hle := (hnd.subperm hsub).length_le
  simpa using hle

/-- `fading_recheck` keeps the list. -/
theorem fadingRecheck_listed (h : Listed s ns) (hnd : (ns.map Prod.fst).Nodup)
    (hlt : ∀ a ∈ ns.map Prod.fst, a < s.brk) (d : Draws) :
    ∃ heap, s.fadingRecheck d = .ok { s with heap := heap } ∧ Listed { s with heap := heap } ns ∧
      ∀ a, a ∉ ns.map Prod.fst → heap a = s.heap a := by
  obtain ⟨nodes, hseg, hlabel⟩ := h
  have hfst := map_fst_label hlabel
  have hlen : nodes.length ≤ s.brk := by
    have hle := length_le_brk hnd hlt
    rwa [← hlabel, List.length_map] at hle
  obtain ⟨heap, _, nodes', hrun, hseg', hlabel', hframe⟩ := hseg.forEach
    (fun a c () => ({ c with sirData := { c.sirData with fading := .fin (d.recheck a) } }, ()))
    (hfst ▸ hnd) hlen () Channel.channelId (fun _ _ _ => rfl)
  refine ⟨heap, ?_, ⟨nodes', hseg', hlabel'.trans hlabel⟩, hfst ▸ hframe⟩
  simp only [LpState.fadingRecheck, hrun]
  rfl

theorem firstFree_eq_some : s.firstFree = some i ↔
    i < s.channelsPerCell.toNat ∧ checkChannel s.channelState i = false ∧
      ∀ j < i, checkChannel s.channelState j = true := by
  simp only [LpState.firstFree, List.find?_range_eq_some, List.mem_range, Bool.not_eq_true',
    Bool.not_eq_false']
  tauto

/-- `allocation` takes the first free channel and puts a node for it on top. -/
theorem Rep.allocation (h : Rep s ns) (hfree : s.firstFree = some i) (d : Draws) :
    ∃ heap, s.allocation d = .ok (i, { s with
        channelState := setChannel s.channelState i
        channels := some s.brk, heap := heap, brk := s.brk + 1 }) ∧
      Rep { s with
        channelState := setChannel s.channelState i
        channels := some s.brk, heap := heap, brk := s.brk + 1 } ((s.brk, (i : ℤ)) :: ns) := by
  obtain ⟨nodes, hseg, hlabel⟩ := h.listed
  have hfst := map_fst_label hlabel
  have hnd : (nodes.map Prod.fst).Nodup := hfst ▸ h.nodup
  have hnew : s.brk ∉ ns.map Prod.fst := fun hmem => Nat.lt_irrefl _ (h.lt _ hmem)
  have hnew' : s.brk ∉ nodes.map Prod.fst := hfst ▸ hnew
  have hlen : nodes.length ≤ s.brk := by
    have hle := length_le_brk h.nodup h.lt
    rwa [← hlabel, List.length_map] at hle
  obtain ⟨h₁, hset, hc₁, hseg₁, hframe₁⟩ := hseg.push hnd hnew' ⟨i, d.sirData⟩
  obtain ⟨h₂, summ, nodes₂, hrun, hseg₂, hlabel₂, hframe₂⟩ := hseg₁.forEach
    (LpState.interference d) hnd hlen (.fin 0) Channel.channelId (fun _ _ _ => rfl)
  have hc₂ : h₂ s.brk = some ⟨⟨i, d.sirData⟩, none, s.channels⟩ := by rw [hframe₂ _ hnew', hc₁]
  let value : Channel := ⟨i, LpState.newSirData d summ d.sirData⟩
  let h₃ : Heap Channel := Function.update h₂ s.brk (some ⟨value, none, s.channels⟩)
  let s₃ : LpState := { s with
    channelState := setChannel s.channelState i
    channels := some s.brk, heap := h₃, brk := s.brk + 1 }
  have hlabel₃ : nodes₂.map label = ns := hlabel₂.trans hlabel
  have hlisted : Listed s₃ ((s.brk, (i : ℤ)) :: ns) := by
    refine ⟨(s.brk, value) :: nodes₂, ⟨rfl, s.channels, Function.update_self _ _ _, ?_⟩, ?_⟩
    · exact hseg₂.update (map_fst_label hlabel₃ ▸ hnew) _
    · simp only [List.map_cons, hlabel₃]
      rfl
  have hnd₃ : (((s.brk, (i : ℤ)) :: ns).map Prod.fst).Nodup := List.nodup_cons.mpr ⟨hnew, h.nodup⟩
  have hlt₃ : ∀ a ∈ ((s.brk, (i : ℤ)) :: ns).map Prod.fst, a < s₃.brk :=
    List.forall_mem_cons.mpr ⟨Nat.lt_succ_self _, fun a ha => Nat.lt_succ_of_lt (h.lt a ha)⟩
  obtain ⟨heap, hcheck, hlisted', hframe⟩ := fadingRecheck_listed hlisted hnd₃ hlt₃ d
  obtain ⟨hi, hclear, _⟩ := firstFree_eq_some.mp hfree
  refine ⟨heap, ?_, hlisted', hnd₃, hlt₃, fun a ha => ?_, ?_⟩
  · simp only [LpState.allocation, hfree, hset, access_ok, hrun, load_of_some hc₂, ok_bind]
    exact congrArg (fun r => r >>= fun s => pure ((i : ℤ), s)) hcheck
  · have hne : a ≠ s.brk ∧ a ∉ ns.map Prod.fst := by
      simpa only [List.map_cons, List.mem_cons, not_or] using ha
    have hne' : a ∉ nodes.map Prod.fst := hfst ▸ hne.2
    show heap a = none
    rw [hframe a ha]
    show Function.update h₂ s.brk _ a = none
    rw [Function.update_of_ne hne.1, hframe₂ a hne', hframe₁ a hne.1 hne', h.freed a hne.2]
  · have hperm := busy_setChannel (s := s) (t := { s₃ with heap := heap }) rfl rfl hi hclear
    exact (h.busy.cons (i : ℤ)).trans (hperm.map Int.ofNat).symm

/-- The removal of a node, in either of its cases. -/
theorem unlink_eq {xs ys : List (ℕ × Channel)} {a : ℕ} {v : Channel}
    (hseg : Seg s.heap none s.channels (xs ++ (a, v) :: ys) none)
    (hnd : ((xs ++ (a, v) :: ys).map Prod.fst).Nodup) :
    ∃ head heap, s.unlink a = .ok { s with channels := head, heap := heap } ∧
      Seg (free heap a) none head (xs ++ ys) none ∧
      ∀ b, b ∉ (xs ++ (a, v) :: ys).map Prod.fst → free heap a b = s.heap b := by
  by_cases hxs : xs = []
  · subst hxs
    obtain ⟨c, heap, hhead, hload, _, _, hset, hseg', hframe⟩ := hseg.pop hnd
    refine ⟨c.prev, heap, ?_, hseg', fun b hb => ?_⟩
    · simp only [LpState.unlink, load_of_some hload, access_ok, ok_bind, hhead, if_true, hset]
      rfl
    · have hb : b ≠ a ∧ b ∉ ys.map Prod.fst := by
        simpa only [List.nil_append, List.map_cons, List.mem_cons, not_or] using hb
      exact hframe b hb.1 hb.2
  · obtain ⟨c, h₁, h₂, hload, _, hhead, hset₁, hload₁, hset₂, hseg', hframe⟩ := hseg.unlink hxs hnd
    refine ⟨s.channels, h₂, ?_, hseg', hframe⟩
    simp only [LpState.unlink, load_of_some hload, access_ok, ok_bind, hhead, if_false, hset₁,
      load_of_some hload₁, hset₂]
    rfl

/-- `deallocation` removes the node of its channel and clears its bit. -/
theorem Rep.deallocation (h : Rep s ns) (hch : ch ∈ ns.map Prod.snd) (d : Draws) :
    ∃ xs a ys head heap, ns = xs ++ (a, ch) :: ys ∧
      s.deallocation ch d = .ok { s with
        channelState := resetChannel s.channelState ch.toNat
        channels := head, heap := heap } ∧
      Rep { s with
        channelState := resetChannel s.channelState ch.toNat
        channels := head, heap := heap } (xs ++ ys) := by
  obtain ⟨nodes, hseg, hlabel⟩ := h.listed
  have hlen : nodes.length ≤ s.brk := by
    have hle := length_le_brk h.nodup h.lt
    rwa [← hlabel, List.length_map] at hle
  have hfind := hseg.find? (fun c => c.channelId == ch) hlen
  have hsome : (nodes.find? fun n => n.2.channelId == ch).isSome = true := by
    rw [← hlabel, List.map_map] at hch
    obtain ⟨n, hn, heq⟩ := List.mem_map.mp hch
    exact List.find?_isSome.mpr ⟨n, hn, beq_iff_eq.mpr heq⟩
  obtain ⟨⟨a, v⟩, hn⟩ := Option.isSome_iff_exists.mp hsome
  obtain ⟨hv, xs, ys, hsplit, _⟩ := List.find?_eq_some_iff_append.mp hn
  have hv : v.channelId = ch := beq_iff_eq.mp hv
  have hns : ns = xs.map label ++ (a, ch) :: ys.map label := by
    rw [← hlabel, hsplit, List.map_append, List.map_cons, label, hv]
  have hnd : (nodes.map Prod.fst).Nodup := map_fst_label hlabel ▸ h.nodup
  obtain ⟨head, heap, hunlink, hseg', hframe⟩ := unlink_eq (hsplit ▸ hseg) (hsplit ▸ hnd)
  let s₁ : LpState := { s with
    channelState := resetChannel s.channelState ch.toNat, channels := head, heap := free heap a }
  have hlisted : Listed s₁ (xs.map label ++ ys.map label) :=
    ⟨xs ++ ys, hseg', List.map_append⟩
  have hsub : (xs.map label ++ ys.map label).Sublist ns := by
    rw [hns]
    exact (List.Sublist.refl _).append (List.sublist_cons_self _ _)
  have hnd₁ := h.nodup.sublist (hsub.map Prod.fst)
  have hlt₁ : ∀ b ∈ (xs.map label ++ ys.map label).map Prod.fst, b < s₁.brk :=
    fun b hb => h.lt b ((hsub.map Prod.fst).subset hb)
  obtain ⟨heap', hcheck, hlisted', hframe'⟩ := fadingRecheck_listed hlisted hnd₁ hlt₁ d
  refine ⟨xs.map label, a, ys.map label, head, heap', hns, ?_, hlisted', hnd₁, hlt₁,
    fun b hb => ?_, ?_⟩
  · simp only [LpState.deallocation, hfind, hn, Option.map_some, access_ok, ok_bind, hunlink]
    exact hcheck
  · show heap' b = none
    rw [hframe' b hb]
    show free heap a b = none
    by_cases hba : b = a
    · rw [hba, free, Function.update_self]
    · have hout : b ∉ ns.map Prod.fst := by
        rw [hns]
        simp only [List.map_append, List.map_cons, List.mem_append, List.mem_cons] at hb ⊢
        tauto
      rw [hframe b (hsplit ▸ map_fst_label hlabel ▸ hout), h.freed b hout]
  · have hmem : ch ∈ (busyChannels s).map Int.ofNat := h.busy.mem_iff.mp hch
    obtain ⟨i, hi, heq⟩ := List.mem_map.mp hmem
    have hnat : ch.toNat = i := by
      rw [← heq]
      rfl
    have hperm := (busy_resetChannel (s := s) (t := { s₁ with heap := heap' }) rfl
      (by rw [← hnat]) hi).map Int.ofNat
    have hold : (ch :: (xs.map label ++ ys.map label).map Prod.snd).Perm
        ((busyChannels s).map Int.ofNat) := by
      refine List.Perm.trans ?_ h.busy
      rw [hns, List.map_append, List.map_append, List.map_cons]
      exact List.perm_middle.symm
    rw [List.map_cons, heq] at hperm
    exact (hold.trans hperm).cons_inv

/-! ## Sequences of calls -/

/-- A call of `allocation` or `deallocation`. -/
inductive Call where
  | allocation (d : Draws)
  | deallocation (ch : ℤ) (d : Draws)

/-- Some channel is free for an `allocation`, and the channel of a `deallocation`
is busy. -/
def Call.allowed (s : LpState) : Call → Bool
  | .allocation _ =>
      (List.range s.channelsPerCell.toNat).any fun i => !checkChannel s.channelState i
  | .deallocation ch _ => ((busyChannels s).map Int.ofNat).contains ch

/-- The state after a call. -/
def Call.exec (s : LpState) : Call → Except Fault LpState
  | .allocation d => do
      let (_, t) ← s.allocation d
      return t
  | .deallocation ch d => s.deallocation ch d

/-- The calls of the model. -/
def CallStep (s : LpState) (c : Call) (t : LpState) : Prop :=
  c.allowed s = true ∧ c.exec s = .ok t

/-- The law of the allocator.  `Listed` has the list walked through `prev` from its
head, with `next` back from each node to the one before and null at both ends. -/
structure Allocator (s : LpState) : Prop where
  represented : ∃ ns, Listed s ns ∧ (ns.map Prod.fst).Nodup ∧ (ns.map Prod.snd).Nodup ∧
    ∀ ch, ch ∈ ns.map Prod.snd ↔
      ∃ i < s.channelsPerCell.toNat, checkChannel s.channelState i = true ∧ ch = i
  allocates : ∀ d, (∃ i < s.channelsPerCell.toNat, checkChannel s.channelState i = false) →
    ∃ (i : ℕ) (t : LpState), s.allocation d = .ok (i, t) ∧ i < s.channelsPerCell.toNat ∧
      checkChannel s.channelState i = false ∧
      (∀ j < i, checkChannel s.channelState j = true) ∧
      ∀ j, checkChannel t.channelState j = (decide (j = i) || checkChannel s.channelState j)
  deallocates : ∀ i < s.channelsPerCell.toNat, checkChannel s.channelState i = true → ∀ d,
    ∃ t, s.deallocation i d = .ok t ∧
      (∀ j, checkChannel t.channelState j = (decide (j ≠ i) && checkChannel s.channelState j)) ∧
      ∃ xs a ys, Listed s (xs ++ (a, (i : ℤ)) :: ys) ∧ Listed t (xs ++ ys)

theorem busyChannels_initState (d : Draws) : busyChannels (initState d) = [] := by
  refine List.filter_eq_nil_iff.mpr fun i hi => ?_
  have hi : i < 1000 := List.mem_range.mp hi
  have hword : (initState d).channelState (i / 32) = 0 := by
    show (if i / 32 < (BitVec.ofInt 32 1000).toNat / 32 + 1 then (0 : Word) else _) = 0
    have hval : (BitVec.ofInt 32 1000).toNat = 1000 := by decide
    rw [if_pos (by omega)]
  simp [checkChannel, hword]

theorem rep_initState (d : Draws) : Rep (initState d) [] where
  listed := ⟨[], rfl, rfl⟩
  nodup := List.nodup_nil
  lt := by simp
  freed := fun _ _ => rfl
  busy := by
    rw [busyChannels_initState]
    rfl

theorem mem_busy_iff : ch ∈ (busyChannels s).map Int.ofNat ↔
    ∃ i < s.channelsPerCell.toNat, checkChannel s.channelState i = true ∧ ch = i := by
  simp only [List.mem_map, mem_busyChannels]
  constructor
  · rintro ⟨i, ⟨hi, hbusy⟩, rfl⟩
    exact ⟨i, hi, hbusy, rfl⟩
  · rintro ⟨i, hi, hbusy, rfl⟩
    exact ⟨i, ⟨hi, hbusy⟩, rfl⟩

theorem exists_firstFree
    (h : ∃ i < s.channelsPerCell.toNat, checkChannel s.channelState i = false) :
    ∃ i, s.firstFree = some i := by
  obtain ⟨i, hi, hfree⟩ := h
  have hsome : s.firstFree.isSome = true :=
    List.find?_isSome.mpr ⟨i, List.mem_range.mpr hi, by simp [hfree]⟩
  exact Option.isSome_iff_exists.mp hsome

/-- A call keeps the representation. -/
theorem rep_step {c : Call} (h : ∃ ns, Rep s ns) (hc : CallStep s c t) :
    ∃ ns, Rep t ns := by
  obtain ⟨ns, hrep⟩ := h
  obtain ⟨hallowed, hexec⟩ := hc
  cases c with
  | allocation d =>
    obtain ⟨i, hi, hfree⟩ := List.any_eq_true.mp hallowed
    obtain ⟨j, hfirst⟩ := exists_firstFree ⟨i, List.mem_range.mp hi, by simpa using hfree⟩
    obtain ⟨heap, halloc, hrep'⟩ := hrep.allocation hfirst d
    simp only [Call.exec, halloc, ok_bind] at hexec
    cases hexec
    exact ⟨_, hrep'⟩
  | deallocation ch d =>
    have hch : ch ∈ ns.map Prod.snd := hrep.busy.mem_iff.mpr (List.contains_iff_mem.mp hallowed)
    obtain ⟨xs, _, ys, _, _, _, hdealloc, hrep'⟩ := hrep.deallocation hch d
    have heq := hdealloc.symm.trans hexec
    cases heq
    exact ⟨_, hrep'⟩

theorem Rep.allocator (h : Rep s ns) : Allocator s where
  represented := by
    have hnd := (nodup_busyChannels s).map Int.ofNat_injective
    exact ⟨ns, h.listed, h.nodup, h.busy.nodup_iff.mpr hnd, fun ch =>
      h.busy.mem_iff.trans mem_busy_iff⟩
  allocates d hfree := by
    obtain ⟨i, hfirst⟩ := exists_firstFree hfree
    obtain ⟨heap, halloc, _⟩ := h.allocation hfirst d
    obtain ⟨hi, hclear, hlow⟩ := firstFree_eq_some.mp hfirst
    exact ⟨i, _, halloc, hi, hclear, hlow, checkChannel_setChannel s.channelState i⟩
  deallocates i hi hbusy d := by
    have hch : (i : ℤ) ∈ ns.map Prod.snd :=
      h.busy.mem_iff.mpr (mem_busy_iff.mpr ⟨i, hi, hbusy, rfl⟩)
    obtain ⟨xs, a, ys, head, heap, hns, hdealloc, hrep⟩ := h.deallocation hch d
    exact ⟨_, hdealloc, checkChannel_resetChannel s.channelState i, xs, a, ys,
      hns ▸ h.listed, hrep.listed⟩

/-- After every sequence of calls, the list and the bits have the same channels,
`allocation` takes the lowest free one, and `deallocation` gives up its channel
only. -/
theorem allocator_representation {d : Draws} {cs : List Call}
    (h : Run CallStep (initState d) cs s) : Allocator s := by
  have hrep := h.invariant (I := fun s => ∃ ns, Rep s ns) (fun _ _ _ => rep_step)
    ⟨[], rep_initState d⟩
  obtain ⟨ns, hns⟩ := hrep
  exact hns.allocator

/-- Draws that are all the same. -/
def sameDraws : Draws :=
  ⟨1, 1, 1, fun _ => 1, fun _ => 1, 1, 1, fun _ => 1, ⟨.fin 1, .fin 1⟩, fun _ => 0xFFFFFFFF⟩

/-- Three channels are taken, the middle one and the last are given up, and the
lowest is taken again. -/
theorem allocator_representation_reuse : ∃ s, Run CallStep (initState sameDraws)
    [.allocation sameDraws, .allocation sameDraws, .allocation sameDraws,
      .deallocation 1 sameDraws, .deallocation 0 sameDraws, .allocation sameDraws] s ∧
    Allocator s ∧ s.channels = some 3 := by
  obtain ⟨s, h, hp⟩ := exists_run (fun s c => Call.exec s c) (fun s c => Call.allowed s c)
    (initState sameDraws) [.allocation sameDraws, .allocation sameDraws, .allocation sameDraws,
      .deallocation 1 sameDraws, .deallocation 0 sameDraws, .allocation sameDraws]
    (fun s => s.channels == some 3) (by decide +kernel)
  exact ⟨s, h, allocator_representation h, beq_iff_eq.mp hp⟩

end LinuxFibers.Gsm
