import LinuxFibers.Module.Directory
import Mathlib.Logic.Relation

/-!
# The directory while fibers are made

`fibers_readdir` and `fibers_lookup` read `fiber_id` under a lock and then walk
over the fibers without it, while other threads of the process take ids and
insert fibers.  `DirRace` is one process record with any number of makers and
walks.  The steps are those at which the record is read or written: a maker takes
the next id or inserts its fiber, a walk reads `fiber_id`, reads the head of a
chain, or writes an entry and goes on to the next fiber of the chain.

A walk that meets a fiber whose id was taken after the walk began writes behind
its array (`entry_behind_array`).  It does not happen when no such fiber is
inserted in a bucket that the walk has still to enter (`writes_in_bounds`).
-/

namespace LinuxFibers.Module

open LinuxFibers.Lib HashTable

/-! ## Walks and makers -/

/-- The request that makes a fiber. -/
inductive Maker where
  | convert (cur : Task) (env : Env)
  | create (cur : Task) (args : CreateArg)

/-- The fiber that a request makes with an index. -/
def Maker.fiber : Maker → ℕ → FiberArg
  | .convert cur env, index => convertedFiber cur env index
  | .create cur args, index => createdFiber cur args index

/-- Where a call is in `hash_for_each_rcu`: about to read the head of a chain, or
at a fiber whose entry it writes next. -/
inductive Cursor where
  | enter (bucket : ℕ)
  | visit (bucket addr : ℕ)
  | done

/-- A call of `fibers_readdir` or `fibers_lookup`, with the indices of `ents_fiber`
that it has written, the newest first. -/
structure Walk where
  numFibers : ℕ
  cursor : Cursor
  writes : List ℕ

/-- The next step of a call. -/
def Walk.step (fibers : HashTable FiberArg) (w : Walk) : Option Walk :=
  match w.cursor with
  | .enter bucket =>
      if bucket < fiberBuckets then
        match fibers.first bucket with
        | some a => some { w with cursor := .visit bucket a }
        | none => some { w with cursor := .enter (bucket + 1) }
      else some { w with cursor := .done }
  | .visit bucket a =>
      match fibers.deref a with
      | none => none
      | some fiber =>
          let cursor := match fibers.next bucket a with
            | some b => Cursor.visit bucket b
            | none => Cursor.enter (bucket + 1)
          some { w with cursor := cursor, writes := fiber.index :: w.writes }
  | .done => none

/-- The record of a process, the fibers that have an index and are not inserted
yet, by the thread that makes them, and the calls.  A fiber gets its address when
it is inserted, since nobody else knows it before. -/
structure DirRace where
  process : ProcessArg
  brk : ℕ
  making : Pid → Option FiberArg
  walks : List Walk

/-- Nobody has begun yet. -/
def DirRace.start (brk : ℕ) (process : ProcessArg) : DirRace := ⟨process, brk, fun _ => none, []⟩

/-- A step of a maker, a new call, or a step of a call. -/
inductive DirAction where
  | number (pid : Pid) (maker : Maker)
  | insert (pid : Pid)
  | call
  | walk (w : ℕ)

/-- A thread has taken the next id for the fiber that it makes. -/
def DirRace.numbered (s : DirRace) (pid : Pid) (maker : Maker) : DirRace :=
  let index := s.process.fiberId
  { s with
    process := { s.process with fiberId := index + 1 }
    making := Function.update s.making pid (some (maker.fiber index)) }

/-- A thread has inserted its fiber in the table. -/
def DirRace.inserted (s : DirRace) (pid : Pid) (fiber : FiberArg) : DirRace :=
  let fibers := s.process.fibers.hashAdd (fiberBucket fiber.index) s.brk fiber
  { s with
    process := { s.process with fibers := fibers }
    brk := s.brk + 1
    making := Function.update s.making pid none }

/-- One step.  It gives an error when it is not the turn of the step. -/
def DirRace.exec (s : DirRace) : DirAction → Except Unit DirRace
  | .number pid maker =>
      match s.making pid with
      | some _ => .error ()
      | none => .ok (s.numbered pid maker)
  | .insert pid =>
      match s.making pid with
      | none => .error ()
      | some fiber => .ok (s.inserted pid fiber)
  | .call => .ok { s with walks := s.walks ++ [⟨s.process.fiberId, .enter 0, []⟩] }
  | .walk w =>
      match s.walks[w]?.bind (Walk.step s.process.fibers) with
      | none => .error ()
      | some walk => .ok { s with walks := s.walks.set w walk }

/-- The steps in any order. -/
def DirStep (s : DirRace) (a : DirAction) (t : DirRace) : Prop := s.exec a = .ok t

/-- Whether a call has still to enter the bucket. -/
def Cursor.ahead (bucket : ℕ) : Cursor → Bool
  | .enter b => b ≤ bucket
  | .visit b _ => b < bucket
  | .done => false

/-- A fiber is not inserted where a call will meet it that has no entry for it. -/
def staysBehind (s : DirRace) : DirAction → Bool
  | .insert pid =>
      match s.making pid with
      | none => true
      | some fiber => s.walks.all fun w =>
          decide (fiber.index < w.numFibers) || !w.cursor.ahead (fiberBucket fiber.index)
  | _ => true

/-- The steps under this condition. -/
def BehindStep (s : DirRace) (a : DirAction) (t : DirRace) : Prop :=
  staysBehind s a = true ∧ DirStep s a t

variable {s t : DirRace} {fibers : HashTable FiberArg} {w w' : Walk} {n b a : ℕ}

/-! ## Without other steps -/

theorem fiber_index (maker : Maker) (index : ℕ) : (maker.fiber index).index = index := by
  cases maker <;> rfl

/-- A maker that nobody interrupts changes the record as the request of one step
does. -/
theorem solo_make {pid : Pid} (maker : Maker) (hfree : s.making pid = none) :
    ∃ t u, DirStep s (.number pid maker) t ∧ DirStep t (.insert pid) u ∧
      u.process = s.process.create s.brk (maker.fiber s.process.fiberId) := by
  refine ⟨s.numbered pid maker,
    (s.numbered pid maker).inserted pid (maker.fiber s.process.fiberId), ?_, ?_, rfl⟩
  · simp only [DirStep, DirRace.exec, hfree]
  · simp only [DirStep, DirRace.exec, DirRace.numbered, Function.update_self]

/-- One step of a call in a table that does not change. -/
def WalkOn (fibers : HashTable FiberArg) (w w' : Walk) : Prop := w.step fibers = some w'

/-- A call that nobody interrupts, from a fiber to the end of its chain. -/
theorem walkOn_chain (hu : fibers.UniqueAddr) {rest pre : List (Entry FiberArg)}
    {e : Entry FiberArg} {ws : List ℕ} (hc : fibers.chain b = pre ++ e :: rest) :
    Relation.ReflTransGen (WalkOn fibers) ⟨n, .visit b e.addr, ws⟩
      ⟨n, .enter (b + 1), ((e :: rest).map fun x => x.obj.index).reverse ++ ws⟩ := by
  have hmem : e ∈ fibers := by
    have he : e ∈ fibers.chain b := by simp [hc]
    exact List.mem_of_mem_filter he
  induction rest generalizing pre e ws with
  | nil =>
    apply Relation.ReflTransGen.single
    simp only [WalkOn, Walk.step, deref_of_mem hu hmem, next_eq hu hc]
    rfl
  | cons x rest ih =>
    have hstep :
        WalkOn fibers ⟨n, .visit b e.addr, ws⟩ ⟨n, .visit b x.addr, e.obj.index :: ws⟩ := by
      simp only [WalkOn, Walk.step, deref_of_mem hu hmem, next_eq hu hc]
      rfl
    have hc' : fibers.chain b = (pre ++ [e]) ++ x :: rest := by
      rw [hc, List.append_assoc, List.singleton_append]
    have hx : x ∈ fibers := by
      have hx : x ∈ fibers.chain b := by simp [hc]
      exact List.mem_of_mem_filter hx
    have hrest : Relation.ReflTransGen (WalkOn fibers)
        ⟨n, .visit b x.addr, e.obj.index :: ws⟩ _ := ih hc' hx
    refine .head hstep ?_
    simpa using hrest

theorem walkOn_bucket (hu : fibers.UniqueAddr) (hb : b < fiberBuckets) (ws : List ℕ) :
    Relation.ReflTransGen (WalkOn fibers) ⟨n, .enter b, ws⟩
      ⟨n, .enter (b + 1), ((fibers.chain b).map fun x => x.obj.index).reverse ++ ws⟩ := by
  cases hc : fibers.chain b with
  | nil =>
    apply Relation.ReflTransGen.single
    simp only [WalkOn, Walk.step, if_pos hb, first, hc]
    rfl
  | cons e rest =>
    have hstep : WalkOn fibers ⟨n, .enter b, ws⟩ ⟨n, .visit b e.addr, ws⟩ := by
      simp only [WalkOn, Walk.step, if_pos hb, first, hc]
      rfl
    have hc' : fibers.chain b = [] ++ e :: rest := hc
    exact .head hstep (walkOn_chain hu hc')

/-- A call that nobody interrupts writes the entries that `entsFiber` fills in, in
the same order. -/
theorem solo_walk (hu : fibers.UniqueAddr) :
    Relation.ReflTransGen (WalkOn fibers) ⟨n, .enter 0, []⟩
      ⟨n, .done, ((fibers.forEach fiberBuckets).map fun x => x.obj.index).reverse⟩ := by
  have hupto : ∀ b ≤ fiberBuckets, Relation.ReflTransGen (WalkOn fibers) ⟨n, .enter 0, []⟩
      ⟨n, .enter b, ((fibers.forEach b).map fun x => x.obj.index).reverse⟩ := by
    intro b hb
    induction b with
    | zero => exact .refl
    | succ b ih =>
      have hsplit : ((fibers.forEach (b + 1)).map fun x => x.obj.index).reverse =
          ((fibers.chain b).map fun x => x.obj.index).reverse ++
            ((fibers.forEach b).map fun x => x.obj.index).reverse := by
        simp [forEach, List.range_succ]
      rw [hsplit]
      exact (ih (by omega)).trans (walkOn_bucket hu (by omega) _)
  refine (hupto fiberBuckets (Nat.le_refl _)).trans (.single ?_)
  simp only [WalkOn, Walk.step, Nat.lt_irrefl, if_false]

/-! ## The invariant -/

/-- A call has written entries of its array only, and every fiber that it has
still to visit has an entry. -/
structure Walk.Inside (fibers : HashTable FiberArg) (w : Walk) : Prop where
  writes : ∀ i ∈ w.writes, i < w.numFibers
  ahead : ∀ e ∈ fibers, w.cursor.ahead e.bucket = true → e.obj.index < w.numFibers
  visit : ∀ b a, w.cursor = .visit b a → ∃ pre e rest, fibers.chain b = pre ++ e :: rest ∧
    e.addr = a ∧ ∀ x ∈ e :: rest, x.obj.index < w.numFibers

/-- The table of the record is well formed, and all ids come from `fiber_id`. -/
structure DirRace.Inside (s : DirRace) : Prop where
  unique : s.process.fibers.UniqueAddr
  addr_lt : ∀ e ∈ s.process.fibers, e.addr < s.brk
  index_lt : ∀ e ∈ s.process.fibers, e.obj.index < s.process.fiberId
  making_lt : ∀ pid fiber, s.making pid = some fiber → fiber.index < s.process.fiberId
  walks : ∀ w ∈ s.walks, w.Inside s.process.fibers

theorem mem_of_chain {pre rest : List (Entry FiberArg)} {e x : Entry FiberArg}
    (hc : fibers.chain b = pre ++ e :: rest) (hx : x ∈ e :: rest) : x ∈ fibers ∧ x.bucket = b := by
  have hmem : x ∈ fibers.chain b := by
    rw [hc]
    exact List.mem_append_right _ hx
  simpa [chain] using hmem

/-- A call that is about to enter a bucket. -/
theorem Walk.Inside.enter (hw : w.Inside fibers) {ws : List ℕ} {b : ℕ}
    (hws : ∀ i ∈ ws, i < w.numFibers) (hb : ∀ c, b ≤ c → w.cursor.ahead c = true) :
    Walk.Inside fibers ⟨w.numFibers, .enter b, ws⟩ where
  writes := hws
  ahead := fun e he hahead => hw.ahead e he (hb e.bucket (of_decide_eq_true hahead))
  visit := fun _ _ h => by cases h

/-- A call that goes on to a fiber which has an entry, as have those behind it. -/
theorem Walk.Inside.goto (hw : w.Inside fibers) {ws : List ℕ} {b : ℕ}
    {pre rest : List (Entry FiberArg)} {e : Entry FiberArg} (hws : ∀ i ∈ ws, i < w.numFibers)
    (hb : ∀ c, b < c → w.cursor.ahead c = true) (hc : fibers.chain b = pre ++ e :: rest)
    (hlt : ∀ x ∈ e :: rest, x.obj.index < w.numFibers) :
    Walk.Inside fibers ⟨w.numFibers, .visit b e.addr, ws⟩ where
  writes := hws
  ahead := fun x hx hahead => hw.ahead x hx (hb x.bucket (of_decide_eq_true hahead))
  visit := by
    intro b' a' h
    cases h
    exact ⟨pre, e, rest, hc, rfl, hlt⟩

theorem Walk.Inside.finish (hw : w.Inside fibers) :
    Walk.Inside fibers ⟨w.numFibers, .done, w.writes⟩ where
  writes := hw.writes
  ahead := fun _ _ h => by cases h
  visit := fun _ _ h => by cases h

/-- A new call has an entry for every fiber in the table. -/
theorem Walk.Inside.call (h : ∀ e ∈ fibers, e.obj.index < n) :
    Walk.Inside fibers ⟨n, .enter 0, []⟩ where
  writes := fun _ h => by cases h
  ahead := fun e he _ => h e he
  visit := fun _ _ h => by cases h

/-- One step of a call. -/
theorem Walk.Inside.step (hu : fibers.UniqueAddr) (hw : w.Inside fibers)
    (h : w.step fibers = some w') : w'.Inside fibers := by
  unfold Walk.step at h
  split at h
  · rename_i b hcursor
    split at h
    · split at h
      · rename_i a hfirst
        cases h
        obtain ⟨e, rest, hc, rfl⟩ := of_first hfirst
        have hc' : fibers.chain b = [] ++ e :: rest := hc
        apply hw.goto hw.writes _ hc'
        · intro x hx
          obtain ⟨hmem, hbucket⟩ := mem_of_chain hc' hx
          apply hw.ahead x hmem
          rw [hcursor, hbucket]
          exact decide_eq_true (Nat.le_refl b)
        · intro c hlt
          rw [hcursor]
          exact decide_eq_true (Nat.le_of_lt hlt)
      · cases h
        apply hw.enter hw.writes
        intro c hle
        rw [hcursor]
        exact decide_eq_true (by omega)
    · cases h
      exact hw.finish
  · rename_i b a hcursor
    obtain ⟨pre, e, rest, hc, rfl, hlt⟩ := hw.visit b a hcursor
    have he : e ∈ fibers := (mem_of_chain hc (List.mem_cons_self ..)).1
    have hahead : ∀ c, b < c → w.cursor.ahead c = true := by
      intro c hlt
      rw [hcursor]
      exact decide_eq_true hlt
    have hwrites : ∀ i ∈ e.obj.index :: w.writes, i < w.numFibers := by
      intro i hi
      rcases List.mem_cons.mp hi with rfl | hi
      · exact hlt e (List.mem_cons_self ..)
      · exact hw.writes i hi
    rw [deref_of_mem hu he, next_eq hu hc] at h
    cases rest with
    | nil =>
      cases h
      exact hw.enter hwrites fun c hle => hahead c (by omega)
    | cons x rest =>
      cases h
      have hc' : fibers.chain b = (pre ++ [e]) ++ x :: rest := by
        rw [hc, List.append_assoc, List.singleton_append]
      exact hw.goto hwrites hahead hc' fun y hy => hlt y (List.mem_cons_of_mem e hy)
  · cases h

/-- The insertion of a fiber that the call has an entry for, or has passed. -/
theorem Walk.Inside.insert (hw : w.Inside fibers) {f : FiberArg}
    (hsafe : f.index < w.numFibers ∨ w.cursor.ahead b = false) :
    w.Inside (fibers.hashAdd b a f) where
  writes := hw.writes
  ahead := by
    intro e he hahead
    rcases mem_hashAdd.mp he with rfl | he
    · rcases hsafe with hlt | hpassed
      · exact hlt
      · change w.cursor.ahead b = true at hahead
        rw [hpassed] at hahead
        cases hahead
    · exact hw.ahead e he hahead
  visit := by
    intro c a' hcursor
    obtain ⟨pre, e, rest, hc, ha, hlt⟩ := hw.visit c a' hcursor
    -- the new fiber is before the one that the call is at
    by_cases hbc : b = c
    · refine ⟨⟨b, a, f⟩ :: pre, e, rest, ?_, ha, hlt⟩
      rw [chain_hashAdd, if_pos hbc, hc, List.cons_append]
    · refine ⟨pre, e, rest, ?_, ha, hlt⟩
      rw [chain_hashAdd, if_neg hbc, hc]

theorem inside_step {m : DirAction} (hs : s.Inside) (h : BehindStep s m t) : t.Inside := by
  obtain ⟨hbehind, h⟩ := h
  cases m with
  | number pid maker =>
    simp only [DirStep, DirRace.exec] at h
    split at h
    · cases h
    · cases h
      refine ⟨hs.unique, hs.addr_lt, ?_, ?_, hs.walks⟩
      · intro e he
        exact Nat.lt_succ_of_lt (hs.index_lt e he)
      · intro q fiber hq
        change Function.update s.making pid _ q = some fiber at hq
        by_cases hqp : q = pid
        · subst hqp
          rw [Function.update_self, Option.some.injEq] at hq
          rw [← hq, fiber_index]
          exact Nat.lt_succ_self _
        · rw [Function.update_of_ne hqp] at hq
          exact Nat.lt_succ_of_lt (hs.making_lt q fiber hq)
  | insert pid =>
    simp only [DirStep, DirRace.exec] at h
    split at h
    · cases h
    · rename_i fiber hmaking
      cases h
      simp only [staysBehind, hmaking, List.all_eq_true, Bool.or_eq_true, decide_eq_true_eq,
        Bool.not_eq_true'] at hbehind
      refine ⟨?_, ?_, ?_, ?_, fun w hw => (hs.walks w hw).insert (hbehind w hw)⟩
      · apply hs.unique.hashAdd
        intro e he heq
        have hlt := hs.addr_lt e he
        omega
      · intro e he
        rcases mem_hashAdd.mp he with rfl | he
        · exact Nat.lt_succ_self s.brk
        · exact Nat.lt_succ_of_lt (hs.addr_lt e he)
      · intro e he
        rcases mem_hashAdd.mp he with rfl | he
        · exact hs.making_lt pid fiber hmaking
        · exact hs.index_lt e he
      · intro q g hq
        change Function.update s.making pid _ q = some g at hq
        by_cases hqp : q = pid
        · rw [hqp, Function.update_self] at hq
          cases hq
        · rw [Function.update_of_ne hqp] at hq
          exact hs.making_lt q g hq
  | call =>
    cases h
    refine ⟨hs.unique, hs.addr_lt, hs.index_lt, hs.making_lt, ?_⟩
    intro w hw
    rcases List.mem_append.mp hw with hw | hw
    · exact hs.walks w hw
    · rw [List.mem_singleton.mp hw]
      exact Walk.Inside.call hs.index_lt
  | walk i =>
    simp only [DirStep, DirRace.exec] at h
    split at h
    · cases h
    · rename_i w' hstep
      cases h
      obtain ⟨w, hget, hstep⟩ := Option.bind_eq_some_iff.mp hstep
      refine ⟨hs.unique, hs.addr_lt, hs.index_lt, hs.making_lt, ?_⟩
      intro x hx
      rcases List.mem_or_eq_of_mem_set hx with hx | rfl
      · exact hs.walks x hx
      · exact (hs.walks w (List.mem_of_getElem? hget)).step hs.unique hstep

/-- The record of a process in a reachable state, when no call has begun. -/
theorem inside_start {context : Pid × Pid → Context} {as : List Action} {k : System} {id : Pid}
    {p : ProcessArg} (h : Run Step (System.init context) as k) (hp : k.kernel.record id = some p) :
    (DirRace.start k.kernel.brk p).Inside where
  unique := ((kernelOk_run h).linked id p hp).fibers_unique
  addr_lt := ((kernelOk_run h).linked id p hp).fibers_lt
  index_lt := ((kernelOk_run h).linked id p hp).index_lt
  making_lt := fun _ _ h => by cases h
  walks := fun _ h => by cases h

/-- When no fiber is inserted where a call will meet it that has no entry for it,
every index that a call writes is below the number of its entries. -/
theorem writes_in_bounds {context : Pid × Pid → Context} {as : List Action} {k : System} {id : Pid}
    {p : ProcessArg} {tr : List DirAction} (h : Run Step (System.init context) as k)
    (hp : k.kernel.record id = some p)
    (hrace : Run BehindStep (DirRace.start k.kernel.brk p) tr s) :
    ∀ w ∈ s.walks, ∀ i ∈ w.writes, i < w.numFibers := by
  have hs : s.Inside := hrace.invariant (I := DirRace.Inside)
    (fun _ _ _ hs ha => inside_step hs ha) (inside_start h hp)
  intro w hw
  exact (hs.walks w hw).writes

/-- The steps of a race in a reachable state, under a condition. -/
theorem exists_dirRun (ok : DirRace → DirAction → Bool) (as : List Action) (tr : List DirAction)
    (q : DirRace → Bool)
    (h : (replay System.exec (fun _ _ => true) (System.init zeroContext) as).any (fun k =>
      (k.kernel.record 7).any fun p =>
        (replay DirRace.exec ok (DirRace.start k.kernel.brk p) tr).any q) = true) :
    ∃ k p s, Run Step (System.init zeroContext) as k ∧ k.kernel.record 7 = some p ∧
      Run (fun s a t => ok s a = true ∧ DirStep s a t) (DirRace.start k.kernel.brk p) tr s ∧
      q s = true := by
  obtain ⟨k, hk, hp⟩ := exists_run (System.init zeroContext) as _ h
  obtain ⟨p, hp, hs⟩ := (Option.any_eq_true _ _).mp hp
  obtain ⟨s, hs, hq⟩ := Lib.exists_run DirRace.exec ok _ tr q hs
  exact ⟨k, p, s, hk, hp, hs, hq⟩

/-- The `CONVERTTOFIBER` of thread 8 of process 7. -/
def maker8 : Maker := .convert ⟨zeroContext (7, 8), 7, 8⟩ Env.plain

/-- `writes_in_bounds` for a call that begins when a fiber has its index, and meets it
because it is inserted during the walk. -/
theorem writes_in_bounds_during_insert : ∃ (k : System) (p : ProcessArg) (tr : List DirAction)
    (s : DirRace) (w : Walk), k.kernel.record 7 = some p ∧
    Run BehindStep (DirRace.start k.kernel.brk p) tr s ∧ w ∈ s.walks ∧ w.writes = [1, 0] ∧
    ∀ i ∈ w.writes, i < w.numFibers := by
  obtain ⟨k, p, s, hk, hp, hs, hq⟩ := exists_dirRun staysBehind
    [.ioctl 7 7 .convertToFiber 0 Env.plain]
    ([.number 8 maker8, .call, .walk 0, .walk 0, .insert 8] ++ List.replicate 392 (.walk 0))
    (fun s => s.walks.any fun w => w.writes == [1, 0]) (by decide +kernel)
  obtain ⟨w, hw, hwrites⟩ := List.any_eq_true.mp hq
  exact ⟨k, p, _, s, w, hp, hs, hw, by simpa using hwrites, writes_in_bounds hk hp hs w hw⟩

/-- A call that allocated one entry meets the fiber 1 and writes a second entry. -/
theorem entry_behind_array : ∃ (as : List Action) (k : System) (p : ProcessArg)
    (tr : List DirAction) (s : DirRace) (w : Walk), Run Step (System.init zeroContext) as k ∧
    k.kernel.record 7 = some p ∧ Run DirStep (DirRace.start k.kernel.brk p) tr s ∧
    w ∈ s.walks ∧ w.numFibers = 1 ∧ 1 ∈ w.writes := by
  obtain ⟨k, p, s, hk, hp, hs, hq⟩ := exists_dirRun (fun _ _ => true)
    [.ioctl 7 7 .convertToFiber 0 Env.plain]
    ([.call, .number 8 maker8, .insert 8] ++ List.replicate 394 (.walk 0))
    (fun s => s.walks.any fun w => w.numFibers == 1 && decide (1 ∈ w.writes)) (by decide +kernel)
  obtain ⟨w, hw, hwrites⟩ := List.any_eq_true.mp hq
  simp only [Bool.and_eq_true, beq_iff_eq, decide_eq_true_eq] at hwrites
  exact ⟨_, k, p, _, s, w, hk, hp, hs.mono fun _ _ _ h => h.2, hw, hwrites.1, hwrites.2⟩

end LinuxFibers.Module
