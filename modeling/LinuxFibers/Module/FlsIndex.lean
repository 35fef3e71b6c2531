import LinuxFibers.Module.FlsAlloc

/-!
# The index of a slot

`FLSGETVALUE` and `FLSSETVALUE` take any `long` from the user and guard
themselves by `test_bit` alone.  `ChecksIndex` says what they owe for an index:
they obey it exactly when it names a slot that the caller's fiber holds, and they
read nothing outside `fls_bitmap` and `fls_array` to find out.

An index of the word is checked in every reachable state, because there the bits
and the history say the same (`holds_iff_bit`).  For every other index
`test_bit` looks outside the word.  `index_behind_word` is a run in which it
finds a bit that the user set in a register.

Behind the registers `FiberArg.bit` has nothing.  The code goes on there, in the
list pointers of the fiber and in whatever follows it, and can write them: the
index of `FLSSETVALUE` is not bounded, and `FLSFREE` clears bits up to `MAX_FLS`.
What a run is after that is not said anywhere here, since a run of the model ends
at such a request.  `request_stops_iff` says which requests these are.
-/

namespace LinuxFibers.Module

open LinuxFibers.Lib HashTable

variable {s : System} {tr : List (System × Action)} {id pid : Pid} {cmd : Command}
  {arg : Word} {env : Env} {f : FiberArg} {a : ℕ}

/-! ## The law -/

/-- The index names a slot that the active fiber of the thread holds. -/
def LiveIndex (tr : List (System × Action)) (s : System) (id pid : Pid) (index : Word) : Prop :=
  ∃ a f, s.activeFiber id pid = some (a, f) ∧ 0 ≤ index.toInt ∧ index.toInt < maxFls ∧
    Holds tr id a index.toNat

/-- The elements of `fls_array` that a request reads or writes. -/
def accessedSlots (s : System) : Action → List ℤ
  | .ioctl id pid cmd _ env =>
      match s.activeFiber id pid with
      | none => []
      | some (_, f) =>
          match cmd, testBit f env.flsArg.dwFlsIndex.toInt with
          | .flsGetValue, .ok true | .flsSetValue, .ok true =>
              if env.kzalloc .flsArg && env.copyFromUser then [env.flsArg.dwFlsIndex.toInt] else []
          | _, _ => []
  | _ => []

/-- The request has its `fls_arg_t`. -/
def Env.argued (env : Env) : Prop := env.kzalloc .flsArg = true ∧ env.copyFromUser = true

/-- What `FLSGETVALUE` and `FLSSETVALUE` owe for the index of the environment.
An allocation or a copy that fails is reported, and nothing is given or
changed. -/
structure ChecksIndex (tr : List (System × Action)) (s : System) (id pid : Pid) (arg : Word)
    (env : Env) : Prop where
  get_live : ∀ a f, s.activeFiber id pid = some (a, f) →
    LiveIndex tr s id pid env.flsArg.dwFlsIndex → env.argued → env.copyToUser = true →
      ∃ r, s.request id pid .flsGetValue arg env = .ok r ∧ r.ret = 1 ∧
        r.copied = some ⟨env.flsArg.dwFlsIndex, f.flsArray env.flsArg.dwFlsIndex.toNat⟩
  get_other : ¬ (LiveIndex tr s id pid env.flsArg.dwFlsIndex ∧ env.argued ∧ env.copyToUser = true) →
    ∃ r, s.request id pid .flsGetValue arg env = .ok r ∧ r.copied = none ∧
      r.ret = if env.kzalloc .flsArg then -1 else -enomem
  set_live : ∀ a f, s.activeFiber id pid = some (a, f) →
    LiveIndex tr s id pid env.flsArg.dwFlsIndex → env.argued →
      ∃ r e, s.request id pid .flsSetValue arg env = .ok r ∧ searchProcess s.kernel id = some e ∧
        r.kernel.listProcess = (s.kernel.setFiber e a { f with
          flsArray := Function.update f.flsArray env.flsArg.dwFlsIndex.toNat
            env.flsArg.lpFlsData }).listProcess
  set_other : ¬ (LiveIndex tr s id pid env.flsArg.dwFlsIndex ∧ env.argued) →
    ∃ r, s.request id pid .flsSetValue arg env = .ok r ∧
      r.kernel.listProcess = s.kernel.listProcess
  get_unchanged : ∀ r, s.request id pid .flsGetValue arg env = .ok r →
    r.kernel.listProcess = s.kernel.listProcess
  bits : ∀ cmd, cmd = .flsGetValue ∨ cmd = .flsSetValue →
    ∀ b ∈ touchedBits s (.ioctl id pid cmd arg env), 0 ≤ b ∧ b < flsStorage
  slots : ∀ cmd, cmd = .flsGetValue ∨ cmd = .flsSetValue →
    ∀ i ∈ accessedSlots s (.ioctl id pid cmd arg env), 0 ≤ i ∧ i < maxFls

/-! ## The active fiber -/

/-- A converted thread of a reachable state has an active fiber. -/
theorem activeFiber_of_searchThread (hok : KernelOk s.kernel) {e : Entry ProcessArg}
    {th : Entry ThreadArg} (he : searchProcess s.kernel id = some e)
    (hth : searchThread pid e.obj = some th) :
    ∃ a f, s.activeFiber id pid = some (a, f) ∧
      derefFiber e.obj.fibers th.obj.activeFiber = .ok (a, f) := by
  have hrec : s.kernel.record id = some e.obj := record_of_searchProcess he
  obtain ⟨f, _, _, _, hderef⟩ := derefFiber_active (hok.linked id _ hrec) (hok.owned id _ hrec) hth
  obtain ⟨hactive, hold⟩ := of_derefFiber hderef
  exact ⟨f.addr, f.obj, activeFiber_eq hrec hth hactive hold, hderef⟩

theorem activeFiber_of_derefFiber {e : Entry ProcessArg} {th : Entry ThreadArg}
    (he : searchProcess s.kernel id = some e) (hth : searchThread pid e.obj = some th)
    (hd : derefFiber e.obj.fibers th.obj.activeFiber = .ok (a, f)) :
    s.activeFiber id pid = some (a, f) := by
  obtain ⟨hactive, hold⟩ := of_derefFiber hd
  exact activeFiber_eq (record_of_searchProcess he) hth hactive hold

theorem activeFiber_of_noRecord (he : searchProcess s.kernel id = none) :
    s.activeFiber id pid = none := by
  simp only [System.activeFiber, Kernel.record, he, Option.map_none, Option.bind_eq_bind,
    Option.bind_none]

theorem activeFiber_of_noThread {e : Entry ProcessArg} (he : searchProcess s.kernel id = some e)
    (hth : searchThread pid e.obj = none) : s.activeFiber id pid = none := by
  simp only [System.activeFiber, Kernel.record, he, Option.map_some, hth, Option.bind_eq_bind,
    Option.bind_some, Option.bind_none]

/-- A thread without an active fiber has no live index. -/
theorem not_live_of_none (hactive : s.activeFiber id pid = none) (index : Word) :
    ¬ LiveIndex tr s id pid index := by
  rintro ⟨a, f, hsome, _⟩
  rw [hactive] at hsome
  cases hsome

/-! ## The bits of the word and the history -/

/-- In every reachable state the active fiber of a thread holds the slots of the
word whose bits are set. -/
theorem holds_iff_bit {context : Pid × Pid → Context}
    (h : Run (Recorded Step) (System.init context) tr s)
    (hactive : s.activeFiber id pid = some (a, f)) {i : ℕ} (hi : i < 64) :
    Holds tr id a i ↔ f.flsBitmap.getLsbD i = true := by
  obtain ⟨_, hk⟩ := keptWord_run h
  obtain ⟨p, e, hp, he, ha, hobj⟩ := entry_of_activeFiber hactive
  rw [← ha, ← hobj]
  constructor
  · intro hheld
    exact (hk.slot id p hp e he i hi hheld).bit
  · intro hbit
    exact exact_run h id p hp e he i hi hbit

theorem toNat_of_word {index : Word} (h0 : 0 ≤ index.toInt) (hlt : index.toInt < 64) :
    index.toNat < 64 ∧ index.toInt.toNat = index.toNat := by
  rw [BitVec.toInt_eq_toNat_cond] at h0 hlt ⊢
  have := index.isLt
  split at h0 <;> split <;> omega

/-- `test_bit` tells the live indices of the word. -/
theorem testBit_iff_live {context : Pid × Pid → Context}
    (h : Run (Recorded Step) (System.init context) tr s)
    (hactive : s.activeFiber id pid = some (a, f)) {index : Word} (h0 : 0 ≤ index.toInt)
    (hlt : index.toInt < 64) {b : Bool} (hb : testBit f index.toInt = .ok b) :
    b = true ↔ LiveIndex tr s id pid index := by
  obtain ⟨hnat, hcast⟩ := toNat_of_word h0 hlt
  have hneg : ¬ index.toInt < 0 := by omega
  have hbit : f.flsBitmap.getLsbD index.toNat = b := by
    rw [testBit, if_neg hneg, hcast, bit_of_lt f hnat] at hb
    exact Except.ok.inj hb
  rw [← hbit, ← holds_iff_bit h hactive hnat]
  constructor
  · intro hheld
    refine ⟨a, f, hactive, h0, ?_, hheld⟩
    unfold maxFls
    omega
  · rintro ⟨b, g, hsome, _, _, hheld⟩
    rw [hactive, Option.some.injEq, Prod.mk.injEq] at hsome
    rw [hsome.1]
    exact hheld

/-! ## The two requests -/

/-- An index that the request tests is one of the word. -/
def InWord (s : System) (id pid : Pid) (env : Env) : Prop :=
  (s.activeFiber id pid).isSome = true → env.argued →
    0 ≤ env.flsArg.dwFlsIndex.toInt ∧ env.flsArg.dwFlsIndex.toInt < 64

theorem InWord.of_active (h : InWord s id pid env) (hactive : s.activeFiber id pid = some (a, f))
    (hargued : env.argued) :
    0 ≤ env.flsArg.dwFlsIndex.toInt ∧ env.flsArg.dwFlsIndex.toInt < 64 :=
  h (by rw [hactive]; rfl) hargued

/-- The active fiber and the result of the test, when the search for them came to
an end. -/
theorem not_faulted (hok : KernelOk s.kernel) (hword : InWord s id pid env) (hargued : env.argued)
    {e : Entry ProcessArg} {th : Entry ThreadArg} {x : Fault}
    (he : searchProcess s.kernel id = some e) (hth : searchThread pid e.obj = some th) :
    (derefFiber e.obj.fibers th.obj.activeFiber >>= fun af =>
      testBit af.2 env.flsArg.dwFlsIndex.toInt) ≠ .error x := by
  obtain ⟨a, f, hactive, hd⟩ := activeFiber_of_searchThread hok he hth
  have hstay := hword.of_active hactive hargued
  obtain ⟨b, hb⟩ := testBit_returns (f := f) hstay.1 hstay.2
  rw [hd]
  show testBit f env.flsArg.dwFlsIndex.toInt ≠ .error x
  rw [hb]
  intro heq
  cases heq

/-- `FLSGETVALUE` of an index of the word gives the value of a live slot, or fails
and gives none. -/
theorem flsGetValue_checks {context : Pid × Pid → Context}
    (h : Run (Recorded Step) (System.init context) tr s) (hword : InWord s id pid env) :
    ∃ r, s.request id pid .flsGetValue arg env = .ok r ∧
      r.kernel.listProcess = s.kernel.listProcess ∧
      ((∃ a f, s.activeFiber id pid = some (a, f) ∧
          (LiveIndex tr s id pid env.flsArg.dwFlsIndex ∧ env.argued ∧ env.copyToUser = true) ∧
          r.ret = 1 ∧
          r.copied = some ⟨env.flsArg.dwFlsIndex, f.flsArray env.flsArg.dwFlsIndex.toNat⟩) ∨
        ¬ (LiveIndex tr s id pid env.flsArg.dwFlsIndex ∧ env.argued ∧ env.copyToUser = true) ∧
          r.copied = none ∧ r.ret = if env.kzalloc .flsArg then -1 else -enomem) := by
  obtain ⟨hok, _⟩ := keptWord_run h
  have hpath := get_path testBit s.kernel (s.task id pid) env
  show ∃ r, flsGetValueWith testBit s.kernel (s.task id pid) env = .ok r ∧ _
  generalize flsGetValueWith testBit s.kernel (s.task id pid) env = x at hpath ⊢
  cases hpath with
  | noArgs ha =>
    refine ⟨_, rfl, rfl, Or.inr ⟨fun hall => ?_, rfl, by rw [ha]; rfl⟩⟩
    rw [hall.2.1.1] at ha
    cases ha
  | notCopied ha hu =>
    refine ⟨_, rfl, rfl, Or.inr ⟨fun hall => ?_, rfl, by rw [ha]; rfl⟩⟩
    rw [hall.2.1.2] at hu
    cases hu
  | noRecord ha _ he =>
    refine ⟨_, rfl, rfl, Or.inr ⟨fun hall => ?_, rfl, by rw [ha]; rfl⟩⟩
    exact not_live_of_none (activeFiber_of_noRecord he) _ hall.1
  | noThread ha _ he hth =>
    refine ⟨_, rfl, rfl, Or.inr ⟨fun hall => ?_, rfl, by rw [ha]; rfl⟩⟩
    exact not_live_of_none (activeFiber_of_noThread he hth) _ hall.1
  | faulted ha hu he hth hx => exact absurd hx (not_faulted hok hword ⟨ha, hu⟩ he hth)
  | clear ha hu he hth hd hb =>
    have hactive := activeFiber_of_derefFiber he hth hd
    have hstay := hword.of_active hactive ⟨ha, hu⟩
    have htest := testBit_iff_live h hactive hstay.1 hstay.2 hb
    refine ⟨_, rfl, rfl, Or.inr ⟨fun hall => ?_, rfl, by rw [ha]; rfl⟩⟩
    exact absurd (htest.mpr hall.1) Bool.false_ne_true
  | notGiven ha _ _ _ _ _ ht =>
    refine ⟨_, rfl, rfl, Or.inr ⟨fun hall => ?_, rfl, by rw [ha]; rfl⟩⟩
    rw [hall.2.2] at ht
    cases ht
  | given ha hu he hth hd hb ht =>
    have hactive := activeFiber_of_derefFiber he hth hd
    have hstay := hword.of_active hactive ⟨ha, hu⟩
    have htest := testBit_iff_live h hactive hstay.1 hstay.2 hb
    exact ⟨_, rfl, rfl, Or.inl ⟨_, _, hactive, ⟨htest.mp rfl, ⟨ha, hu⟩, ht⟩, rfl, rfl⟩⟩

/-- `FLSSETVALUE` of an index of the word writes a live slot, or changes nothing. -/
theorem flsSetValue_checks {context : Pid × Pid → Context}
    (h : Run (Recorded Step) (System.init context) tr s) (hword : InWord s id pid env) :
    ∃ r, s.request id pid .flsSetValue arg env = .ok r ∧
      ((∃ a f e, s.activeFiber id pid = some (a, f) ∧
          (LiveIndex tr s id pid env.flsArg.dwFlsIndex ∧ env.argued) ∧
          searchProcess s.kernel id = some e ∧
          r.kernel.listProcess = (s.kernel.setFiber e a { f with
            flsArray := Function.update f.flsArray env.flsArg.dwFlsIndex.toNat
              env.flsArg.lpFlsData }).listProcess) ∨
        ¬ (LiveIndex tr s id pid env.flsArg.dwFlsIndex ∧ env.argued) ∧
          r.kernel.listProcess = s.kernel.listProcess) := by
  obtain ⟨hok, _⟩ := keptWord_run h
  have hpath := set_path testBit s.kernel (s.task id pid) env
  show ∃ r, flsSetValueWith testBit s.kernel (s.task id pid) env = .ok r ∧ _
  generalize flsSetValueWith testBit s.kernel (s.task id pid) env = x at hpath ⊢
  cases hpath with
  | noArgs ha =>
    refine ⟨_, rfl, Or.inr ⟨fun hall => ?_, rfl⟩⟩
    rw [hall.2.1] at ha
    cases ha
  | notCopied _ hu =>
    refine ⟨_, rfl, Or.inr ⟨fun hall => ?_, rfl⟩⟩
    rw [hall.2.2] at hu
    cases hu
  | noRecord _ _ he =>
    refine ⟨_, rfl, Or.inr ⟨fun hall => ?_, rfl⟩⟩
    exact not_live_of_none (activeFiber_of_noRecord he) _ hall.1
  | noThread _ _ he hth =>
    refine ⟨_, rfl, Or.inr ⟨fun hall => ?_, rfl⟩⟩
    exact not_live_of_none (activeFiber_of_noThread he hth) _ hall.1
  | faulted ha hu he hth hx => exact absurd hx (not_faulted hok hword ⟨ha, hu⟩ he hth)
  | clear ha hu he hth hd hb =>
    have hactive := activeFiber_of_derefFiber he hth hd
    have hstay := hword.of_active hactive ⟨ha, hu⟩
    have htest := testBit_iff_live h hactive hstay.1 hstay.2 hb
    refine ⟨_, rfl, Or.inr ⟨fun hall => ?_, rfl⟩⟩
    exact absurd (htest.mpr hall.1) Bool.false_ne_true
  | stored ha hu he hth hd hb =>
    have hactive := activeFiber_of_derefFiber he hth hd
    have hstay := hword.of_active hactive ⟨ha, hu⟩
    have htest := testBit_iff_live h hactive hstay.1 hstay.2 hb
    exact ⟨_, rfl, Or.inl ⟨_, _, _, hactive, ⟨htest.mp rfl, ha, hu⟩, he, rfl⟩⟩

/-! ## Which indices are checked -/

theorem inWord_of_touchedBits
    (h : ∀ b ∈ touchedBits s (.ioctl id pid .flsGetValue arg env), 0 ≤ b ∧ b < flsStorage) :
    InWord s id pid env := by
  intro hsome hargued
  obtain ⟨⟨a, f⟩, hactive⟩ := Option.isSome_iff_exists.mp hsome
  apply h
  simp only [touchedBits, hactive, hargued.1, hargued.2, Bool.and_self, if_true,
    List.mem_singleton]

theorem touchedBits_of_inWord (hword : InWord s id pid env)
    (hcmd : cmd = .flsGetValue ∨ cmd = .flsSetValue) :
    ∀ b ∈ touchedBits s (.ioctl id pid cmd arg env), 0 ≤ b ∧ b < flsStorage := by
  intro b hb
  cases hactive : s.activeFiber id pid with
  | none =>
    simp only [touchedBits, hactive] at hb
    cases hb
  | some af =>
    have hb' : b ∈ if (env.kzalloc .flsArg && env.copyFromUser) = true then
        [env.flsArg.dwFlsIndex.toInt] else [] := by
      rcases hcmd with rfl | rfl <;> simpa only [touchedBits, hactive] using hb
    split at hb'
    · rename_i hargued
      have hstay := hword.of_active hactive (Bool.and_eq_true_iff.mp hargued)
      rw [List.mem_singleton.mp hb']
      exact hstay
    · cases hb'

theorem accessedSlots_of_inWord (hword : InWord s id pid env)
    (hcmd : cmd = .flsGetValue ∨ cmd = .flsSetValue) :
    ∀ i ∈ accessedSlots s (.ioctl id pid cmd arg env), 0 ≤ i ∧ i < maxFls := by
  intro i hi
  cases hactive : s.activeFiber id pid with
  | none =>
    simp only [accessedSlots, hactive] at hi
    cases hi
  | some af =>
    have hi' : i ∈ if (env.kzalloc .flsArg && env.copyFromUser) = true then
        [env.flsArg.dwFlsIndex.toInt] else [] := by
      simp only [accessedSlots, hactive] at hi
      rcases hcmd with rfl | rfl
      · split at hi <;> first | exact hi | cases hi
      · split at hi <;> first | exact hi | cases hi
    split at hi'
    · rename_i hargued
      have hstay := hword.of_active hactive (Bool.and_eq_true_iff.mp hargued)
      rw [List.mem_singleton.mp hi']
      unfold maxFls
      omega
    · cases hi'

/-- In every reachable state, the index of an active fiber's request is checked
exactly when it lies in the word. -/
theorem checksIndex_iff {context : Pid × Pid → Context}
    (h : Run (Recorded Step) (System.init context) tr s) (id pid : Pid) (arg : Word) (env : Env) :
    ChecksIndex tr s id pid arg env ↔
      ((s.activeFiber id pid).isSome = true → env.argued →
        0 ≤ env.flsArg.dwFlsIndex.toInt ∧ env.flsArg.dwFlsIndex.toInt < 64) := by
  constructor
  · intro hc
    exact inWord_of_touchedBits (hc.bits .flsGetValue (Or.inl rfl))
  · intro hword
    obtain ⟨r, hr, hsame, hget⟩ := @flsGetValue_checks s tr id pid arg env _ h hword
    obtain ⟨r', hr', hset⟩ := @flsSetValue_checks s tr id pid arg env _ h hword
    refine ⟨fun a f hactive hlive hargued hto => ?_, fun hnot => ?_,
      fun a f hactive hlive hargued => ?_, fun hnot => ?_, fun r₁ hr₁ => ?_,
      fun _ hcmd => touchedBits_of_inWord hword hcmd,
      fun _ hcmd => accessedSlots_of_inWord hword hcmd⟩
    · rcases hget with ⟨b, g, hactive', _, hret, hcopied⟩ | ⟨hnot, _⟩
      · rw [hactive, Option.some.injEq, Prod.mk.injEq] at hactive'
        rw [hactive'.2]
        exact ⟨r, hr, hret, hcopied⟩
      · exact absurd ⟨hlive, hargued, hto⟩ hnot
    · rcases hget with ⟨_, _, _, hall, _⟩ | ⟨_, hcopied, hret⟩
      · exact absurd hall hnot
      · exact ⟨r, hr, hcopied, hret⟩
    · rcases hset with ⟨b, g, e, hactive', _, he, hwrite⟩ | ⟨hnot, _⟩
      · rw [hactive, Option.some.injEq, Prod.mk.injEq] at hactive'
        rw [hactive'.1, hactive'.2]
        exact ⟨r', e, hr', he, hwrite⟩
      · exact absurd ⟨hlive, hargued⟩ hnot
    · rcases hset with ⟨_, _, _, _, hall, _⟩ | ⟨_, hwrite⟩
      · exact absurd hall hnot
      · exact ⟨r', hr', hwrite⟩
    · rw [hr, Except.ok.injEq] at hr₁
      rw [← hr₁]
      exact hsame

/-- `checksIndex_iff` for a slot of the word that was obtained. -/
theorem checksIndex_of_word : ∃ (tr : List (System × Action)) (s : System),
    Run (Recorded Step) (System.init zeroContext) tr s ∧
    (s.activeFiber 7 7).map Prod.fst = some 0 ∧ Holds tr 7 0 0 ∧
    ChecksIndex tr s 7 7 0 (Env.fls 0 42) := by
  obtain ⟨tr, s, hrun, hp⟩ := exists_history_of (fun _ _ => true) (System.init zeroContext)
    [.ioctl 7 7 .convertToFiber 0 Env.plain, .ioctl 7 7 .flsAlloc 0 Env.plain]
    (fun tr s =>
      decide (latest (fun m => (slotEvent 7 0 0 m).bind SlotEvent.holds) tr = some true) &&
      decide ((s.activeFiber 7 7).map Prod.fst = some 0)) (by decide +kernel)
  simp only [Bool.and_eq_true, decide_eq_true_eq] at hp
  have hstep : Run (Recorded Step) (System.init zeroContext) tr s :=
    hrun.mono fun _ _ _ h => ⟨h.1, h.2.2⟩
  refine ⟨tr, s, hstep, hp.2, hp.1, (checksIndex_iff hstep 7 7 0 _).mpr fun _ _ => ?_⟩
  decide

/-- A fiber that never obtained a slot reads the slot 64, because the register
behind the word is odd. -/
theorem index_behind_word : ∃ (tr : List (System × Action)) (s : System) (r : Reply),
    Run (Recorded Step) (System.init zeroContext) tr s ∧
    ¬ LiveIndex tr s 7 7 64 ∧ s.request 7 7 .flsGetValue 0 (Env.fls 64 0) = .ok r ∧ r.ret = 1 ∧
    ¬ ChecksIndex tr s 7 7 0 (Env.fls 64 0) := by
  obtain ⟨tr, s, hrun, hp⟩ := exists_history_of (fun _ _ => true) (System.init zeroContext)
    [.ioctl 7 7 .convertToFiber 0 Env.plain, .user 7 7 ⟨fun _ => 1, 0⟩,
      .ioctl 7 7 .createFiber 0 Env.plain, .ioctl 7 7 .switchToFiber 1 Env.plain]
    (fun tr s =>
      !decide (latest (fun m => (slotEvent 7 4 64 m).bind SlotEvent.holds) tr = some true) &&
      decide ((s.activeFiber 7 7).map Prod.fst = some 4) &&
      (s.request 7 7 .flsGetValue 0 (Env.fls 64 0)).toOption.any fun r => r.ret == 1)
    (by decide +kernel)
  simp only [Bool.and_eq_true, Bool.not_eq_true', decide_eq_true_eq, decide_eq_false_iff_not] at hp
  obtain ⟨⟨hnever, hactive⟩, hp⟩ := hp
  have hdead : ¬ LiveIndex tr s 7 7 64 := by
    rintro ⟨a, f, hsome, _, _, hheld⟩
    rw [hsome, Option.map_some, Option.some.injEq] at hactive
    have h4 : a = 4 := hactive
    rw [h4] at hheld
    exact hnever hheld
  obtain ⟨r, hr, hp⟩ := of_toOption_any hp
  have hret : r.ret = 1 := by simpa using hp
  refine ⟨tr, s, r, hrun.mono fun _ _ _ h => ⟨h.1, h.2.2⟩, hdead, hr, hret, fun hc => ?_⟩
  obtain ⟨r', hr', hcopied, hneg⟩ := hc.get_other fun h => hdead h.1
  rw [hr, Except.ok.injEq] at hr'
  rw [← hr', hret] at hneg
  cases hneg

/-! ## Requests that reach behind the registers -/

/-- The number of bits up to the end of `regs`. -/
def regsStorage : ℕ := flsStorage + 64 * Reg.layout.length

/-- A request that ends at a bit behind the registers. -/
def Stops (x : Except Fault Reply) : Prop := ∃ b, x = .error (.flsStorage b)

theorem bit_eq_none_iff (f : FiberArg) (i : ℕ) : f.bit i = none ↔ regsStorage ≤ i := by
  unfold FiberArg.bit regOfBit regsStorage flsStorage
  by_cases hi : i < 64
  · simp only [if_pos hi, reduceCtorEq, false_iff]
    omega
  · simp only [if_neg hi, Option.map_eq_none_iff, List.getElem?_eq_none_iff]
    omega

theorem not_stops_reply (cur : Task) (k : Kernel) (ret : ℤ) : ¬ Stops (reply cur k ret) := by
  rintro ⟨b, hb⟩
  cases hb

theorem not_stops_ok (r : Reply) : ¬ Stops (.ok r) := by
  rintro ⟨b, hb⟩
  cases hb

theorem testBit_stops_iff {b : ℤ} {x : Fault} :
    testBit f b = .error x ↔ x = .flsStorage b ∧ ¬ (0 ≤ b ∧ b < regsStorage) := by
  unfold testBit
  by_cases hneg : b < 0
  · rw [if_pos hneg, Except.error.injEq, eq_comm]
    exact ⟨fun h => ⟨h, by omega⟩, And.left⟩
  · rw [if_neg hneg]
    cases hbit : f.bit b.toNat with
    | none =>
      have hle := (bit_eq_none_iff f _).mp hbit
      simp only [Except.error.injEq, eq_comm (a := x)]
      exact ⟨fun h => ⟨h, by omega⟩, And.left⟩
    | some c =>
      have hlt : ¬ regsStorage ≤ b.toNat := fun hle => by
        rw [(bit_eq_none_iff f _).mpr hle] at hbit
        cases hbit
      simp only [reduceCtorEq, false_iff]
      exact fun h => h.2 (by omega)

/-- The scan stops when it reads a bit behind the registers. -/
theorem zeroBitFrom_stops_iff {n i : ℕ} :
    (∃ b, zeroBitFrom f n i = .error (.flsStorage b)) ↔ ∃ b ∈ scanned f n i, regsStorage ≤ b := by
  induction n generalizing i with
  | zero => simp [zeroBitFrom, scanned]
  | succ n ih =>
    have hnone := bit_eq_none_iff f i
    rw [zeroBitFrom, scanned]
    cases hbit : f.bit i with
    | none => simpa using hnone.mp hbit
    | some c =>
      have hlt : ¬ regsStorage ≤ i := fun hle => by
        rw [hnone.mpr hle] at hbit
        cases hbit
      cases c with
      | false => simpa using hlt
      | true => simpa [hlt] using ih

theorem not_stops_convert {k : Kernel} {cur : Task} {x : Except Fault Reply}
    (hpath : ConvertPath k cur env x) : ¬ Stops x := by
  rintro ⟨b, rfl⟩
  cases hpath

theorem not_stops_create {k : Kernel} {cur : Task} {x : Except Fault Reply}
    (hpath : CreatePath k cur env x) : ¬ Stops x := by
  rintro ⟨b, rfl⟩
  cases hpath

/-- The commands on fibers test no bits. -/
theorem not_stops_of_onFls (hok : KernelOk s.kernel) (hcmd : cmd.onFls = false) :
    ¬ Stops (s.request id pid cmd arg env) := by
  cases cmd with
  | convertToFiber => exact not_stops_convert (convert_path _ _ env)
  | createFiber => exact not_stops_create (create_path _ _ env)
  | switchToFiber =>
    obtain ⟨r, hr⟩ := switchToFiber_returns hok (s.task id pid) arg env
    rw [show s.request id pid .switchToFiber arg env = .ok r from hr]
    exact not_stops_ok r
  | other => exact not_stops_reply _ _ _
  | flsAlloc | flsFree | flsGetValue | flsSetValue => cases hcmd

/-- A request of a thread without an active fiber does not stop. -/
theorem not_stops_of_none (hok : KernelOk s.kernel) (hactive : s.activeFiber id pid = none) :
    ¬ Stops (s.request id pid cmd arg env) := by
  have hthread : ∀ e, searchProcess s.kernel id = some e →
      ∀ th, searchThread pid e.obj ≠ some th := by
    intro e he th hth
    obtain ⟨a, f, hsome, _⟩ := activeFiber_of_searchThread hok he hth
    rw [hactive] at hsome
    cases hsome
  cases cmd with
  | flsAlloc =>
    show ¬ Stops (flsAlloc s.kernel (s.task id pid))
    unfold flsAlloc
    split
    · exact not_stops_reply _ _ _
    · rename_i e he
      split
      · exact not_stops_reply _ _ _
      · rename_i th hth
        exact absurd hth (hthread e he th)
  | flsFree =>
    show ¬ Stops (flsFree s.kernel (s.task id pid) arg)
    unfold flsFree
    split
    · exact not_stops_reply _ _ _
    · rename_i e he
      split
      · exact not_stops_reply _ _ _
      · rename_i th hth
        exact absurd hth (hthread e he th)
  | flsGetValue =>
    rintro ⟨b, hb⟩
    have hpath := get_path testBit s.kernel (s.task id pid) env
    rw [show flsGetValueWith testBit s.kernel (s.task id pid) env = _ from hb] at hpath
    cases hpath with
    | faulted _ _ he hth => exact hthread _ he _ hth
  | flsSetValue =>
    rintro ⟨b, hb⟩
    have hpath := set_path testBit s.kernel (s.task id pid) env
    rw [show flsSetValueWith testBit s.kernel (s.task id pid) env = _ from hb] at hpath
    cases hpath with
    | faulted _ _ he hth => exact hthread _ he _ hth
  | _ => exact not_stops_of_onFls hok rfl

theorem stops_flsAlloc_iff {k : Kernel} {cur : Task} {e : Entry ProcessArg} {th : Entry ThreadArg}
    (he : searchProcess k cur.tgid = some e) (hth : searchThread cur.pid e.obj = some th)
    (hd : derefFiber e.obj.fibers th.obj.activeFiber = .ok (a, f)) :
    Stops (flsAlloc k cur) ↔ ∃ b ∈ scanned f maxFls 0, regsStorage ≤ b := by
  rw [← zeroBitFrom_stops_iff]
  simp only [flsAlloc, he, hth, hd, findFirstZeroBit, bind, Except.bind]
  cases zeroBitFrom f maxFls 0 with
  | error x => simp [Stops]
  | ok i =>
    refine iff_of_false ?_ (by simp)
    dsimp only
    split <;> exact not_stops_reply _ _ _

/-- A request that tests a bit and then goes on stops when it has no such bit. -/
theorem stops_testBit_iff {g : Bool → Except Fault Reply} (hg : ∀ b, ¬ Stops (g b)) (i : ℤ) :
    Stops (testBit f i >>= g) ↔ ¬ (0 ≤ i ∧ i < regsStorage) := by
  cases hb : testBit f i with
  | error x =>
    obtain ⟨rfl, hnot⟩ := testBit_stops_iff.mp hb
    exact iff_of_true ⟨_, rfl⟩ hnot
  | ok b =>
    refine iff_of_false (hg b) fun hnot => ?_
    rw [testBit_stops_iff.mpr ⟨rfl, hnot⟩] at hb
    cases hb

theorem stops_flsFree_iff {k : Kernel} {cur : Task} {e : Entry ProcessArg} {th : Entry ThreadArg}
    (he : searchProcess k cur.tgid = some e) (hth : searchThread cur.pid e.obj = some th)
    (hd : derefFiber e.obj.fibers th.obj.activeFiber = .ok (a, f)) :
    Stops (flsFree k cur arg) ↔ (0 < arg.toInt ∧ arg.toInt < maxFls) ∧
      ¬ (0 ≤ arg.toInt ∧ arg.toInt < regsStorage) := by
  simp only [flsFree, he, hth]
  by_cases hrange : 0 < arg.toInt ∧ arg.toInt < maxFls
  · simp only [hd, clearBit, bind_assoc, pure_bind, hrange.1, hrange.2, and_self, true_and]
    exact stops_testBit_iff (fun _ => not_stops_reply _ _ _) arg.toInt
  · rw [if_neg hrange]
    exact iff_of_false (not_stops_reply _ _ _) fun h => hrange h.1

theorem stops_flsGetValue_iff {k : Kernel} {cur : Task} {e : Entry ProcessArg}
    {th : Entry ThreadArg} (he : searchProcess k cur.tgid = some e)
    (hth : searchThread cur.pid e.obj = some th)
    (hd : derefFiber e.obj.fibers th.obj.activeFiber = .ok (a, f)) :
    Stops (flsGetValue k cur env) ↔ (env.kzalloc .flsArg = true ∧ env.copyFromUser = true) ∧
      ¬ (0 ≤ env.flsArg.dwFlsIndex.toInt ∧ env.flsArg.dwFlsIndex.toInt < regsStorage) := by
  unfold flsGetValue flsGetValueWith
  cases ha : env.kzalloc .flsArg with
  | false => exact iff_of_false (not_stops_reply _ _ _) (by simp)
  | true =>
    cases hu : env.copyFromUser with
    | false => exact iff_of_false (not_stops_reply _ _ _) (by simp)
    | true =>
      rw [← (sameTables_allocated k).searchProcess] at he
      simp only [kzalloc_allocated, Bool.not_true, Bool.false_eq_true, if_false, he, hth, hd,
        and_self, true_and]
      refine stops_testBit_iff (fun b => ?_) _
      cases b with
      | false => exact not_stops_reply _ _ _
      | true =>
        cases env.copyToUser with
        | false => exact not_stops_reply _ _ _
        | true => exact not_stops_ok _

theorem stops_flsSetValue_iff {k : Kernel} {cur : Task} {e : Entry ProcessArg}
    {th : Entry ThreadArg} (he : searchProcess k cur.tgid = some e)
    (hth : searchThread cur.pid e.obj = some th)
    (hd : derefFiber e.obj.fibers th.obj.activeFiber = .ok (a, f)) :
    Stops (flsSetValue k cur env) ↔ (env.kzalloc .flsArg = true ∧ env.copyFromUser = true) ∧
      ¬ (0 ≤ env.flsArg.dwFlsIndex.toInt ∧ env.flsArg.dwFlsIndex.toInt < regsStorage) := by
  unfold flsSetValue flsSetValueWith
  cases ha : env.kzalloc .flsArg with
  | false => exact iff_of_false (not_stops_reply _ _ _) (by simp)
  | true =>
    cases hu : env.copyFromUser with
    | false => exact iff_of_false (not_stops_reply _ _ _) (by simp)
    | true =>
      rw [← (sameTables_allocated k).searchProcess] at he
      simp only [kzalloc_allocated, Bool.not_true, Bool.false_eq_true, if_false, he, hth, hd,
        and_self, true_and]
      refine stops_testBit_iff (fun b => ?_) _
      cases b <;> exact not_stops_reply _ _ _

/-- In every reachable state, the requests at which a run of the module ends although no
object is missing are those that read a bit behind the registers. -/
theorem request_stops_iff {context : Pid × Pid → Context} {as : List Action}
    (h : Run Step (System.init context) as s) (id pid : Pid) (cmd : Command) (arg : Word)
    (env : Env) :
    Stops (s.request id pid cmd arg env) ↔
      ∃ b ∈ touchedBits s (.ioctl id pid cmd arg env), ¬ (0 ≤ b ∧ b < regsStorage) := by
  have hok := kernelOk_run h
  cases hactive : s.activeFiber id pid with
  | none =>
    simp only [touchedBits, hactive]
    exact iff_of_false (not_stops_of_none hok hactive) (by simp)
  | some x =>
    obtain ⟨a, f⟩ := x
    obtain ⟨e, th, he, hth, hath, hf⟩ := of_activeFiber hactive
    have hd : derefFiber e.obj.fibers th.obj.activeFiber = .ok (a, f) := by
      rw [hath]
      simp only [derefFiber, hf]
    have he' : searchProcess s.kernel (s.task id pid).tgid = some e := he
    have hth' : searchThread (s.task id pid).pid e.obj = some th := hth
    simp only [touchedBits, hactive]
    cases cmd with
    | flsAlloc =>
      refine (stops_flsAlloc_iff he' hth' hd).trans ?_
      simp
    | flsFree =>
      refine (stops_flsFree_iff he' hth' hd).trans ?_
      split <;> simp_all
    | flsGetValue =>
      refine (stops_flsGetValue_iff he' hth' hd).trans ?_
      split <;> simp_all
    | flsSetValue =>
      refine (stops_flsSetValue_iff he' hth' hd).trans ?_
      split <;> simp_all
    | _ => exact iff_of_false (not_stops_of_onFls hok rfl) (by simp)

end LinuxFibers.Module
