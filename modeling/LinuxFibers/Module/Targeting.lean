import LinuxFibers.Module.Names
import LinuxFibers.Module.Statistics

/-!
# The target of a switch and of an open

The argument of `SWITCHTOFIBER` and the number in the name of a file are
`unsigned long`.  `search_fiber` takes an `int`, which it compares with the index of
a fiber, an `unsigned long` again.  So the index that is searched for is the sign
extension of the lower half of the number, and it is the number itself exactly for
the numbers of `IntRange`.

`Targets` says that a number means the fiber with this index, or nothing.
`targets_iff` says when this is so: the number is in the range, or the search finds
nothing that the request would count.  `open_file` refuses no number, so there some
fiber has to have the index.  `wrong_target` is a switch to `2 ^ 32` that activates
the fiber 0.
-/

namespace LinuxFibers.Module

open LinuxFibers.Lib HashTable

variable {s : System} {id pid : Pid} {a : Word} {env : Env} {r : Reply} {task : Option Pid}
  {name : List Char} {garbage : Word} {singleOpen : Bool}

/-! ## The number that is searched for -/

/-- The numbers that an `int` can be. -/
def IntRange (a : Word) : Prop := a.toNat < 2 ^ 31 ∨ 2 ^ 64 - 2 ^ 31 ≤ a.toNat

/-- A number of the range survives the conversions to `int` and back, and no other
number does. -/
theorem intToUlong_setWidth_iff (a : Word) : intToUlong (a.setWidth 32) = a.toNat ↔ IntRange a := by
  have hlt := a.isLt
  have hmsb : (a.setWidth 32).msb = decide (2 ^ 31 ≤ a.toNat % 2 ^ 32) := by
    rw [BitVec.msb_eq_decide, BitVec.toNat_setWidth]
  rw [intToUlong, BitVec.toNat_signExtend, BitVec.toNat_setWidth, BitVec.toNat_setWidth, hmsb]
  unfold IntRange
  by_cases hhigh : 2 ^ 31 ≤ a.toNat % 2 ^ 32
  · rw [decide_eq_true hhigh, if_pos rfl]
    omega
  · rw [decide_eq_false hhigh, if_neg Bool.false_ne_true]
    omega

/-! ## The law -/

/-- No fiber of the process has the index. -/
def NoIndex (k : Kernel) (id : Pid) (index : ℕ) : Prop :=
  ∀ p, k.record id = some p → ∀ e ∈ p.fibers, e.obj.index ≠ index

/-- What the number `a` may do as the argument of a switch and as the name of a file.
A switch changes the counters of a fiber with the index `a` only, and a file is on
a fiber with this index.  Where no fiber has it, the switch returns -1 and leaves
everything as it is, and the open fails. -/
structure Targets (s : System) (id pid : Pid) (a : Word) (env : Env) (task : Option Pid)
    (name : List Char) (garbage : Word) (singleOpen : Bool) : Prop where
  counts : ∀ r, s.request id pid .switchToFiber a env = .ok r → ∀ tgid p p' e e',
    s.kernel.record tgid = some p → e ∈ p.fibers → r.kernel.record tgid = some p' →
    e' ∈ p'.fibers → e'.addr = e.addr →
    e'.obj.activations ≠ e.obj.activations ∨
      e'.obj.failedActivations ≠ e.obj.failedActivations →
    tgid = id ∧ e.obj.index = a.toNat
  rejects : NoIndex s.kernel id a.toNat → ∃ r, s.request id pid .switchToFiber a env = .ok r ∧
    r.ret = -1 ∧ r.kernel = s.kernel ∧ r.context = s.context (id, pid)
  binds : ∀ h b, openFile s.kernel task name garbage singleOpen = .ok (some h) →
    h.fiber = some b → InRecord (s.kernel.record h.tgid) b a.toNat
  declines : (∀ tgid, task = some tgid → NoIndex s.kernel tgid a.toNat) →
    openFile s.kernel task name garbage singleOpen = .ok none

/-- The switch counts nothing: no fiber is found, or it is not running and the caller
is not converted. -/
def CountsNothing (s : System) (id pid : Pid) (a : Word) : Prop :=
  ∀ f, s.found id a = some f → f.obj.running = false ∧ s.activeFiber id pid = none

/-- The process is there, and the open fails, or there is a fiber with the index and
`search_fiber` looks for this one or finds none. -/
def OpensRight (s : System) (task : Option Pid) (a : Word) (singleOpen : Bool) : Prop :=
  ∃ tgid p, task = some tgid ∧ s.kernel.record tgid = some p ∧
    (singleOpen = false ∨ (∃ e ∈ p.fibers, e.obj.index = a.toNat) ∧
      (IntRange a ∨ searchFiber (a.setWidth 32) p = none))

/-! ## Switches -/

/-- The index of the fiber that is found. -/
theorem index_of_found {f : Entry FiberArg} (h : s.found id a = some f) :
    ∃ p, s.kernel.record id = some p ∧ f ∈ p.fibers ∧
      f.obj.index = intToUlong (a.setWidth 32) := by
  obtain ⟨p, hp, hf⟩ := Option.bind_eq_some_iff.mp h
  obtain ⟨hmem, hindex⟩ := of_searchFiber hf
  exact ⟨p, hp, hmem, hindex⟩

/-- A converted thread has an active fiber. -/
theorem activeFiber_isSome (hok : KernelOk s.kernel) {p : ProcessArg} {th : Entry ThreadArg}
    (hp : s.kernel.record id = some p) (hth : searchThread pid p = some th) :
    ∃ b f, s.activeFiber id pid = some (b, f) := by
  have hl := hok.linked id p hp
  obtain ⟨x, hx, hactive, _⟩ := active_of_mem hl (hok.owned id p hp) (of_searchThread hth).1
  exact ⟨_, _, activeFiber_eq hp hth hactive (deref_of_mem hl.fibers_unique hx)⟩

/-- A switch that counts nothing is rejected and leaves everything as it is. -/
theorem rejected_of_countsNothing (hok : KernelOk s.kernel) (h : CountsNothing s id pid a) :
    s.request id pid .switchToFiber a env =
      .ok ⟨-1, s.kernel, s.context (id, pid), none⟩ := by
  show switchToFiber s.kernel (s.task id pid) a env = _
  unfold switchToFiber
  cases he : searchProcess s.kernel (s.task id pid).tgid with
  | none => rfl
  | some e =>
    have hp : s.kernel.record id = some e.obj := by
      rw [Kernel.record, show searchProcess s.kernel id = some e from he]
      rfl
    dsimp only
    cases hf : searchFiber (a.setWidth 32) e.obj with
    | none => rfl
    | some f =>
      obtain ⟨hstill, hnone⟩ := h f (by rw [found_eq hp, hf])
      have hth : searchThread pid e.obj = none := by
        cases hth : searchThread pid e.obj with
        | none => rfl
        | some th =>
          obtain ⟨b, g, hactive⟩ := activeFiber_isSome hok hp hth
          rw [hnone] at hactive
          cases hactive
      have hth' : searchThread (s.task id pid).pid e.obj = none := hth
      simp only [hstill, hth', Bool.false_eq_true, if_false]
      rfl

/-- A switch of a converted thread to a fiber that is not running activates it. -/
theorem activates_of_still (hok : KernelOk s.kernel) {f : Entry FiberArg}
    (hf : s.found id a = some f) (hstill : f.obj.running = false) {b : ℕ} {old : FiberArg}
    (hactive : s.activeFiber id pid = some (b, old))
    (hr : s.request id pid .switchToFiber a env = .ok r) : r.ret = 0 := by
  obtain ⟨p, hp, hsearch⟩ := Option.bind_eq_some_iff.mp hf
  obtain ⟨e, th, he, hth, hath, hold⟩ := of_activeFiber hactive
  have hl := hok.linked id p hp
  have hpe : e.obj = p := by
    rw [Kernel.record, he] at hp
    exact Option.some.inj hp
  rw [hpe] at hth hold
  have hrequest : switchToFiber s.kernel (s.task id pid) a env = .ok r := hr
  have he' : searchProcess s.kernel (s.task id pid).tgid = some e := he
  have hth' : searchThread (s.task id pid).pid p = some th := hth
  unfold switchToFiber at hrequest
  simp only [he', hpe, hsearch, hstill, hth', Bool.false_eq_true, if_false] at hrequest
  obtain ⟨_, _, hrequest⟩ := of_bind hrequest
  obtain ⟨_, _, hrequest⟩ := of_bind hrequest
  cases hrequest
  rfl

/-- The fiber that a switch finds, when it counts something, has another counter
afterwards. -/
theorem counter_changes (hok : KernelOk s.kernel) {f : Entry FiberArg}
    (hf : s.found id a = some f) (hcount : f.obj.running = true ∨ s.activeFiber id pid ≠ none)
    (hr : s.request id pid .switchToFiber a env = .ok r) : ∃ p p' e',
      s.kernel.record id = some p ∧ f ∈ p.fibers ∧ r.kernel.record id = some p' ∧
      e' ∈ p'.fibers ∧ e'.addr = f.addr ∧
      (e'.obj.activations ≠ f.obj.activations ∨
        e'.obj.failedActivations ≠ f.obj.failedActivations) := by
  obtain ⟨p, hp, hmem, _⟩ := index_of_found hf
  have hl := hok.linked id p hp
  have hin : InRecord (s.kernel.record id) f.addr f.obj.index := ⟨p, hp, f, hmem, rfl, rfl⟩
  obtain ⟨p', hp', e', he', haddr, _⟩ := (inRecord_request hok hr).1 hin
  refine ⟨p, p', e', hp, hmem, hp', he', haddr, ?_⟩
  obtain ⟨q, x, hq, hx, htally⟩ := counters_switch hok hr hp' he'
  have hqp : q = p := Option.some.inj (hq.symm.trans hp)
  rw [hqp] at hx
  have hxf : x = f := hl.fibers_unique.eq_of_addr hx hmem (htally.addr.symm.trans haddr)
  rw [hxf] at htally
  by_cases hrun : f.obj.running = true
  · right
    have hrefuses := (@refuses_iff s id pid a env id f.addr).mpr ⟨rfl, f, hf, rfl, hrun⟩
    rw [htally.failed, hrefuses, if_pos rfl]
    omega
  · left
    have hstill : f.obj.running = false := Bool.eq_false_iff.mpr hrun
    have hactive := hcount.resolve_left hrun
    obtain ⟨⟨b, old⟩, hsome⟩ := Option.ne_none_iff_exists'.mp hactive
    have h0 := activates_of_still hok hf hstill hsome hr
    have hactivates : activates id f.addr (s, .ioctl id pid .switchToFiber a env) = true := by
      rw [activates_request hr]
      exact decide_eq_true ⟨rfl, h0, by rw [hf]; rfl⟩
    rw [htally.activations, hactivates, if_pos rfl]
    omega

/-- What a switch counts is the fiber that it finds. -/
theorem found_of_counted (hok : KernelOk s.kernel)
    (hr : s.request id pid .switchToFiber a env = .ok r) {tgid : Pid} {p p' : ProcessArg}
    {e e' : Entry FiberArg} (hp : s.kernel.record tgid = some p) (he : e ∈ p.fibers)
    (hp' : r.kernel.record tgid = some p') (he' : e' ∈ p'.fibers) (haddr : e'.addr = e.addr)
    (hne : e'.obj.activations ≠ e.obj.activations ∨
      e'.obj.failedActivations ≠ e.obj.failedActivations) :
    tgid = id ∧ s.found id a = some e := by
  have hl := hok.linked tgid p hp
  by_cases hid : tgid = id
  · subst hid
    obtain ⟨q, x, hq, hx, htally⟩ := counters_switch hok hr hp' he'
    have hqp : q = p := Option.some.inj (hq.symm.trans hp)
    rw [hqp] at hx
    have hxe : x = e := hl.fibers_unique.eq_of_addr hx he (htally.addr.symm.trans haddr)
    rw [hxe] at htally
    have hfound : ∃ f, s.found tgid a = some f ∧ f.addr = e.addr := by
      by_contra hnone
      have hactivates : activates tgid e.addr (s, .ioctl tgid pid .switchToFiber a env) =
          false := by
        rw [activates_request hr]
        apply decide_eq_false
        rintro ⟨_, _, hmap⟩
        exact hnone (Option.map_eq_some_iff.mp hmap)
      have hrefuses : refuses tgid e.addr (s, .ioctl tgid pid .switchToFiber a env) = false := by
        rw [Bool.eq_false_iff]
        intro h
        obtain ⟨_, f, hf, ha, _⟩ := (refuses_iff tgid e.addr).mp h
        exact hnone ⟨f, hf, ha⟩
      rw [htally.activations, htally.failed, hactivates, hrefuses] at hne
      simp at hne
    obtain ⟨f, hf, ha⟩ := hfound
    obtain ⟨q', hq', hmem, _⟩ := index_of_found hf
    have hqp' : q' = p := Option.some.inj (hq'.symm.trans hp)
    rw [hqp'] at hmem
    rw [hf, hl.fibers_unique.eq_of_addr hmem he ha]
    exact ⟨rfl, rfl⟩
  · -- the other processes are as before
    rw [record_of_request hok hr hid, hp, Option.some.injEq] at hp'
    rw [← hp'] at he'
    have hee : e' = e := hl.fibers_unique.eq_of_addr he' he haddr
    rw [hee] at hne
    simp at hne

/-! ## Opens -/

theorem openFile_of_noRecord {k : Kernel} (h : ∀ tgid, task = some tgid → k.record tgid = none) :
    openFile k task name garbage singleOpen = .error .nullPointer := by
  cases task with
  | none => rfl
  | some tgid =>
    have hnone := h tgid rfl
    rw [Kernel.record, Option.map_eq_none_iff] at hnone
    simp only [openFile, hnone]

/-- An open in a process that is there, by the name of the number `a`. -/
theorem openFile_number {k : Kernel} {tgid : Pid} {p : ProcessArg} (hp : k.record tgid = some p)
    (hname : kstrtoul name = some a) (garbage : Word) (singleOpen : Bool) :
    openFile k (some tgid) name garbage singleOpen =
      .ok (if singleOpen then
        some ⟨tgid, (searchFiber (a.setWidth 32) p).map Entry.addr⟩ else none) := by
  rw [openFile_eq, openFileWith_record hp, fiberIdOf, hname, Option.getD_some]

/-! ## When the law holds -/

theorem intRange_of_found {f : Entry FiberArg} (h : s.found id a = some f)
    (hindex : f.obj.index = a.toNat) : IntRange a := by
  obtain ⟨_, _, _, heq⟩ := index_of_found h
  rw [← intToUlong_setWidth_iff, ← heq, hindex]

/-- A number that a switch counts for no other fiber is in the range of `int`, or
the switch counts nothing. -/
theorem switch_right_of_counts (hok : KernelOk s.kernel) (hlaw : ∀ r,
    s.request id pid .switchToFiber a env = .ok r → ∀ tgid p p' e e',
    s.kernel.record tgid = some p → e ∈ p.fibers → r.kernel.record tgid = some p' →
    e' ∈ p'.fibers → e'.addr = e.addr →
    e'.obj.activations ≠ e.obj.activations ∨
      e'.obj.failedActivations ≠ e.obj.failedActivations →
    tgid = id ∧ e.obj.index = a.toNat) : IntRange a ∨ CountsNothing s id pid a := by
  by_cases hrange : IntRange a
  · exact Or.inl hrange
  · right
    intro f hf
    by_contra hnot
    have hcount : f.obj.running = true ∨ s.activeFiber id pid ≠ none := by
      by_cases hrun : f.obj.running = true
      · exact Or.inl hrun
      · exact Or.inr fun hnone => hnot ⟨Bool.eq_false_iff.mpr hrun, hnone⟩
    obtain ⟨r, hr⟩ := switchToFiber_returns hok (s.task id pid) a env
    obtain ⟨p, p', e', hp, hmem, hp', he', haddr, hne⟩ := counter_changes hok hf hcount hr
    obtain ⟨_, hindex⟩ := hlaw r hr id p p' f e' hp hmem hp' he' haddr hne
    exact hrange (intRange_of_found hf hindex)

/-- What a switch counts under the condition has the index. -/
theorem index_of_switch_right (hok : KernelOk s.kernel)
    (hright : IntRange a ∨ CountsNothing s id pid a)
    (hr : s.request id pid .switchToFiber a env = .ok r) {tgid : Pid} {p p' : ProcessArg}
    {e e' : Entry FiberArg} (hp : s.kernel.record tgid = some p) (he : e ∈ p.fibers)
    (hp' : r.kernel.record tgid = some p') (he' : e' ∈ p'.fibers) (haddr : e'.addr = e.addr)
    (hne : e'.obj.activations ≠ e.obj.activations ∨
      e'.obj.failedActivations ≠ e.obj.failedActivations) : e.obj.index = a.toNat := by
  obtain ⟨_, hfound⟩ := found_of_counted hok hr hp he hp' he' haddr hne
  rcases hright with hrange | hnothing
  · obtain ⟨_, _, _, hindex⟩ := index_of_found hfound
    rw [hindex]
    exact (intToUlong_setWidth_iff a).mpr hrange
  · -- the switch leaves the kernel as it was
    have hsame := @rejected_of_countsNothing s id pid a env hok hnothing
    rw [hr] at hsame
    cases hsame
    have hpp : p' = p := Option.some.inj (hp'.symm.trans hp)
    rw [hpp] at he'
    have hee : e' = e := (hok.linked tgid p hp).fibers_unique.eq_of_addr he' he haddr
    rw [hee] at hne
    simp at hne

/-- Without a fiber with the index the condition leaves nothing to count. -/
theorem countsNothing_of_noIndex (hright : IntRange a ∨ CountsNothing s id pid a)
    (hno : NoIndex s.kernel id a.toNat) : CountsNothing s id pid a := by
  rcases hright with hrange | hnothing
  · intro f hf
    obtain ⟨p, hp, hmem, hindex⟩ := index_of_found hf
    rw [(intToUlong_setWidth_iff a).mpr hrange] at hindex
    exact absurd hindex (hno p hp f hmem)
  · exact hnothing

/-- The handle of a successful open has a fiber with the index, and an open without
such a fiber fails: then the open is right. -/
theorem opensRight_of_opens (hok : KernelOk s.kernel) (hname : kstrtoul name = some a)
    {garbage : Word} {singleOpen : Bool}
    (hbinds : ∀ h b, openFile s.kernel task name garbage singleOpen = .ok (some h) →
      h.fiber = some b → InRecord (s.kernel.record h.tgid) b a.toNat)
    (hdeclines : (∀ tgid, task = some tgid → NoIndex s.kernel tgid a.toNat) →
      openFile s.kernel task name garbage singleOpen = .ok none) :
    OpensRight s task a singleOpen := by
  by_cases hthere : ∃ tgid p, task = some tgid ∧ s.kernel.record tgid = some p
  · obtain ⟨tgid, p, htask, hp⟩ := hthere
    have hopen := openFile_number hp hname garbage singleOpen
    refine ⟨tgid, p, htask, hp, ?_⟩
    cases singleOpen with
    | false => exact Or.inl rfl
    | true =>
      right
      rw [if_pos rfl] at hopen
      constructor
      · by_contra hnone
        have hno : ∀ tgid', task = some tgid' → NoIndex s.kernel tgid' a.toNat := by
          intro tgid' htask' q hq e he hindex
          have heq : tgid' = tgid := Option.some.inj (htask'.symm.trans htask)
          rw [heq, hp, Option.some.injEq] at hq
          rw [← hq] at he
          exact hnone ⟨e, he, hindex⟩
        have hnull := hdeclines hno
        rw [htask, hopen] at hnull
        cases hnull
      · cases hsearch : searchFiber (a.setWidth 32) p with
        | none => exact Or.inr rfl
        | some f =>
          left
          rw [hsearch, Option.map_some] at hopen
          obtain ⟨q, hq, e, he, haddr, hindex⟩ :=
            hbinds ⟨tgid, some f.addr⟩ f.addr (by rw [htask, hopen]) rfl
          have hqp : q = p := Option.some.inj (hq.symm.trans hp)
          rw [hqp] at he
          have hef : e = f := (hok.linked tgid p hp).fibers_unique.eq_of_addr he
            (of_searchFiber hsearch).1 haddr
          rw [hef] at hindex
          exact intRange_of_found (by rw [found_eq hp, hsearch]) hindex
  · have hnone : ∀ tgid, task = some tgid → s.kernel.record tgid = none := by
      intro tgid htask
      cases hp : s.kernel.record tgid with
      | none => rfl
      | some p => exact absurd ⟨tgid, p, htask, hp⟩ hthere
    have hno : ∀ tgid, task = some tgid → NoIndex s.kernel tgid a.toNat := by
      intro tgid htask q hq
      rw [hnone tgid htask] at hq
      cases hq
    have herror := hdeclines hno
    rw [openFile_of_noRecord hnone] at herror
    cases herror

/-- The fiber of a handle under the condition has the index. -/
theorem index_of_opensRight (hname : kstrtoul name = some a) {garbage : Word}
    {singleOpen : Bool} (hright : OpensRight s task a singleOpen) {h : Handle} {b : ℕ}
    (hopen : openFile s.kernel task name garbage singleOpen = .ok (some h))
    (hb : h.fiber = some b) : InRecord (s.kernel.record h.tgid) b a.toNat := by
  obtain ⟨tgid, p, htask, hp, hopens⟩ := hright
  rw [htask, openFile_number hp hname] at hopen
  cases singleOpen with
  | false =>
    rw [if_neg Bool.false_ne_true] at hopen
    cases hopen
  | true =>
    rw [if_pos rfl, Except.ok.injEq, Option.some.injEq] at hopen
    rw [← hopen] at hb ⊢
    obtain ⟨f, hf, haddr⟩ := Option.map_eq_some_iff.mp hb
    obtain ⟨hmem, hindex⟩ := of_searchFiber hf
    rcases hopens with hfalse | ⟨_, hrange | hnone⟩
    · cases hfalse
    · rw [(intToUlong_setWidth_iff a).mpr hrange] at hindex
      exact ⟨p, hp, f, hmem, haddr, hindex⟩
    · rw [hnone] at hf
      cases hf

theorem declines_of_opensRight (hname : kstrtoul name = some a) {garbage : Word}
    {singleOpen : Bool} (hright : OpensRight s task a singleOpen)
    (hno : ∀ tgid, task = some tgid → NoIndex s.kernel tgid a.toNat) :
    openFile s.kernel task name garbage singleOpen = .ok none := by
  obtain ⟨tgid, p, htask, hp, hopens⟩ := hright
  rcases hopens with hfalse | ⟨⟨e, he, hindex⟩, _⟩
  · rw [htask, openFile_number hp hname, hfalse]
    rfl
  · exact absurd hindex (hno tgid htask p hp e he)

/-- A number targets the fiber with this index, or nothing, exactly when it is in the
range of `int` or the switch counts nothing, and the open is right. -/
theorem targets_iff {context : Pid × Pid → Context} {as : List Action}
    (h : Run Step (System.init context) as s) (id pid : Pid) (env : Env) (task : Option Pid)
    (hname : kstrtoul name = some a) (garbage : Word) (singleOpen : Bool) :
    Targets s id pid a env task name garbage singleOpen ↔
      (IntRange a ∨ CountsNothing s id pid a) ∧ OpensRight s task a singleOpen := by
  have hok := kernelOk_run h
  constructor
  · intro hlaw
    exact ⟨switch_right_of_counts hok hlaw.counts,
      opensRight_of_opens hok hname hlaw.binds hlaw.declines⟩
  · rintro ⟨hswitch, hopen⟩
    refine ⟨fun r hr tgid p p' e e' hp he hp' he' haddr hne => ⟨?_, ?_⟩, fun hno => ?_,
      fun handle b => index_of_opensRight hname hopen, declines_of_opensRight hname hopen⟩
    · exact (found_of_counted hok hr hp he hp' he' haddr hne).1
    · exact index_of_switch_right hok hswitch hr hp he hp' he' haddr hne
    · have hnothing := countsNothing_of_noIndex hswitch hno
      exact ⟨_, rejected_of_countsNothing hok hnothing, rfl, rfl, rfl⟩

/-- `targets_iff` for the number 1 in a process with the fibers 0 and 1. -/
theorem targets_one : ∃ (as : List Action) (s : System),
    Run Step (System.init zeroContext) as s ∧ kstrtoul (decimal 1) = some 1 ∧
    Targets s 7 7 1 Env.plain (some 7) (decimal 1) 0 true := by
  obtain ⟨s, hrun, hp⟩ := exists_run (System.init zeroContext)
    [.ioctl 7 7 .convertToFiber 0 Env.plain, .ioctl 7 7 .createFiber 0 Env.plain]
    (fun s => (s.kernel.record 7).any fun p => p.fibers.any fun e => e.obj.index == 1)
    (by decide +kernel)
  obtain ⟨p, hrec, hany⟩ := (Option.any_eq_true _ _).mp hp
  obtain ⟨e, he, hindex⟩ := List.any_eq_true.mp hany
  have hname : kstrtoul (decimal 1) = some 1 := by decide
  have hrange : IntRange 1 := Or.inl (by decide)
  refine ⟨_, s, hrun, hname, (targets_iff hrun 7 7 Env.plain (some 7) hname 0 true).mpr ?_⟩
  exact ⟨Or.inl hrange, 7, p, rfl, hrec, Or.inr ⟨⟨e, he, eq_of_beq hindex⟩, Or.inl hrange⟩⟩

/-- A switch to `2 ^ 32` activates the fiber 0. -/
theorem wrong_target : ∃ (as : List Action) (s : System) (r : Reply) (f : Entry FiberArg),
    Run Step (System.init zeroContext) as s ∧
    s.request 7 7 .switchToFiber 4294967296 Env.plain = .ok r ∧ r.ret = 0 ∧
    s.found 7 4294967296 = some f ∧ f.obj.index = 0 ∧
    kstrtoul (decimal 4294967296) = some 4294967296 ∧
    ¬ Targets s 7 7 4294967296 Env.plain (some 7) (decimal 4294967296) 0 true := by
  obtain ⟨s, hrun, hp⟩ := exists_run (System.init zeroContext)
    [.ioctl 7 7 .convertToFiber 0 Env.plain, .ioctl 7 7 .createFiber 0 Env.plain,
      .ioctl 7 7 .switchToFiber 1 Env.plain]
    (fun s => ((s.found 7 4294967296).any fun f => f.obj.index == 0 && !f.obj.running) &&
      (s.activeFiber 7 7).isSome &&
      (s.request 7 7 .switchToFiber 4294967296 Env.plain).toOption.any fun r => r.ret == 0)
    (by decide +kernel)
  simp only [Bool.and_eq_true] at hp
  obtain ⟨⟨hany, hactive⟩, hp⟩ := hp
  obtain ⟨f, hf, hcond⟩ := (Option.any_eq_true _ _).mp hany
  obtain ⟨hzero, _⟩ := Bool.and_eq_true_iff.mp hcond
  have hindex : f.obj.index = 0 := eq_of_beq hzero
  obtain ⟨r, hr, hp⟩ := of_toOption_any hp
  refine ⟨_, s, r, f, hrun, hr, eq_of_beq hp, hf, hindex, by decide, fun hlaw => ?_⟩
  have hcount : f.obj.running = true ∨ s.activeFiber 7 7 ≠ none :=
    Or.inr (Option.isSome_iff_ne_none.mp hactive)
  obtain ⟨p, p', e', hp, hmem, hp', he', haddr, hne⟩ :=
    counter_changes (kernelOk_run hrun) hf hcount hr
  obtain ⟨_, hwrong⟩ := hlaw.counts r hr 7 p p' f e' hp hmem hp' he' haddr hne
  rw [hindex] at hwrong
  exact absurd hwrong (by decide)

end LinuxFibers.Module
