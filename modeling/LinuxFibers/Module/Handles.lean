import LinuxFibers.Module.Ownership
import Mathlib.Algebra.Group.Nat.Defs

/-!
# Open files of the fibers directory

`open_file` and `show_file` of `multi_thread/Module/proc.c`.  An open file holds
the pointer that `search_fiber` gave when it was opened, and `show_file` follows
the pointer at every read.

`open_file` tests neither the task nor the record, and opens a file with `NULL`
when the fiber is missing.  `show_file` tests nothing.  `handles_follow` says for
every run when they still do what they are for: an open does exactly when the
record and the fiber are found, and a read does exactly when no exit since the
open took the fiber or its record (`removesFiber`).  `shown_after_free` is a read
of a freed fiber.
-/

namespace LinuxFibers.Module

open LinuxFibers.Lib HashTable

/-! ## `open_file` and `show_file` -/

/-- A file of the fibers directory of a process, when it is open: the pointer in
its `seq_file`. -/
structure Handle where
  tgid : Pid
  fiber : Option ℕ
  deriving DecidableEq

/-- The value that `kstrtoul` reads to base 10: digits behind at most one `+` and
before at most one newline. -/
def kstrtoul (name : List Char) : Option Word :=
  let unsigned := if name.head? = some '+' then name.tail else name
  let digits := if unsigned.getLast? = some '\n' then unsigned.dropLast else unsigned
  let value := Nat.ofDigitChars 10 digits 0
  if digits ≠ [] ∧ digits.all Char.isDigit ∧ value < 2 ^ 64 then some (BitVec.ofNat 64 value)
  else none

/-- The `int` that `open_file` passes to `search_fiber`.  `fiber_id` holds garbage
when the name is no number, since the result of `kstrtoul` is not tested. -/
def fiberIdOf (name : List Char) (garbage : Word) : BitVec 32 :=
  ((kstrtoul name).getD garbage).setWidth 32

/-- `open_file` for a file of the directory of the task.  `single_open` fails with
`-ENOMEM`, which is `none` here. -/
def openFile (k : Kernel) (task : Option Pid) (name : List Char) (garbage : Word)
    (singleOpen : Bool) : Except Fault (Option Handle) :=
  match task with
  | none => .error .nullPointer
  | some tgid =>
      match searchProcess k tgid with
      | none => .error .nullPointer
      | some process =>
          let fiber := searchFiber (fiberIdOf name garbage) process.obj
          .ok (if singleOpen then some ⟨tgid, fiber.map Entry.addr⟩ else none)

/-- The values that `show_file` prints. -/
structure Report where
  running : Bool
  startingPoint : Word
  threadId : Pid
  activations : ℕ
  failedActivations : ℕ
  totalTime : Word

/-- What `show_file` prints for a fiber. -/
def FiberArg.report (fiber : FiberArg) : Report :=
  ⟨fiber.running, fiber.startingPoint, fiber.threadId, fiber.activations, fiber.failedActivations,
    fiber.totalTime⟩

/-- The fiber at an address in the table of some record. -/
def Kernel.fiberAt (k : Kernel) (a : ℕ) : Option FiberArg :=
  k.listProcess.findSome? fun e => e.obj.fibers.deref a

/-- `show_file`.  `unlinked` is the memory of the objects that are allocated and in
no table, such as the fibers that are left when a record is freed. -/
def showFile (k : Kernel) (unlinked : ℕ → FiberArg) (h : Handle) : Except Fault Report :=
  match h.fiber with
  | none => .error .nullPointer
  | some a =>
      match k.fiberAt a with
      | some fiber => .ok fiber.report
      | none => if a ∈ k.allocated then .ok (unlinked a).report else .error (.notLinked a)

/-! ## The purpose of a file -/

/-- The fiber at `a` is in the table of the record, with the index. -/
def ProcessArg.Has (p : ProcessArg) (a index : ℕ) : Prop :=
  ∃ f ∈ p.fibers, f.addr = a ∧ f.obj.index = index

/-- There is a record, and the fiber at `a` is in its table. -/
def InRecord (o : Option ProcessArg) (a index : ℕ) : Prop := ∃ p, o = some p ∧ p.Has a index

/-- An open ends with an error, or with a fiber of the process that has the index
of the name. -/
def OpenFollows (k : Kernel) (name : List Char) (garbage : Word) :
    Except Fault (Option Handle) → Prop
  | .error _ => False
  | .ok none => True
  | .ok (some h) =>
      ∃ a, h.fiber = some a ∧
        InRecord (k.record h.tgid) a (intToUlong (fiberIdOf name garbage))

/-- A read gives the fields of a fiber that is in the table of the process. -/
def ShowFollows (k : Kernel) (h : Handle) (x : Except Fault Report) : Prop :=
  ∃ p, k.record h.tgid = some p ∧ ∃ f ∈ p.fibers, h.fiber = some f.addr ∧ x = .ok f.obj.report

/-- The record and the fiber are found, or `single_open` fails anyway. -/
def Finds (k : Kernel) (task : Option Pid) (name : List Char) (garbage : Word)
    (singleOpen : Bool) : Prop :=
  ∃ tgid e, task = some tgid ∧ searchProcess k tgid = some e ∧
    (singleOpen = true → searchFiber (fiberIdOf name garbage) e.obj ≠ none)

/-- The exit of a converted thread of the process that takes the fiber at `a`,
because it is the active fiber or because the record goes with the last thread. -/
def removesFiber (tgid : Pid) (a : ℕ) : System × Action → Prop
  | (s, .exit id pid) => id = tgid ∧ ∃ p th, s.kernel.record id = some p ∧
      searchThread pid p = some th ∧ (th.obj.activeFiber = some a ∨ s.kernel.countThreads = 1)
  | _ => False

variable {k k' : Kernel} {s t : System} {tgid : Pid} {a index : ℕ}

/-! ## Fibers that stay and fibers that go -/

@[simp] theorem inRecord_some {p : ProcessArg} : InRecord (some p) a index ↔ p.Has a index := by
  simp [InRecord]

@[simp] theorem not_inRecord_none : ¬ InRecord none a index := by
  simp [InRecord]

/-- A table whose fibers are rewritten in place. -/
theorem has_mapObj {p q : ProcessArg} {g : Entry FiberArg → FiberArg}
    (hq : q.fibers = p.fibers.mapObj g) (hg : ∀ e ∈ p.fibers, (g e).index = e.obj.index) :
    q.Has a index ↔ p.Has a index := by
  constructor
  · rintro ⟨f, hf, ha, hi⟩
    rw [hq] at hf
    obtain ⟨e, he, rfl⟩ := mem_mapObj.mp hf
    exact ⟨e, he, ha, by rw [← hg e he]; exact hi⟩
  · rintro ⟨f, hf, ha, hi⟩
    refine ⟨{ f with obj := g f }, ?_, ha, ?_⟩
    · rw [hq]
      exact mem_mapObj_of_mem g hf
    · rw [← hi]
      exact hg f hf

/-- A table with one more fiber. -/
theorem has_hashAdd {p q : ProcessArg} {b c n : ℕ} {x : FiberArg}
    (hq : q.fibers = p.fibers.hashAdd b c x) (hc : n ≤ c) :
    (p.Has a index → q.Has a index) ∧ (q.Has a index → p.Has a index ∨ n ≤ a) := by
  constructor
  · rintro ⟨f, hf, ha, hi⟩
    refine ⟨f, ?_, ha, hi⟩
    rw [hq]
    exact mem_hashAdd.mpr (Or.inr hf)
  · rintro ⟨f, hf, ha, hi⟩
    rw [hq] at hf
    rcases mem_hashAdd.mp hf with rfl | hf
    · right
      rw [← ha]
      exact hc
    · exact Or.inl ⟨f, hf, ha, hi⟩

/-- A request takes no fiber from a table, and the fibers it adds are new. -/
theorem inRecord_change {cur : Task} {arg : Word} {env : Env} {r : Reply} {cmd : Command}
    {o o' : Option ProcessArg} (hc : Change k cur arg env r cmd o o')
    (hl : ∀ p, o = some p → Linked k.brk p) :
    (InRecord o a index → InRecord o' a index) ∧
      (InRecord o' a index → InRecord o a index ∨ k.brk ≤ a) := by
  have hsame : ∀ {p q : ProcessArg}, (q.Has a index ↔ p.Has a index) →
      (InRecord (some p) a index → InRecord (some q) a index) ∧
        (InRecord (some q) a index → InRecord (some p) a index ∨ k.brk ≤ a) := by
    intro p q h
    simp only [inRecord_some, h]
    exact ⟨id, Or.inl⟩
  have hnew : ¬ (newProcess cur.tgid).Has a index := by
    rintro ⟨f, hf, _⟩
    cases hf
  cases hc with
  | idle => exact ⟨id, Or.inl⟩
  | opened =>
    simp only [inRecord_some, not_inRecord_none, hnew]
    exact ⟨id, Or.inl⟩
  | @converted o p t f hsource _ _ _ hf =>
    have hadd := @has_hashAdd a index p (p.convert cur.pid t f
      (convertedFiber cur env p.fiberId)) (fiberBucket p.fiberId) f k.brk _ rfl hf
    have hp : InRecord o a index ↔ p.Has a index := by
      rcases hsource with rfl | ⟨rfl, rfl⟩
      · exact inRecord_some
      · simp only [not_inRecord_none, hnew]
    rw [hp, inRecord_some]
    exact hadd
  | @created p th f _ hf =>
    simp only [inRecord_some]
    exact has_hashAdd (p := p) (b := fiberBucket p.fiberId) rfl hf
  | failed =>
    apply hsame
    apply has_mapObj (modify_eq_mapObj _ _ _)
    intro e _
    split <;> rfl
  | switched =>
    apply hsame
    rw [switch_eq]
    exact has_mapObj rfl fun e _ => switchedFiber_index _ _ _ e
  | @stored _ p _ b old f _ _ hold hw =>
    apply hsame
    apply has_mapObj (modify_eq_mapObj p.fibers b fun _ => f)
    intro e he
    split
    · rename_i hb
      rw [hw.index_eq, (hl p rfl).fibers_unique.obj_of_deref hold he hb]
    · rfl

/-- An exit takes the fibers of `removesFiber` and no others. -/
theorem inRecord_exit {id pid : Pid} (hok : KernelOk s.kernel)
    (hx : preHandler s.kernel id pid = .ok k') :
    InRecord (k'.record tgid) a index ↔
      InRecord (s.kernel.record tgid) a index ∧ ¬ removesFiber tgid a (s, .exit id pid) := by
  have he := exited hok.toTables hx
  by_cases hid : id = tgid
  · subst hid
    rcases he.change with ⟨rfl, hnone⟩ | ⟨e, th, b, old, hfound, hth, hactive, _, hrem⟩
    · refine ⟨fun h => ⟨h, ?_⟩, And.left⟩
      rintro ⟨_, p, th, hp, hth, _⟩
      rw [hnone p hp] at hth
      cases hth
    · obtain ⟨hmem, rfl⟩ := of_searchProcess hfound
      have hrec := record_of_mem hok.toTables hmem
      have hremoves : removesFiber e.obj.pid a (s, .exit e.obj.pid pid) ↔
          b = a ∨ s.kernel.countThreads = 1 := by
        constructor
        · rintro ⟨_, p, th', hp, hth', hgone⟩
          rw [hrec, Option.some.injEq] at hp
          subst hp
          rw [hth, Option.some.injEq] at hth'
          subst hth'
          rw [hactive, Option.some.injEq] at hgone
          exact hgone
        · intro hgone
          refine ⟨rfl, e.obj, th, hrec, hth, ?_⟩
          rw [hactive, Option.some.injEq]
          exact hgone
      have hzero : k'.countThreads = 0 ↔ s.kernel.countThreads = 1 := by
        rw [hrem.countThreads]
        omega
      rw [hremoves, hrem.record, hrec]
      split
      · rename_i hz
        have hone := hzero.mp hz
        simp [hone]
      · rename_i hz
        have hne : ¬ s.kernel.countThreads = 1 := fun h => hz (hzero.mpr h)
        simp only [inRecord_some, hne, or_false]
        constructor
        · rintro ⟨f, hf, ha, hi⟩
          obtain ⟨hf, hfb⟩ := mem_hashDel.mp hf
          exact ⟨⟨f, hf, ha, hi⟩, fun hba => hfb (by rw [ha, hba])⟩
        · rintro ⟨⟨f, hf, ha, hi⟩, hba⟩
          exact ⟨f, mem_hashDel.mpr ⟨hf, fun hfb => hba (by rw [← hfb, ha])⟩, ha, hi⟩
  · rw [he.others tgid (Ne.symm hid)]
    exact ⟨fun h => ⟨h, fun hr => hid hr.1⟩, And.left⟩

theorem inRecord_lt (hok : KernelOk k) (h : InRecord (k.record tgid) a index) : a < k.brk := by
  obtain ⟨p, hp, f, hf, rfl, _⟩ := h
  exact (hok.linked tgid p hp).fibers_lt f hf

/-- A request leaves the fibers that are in the tables, and adds new ones to the
table of the caller. -/
theorem inRecord_request {id pid : Pid} {cmd : Command} {arg : Word} {env : Env} {r : Reply}
    (hok : KernelOk s.kernel) (hr : s.request id pid cmd arg env = .ok r) :
    (InRecord (s.kernel.record tgid) a index → InRecord (r.kernel.record tgid) a index) ∧
      (InRecord (r.kernel.record tgid) a index →
        InRecord (s.kernel.record tgid) a index ∨ id = tgid ∧ s.kernel.brk ≤ a) := by
  by_cases hid : id = tgid
  · subst hid
    have hc := @inRecord_change s.kernel a index _ _ _ _ _ _ _ (change_of_request hok hr rfl)
      (hok.linked id)
    exact ⟨hc.1, fun h => (hc.2 h).imp_right fun hle => ⟨rfl, hle⟩⟩
  · rw [record_of_request hok hr (Ne.symm hid)]
    exact ⟨fun h => h, Or.inl⟩

/-- A step keeps a fiber in its table unless it removes it, and never brings back a
fiber that is gone. -/
theorem inRecord_step {m : Action} (hok : KernelOk s.kernel) (ha : a < s.kernel.brk)
    (h : Step s m t) : InRecord (t.kernel.record tgid) a index ↔
      InRecord (s.kernel.record tgid) a index ∧ ¬ removesFiber tgid a (s, m) := by
  cases m with
  | user =>
    cases h
    exact ⟨fun h => ⟨h, id⟩, And.left⟩
  | ioctl id pid cmd arg env =>
    obtain ⟨r, hr, rfl⟩ := step_ioctl h
    have hq := @inRecord_request s tgid a index id pid cmd arg env r hok hr
    constructor
    · intro hin
      rcases hq.2 hin with hin | ⟨_, hle⟩
      · exact ⟨hin, fun h => h⟩
      · omega
    · exact fun h => hq.1 h.1
  | exit id pid =>
    obtain ⟨k', hk, rfl⟩ := step_exit h
    exact inRecord_exit hok hk

/-- A fiber is in a table after a run exactly when it was there before and no step
removed it. -/
theorem inRecord_run {tr : List (System × Action)} (hok : KernelOk s.kernel)
    (hlt : a < s.kernel.brk) (h : Run (Recorded Step) s tr t) :
    KernelOk t.kernel ∧ a < t.kernel.brk ∧ (InRecord (t.kernel.record tgid) a index ↔
      InRecord (s.kernel.record tgid) a index ∧ ∀ m ∈ tr, ¬ removesFiber tgid a m) := by
  refine h.invariantTrace (I := fun tr t => KernelOk t.kernel ∧ a < t.kernel.brk ∧
    (InRecord (t.kernel.record tgid) a index ↔
      InRecord (s.kernel.record tgid) a index ∧ ∀ m ∈ tr, ¬ removesFiber tgid a m)) ?_ ?_
  · rintro tr s ⟨s', m⟩ t ⟨hok, hlt, hiff⟩ ⟨rfl, hstep⟩
    refine ⟨kernelOk_step hok hstep, Nat.lt_of_lt_of_le hlt (brk_le_step hok hstep), ?_⟩
    rw [inRecord_step hok hlt hstep, hiff, and_assoc]
    simp only [List.mem_append, List.mem_singleton, or_imp, forall_and, forall_eq]
  · exact ⟨hok, hlt, fun hin => ⟨hin, fun _ h => by cases h⟩, And.left⟩

/-! ## Addresses -/

/-- No fiber is in the tables of two processes. -/
def Apart (k : Kernel) : Prop :=
  ∀ id id' a i i', InRecord (k.record id) a i → InRecord (k.record id') a i' → id = id'

theorem apart_step {m : Action} (hok : KernelOk s.kernel) (hapart : Apart s.kernel)
    (h : Step s m t) : Apart t.kernel := by
  intro id id' a i i' h₁ h₂
  cases m with
  | user =>
    cases h
    exact hapart id id' a i i' h₁ h₂
  | ioctl tgid pid cmd arg env =>
    obtain ⟨r, hr, rfl⟩ := step_ioctl h
    have hold : ∀ {tgid' j}, InRecord (s.kernel.record tgid') a j → a < s.kernel.brk :=
      fun h => inRecord_lt hok h
    rcases (inRecord_request hok hr).2 h₁ with h₁ | ⟨rfl, hle⟩
    · rcases (inRecord_request hok hr).2 h₂ with h₂ | ⟨_, hle⟩
      · exact hapart id id' a i i' h₁ h₂
      · have hlt := hold h₁
        omega
    · rcases (inRecord_request hok hr).2 h₂ with h₂ | ⟨rfl, _⟩
      · have hlt := hold h₂
        omega
      · rfl
  | exit tgid pid =>
    obtain ⟨k', hk, rfl⟩ := step_exit h
    exact hapart id id' a i i' ((inRecord_exit hok hk).mp h₁).1 ((inRecord_exit hok hk).mp h₂).1

theorem apart_run {context : Pid × Pid → Context} {as : List Action}
    (h : Run Step (System.init context) as s) : KernelOk s.kernel ∧ Apart s.kernel := by
  refine h.invariant (I := fun s => KernelOk s.kernel ∧ Apart s.kernel) ?_ ?_
  · intro s m t hs hm
    exact ⟨kernelOk_step hs.1 hm, apart_step hs.1 hs.2 hm⟩
  · refine ⟨kernelOk_init, fun id id' a i i' h => ?_⟩
    exact absurd h not_inRecord_none

/-- The memory at the address of a fiber in a table is the fiber. -/
theorem fiberAt_of_mem (hok : KernelOk k) (hapart : Apart k) {p : ProcessArg}
    (hp : k.record tgid = some p) {f : Entry FiberArg} (hf : f ∈ p.fibers) :
    k.fiberAt f.addr = some f.obj := by
  have hl := hok.linked tgid p hp
  have hin : InRecord (k.record tgid) f.addr f.obj.index := ⟨p, hp, f, hf, rfl, rfl⟩
  obtain ⟨e, he, hep, hpid⟩ := mem_of_record hp
  have hself : e.obj.fibers.deref f.addr = some f.obj := by
    rw [hep]
    exact deref_of_mem hl.fibers_unique hf
  cases hat : k.fiberAt f.addr with
  | none =>
    have hnone := List.findSome?_eq_none_iff.mp hat e he
    rw [hself] at hnone
    cases hnone
  | some g =>
    obtain ⟨e', he', hg⟩ := List.exists_of_findSome?_eq_some hat
    obtain ⟨x, hx, hxa, hxg⟩ := mem_of_deref hg
    have hrec' := record_of_mem hok.toTables he'
    have hsame : e'.obj.pid = tgid :=
      hapart _ _ _ _ _ ⟨e'.obj, hrec', x, hx, hxa, rfl⟩ hin
    have hee : e' = e := hok.pid_inj e' he' e he (by rw [hsame, hep, hpid])
    rw [← hg, hee, hself]

/-! ## Opens and reads -/

/-- An open does what it is for exactly when the record and the fiber are found. -/
theorem openFollows_iff (k : Kernel) (task : Option Pid) (name : List Char) (garbage : Word)
    (singleOpen : Bool) :
    OpenFollows k name garbage (openFile k task name garbage singleOpen) ↔
      Finds k task name garbage singleOpen := by
  cases task with
  | none =>
    refine ⟨fun h => h.elim, ?_⟩
    rintro ⟨_, _, h, _⟩
    cases h
  | some tgid =>
    cases he : searchProcess k tgid with
    | none =>
      have hfault : openFile k (some tgid) name garbage singleOpen = .error .nullPointer := by
        simp only [openFile, he]
      rw [hfault]
      refine ⟨fun h => h.elim, ?_⟩
      rintro ⟨_, e, htask, he', _⟩
      rw [← Option.some.inj htask, he] at he'
      cases he'
    | some e =>
      have hopen : openFile k (some tgid) name garbage singleOpen =
          .ok (if singleOpen then
            some ⟨tgid, (searchFiber (fiberIdOf name garbage) e.obj).map Entry.addr⟩
          else none) := by
        simp only [openFile, he]
      have hrec : k.record tgid = some e.obj := record_of_searchProcess he
      rw [hopen]
      cases singleOpen with
      | false => exact iff_of_true trivial ⟨tgid, e, rfl, he, fun h => by cases h⟩
      | true =>
        cases hf : searchFiber (fiberIdOf name garbage) e.obj with
        | none =>
          refine ⟨?_, ?_⟩
          · rintro ⟨a, ha, _⟩
            cases ha
          · rintro ⟨_, e', htask, he', hfound⟩
            rw [← Option.some.inj htask, he, Option.some.injEq] at he'
            subst he'
            exact absurd hf (hfound rfl)
        | some f =>
          have hmem := of_searchFiber hf
          refine iff_of_true ⟨f.addr, rfl, ?_⟩ ⟨tgid, e, rfl, he, fun _ => ?_⟩
          · show InRecord (k.record tgid) f.addr _
            rw [hrec, inRecord_some]
            exact ⟨f, hmem.1, rfl, hmem.2⟩
          · rw [hf]
            exact Option.some_ne_none f

/-- The pointer of an open file was the pointer to a fiber in the table. -/
theorem of_openFile {task : Option Pid} {name : List Char} {garbage : Word} {singleOpen : Bool}
    {h : Handle} (hopen : openFile k task name garbage singleOpen = .ok (some h))
    (hfiber : h.fiber = some a) :
    InRecord (k.record h.tgid) a (intToUlong (fiberIdOf name garbage)) := by
  unfold openFile at hopen
  split at hopen
  · cases hopen
  · split at hopen
    · cases hopen
    · rename_i tgid e he
      simp only [Except.ok.injEq] at hopen
      split at hopen
      · cases hopen
        obtain ⟨f, hf, rfl⟩ := Option.map_eq_some_iff.mp hfiber
        obtain ⟨hmem, hindex⟩ := of_searchFiber hf
        exact ⟨e.obj, record_of_searchProcess he, f, hmem, rfl, hindex⟩
      · cases hopen

/-- A read does what it is for exactly when the fiber of the file is in the table
of the process. -/
theorem showFollows_iff (hok : KernelOk k) (hapart : Apart k) (unlinked : ℕ → FiberArg)
    (h : Handle) : ShowFollows k h (showFile k unlinked h) ↔
      ∃ a, h.fiber = some a ∧ ∃ i, InRecord (k.record h.tgid) a i := by
  constructor
  · rintro ⟨p, hp, f, hf, hfiber, _⟩
    exact ⟨f.addr, hfiber, f.obj.index, p, hp, f, hf, rfl, rfl⟩
  · rintro ⟨_, hfiber, i, p, hp, f, hf, rfl, _⟩
    refine ⟨p, hp, f, hf, hfiber, ?_⟩
    simp only [showFile, hfiber, fiberAt_of_mem hok hapart hp hf]

/-- In every run, an open does what it is for exactly when the record and the fiber
are found, and a read of the file does exactly when the open found the fiber and no
exit since then took the fiber or its record. -/
theorem handles_follow {context : Pid × Pid → Context} {as : List Action}
    {tr : List (System × Action)} {task : Option Pid} {name : List Char} {garbage : Word}
    {singleOpen : Bool} {unlinked : ℕ → FiberArg} (h₁ : Run Step (System.init context) as s)
    (h₂ : Run (Recorded Step) s tr t) :
    (OpenFollows s.kernel name garbage (openFile s.kernel task name garbage singleOpen) ↔
      Finds s.kernel task name garbage singleOpen) ∧
    ∀ h, openFile s.kernel task name garbage singleOpen = .ok (some h) →
      (ShowFollows t.kernel h (showFile t.kernel unlinked h) ↔
        Finds s.kernel task name garbage singleOpen ∧
          ∀ a, h.fiber = some a → ∀ m ∈ tr, ¬ removesFiber h.tgid a m) := by
  have hopen := openFollows_iff s.kernel task name garbage singleOpen
  refine ⟨hopen, fun h hh => ?_⟩
  obtain ⟨hok, _⟩ := apart_run h₁
  obtain ⟨tr', hrun⟩ := (h₁.append h₂.ofRecorded).exists_recorded
  obtain ⟨hok', hapart'⟩ := apart_run hrun.ofRecorded
  rw [showFollows_iff hok' hapart', ← hopen, hh]
  constructor
  · rintro ⟨a, ha, i, hin⟩
    have hbefore := of_openFile hh ha
    have hnone := ((inRecord_run hok (inRecord_lt hok hbefore) h₂).2.2.mp hin).2
    refine ⟨⟨a, ha, hbefore⟩, fun b hb => ?_⟩
    rw [ha, Option.some.injEq] at hb
    exact hb ▸ hnone
  · rintro ⟨⟨a, ha, hin⟩, hnone⟩
    exact ⟨a, ha, _, (inRecord_run hok (inRecord_lt hok hin) h₂).2.2.mpr ⟨hin, hnone a ha⟩⟩

/-! ## Concrete files -/

/-- The file of fiber 1 is opened, and read after one more step. -/
theorem exists_opened (as : List Action) (m : Action) (q : System → ℕ → Bool)
    (h : (replay System.exec (fun _ _ => true) (System.init zeroContext) as).any (fun s =>
      match openFile s.kernel (some 7) ['1'] 0 true with
      | .ok (some ⟨7, some a⟩) =>
          match s.exec m with
          | .ok t => q t a
          | .error _ => false
      | _ => false) = true) :
    ∃ s a t, Run Step (System.init zeroContext) as s ∧
      openFile s.kernel (some 7) ['1'] 0 true = .ok (some ⟨7, some a⟩) ∧ Step s m t ∧
      q t a = true := by
  obtain ⟨s, hs, hp⟩ := exists_run (System.init zeroContext) as _ h
  split at hp
  · rename_i a hopen
    split at hp
    · rename_i t hstep
      exact ⟨s, a, t, hs, hopen, hstep, hp⟩
    · cases hp
  · cases hp

/-- `handles_follow` for a file that is read after a switch to its fiber. -/
theorem handles_follow_after_switch : ∃ (s t : System) (h : Handle) (m : Action),
    openFile s.kernel (some 7) ['1'] 0 true = .ok (some h) ∧ Step s m t ∧
    ShowFollows t.kernel h (showFile t.kernel (fun _ => convertedFiber ⟨zeroContext (7, 7), 7, 7⟩
      Env.plain 0) h) := by
  obtain ⟨s, a, t, hs, hopen, hstep, hfind⟩ := exists_opened
    [.ioctl 7 7 .convertToFiber 0 Env.plain, .ioctl 7 7 .createFiber 0 Env.plain]
    (.ioctl 7 7 .switchToFiber 1 Env.plain) (fun _ _ => true) (by decide +kernel)
  have hrun : Run (Recorded Step) s [(s, .ioctl 7 7 .switchToFiber 1 Env.plain)] t :=
    Run.single ⟨rfl, hstep⟩
  obtain ⟨hfollows, hshow⟩ := @handles_follow s t zeroContext _ _ (some 7) ['1'] 0 true
    (fun _ => convertedFiber ⟨zeroContext (7, 7), 7, 7⟩ Env.plain 0) hs hrun
  refine ⟨s, t, _, _, hopen, hstep, (hshow _ hopen).mpr ⟨hfollows.mp ?_, ?_⟩⟩
  · rw [hopen]
    exact ⟨a, rfl, of_openFile hopen rfl⟩
  · intro b _ m hm hremoves
    rw [List.mem_singleton.mp hm] at hremoves
    exact hremoves

/-- The file of a fiber is read after its thread has exited: the fiber was freed. -/
theorem shown_after_free : ∃ (as : List Action) (s t : System) (a : ℕ),
    Run Step (System.init zeroContext) as s ∧
    openFile s.kernel (some 7) ['1'] 0 true = .ok (some ⟨7, some a⟩) ∧ Step s (.exit 7 8) t ∧
    ∀ unlinked, showFile t.kernel unlinked ⟨7, some a⟩ = .error (.notLinked a) := by
  obtain ⟨s, a, t, hs, hopen, hstep, hq⟩ := exists_opened
    [.ioctl 7 7 .convertToFiber 0 Env.plain, .ioctl 7 8 .convertToFiber 0 Env.plain] (.exit 7 8)
    (fun t a => (t.kernel.fiberAt a).isNone && !t.kernel.allocated.contains a) (by decide +kernel)
  simp only [Bool.and_eq_true, Option.isNone_iff_eq_none, Bool.not_eq_true', List.contains_eq_mem,
    decide_eq_false_iff_not] at hq
  refine ⟨_, s, t, a, hs, hopen, hstep, fun unlinked => ?_⟩
  simp only [showFile, hq.1, if_neg hq.2]

end LinuxFibers.Module
