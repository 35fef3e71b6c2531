import LinuxFibers.Module.Ioctl

/-!
# The process records

`list_process` as a map from a `tgid` to the record of the process.  `Tables`
says that the records are linked in the buckets that `search_process` looks in
and that no `tgid` has two of them.  Every write of the module keeps it, and
changes the record of one `tgid` only.
-/

namespace LinuxFibers.Module

open LinuxFibers.Lib HashTable

variable {k k' : Kernel}

/-- `list_process` is well formed. -/
structure Tables (k : Kernel) : Prop where
  unique : k.listProcess.UniqueAddr
  bucket_eq : ∀ e ∈ k.listProcess, e.bucket = hash32 e.obj.pid
  pid_inj : ∀ e ∈ k.listProcess, ∀ e' ∈ k.listProcess, e.obj.pid = e'.obj.pid → e = e'
  addr_lt : ∀ e ∈ k.listProcess, e.addr < k.brk

/-- The record of a process. -/
def Kernel.record (k : Kernel) (id : Pid) : Option ProcessArg :=
  (searchProcess k id).map Entry.obj

theorem of_searchProcess {id : Pid} {e : Entry ProcessArg} (h : searchProcess k id = some e) :
    e ∈ k.listProcess ∧ e.obj.pid = id := by
  obtain ⟨he, _, hp⟩ := of_search h
  exact ⟨he, by simpa using hp⟩

theorem searchProcess_of_mem (h : Tables k) {e : Entry ProcessArg} (he : e ∈ k.listProcess) :
    searchProcess k e.obj.pid = some e := by
  have honly : ∀ x ∈ k.listProcess, (x.obj.pid == e.obj.pid) = true → x = e := by
    intro x hx hp
    exact h.pid_inj x hx e he (by simpa using hp)
  exact (search_eq_some_iff he (beq_self_eq_true e.obj.pid) honly).mpr (h.bucket_eq e he)

theorem record_of_searchProcess {id : Pid} {e : Entry ProcessArg}
    (h : searchProcess k id = some e) : k.record id = some e.obj := by
  rw [Kernel.record, h]
  rfl

theorem record_of_mem (h : Tables k) {e : Entry ProcessArg} (he : e ∈ k.listProcess) :
    k.record e.obj.pid = some e.obj := by
  rw [Kernel.record, searchProcess_of_mem h he]
  rfl

theorem mem_of_record {id : Pid} {p : ProcessArg} (h : k.record id = some p) :
    ∃ e ∈ k.listProcess, e.obj = p ∧ p.pid = id := by
  obtain ⟨e, hs, rfl⟩ := Option.map_eq_some_iff.mp h
  obtain ⟨he, hp⟩ := of_searchProcess hs
  exact ⟨e, he, rfl, hp⟩

theorem record_eq_none (h : Tables k) {id : Pid} :
    k.record id = none ↔ ∀ e ∈ k.listProcess, e.obj.pid ≠ id := by
  constructor
  · rintro hn e he rfl
    rw [record_of_mem h he] at hn
    cases hn
  · intro hall
    cases hr : k.record id with
    | none => rfl
    | some p =>
      obtain ⟨e, he, rfl, hp⟩ := mem_of_record hr
      exact absurd hp (hall e he)

/-! ## The heap -/

/-- The tables and the counter are the same, and the heap may have grown. -/
structure SameTables (k k' : Kernel) : Prop where
  listProcess : k'.listProcess = k.listProcess
  countThreads : k'.countThreads = k.countThreads
  brk_le : k.brk ≤ k'.brk

theorem SameTables.refl (k : Kernel) : SameTables k k := ⟨rfl, rfl, Nat.le_refl _⟩

theorem SameTables.trans {k'' : Kernel} (h : SameTables k k') (h' : SameTables k' k'') :
    SameTables k k'' :=
  ⟨h'.listProcess.trans h.listProcess, h'.countThreads.trans h.countThreads,
    Nat.le_trans h.brk_le h'.brk_le⟩

theorem sameTables_kzalloc (k : Kernel) (b : Bool) : SameTables k (kzalloc k b).2 := by
  cases b
  · exact SameTables.refl k
  · exact ⟨rfl, rfl, Nat.le_succ _⟩

theorem sameTables_kfree (k : Kernel) (p : ℕ) : SameTables k (kfree k p) :=
  ⟨rfl, rfl, Nat.le_refl _⟩

/-- A successful allocation gives the next object. -/
theorem of_kzalloc {b : Bool} {a : ℕ} (h : kzalloc k b = (some a, k')) :
    SameTables k k' ∧ a = k.brk ∧ k'.brk = k.brk + 1 := by
  have hs := sameTables_kzalloc k b
  cases b with
  | false => simp [kzalloc] at h
  | true =>
    simp only [kzalloc, if_true, Prod.mk.injEq, Option.some.injEq] at h
    obtain ⟨rfl, rfl⟩ := h
    exact ⟨hs, rfl, rfl⟩

/-- `Tables` and the records depend on `list_process` only. -/
theorem Tables.of_eq (h : Tables k) (hl : k'.listProcess = k.listProcess) (hb : k.brk ≤ k'.brk) :
    Tables k' := by
  refine ⟨by rw [hl]; exact h.unique, by rw [hl]; exact h.bucket_eq, by rw [hl]; exact h.pid_inj,
    fun e he => ?_⟩
  rw [hl] at he
  exact Nat.lt_of_lt_of_le (h.addr_lt e he) hb

theorem record_of_eq (hl : k'.listProcess = k.listProcess) (id : Pid) :
    k'.record id = k.record id := by
  rw [Kernel.record, Kernel.record, searchProcess, searchProcess, hl]

theorem Tables.of_same (h : Tables k) (hs : SameTables k k') : Tables k' :=
  h.of_eq hs.listProcess hs.brk_le

theorem SameTables.record (hs : SameTables k k') (id : Pid) : k'.record id = k.record id :=
  record_of_eq hs.listProcess id

/-! ## Writes of a record -/

variable {e : Entry ProcessArg} {p : ProcessArg}

theorem Tables.setProcess (h : Tables k) (he : e ∈ k.listProcess) (hp : p.pid = e.obj.pid) :
    Tables (k.setProcess e.addr p) := by
  have hmem : ∀ x ∈ (k.setProcess e.addr p).listProcess,
      ∃ y ∈ k.listProcess, x.addr = y.addr ∧ x.bucket = y.bucket ∧ x.obj.pid = y.obj.pid := by
    intro x hx
    change x ∈ k.listProcess.modify e.addr fun _ => p at hx
    rcases mem_modify_of_mem h.unique he hx with rfl | ⟨hx, _⟩
    · exact ⟨e, he, rfl, rfl, hp⟩
    · exact ⟨x, hx, rfl, rfl, rfl⟩
  have hunique : (k.setProcess e.addr p).listProcess.UniqueAddr := h.unique.modify e.addr fun _ => p
  refine ⟨hunique, fun x hx => ?_, fun x hx x' hx' hpid => ?_, fun x hx => ?_⟩
  · obtain ⟨y, hy, _, hb, hpy⟩ := hmem x hx
    rw [hb, hpy]
    exact h.bucket_eq y hy
  · obtain ⟨y, hy, ha, _, hpy⟩ := hmem x hx
    obtain ⟨y', hy', ha', _, hpy'⟩ := hmem x' hx'
    have hyy : y = y' := h.pid_inj y hy y' hy' (by rw [← hpy, ← hpy', hpid])
    apply hunique.eq_of_addr hx hx'
    rw [ha, ha', hyy]
  · obtain ⟨y, hy, ha, _⟩ := hmem x hx
    rw [ha]
    exact h.addr_lt y hy

theorem record_setProcess_self (h : Tables k) (he : e ∈ k.listProcess)
    (hp : p.pid = e.obj.pid) : (k.setProcess e.addr p).record e.obj.pid = some p := by
  have hmem : { e with obj := p } ∈ k.listProcess.modify e.addr fun _ => p := mem_modify_self he
  have := record_of_mem (h.setProcess he hp) hmem
  rwa [← hp]

theorem record_setProcess_ne (h : Tables k) (he : e ∈ k.listProcess)
    (hp : p.pid = e.obj.pid) {id : Pid} (hid : id ≠ e.obj.pid) :
    (k.setProcess e.addr p).record id = k.record id := by
  unfold Kernel.record searchProcess Kernel.setProcess
  rw [search_modify]
  · cases hs : k.listProcess.search (hash32 id) (fun p => p.pid == id) with
    | none => rfl
    | some x =>
      have hx := of_searchProcess hs
      have hne : x.addr ≠ e.addr := by
        intro ha
        apply hid
        rw [← hx.2, h.unique.eq_of_addr hx.1 he ha]
      simp only [Option.map_some, if_neg hne]
  · intro x hx ha
    rw [h.unique.eq_of_addr hx he ha, hp]

/-- The record after a write of one of its fibers. -/
theorem record_setFiber_self (h : Tables k) (he : e ∈ k.listProcess) (a : ℕ) (f : FiberArg) :
    (k.setFiber e a f).record e.obj.pid =
      some { e.obj with fibers := e.obj.fibers.modify a fun _ => f } :=
  record_setProcess_self h he rfl

/-- A fiber in its record, after it was written. -/
theorem of_setFiber {id : Pid} {a : ℕ} {f : FiberArg} {p : ProcessArg} {x : Entry FiberArg}
    (h : Tables k) (he : searchProcess k id = some e)
    (hp : (k.setFiber e a f).record id = some p) (hx : x ∈ p.fibers) (ha : x.addr = a) :
    x.obj = f := by
  obtain ⟨hmem, hid⟩ := of_searchProcess he
  rw [← hid, record_setFiber_self h hmem a f, Option.some.injEq] at hp
  rw [← hp, modify_eq_mapObj] at hx
  obtain ⟨y, _, hy⟩ := mem_mapObj.mp hx
  rw [hy] at ha ⊢
  exact if_pos ha

theorem record_setFiber_ne (h : Tables k) (he : e ∈ k.listProcess) (a : ℕ) (f : FiberArg)
    {id : Pid} (hid : id ≠ e.obj.pid) : (k.setFiber e a f).record id = k.record id :=
  @record_setProcess_ne _ _ { e.obj with fibers := e.obj.fibers.modify a fun _ => f } h he rfl
    id hid

/-! ## New records and removals -/

/-- The kernel after a record was linked. -/
def Kernel.addProcess (k : Kernel) (a : ℕ) (p : ProcessArg) : Kernel :=
  { k with listProcess := k.listProcess.hashAdd (hash32 p.pid) a p }

/-- The kernel after a record was unlinked. -/
def Kernel.delProcess (k : Kernel) (a : ℕ) : Kernel :=
  { k with listProcess := k.listProcess.hashDel a }

theorem Tables.addProcess (h : Tables k) {a : ℕ} (hnew : ∀ x ∈ k.listProcess, x.addr ≠ a)
    (ha : a < k.brk) (hp : k.record p.pid = none) : Tables (k.addProcess a p) := by
  have hnone := (record_eq_none h).mp hp
  refine ⟨h.unique.hashAdd hnew, fun x hx => ?_, fun x hx x' hx' hpid => ?_, fun x hx => ?_⟩
  · rcases mem_hashAdd.mp hx with rfl | hx
    · rfl
    · exact h.bucket_eq x hx
  · rcases mem_hashAdd.mp hx with rfl | hx <;> rcases mem_hashAdd.mp hx' with rfl | hx'
    · rfl
    · exact absurd hpid.symm (hnone x' hx')
    · exact absurd hpid (hnone x hx)
    · exact h.pid_inj x hx x' hx' hpid
  · rcases mem_hashAdd.mp hx with rfl | hx
    · exact ha
    · exact h.addr_lt x hx

theorem record_addProcess_ne {a : ℕ} {id : Pid} (hid : id ≠ p.pid) :
    (k.addProcess a p).record id = k.record id := by
  have hs : searchProcess (k.addProcess a p) id = searchProcess k id :=
    search_hashAdd_of_not (beq_eq_false_iff_ne.mpr hid.symm)
  rw [Kernel.record, Kernel.record, hs]

theorem Tables.delProcess (h : Tables k) (a : ℕ) : Tables (k.delProcess a) := by
  refine ⟨h.unique.hashDel a, fun x hx => ?_, fun x hx x' hx' => ?_, fun x hx => ?_⟩
  · exact h.bucket_eq x (mem_hashDel.mp hx).1
  · exact h.pid_inj x (mem_hashDel.mp hx).1 x' (mem_hashDel.mp hx').1
  · exact h.addr_lt x (mem_hashDel.mp hx).1

theorem record_delProcess_self (h : Tables k) (he : e ∈ k.listProcess) :
    (k.delProcess e.addr).record e.obj.pid = none := by
  apply (record_eq_none (h.delProcess e.addr)).mpr
  intro x hx hp
  obtain ⟨hx, ha⟩ := mem_hashDel.mp hx
  exact ha (congrArg Entry.addr (h.pid_inj x hx e he hp))

theorem record_delProcess_ne (h : Tables k) (he : e ∈ k.listProcess) {id : Pid}
    (hid : id ≠ e.obj.pid) : (k.delProcess e.addr).record id = k.record id := by
  have hs : searchProcess (k.delProcess e.addr) id = searchProcess k id := by
    apply search_hashDel_of_not
    intro x hx ha
    rw [h.unique.eq_of_addr hx he ha]
    exact beq_eq_false_iff_ne.mpr hid.symm
  rw [Kernel.record, Kernel.record, hs]

/-- What `CONVERTTOFIBER` finds or makes. -/
structure Opened (k : Kernel) (id : Pid) (e : Entry ProcessArg) (k' : Kernel) : Prop where
  tables : Tables k'
  mem : e ∈ k'.listProcess
  pid_eq : e.obj.pid = id
  source : k.record id = some e.obj ∨ k.record id = none ∧ e.obj = newProcess id
  others : ∀ id', id' ≠ id → k'.record id' = k.record id'
  countThreads : k'.countThreads = k.countThreads
  brk_le : k.brk ≤ k'.brk

theorem opened_findOrAddProcess (h : Tables k) {id : Pid} {b : Bool}
    (hf : findOrAddProcess k id b = some (e, k')) : Opened k id e k' := by
  unfold findOrAddProcess at hf
  split at hf
  · rename_i x hx
    cases hf
    obtain ⟨hmem, hpid⟩ := of_searchProcess hx
    refine ⟨h, hmem, hpid, Or.inl ?_, fun _ _ => rfl, rfl, Nat.le_refl _⟩
    exact record_of_searchProcess hx
  · rename_i hnone
    split at hf
    · cases hf
    · rename_i a k₁ ha
      cases hf
      obtain ⟨hs, rfl, hbrk⟩ := of_kzalloc ha
      have hrec : k.record id = none := by rw [Kernel.record, hnone]; rfl
      have hrec₁ : k₁.record id = none := by rw [hs.record, hrec]
      refine ⟨?_, List.mem_cons_self, rfl, Or.inr ⟨hrec, rfl⟩, fun id' hid => ?_,
        hs.countThreads, hs.brk_le⟩
      · have hnew : ∀ x ∈ k₁.listProcess, x.addr ≠ k.brk := by
          intro x hx
          rw [hs.listProcess] at hx
          exact Nat.ne_of_lt (h.addr_lt x hx)
        have hlt : k.brk < k₁.brk := by omega
        have ht : Tables (k₁.addProcess k.brk (newProcess id)) :=
          (h.of_same hs).addProcess hnew hlt hrec₁
        exact ht
      · rw [← hs.record id']
        have hne : (k₁.addProcess k.brk (newProcess id)).record id' = k₁.record id' :=
          record_addProcess_ne hid
        exact hne

end LinuxFibers.Module
