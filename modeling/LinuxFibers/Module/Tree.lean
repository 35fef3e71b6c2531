import LinuxFibers.Module.Names

/-!
# The path of a fiber

`fh_lookup` and `fh_readdir` of `multi_thread/Module/proc.c`, which stand for
`proc_pident_lookup` and `proc_pident_readdir`.  When the process has a record, they
pass the array of the caller on with one more entry, the directory `fibers`.  Behind
it come `fibers_lookup`, `open_file` and `show_file`.

`readPath` is a read of a file in the directory `fibers` of a process, from the
directory of the process on.  `reads_follow_iff` says when all these reads together do
what they are for: each shows the fiber whose number is the name, and a name that is
no number of a fiber is missing.
-/

namespace LinuxFibers.Module

open LinuxFibers.Lib HashTable

/-! ## `fh_lookup` and `fh_readdir` -/

/-- What the operations of an entry are: some that the kernel has, or `fibers_iop` and
`fibers_fop`. -/
inductive EntryOps where
  | kernel (n : ℕ)
  | fibers
  deriving DecidableEq

/-- `struct pid_entry` in the directory of a process. -/
structure DirEntry where
  name : List Char
  len : ℕ
  mode : BitVec 16
  ops : EntryOps
  deriving DecidableEq

/-- The name of the directory. -/
def fibersName : List Char := ['f', 'i', 'b', 'e', 'r', 's']

/-- The entry that is added.  Its mode is `S_IFDIR|S_IRUGO|S_IXUGO`. -/
def fibersEntry : DirEntry := ⟨fibersName, 6, 0o040555, .fibers⟩

/-- The arguments `ents` and `nents` of the original functions. -/
structure DirCall where
  ents : List DirEntry
  nents : ℕ

/-- The answers to the two allocations, `temp` and `ents_fiber`. -/
structure HookMemory where
  temp : Bool
  entsFiber : Bool

/-- The array that is passed on.  Both copies of it are made only for the additional
entry. -/
def withFibers (m : HookMemory) (found : Bool) (ents : List DirEntry) :
    Except EntsFault DirCall :=
  if found then
    if m.temp && m.entsFiber then .ok ⟨ents ++ [fibersEntry], (ents.length + 1) % 2 ^ 32⟩
    else .error .nullPointer
  else .ok ⟨ents, ents.length % 2 ^ 32⟩

/-- `fh_lookup` up to its call of `real_lookup`.  It does not test the task. -/
def fhLookup (m : HookMemory) (k : Kernel) (task : Option Pid) (ents : List DirEntry) :
    Except EntsFault DirCall :=
  match task with
  | none => .error .nullPointer
  | some tgid => withFibers m (searchProcess k tgid).isSome ents

/-- `fh_readdir` of the directory `dir` up to its call of `real_readdir`. -/
def fhReaddir (m : HookMemory) (k : Kernel) (task : Option Pid) (dir : List Char)
    (ents : List DirEntry) : Except EntsFault DirCall :=
  match task with
  | none => .error .nullPointer
  | some tgid =>
      withFibers m ((searchProcess k tgid).isSome && dir.take 6 != fibersName) ents

/-- The element that `proc_pident_lookup` stops at. -/
def DirCall.find (c : DirCall) (name : List Char) : Option DirEntry :=
  (c.ents.take c.nents).find? fun e => e.len == name.length && e.name.take e.len == name

/-- The names that `proc_pident_readdir` emits. -/
def DirCall.names (c : DirCall) : List (List Char) :=
  (c.ents.take c.nents).map fun e => e.name.take e.len

/-! ## Paths -/

/-- What stops a read: a fault in one of the directories, or one at the fiber. -/
inductive PathFault where
  | ents (fault : EntsFault)
  | fiber (fault : Fault)

/-- The answers to the allocations of a read. -/
structure PathMemory where
  hook : HookMemory
  lookup : Bool
  singleOpen : Bool

/-- All of them succeed. -/
def PathMemory.plenty : PathMemory := ⟨⟨true, true⟩, true, true⟩

/-- A read of the file `name` in the directory `fibers` of a process.  `base` is the
array of the directory of the process.  A file that is missing gives nothing. -/
def readPath (m : PathMemory) (k : Kernel) (unlinked : ℕ → FiberArg) (tgid : Pid)
    (base : List DirEntry) (name : List Char) (garbage : Word) :
    Except PathFault (Option Report) := do
  let c ← (fhLookup m.hook k (some tgid) base).mapError .ents
  if (c.find fibersName).map DirEntry.ops = some .fibers then
    let found ← (resolves k tgid m.lookup name).mapError .ents
    if found then
      match ← (openFile k (some tgid) name garbage m.singleOpen).mapError .fiber with
      | none => return none
      | some h => return some (← (showFile k unlinked h).mapError .fiber)
    else return none
  else return none

/-- The directory of a process, without the module: its array has no entry `fibers`. -/
structure Plain (base : List DirEntry) : Prop where
  length : base.length + 1 < 2 ^ 32
  other : ∀ e ∈ base, e.name.take e.len ≠ fibersName

/-- What a file is to show: the fiber whose number is its name. -/
def ProcessArg.reportOf (p : ProcessArg) (name : List Char) : Option Report :=
  (p.fibers.find? fun e => decimal e.obj.index == name).map fun e => e.obj.report

/-- The number of the fiber fits in its name and in `nents`, and `search_fiber` looks in
the bucket of the fiber. -/
def Readable (p : ProcessArg) (index : ℕ) : Prop :=
  index < nents p ∧ index < 10 ^ 7 ∧ hash32 (BitVec.ofNat 32 index) = fiberBucket index

instance (p : ProcessArg) (index : ℕ) : Decidable (Readable p index) :=
  inferInstanceAs (Decidable (_ ∧ _ ∧ _))

variable {k : Kernel} {tgid : Pid} {p : ProcessArg} {base : List DirEntry} {name : List Char}

/-! ## The directory of the process -/

theorem isSome_searchProcess (k : Kernel) (tgid : Pid) :
    (searchProcess k tgid).isSome = (k.record tgid).isSome :=
  Option.isSome_map.symm

theorem fhLookup_of_record (hp : k.record tgid = some p) :
    fhLookup ⟨true, true⟩ k (some tgid) base =
      .ok ⟨base ++ [fibersEntry], (base.length + 1) % 2 ^ 32⟩ := by
  rw [fhLookup, isSome_searchProcess, hp]
  rfl

theorem fhLookup_of_none (m : HookMemory) (hp : k.record tgid = none) :
    fhLookup m k (some tgid) base = .ok ⟨base, base.length % 2 ^ 32⟩ := by
  rw [fhLookup, isSome_searchProcess, hp]
  rfl

/-- In a directory with another name both functions pass on the same array. -/
theorem fhReaddir_eq_fhLookup {dir : List Char} (hdir : dir.take 6 ≠ fibersName)
    (m : HookMemory) (task : Option Pid) :
    fhReaddir m k task dir base = fhLookup m k task base := by
  cases task with
  | none => rfl
  | some tgid =>
    rw [fhReaddir, fhLookup, bne_iff_ne.mpr hdir, Bool.and_true]

theorem Plain.find_base (h : Plain base) :
    (base.find? fun e => e.len == fibersName.length && e.name.take e.len == fibersName) = none := by
  rw [List.find?_eq_none]
  intro e he hfound
  rw [Bool.and_eq_true, beq_iff_eq, beq_iff_eq] at hfound
  exact h.other e he hfound.2

/-- `nents + 1` counts the entries that are passed on. -/
theorem Plain.nents_eq (h : Plain base) :
    (base.length + 1) % 2 ^ 32 = (base ++ [fibersEntry]).length := by
  rw [List.length_append, List.length_singleton, Nat.mod_eq_of_lt h.length]

theorem Plain.find_fibers (h : Plain base) :
    (DirCall.mk (base ++ [fibersEntry]) ((base.length + 1) % 2 ^ 32)).find fibersName =
      some fibersEntry := by
  rw [DirCall.find, h.nents_eq, List.take_length, List.find?_append, h.find_base]
  rfl

/-- The directory of a process lists `fibers` exactly when there is a record. -/
theorem Plain.lists_fibers_iff (h : Plain base) {dir : List Char} (hdir : dir.take 6 ≠ fibersName)
    (k : Kernel) (tgid : Pid) :
    ∃ c, fhReaddir ⟨true, true⟩ k (some tgid) dir base = .ok c ∧
      (fibersName ∈ c.names ↔ k.record tgid ≠ none) := by
  rw [fhReaddir_eq_fhLookup hdir]
  cases hp : k.record tgid with
  | none =>
    refine ⟨_, fhLookup_of_none _ hp, iff_of_false ?_ (not_not.mpr rfl)⟩
    intro hmem
    obtain ⟨e, he, heq⟩ := List.mem_map.mp hmem
    exact h.other e (List.mem_of_mem_take he) heq
  | some p =>
    refine ⟨_, fhLookup_of_record hp, iff_of_true ?_ (Option.some_ne_none p)⟩
    refine List.mem_map.mpr ⟨fibersEntry, ?_, rfl⟩
    rw [h.nents_eq, List.take_length]
    exact List.mem_append_right _ (List.mem_singleton_self _)

theorem Plain.find_nothing (h : Plain base) :
    (DirCall.mk base (base.length % 2 ^ 32)).find fibersName = none := by
  have hlt := h.length
  rw [DirCall.find, Nat.mod_eq_of_lt (by omega), List.take_length, h.find_base]

/-! ## The files -/

theorem decimal_injective {i j : ℕ} (h : decimal i = decimal j) : i = j := by
  have hvalue : ∀ n, Nat.ofDigitChars 10 (decimal n) 0 = n := fun n =>
    Nat.ofDigitChars_ten_toDigits
  rw [← hvalue i, h, hvalue]

theorem decimal_ne_nil (i : ℕ) : decimal i ≠ [] := by
  have hpos : 0 < (Nat.toDigits 10 i).length := Nat.length_toDigits_pos
  exact List.ne_nil_of_length_pos hpos

/-- The name of an entry is the name of its fiber, which has at most seven digits. -/
theorem ofFiber_label {f : FiberArg} (hn : f.name = fiberName f.index) :
    (PidEntry.ofFiber f).len = (fiberName f.index).length ∧
      ((PidEntry.ofFiber f).name.getD []).take (PidEntry.ofFiber f).len = fiberName f.index := by
  have hle := fiberName_length f.index
  have hlen : (PidEntry.ofFiber f).len = (fiberName f.index).length := by
    show min f.name.length 8 = _
    rw [hn]
    omega
  refine ⟨hlen, ?_⟩
  rw [hlen]
  show f.name.take _ = _
  rw [hn, List.take_length]

/-- The names that are resolved are the names of the fibers in the array. -/
theorem any_label_iff {xs : List PidEntry} (hx : Entries p xs)
    (hn : ∀ e ∈ p.fibers, e.obj.name = fiberName e.obj.index) (hname : name ≠ []) :
    (xs.any fun e => e.len == name.length && (e.name.getD []).take e.len == name) = true ↔
      ∃ e ∈ p.fibers, e.obj.index < nents p ∧ fiberName e.obj.index = name := by
  rw [List.any_eq_true]
  constructor
  · rintro ⟨x, hmem, hfound⟩
    rw [Bool.and_eq_true, beq_iff_eq, beq_iff_eq] at hfound
    obtain ⟨i, hi⟩ := List.mem_iff_getElem?.mp hmem
    rcases hx.get i x hi with ⟨e, he, hei, rfl⟩ | ⟨_, rfl⟩
    · obtain ⟨hlt, _⟩ := List.getElem?_eq_some_iff.mp hi
      rw [hx.length_eq] at hlt
      refine ⟨e, he, by omega, ?_⟩
      rw [← (ofFiber_label (hn e he)).2]
      exact hfound.2
    · -- the entry of a number that no fiber has
      exact absurd (List.eq_nil_of_length_eq_zero hfound.1.symm) hname
  · rintro ⟨e, he, hlt, rfl⟩
    obtain ⟨x, hmem, hget⟩ := hx.exists_get hlt
    refine ⟨x, hmem, ?_⟩
    rcases hx.get _ x hget with ⟨e', he', hei, rfl⟩ | ⟨hnot, _⟩
    · obtain ⟨hlen, htake⟩ := ofFiber_label (hn e' he')
      rw [Bool.and_eq_true, beq_iff_eq, beq_iff_eq, htake, hlen, hei]
      exact ⟨rfl, rfl⟩
    · exact absurd rfl (hnot e he)

/-- A read with a record, behind the directory of the process: `fibers_lookup`, and then
`show_file` of the fiber that `open_file` stored. -/
theorem readPath_of_view (unlinked : ℕ → FiberArg) (hp : k.record tgid = some p)
    (hbase : Plain base) {xs : List PidEntry} (hview : view p true = .ok xs) (garbage : Word) :
    readPath .plenty k unlinked tgid base name garbage =
      if (xs.any fun e => e.len == name.length && (e.name.getD []).take e.len == name) = true then
        ((showFile k unlinked
          ⟨tgid, (searchFiber (fiberIdOf name garbage) p).map Entry.addr⟩).mapError
            PathFault.fiber).map some
      else .ok none := by
  have hlookup : fhLookup PathMemory.plenty.hook k (some tgid) base =
      .ok ⟨base ++ [fibersEntry], (base.length + 1) % 2 ^ 32⟩ := fhLookup_of_record hp
  have hops : ((DirCall.mk (base ++ [fibersEntry]) ((base.length + 1) % 2 ^ 32)).find
      fibersName).map DirEntry.ops = some .fibers := by
    rw [hbase.find_fibers]
    rfl
  have hresolves : resolves k tgid PathMemory.plenty.lookup name =
      .ok (xs.any fun e => e.len == name.length && (e.name.getD []).take e.len == name) := by
    rw [resolves_eq hp]
    show (view p true).map _ = _
    rw [hview]
    rfl
  have hopen : openFile k (some tgid) name garbage PathMemory.plenty.singleOpen =
      .ok (some ⟨tgid, (searchFiber (fiberIdOf name garbage) p).map Entry.addr⟩) := by
    rw [openFile_eq, openFileWith_record hp]
    rfl
  simp only [readPath, hlookup, hresolves, hopen, hops, Except.mapError, bind, Except.bind,
    if_true]
  split
  · cases showFile k unlinked _ <;> rfl
  · rfl

/-- What a read gives when there is enough memory. -/
theorem readPath_eq (unlinked : ℕ → FiberArg) (hok : KernelOk k) (hapart : Apart k)
    (hn : ∀ e ∈ p.fibers, e.obj.name = fiberName e.obj.index) (hp : k.record tgid = some p)
    (hbase : Plain base) (hname : name ≠ []) (garbage : Word) :
    ((∃ e ∈ p.fibers, e.obj.index < nents p ∧ fiberName e.obj.index = name) →
      readPath .plenty k unlinked tgid base name garbage =
        match searchFiber (fiberIdOf name garbage) p with
        | some f => .ok (some f.obj.report)
        | none => .error (.fiber .nullPointer)) ∧
    ((¬∃ e ∈ p.fibers, e.obj.index < nents p ∧ fiberName e.obj.index = name) →
      readPath .plenty k unlinked tgid base name garbage = .ok none) := by
  obtain ⟨xs, hview, hx⟩ := view_true (hok.linked tgid p hp)
  have hany := any_label_iff hx hn hname
  rw [readPath_of_view unlinked hp hbase hview garbage]
  constructor
  · intro hfound
    rw [if_pos (hany.mpr hfound)]
    cases hsearch : searchFiber (fiberIdOf name garbage) p with
    | none => rfl
    | some f =>
      have hat := fiberAt_of_mem hok hapart hp (of_searchFiber hsearch).1
      simp only [Option.map_some, showFile, hat]
      rfl
  · intro hfound
    rw [if_neg fun h => hfound (hany.mp h)]

/-- Without a record there is no directory `fibers`. -/
theorem readPath_of_none (m : PathMemory) (unlinked : ℕ → FiberArg) (hp : k.record tgid = none)
    (hbase : Plain base) (garbage : Word) :
    readPath m k unlinked tgid base name garbage = .ok none := by
  have hops : ((DirCall.mk base (base.length % 2 ^ 32)).find fibersName).map DirEntry.ops ≠
      some .fibers := by
    rw [hbase.find_nothing]
    exact Option.some_ne_none _ |>.symm
  simp only [readPath, fhLookup_of_none m.hook hp, Except.mapError, bind, Except.bind, if_neg hops]
  rfl

/-! ## What the paths show -/

/-- A fiber that can be read is what its file shows. -/
theorem reportOf_of_mem {brk : ℕ} (hl : Linked brk p) {e : Entry FiberArg} (he : e ∈ p.fibers) :
    p.reportOf (decimal e.obj.index) = some e.obj.report := by
  rw [ProcessArg.reportOf]
  cases hfind : p.fibers.find? fun x => decimal x.obj.index == decimal e.obj.index with
  | none => exact absurd (beq_self_eq_true _) (List.find?_eq_none.mp hfind e he)
  | some x =>
    have hx := List.mem_of_find?_eq_some hfind
    have hdecimal : (decimal x.obj.index == decimal e.obj.index) = true := by
      simpa using List.find?_some hfind
    rw [hl.index_inj x hx e he (decimal_injective (eq_of_beq hdecimal)), Option.map_some]

theorem reportOf_of_not {name : List Char} (h : ∀ e ∈ p.fibers, decimal e.obj.index ≠ name) :
    p.reportOf name = none := by
  rw [ProcessArg.reportOf, List.find?_eq_none.mpr fun e he hfound => h e he (eq_of_beq hfound),
    Option.map_none]

/-- A number that is the name of a fiber has at most seven digits, and is the number of
the fiber or below it. -/
theorem of_fiberName_eq_decimal {i j : ℕ} (h : fiberName i = decimal j) :
    j < 10 ^ 7 ∧ j ≤ i := by
  have hshort : j < 10 ^ 7 := by
    have hle := fiberName_length i
    rw [h] at hle
    exact (Nat.length_toDigits_le_iff (by omega) (by omega)).mp hle
  refine ⟨hshort, ?_⟩
  by_cases hi : i < 10 ^ 7
  · rw [(fiberName_eq_iff _).mpr hi] at h
    exact Nat.le_of_eq (decimal_injective h).symm
  · omega

/-- The number of a fiber is found when its file shows the fiber. -/
theorem readable_of_follows {unlinked : ℕ → FiberArg} (hok : KernelOk k) (hapart : Apart k)
    (hn : ∀ e ∈ p.fibers, e.obj.name = fiberName e.obj.index) (hp : k.record tgid = some p)
    (hbase : Plain base) {e : Entry FiberArg} (he : e ∈ p.fibers)
    (hfollows : readPath .plenty k unlinked tgid base (decimal e.obj.index) 0 =
      .ok (p.reportOf (decimal e.obj.index))) : Readable p e.obj.index := by
  have hl := hok.linked tgid p hp
  obtain ⟨hfound, hmissing⟩ := readPath_eq unlinked hok hapart hn hp hbase
    (decimal_ne_nil e.obj.index) 0
  rw [reportOf_of_mem hl he] at hfollows
  by_cases hex : ∃ x ∈ p.fibers, x.obj.index < nents p ∧
      fiberName x.obj.index = decimal e.obj.index
  · have hread := (hfound hex).symm.trans hfollows
    obtain ⟨x, hx, hlt, hxname⟩ := hex
    -- the name that was found may be the cut name of another fiber
    obtain ⟨hshort, hle⟩ := of_fiberName_eq_decimal hxname
    refine ⟨Nat.lt_of_le_of_lt hle hlt, hshort, ?_⟩
    have hsearch := searchFiber_eq hl he (by omega)
    rw [← (fiberName_eq_iff _).mpr hshort, fiberIdOf_fiberName hshort, hsearch] at hread
    by_contra hbucket
    rw [if_neg hbucket] at hread
    cases hread
  · rw [hmissing hex] at hfollows
    cases hfollows

/-- A fiber whose number is found is shown by its file, and nothing else is there. -/
theorem follows_of_readable {unlinked : ℕ → FiberArg} (hok : KernelOk k) (hapart : Apart k)
    (hn : ∀ e ∈ p.fibers, e.obj.name = fiberName e.obj.index) (hp : k.record tgid = some p)
    (hbase : Plain base) (h : ∀ e ∈ p.fibers, Readable p e.obj.index) (hname : name ≠ [])
    (garbage : Word) :
    readPath .plenty k unlinked tgid base name garbage = .ok (p.reportOf name) := by
  have hl := hok.linked tgid p hp
  obtain ⟨hfound, hmissing⟩ := readPath_eq unlinked hok hapart hn hp hbase hname
    garbage
  by_cases hex : ∃ e ∈ p.fibers, decimal e.obj.index = name
  · obtain ⟨e, he, rfl⟩ := hex
    obtain ⟨hlt, hshort, hbucket⟩ := h e he
    have hfiberName := (fiberName_eq_iff _).mpr hshort
    have hsearch := searchFiber_eq hl he (by omega)
    rw [if_pos hbucket, ← fiberIdOf_fiberName hshort garbage, hfiberName] at hsearch
    rw [hfound ⟨e, he, hlt, hfiberName⟩, hsearch, reportOf_of_mem hl he]
  · have hnone : ∀ e ∈ p.fibers, decimal e.obj.index ≠ name := fun e he heq => hex ⟨e, he, heq⟩
    rw [reportOf_of_not hnone]
    apply hmissing
    rintro ⟨e, he, _, heq⟩
    rw [(fiberName_eq_iff _).mpr (h e he).2.1] at heq
    exact hnone e he heq

end LinuxFibers.Module
