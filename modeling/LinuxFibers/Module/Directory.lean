import LinuxFibers.Module.Ownership
import Mathlib.Algebra.Group.Nat.Defs
import Mathlib.Data.List.Perm.Subperm
import Mathlib.Data.List.TakeDrop

/-!
# The directory of the fibers

`fibers_readdir` and `fibers_lookup` of `multi_thread/Module/proc.c`.  Both
build an array with one entry for every id that was ever given out, and fill in
the entries of the fibers in the table.  `proc_pident_readdir` and
`proc_pident_lookup` of the kernel then read the array.

The directory mirrors the table exactly when no id is missing from the table and
the ids are short enough for the names (`mirrors_iff`).  `zeroed_entry` is a run
in which a thread exits and the entry of its fiber stays in the directory without
a name.
-/

namespace LinuxFibers.Module

open LinuxFibers.Lib HashTable

variable {s t : System} {p : ProcessArg}

/-! ## The entries -/

/-- What stops a callback: a use of `NULL`, or of an entry outside the array. -/
inductive EntsFault where
  | nullPointer
  | bounds (i : ℕ)
  deriving DecidableEq

/-- The file operations that an entry can point to.  `file_fop` opens with
`open_file`. -/
inductive FileOps where
  | fileFop
  deriving DecidableEq

/-- `struct pid_entry`.  The callbacks leave `iop` and `op` zero. -/
structure PidEntry where
  name : Option (List Char)
  len : ℕ
  mode : BitVec 16
  fop : Option FileOps
  deriving DecidableEq

/-- An entry that `kzalloc` made and nothing was written to. -/
def PidEntry.zero : PidEntry := ⟨none, 0, 0, none⟩

/-- The entry of a fiber.  Its mode is `S_IFREG|S_IRUGO|S_IXUGO`. -/
def PidEntry.ofFiber (fiber : FiberArg) : PidEntry where
  name := some fiber.name
  len := min fiber.name.length 8
  mode := 0o100555
  fop := some .fileFop

/-- The number of buckets of `DECLARE_HASHTABLE(fibers, 10)`. -/
def fiberBuckets : ℕ := 1024

/-- The loop over the fibers, which writes the entry of each at its index. -/
def fillEnts (ents : List PidEntry) : List (Entry FiberArg) → Except EntsFault (List PidEntry)
  | [] => .ok ents
  | fiber :: rest =>
      let id := fiber.obj.index
      if id < ents.length then fillEnts (ents.set id (PidEntry.ofFiber fiber.obj)) rest
      else .error (.bounds id)

/-- The arguments `ents` and `nents` of the two functions of the kernel.  `nents`
is an `unsigned int`. -/
structure PidentCall where
  ents : Option (List PidEntry)
  nents : ℕ

/-- The array that both callbacks build. -/
def entsFiber (process : ProcessArg) (succeeds : Bool) : Except EntsFault PidentCall :=
  let numFibers := process.fiberId
  let fibers := process.fibers.forEach fiberBuckets
  if succeeds then do
    let ents ← fillEnts (List.replicate numFibers PidEntry.zero) fibers
    return ⟨some ents, numFibers % 2 ^ 32⟩
  else if fibers.isEmpty then .ok ⟨none, numFibers % 2 ^ 32⟩
  else .error .nullPointer

/-- `fibers_readdir` up to its call of `proc_pident_readdir`.  It gives `none`
for `-ENOENT`. -/
def fibersReaddir (k : Kernel) (task : Option Pid) (succeeds : Bool) :
    Except EntsFault (Option PidentCall) :=
  match task with
  | none => .ok none
  | some tgid =>
      match searchProcess k tgid with
      | some process => (entsFiber process.obj succeeds).map some
      | none => .ok (some ⟨none, 0⟩)

/-- `fibers_lookup` up to its call of `proc_pident_lookup`.  The lock of the
record is taken before anything tests the record. -/
def fibersLookup (k : Kernel) (task : Option Pid) (succeeds : Bool) :
    Except EntsFault (Option PidentCall) :=
  match task with
  | none => .ok none
  | some tgid =>
      match searchProcess k tgid with
      | some process => (entsFiber process.obj succeeds).map some
      | none => .error .nullPointer

/-! ## The two functions of the kernel -/

/-- The elements that a function of the kernel visits. -/
def PidentCall.visited (c : PidentCall) : Except EntsFault (List PidEntry) :=
  match c.ents with
  | none => if c.nents = 0 then .ok [] else .error .nullPointer
  | some ents => if c.nents ≤ ents.length then .ok (ents.take c.nents) else .error (.bounds c.nents)

/-- `proc_pident_readdir` emits the name and the length of every element. -/
def procPidentReaddir (c : PidentCall) : Except EntsFault (List (Option (List Char) × ℕ)) :=
  c.visited.map fun ents => ents.map fun e => (e.name, e.len)

/-- `proc_pident_lookup` looks for an element with the length and the bytes of
the name. -/
def procPidentLookup (c : PidentCall) (name : List Char) : Except EntsFault Bool :=
  c.visited.map fun ents => ents.any fun e =>
    e.len == name.length && (e.name.getD []).take e.len == name

/-- What `fibers_readdir` emits for a process.  `-ENOENT` emits nothing. -/
def emitted (k : Kernel) (tgid : Pid) (succeeds : Bool) :
    Except EntsFault (List (Option (List Char) × ℕ)) := do
  match ← fibersReaddir k (some tgid) succeeds with
  | some c => procPidentReaddir c
  | none => return []

/-- Whether `fibers_lookup` resolves a name. -/
def resolves (k : Kernel) (tgid : Pid) (succeeds : Bool) (name : List Char) :
    Except EntsFault Bool := do
  match ← fibersLookup k (some tgid) succeeds with
  | some c => procPidentLookup c name
  | none => return false

/-! ## The purpose of the directory -/

/-- The decimal form of an index. -/
def decimal (index : ℕ) : List Char := Nat.toDigits 10 index

/-- The entry that a fiber with an index is to have. -/
def fiberEntry (index : ℕ) : Option (List Char) × ℕ :=
  (some (decimal index), (decimal index).length)

/-- The entries that the directory is to have. -/
def fiberEntries (p : ProcessArg) : List (Option (List Char) × ℕ) :=
  p.fibers.map fun e => fiberEntry e.obj.index

/-- The directory of the process has one entry for each fiber in the table, under
its index, and its names are the names that are resolved. -/
structure Mirrors (k : Kernel) (tgid : Pid) (p : ProcessArg)
    (readdirSucceeds lookupSucceeds : Bool) :
    Prop where
  readdir : ∃ entries, emitted k tgid readdirSucceeds = .ok entries ∧
    entries.Perm (fiberEntries p)
  lookup : ∀ name, ∃ found, resolves k tgid lookupSucceeds name = .ok found ∧
    (found = true ↔ ∃ e ∈ p.fibers, name = decimal e.obj.index)

/-- The value of `num_fibers` as `unsigned int`. -/
def nents (p : ProcessArg) : ℕ := p.fiberId % 2 ^ 32

/-- The indices in the table are the numbers below `n`. -/
def Dense (p : ProcessArg) (n : ℕ) : Prop := ∀ i, (∃ e ∈ p.fibers, e.obj.index = i) ↔ i < n

/-! ## Names -/

/-- The fibers of every record have the names of their indices. -/
def Named (k : Kernel) : Prop :=
  ∀ id p, k.record id = some p → ∀ e ∈ p.fibers, e.obj.name = fiberName e.obj.index

theorem stop_name (f : FiberArg) (now : Timespec) : (f.stop now).name = f.name := by
  unfold FiberArg.stop
  split <;> rfl

theorem switchedFiber_name {cur : Task} {env : Env} (a : ℕ) (old : FiberArg) (target : ℕ)
    (e : Entry FiberArg) : (switchedFiber cur env a old target e).name = e.obj.name := by
  have hsaved : ((e.obj.save cur.toContext).stop (env.clock 0)).name = e.obj.name := by
    rw [stop_name]
    rfl
  unfold switchedFiber
  dsimp only
  split <;> split
  · exact hsaved
  · rfl
  · exact hsaved
  · rfl

theorem FlsWrite.name_eq {old f : FiberArg} {arg : Word} {env : Env} {cmd : Command} {ret : ℤ}
    (h : FlsWrite old arg env cmd ret f) : f.name = old.name := by
  rw [h.eq_with]

theorem named_change {k : Kernel} {cur : Task} {arg : Word} {env : Env} {r : Reply}
    {cmd : Command} {o : Option ProcessArg} {p' : ProcessArg}
    (hc : Change k cur arg env r cmd o (some p'))
    (ho : ∀ p, o = some p → ∀ e ∈ p.fibers, e.obj.name = fiberName e.obj.index)
    {e' : Entry FiberArg} (he' : e' ∈ p'.fibers) : e'.obj.name = fiberName e'.obj.index := by
  cases hc with
  | idle => exact ho p' rfl e' he'
  | opened => cases he'
  | converted hsource =>
    rcases mem_hashAdd.mp he' with rfl | he'
    · rfl
    · rcases hsource with rfl | ⟨_, rfl⟩
      · exact ho _ rfl e' he'
      · cases he'
  | created =>
    rcases mem_hashAdd.mp he' with rfl | he'
    · rfl
    · exact ho _ rfl e' he'
  | failed =>
    rw [modify_eq_mapObj] at he'
    obtain ⟨e, he, rfl⟩ := mem_mapObj.mp he'
    dsimp only
    split <;> exact ho _ rfl e he
  | switched =>
    rw [switch_eq] at he'
    obtain ⟨e, he, rfl⟩ := mem_mapObj.mp he'
    dsimp only
    rw [switchedFiber_name, switchedFiber_index]
    exact ho _ rfl e he
  | stored _ _ hold hw =>
    rw [modify_eq_mapObj] at he'
    obtain ⟨e, he, rfl⟩ := mem_mapObj.mp he'
    dsimp only
    split
    · obtain ⟨x, hx, _, rfl⟩ := mem_of_deref hold
      rw [hw.name_eq, hw.index_eq]
      exact ho _ rfl x hx
    · exact ho _ rfl e he

theorem named_step {a : Action} (hok : KernelOk s.kernel) (hn : Named s.kernel)
    (h : Step s a t) : Named t.kernel := by
  cases a with
  | user tgid pid c =>
    cases h
    exact hn
  | ioctl tgid pid cmd arg env =>
    obtain ⟨r, hr, rfl⟩ := step_ioctl h
    intro id p hp e he
    change r.kernel.record id = some p at hp
    by_cases hid : id = tgid
    · subst hid
      exact named_change (change_of_request hok hr hp) (hn id) he
    · rw [record_of_request hok hr hid] at hp
      exact hn id p hp e he
  | exit proId thrId =>
    obtain ⟨k, hk, rfl⟩ := step_exit h
    intro id p hp e he
    obtain ⟨p₀, hp₀, hsub⟩ := (exited hok.toTables hk).fibers_of_record hok.toTables hp
    exact hn id p₀ hp₀ e (hsub e he)

theorem named_run {context : Pid × Pid → Context} {as : List Action}
    (h : Run Step (System.init context) as s) : KernelOk s.kernel ∧ Named s.kernel := by
  refine h.invariant (I := fun s => KernelOk s.kernel ∧ Named s.kernel) ?_ ?_
  · intro s a t hs ha
    exact ⟨kernelOk_step hs.1 ha, named_step hs.1 hs.2 ha⟩
  · exact ⟨kernelOk_init, fun id p hp => by cases hp⟩

/-- The name holds seven digits. -/
theorem fiberName_eq_iff (i : ℕ) : fiberName i = decimal i ↔ i < 10 ^ 7 := by
  rw [fiberName, decimal, List.take_eq_self_iff]
  exact Nat.length_toDigits_le_iff (by omega) (by omega)

theorem fiberName_length (i : ℕ) : (fiberName i).length ≤ 7 := by
  rw [fiberName, List.length_take]
  omega

/-! ## The array -/

theorem fiberBucket_lt (i : ℕ) : fiberBucket i < fiberBuckets := by
  unfold fiberBucket hash64 fiberBuckets
  rw [BitVec.toNat_ushiftRight, Nat.shiftRight_eq_div_pow]
  omega

/-- The array after the loop: an element was written by a fiber with its index, or
is as before. -/
theorem fillEnts_spec {es : List (Entry FiberArg)} {ents : List PidEntry}
    (hlt : ∀ e ∈ es, e.obj.index < ents.length) :
    ∃ ents', fillEnts ents es = .ok ents' ∧ ents'.length = ents.length ∧
      ∀ i x, ents'[i]? = some x →
        (∃ e ∈ es, e.obj.index = i ∧ x = PidEntry.ofFiber e.obj) ∨
        (∀ e ∈ es, e.obj.index ≠ i) ∧ ents[i]? = some x := by
  induction es generalizing ents with
  | nil => exact ⟨ents, rfl, rfl, fun i x hx => Or.inr ⟨by simp, hx⟩⟩
  | cons e es ih =>
    have he : e.obj.index < ents.length := hlt e (List.mem_cons_self ..)
    have hrest : ∀ e' ∈ es,
        e'.obj.index < (ents.set e.obj.index (PidEntry.ofFiber e.obj)).length := by
      intro e' he'
      rw [List.length_set]
      exact hlt e' (List.mem_cons_of_mem e he')
    obtain ⟨ents', hfill, hlen, hget⟩ := ih hrest
    refine ⟨ents', ?_, ?_, ?_⟩
    · rw [fillEnts, if_pos he, hfill]
    · rw [hlen, List.length_set]
    · intro i x hx
      rcases hget i x hx with ⟨e', he', hi, hx'⟩ | ⟨hnot, hold⟩
      · exact Or.inl ⟨e', List.mem_cons_of_mem e he', hi, hx'⟩
      · by_cases hi : e.obj.index = i
        · rw [hi, List.getElem?_set_self (by omega)] at hold
          exact Or.inl ⟨e, List.mem_cons_self .., hi, (Option.some.inj hold).symm⟩
        · rw [List.getElem?_set_ne hi] at hold
          refine Or.inr ⟨?_, hold⟩
          intro e' he'
          rcases List.mem_cons.mp he' with rfl | he'
          · exact hi
          · exact hnot e' he'

/-- The elements that the functions of the kernel visit, when both the callback
and they succeed. -/
def view (p : ProcessArg) (succeeds : Bool) : Except EntsFault (List PidEntry) :=
  entsFiber p succeeds >>= PidentCall.visited

/-- What is known of the elements visited. -/
structure Entries (p : ProcessArg) (xs : List PidEntry) : Prop where
  length_eq : xs.length = nents p
  get : ∀ i x, xs[i]? = some x →
    (∃ e ∈ p.fibers, e.obj.index = i ∧ x = PidEntry.ofFiber e.obj) ∨
    (∀ e ∈ p.fibers, e.obj.index ≠ i) ∧ x = PidEntry.zero

theorem Entries.exists_get {xs : List PidEntry} (h : Entries p xs) {i : ℕ} (hi : i < nents p) :
    ∃ x ∈ xs, xs[i]? = some x := by
  rw [← h.length_eq] at hi
  exact ⟨xs[i], List.getElem_mem hi, List.getElem?_eq_getElem hi⟩

theorem mem_fibers_forEach {brk : ℕ} (hl : Linked brk p) {e : Entry FiberArg} :
    e ∈ p.fibers.forEach fiberBuckets ↔ e ∈ p.fibers := by
  apply mem_forEach
  intro x hx
  rw [hl.fiber_bucket x hx]
  exact fiberBucket_lt _

theorem view_true {brk : ℕ} (hl : Linked brk p) : ∃ xs, view p true = .ok xs ∧ Entries p xs := by
  have hlt : ∀ e ∈ p.fibers.forEach fiberBuckets,
      e.obj.index < (List.replicate p.fiberId PidEntry.zero).length := by
    intro e he
    rw [List.length_replicate]
    exact hl.index_lt e ((mem_fibers_forEach hl).mp he)
  obtain ⟨ents, hfill, hlen, hget⟩ := fillEnts_spec hlt
  rw [List.length_replicate] at hlen
  have hle : nents p ≤ ents.length := by
    rw [hlen]
    exact Nat.mod_le _ _
  refine ⟨ents.take (nents p), ?_, ?_, ?_⟩
  · simp only [view, entsFiber, if_true, hfill, bind, Except.bind, pure, Except.pure,
      PidentCall.visited]
    exact if_pos hle
  · rw [List.length_take]
    omega
  · intro i x hx
    rw [List.getElem?_take] at hx
    split at hx
    · rcases hget i x hx with ⟨e, he, hi, hx⟩ | ⟨hnot, hx⟩
      · exact Or.inl ⟨e, (mem_fibers_forEach hl).mp he, hi, hx⟩
      · rw [List.getElem?_replicate] at hx
        split at hx
        · refine Or.inr ⟨fun e he => hnot e ((mem_fibers_forEach hl).mpr he), ?_⟩
          exact (Option.some.inj hx).symm
        · cases hx
    · cases hx

/-- A view without an array. -/
theorem view_false {brk : ℕ} (hl : Linked brk p) (xs : List PidEntry) :
    view p false = .ok xs ↔ nents p = 0 ∧ p.fibers = [] ∧ xs = [] := by
  have hempty : p.fibers.forEach fiberBuckets = [] ↔ p.fibers = [] := by
    rw [List.eq_nil_iff_forall_not_mem, List.eq_nil_iff_forall_not_mem]
    exact forall_congr' fun e => not_congr (mem_fibers_forEach hl)
  by_cases hnil : p.fibers = []
  · have hc : entsFiber p false = .ok ⟨none, nents p⟩ := by
      simp only [entsFiber, hempty.mpr hnil, List.isEmpty_nil, if_true, Bool.false_eq_true,
        if_false, nents]
    rw [view, hc]
    by_cases hz : nents p = 0
    · simp [bind, Except.bind, PidentCall.visited, hz, hnil, eq_comm]
    · simp [bind, Except.bind, PidentCall.visited, hz]
  · have hne : (p.fibers.forEach fiberBuckets).isEmpty = false := by
      rw [List.isEmpty_eq_false_iff]
      exact fun h => hnil (hempty.mp h)
    have hc : entsFiber p false = .error .nullPointer := by
      simp only [entsFiber, hne, Bool.false_eq_true, if_false]
    rw [view, hc]
    simp [bind, Except.bind, hnil]

/-- A view shows the entries, and exists when the array was allocated or nothing
is to be shown. -/
theorem entries_of_view {brk : ℕ} (hl : Linked brk p) {b : Bool} {xs : List PidEntry}
    (h : view p b = .ok xs) : Entries p xs ∧ (nents p = 0 ∨ b = true) := by
  cases b with
  | true =>
    obtain ⟨xs', hv, he⟩ := view_true hl
    rw [h, Except.ok.injEq] at hv
    exact ⟨hv ▸ he, Or.inr rfl⟩
  | false =>
    obtain ⟨hz, hnil, rfl⟩ := (view_false hl xs).mp h
    exact ⟨⟨hz.symm, fun i x hx => by cases hx⟩, Or.inl hz⟩

theorem exists_view {brk : ℕ} (hl : Linked brk p) {b : Bool} (hd : Dense p (nents p))
    (h : nents p = 0 ∨ b = true) : ∃ xs, view p b = .ok xs := by
  cases b with
  | true =>
    obtain ⟨xs, hv, _⟩ := view_true hl
    exact ⟨xs, hv⟩
  | false =>
    have hz : nents p = 0 := h.resolve_right Bool.false_ne_true
    have hnil : p.fibers = [] := by
      apply List.eq_nil_iff_forall_not_mem.mpr
      intro e he
      have hlt := (hd e.obj.index).mp ⟨e, he, rfl⟩
      omega
    exact ⟨[], (view_false hl []).mpr ⟨hz, hnil, rfl⟩⟩

/-! ## The directory and the table -/

/-- The name and the length of an entry. -/
def PidEntry.label (x : PidEntry) : Option (List Char) × ℕ := (x.name, x.len)

theorem label_ofFiber {f : FiberArg} (hname : f.name = fiberName f.index)
    (hlt : f.index < 10 ^ 7) : (PidEntry.ofFiber f).label = fiberEntry f.index := by
  have hle := fiberName_length f.index
  have hmin : min (fiberName f.index).length 8 = (fiberName f.index).length := by omega
  rw [PidEntry.label, PidEntry.ofFiber, fiberEntry, hname, hmin, (fiberName_eq_iff _).mpr hlt]

/-- The label of an element has at most seven characters. -/
theorem label_length {xs : List PidEntry} (hx : Entries p xs)
    (hn : ∀ e ∈ p.fibers, e.obj.name = fiberName e.obj.index) {x : PidEntry} (hmem : x ∈ xs) :
    x.len ≤ 7 := by
  obtain ⟨i, hi⟩ := List.mem_iff_getElem?.mp hmem
  rcases hx.get i x hi with ⟨e, he, _, rfl⟩ | ⟨_, rfl⟩
  · show min e.obj.name.length 8 ≤ 7
    rw [hn e he]
    have hle := fiberName_length e.obj.index
    omega
  · exact Nat.zero_le 7

theorem indices_nodup {brk : ℕ} (hl : Linked brk p) :
    (p.fibers.map fun e => e.obj.index).Nodup :=
  List.Nodup.map_on hl.index_inj hl.fibers_unique.nodup

/-- A table with as many fibers as indices below `n`, each of which it has, has
no others. -/
theorem dense_of_found {n : ℕ} (hlen : p.fibers.length = n)
    (h : ∀ i < n, ∃ e ∈ p.fibers, e.obj.index = i) : Dense p n := by
  have hsub : List.range n ⊆ p.fibers.map fun e => e.obj.index := by
    intro i hi
    exact List.mem_map.mpr (h i (List.mem_range.mp hi))
  have hperm : (List.range n).Perm (p.fibers.map fun e => e.obj.index) := by
    have hlen : (p.fibers.map fun e => e.obj.index).length = (List.range n).length := by
      rw [List.length_map, List.length_range, hlen]
    exact (List.nodup_range.subperm hsub).perm_of_length_le (Nat.le_of_eq hlen)
  intro i
  rw [← List.mem_range, hperm.mem_iff, List.mem_map]

/-- The indices in a table without gaps. -/
theorem indices_perm {brk : ℕ} (hl : Linked brk p) {n : ℕ} (hd : Dense p n) :
    (p.fibers.map fun e => e.obj.index).Perm (List.range n) := by
  apply (List.perm_ext_iff_of_nodup (indices_nodup hl) List.nodup_range).mpr
  intro i
  rw [List.mem_range, ← hd i, List.mem_map]

/-- Without gaps and long names the labels are those of the fibers. -/
theorem labels_of_dense {xs : List PidEntry} (hx : Entries p xs)
    (hn : ∀ e ∈ p.fibers, e.obj.name = fiberName e.obj.index) (hd : Dense p (nents p))
    (hmax : nents p ≤ 10 ^ 7) :
    xs.map PidEntry.label = (List.range (nents p)).map fiberEntry := by
  apply List.ext_getElem?
  intro i
  rw [List.getElem?_map, List.getElem?_map]
  by_cases hi : i < nents p
  · obtain ⟨x, _, hget⟩ := hx.exists_get hi
    rw [hget, List.getElem?_range hi, Option.map_some, Option.map_some, Option.some.injEq]
    rcases hx.get i _ hget with ⟨e, he, hei, hxe⟩ | ⟨hnot, _⟩
    · rw [hxe, label_ofFiber (hn e he) (by omega), hei]
    · obtain ⟨e, he, hei⟩ := (hd i).mpr hi
      exact absurd hei (hnot e he)
  · rw [List.getElem?_eq_none (by rw [hx.length_eq]; omega),
      List.getElem?_eq_none (by rw [List.length_range]; omega)]
    rfl

/-- The entries emitted are those of the fibers exactly when the table has no
gap and no long name. -/
theorem labels_perm_iff {brk : ℕ} (hl : Linked brk p) {xs : List PidEntry} (hx : Entries p xs)
    (hn : ∀ e ∈ p.fibers, e.obj.name = fiberName e.obj.index) :
    (xs.map PidEntry.label).Perm (fiberEntries p) ↔ Dense p (nents p) ∧ nents p ≤ 10 ^ 7 := by
  have hentries : fiberEntries p = (p.fibers.map fun e => e.obj.index).map fiberEntry := by
    rw [fiberEntries, List.map_map]
    rfl
  constructor
  · intro hperm
    have hlen : p.fibers.length = nents p := by
      have hlen := hperm.length_eq
      rw [List.length_map, hx.length_eq, fiberEntries, List.length_map] at hlen
      exact hlen.symm
    -- an element without a fiber would have no name
    have hfound : ∀ i < nents p, ∃ e ∈ p.fibers, e.obj.index = i := by
      intro i hi
      obtain ⟨x, hmem, hget⟩ := hx.exists_get hi
      rcases hx.get i x hget with ⟨e, he, hei, _⟩ | ⟨_, hzero⟩
      · exact ⟨e, he, hei⟩
      · have hmem : x.label ∈ xs.map PidEntry.label := List.mem_map_of_mem hmem
        obtain ⟨e, _, he⟩ := List.mem_map.mp (hperm.mem_iff.mp hmem)
        rw [hzero] at he
        cases he
    have hdense : Dense p (nents p) := dense_of_found hlen hfound
    refine ⟨hdense, ?_⟩
    by_contra hbig
    -- the entry of the fiber 10 ^ 7 would have eight characters
    obtain ⟨e, he, hei⟩ := (hdense (10 ^ 7)).mpr (by omega)
    have hmem : fiberEntry (10 ^ 7) ∈ fiberEntries p := List.mem_map.mpr ⟨e, he, by rw [hei]⟩
    obtain ⟨x, hxs, hlabel⟩ := List.mem_map.mp (hperm.mem_iff.mpr hmem)
    have hle := label_length hx hn hxs
    have hlen : x.len = (decimal (10 ^ 7)).length := congrArg Prod.snd hlabel
    have hlong : (decimal (10 ^ 7)).length = 8 := by decide
    omega
  · rintro ⟨hd, hmax⟩
    rw [labels_of_dense hx hn hd hmax, hentries]
    exact ((indices_perm hl hd).map fiberEntry).symm

/-- The names resolved are those of the fibers. -/
theorem any_iff {xs : List PidEntry} (hx : Entries p xs)
    (hn : ∀ e ∈ p.fibers, e.obj.name = fiberName e.obj.index) (hd : Dense p (nents p))
    (hmax : nents p ≤ 10 ^ 7) (name : List Char) :
    (xs.any fun e => e.len == name.length && (e.name.getD []).take e.len == name) = true ↔
      ∃ e ∈ p.fibers, name = decimal e.obj.index := by
  have hlabels := labels_of_dense hx hn hd hmax
  have hmatch : ∀ i, ((fiberEntry i).2 == name.length &&
      ((fiberEntry i).1.getD []).take (fiberEntry i).2 == name) = true ↔ name = decimal i := by
    intro i
    simp only [fiberEntry, Option.getD_some, List.take_length, Bool.and_eq_true, beq_iff_eq]
    constructor
    · rintro ⟨_, heq⟩
      exact heq.symm
    · intro heq
      rw [heq]
      exact ⟨rfl, rfl⟩
  have hany : (xs.any fun e => e.len == name.length && (e.name.getD []).take e.len == name) =
      (xs.map PidEntry.label).any fun l =>
        l.2 == name.length && (l.1.getD []).take l.2 == name := by
    rw [List.any_map]
    rfl
  rw [hany, hlabels, List.any_map, List.any_eq_true]
  simp only [Function.comp_apply, hmatch, List.mem_range]
  constructor
  · rintro ⟨i, hi, hname⟩
    obtain ⟨e, he, rfl⟩ := (hd i).mpr hi
    exact ⟨e, he, hname⟩
  · rintro ⟨e, he, hname⟩
    exact ⟨e.obj.index, (hd _).mp ⟨e, he, rfl⟩, hname⟩

theorem emitted_eq {k : Kernel} {tgid : Pid} {b : Bool} (hp : k.record tgid = some p) :
    emitted k tgid b = (view p b).map fun xs => xs.map PidEntry.label := by
  obtain ⟨e, he, rfl⟩ := Option.map_eq_some_iff.mp hp
  simp only [emitted, fibersReaddir, he, view]
  cases entsFiber e.obj b <;> rfl

theorem resolves_eq {k : Kernel} {tgid : Pid} {b : Bool} (hp : k.record tgid = some p)
    (name : List Char) : resolves k tgid b name = (view p b).map fun xs =>
      xs.any fun e => e.len == name.length && (e.name.getD []).take e.len == name := by
  obtain ⟨e, he, rfl⟩ := Option.map_eq_some_iff.mp hp
  simp only [resolves, fibersLookup, he, view]
  cases entsFiber e.obj b <;> rfl

theorem of_map_ok {α β : Type} {x : Except EntsFault α} {f : α → β} {b : β}
    (h : x.map f = .ok b) : ∃ a, x = .ok a ∧ f a = b := by
  cases x with
  | error e => cases h
  | ok a => exact ⟨a, rfl, Except.ok.inj h⟩

/-- In every reachable state, the directory of a process mirrors its table exactly
when the indices in the table are those below the length of the array, all of them
fit in a name, and the arrays were allocated or are empty. -/
theorem mirrors_iff {context : Pid × Pid → Context} {as : List Action} {tgid : Pid}
    {readdirSucceeds lookupSucceeds : Bool} (h : Run Step (System.init context) as s)
    (hp : s.kernel.record tgid = some p) :
    Mirrors s.kernel tgid p readdirSucceeds lookupSucceeds ↔
      Dense p (nents p) ∧ nents p ≤ 10 ^ 7 ∧
        (nents p = 0 ∨ readdirSucceeds = true ∧ lookupSucceeds = true) := by
  obtain ⟨hok, hnamed⟩ := named_run h
  have hl := hok.linked tgid p hp
  have hn := hnamed tgid p hp
  constructor
  · rintro ⟨⟨entries, hemit, hperm⟩, hlookup⟩
    rw [emitted_eq hp] at hemit
    obtain ⟨xs, hview, rfl⟩ := of_map_ok hemit
    obtain ⟨hx, halloc⟩ := entries_of_view hl hview
    obtain ⟨found, hfound, _⟩ := hlookup []
    rw [resolves_eq hp] at hfound
    obtain ⟨ys, hview', _⟩ := of_map_ok hfound
    have halloc' := (entries_of_view hl hview').2
    obtain ⟨hd, hmax⟩ := (labels_perm_iff hl hx hn).mp hperm
    refine ⟨hd, hmax, ?_⟩
    rcases halloc with hz | hreaddir
    · exact Or.inl hz
    · exact halloc'.imp_right fun hlookup => ⟨hreaddir, hlookup⟩
  · rintro ⟨hd, hmax, halloc⟩
    obtain ⟨xs, hview⟩ := exists_view hl hd (halloc.imp_right And.left)
    obtain ⟨ys, hview'⟩ := exists_view hl hd (halloc.imp_right And.right)
    have hx := (entries_of_view hl hview).1
    have hy := (entries_of_view hl hview').1
    constructor
    · refine ⟨_, ?_, (labels_perm_iff hl hx hn).mpr ⟨hd, hmax⟩⟩
      rw [emitted_eq hp, hview]
      rfl
    · intro name
      refine ⟨_, ?_, any_iff hy hn hd hmax name⟩
      rw [resolves_eq hp, hview']
      rfl

/-- `mirrors_iff` for a process with two fibers. -/
theorem mirrors_iff_two_fibers : ∃ (as : List Action) (s : System) (p : ProcessArg),
    Run Step (System.init zeroContext) as s ∧ s.kernel.record 7 = some p ∧
    (Mirrors s.kernel 7 p true true ↔ Dense p (nents p) ∧ nents p ≤ 10 ^ 7 ∧
      (nents p = 0 ∨ true = true ∧ true = true)) ∧ p.fibers.length = 2 := by
  obtain ⟨s, hrun, hp⟩ := exists_run (System.init zeroContext)
    [.ioctl 7 7 .convertToFiber 0 Env.plain, .ioctl 7 7 .createFiber 0 Env.plain]
    (fun s => (s.kernel.record 7).any fun p => p.fibers.length == 2) (by decide +kernel)
  obtain ⟨p, hrec, hlen⟩ := (Option.any_eq_true _ _).mp hp
  exact ⟨_, s, p, hrun, hrec, mirrors_iff hrun hrec, by simpa using hlen⟩

/-- The entry of the fiber of a thread that exited stays, without a name. -/
theorem zeroed_entry : ∃ (as : List Action) (s : System) (p : ProcessArg),
    Run Step (System.init zeroContext) as s ∧ s.kernel.record 7 = some p ∧
    (∃ entries, emitted s.kernel 7 true = .ok entries ∧ (none, 0) ∈ entries) ∧
    ¬ Mirrors s.kernel 7 p true true := by
  obtain ⟨s, hrun, hp⟩ := exists_run (System.init zeroContext)
    [.ioctl 7 7 .convertToFiber 0 Env.plain, .ioctl 7 8 .convertToFiber 0 Env.plain, .exit 7 8]
    (fun s => (s.kernel.record 7).isSome &&
      (emitted s.kernel 7 true).toOption.any fun entries => decide ((none, 0) ∈ entries))
    (by decide +kernel)
  simp only [Bool.and_eq_true] at hp
  obtain ⟨hsome, hp⟩ := hp
  obtain ⟨p, hrec⟩ := Option.isSome_iff_exists.mp hsome
  obtain ⟨entries, hemit, hp⟩ := of_toOption_any hp
  have hzero : (none, 0) ∈ entries := of_decide_eq_true hp
  refine ⟨_, s, p, hrun, hrec, ⟨entries, hemit, hzero⟩, ?_⟩
  rintro ⟨⟨entries', hemit', hperm⟩, _⟩
  rw [hemit, Except.ok.injEq] at hemit'
  subst hemit'
  obtain ⟨e, _, he⟩ := List.mem_map.mp (hperm.mem_iff.mp hzero)
  cases he

/-! ## Processes from which no thread has exited -/

theorem Dense.hashAdd {n b a : ℕ} {f : FiberArg} (h : Dense p n) (hf : f.index = n)
    {q : ProcessArg} (hq : q.fibers = p.fibers.hashAdd b a f) : Dense q (n + 1) := by
  intro i
  simp only [hq, mem_hashAdd]
  constructor
  · rintro ⟨e, rfl | he, hi⟩
    · change f.index = i at hi
      omega
    · have hlt := (h i).mp ⟨e, he, hi⟩
      omega
  · intro hi
    by_cases hin : i = n
    · exact ⟨⟨b, a, f⟩, Or.inl rfl, by rw [hin]; exact hf⟩
    · obtain ⟨e, he, hei⟩ := (h i).mpr (by omega)
      exact ⟨e, Or.inr he, hei⟩

theorem Dense.mapObj {n : ℕ} {g : Entry FiberArg → FiberArg} (h : Dense p n)
    (hg : ∀ e ∈ p.fibers, (g e).index = e.obj.index) {q : ProcessArg}
    (hq : q.fibers = p.fibers.mapObj g) : Dense q n := by
  intro i
  rw [← h i, hq]
  constructor
  · rintro ⟨_, he', hi⟩
    obtain ⟨e, he, rfl⟩ := mem_mapObj.mp he'
    exact ⟨e, he, by rw [← hg e he]; exact hi⟩
  · rintro ⟨e, he, hi⟩
    exact ⟨_, mem_mapObj_of_mem g he, by rw [← hi]; exact hg e he⟩

theorem dense_change {k : Kernel} {cur : Task} {arg : Word} {env : Env} {r : Reply}
    {cmd : Command} {o : Option ProcessArg} {p' : ProcessArg}
    (hc : Change k cur arg env r cmd o (some p')) (hl : ∀ p, o = some p → Linked k.brk p)
    (ho : ∀ p, o = some p → Dense p p.fiberId) : Dense p' p'.fiberId := by
  have hnew : Dense (newProcess cur.tgid) (newProcess cur.tgid).fiberId := by
    intro i
    simp [newProcess]
  cases hc with
  | idle => exact ho p' rfl
  | opened => exact hnew
  | @converted o p t f hsource =>
    have hp : Dense p p.fiberId := by
      rcases hsource with rfl | ⟨_, rfl⟩
      · exact ho p rfl
      · exact hnew
    exact hp.hashAdd rfl rfl
  | created => exact (ho _ rfl).hashAdd rfl rfl
  | failed =>
    apply (ho _ rfl).mapObj _ (modify_eq_mapObj _ _ _)
    intro e _
    split <;> rfl
  | switched =>
    rw [switch_eq]
    exact (ho _ rfl).mapObj (fun e _ => switchedFiber_index _ _ _ e) rfl
  | @stored _ p _ a old f _ _ hold hw =>
    apply (ho p rfl).mapObj _ (modify_eq_mapObj p.fibers a fun _ => f)
    intro e he
    split
    · rename_i ha
      rw [hw.index_eq, (hl p rfl).fibers_unique.obj_of_deref hold he ha]
    · rfl

/-- A step in which no converted thread of the process exits. -/
def NoExit (tgid : Pid) (s : System) : Action → Prop
  | .exit id pid => id = tgid → ∀ p, s.kernel.record id = some p → searchThread pid p = none
  | _ => True

theorem dense_step {tgid : Pid} {a : Action} (hok : KernelOk s.kernel) (ha : NoExit tgid s a)
    (hd : ∀ p, s.kernel.record tgid = some p → Dense p p.fiberId) (h : Step s a t) :
    ∀ p, t.kernel.record tgid = some p → Dense p p.fiberId := by
  intro p hp
  cases a with
  | user =>
    cases h
    exact hd p hp
  | ioctl id pid cmd arg env =>
    obtain ⟨r, hr, rfl⟩ := step_ioctl h
    change r.kernel.record tgid = some p at hp
    by_cases hid : tgid = id
    · subst hid
      exact dense_change (change_of_request hok hr hp) (hok.linked tgid) hd
    · rw [record_of_request hok hr hid] at hp
      exact hd p hp
  | exit id pid =>
    obtain ⟨k, hk, rfl⟩ := step_exit h
    have hx := exited hok.toTables hk
    change k.record tgid = some p at hp
    by_cases hid : tgid = id
    · subst hid
      rcases hx.change with ⟨rfl, _⟩ | ⟨e, th, _, _, he, hth, _⟩
      · exact hd p hp
      · have hrec := record_of_mem hok.toTables (of_searchProcess he).1
        rw [(of_searchProcess he).2] at hrec
        rw [ha rfl e.obj hrec] at hth
        cases hth
    · rw [hx.others tgid hid] at hp
      exact hd p hp

/-- As long as no converted thread of a process exits, its directory mirrors its
table, when the arrays are allocated and the ids fit in a name. -/
theorem mirrors_of_noExit {context : Pid × Pid → Context} {as : List Action} {tgid : Pid}
    (h : Run (fun s a t => NoExit tgid s a ∧ Step s a t) (System.init context) as s)
    (hp : s.kernel.record tgid = some p) (hmax : p.fiberId ≤ 10 ^ 7) :
    Mirrors s.kernel tgid p true true := by
  have hinv : KernelOk s.kernel ∧ ∀ p, s.kernel.record tgid = some p → Dense p p.fiberId := by
    refine h.invariant (I := fun s =>
      KernelOk s.kernel ∧ ∀ p, s.kernel.record tgid = some p → Dense p p.fiberId) ?_ ?_
    · intro s a t hs ha
      exact ⟨kernelOk_step hs.1 ha.2, dense_step hs.1 ha.1 hs.2 ha.2⟩
    · exact ⟨kernelOk_init, fun p hp => by cases hp⟩
  have hn : nents p = p.fiberId := Nat.mod_eq_of_lt (by omega)
  have hrun : Run Step (System.init context) as s := h.mono fun _ _ _ h => h.2
  exact (mirrors_iff hrun hp).mpr ⟨hn ▸ hinv.2 p hp, by omega, Or.inr ⟨rfl, rfl⟩⟩

end LinuxFibers.Module
