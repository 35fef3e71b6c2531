import LinuxFibers.Lib.Decimal
import LinuxFibers.Module.Directory
import LinuxFibers.Module.Handles
import LinuxFibers.Module.Lookup

/-!
# The names of the fibers

The name of a fiber is its index in decimal, in the 8 bytes of `fiber->name`.
`open_file` reads the index back from the name.  `snprintf` cuts a name after its
seventh digit, so the two are inverse up to the index `10 ^ 7`, and no further:
`identifies_iff`.

`open_file` is `openFileWith` with `search_fiber`.  What the names are worth does
not depend on the buckets in which `search_fiber` looks, so it is stated with
`fiberWithIndex`, which looks at every fiber.  `openFile_of_name` brings the buckets
back.
-/

namespace LinuxFibers.Module

open LinuxFibers.Lib HashTable

variable {s : System} {k : Kernel} {id : Pid} {p : ProcessArg} {i : ℕ}

/-! ## `open_file` with another search -/

/-- `open_file` with `search` in the place of `search_fiber`. -/
def openFileWith (search : BitVec 32 → ProcessArg → Option (Entry FiberArg)) (k : Kernel)
    (task : Option Pid) (name : List Char) (garbage : Word) (singleOpen : Bool) :
    Except Fault (Option Handle) :=
  match task with
  | none => .error .nullPointer
  | some tgid =>
      match searchProcess k tgid with
      | none => .error .nullPointer
      | some process =>
          let fiber := search (fiberIdOf name garbage) process.obj
          .ok (if singleOpen then some ⟨tgid, fiber.map Entry.addr⟩ else none)

theorem openFile_eq : openFile = openFileWith searchFiber := rfl

/-- The fiber whose index equals an `int`. -/
def fiberWithIndex (index : BitVec 32) (process : ProcessArg) : Option (Entry FiberArg) :=
  process.fibers.find? fun f => f.obj.index == intToUlong index

theorem openFileWith_record {search : BitVec 32 → ProcessArg → Option (Entry FiberArg)}
    (hp : k.record id = some p) (name : List Char) (garbage : Word) (singleOpen : Bool) :
    openFileWith search k (some id) name garbage singleOpen =
      .ok (if singleOpen then
        some ⟨id, (search (fiberIdOf name garbage) p).map Entry.addr⟩ else none) := by
  obtain ⟨e, he, hobj⟩ := Option.map_eq_some_iff.mp hp
  simp only [openFileWith, he, hobj]

/-! ## The purpose of a name -/

/-- The names of the fibers of a process, as far as their indices are below `2 ^ 31`.
They are distinct, each is read back as the index, and a file that is opened by a
name is on that fiber. -/
structure Identifies (k : Kernel) (id : Pid) (p : ProcessArg) : Prop where
  distinct : ∀ e ∈ p.fibers, ∀ e' ∈ p.fibers, e.obj.index < 2 ^ 31 → e'.obj.index < 2 ^ 31 →
    e.obj.name = e'.obj.name → e = e'
  parsed : ∀ e ∈ p.fibers, e.obj.index < 2 ^ 31 →
    (kstrtoul e.obj.name).map BitVec.toNat = some e.obj.index
  bound : ∀ e ∈ p.fibers, e.obj.index < 2 ^ 31 → ∀ garbage,
    openFileWith fiberWithIndex k (some id) e.obj.name garbage true = .ok (some ⟨id, some e.addr⟩)

/-! ## Reading a name -/

/-- `kstrtoul` of digits. -/
theorem kstrtoul_of_digits {name : List Char} (hne : name ≠ []) (hdigits : Digits name)
    (hlt : Nat.ofDigitChars 10 name 0 < 2 ^ 64) :
    kstrtoul name = some (BitVec.ofNat 64 (Nat.ofDigitChars 10 name 0)) := by
  have hsign : name.head? ≠ some '+' := by
    intro h
    have hc := hdigits '+' (List.mem_of_mem_head? h)
    exact absurd hc (by decide)
  have hnewline : name.getLast? ≠ some '\n' := by
    intro h
    have hc := hdigits '\n' (List.mem_of_getLast? h)
    exact absurd hc (by decide)
  have hall : name.all Char.isDigit = true := List.all_eq_true.mpr hdigits
  simp only [kstrtoul, if_neg hsign, if_neg hnewline]
  rw [if_pos ⟨hne, hall, hlt⟩]

theorem fiberName_ne_nil (i : ℕ) : fiberName i ≠ [] := by
  have hpos : 0 < (Nat.toDigits 10 i).length := Nat.length_toDigits_pos
  intro h
  have hlen := congrArg List.length h
  rw [fiberName, List.length_take, List.length_nil] at hlen
  omega

/-- The value of the name of a fiber. -/
theorem kstrtoul_fiberName (i : ℕ) :
    kstrtoul (fiberName i) = some (BitVec.ofNat 64 (Nat.ofDigitChars 10 (fiberName i) 0)) := by
  have hdigits : Digits (fiberName i) := (digits_toDigits i).take 7
  apply kstrtoul_of_digits (fiberName_ne_nil i) hdigits
  have hlt := hdigits.ofDigitChars_lt
  have hlen : (fiberName i).length ≤ 7 := fiberName_length i
  have hpow : 10 ^ (fiberName i).length ≤ 10 ^ 7 := Nat.pow_le_pow_right (by omega) hlen
  omega

theorem value_fiberName (h : i < 10 ^ 7) : Nat.ofDigitChars 10 (fiberName i) 0 = i := by
  rw [(fiberName_eq_iff i).mpr h]
  exact Nat.ofDigitChars_ten_toDigits

/-- A name is read back as its index exactly when it has all its digits. -/
theorem parsed_iff (i : ℕ) (hi : i < 2 ^ 31) :
    (kstrtoul (fiberName i)).map BitVec.toNat = some i ↔ i < 10 ^ 7 := by
  rw [kstrtoul_fiberName, Option.map_some, Option.some.injEq, BitVec.toNat_ofNat]
  constructor
  · intro heq
    by_contra hge
    have hlt : Nat.ofDigitChars 10 (fiberName i) 0 < i := ofDigitChars_take_lt (by omega)
    omega
  · intro hlt
    rw [value_fiberName hlt]
    omega

/-- The `int` that `open_file` reads from the name of a fiber. -/
theorem fiberIdOf_fiberName (h : i < 10 ^ 7) (garbage : Word) :
    fiberIdOf (fiberName i) garbage = BitVec.ofNat 32 i := by
  rw [fiberIdOf, kstrtoul_fiberName, value_fiberName h, Option.getD_some]
  apply BitVec.eq_of_toNat_eq
  rw [BitVec.toNat_setWidth, BitVec.toNat_ofNat, BitVec.toNat_ofNat]
  omega

/-- A fiber is found by its index. -/
theorem fiberWithIndex_eq {brk : ℕ} (h : Linked brk p) {e : Entry FiberArg} (he : e ∈ p.fibers)
    (hi : e.obj.index < 2 ^ 31) : fiberWithIndex (BitVec.ofNat 32 e.obj.index) p = some e := by
  have htest : (e.obj.index == intToUlong (BitVec.ofNat 32 e.obj.index)) = true := by
    rw [intToUlong_ofNat hi]
    exact beq_self_eq_true _
  cases hfind : fiberWithIndex (BitVec.ofNat 32 e.obj.index) p with
  | none =>
    have hnone := List.find?_eq_none.mp hfind e he
    exact absurd htest hnone
  | some x =>
    have hx : x ∈ p.fibers := List.mem_of_find?_eq_some hfind
    have hindex : (x.obj.index == intToUlong (BitVec.ofNat 32 e.obj.index)) = true :=
      List.find?_some (p := fun f : Entry FiberArg =>
        f.obj.index == intToUlong (BitVec.ofNat 32 e.obj.index)) hfind
    rw [intToUlong_ofNat hi, beq_iff_eq] at hindex
    rw [h.index_inj x hx e he hindex]

/-! ## How far the names go -/

/-- The names of a reachable process identify its fibers exactly when no index has
more than seven digits. -/
theorem identifies_iff {context : Pid × Pid → Context} {as : List Action}
    (h : Run Step (System.init context) as s) (hp : s.kernel.record id = some p) :
    Identifies s.kernel id p ↔ ∀ e ∈ p.fibers, e.obj.index < 2 ^ 31 → e.obj.index < 10 ^ 7 := by
  obtain ⟨hok, hnamed⟩ := named_run h
  have hl := hok.linked id p hp
  constructor
  · intro hid e he hi
    have hparsed := hid.parsed e he hi
    rw [hnamed id p hp e he] at hparsed
    exact (parsed_iff e.obj.index hi).mp hparsed
  · intro hshort
    have hparsed : ∀ e ∈ p.fibers, e.obj.index < 2 ^ 31 →
        (kstrtoul e.obj.name).map BitVec.toNat = some e.obj.index := by
      intro e he hi
      rw [hnamed id p hp e he]
      exact (parsed_iff e.obj.index hi).mpr (hshort e he hi)
    refine ⟨fun e he e' he' hi hi' hname => ?_, hparsed, fun e he hi garbage => ?_⟩
    · have hindex := hparsed e he hi
      rw [hname, hparsed e' he' hi', Option.some.injEq] at hindex
      exact hl.index_inj e he e' he' hindex.symm
    · rw [openFileWith_record hp, if_pos rfl, hnamed id p hp e he,
        fiberIdOf_fiberName (hshort e he hi), fiberWithIndex_eq hl he hi, Option.map_some]

/-- `identifies_iff` for a process with the fibers 0 and 1. -/
theorem identifies_two_fibers : ∃ (as : List Action) (s : System) (p : ProcessArg),
    Run Step (System.init zeroContext) as s ∧ s.kernel.record 7 = some p ∧
    p.fibers.length = 2 ∧ Identifies s.kernel 7 p := by
  obtain ⟨s, hrun, hp⟩ := exists_run (System.init zeroContext)
    [.ioctl 7 7 .convertToFiber 0 Env.plain, .ioctl 7 7 .createFiber 0 Env.plain]
    (fun s => (s.kernel.record 7).any fun p =>
      p.fibers.length == 2 && p.fibers.all fun e => decide (e.obj.index < 10 ^ 7))
    (by decide +kernel)
  obtain ⟨p, hrec, hcond⟩ := (Option.any_eq_true _ _).mp hp
  obtain ⟨hlen, hall⟩ := Bool.and_eq_true_iff.mp hcond
  refine ⟨_, s, p, hrun, hrec, eq_of_beq hlen, (identifies_iff hrun hrec).mpr ?_⟩
  intro e he _
  exact of_decide_eq_true (List.all_eq_true.mp hall e he)

/-- The name of the fiber with the index `10 ^ 7` is read as `10 ^ 6`. -/
theorem name_cut : ∃ (as : List Action) (s : System) (p : ProcessArg) (e : Entry FiberArg),
    Run Step (System.init zeroContext) as s ∧ s.kernel.record 7 = some p ∧ e ∈ p.fibers ∧
    e.obj.index = 10000000 ∧ kstrtoul e.obj.name = some 1000000 ∧
    ¬ Identifies s.kernel 7 p := by
  obtain ⟨as, s, hrun, p, _, hrec, _, _, e, he, hindex⟩ := exists_fiber 10000000
  obtain ⟨_, hnamed⟩ := named_run hrun
  have hname : kstrtoul e.obj.name = some 1000000 := by
    rw [hnamed 7 p hrec e he, hindex]
    decide
  refine ⟨as, s, p, e, hrun, hrec, he, hindex, hname, fun hid => ?_⟩
  have hparsed := hid.parsed e he (by omega)
  rw [hname, hindex] at hparsed
  cases hparsed

/-- A file that is opened by a name of at most seven digits is on its fiber, when
`search_fiber` looks in the bucket in which the fiber is. -/
theorem openFile_of_name {context : Pid × Pid → Context} {as : List Action}
    (h : Run Step (System.init context) as s) (hp : s.kernel.record id = some p)
    {e : Entry FiberArg} (he : e ∈ p.fibers) (hi : e.obj.index < 10 ^ 7)
    (hbucket : hash32 (BitVec.ofNat 32 e.obj.index) = fiberBucket e.obj.index) (garbage : Word) :
    openFile s.kernel (some id) e.obj.name garbage true = .ok (some ⟨id, some e.addr⟩) := by
  obtain ⟨hok, hnamed⟩ := named_run h
  have hfound := searchFiber_eq (hok.linked id p hp) he (by omega)
  rw [if_pos hbucket] at hfound
  rw [openFile_eq, openFileWith_record hp, if_pos rfl, hnamed id p hp e he,
    fiberIdOf_fiberName hi, hfound, Option.map_some]

end LinuxFibers.Module
