import LinuxFibers.Ult.Basic
import Mathlib.Algebra.Group.Nat.Defs

/-!
# Local storage of user-space fibers

`fls_alloc`, `fls_get`, `fls_set` and `fls_free` of `multi_thread/src/ult.c`: one array for
all fibers and threads, and a counter that is only added to.

* `Storage` is the array and the counter.  The calls of any fibers come in any order, and a
  trace has what each call returned.
* `LocalStorage` is what the functions are for: every fiber has values of its own, at the
  indices that it was given.  No fiber sees what another one stores.  There are `MAX_FLS`
  indices for all fibers, and an index is refused only when they have been given.
* Nothing keeps a fiber away from the slots of another.  `Disciplined` is what `main_loop`
  does: it uses the indices that `FlsAlloc` returned to it, after the test for -1.

`storage_refines_iff` closes the refinement, up to the call at which the counter becomes
negative.
-/

namespace LinuxFibers.Ult

open LinuxFibers.Lib

/-! ## The array -/

/-- `MAX_FLS`. -/
def maxFls : ℕ := 4096

/-- An access of `fls` that is not in the array. -/
inductive StorageFault where
  | outOfBounds (idx : Word)
  deriving DecidableEq

/-- `fls` and `fls_idx`. -/
structure Storage where
  fls : ℕ → Word
  flsIdx : Word

/-- A call of a fiber. -/
inductive FlsCall where
  | alloc
  | get (idx : Word)
  | set (idx value : Word)
  | free (idx : Word)
  deriving DecidableEq

/-- The index that is given to the call. -/
def FlsCall.index : FlsCall → Option Word
  | .alloc => none
  | .get idx => some idx
  | .set idx _ => some idx
  | .free idx => some idx

/-- A call, and what it returned: 0 for `void`, 1 for `true`. -/
structure FlsEvent where
  fiber : ℕ
  call : FlsCall
  ret : Word
  deriving DecidableEq

namespace Storage

/-- The static variables at the start of the program. -/
def init : Storage := ⟨fun _ => 0, 0⟩

/-- `fls_alloc`.  The counter is a `long`, and goes on behind the end of the array. -/
def flsAlloc (s : Storage) : Word × Storage :=
  let ret := s.flsIdx
  (if (maxFls : Int) ≤ ret.toInt then -1 else ret, { s with flsIdx := s.flsIdx + 1 })

/-- `fls_get`. -/
def flsGet (s : Storage) (idx : Word) : Except StorageFault Word :=
  if idx.toNat < maxFls then .ok (s.fls idx.toNat) else .error (.outOfBounds idx)

/-- `fls_free`, which frees nothing. -/
def flsFree (_idx : Word) : Bool := true

/-- `fls_set`. -/
def flsSet (s : Storage) (idx value : Word) : Except StorageFault Storage :=
  if idx.toNat < maxFls then .ok { s with fls := Function.update s.fls idx.toNat value }
  else .error (.outOfBounds idx)

/-- A call, with its result. -/
def exec (s : Storage) : FlsCall → Except StorageFault (Word × Storage)
  | .alloc => .ok s.flsAlloc
  | .get idx => (s.flsGet idx).map fun value => (value, s)
  | .set idx value => (s.flsSet idx value).map fun t => (0, t)
  | .free idx => .ok (if flsFree idx then 1 else 0, s)

end Storage

/-- One call. -/
def StorageStep (s : Storage) (e : FlsEvent) (t : Storage) : Prop :=
  s.exec e.call = .ok (e.ret, t)

/-! ## Local storage -/

/-- The values of each fiber, at the indices that it has, and how many indices have been
given to all of them. -/
structure LocalStorage where
  value : ℕ → Word → Option Word
  given : ℕ

namespace LocalStorage

/-- No fiber has an index. -/
def empty : LocalStorage := ⟨fun _ _ => none, 0⟩

/-- A value of one fiber. -/
def put (l : LocalStorage) (p : ℕ) (i value : Word) : LocalStorage :=
  { l with value := Function.update l.value p (Function.update (l.value p) i (some value)) }

/-- A new index of one fiber. -/
def give (l : LocalStorage) (p : ℕ) (i : Word) : LocalStorage :=
  { l.put p i 0 with given := l.given + 1 }

end LocalStorage

/-- A fiber is given an index that it does not have, with the value 0, as long as fewer than
`MAX_FLS` have been given, and -1 from then on.  It reads and writes its own values, and an
index that is freed stays usable. -/
inductive LocalStep (l : LocalStorage) : FlsEvent → LocalStorage → Prop where
  | alloc {p : ℕ} {i : Word} : l.given < maxFls → i ≠ -1 → l.value p i = none →
      LocalStep l ⟨p, .alloc, i⟩ (l.give p i)
  | exhausted {p : ℕ} : l.given = maxFls → LocalStep l ⟨p, .alloc, -1⟩ l
  | get {p : ℕ} {i value : Word} : l.value p i = some value → LocalStep l ⟨p, .get i, value⟩ l
  | set {p : ℕ} {i value old : Word} : l.value p i = some old →
      LocalStep l ⟨p, .set i value, 0⟩ (l.put p i value)
  | free {p : ℕ} {i value : Word} : l.value p i = some value → LocalStep l ⟨p, .free i, 1⟩ l

/-! ## Traces -/

/-- How often `fls_alloc` was called. -/
def allocs (tr : List FlsEvent) : ℕ := tr.countP fun e => e.call = .alloc

/-- The fiber was given the index. -/
def Granted (tr : List FlsEvent) (p : ℕ) (i : Word) : Prop :=
  ⟨p, .alloc, i⟩ ∈ tr ∧ i ≠ -1

instance (tr : List FlsEvent) (p : ℕ) (i : Word) : Decidable (Granted tr p i) :=
  inferInstanceAs (Decidable (_ ∧ _))

/-- After `before`, every call is about an index that its fiber was given. -/
def DisciplinedFrom : List FlsEvent → List FlsEvent → Prop
  | _, [] => True
  | before, e :: es =>
      (∀ i ∈ e.call.index, Granted before e.fiber i) ∧ DisciplinedFrom (before ++ [e]) es

instance decidableDisciplinedFrom : ∀ before es, Decidable (DisciplinedFrom before es)
  | _, [] => inferInstanceAs (Decidable True)
  | before, e :: es =>
      -- not the instance that goes through all words
      have : Decidable (∀ i ∈ e.call.index, Granted before e.fiber i) :=
        Option.decidableForallMem _
      have := decidableDisciplinedFrom (before ++ [e]) es
      inferInstanceAs (Decidable (_ ∧ _))

/-- Every call is about an index that its fiber was given before. -/
def Disciplined (tr : List FlsEvent) : Prop := DisciplinedFrom [] tr

instance (tr : List FlsEvent) : Decidable (Disciplined tr) :=
  inferInstanceAs (Decidable (DisciplinedFrom [] tr))

variable {tr : List FlsEvent} {e : FlsEvent} {s t : Storage} {l : LocalStorage} {p q n : ℕ}
  {i j value : Word}

theorem disciplinedFrom_snoc (before : List FlsEvent) :
    DisciplinedFrom before (tr ++ [e]) ↔
      DisciplinedFrom before tr ∧ ∀ i ∈ e.call.index, Granted (before ++ tr) e.fiber i := by
  induction tr generalizing before with
  | nil => simp [DisciplinedFrom]
  | cons x xs ih =>
    rw [List.cons_append, DisciplinedFrom, ih, DisciplinedFrom, List.append_assoc,
      List.singleton_append, and_assoc]

theorem disciplined_snoc :
    Disciplined (tr ++ [e]) ↔ Disciplined tr ∧ ∀ i ∈ e.call.index, Granted tr e.fiber i :=
  disciplinedFrom_snoc []

theorem allocs_snoc (tr : List FlsEvent) (e : FlsEvent) :
    allocs (tr ++ [e]) = allocs tr + if e.call = .alloc then 1 else 0 := by
  simp [allocs, List.countP_append, List.countP_singleton]

theorem Granted.of_snoc (h : Granted (tr ++ [e]) p i) :
    Granted tr p i ∨ (e = ⟨p, .alloc, i⟩ ∧ i ≠ -1) := by
  obtain ⟨hmem, hne⟩ := h
  rcases List.mem_append.mp hmem with hmem | hmem
  · exact .inl ⟨hmem, hne⟩
  · exact .inr ⟨(List.mem_singleton.mp hmem).symm, hne⟩

@[simp] theorem LocalStorage.put_self (l : LocalStorage) (p : ℕ) (i value : Word) :
    (l.put p i value).value p i = some value := by
  simp [LocalStorage.put]

theorem LocalStorage.put_of_ne (h : q ≠ p ∨ j ≠ i) :
    (l.put p i value).value q j = l.value q j := by
  simp only [LocalStorage.put]
  by_cases hq : q = p
  · subst hq
    rw [Function.update_self, Function.update_of_ne (h.resolve_left fun hne => hne rfl)]
  · rw [Function.update_of_ne hq]

@[simp] theorem LocalStorage.give_value (l : LocalStorage) (p : ℕ) (i : Word) :
    (l.give p i).value = (l.put p i 0).value := rfl

/-- A fiber keeps the indices that it has. -/
theorem LocalStorage.put_ne_none (h : l.value q j ≠ none) :
    (l.put p i value).value q j ≠ none := by
  by_cases hsame : q = p ∧ j = i
  · obtain ⟨rfl, rfl⟩ := hsame
    rw [LocalStorage.put_self]
    exact Option.some_ne_none _
  · rwa [LocalStorage.put_of_ne (not_and_or.mp hsame)]

/-! ## What a call does -/

/-- The results of a call, for all functions. -/
theorem storageStep_cases (h : StorageStep s e t) :
    (∃ p, e = ⟨p, .alloc, s.flsAlloc.1⟩ ∧ t = s.flsAlloc.2) ∨
      (∃ p i, e = ⟨p, .get i, s.fls i.toNat⟩ ∧ i.toNat < maxFls ∧ t = s) ∨
      (∃ p i value, e = ⟨p, .set i value, 0⟩ ∧ i.toNat < maxFls ∧
        t = { s with fls := Function.update s.fls i.toNat value }) ∨
      ∃ p i, e = ⟨p, .free i, 1⟩ ∧ t = s := by
  obtain ⟨p, call, ret⟩ := e
  cases call with
  | alloc =>
    cases h
    exact .inl ⟨p, rfl, rfl⟩
  | get i =>
    simp only [StorageStep, Storage.exec, Storage.flsGet] at h
    split at h
    · rename_i hlt
      cases h
      exact .inr (.inl ⟨p, i, rfl, hlt, rfl⟩)
    · cases h
  | set i value =>
    simp only [StorageStep, Storage.exec, Storage.flsSet] at h
    split at h
    · rename_i hlt
      cases h
      exact .inr (.inr (.inl ⟨p, i, value, rfl, hlt, rfl⟩))
    · cases h
  | free i =>
    cases h
    exact .inr (.inr (.inr ⟨p, i, rfl, rfl⟩))

theorem storageStep_alloc (h : StorageStep s e t) (hcall : e.call = .alloc) :
    e.ret = s.flsAlloc.1 := by
  obtain ⟨p, call, ret⟩ := e
  cases hcall
  cases h
  rfl

/-- The counter counts the calls of `fls_alloc`. -/
theorem flsIdx_run (h : Run StorageStep .init tr s) : s.flsIdx = BitVec.ofNat 64 (allocs tr) := by
  refine h.invariantTrace (I := fun tr s => s.flsIdx = BitVec.ofNat 64 (allocs tr)) ?_ rfl
  intro tr s e t hs hstep
  rw [allocs_snoc]
  obtain ⟨p, rfl, rfl⟩ | ⟨p, i, rfl, _, rfl⟩ | ⟨p, i, value, rfl, _, rfl⟩ | ⟨p, i, rfl, rfl⟩ :=
    storageStep_cases hstep
  · show s.flsIdx + 1 = BitVec.ofNat 64 (allocs tr + 1)
    rw [hs, BitVec.ofNat_add]
    rfl
  · exact hs
  · exact hs
  · exact hs

theorem toNat_index (hn : n < 2 ^ 63) : (BitVec.ofNat 64 n).toNat = n := by
  rw [BitVec.toNat_ofNat]
  omega

/-- Until the counter becomes negative, the indices come in order up to the end of the
array. -/
theorem flsAlloc_ret (h : s.flsIdx = BitVec.ofNat 64 n) (hn : n < 2 ^ 63) :
    s.flsAlloc.1 = if n < maxFls then BitVec.ofNat 64 n else -1 := by
  have hnat := toNat_index hn
  have hint : (BitVec.ofNat 64 n).toInt = n := by
    rw [BitVec.toInt_eq_toNat_of_lt (by omega), hnat]
  simp only [Storage.flsAlloc, h, hint]
  by_cases hlt : n < maxFls
  · rw [if_neg (by omega), if_pos hlt]
  · rw [if_pos (by omega), if_neg hlt]

/-! ## The refinement -/

/-- The array holds the local storage: the indices that are in use are below the counter,
each belongs to one fiber, and the slots that are not in use are zero. -/
structure Refines (tr : List FlsEvent) (s : Storage) (l : LocalStorage) : Prop where
  granted : ∀ p i, Granted tr p i → l.value p i ≠ none
  held : ∀ p i value, l.value p i = some value →
    i.toNat < maxFls ∧ i.toNat < allocs tr ∧ s.fls i.toNat = value
  owner : ∀ p q i, l.value p i ≠ none → l.value q i ≠ none → p = q
  fresh : ∀ n, allocs tr ≤ n → s.fls n = 0
  given : l.given = min (allocs tr) maxFls

theorem refines_init : Refines [] .init .empty := by
  constructor
  · rintro p i ⟨hmem, _⟩
    cases hmem
  · intro p i value h
    cases h
  · intro p q i h
    exact absurd rfl h
  · intro n _
    rfl
  · rfl

/-- A call that changes neither of the two. -/
theorem Refines.other (h : Refines tr s l) (he : ∀ p i, e = ⟨p, .alloc, i⟩ → i = -1)
    (hgiven : l.given = min (allocs (tr ++ [e])) maxFls) : Refines (tr ++ [e]) s l := by
  have hle : allocs tr ≤ allocs (tr ++ [e]) := by
    rw [allocs_snoc]
    omega
  constructor
  · intro p i hgranted
    rcases hgranted.of_snoc with hgranted | ⟨heq, hne⟩
    · exact h.granted p i hgranted
    · exact absurd (he p i heq) hne
  · intro p i value hvalue
    obtain ⟨hmax, hlt, hfls⟩ := h.held p i value hvalue
    exact ⟨hmax, by omega, hfls⟩
  · exact h.owner
  · intro n hn
    exact h.fresh n (by omega)
  · exact hgiven

/-- A call that is not one of `fls_alloc`. -/
theorem Refines.noAlloc (h : Refines tr s l) (hcall : e.call ≠ .alloc) :
    Refines (tr ++ [e]) s l := by
  refine h.other (fun p i heq => ?_) ?_
  · subst heq
    exact absurd rfl hcall
  · rw [allocs_snoc, if_neg hcall]
    exact h.given

/-- A new index: no fiber has it, and its slot is zero. -/
theorem Refines.alloc (h : Refines tr s l) (hi : i.toNat = allocs tr) (hmax : allocs tr < maxFls)
    (p : ℕ) :
    l.value p i = none ∧
      Refines (tr ++ [⟨p, .alloc, i⟩]) { s with flsIdx := s.flsIdx + 1 } (l.give p i) := by
  have hallocs : allocs (tr ++ [⟨p, .alloc, i⟩]) = allocs tr + 1 := by
    rw [allocs_snoc, if_pos rfl]
  have hnone : ∀ q, l.value q i = none := by
    intro q
    by_contra hne
    obtain ⟨value, hvalue⟩ := Option.ne_none_iff_exists'.mp hne
    have hlt := (h.held q i value hvalue).2.1
    omega
  refine ⟨hnone p, ?_, ?_, ?_, ?_, ?_⟩
  · intro q j hgranted
    rw [LocalStorage.give_value]
    rcases hgranted.of_snoc with hgranted | ⟨heq, _⟩
    · exact LocalStorage.put_ne_none (h.granted q j hgranted)
    · cases heq
      rw [LocalStorage.put_self]
      exact Option.some_ne_none _
  · intro q j value hvalue
    rw [LocalStorage.give_value] at hvalue
    rw [hallocs]
    by_cases hsame : q = p ∧ j = i
    · obtain ⟨rfl, rfl⟩ := hsame
      rw [LocalStorage.put_self] at hvalue
      cases hvalue
      exact ⟨by omega, by omega, h.fresh _ (Nat.le_of_eq hi.symm)⟩
    · rw [LocalStorage.put_of_ne (not_and_or.mp hsame)] at hvalue
      obtain ⟨hmax, hlt, hfls⟩ := h.held q j value hvalue
      exact ⟨hmax, by omega, hfls⟩
  · -- only `p` has the new index
    have hold : ∀ q j, (l.put p i 0).value q j ≠ none → q = p ∧ j = i ∨ l.value q j ≠ none := by
      intro q j hne
      by_cases hsame : q = p ∧ j = i
      · exact .inl hsame
      · rw [LocalStorage.put_of_ne (not_and_or.mp hsame)] at hne
        exact .inr hne
    intro q r j hq hr
    rw [LocalStorage.give_value] at hq hr
    rcases hold q j hq with ⟨rfl, rfl⟩ | hq'
    · rcases hold r j hr with ⟨rfl, _⟩ | hr'
      · rfl
      · exact absurd (hnone r) hr'
    · rcases hold r j hr with ⟨rfl, rfl⟩ | hr'
      · exact absurd (hnone q) hq'
      · exact h.owner q r j hq' hr'
  · intro n hn
    rw [hallocs] at hn
    exact h.fresh n (by omega)
  · show l.given + 1 = min (allocs (tr ++ [⟨p, .alloc, i⟩])) maxFls
    rw [hallocs, h.given]
    omega

/-- A fiber writes to an index that it has, and so to no other fiber's slot. -/
theorem Refines.set (h : Refines tr s l) (hvalue : l.value p i ≠ none) (w : Word) :
    Refines (tr ++ [⟨p, .set i w, 0⟩]) { s with fls := Function.update s.fls i.toNat w }
      (l.put p i w) := by
  have hallocs : allocs (tr ++ [⟨p, .set i w, 0⟩]) = allocs tr := by
    rw [allocs_snoc, if_neg (by simp), Nat.add_zero]
  obtain ⟨old, hold⟩ := Option.ne_none_iff_exists'.mp hvalue
  obtain ⟨hmax, hlt, _⟩ := h.held p i old hold
  have hput : ∀ q j, (l.put p i w).value q j ≠ none → l.value q j ≠ none := by
    intro q j hne
    by_cases hsame : q = p ∧ j = i
    · obtain ⟨rfl, rfl⟩ := hsame
      exact hvalue
    · rwa [LocalStorage.put_of_ne (not_and_or.mp hsame)] at hne
  constructor
  · intro q j hgranted
    rcases hgranted.of_snoc with hgranted | ⟨heq, _⟩
    · exact LocalStorage.put_ne_none (h.granted q j hgranted)
    · cases heq
  · intro q j value hj
    rw [hallocs]
    by_cases hsame : q = p ∧ j = i
    · obtain ⟨rfl, rfl⟩ := hsame
      rw [LocalStorage.put_self] at hj
      cases hj
      exact ⟨hmax, hlt, Function.update_self _ _ _⟩
    · rw [LocalStorage.put_of_ne (not_and_or.mp hsame)] at hj
      obtain ⟨hjmax, hjlt, hfls⟩ := h.held q j value hj
      refine ⟨hjmax, hjlt, ?_⟩
      have hslot : j.toNat ≠ i.toNat := by
        intro heq
        obtain rfl := BitVec.eq_of_toNat_eq heq
        have hq : q = p := h.owner q p j (by simp [hj]) hvalue
        exact hsame ⟨hq, rfl⟩
      show Function.update s.fls i.toNat w j.toNat = value
      rw [Function.update_of_ne hslot, hfls]
  · intro q r j hq hr
    exact h.owner q r j (hput q j hq) (hput r j hr)
  · intro n hn
    rw [hallocs] at hn
    show Function.update s.fls i.toNat w n = 0
    rw [Function.update_of_ne (by omega), h.fresh n hn]
  · show l.given = min (allocs (tr ++ [⟨p, .set i w, 0⟩])) maxFls
    rw [hallocs, h.given]

/-- A disciplined call is a step of the local storage. -/
theorem refines_step (hidx : s.flsIdx = BitVec.ofNat 64 (allocs tr))
    (hle : allocs (tr ++ [e]) ≤ 2 ^ 63) (hd : ∀ i ∈ e.call.index, Granted tr e.fiber i)
    (h : Refines tr s l) (hstep : StorageStep s e t) :
    ∃ l', LocalStep l e l' ∧ Refines (tr ++ [e]) t l' := by
  have hvalue : ∀ i ∈ e.call.index, ∃ value, l.value e.fiber i = some value := fun i hi =>
    Option.ne_none_iff_exists'.mp (h.granted _ _ (hd i hi))
  obtain ⟨p, rfl, rfl⟩ | ⟨p, i, rfl, _, rfl⟩ | ⟨p, i, value, rfl, _, rfl⟩ | ⟨p, i, rfl, rfl⟩ :=
    storageStep_cases hstep
  · rw [allocs_snoc, if_pos rfl] at hle
    have hret := flsAlloc_ret hidx (by omega)
    rw [hret]
    by_cases hmax : allocs tr < maxFls
    · rw [if_pos hmax]
      have hnat : (BitVec.ofNat 64 (allocs tr)).toNat = allocs tr := toNat_index (by omega)
      have hne : BitVec.ofNat 64 (allocs tr) ≠ -1 := by
        intro heq
        rw [heq] at hnat
        rw [← hnat] at hmax
        exact absurd hmax (by decide)
      obtain ⟨hnone, hrefines⟩ := h.alloc hnat hmax p
      have hroom : l.given < maxFls := by
        rw [h.given]
        omega
      exact ⟨_, .alloc hroom hne hnone, hrefines⟩
    · rw [if_neg hmax]
      have hfull : l.given = maxFls := by
        rw [h.given]
        omega
      have hsame : Refines (tr ++ [⟨p, .alloc, -1⟩]) s l := by
        refine h.other (fun q j heq => by cases heq; rfl) ?_
        rw [allocs_snoc, if_pos rfl]
        omega
      exact ⟨l, .exhausted hfull, hsame.granted, hsame.held, hsame.owner, hsame.fresh, hsame.given⟩
  · obtain ⟨value, hi⟩ := hvalue i rfl
    rw [(h.held p i value hi).2.2]
    exact ⟨l, .get hi, h.noAlloc (by simp)⟩
  · obtain ⟨old, hi⟩ := hvalue i rfl
    exact ⟨_, .set hi, h.set (h.granted p i (hd i rfl)) value⟩
  · obtain ⟨value, hi⟩ := hvalue i rfl
    exact ⟨l, .free hi, h.noAlloc (by simp)⟩

theorem refines_run (h : Run StorageStep .init tr s) (hd : Disciplined tr)
    (hle : allocs tr ≤ 2 ^ 63) :
    ∃ l, Run LocalStep .empty tr l ∧ Refines tr s l := by
  induction h with
  | nil => exact ⟨_, Run.nil, refines_init⟩
  | @snoc tr u v e hrun hstep ih =>
    obtain ⟨hbefore, hlast⟩ := disciplined_snoc.mp hd
    have hmono : allocs tr ≤ allocs (tr ++ [e]) := by
      rw [allocs_snoc]
      omega
    obtain ⟨l, hlocal, hrefines⟩ := ih hbefore (by omega)
    obtain ⟨l', hstep', hrefines'⟩ := refines_step (flsIdx_run hrun) hle hlast hrefines hstep
    exact ⟨l', Run.snoc hlocal hstep', hrefines'⟩

/-! ## After the counter is negative -/

/-- In the local storage a fiber has the indices that it was given. -/
theorem local_granted (h : Run LocalStep .empty tr l) (hg : Granted tr p i) :
    l.value p i ≠ none := by
  induction h with
  | nil => exact absurd hg.1 List.not_mem_nil
  | @snoc tr l l' e _ hstep ih =>
    rcases hg.of_snoc with hg | ⟨rfl, hne⟩
    · have hold := ih hg
      cases hstep with
      | alloc => exact LocalStorage.put_ne_none hold
      | exhausted => exact hold
      | get => exact hold
      | set => exact LocalStorage.put_ne_none hold
      | free => exact hold
    · cases hstep with
      | alloc =>
        rw [LocalStorage.give_value, LocalStorage.put_self]
        exact Option.some_ne_none _
      | exhausted => exact absurd rfl hne

/-- The call after 2^63 others gives an index that is no index of the array. -/
theorem exists_negative (h : Run StorageStep .init tr s) (hlt : 2 ^ 63 < allocs tr) :
    ∃ p, Granted tr p (BitVec.intMin 64) := by
  induction h with
  | nil => exact absurd hlt (by decide)
  | @snoc tr u v e hrun hstep ih =>
    by_cases hbefore : 2 ^ 63 < allocs tr
    · obtain ⟨p, hmem, hne⟩ := ih hbefore
      exact ⟨p, List.mem_append_left _ hmem, hne⟩
    · rw [allocs_snoc] at hlt
      by_cases hcall : e.call = .alloc
      · rw [if_pos hcall] at hlt
        have hcount : allocs tr = 2 ^ 63 := by omega
        have hidx := flsIdx_run hrun
        rw [hcount] at hidx
        have hret : e.ret = BitVec.intMin 64 := by
          rw [storageStep_alloc hstep hcall]
          simp only [Storage.flsAlloc, hidx]
          decide
        refine ⟨e.fiber, List.mem_append_right _ (List.mem_singleton.mpr ?_), by decide⟩
        rw [← hret, ← hcall]
      · rw [if_neg hcall] at hlt
        exact absurd hlt hbefore

/-- For every run of disciplined calls, of any fibers in any order: the results are those of
storage that is local to each fiber, and the array has its values, exactly when `fls_alloc`
was called at most 2^63 times. -/
theorem storage_refines_iff (h : Run StorageStep .init tr s) (hd : Disciplined tr) :
    (∃ l, Run LocalStep .empty tr l ∧
      ∀ p i value, l.value p i = some value → s.flsGet i = .ok value) ↔
    allocs tr ≤ 2 ^ 63 := by
  constructor
  · rintro ⟨l, hlocal, hholds⟩
    by_contra hlt
    obtain ⟨p, hgranted⟩ := exists_negative h (Nat.lt_of_not_le hlt)
    obtain ⟨value, hvalue⟩ := Option.ne_none_iff_exists'.mp (local_granted hlocal hgranted)
    have hget := hholds p _ value hvalue
    rw [Storage.flsGet, if_neg (by decide)] at hget
    cases hget
  · intro hle
    obtain ⟨l, hlocal, hrefines⟩ := refines_run h hd hle
    refine ⟨l, hlocal, fun p i value hvalue => ?_⟩
    obtain ⟨hmax, _, hfls⟩ := hrefines.held p i value hvalue
    rw [Storage.flsGet, if_pos hmax, hfls]

/-- `storage_refines_iff` for two fibers that store values in turn. -/
theorem storage_refines_two_fibers : ∃ tr s,
    Run StorageStep .init tr s ∧ tr.length = 6 ∧
    ∃ l, Run LocalStep .empty tr l ∧
      ∀ p i value, l.value p i = some value → s.flsGet i = .ok value := by
  have hrun : Run StorageStep .init
      [⟨0, .alloc, 0⟩, ⟨1, .alloc, 1⟩, ⟨0, .set 0 7, 0⟩, ⟨1, .set 1 8, 0⟩, ⟨0, .free 0, 1⟩,
        ⟨0, .get 0, 7⟩] _ :=
    Run.cons rfl (Run.cons rfl (Run.cons rfl (Run.cons rfl (Run.cons rfl (Run.single rfl)))))
  exact ⟨_, _, hrun, rfl, (storage_refines_iff hrun (by decide)).mpr (by decide)⟩

end LinuxFibers.Ult
