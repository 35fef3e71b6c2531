import LinuxFibers.Module.Ownership
import Mathlib.Algebra.Group.Nat.Defs

/-!
# The lookup of fibers

A fiber is linked with the key `fiber->index`, an `unsigned long`, and looked up
with an `int`.  `hash_add` and `hash_for_each_possible` choose their hash
function by the size of the key, so the fiber is in the bucket of `hash_64` and
the search is in the bucket of `hash_32`.  `searchFiber_eq` says that this is all
that matters: the fiber is found exactly when the two buckets agree.
`searchFiber_misses_5323` is a reachable state in which they do not.
-/

namespace LinuxFibers.Module

open LinuxFibers.Lib HashTable

/-- An index below `2 ^ 31` survives the conversion to `int`. -/
theorem intToUlong_ofNat {i : ℕ} (h : i < 2 ^ 31) : intToUlong (BitVec.ofNat 32 i) = i := by
  unfold intToUlong
  have hmsb : (BitVec.ofNat 32 i).msb = false := by
    rw [BitVec.msb_eq_decide]
    simp only [BitVec.toNat_ofNat, decide_eq_false_iff_not, Nat.not_le]
    omega
  rw [BitVec.signExtend_eq_setWidth_of_msb_false hmsb]
  simp only [BitVec.toNat_setWidth, BitVec.toNat_ofNat]
  omega

/-- The lookup of a linked fiber by its index. -/
theorem searchFiber_eq {brk : ℕ} {p : ProcessArg} (h : Linked brk p) {f : Entry FiberArg}
    (hf : f ∈ p.fibers) (hi : f.obj.index < 2 ^ 31) :
    searchFiber (BitVec.ofNat 32 f.obj.index) p =
      if hash32 (BitVec.ofNat 32 f.obj.index) = fiberBucket f.obj.index then some f else none := by
  have htest : (f.obj.index == intToUlong (BitVec.ofNat 32 f.obj.index)) = true := by
    rw [intToUlong_ofNat hi]
    exact beq_self_eq_true f.obj.index
  have honly : ∀ x ∈ p.fibers,
      (x.obj.index == intToUlong (BitVec.ofNat 32 f.obj.index)) = true → x = f := by
    intro x hx hp
    rw [intToUlong_ofNat hi] at hp
    exact h.index_inj x hx f hf (by simpa using hp)
  split
  · rename_i hb
    apply (search_eq_some_iff hf htest honly).mpr
    rw [h.fiber_bucket f hf, hb]
  · rename_i hb
    apply search_eq_none_iff.mpr
    intro x hx hbx
    by_contra hp
    rw [Bool.not_eq_false] at hp
    rw [honly x hx hp, h.fiber_bucket f hf] at hbx
    exact hb hbx.symm

/-- In every reachable state, a fiber with an index below `2 ^ 31` is found by
its index exactly when the bucket of the index as an `int` is the bucket of the
index as an `unsigned long`. -/
theorem searchFiber_finds_iff {context : Pid × Pid → Context} {as : List Action} {s : System}
    (h : Run Step (System.init context) as s) {e : Entry ProcessArg}
    (he : e ∈ s.kernel.listProcess) {f : Entry FiberArg} (hf : f ∈ e.obj.fibers)
    (hi : f.obj.index < 2 ^ 31) :
    searchFiber (BitVec.ofNat 32 f.obj.index) e.obj = some f ↔
      hash32 (BitVec.ofNat 32 f.obj.index) = hash64 (BitVec.ofNat 64 f.obj.index) := by
  have hok := kernelOk_run h
  rw [searchFiber_eq (hok.linked _ _ (record_of_mem hok.toTables he)) hf hi]
  unfold fiberBucket
  split
  · rename_i hb
    exact ⟨fun _ => hb, fun _ => rfl⟩
  · rename_i hb
    exact ⟨fun hn => absurd hn (Option.some_ne_none f).symm, fun hb' => absurd hb' hb⟩

/-! ## A process with many fibers -/

/-- A creation by a converted thread with nothing that fails. -/
theorem createFiber_succeeds {k : Kernel} (cur : Task) (env : Env) {p : ProcessArg}
    {thread : Entry ThreadArg} (h : Tables k) (hp : k.record cur.tgid = some p)
    (hthread : searchThread cur.pid p = some thread) (halloc : ∀ kind, env.kzalloc kind = true)
    (hcopy : env.copyFromUser = true) :
    ∃ r f, createFiber k cur env = .ok r ∧
      r.kernel.record cur.tgid = some (p.create f (createdFiber cur env.createArg p.fiberId)) := by
  have hrecord := hp
  rw [Kernel.record, Option.map_eq_some_iff] at hp
  obtain ⟨e, he, rfl⟩ := hp
  have hret : ∃ r, createFiber k cur env = .ok r ∧ r.ret = e.obj.fiberId := by
    unfold createFiber
    simp only [halloc, kzalloc, if_true, hcopy, Bool.not_true, Bool.false_eq_true, if_false]
    have he' : searchProcess { k with
        allocated := (k.brk + 1) :: k.brk :: k.allocated, brk := k.brk + 1 + 1 } cur.tgid =
          some e := he
    simp only [he', hthread]
    exact ⟨_, rfl, rfl⟩
  obtain ⟨r, hr, hret⟩ := hret
  have hq : Requested k cur .createFiber 0 env r := requested_createFiber h hr
  have hc := hq.change
  rw [hrecord] at hc
  generalize hafter : r.kernel.record cur.tgid = after at hc
  cases hc with
  | idle hneg =>
    have := hneg rfl
    omega
  | @created p t f => exact ⟨r, f, hr, hafter⟩
  | stored _ _ _ hw => cases hw

/-- A process whose last fiber has the index `n`. -/
theorem exists_fiber (n : ℕ) : ∃ as s, Run Step (System.init zeroContext) as s ∧
    ∃ p thread, s.kernel.record 7 = some p ∧ searchThread 7 p = some thread ∧
      p.fiberId = n + 1 ∧ ∃ f ∈ p.fibers, f.obj.index = n := by
  induction n with
  | zero =>
    obtain ⟨s, hrun, hp⟩ := exists_run (System.init zeroContext)
      [.ioctl 7 7 .convertToFiber 0 Env.plain]
      (fun s => (s.kernel.record 7).any fun p => (searchThread 7 p).isSome &&
        (p.fiberId == 1 && p.fibers.any fun f => f.obj.index == 0)) (by decide +kernel)
    obtain ⟨p, hrec, hp⟩ := (Option.any_eq_true _ _).mp hp
    obtain ⟨hthread, hp⟩ := Bool.and_eq_true_iff.mp hp
    obtain ⟨hid, hfiber⟩ := Bool.and_eq_true_iff.mp hp
    obtain ⟨thread, hthread⟩ := Option.isSome_iff_exists.mp hthread
    obtain ⟨f, hf, hindex⟩ := List.any_eq_true.mp hfiber
    exact ⟨_, s, hrun, p, thread, hrec, hthread, by simpa using hid, f, hf,
      by simpa using hindex⟩
  | succ n ih =>
    obtain ⟨as, s, hrun, p, thread, hrec, hthread, hid, _⟩ := ih
    obtain ⟨r, f, hr, hafter⟩ := createFiber_succeeds (s.task 7 7) Env.plain
      (kernelOk_run hrun).toTables hrec hthread (fun _ => rfl) rfl
    have hstep : Step s (.ioctl 7 7 .createFiber 0 Env.plain) (s.resume 7 7 r) := by
      have hreq : s.request 7 7 .createFiber 0 Env.plain = .ok r := hr
      simp only [Step, System.exec, hreq]
      rfl
    refine ⟨_, _, hrun.snoc hstep, _, thread, hafter, hthread, ?_, _, List.mem_cons_self, hid⟩
    change p.fiberId + 1 = n + 1 + 1
    rw [hid]

/-- `searchFiber_finds_iff` for the fiber with the index 5322. -/
theorem searchFiber_finds_5322 : ∃ (as : List Action) (s : System),
    Run Step (System.init zeroContext) as s ∧ ∃ e ∈ s.kernel.listProcess, ∃ f ∈ e.obj.fibers,
      f.obj.index = 5322 ∧ (searchFiber (BitVec.ofNat 32 f.obj.index) e.obj = some f ↔
        hash32 (BitVec.ofNat 32 f.obj.index) = hash64 (BitVec.ofNat 64 f.obj.index)) := by
  obtain ⟨as, s, hrun, p, _, hrec, _, _, f, hf, hindex⟩ := exists_fiber 5322
  obtain ⟨e, he, rfl, _⟩ := mem_of_record hrec
  exact ⟨as, s, hrun, e, he, f, hf, hindex, searchFiber_finds_iff hrun he hf (by omega)⟩

/-- The fiber with the index 5323 is in bucket 209 and is searched for in bucket
210. -/
theorem searchFiber_misses_5323 : ∃ (as : List Action) (s : System),
    Run Step (System.init zeroContext) as s ∧ ∃ e ∈ s.kernel.listProcess, ∃ f ∈ e.obj.fibers,
      f.obj.index = 5323 ∧ searchFiber 5323#32 e.obj = none := by
  obtain ⟨as, s, hrun, p, _, hrec, _, _, f, hf, hindex⟩ := exists_fiber 5323
  obtain ⟨e, he, rfl, _⟩ := mem_of_record hrec
  refine ⟨as, s, hrun, e, he, f, hf, hindex, ?_⟩
  have hok := kernelOk_run hrun
  have hsearch := searchFiber_eq (hok.linked _ _ hrec) hf (by omega)
  rw [hindex, if_neg (by decide +kernel)] at hsearch
  exact hsearch

end LinuxFibers.Module
