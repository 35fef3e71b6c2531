import LinuxFibers.Lib.Insertion
import LinuxFibers.Module.ConvertRace

/-!
# Fibers that are inserted at the same time

`CONVERTTOFIBER` and `CREATEFIBER` end with `hash_add(process->fibers, ...)`, and no
lock is held there.  `FiberRace` has the threads of one process in these requests,
from the allocation of the fiber on, with the insertion cut at every access to the
pointers of the table (`Links.addHead`).

Two insertions in one bucket can overlap, and then the later head loses the fiber of
the earlier one.  `insertions_kept` says when: the table has all its fibers if and
only if every write of a head finds the head that its thread has read, as a
compare-and-swap would.  In every other run a chain lacks fibers, but it stays a
finite chain of fibers of its bucket, so no search runs on.
-/

namespace LinuxFibers.Module

open LinuxFibers.Lib HashTable

/-- The requests that make a fiber. -/
inductive Inserter where
  | convertToFiber
  | createFiber

/-- The fiber that a request fills in. -/
def Inserter.fiber (inserter : Inserter) (cur : Task) (env : Env) (index : ℕ) : FiberArg :=
  match inserter with
  | .convertToFiber => convertedFiber cur env index
  | .createFiber => createdFiber cur env.createArg index

/-- Where a thread is in such a request, with the locals `fiber` and `*fiber`. -/
inductive Making where
  /-- Outside of a request. -/
  | idle
  /-- `fiber` is allocated. -/
  | allocated (inserter : Inserter) (fiber : ℕ)
  /-- `*fiber` has its index and its other fields. -/
  | filled (fiber : ℕ) (obj : FiberArg) (insertion : Insertion)
  /-- The value of the last request. -/
  | returned (index : ℕ)

/-- The threads of a process, and the part of its record that they write.  `inserted`
has the fibers in the order in which they became heads. -/
structure FiberRace where
  fiberId : ℕ
  links : Links
  fiber : ℕ → Option FiberArg
  brk : ℕ
  call : Pid → Making
  inserted : HashTable FiberArg

namespace FiberRace

/-- The next step of a thread that makes a fiber. -/
def exec (tgid : Pid) (s : FiberRace) (m : Inserter × Turn) : FiberRace :=
  match s.call m.2.pid with
  | .idle | .returned _ =>
      { s with
        brk := s.brk + 1
        call := Function.update s.call m.2.pid (.allocated m.1 s.brk) }
  | .allocated inserter f =>
      let cur : Task := { m.2.context with tgid := tgid, pid := m.2.pid }
      let obj := inserter.fiber cur m.2.env s.fiberId
      { s with
        fiberId := s.fiberId + 1
        fiber := Function.update s.fiber f (some obj)
        call := Function.update s.call m.2.pid (.filled f obj .waiting) }
  | .filled _ obj .done =>
      { s with call := Function.update s.call m.2.pid (.returned obj.index) }
  | .filled f obj insertion =>
      let r := s.links.addHead (fiberBucket obj.index) f insertion
      { s with
        links := r.1
        call := Function.update s.call m.2.pid (.filled f obj r.2)
        inserted :=
          if r.2 = .published then s.inserted.hashAdd (fiberBucket obj.index) f obj
          else s.inserted }

/-- `search_fiber`, through the pointers. -/
def searchFiber (s : FiberRace) (index : BitVec 32) (fuel : ℕ) : Option (Option ℕ) :=
  s.links.search (fun a => (s.fiber a).any fun f => f.index == intToUlong index) fuel
    (s.links.first (hash32 index))

/-- A write of a head finds the head that its thread has read. -/
def fresh (s : FiberRace) (m : Inserter × Turn) : Bool :=
  match s.call m.2.pid with
  | .filled _ obj (.linked first) => s.links.first (fiberBucket obj.index) == first
  | _ => true

end FiberRace

/-- The steps of the threads. -/
def MakeStep (tgid : Pid) (s : FiberRace) (m : Inserter × Turn) (t : FiberRace) : Prop :=
  s.exec tgid m = t

/-- The steps whose writes find the head that was read. -/
def FreshStep (tgid : Pid) (s : FiberRace) (m : Inserter × Turn) (t : FiberRace) : Prop :=
  s.fresh m = true ∧ MakeStep tgid s m t

/-- No thread is in a request, and the pointers hold the table of the fibers. -/
structure AtRest (s : FiberRace) : Prop where
  idle : ∀ p, s.call p = .idle
  represents : Represents s.links s.inserted
  unique : s.inserted.UniqueAddr
  linked : ∀ e ∈ s.inserted,
    e.addr < s.brk ∧ e.bucket = fiberBucket e.obj.index ∧ s.fiber e.addr = some e.obj

/-! ## The invariant -/

/-- The node that a thread has not published yet. -/
def Making.private? : Making → Option ℕ
  | .allocated _ f => some f
  | .filled f _ .waiting | .filled f _ (.read _) | .filled f _ (.linked _) => some f
  | _ => none

/-- What a request has done so far. -/
def Making.Done (s : FiberRace) : Making → Prop
  | .idle | .allocated _ _ => True
  | .filled f obj .waiting => s.fiber f = some obj
  | .filled f obj (.read p) | .filled f obj (.linked p) =>
      s.fiber f = some obj ∧ s.links.next f = p ∧ Leads s.inserted (fiberBucket obj.index) p
  | .filled f obj .published | .filled f obj .done =>
      ⟨fiberBucket obj.index, f, obj⟩ ∈ s.inserted
  | .returned i => ∃ e ∈ s.inserted, e.obj.index = i

/-- The invariant of every order of the steps. -/
structure RaceSound (s : FiberRace) : Prop where
  unique : s.inserted.UniqueAddr
  linked : ∀ e ∈ s.inserted,
    e.addr < s.brk ∧ e.bucket = fiberBucket e.obj.index ∧ s.fiber e.addr = some e.obj
  first : ∀ b, s.links.first b = (s.inserted.addrs b).head?
  layered : Layered s.links.next s.inserted
  hidden : ∀ p f, (s.call p).private? = some f → f < s.brk ∧ ∀ e ∈ s.inserted, e.addr ≠ f
  apart : ∀ p q f, (s.call p).private? = some f → (s.call q).private? = some f → p = q
  calls : ∀ p, (s.call p).Done s

variable {tgid : Pid} {s s₀ t : FiberRace} {m : Inserter × Turn} {c : Making}

/-- What a request has done does not depend on the nodes of the others. -/
theorem Making.Done.congr (h : c.Done s) (hinserted : ∀ e ∈ s.inserted, e ∈ t.inserted)
    (hnode : ∀ f, c.private? = some f →
      t.fiber f = s.fiber f ∧ t.links.next f = s.links.next f) : c.Done t := by
  have hleads : ∀ {b : ℕ} {p : Option ℕ}, Leads s.inserted b p → Leads t.inserted b p := by
    intro b p hp a ha
    obtain ⟨e, he, hrest⟩ := hp a ha
    exact ⟨e, hinserted e he, hrest⟩
  cases c with
  | idle => trivial
  | allocated _ _ => trivial
  | returned i =>
    obtain ⟨e, he, hi⟩ := h
    exact ⟨e, hinserted e he, hi⟩
  | filled f obj insertion =>
    cases insertion with
    | waiting => exact (hnode f rfl).1.trans h
    | read p =>
      obtain ⟨hfiber, hnext, hp⟩ := h
      exact ⟨(hnode f rfl).1.trans hfiber, (hnode f rfl).2.trans hnext, hleads hp⟩
    | linked p =>
      obtain ⟨hfiber, hnext, hp⟩ := h
      exact ⟨(hnode f rfl).1.trans hfiber, (hnode f rfl).2.trans hnext, hleads hp⟩
    | published => exact hinserted _ h
    | done => exact hinserted _ h

/-- A step of one thread that changes its own node only. -/
theorem RaceSound.keep (h : RaceSound s) (p : Pid) (hcall : t.call = Function.update s.call p c)
    (hinserted : t.inserted = s.inserted) (hfirst : t.links.first = s.links.first)
    (hbrk : s.brk ≤ t.brk)
    (hnode : ∀ a, c.private? ≠ some a →
      t.fiber a = s.fiber a ∧ t.links.next a = s.links.next a)
    (hprivate : ∀ f, c.private? = some f → f < t.brk ∧ (∀ e ∈ s.inserted, e.addr ≠ f) ∧
      ∀ q, q ≠ p → (s.call q).private? ≠ some f)
    (hdone : c.Done t) : RaceSound t := by
  have hother : ∀ {q}, q ≠ p → t.call q = s.call q := by
    intro q hq
    rw [hcall, Function.update_of_ne hq]
  have hself : t.call p = c := by rw [hcall, Function.update_self]
  have houtside : ∀ e ∈ s.inserted, c.private? ≠ some e.addr := by
    intro e he hc
    exact (hprivate _ hc).2.1 e he rfl
  constructor
  · rw [hinserted]
    exact h.unique
  · rw [hinserted]
    intro e he
    obtain ⟨hlt, hb, hfiber⟩ := h.linked e he
    exact ⟨Nat.lt_of_lt_of_le hlt hbrk, hb, (hnode _ (houtside e he)).1.trans hfiber⟩
  · rw [hinserted, hfirst]
    exact h.first
  · rw [hinserted]
    exact h.layered.congr fun e he => (hnode _ (houtside e he)).2
  · rw [hinserted]
    intro q f hq
    by_cases hqp : q = p
    · rw [hqp, hself] at hq
      obtain ⟨hlt, hout, _⟩ := hprivate f hq
      exact ⟨hlt, hout⟩
    · rw [hother hqp] at hq
      obtain ⟨hlt, hout⟩ := h.hidden q f hq
      exact ⟨Nat.lt_of_lt_of_le hlt hbrk, hout⟩
  · intro q q' f hq hq'
    by_cases hqp : q = p
    · by_cases hqp' : q' = p
      · rw [hqp, hqp']
      · rw [hqp, hself] at hq
        rw [hother hqp'] at hq'
        exact absurd hq' ((hprivate f hq).2.2 q' hqp')
    · rw [hother hqp] at hq
      by_cases hqp' : q' = p
      · rw [hqp', hself] at hq'
        exact absurd hq ((hprivate f hq').2.2 q hqp)
      · rw [hother hqp'] at hq'
        exact h.apart q q' f hq hq'
  · intro q
    by_cases hqp : q = p
    · rw [hqp, hself]
      exact hdone
    · rw [hother hqp]
      refine (h.calls q).congr (fun e he => by rw [hinserted]; exact he) fun f hf => hnode f ?_
      intro hc
      exact (hprivate f hc).2.2 q hqp hf

/-! ## The steps -/

variable {p : Pid} {inserter : Inserter} {f i : ℕ} {obj : FiberArg} {q : Option ℕ}

/-- The thread `p` has read the head, and it is the `next` of its node. -/
def FiberRace.read (s : FiberRace) (p : Pid) (f : ℕ) (obj : FiberArg) : FiberRace :=
  let first := s.links.first (fiberBucket obj.index)
  { s with
    links := { s.links with next := Function.update s.links.next f first }
    call := Function.update s.call p (.filled f obj (.read first)) }

/-- The thread `p` has written the `pprev` of the node behind. -/
def FiberRace.link (s : FiberRace) (p : Pid) (f : ℕ) (obj : FiberArg) (a : ℕ) : FiberRace :=
  { s with
    links := { s.links with pprev := Function.update s.links.pprev a (some (.next f)) }
    call := Function.update s.call p (.filled f obj (.linked (some a))) }

/-- The thread `p` has written the head. -/
def FiberRace.publish (s : FiberRace) (p : Pid) (f : ℕ) (obj : FiberArg) : FiberRace :=
  let b := fiberBucket obj.index
  { s with
    links := { s.links with first := Function.update s.links.first b (some f) }
    call := Function.update s.call p (.filled f obj .published)
    inserted := s.inserted.hashAdd b f obj }

/-- The thread `p` has written the `pprev` of its node. -/
def FiberRace.own (s : FiberRace) (p : Pid) (f : ℕ) (obj : FiberArg) : FiberRace :=
  let slot := Slot.first (fiberBucket obj.index)
  { s with
    links := { s.links with pprev := Function.update s.links.pprev f (some slot) }
    call := Function.update s.call p (.filled f obj .done) }

/-- A step that leaves the tables, the nodes and their `next` alone. -/
theorem RaceSound.move (h : RaceSound s) (p : Pid) (hcall : t.call = Function.update s.call p c)
    (hinserted : t.inserted = s.inserted) (hfirst : t.links.first = s.links.first)
    (hnext : t.links.next = s.links.next) (hfiber : t.fiber = s.fiber) (hbrk : t.brk = s.brk)
    (hprivate : ∀ f, c.private? = some f → (s.call p).private? = some f)
    (hdone : c.Done t) : RaceSound t := by
  refine h.keep p hcall hinserted hfirst (Nat.le_of_eq hbrk.symm)
    (fun a _ => ⟨by rw [hfiber], by rw [hnext]⟩) (fun f hf => ?_) hdone
  obtain ⟨hlt, hout⟩ := h.hidden p f (hprivate f hf)
  rw [hbrk]
  exact ⟨hlt, hout, fun q hq hqf => hq (h.apart q p f hqf (hprivate f hf))⟩

/-- The publication of a node. -/
theorem RaceSound.publish (h : RaceSound s) (hc : s.call p = .filled f obj (.linked q)) :
    RaceSound (s.publish p f obj) := by
  have hprivate : (s.call p).private? = some f := by rw [hc]; rfl
  have hdone := h.calls p
  rw [hc] at hdone
  obtain ⟨hfiber, hnext, hleads⟩ := hdone
  obtain ⟨hlt, hout⟩ := h.hidden p f hprivate
  have hgone : ∀ q f', (Function.update s.call p (.filled f obj .published) q).private? = some f' →
      q ≠ p ∧ (s.call q).private? = some f' := by
    intro q f' hf'
    by_cases hqp : q = p
    · rw [hqp, Function.update_self] at hf'
      cases hf'
    · rw [Function.update_of_ne hqp] at hf'
      exact ⟨hqp, hf'⟩
  constructor
  · exact h.unique.hashAdd hout
  · intro e he
    rcases mem_hashAdd.mp he with rfl | he
    · exact ⟨hlt, rfl, hfiber⟩
    · exact h.linked e he
  · intro b
    dsimp only [FiberRace.publish, hashAdd]
    by_cases hb : b = fiberBucket obj.index
    · rw [hb, Function.update_self]
      exact (congrArg List.head? (addrs_cons_self ⟨fiberBucket obj.index, f, obj⟩ _)).symm
    · rw [Function.update_of_ne hb, addrs_cons_of_ne (Ne.symm hb)]
      exact h.first b
  · refine ⟨?_, h.layered⟩
    change Leads s.inserted _ (s.links.next f)
    rw [hnext]
    exact hleads
  · intro r f' hf'
    obtain ⟨hr, hf'⟩ := hgone r f' hf'
    obtain ⟨hlt', hout'⟩ := h.hidden r f' hf'
    refine ⟨hlt', fun e he => ?_⟩
    rcases mem_hashAdd.mp he with rfl | he
    · rintro rfl
      exact hr (h.apart r p f hf' hprivate)
    · exact hout' e he
  · intro r r' f' hf' hf''
    exact h.apart r r' f' (hgone r f' hf').2 (hgone r' f' hf'').2
  · intro r
    dsimp only [FiberRace.publish]
    by_cases hr : r = p
    · rw [hr, Function.update_self]
      exact mem_hashAdd.mpr (Or.inl rfl)
    · rw [Function.update_of_ne hr]
      exact (h.calls r).congr (fun e he => mem_hashAdd.mpr (Or.inr he)) fun _ _ => ⟨rfl, rfl⟩

/-- The step that allocates a fiber. -/
theorem RaceSound.allocate (h : RaceSound s) (p : Pid) (inserter : Inserter) :
    RaceSound { s with
      brk := s.brk + 1
      call := Function.update s.call p (.allocated inserter s.brk) } := by
  refine h.keep p rfl rfl rfl (Nat.le_succ _) (fun _ _ => ⟨rfl, rfl⟩) ?_ trivial
  intro f hf
  obtain rfl : s.brk = f := Option.some.inj hf
  refine ⟨Nat.lt_succ_self _, fun e he => Nat.ne_of_lt (h.linked e he).1, fun q _ hq => ?_⟩
  exact absurd (h.hidden q _ hq).1 (Nat.lt_irrefl _)

/-- The node of a thread is nobody else's. -/
theorem RaceSound.own (h : RaceSound s) (hf : (s.call p).private? = some f) :
    f < s.brk ∧ (∀ e ∈ s.inserted, e.addr ≠ f) ∧
      ∀ q, q ≠ p → (s.call q).private? ≠ some f := by
  obtain ⟨hlt, hout⟩ := h.hidden p f hf
  exact ⟨hlt, hout, fun q hq hqf => hq (h.apart q p f hqf hf)⟩

/-- The step that fills a fiber in. -/
theorem RaceSound.fill (h : RaceSound s) (hc : s.call p = .allocated inserter f) (obj : FiberArg) :
    RaceSound { s with
      fiberId := s.fiberId + 1
      fiber := Function.update s.fiber f (some obj)
      call := Function.update s.call p (.filled f obj .waiting) } := by
  refine h.keep p rfl rfl rfl (Nat.le_refl _) (fun a ha => ⟨?_, rfl⟩) ?_ ?_
  · exact Function.update_of_ne (fun hfa => ha (congrArg some hfa.symm)) _ _
  · intro a ha
    obtain rfl : f = a := Option.some.inj ha
    exact h.own (by rw [hc]; rfl)
  · exact Function.update_self f _ _

/-- The step that reads the head. -/
theorem RaceSound.read (h : RaceSound s) (hc : s.call p = .filled f obj .waiting) :
    RaceSound (s.read p f obj) := by
  have hdone := h.calls p
  rw [hc] at hdone
  refine h.keep p rfl rfl rfl (Nat.le_refl _) (fun a ha => ⟨rfl, ?_⟩) ?_ ?_
  · exact Function.update_of_ne (fun hfa => ha (congrArg some hfa.symm)) _ _
  · intro a ha
    obtain rfl : f = a := Option.some.inj ha
    exact h.own (by rw [hc]; rfl)
  · refine ⟨hdone, Function.update_self f _ _, fun a ha => ?_⟩
    rw [h.first] at ha
    exact mem_addrs.mp (List.mem_of_mem_head? ha)

/-- Every step keeps the invariant.  It keeps the chains exactly when it is fresh and
they were right. -/
theorem makeStep_sound (h : RaceSound s) (hstep : MakeStep tgid s m t) :
    RaceSound t ∧
      (Represents t.links t.inserted ↔ s.fresh m = true ∧ Represents s.links s.inserted) := by
  obtain rfl : s.exec tgid m = t := hstep
  have hdone := h.calls m.2.pid
  cases hc : s.call m.2.pid with
  | idle =>
    have hfresh : s.fresh m = true := by simp only [FiberRace.fresh, hc]
    simp only [FiberRace.exec, hc]
    exact ⟨h.allocate _ _, (and_iff_right hfresh).symm⟩
  | returned i =>
    have hfresh : s.fresh m = true := by simp only [FiberRace.fresh, hc]
    simp only [FiberRace.exec, hc]
    exact ⟨h.allocate _ _, (and_iff_right hfresh).symm⟩
  | allocated inserter f =>
    have hfresh : s.fresh m = true := by simp only [FiberRace.fresh, hc]
    simp only [FiberRace.exec, hc]
    exact ⟨h.fill hc _, (and_iff_right hfresh).symm⟩
  | filled f obj insertion =>
    rw [hc] at hdone
    cases insertion with
    | waiting =>
      have hfresh : s.fresh m = true := by simp only [FiberRace.fresh, hc]
      obtain ⟨_, hout, _⟩ := h.own (p := m.2.pid) (f := f) (by rw [hc]; rfl)
      simp only [FiberRace.exec, hc, Links.addHead]
      exact ⟨h.read hc, (represents_update hout _).trans (and_iff_right hfresh).symm⟩
    | read q =>
      have hfresh : s.fresh m = true := by simp only [FiberRace.fresh, hc]
      have hprivate : ∀ a, (Making.filled f obj (.linked q)).private? = some a →
          (s.call m.2.pid).private? = some a := by
        rw [hc]
        exact fun _ ha => ha
      cases q with
      | none =>
        simp only [FiberRace.exec, hc, Links.addHead, reduceCtorEq, if_false]
        exact ⟨h.move m.2.pid rfl rfl rfl rfl rfl rfl hprivate hdone, (and_iff_right hfresh).symm⟩
      | some a =>
        simp only [FiberRace.exec, hc, Links.addHead, reduceCtorEq, if_false]
        exact ⟨h.move m.2.pid rfl rfl rfl rfl rfl rfl hprivate hdone, (and_iff_right hfresh).symm⟩
    | linked q =>
      obtain ⟨_, hnext, _⟩ := hdone
      have hfresh : s.fresh m = true ↔ s.links.first (fiberBucket obj.index) = s.links.next f := by
        simp only [FiberRace.fresh, hc, beq_iff_eq, hnext]
      simp only [FiberRace.exec, hc, Links.addHead, if_true]
      refine ⟨h.publish hc, (represents_publish_iff h.first ⟨_, f, obj⟩).trans ?_⟩
      exact and_comm.trans (and_congr_left fun _ => hfresh.symm)
    | published =>
      have hfresh : s.fresh m = true := by simp only [FiberRace.fresh, hc]
      simp only [FiberRace.exec, hc, Links.addHead, reduceCtorEq, if_false]
      refine ⟨h.move m.2.pid rfl rfl rfl rfl rfl rfl ?_ hdone, (and_iff_right hfresh).symm⟩
      exact fun _ ha => by cases ha
    | done =>
      have hfresh : s.fresh m = true := by simp only [FiberRace.fresh, hc]
      simp only [FiberRace.exec, hc]
      refine ⟨h.move m.2.pid rfl rfl rfl rfl rfl rfl ?_ ⟨_, hdone, rfl⟩,
        (and_iff_right hfresh).symm⟩
      exact fun _ ha => by cases ha

/-! ## Every run -/

variable {ms : List (Inserter × Turn)}

theorem AtRest.sound (h : AtRest s) : RaceSound s := by
  have hcall := h.idle
  refine ⟨h.unique, h.linked, h.represents.first_eq, ?_, ?_, ?_, ?_⟩
  · exact layered_of_chains fun b => ⟨_, h.represents b⟩
  · intro p f hf
    rw [hcall] at hf
    cases hf
  · intro p q f hf
    rw [hcall] at hf
    cases hf
  · intro p
    rw [hcall]
    trivial

theorem makeStep_unique (s : FiberRace) (m : Inserter × Turn) (t u : FiberRace)
    (h : MakeStep tgid s m t) (h' : MakeStep tgid s m u) : t = u :=
  h.symm.trans h'

/-- The pointers hold the table after a run if and only if each of its steps is fresh. -/
theorem race_run (h₀ : AtRest s₀) (h : Run (MakeStep tgid) s₀ ms s) :
    RaceSound s ∧ (Represents s.links s.inserted ↔ Run (FreshStep tgid) s₀ ms s) := by
  induction h with
  | nil => exact ⟨h₀.sound, iff_of_true h₀.represents Run.nil⟩
  | @snoc ms s t m hprefix hstep ih =>
    obtain ⟨hsound, hrun⟩ := ih
    obtain ⟨hsound', hrep⟩ := makeStep_sound hsound hstep
    refine ⟨hsound', hrep.trans ?_⟩
    rw [hrun]
    constructor
    · rintro ⟨hfresh, hrun⟩
      exact hrun.snoc ⟨hfresh, hstep⟩
    · intro hrun
      obtain ⟨s', hrun', hfresh, _⟩ := Run.of_snoc hrun
      have hsame : s' = s := (hrun'.mono fun _ _ _ hk => hk.2).unique makeStep_unique hprefix
      rw [hsame] at hrun' hfresh
      exact ⟨hfresh, hrun'⟩

/-- The record that the other modules see. -/
def FiberRace.process (s : FiberRace) (tgid : Pid) (threads : HashTable ThreadArg) : ProcessArg :=
  ⟨tgid, s.fiberId, s.inserted, threads⟩

/-- The search of the record, where the pointers hold the table. -/
theorem searchFiber_of_represents (hsound : RaceSound s) (h : Represents s.links s.inserted)
    (index : BitVec 32) (threads : HashTable ThreadArg) {fuel : ℕ}
    (hfuel : s.inserted.length ≤ fuel) :
    s.searchFiber index fuel =
      some ((Module.searchFiber index (s.process tgid threads)).map Entry.addr) := by
  have hle : (s.inserted.addrs (hash32 index)).length ≤ fuel := by
    rw [HashTable.addrs, List.length_map]
    exact Nat.le_trans (List.length_filter_le _ _) hfuel
  rw [FiberRace.searchFiber, (h (hash32 index)).search _ hle]
  congr 1
  rw [Module.searchFiber, HashTable.search, HashTable.addrs, List.find?_map]
  rw [← List.head?_filter, ← List.head?_filter]
  congr 2
  apply List.filter_congr
  intro e he
  have hmem : e ∈ s.inserted := (List.mem_filter.mp he).1
  simp only [Function.comp, (hsound.linked e hmem).2.2, Option.any_some]

/-- The threads of a process make fibers in any order.  The table has all of them, the
newest first in each chain, if and only if every write of a head finds the head that
was read.  In any other run each chain is part of its bucket, and each search ends. -/
theorem insertions_kept (h₀ : AtRest s₀) (h : Run (MakeStep tgid) s₀ ms s) :
    (∀ b, ∃ as, Chain s.links.next (s.links.first b) as ∧ as.Sublist (s.inserted.addrs b)) ∧
      (∀ p i, s.call p = .returned i → ∃ e ∈ s.inserted, e.obj.index = i) ∧
      (∀ index, ∃ found, s.searchFiber index s.inserted.length = some found ∧
        ∀ a, found = some a → ∃ e ∈ s.inserted, e.addr = a ∧ e.obj.index = intToUlong index) ∧
      (Represents s.links s.inserted ↔ Run (FreshStep tgid) s₀ ms s) ∧
      (Run (FreshStep tgid) s₀ ms s → ∀ index threads,
        s.searchFiber index s.inserted.length =
          some ((Module.searchFiber index (s.process tgid threads)).map Entry.addr)) := by
  obtain ⟨hsound, hiff⟩ := race_run h₀ h
  have hchains : ∀ b, ∃ as, Chain s.links.next (s.links.first b) as ∧
      as.Sublist (s.inserted.addrs b) := by
    intro b
    refine hsound.layered.exists_chain fun a ha => ?_
    rw [hsound.first] at ha
    exact mem_addrs.mp (List.mem_of_mem_head? ha)
  refine ⟨hchains, fun p i hp => ?_, fun index => ?_, hiff, fun hfresh index threads => ?_⟩
  · have hdone := hsound.calls p
    rw [hp] at hdone
    exact hdone
  · obtain ⟨as, hchain, hsub⟩ := hchains (hash32 index)
    have hle : as.length ≤ s.inserted.length := by
      have hbucket : (s.inserted.addrs (hash32 index)).length ≤ s.inserted.length := by
        rw [HashTable.addrs, List.length_map]
        exact List.length_filter_le _ _
      exact Nat.le_trans hsub.length_le hbucket
    refine ⟨_, hchain.search _ hle, fun a ha => ?_⟩
    obtain ⟨e, he, _, rfl⟩ := mem_addrs.mp (hsub.subset (List.mem_of_find?_eq_some ha))
    have htest := List.find?_some ha
    rw [(hsound.linked e he).2.2] at htest
    exact ⟨e, he, rfl, beq_iff_eq.mp htest⟩
  · exact searchFiber_of_represents hsound (hiff.mpr hfresh) index threads (Nat.le_refl _)

/-! ## A run -/

/-- Every list of turns is a run. -/
theorem run_exec (tgid : Pid) (s : FiberRace) (ms : List (Inserter × Turn)) :
    Run (MakeStep tgid) s ms (ms.foldl (FiberRace.exec tgid) s) := by
  induction ms generalizing s with
  | nil => exact Run.nil
  | cons m ms ih => exact Run.cons rfl (ih _)

/-- The fiber 6. -/
def sixth : FiberArg := createdFiber ⟨zeroContext (7, 9), 7, 9⟩ Env.plain.createArg 6

/-- A process with the fiber 6 when `fiber_id` is 616. -/
def FiberRace.start : FiberRace where
  fiberId := 616
  links := ⟨Function.update (fun _ => none) 298 (some 0), fun _ => none,
    Function.update (fun _ => none) 0 (some (.first 298))⟩
  fiber := Function.update (fun _ => none) 0 (some sixth)
  brk := 1
  call := fun _ => .idle
  inserted := [⟨298, 0, sixth⟩]

theorem atRest_start : AtRest FiberRace.start := by
  refine ⟨fun _ => rfl, fun b => ?_, List.nodup_singleton _, fun e he => ?_⟩
  · by_cases hb : b = 298
    · rw [hb]
      exact .cons .nil
    · show Chain _ (Function.update (fun _ => none) 298 (some 0) b) (addrs [⟨298, 0, sixth⟩] b)
      rw [addrs_cons_of_ne (Ne.symm hb), Function.update_of_ne hb]
      exact .nil
  · rw [List.mem_singleton.mp he]
    exact ⟨Nat.zero_lt_one, by decide +kernel, rfl⟩

/-- The threads take turns, each with `CREATEFIBER`. -/
def creating (pids : List Pid) : List (Inserter × Turn) :=
  pids.map fun p => (.createFiber, Turn.plain p)

/-- Two threads whose requests overlap.  Thread 8 makes the fiber 616, which comes in
front of the fiber 6. -/
def interleaved : List (Inserter × Turn) := creating [7, 8, 8, 7, 7, 7, 8, 8, 7, 7, 7, 8, 8, 8]

theorem insertions_kept_two_threads : ∃ s, Run (MakeStep 7) FiberRace.start interleaved s ∧
    s.inserted.length = 3 ∧ s.inserted.addrs 298 = [2, 0] ∧
    (∀ p i, s.call p = .returned i → ∃ e ∈ s.inserted, e.obj.index = i) ∧
    (Represents s.links s.inserted ↔ Run (FreshStep 7) FiberRace.start interleaved s) := by
  have hrun := run_exec 7 FiberRace.start interleaved
  obtain ⟨_, hreturned, _, hiff, _⟩ := insertions_kept atRest_start hrun
  exact ⟨_, hrun, by decide +kernel, by decide +kernel, hreturned, hiff⟩

end LinuxFibers.Module
