import LinuxFibers.Module.InsertRace

/-!
# The pointers back, when fibers are inserted at the same time

`hash_del` of an exit goes through the `pprev` of the fiber.  An insertion writes the
`pprev` of the node behind it before it writes the head, and that of its own node
last, when the next insertion can already have written it.

`removals_kept` says when this does no harm: after all requests have returned, every
chain is right in both directions if and only if no two insertions overlapped in a
bucket, in the sense of `FiberRace.alone`.  A run whose writes of heads are all fresh is
not enough.  From a right table the exits take out exactly their fibers.

`LinkSound` is the invariant of these runs, and each step has a lemma that says when it
keeps `LinkSound`, in both directions.
-/

namespace LinuxFibers.Module

open LinuxFibers.Lib HashTable

variable {tgid : Pid} {s s₀ t : FiberRace} {m : Inserter × Turn} {ms : List (Inserter × Turn)}
  {c : Making} {p r : Pid} {inserter : Inserter} {f i a b : ℕ} {obj : FiberArg} {q : Option ℕ}

/-! ## Where an insertion is -/

/-- Between the read of the head of a bucket and its write. -/
def Making.reads (b : ℕ) (q : Option ℕ) : Making → Prop
  | .filled _ obj (.read r) | .filled _ obj (.linked r) => fiberBucket obj.index = b ∧ r = q
  | _ => False

/-- Between the write of `a->pprev` by the insertion of `f` in front of `a` and that of the
head. -/
def Making.linksTo (f a : ℕ) : Making → Prop
  | .filled g _ (.linked (some c)) => g = f ∧ c = a
  | _ => False

/-- Between the write of the head and that of the node's own `pprev`. -/
def Making.heads (b a : ℕ) : Making → Prop
  | .filled g obj .published => fiberBucket obj.index = b ∧ g = a
  | _ => False

/-- No other thread is between its read and its write of the same head, and the node
behind has its own `pprev`. -/
def FiberRace.alone (s : FiberRace) (m : Inserter × Turn) : Prop :=
  match s.call m.2.pid with
  | .filled _ obj .waiting => ∀ p q, ¬(s.call p).reads (fiberBucket obj.index) q
  | .filled _ obj (.read (some a)) => ∀ p, ¬(s.call p).heads (fiberBucket obj.index) a
  | _ => True

/-- The steps of insertions that do not overlap. -/
def AloneStep (tgid : Pid) (s : FiberRace) (m : Inserter × Turn) (t : FiberRace) : Prop :=
  s.alone m ∧ MakeStep tgid s m t

/-- The head of a bucket has its slot as `pprev`, unless some insertion is about to write
that, or has written its own. -/
def HeadBacked (s : FiberRace) : Prop :=
  ∀ b a, s.links.first b = some a → (∀ p, ¬(s.call p).heads b a) →
    (∀ p f, ¬(s.call p).linksTo f a) → s.links.pprev a = some (.first b)

/-- The table is right, up to the writes that the insertions still make. -/
structure LinkSound (s : FiberRace) : Prop where
  represents : Represents s.links s.inserted
  one : ∀ p p' b q q', (s.call p).reads b q → (s.call p').reads b q' → p = p'
  current : ∀ p b q, (s.call p).reads b q → s.links.first b = q
  head : ∀ p b a, (s.call p).heads b a →
    s.links.first b = some a ∧ ∀ p' f, ¬(s.call p').linksTo f a
  behind : ∀ b a as, s.inserted.addrs b = a :: as → Back s.links.pprev (.next a) as
  taken : ∀ p f a, (s.call p).linksTo f a → s.links.pprev a = some (.next f)

/-- Outside of the writes of the insertion. -/
structure Making.Outside (c : Making) : Prop where
  reads : ∀ b q, ¬c.reads b q
  linksTo : ∀ f a, ¬c.linksTo f a
  heads : ∀ b a, ¬c.heads b a

theorem outside_idle : Making.Outside .idle := ⟨fun _ _ => id, fun _ _ => id, fun _ _ => id⟩

theorem outside_allocated : (Making.allocated inserter f).Outside :=
  ⟨fun _ _ => id, fun _ _ => id, fun _ _ => id⟩

theorem outside_waiting : (Making.filled f obj .waiting).Outside :=
  ⟨fun _ _ => id, fun _ _ => id, fun _ _ => id⟩

theorem outside_done : (Making.filled f obj .done).Outside :=
  ⟨fun _ _ => id, fun _ _ => id, fun _ _ => id⟩

theorem outside_returned : (Making.returned i).Outside :=
  ⟨fun _ _ => id, fun _ _ => id, fun _ _ => id⟩

theorem of_updateCall {K : Making → Prop} (h : K (Function.update s.call p c r)) :
    r = p ∧ K c ∨ r ≠ p ∧ K (s.call r) := by
  by_cases hr : r = p
  · rw [hr, Function.update_self] at h
    exact Or.inl ⟨hr, h⟩
  · rw [Function.update_of_ne hr] at h
    exact Or.inr ⟨hr, h⟩

/-- A thread whose place is not that of `p`. -/
theorem ne_of_call {K : Making → Prop} (hc : s.call p = c) (hK : ¬K c) (hr : K (s.call r)) :
    r ≠ p := by
  rintro rfl
  exact hK (hc ▸ hr)

theorem updateCall_of_ne {K : Making → Prop} (hr : r ≠ p) (h : K (s.call r)) :
    K (Function.update s.call p c r) := by
  rwa [Function.update_of_ne hr]

theorem updateCall_self {K : Making → Prop} (h : K c) : K (Function.update s.call p c p) := by
  rwa [Function.update_self]

/-- An insertion in front of a node has read it. -/
theorem reads_of_linksTo (h : c.linksTo f a) : ∃ b, c.reads b (some a) := by
  cases c with
  | idle => cases h
  | allocated _ _ => cases h
  | returned _ => cases h
  | filled g obj insertion =>
    cases insertion with
    | waiting => cases h
    | read _ => cases h
    | published => cases h
    | done => cases h
    | linked q =>
      cases q with
      | none => cases h
      | some x =>
        obtain ⟨_, rfl⟩ := h
        exact ⟨_, rfl, rfl⟩

theorem RaceSound.leads_of_reads (h : RaceSound s) (hr : (s.call r).reads b q) :
    Leads s.inserted b q := by
  have hdone := h.calls r
  cases hc : s.call r with
  | idle => rw [hc] at hr; cases hr
  | allocated _ _ => rw [hc] at hr; cases hr
  | returned _ => rw [hc] at hr; cases hr
  | filled g obj insertion =>
    rw [hc] at hr hdone
    cases insertion with
    | waiting => cases hr
    | published => cases hr
    | done => cases hr
    | read _ =>
      obtain ⟨rfl, rfl⟩ := hr
      exact hdone.2.2
    | linked _ =>
      obtain ⟨rfl, rfl⟩ := hr
      exact hdone.2.2

theorem RaceSound.mem_of_heads (h : RaceSound s) (hr : (s.call r).heads b a) :
    a ∈ s.inserted.addrs b := by
  have hdone := h.calls r
  cases hc : s.call r with
  | idle => rw [hc] at hr; cases hr
  | allocated _ _ => rw [hc] at hr; cases hr
  | returned _ => rw [hc] at hr; cases hr
  | filled g obj insertion =>
    rw [hc] at hr hdone
    cases insertion with
    | waiting => cases hr
    | done => cases hr
    | read _ => cases hr
    | linked _ => cases hr
    | published =>
      obtain ⟨rfl, rfl⟩ := hr
      exact mem_addrs.mpr ⟨_, hdone, rfl, rfl⟩

/-- The node of a thread is not in the table yet. -/
theorem RaceSound.notMem_of_private (h : RaceSound s) (hf : (s.call p).private? = some f) :
    f ∉ s.inserted.addrs b := by
  intro hb
  obtain ⟨e, he, rfl⟩ := addr_mem hb
  exact (h.own hf).2.1 e he rfl

/-- No insertion has read the node of another thread before it is in the table. -/
theorem RaceSound.not_reads_of_private (h : RaceSound s) (hf : (s.call p).private? = some f) :
    ¬(s.call r).reads b (some f) := by
  intro hr
  exact h.notMem_of_private hf (mem_addrs.mpr (h.leads_of_reads hr f rfl))

theorem RaceSound.not_linksTo_of_private (h : RaceSound s) {g : ℕ}
    (hf : (s.call p).private? = some f) : ¬(s.call r).linksTo g f := by
  intro hr
  obtain ⟨b, hb⟩ := reads_of_linksTo hr
  exact h.not_reads_of_private hf hb

theorem RaceSound.mem_first (h : RaceSound s) (hf : s.links.first b = some a) :
    a ∈ s.inserted.addrs b := by
  rw [h.first] at hf
  exact List.mem_of_mem_head? hf

/-- The head of a bucket is behind no node. -/
theorem RaceSound.first_notMem (h : RaceSound s) (hf : s.links.first b = some a) {b' x : ℕ}
    {as : List ℕ} (has : s.inserted.addrs b' = x :: as) : a ∉ as := by
  intro ha
  have hb : b = b' := h.unique.bucket_eq (h.mem_first hf) (has ▸ List.mem_cons_of_mem x ha)
  subst hb
  have hhead := h.first b
  rw [hf, has] at hhead
  obtain rfl : a = x := Option.some.inj hhead
  have hnodup := h.unique.nodup_addrs b
  rw [has] at hnodup
  exact (List.nodup_cons.mp hnodup).1 ha

/-- Two places with the same reads and writes behind them. -/
structure Making.SameWrites (c c' : Making) : Prop where
  reads : ∀ b q, c.reads b q ↔ c'.reads b q
  linksTo : ∀ f a, c.linksTo f a ↔ c'.linksTo f a
  heads : ∀ b a, c.heads b a ↔ c'.heads b a

theorem Making.SameWrites.symm {c c' : Making} (h : c.SameWrites c') : c'.SameWrites c :=
  ⟨fun b q => (h.reads b q).symm, fun f a => (h.linksTo f a).symm, fun b a => (h.heads b a).symm⟩

theorem Making.Outside.same {c c' : Making} (h : c.Outside) (h' : c'.Outside) : c.SameWrites c' :=
  ⟨fun b q => iff_of_false (h.reads b q) (h'.reads b q),
    fun f a => iff_of_false (h.linksTo f a) (h'.linksTo f a),
    fun b a => iff_of_false (h.heads b a) (h'.heads b a)⟩

theorem sameWrites_update (h : (s.call p).SameWrites c) (r : Pid) :
    (s.call r).SameWrites (Function.update s.call p c r) := by
  by_cases hr : r = p
  · rw [hr, Function.update_self]
    exact h
  · rw [Function.update_of_ne hr]
    exact ⟨fun _ _ => Iff.rfl, fun _ _ => Iff.rfl, fun _ _ => Iff.rfl⟩

theorem LinkSound.of_same (h : LinkSound s) (hlinks : t.links = s.links)
    (hinserted : t.inserted = s.inserted) (hsame : ∀ r, (t.call r).SameWrites (s.call r)) :
    LinkSound t := by
  constructor
  · rw [hlinks, hinserted]
    exact h.represents
  · intro p p' b q q' hp hp'
    exact h.one p p' b q q' (((hsame p).reads b q).mp hp) (((hsame p').reads b q').mp hp')
  · intro p b q hp
    rw [hlinks]
    exact h.current p b q (((hsame p).reads b q).mp hp)
  · intro p b a hp
    obtain ⟨hfirst, hnone⟩ := h.head p b a (((hsame p).heads b a).mp hp)
    rw [hlinks]
    exact ⟨hfirst, fun p' f hp' => hnone p' f (((hsame p').linksTo f a).mp hp')⟩
  · rw [hlinks, hinserted]
    exact h.behind
  · intro p f a hp
    rw [hlinks]
    exact h.taken p f a (((hsame p).linksTo f a).mp hp)

theorem HeadBacked.of_same (h : HeadBacked s) (hfirst : t.links.first = s.links.first)
    (hpprev : t.links.pprev = s.links.pprev)
    (hlinksTo : ∀ r f a, (s.call r).linksTo f a → (t.call r).linksTo f a)
    (hheads : ∀ r b a, (s.call r).heads b a → (t.call r).heads b a) : HeadBacked t := by
  intro b a ha hnohead hnolink
  rw [hfirst] at ha
  rw [hpprev]
  exact h b a ha (fun p hp => hnohead p (hheads p b a hp))
    fun p f hp => hnolink p f (hlinksTo p f a hp)

/-- A step that neither reads nor writes what the others see. -/
theorem intact_same (hh : HeadBacked s) (hsame : (s.call p).SameWrites c)
    (hcall : t.call = Function.update s.call p c) (hlinks : t.links = s.links)
    (hinserted : t.inserted = s.inserted) : HeadBacked t ∧ (LinkSound t ↔ LinkSound s) := by
  have hall := sameWrites_update hsame
  rw [← hcall] at hall
  refine ⟨hh.of_same (by rw [hlinks]) (by rw [hlinks]) (fun r f a => ((hall r).linksTo f a).mp)
    fun r b a => ((hall r).heads b a).mp, fun ht => ?_, fun hs => ?_⟩
  · exact ht.of_same hlinks.symm hinserted.symm hall
  · exact hs.of_same hlinks hinserted fun r => (hall r).symm

/-! ## The read of the head -/

/-- The insertion that has just read the head is the only one there. -/
theorem alone_of_read (hc : s.call p = .filled f obj .waiting) (ht : LinkSound (s.read p f obj)) :
    ∀ r q, ¬(s.call r).reads (fiberBucket obj.index) q := by
  intro r q hr
  have hrp : r ≠ p := ne_of_call hc id hr
  have hself : Making.reads (fiberBucket obj.index) (s.links.first (fiberBucket obj.index))
      ((s.read p f obj).call p) := by
    simp only [FiberRace.read, Function.update_self]
    exact ⟨rfl, rfl⟩
  exact hrp (ht.one r p _ _ _ (updateCall_of_ne hrp hr) hself)

theorem intact_of_read (h : RaceSound s) (hc : s.call p = .filled f obj .waiting)
    (ht : LinkSound (s.read p f obj)) : LinkSound s := by
  obtain ⟨_, hfresh, _⟩ := h.own (p := p) (f := f) (by rw [hc]; rfl)
  have hreads : ∀ {r b q}, (s.call r).reads b q → ((s.read p f obj).call r).reads b q :=
    fun hr => updateCall_of_ne (ne_of_call hc id hr) hr
  have hlinksTo : ∀ {r g a}, (s.call r).linksTo g a → ((s.read p f obj).call r).linksTo g a :=
    fun hr => updateCall_of_ne (ne_of_call hc id hr) hr
  constructor
  · exact (represents_update hfresh _).mp ht.represents
  · intro r r' b q q' hr hr'
    exact ht.one r r' b q q' (hreads hr) (hreads hr')
  · intro r b q hr
    exact ht.current r b q (hreads hr)
  · intro r b a hr
    obtain ⟨hfirst, hnone⟩ := ht.head r b a (updateCall_of_ne (ne_of_call hc id hr) hr)
    exact ⟨hfirst, fun p' g hp' => hnone p' g (hlinksTo hp')⟩
  · exact ht.behind
  · intro r g a hr
    exact ht.taken r g a (hlinksTo hr)

theorem LinkSound.read (hs : LinkSound s) (h : RaceSound s) (hc : s.call p = .filled f obj .waiting)
    (halone : ∀ r q, ¬(s.call r).reads (fiberBucket obj.index) q) : LinkSound (s.read p f obj) := by
  obtain ⟨_, hfresh, _⟩ := h.own (p := p) (f := f) (by rw [hc]; rfl)
  have hlinksTo : ∀ {r g a}, ((s.read p f obj).call r).linksTo g a → (s.call r).linksTo g a := by
    intro r g a hr
    rcases of_updateCall hr with ⟨_, hnew⟩ | ⟨_, hold⟩
    · cases hnew
    · exact hold
  constructor
  · exact (represents_update hfresh _).mpr hs.represents
  · intro r r' b q q' hr hr'
    rcases of_updateCall hr with ⟨hrp, hb, _⟩ | ⟨_, hold⟩
    · rcases of_updateCall hr' with ⟨hrp', _⟩ | ⟨_, hold'⟩
      · rw [hrp, hrp']
      · exact absurd (hb ▸ hold') (halone r' q')
    · rcases of_updateCall hr' with ⟨_, hb, _⟩ | ⟨_, hold'⟩
      · exact absurd (hb ▸ hold) (halone r q)
      · exact hs.one r r' b q q' hold hold'
  · intro r b q hr
    rcases of_updateCall hr with ⟨_, rfl, rfl⟩ | ⟨_, hold⟩
    · rfl
    · exact hs.current r b q hold
  · intro r b a hr
    rcases of_updateCall hr with ⟨_, hnew⟩ | ⟨_, hold⟩
    · cases hnew
    · obtain ⟨hfirst, hnone⟩ := hs.head r b a hold
      exact ⟨hfirst, fun p' g hp' => hnone p' g (hlinksTo hp')⟩
  · exact hs.behind
  · intro r g a hr
    exact hs.taken r g a (hlinksTo hr)

theorem HeadBacked.read (hh : HeadBacked s) (hc : s.call p = .filled f obj .waiting) :
    HeadBacked (s.read p f obj) :=
  hh.of_same rfl rfl (fun _ _ _ hr => updateCall_of_ne (ne_of_call hc id hr) hr)
    fun _ _ _ hr => updateCall_of_ne (ne_of_call hc id hr) hr

/-! ## The write of the `pprev` behind -/

/-- Two insertions that have read the same node are the same one, where the table is
right. -/
theorem LinkSound.eq_of_reads (hs : LinkSound s) (h : RaceSound s) {b' : ℕ}
    (hr : (s.call r).reads b (some a)) (hp : (s.call p).reads b' (some a)) : r = p := by
  have hfirst := hs.current r b _ hr
  have hfirst' := hs.current p b' _ hp
  obtain rfl := h.unique.bucket_eq (h.mem_first hfirst) (h.mem_first hfirst')
  exact hs.one r p b _ _ hr hp

/-- The thread that links reads and writes no head by it. -/
theorem link_same (hc : s.call p = .filled f obj (.read (some a))) (r : Pid) :
    (∀ b q, ((s.link p f obj a).call r).reads b q ↔ (s.call r).reads b q) ∧
      ∀ b x, ((s.link p f obj a).call r).heads b x ↔ (s.call r).heads b x := by
  simp only [FiberRace.link]
  by_cases hr : r = p
  · rw [hr, Function.update_self, hc]
    exact ⟨fun _ _ => Iff.rfl, fun _ _ => Iff.rfl⟩
  · rw [Function.update_of_ne hr]
    exact ⟨fun _ _ => Iff.rfl, fun _ _ => Iff.rfl⟩

theorem reads_of_link (hc : s.call p = .filled f obj (.read (some a))) :
    (s.call p).reads (fiberBucket obj.index) (some a) := by
  rw [hc]
  exact ⟨rfl, rfl⟩

theorem linksTo_link (s : FiberRace) (p : Pid) (f : ℕ) (obj : FiberArg) (a : ℕ) :
    ((s.link p f obj a).call p).linksTo f a := by
  simp only [FiberRace.link, Function.update_self]
  exact ⟨rfl, rfl⟩

/-- The node behind has its own `pprev` before another insertion writes it. -/
theorem alone_of_link (hc : s.call p = .filled f obj (.read (some a)))
    (ht : LinkSound (s.link p f obj a)) (r : Pid) : ¬(s.call r).heads (fiberBucket obj.index) a :=
  fun hr => (ht.head r _ a (((link_same hc r).2 _ a).mpr hr)).2 p f (linksTo_link s p f obj a)

theorem intact_of_link (h : RaceSound s) (hc : s.call p = .filled f obj (.read (some a)))
    (ht : LinkSound (s.link p f obj a)) : LinkSound s := by
  have hsame := link_same hc
  have hself := reads_of_link hc
  have hfirst := ht.current p _ _ (((hsame p).1 _ _).mpr hself)
  have hone : ∀ {r b}, (s.call r).reads b (some a) → r = p := by
    intro r b hr
    have hfirst' := ht.current r b _ (((hsame r).1 b _).mpr hr)
    obtain rfl := h.unique.bucket_eq (h.mem_first hfirst') (h.mem_first hfirst)
    exact ht.one r p _ _ _ (((hsame r).1 _ _).mpr hr) (((hsame p).1 _ _).mpr hself)
  have hlinksTo : ∀ {r g x}, (s.call r).linksTo g x →
      r ≠ p ∧ ((s.link p f obj a).call r).linksTo g x := by
    intro r g x hr
    have hrp : r ≠ p := ne_of_call hc id hr
    exact ⟨hrp, updateCall_of_ne hrp hr⟩
  constructor
  · exact ht.represents
  · intro r r' b q q' hr hr'
    exact ht.one r r' b q q' (((hsame r).1 b q).mpr hr) (((hsame r').1 b q').mpr hr')
  · intro r b q hr
    exact ht.current r b q (((hsame r).1 b q).mpr hr)
  · intro r b x hr
    obtain ⟨hx, hnone⟩ := ht.head r b x (((hsame r).2 b x).mpr hr)
    exact ⟨hx, fun p' g hp' => hnone p' g (hlinksTo hp').2⟩
  · intro b x as has
    refine (ht.behind b x as has).congr fun y hy => ?_
    have hya : y ≠ a := ne_of_mem_of_not_mem hy (h.first_notMem hfirst has)
    exact (Function.update_of_ne hya _ _).symm
  · intro r g x hr
    obtain ⟨hrp, hr'⟩ := hlinksTo hr
    have hxa : x ≠ a := by
      rintro rfl
      obtain ⟨b, hb⟩ := reads_of_linksTo hr
      exact hrp (hone hb)
    exact (Function.update_of_ne hxa _ _).symm.trans (ht.taken r g x hr')

theorem LinkSound.link (hs : LinkSound s) (h : RaceSound s)
    (hc : s.call p = .filled f obj (.read (some a)))
    (halone : ∀ r, ¬(s.call r).heads (fiberBucket obj.index) a) :
    LinkSound (s.link p f obj a) := by
  have hsame := link_same hc
  have hself := reads_of_link hc
  have hfirst := hs.current p _ _ hself
  have hlinksTo : ∀ {r g x}, ((s.link p f obj a).call r).linksTo g x →
      r = p ∧ g = f ∧ x = a ∨ r ≠ p ∧ x ≠ a ∧ (s.call r).linksTo g x := by
    intro r g x hr
    rcases of_updateCall hr with ⟨hrp, rfl, rfl⟩ | ⟨hrp, hold⟩
    · exact Or.inl ⟨hrp, rfl, rfl⟩
    · refine Or.inr ⟨hrp, fun hxa => ?_, hold⟩
      obtain ⟨b, hb⟩ := reads_of_linksTo hold
      exact hrp (hs.eq_of_reads h (hxa ▸ hb) hself)
  constructor
  · exact hs.represents
  · intro r r' b q q' hr hr'
    exact hs.one r r' b q q' (((hsame r).1 b q).mp hr) (((hsame r').1 b q').mp hr')
  · intro r b q hr
    exact hs.current r b q (((hsame r).1 b q).mp hr)
  · intro r b x hr
    have hold := ((hsame r).2 b x).mp hr
    obtain ⟨hx, hnone⟩ := hs.head r b x hold
    refine ⟨hx, fun p' g hp' => ?_⟩
    rcases hlinksTo hp' with ⟨_, _, hxa⟩ | ⟨_, _, hold'⟩
    · rw [hxa] at hx hold
      obtain rfl := h.unique.bucket_eq (h.mem_first hx) (h.mem_first hfirst)
      exact halone r hold
    · exact hnone p' g hold'
  · intro b x as has
    refine (hs.behind b x as has).congr fun y hy => ?_
    exact Function.update_of_ne (ne_of_mem_of_not_mem hy (h.first_notMem hfirst has)) _ _
  · intro r g x hr
    rcases hlinksTo hr with ⟨_, rfl, rfl⟩ | ⟨_, hxa, hold⟩
    · exact Function.update_self _ _ _
    · exact (Function.update_of_ne hxa _ _).trans (hs.taken r g x hold)

theorem HeadBacked.link (hh : HeadBacked s) (hc : s.call p = .filled f obj (.read (some a))) :
    HeadBacked (s.link p f obj a) := by
  intro b x hfirst hnohead hnolink
  have hxa : x ≠ a := by
    rintro rfl
    exact hnolink p f (linksTo_link s p f obj x)
  refine (Function.update_of_ne hxa _ _).trans (hh b x hfirst (fun r hr => ?_) fun r g hr => ?_)
  · exact hnohead r (updateCall_of_ne (ne_of_call hc id hr) hr)
  · exact hnolink r g (updateCall_of_ne (ne_of_call hc id hr) hr)

/-! ## The write of the head -/

theorem addrs_publish (s : FiberRace) (p : Pid) (f : ℕ) (obj : FiberArg) :
    (s.publish p f obj).inserted.addrs (fiberBucket obj.index) =
      f :: s.inserted.addrs (fiberBucket obj.index) :=
  addrs_cons_self ⟨fiberBucket obj.index, f, obj⟩ s.inserted

theorem addrs_publish_of_ne (hb : b ≠ fiberBucket obj.index) :
    (s.publish p f obj).inserted.addrs b = s.inserted.addrs b :=
  addrs_cons_of_ne (Ne.symm hb) s.inserted

theorem first_publish (s : FiberRace) (p : Pid) (f : ℕ) (obj : FiberArg) :
    (s.publish p f obj).links.first (fiberBucket obj.index) = some f :=
  Function.update_self _ _ _

theorem first_publish_of_ne (hb : b ≠ fiberBucket obj.index) :
    (s.publish p f obj).links.first b = s.links.first b :=
  Function.update_of_ne hb _ _

theorem reads_of_publish (hc : s.call p = .filled f obj (.linked q)) :
    (s.call p).reads (fiberBucket obj.index) q := by
  rw [hc]
  exact ⟨rfl, rfl⟩

theorem linksTo_of_publish (hc : s.call p = .filled f obj (.linked q)) {g : ℕ} :
    (s.call p).linksTo g a ↔ g = f ∧ q = some a := by
  rw [hc]
  cases q with
  | none => exact iff_of_false id fun h => nomatch h.2
  | some x =>
    rw [Option.some.injEq]
    exact and_congr_left fun _ => eq_comm

/-- The head is the one that was read when the table is right afterwards. -/
theorem first_of_publish (h : RaceSound s) (hc : s.call p = .filled f obj (.linked q))
    (ht : LinkSound (s.publish p f obj)) :
    Represents s.links s.inserted ∧ s.links.first (fiberBucket obj.index) = q := by
  have hdone := h.calls p
  rw [hc] at hdone
  obtain ⟨hrep, hread⟩ :=
    (represents_publish_iff h.first ⟨fiberBucket obj.index, f, obj⟩).mp ht.represents
  exact ⟨hrep, hread.trans hdone.2.1⟩

theorem intact_of_publish (h : RaceSound s) (hc : s.call p = .filled f obj (.linked q))
    (ht : LinkSound (s.publish p f obj)) : LinkSound s := by
  have hprivate : (s.call p).private? = some f := by rw [hc]; rfl
  obtain ⟨hrep, hfirst⟩ := first_of_publish h hc ht
  -- the other insertions read other heads
  have hcurrent : ∀ {r b q'}, r ≠ p → (s.call r).reads b q' →
      b ≠ fiberBucket obj.index ∧ s.links.first b = q' := by
    intro r b q' hrp hr
    have hb := ht.current r b q' (updateCall_of_ne hrp hr)
    by_cases hbb : b = fiberBucket obj.index
    · rw [hbb, first_publish] at hb
      exact absurd (hb ▸ hr) (h.not_reads_of_private hprivate)
    · rw [first_publish_of_ne hbb] at hb
      exact ⟨hbb, hb⟩
  constructor
  · exact hrep
  · intro r r' b q' q'' hr hr'
    by_cases hrp : r = p
    · by_cases hrp' : r' = p
      · rw [hrp, hrp']
      · rw [hrp, hc] at hr
        exact absurd hr.1.symm (hcurrent hrp' hr').1
    · by_cases hrp' : r' = p
      · rw [hrp', hc] at hr'
        exact absurd hr'.1.symm (hcurrent hrp hr).1
      · exact ht.one r r' b q' q'' (updateCall_of_ne hrp hr) (updateCall_of_ne hrp' hr')
  · intro r b q' hr
    by_cases hrp : r = p
    · rw [hrp, hc] at hr
      obtain ⟨rfl, rfl⟩ := hr
      exact hfirst
    · exact (hcurrent hrp hr).2
  · intro r b a hr
    have hrp : r ≠ p := ne_of_call hc id hr
    obtain ⟨hafter, hnone⟩ := ht.head r b a (updateCall_of_ne hrp hr)
    have hbb : b ≠ fiberBucket obj.index := by
      rintro rfl
      rw [first_publish] at hafter
      rw [Option.some.inj hafter] at hprivate
      exact h.notMem_of_private hprivate (h.mem_of_heads hr)
    rw [first_publish_of_ne hbb] at hafter
    refine ⟨hafter, fun p' g hp' => ?_⟩
    by_cases hpp : p' = p
    · rw [hpp, linksTo_of_publish hc] at hp'
      rw [hp'.2] at hfirst
      exact hbb (h.unique.bucket_eq (h.mem_first hafter) (h.mem_first hfirst))
    · exact hnone p' g (updateCall_of_ne hpp hp')
  · intro b a as has
    by_cases hb : b = fiberBucket obj.index
    · rw [hb] at has
      exact (ht.behind _ f (a :: as) ((addrs_publish s p f obj).trans (by rw [has]))).2
    · exact ht.behind b a as ((addrs_publish_of_ne hb).trans has)
  · intro r g a hr
    by_cases hrp : r = p
    · rw [hrp, linksTo_of_publish hc] at hr
      obtain ⟨rfl, rfl⟩ := hr
      rw [h.first] at hfirst
      obtain ⟨as, has⟩ := List.head?_eq_some_iff.mp hfirst
      exact (ht.behind _ g (a :: as) ((addrs_publish s p g obj).trans (by rw [has]))).1
    · exact ht.taken r g a (updateCall_of_ne hrp hr)

theorem LinkSound.publish (hs : LinkSound s) (h : RaceSound s)
    (hc : s.call p = .filled f obj (.linked q)) : LinkSound (s.publish p f obj) := by
  have hprivate : (s.call p).private? = some f := by rw [hc]; rfl
  have hself := reads_of_publish hc
  have hfirst := hs.current p _ _ hself
  have hdone := h.calls p
  rw [hc] at hdone
  have hreads : ∀ {r b q'}, ((s.publish p f obj).call r).reads b q' →
      r ≠ p ∧ (s.call r).reads b q' := by
    intro r b q' hr
    rcases of_updateCall hr with ⟨_, hnew⟩ | ⟨hrp, hold⟩
    · cases hnew
    · exact ⟨hrp, hold⟩
  have hlinksTo : ∀ {r g a}, ((s.publish p f obj).call r).linksTo g a →
      (s.call r).linksTo g a := by
    intro r g a hr
    rcases of_updateCall hr with ⟨_, hnew⟩ | ⟨_, hold⟩
    · cases hnew
    · exact hold
  constructor
  · exact (represents_publish_iff h.first ⟨fiberBucket obj.index, f, obj⟩).mpr
      ⟨hs.represents, hfirst.trans hdone.2.1.symm⟩
  · intro r r' b q' q'' hr hr'
    exact hs.one r r' b q' q'' (hreads hr).2 (hreads hr').2
  · intro r b q' hr
    obtain ⟨hrp, hold⟩ := hreads hr
    have hb : b ≠ fiberBucket obj.index := by
      rintro rfl
      exact hrp (hs.one r p _ _ _ hold hself)
    exact (first_publish_of_ne hb).trans (hs.current r b q' hold)
  · intro r b a hr
    rcases of_updateCall hr with ⟨_, rfl, rfl⟩ | ⟨hrp, hold⟩
    · refine ⟨first_publish s p f obj, fun p' g hp' => ?_⟩
      exact h.not_linksTo_of_private hprivate (hlinksTo hp')
    · obtain ⟨hb, hnone⟩ := hs.head r b a hold
      have hbb : b ≠ fiberBucket obj.index := by
        rintro rfl
        exact hnone p f ((linksTo_of_publish hc).mpr ⟨rfl, hfirst.symm.trans hb⟩)
      exact ⟨(first_publish_of_ne hbb).trans hb, fun p' g hp' => hnone p' g (hlinksTo hp')⟩
  · intro b a as has
    by_cases hb : b = fiberBucket obj.index
    · rw [hb, addrs_publish] at has
      obtain ⟨rfl, rfl⟩ := List.cons.inj has
      cases hrest : s.inserted.addrs (fiberBucket obj.index) with
      | nil => trivial
      | cons x xs =>
        have hx : s.links.first (fiberBucket obj.index) = some x := by
          rw [h.first, hrest]
          rfl
        have hlink := (linksTo_of_publish hc).mpr ⟨rfl, hfirst.symm.trans hx⟩
        exact ⟨hs.taken p _ x hlink, hs.behind _ x xs hrest⟩
    · rw [addrs_publish_of_ne hb] at has
      exact hs.behind b a as has
  · intro r g a hr
    exact hs.taken r g a (hlinksTo hr)

theorem HeadBacked.publish (hh : HeadBacked s) (h : RaceSound s)
    (hc : s.call p = .filled f obj (.linked q)) : HeadBacked (s.publish p f obj) := by
  intro b x hfirst hnohead hnolink
  by_cases hb : b = fiberBucket obj.index
  · rw [hb, first_publish] at hfirst
    obtain rfl := Option.some.inj hfirst
    have hnew : (Making.filled f obj .published).heads b f := ⟨hb.symm, rfl⟩
    exact absurd (updateCall_self hnew) (hnohead p)
  · rw [first_publish_of_ne hb] at hfirst
    refine hh b x hfirst (fun r hr => ?_) fun r g hr => ?_
    · exact hnohead r (updateCall_of_ne (ne_of_call hc id hr) hr)
    · by_cases hrp : r = p
      · rw [hrp, linksTo_of_publish hc] at hr
        have hx := h.leads_of_reads (reads_of_publish hc) x hr.2
        exact hb (h.unique.bucket_eq (h.mem_first hfirst) (mem_addrs.mpr hx))
      · exact hnolink r g (updateCall_of_ne hrp hr)

/-! ## The write of the own `pprev` -/

theorem heads_of_own (hc : s.call p = .filled f obj .published) :
    (s.call p).heads (fiberBucket obj.index) f := by
  rw [hc]
  exact ⟨rfl, rfl⟩

theorem pprev_own (s : FiberRace) (p : Pid) (f : ℕ) (obj : FiberArg) :
    (s.own p f obj).links.pprev f = some (.first (fiberBucket obj.index)) :=
  Function.update_self _ _ _

theorem pprev_own_of_ne (ha : a ≠ f) : (s.own p f obj).links.pprev a = s.links.pprev a :=
  Function.update_of_ne ha _ _

/-- The node is still the head when the table is right afterwards, and nobody is about
to insert in front of it. -/
theorem head_of_own (h : RaceSound s) (hc : s.call p = .filled f obj .published)
    (ht : LinkSound (s.own p f obj)) :
    s.links.first (fiberBucket obj.index) = some f ∧ ∀ r g, ¬(s.call r).linksTo g f := by
  refine ⟨?_, fun r g hr => ?_⟩
  · have hmem := h.mem_of_heads (heads_of_own hc)
    rw [h.first]
    cases has : s.inserted.addrs (fiberBucket obj.index) with
    | nil =>
      rw [has] at hmem
      cases hmem
    | cons a as =>
      rw [has] at hmem
      rcases List.mem_cons.mp hmem with rfl | hmem
      · rfl
      · obtain ⟨x, hx⟩ := (ht.behind _ a as has).exists_next hmem
        rw [pprev_own] at hx
        cases hx
  · have htaken := ht.taken r g f (updateCall_of_ne (ne_of_call hc id hr) hr)
    rw [pprev_own] at htaken
    cases htaken

theorem intact_of_own (h : RaceSound s) (hc : s.call p = .filled f obj .published)
    (ht : LinkSound (s.own p f obj)) : LinkSound s := by
  obtain ⟨hfirst, hnolink⟩ := head_of_own h hc ht
  have hreads : ∀ {r b q}, (s.call r).reads b q → ((s.own p f obj).call r).reads b q :=
    fun hr => updateCall_of_ne (ne_of_call hc id hr) hr
  have hlinksTo : ∀ {r g a}, (s.call r).linksTo g a → ((s.own p f obj).call r).linksTo g a :=
    fun hr => updateCall_of_ne (ne_of_call hc id hr) hr
  constructor
  · exact ht.represents
  · intro r r' b q q' hr hr'
    exact ht.one r r' b q q' (hreads hr) (hreads hr')
  · intro r b q hr
    exact ht.current r b q (hreads hr)
  · intro r b a hr
    by_cases hrp : r = p
    · rw [hrp, hc] at hr
      obtain ⟨rfl, rfl⟩ := hr
      exact ⟨hfirst, hnolink⟩
    · obtain ⟨hb, hnone⟩ := ht.head r b a (updateCall_of_ne hrp hr)
      exact ⟨hb, fun p' g hp' => hnone p' g (hlinksTo hp')⟩
  · intro b a as has
    refine (ht.behind b a as has).congr fun x hx => ?_
    exact (pprev_own_of_ne (ne_of_mem_of_not_mem hx (h.first_notMem hfirst has))).symm
  · intro r g a hr
    have haf : a ≠ f := fun haf => hnolink r g (haf ▸ hr)
    exact (pprev_own_of_ne haf).symm.trans (ht.taken r g a (hlinksTo hr))

theorem LinkSound.own (hs : LinkSound s) (h : RaceSound s)
    (hc : s.call p = .filled f obj .published) : LinkSound (s.own p f obj) := by
  obtain ⟨hfirst, hnolink⟩ := hs.head p _ f (heads_of_own hc)
  have hold : ∀ {K : Making → Prop} {r}, ¬K (.filled f obj .done) →
      K ((s.own p f obj).call r) → K (s.call r) := by
    intro K r hnew hr
    rcases of_updateCall hr with ⟨_, hself⟩ | ⟨_, hold⟩
    · exact absurd hself hnew
    · exact hold
  constructor
  · exact hs.represents
  · intro r r' b q q' hr hr'
    exact hs.one r r' b q q' (hold (outside_done.reads b q) hr) (hold (outside_done.reads b q') hr')
  · intro r b q hr
    exact hs.current r b q (hold (outside_done.reads b q) hr)
  · intro r b a hr
    obtain ⟨hb, hnone⟩ := hs.head r b a (hold (outside_done.heads b a) hr)
    exact ⟨hb, fun p' g hp' => hnone p' g (hold (outside_done.linksTo g a) hp')⟩
  · intro b a as has
    refine (hs.behind b a as has).congr fun x hx => ?_
    exact pprev_own_of_ne (ne_of_mem_of_not_mem hx (h.first_notMem hfirst has))
  · intro r g a hr
    have hr' := hold (outside_done.linksTo g a) hr
    have haf : a ≠ f := fun haf => hnolink r g (haf ▸ hr')
    exact (pprev_own_of_ne haf).trans (hs.taken r g a hr')

theorem HeadBacked.own (hh : HeadBacked s) (h : RaceSound s)
    (hc : s.call p = .filled f obj .published) : HeadBacked (s.own p f obj) := by
  intro b x hfirst hnohead hnolink
  have hfirst : s.links.first b = some x := hfirst
  by_cases hxf : x = f
  · rw [hxf] at hfirst ⊢
    obtain rfl := h.unique.bucket_eq (h.mem_first hfirst) (h.mem_of_heads (heads_of_own hc))
    exact pprev_own s p f obj
  · refine (pprev_own_of_ne hxf).trans (hh b x hfirst (fun r hr => ?_) fun r g hr => ?_)
    · by_cases hrp : r = p
      · rw [hrp, hc] at hr
        exact hxf hr.2.symm
      · exact hnohead r (updateCall_of_ne hrp hr)
    · exact hnolink r g (updateCall_of_ne (ne_of_call hc id hr) hr)

/-! ## Every run -/

/-- Every step keeps what is known of the heads.  It keeps the table right exactly when
it is alone and the table was right. -/
theorem intact_step (h : RaceSound s) (hh : HeadBacked s) (hstep : MakeStep tgid s m t) :
    HeadBacked t ∧ (LinkSound t ↔ s.alone m ∧ LinkSound s) := by
  obtain rfl : s.exec tgid m = t := hstep
  have hquiet : ∀ {t : FiberRace} {c : Making}, s.alone m → (s.call m.2.pid).SameWrites c →
      t.call = Function.update s.call m.2.pid c → t.links = s.links → t.inserted = s.inserted →
      HeadBacked t ∧ (LinkSound t ↔ s.alone m ∧ LinkSound s) := by
    intro t c halone hsame hcall hlinks hinserted
    obtain ⟨hh', hiff⟩ := intact_same hh hsame hcall hlinks hinserted
    exact ⟨hh', hiff.trans (and_iff_right halone).symm⟩
  have hout : ∀ {c : Making}, c.Outside → (s.call m.2.pid).Outside →
      (s.call m.2.pid).SameWrites c := fun h h' => h'.same h
  cases hc : s.call m.2.pid with
  | idle =>
    have halone : s.alone m := by simp only [FiberRace.alone, hc]
    simp only [FiberRace.exec, hc]
    refine hquiet halone (hout outside_allocated ?_) rfl rfl rfl
    rw [hc]
    exact outside_idle
  | returned i =>
    have halone : s.alone m := by simp only [FiberRace.alone, hc]
    simp only [FiberRace.exec, hc]
    refine hquiet halone (hout outside_allocated ?_) rfl rfl rfl
    rw [hc]
    exact outside_returned
  | allocated inserter f =>
    have halone : s.alone m := by simp only [FiberRace.alone, hc]
    simp only [FiberRace.exec, hc]
    refine hquiet halone (hout outside_waiting ?_) rfl rfl rfl
    rw [hc]
    exact outside_allocated
  | filled f obj insertion =>
    cases insertion with
    | waiting =>
      have halone : s.alone m ↔ ∀ p q, ¬(s.call p).reads (fiberBucket obj.index) q := by
        simp only [FiberRace.alone, hc]
      have hexec : s.exec tgid m = s.read m.2.pid f obj := by
        simp only [FiberRace.exec, hc, Links.addHead, reduceCtorEq, if_false, FiberRace.read]
      rw [halone, hexec]
      refine ⟨hh.read hc, fun ht => ?_, fun hs => hs.2.read h hc hs.1⟩
      exact ⟨alone_of_read hc ht, intact_of_read h hc ht⟩
    | read q =>
      cases q with
      | none =>
        have halone : s.alone m := by simp only [FiberRace.alone, hc]
        simp only [FiberRace.exec, hc, Links.addHead, reduceCtorEq, if_false]
        refine hquiet halone ?_ rfl rfl rfl
        rw [hc]
        exact ⟨fun _ _ => Iff.rfl, fun _ _ => Iff.rfl, fun _ _ => Iff.rfl⟩
      | some a =>
        have halone : s.alone m ↔ ∀ p, ¬(s.call p).heads (fiberBucket obj.index) a := by
          simp only [FiberRace.alone, hc]
        have hexec : s.exec tgid m = s.link m.2.pid f obj a := by
          simp only [FiberRace.exec, hc, Links.addHead, reduceCtorEq, if_false, FiberRace.link]
        rw [halone, hexec]
        refine ⟨hh.link hc, fun ht => ?_, fun hs => hs.2.link h hc hs.1⟩
        exact ⟨alone_of_link hc ht, intact_of_link h hc ht⟩
    | linked q =>
      have halone : s.alone m := by simp only [FiberRace.alone, hc]
      have hexec : s.exec tgid m = s.publish m.2.pid f obj := by
        simp only [FiberRace.exec, hc, Links.addHead, if_true, FiberRace.publish]
      rw [and_iff_right halone, hexec]
      exact ⟨hh.publish h hc, intact_of_publish h hc, fun hs => hs.publish h hc⟩
    | published =>
      have halone : s.alone m := by simp only [FiberRace.alone, hc]
      have hexec : s.exec tgid m = s.own m.2.pid f obj := by
        simp only [FiberRace.exec, hc, Links.addHead, reduceCtorEq, if_false, FiberRace.own]
      rw [and_iff_right halone, hexec]
      exact ⟨hh.own h hc, intact_of_own h hc, fun hs => hs.own h hc⟩
    | done =>
      have halone : s.alone m := by simp only [FiberRace.alone, hc]
      simp only [FiberRace.exec, hc]
      refine hquiet halone (hout outside_returned ?_) rfl rfl rfl
      rw [hc]
      exact outside_done

/-- Where nobody is in an insertion, the table is right when its chains are, in both
directions. -/
theorem intact_iff_backed (h : RaceSound s) (hh : HeadBacked s)
    (hout : ∀ p, (s.call p).Outside) :
    LinkSound s ↔ Represents s.links s.inserted ∧ Backed s.links s.inserted := by
  constructor
  · intro hs
    refine ⟨hs.represents, fun b => ?_⟩
    cases has : s.inserted.addrs b with
    | nil => trivial
    | cons a as =>
      have hfirst : s.links.first b = some a := by
        rw [h.first, has]
        rfl
      refine ⟨hh b a hfirst (fun p => (hout p).heads b a) fun p f => (hout p).linksTo f a, ?_⟩
      exact hs.behind b a as has
  · rintro ⟨hrep, hback⟩
    refine ⟨hrep, ?_, ?_, ?_, ?_, ?_⟩
    · exact fun p _ b q _ hp => absurd hp ((hout p).reads b q)
    · exact fun p b q hp => absurd hp ((hout p).reads b q)
    · exact fun p b a hp => absurd hp ((hout p).heads b a)
    · intro b a as has
      have hb := hback b
      rw [has] at hb
      exact hb.2
    · exact fun p f a hp => absurd hp ((hout p).linksTo f a)

/-- The same for every run. -/
theorem intact_run (h₀ : AtRest s₀) (hback : Backed s₀.links s₀.inserted)
    (h : Run (MakeStep tgid) s₀ ms s) :
    HeadBacked s ∧ (LinkSound s ↔ Run (AloneStep tgid) s₀ ms s) := by
  induction h with
  | nil =>
    have hout : ∀ p, (s₀.call p).Outside := fun p => by
      rw [h₀.idle p]
      exact outside_idle
    have hh : HeadBacked s₀ := by
      intro b a hfirst _ _
      have hb := hback b
      rw [h₀.sound.first] at hfirst
      obtain ⟨as, has⟩ := List.head?_eq_some_iff.mp hfirst
      rw [has] at hb
      exact hb.1
    have hintact := (intact_iff_backed h₀.sound hh hout).mpr ⟨h₀.represents, hback⟩
    exact ⟨hh, iff_of_true hintact Run.nil⟩
  | @snoc ms s t m hprefix hstep ih =>
    obtain ⟨hh, hrun⟩ := ih
    obtain ⟨hh', hiff⟩ := intact_step (race_run h₀ hprefix).1 hh hstep
    refine ⟨hh', hiff.trans ?_⟩
    rw [hrun]
    constructor
    · rintro ⟨halone, hrun⟩
      exact hrun.snoc ⟨halone, hstep⟩
    · intro hrun
      obtain ⟨s', hrun', halone, _⟩ := Run.of_snoc hrun
      have hsame : s' = s := (hrun'.mono fun _ _ _ hk => hk.2).unique makeStep_unique hprefix
      rw [hsame] at hrun' halone
      exact ⟨halone, hrun'⟩

/-- Once all requests have returned, the table is right in both directions if and only if
no two insertions in a bucket overlapped.  Then any exits take out exactly the fibers of
their threads, through `pprev`. -/
theorem removals_kept (h₀ : AtRest s₀) (hback : Backed s₀.links s₀.inserted)
    (h : Run (MakeStep tgid) s₀ ms s)
    (hquiet : ∀ p, s.call p = .idle ∨ ∃ i, s.call p = .returned i) :
    (Represents s.links s.inserted ∧ Backed s.links s.inserted ↔ Run (AloneStep tgid) s₀ ms s) ∧
      (Run (AloneStep tgid) s₀ ms s → ∀ as : List ℕ, as.Nodup →
        (∀ a ∈ as, ∃ e ∈ s.inserted, e.addr = a) →
        Represents (as.foldl Links.del s.links) (as.foldl hashDel s.inserted) ∧
          Backed (as.foldl Links.del s.links) (as.foldl hashDel s.inserted)) := by
  have hsound := (race_run h₀ h).1
  obtain ⟨hh, hiff⟩ := intact_run h₀ hback h
  have hout : ∀ p, (s.call p).Outside := by
    intro p
    rcases hquiet p with hp | ⟨i, hp⟩
    · rw [hp]
      exact outside_idle
    · rw [hp]
      exact outside_returned
  have hbacked := (intact_iff_backed hsound hh hout).symm.trans hiff
  refine ⟨hbacked, fun hrun as hnodup has => ?_⟩
  obtain ⟨hrep, hb⟩ := hbacked.mpr hrun
  exact represents_dels hrep hb hsound.unique hnodup has

/-! ## A run -/

theorem exec_call_of_ne (tgid : Pid) (s : FiberRace) (m : Inserter × Turn) (hp : p ≠ m.2.pid) :
    (s.exec tgid m).call p = s.call p := by
  have hupdate : ∀ c, Function.update s.call m.2.pid c p = s.call p :=
    fun c => Function.update_of_ne hp c s.call
  unfold FiberRace.exec
  split <;> exact hupdate _

theorem call_of_notMem (tgid : Pid) (s : FiberRace) (hp : ∀ m ∈ ms, p ≠ m.2.pid) :
    (ms.foldl (FiberRace.exec tgid) s).call p = s.call p := by
  induction ms generalizing s with
  | nil => rfl
  | cons m ms ih =>
    rw [List.foldl_cons, ih _ fun m' hm' => hp m' (List.mem_cons_of_mem m hm')]
    exact exec_call_of_ne tgid s m (hp m List.mem_cons_self)

theorem addrs_eq_of_map (t : HashTable FiberArg) (b : ℕ) :
    t.addrs b = ((t.map fun e => (e.bucket, e.addr)).filter fun x => x.1 == b).map Prod.snd := by
  rw [List.filter_map, List.map_map]
  rfl

theorem backed_start : Backed FiberRace.start.links FiberRace.start.inserted := by
  intro b
  by_cases hb : b = 298
  · rw [hb]
    exact ⟨rfl, trivial⟩
  · show Back _ _ (addrs [⟨298, 0, sixth⟩] b)
    rw [addrs_cons_of_ne (Ne.symm hb)]
    trivial

/-- The chains of the two threads, in both directions. -/
theorem interleaved_right (hs : interleaved.foldl (FiberRace.exec 7) FiberRace.start = s) :
    Represents s.links s.inserted ∧ Backed s.links s.inserted := by
  have hsound : RaceSound s := hs ▸ (race_run atRest_start (run_exec 7 _ interleaved)).1
  have hinserted : s.inserted.map (fun e => (e.bucket, e.addr)) =
      [(298, 2), (689, 1), (298, 0)] := by
    rw [← hs]
    decide +kernel
  have hnext : s.links.next 2 = some 0 ∧ s.links.next 1 = none ∧ s.links.next 0 = none := by
    rw [← hs]
    decide +kernel
  have hpprev : s.links.pprev 2 = some (.first 298) ∧ s.links.pprev 1 = some (.first 689) ∧
      s.links.pprev 0 = some (.next 2) := by
    rw [← hs]
    decide +kernel
  obtain ⟨hnext2, hnext1, hnext0⟩ := hnext
  obtain ⟨hpprev2, hpprev1, hpprev0⟩ := hpprev
  refine ⟨fun b => ?_, fun b => ?_⟩
  all_goals by_cases h298 : b = 298
  · rw [hsound.first, addrs_eq_of_map, hinserted, h298]
    exact .cons (hnext2 ▸ .cons (hnext0 ▸ .nil))
  · rw [hsound.first, addrs_eq_of_map, hinserted]
    by_cases h689 : b = 689
    · rw [h689]
      exact .cons (hnext1 ▸ .nil)
    · simpa [Ne.symm h298, Ne.symm h689] using Chain.nil
  · rw [addrs_eq_of_map, hinserted, h298]
    exact ⟨hpprev2, hpprev0, trivial⟩
  · rw [addrs_eq_of_map, hinserted]
    by_cases h689 : b = 689
    · rw [h689]
      exact ⟨hpprev1, trivial⟩
    · simp [Ne.symm h298, Ne.symm h689, Back]

/-- Two threads whose requests overlap, until both have returned.  Then both fibers are
taken out, of which one is in front of the fiber 6. -/
theorem removals_kept_two_threads : ∃ s, Run (MakeStep 7) FiberRace.start interleaved s ∧
    Run (AloneStep 7) FiberRace.start interleaved s ∧
    Represents ([2, 1].foldl Links.del s.links) ([2, 1].foldl hashDel s.inserted) ∧
    Backed ([2, 1].foldl Links.del s.links) ([2, 1].foldl hashDel s.inserted) ∧
    HashTable.addrs ([2, 1].foldl hashDel s.inserted) 298 = [0] := by
  have hrun := run_exec 7 FiberRace.start interleaved
  have hpids : ∀ m ∈ interleaved, m.2.pid = 7 ∨ m.2.pid = 8 := by decide
  have hquiet : ∀ p, (interleaved.foldl (FiberRace.exec 7) FiberRace.start).call p = .idle ∨
      ∃ i, (interleaved.foldl (FiberRace.exec 7) FiberRace.start).call p = .returned i := by
    intro p
    by_cases h7 : p = 7
    · rw [h7]
      exact Or.inr ⟨617, by with_unfolding_all rfl⟩
    · by_cases h8 : p = 8
      · rw [h8]
        exact Or.inr ⟨616, by with_unfolding_all rfl⟩
      · refine Or.inl (call_of_notMem 7 FiberRace.start fun m hm hp => ?_)
        rcases hpids m hm with hm | hm
        · exact h7 (hp.trans hm)
        · exact h8 (hp.trans hm)
  obtain ⟨hiff, hdels⟩ := removals_kept atRest_start backed_start hrun hquiet
  have halone := hiff.mp (interleaved_right rfl)
  obtain ⟨hrep, hback⟩ := hdels halone [2, 1] (by decide) (by decide +kernel)
  exact ⟨_, hrun, halone, hrep, hback, by decide +kernel⟩

end LinuxFibers.Module
