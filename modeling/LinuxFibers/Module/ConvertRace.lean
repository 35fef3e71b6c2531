import LinuxFibers.Module.ConvertSteps

/-!
# Threads that convert at the same time

The threads of one process call `CONVERTTOFIBER` at the same time, in the steps
of `Kernel.convertStep`.  Two of them can both miss the record before either
inserts one.  `conversion_lost` is that run: it ends with two records, with a
thread that is not found any more, and with one id given twice.

`Ordered` is the invariant of the runs in which this does not happen
(`inOrder`): a search misses only when nobody else has missed, and a thread is
inserted only in a record whose tables are initialised.  No conversion is lost
in these runs (`no_conversion_lost`).
-/

namespace LinuxFibers.Module

open LinuxFibers.Lib HashTable

/-- A thread that takes its next step. -/
structure Turn where
  pid : Pid
  context : Context
  env : Env

/-- The threads of one process in `CONVERTTOFIBER`: where each one is in its
call, and the values returned so far, the newest first. -/
structure Race where
  kernel : Kernel
  call : Pid → Conversion
  replies : List (Pid × ℤ)

/-- Nobody has called yet. -/
def Race.start (k : Kernel) : Race := ⟨k, fun _ => .idle, []⟩

/-- The values returned after a call has moved on to `c`. -/
def Conversion.answer (c : Conversion) (pid : Pid) (replies : List (Pid × ℤ)) :
    List (Pid × ℤ) :=
  match c with
  | .returned n => (pid, n) :: replies
  | _ => replies

/-- One step of one thread. -/
def Race.exec (tgid : Pid) (s : Race) (m : Turn) : Except Fault Race := do
  let cur : Task := { m.context with tgid := tgid, pid := m.pid }
  let (k, c) ← s.kernel.convertStep cur m.env (s.call m.pid)
  return ⟨k, Function.update s.call m.pid c, c.answer m.pid s.replies⟩

/-- The steps of the threads of a process. -/
def RaceStep (tgid : Pid) (threads : List Pid) (s : Race) (m : Turn) (t : Race) : Prop :=
  m.pid ∈ threads ∧ s.exec tgid m = .ok t

/-- Between the failed search for the record and its insertion. -/
def Conversion.isMissed : Conversion → Bool
  | .missed _ => true
  | _ => false

/-- Between the insertion of the record and the initialisation of its tables. -/
def Conversion.isAdded : Conversion → Bool
  | .added _ _ => true
  | _ => false

/-- A search for the record misses only when no other thread is about to insert
one, and a thread is inserted only in a record with its tables. -/
def inOrder (tgid : Pid) (threads : List Pid) (s : Race) (m : Turn) : Bool :=
  match s.call m.pid with
  | .called _ =>
      (searchProcess s.kernel tgid).isSome || threads.all fun q => !(s.call q).isMissed
  | .unlinked _ _ => threads.all fun q => !(s.call q).isAdded
  | _ => true

/-- The steps in order. -/
def OrderedStep (tgid : Pid) (threads : List Pid) (s : Race) (m : Turn) (t : Race) : Prop :=
  inOrder tgid threads s m = true ∧ RaceStep tgid threads s m t

/-! ## What a step can do -/

/-- A write of the record `p`, with the call before and after it. -/
inductive Wrote (cur : Task) (env : Env) :
    Conversion → ProcessArg → ProcessArg → Conversion → Prop where
  | init {fiber : Option ℕ} {a : ℕ} {p : ProcessArg} :
      Wrote cur env (.added fiber a) p { p with threads := [], fibers := [] } (.found fiber a)
  | thread {fiber : Option ℕ} {a t : ℕ} {p : ProcessArg} :
      Wrote cur env (.unlinked fiber a) p
        { p with threads := p.threads.hashAdd (hash32 cur.pid) t ⟨cur.pid, none⟩ }
        (.threaded fiber a t)
  | number {f a t : ℕ} {p : ProcessArg} :
      Wrote cur env (.threaded (some f) a t) p { p with fiberId := p.fiberId + 1 }
        (.numbered f a t p.fiberId)
  | fiber {f a t i : ℕ} {p : ProcessArg} :
      Wrote cur env (.numbered f a t i) p
        { p with fibers := p.fibers.hashAdd (fiberBucket i) f (convertedFiber cur env i) }
        (.linked f a t i)
  | finish {f a t i : ℕ} {p : ProcessArg} :
      Wrote cur env (.linked f a t i) p
        { p with threads := p.threads.modify t fun th => { th with activeFiber := some f } }
        (.returned i)

/-- The record that a call points to. -/
def Conversion.process : Conversion → Option ℕ
  | .added _ a | .found _ a | .unlinked _ a | .threaded _ a _ | .numbered _ a _ _
  | .linked _ a _ _ => some a
  | _ => none

/-- Every step of a call that does not end in a fault. -/
inductive Turned (k : Kernel) (cur : Task) (env : Env) :
    Conversion → Kernel → Conversion → Prop where
  | start {c : Conversion} {fiber : Option ℕ} {k' : Kernel} :
      SameTables k k' → Turned k cur env c k' (.called fiber)
  | miss {fiber : Option ℕ} : searchProcess k cur.tgid = none →
      Turned k cur env (.called fiber) k (.missed fiber)
  | find {fiber : Option ℕ} {e : Entry ProcessArg} : searchProcess k cur.tgid = some e →
      Turned k cur env (.called fiber) k (.found fiber e.addr)
  | add {fiber : Option ℕ} {k' : Kernel} : SameTables k k' → k'.brk = k.brk + 1 →
      Turned k cur env (.missed fiber) (k'.addProcess k.brk (newProcess cur.tgid))
        (.added fiber k.brk)
  | pass {fiber : Option ℕ} {a : ℕ} : Turned k cur env (.found fiber a) k (.unlinked fiber a)
  | fail {c : Conversion} {k' : Kernel} {n : ℤ} : SameTables k k' → n < 0 →
      Turned k cur env c k' (.returned n)
  | write {c c' : Conversion} {a : ℕ} {k₁ k' : Kernel} {p p' : ProcessArg} :
      c.process = some a → SameTables k k₁ → k₁.derefProcess a = .ok p → Wrote cur env c p p' c' →
      k'.listProcess = (k₁.setProcess a p').listProcess → k'.brk = k₁.brk →
      Turned k cur env c k' c'

variable {k k' : Kernel} {cur : Task} {env : Env} {c c' : Conversion}

theorem turned (h : k.convertStep cur env c = .ok (k', c')) : Turned k cur env c k' c' := by
  have hstart : ∀ c, (kzalloc k (env.kzalloc .fiberArg)).2 = k' →
      Conversion.called (kzalloc k (env.kzalloc .fiberArg)).1 = c' → Turned k cur env c k' c' := by
    rintro c rfl rfl
    exact Turned.start (sameTables_kzalloc k _)
  cases c with
  | idle =>
    cases h
    exact hstart _ rfl rfl
  | returned n =>
    cases h
    exact hstart _ rfl rfl
  | called fiber =>
    simp only [Kernel.convertStep] at h
    split at h
    · rename_i e he
      cases h
      exact Turned.find he
    · rename_i hnone
      cases h
      exact Turned.miss hnone
  | missed fiber =>
    have hs := sameTables_kzalloc k (env.kzalloc .processArg)
    simp only [Kernel.convertStep] at h
    split at h
    · rename_i k₁ ha
      cases h
      rw [ha] at hs
      exact Turned.fail hs (by decide)
    · rename_i a k₁ ha
      cases h
      obtain ⟨hs, rfl, hbrk⟩ := of_kzalloc ha
      exact Turned.add hs hbrk
  | added fiber a =>
    obtain ⟨p, hp, h⟩ := of_bind h
    cases h
    exact Turned.write rfl (SameTables.refl k) hp Wrote.init rfl rfl
  | found fiber a =>
    obtain ⟨p, hp, h⟩ := of_bind h
    split at h
    · cases h
      exact Turned.fail (SameTables.refl k) (by decide)
    · cases h
      exact Turned.pass
  | unlinked fiber a =>
    have hs := sameTables_kzalloc k (env.kzalloc .threadArg)
    simp only [Kernel.convertStep] at h
    split at h
    · rename_i k₁ ht
      cases h
      rw [ht] at hs
      exact Turned.fail hs (by decide)
    · rename_i t k₁ ht
      obtain ⟨p, hp, h⟩ := of_bind h
      cases h
      rw [ht] at hs
      exact Turned.write rfl hs hp Wrote.thread rfl rfl
  | threaded fiber a t =>
    obtain ⟨p, hp, h⟩ := of_bind h
    split at h
    · cases h
    · cases h
      exact Turned.write rfl (SameTables.refl k) hp Wrote.number rfl rfl
  | numbered f a t i =>
    obtain ⟨p, hp, h⟩ := of_bind h
    cases h
    exact Turned.write rfl (SameTables.refl k) hp Wrote.fiber rfl rfl
  | linked f a t i =>
    obtain ⟨p, hp, h⟩ := of_bind h
    cases h
    exact Turned.write rfl (SameTables.refl k) hp Wrote.finish rfl rfl

/-! ## The invariant -/

/-- The index that a call has taken. -/
def Conversion.index : Conversion → Option ℕ
  | .numbered _ _ _ i | .linked _ _ _ i => some i
  | _ => none

/-- After the insertion of the thread. -/
def Conversion.entered : Conversion → Bool
  | .threaded _ _ _ | .numbered _ _ _ _ | .linked _ _ _ _ => true
  | _ => false

theorem process_of_index {i : ℕ} (h : c.index = some i) : ∃ a, c.process = some a := by
  cases c with
  | numbered f a => exact ⟨a, rfl⟩
  | linked f a => exact ⟨a, rfl⟩
  | _ => cases h

theorem process_of_entered (h : c.entered = true) : ∃ a, c.process = some a := by
  cases c with
  | threaded f a => exact ⟨a, rfl⟩
  | numbered f a => exact ⟨a, rfl⟩
  | linked f a => exact ⟨a, rfl⟩
  | _ => cases h

/-- The thread is in the table of the record. -/
def HasThread (p : ProcessArg) (pid : Pid) : Prop := ∃ t ∈ p.threads, t.obj.pid = pid

/-- The threads are in the buckets in which they are searched. -/
def Bucketed (p : ProcessArg) : Prop := ∀ t ∈ p.threads, t.bucket = hash32 t.obj.pid

/-- The invariant of the ordered runs. -/
structure Ordered (tgid : Pid) (threads : List Pid) (s : Race) : Prop where
  tables : Tables s.kernel
  outside : ∀ q, q ∉ threads → s.call q = .idle
  missed_none : ∀ q, (s.call q).isMissed = true → searchProcess s.kernel tgid = none
  missed_unique : ∀ q q', (s.call q).isMissed = true → (s.call q').isMissed = true → q = q'
  pointer : ∀ q a, (s.call q).process = some a →
    ∃ e, searchProcess s.kernel tgid = some e ∧ e.addr = a
  added_empty : ∀ q e, (s.call q).isAdded = true → searchProcess s.kernel tgid = some e →
    e.obj.threads = []
  bucketed : ∀ e, searchProcess s.kernel tgid = some e → Bucketed e.obj
  entered : ∀ q e, (s.call q).entered = true → searchProcess s.kernel tgid = some e →
    HasThread e.obj q
  taken_lt : ∀ q i e, (s.call q).index = some i → searchProcess s.kernel tgid = some e →
    i < e.obj.fiberId
  taken_unique : ∀ q q' i, (s.call q).index = some i → (s.call q').index = some i → q = q'
  taken_new : ∀ q q' i, (s.call q).index = some i → (q', (i : ℤ)) ∉ s.replies
  replied : ∀ q n, (q, n) ∈ s.replies → 0 ≤ n →
    ∃ e, searchProcess s.kernel tgid = some e ∧ HasThread e.obj q ∧ n < e.obj.fiberId
  distinct : ((s.replies.map Prod.snd).filter fun n => decide (0 ≤ n)).Nodup

/-- What a write of the record keeps. -/
structure Grown (p p' : ProcessArg) : Prop where
  threads : ∀ q, HasThread p q → HasThread p' q
  fiberId_le : p.fiberId ≤ p'.fiberId
  bucketed : Bucketed p → Bucketed p'

theorem Grown.refl (p : ProcessArg) : Grown p p := ⟨fun _ h => h, Nat.le_refl _, fun h => h⟩

/-! ## One call that moves on -/

/-- What at most one call has is still had by at most one, if no other call has
it when the new state of the call does. -/
theorem unique_update (P : Conversion → Prop) {call : Pid → Conversion} {pid : Pid}
    (h : ∀ q q', P (call q) → P (call q') → q = q')
    (hc : P c → ∀ q, q ≠ pid → ¬ P (call q)) (q q' : Pid)
    (hq : P (Function.update call pid c q)) (hq' : P (Function.update call pid c q')) :
    q = q' := by
  by_cases hqp : q = pid <;> by_cases hqp' : q' = pid
  · rw [hqp, hqp']
  · rw [hqp, Function.update_self] at hq
    rw [Function.update_of_ne hqp'] at hq'
    exact absurd hq' (hc hq q' hqp')
  · rw [hqp', Function.update_self] at hq'
    rw [Function.update_of_ne hqp] at hq
    exact absurd hq (hc hq' q hqp)
  · rw [Function.update_of_ne hqp] at hq
    rw [Function.update_of_ne hqp'] at hq'
    exact h q q' hq hq'

/-- The replies grow by the value of the call, if it ends. -/
theorem mem_answer {pid q : Pid} {n : ℤ} {replies : List (Pid × ℤ)}
    (h : (q, n) ∈ c.answer pid replies) : (q, n) ∈ replies ∨ q = pid ∧ c = .returned n := by
  cases c with
  | returned m =>
    rcases List.mem_cons.mp h with heq | hmem
    · cases heq
      exact Or.inr ⟨rfl, rfl⟩
    · exact Or.inl hmem
  | _ => exact Or.inl h

/-- The ids in the replies stay distinct when a call ends with a new one. -/
theorem distinct_answer {pid : Pid} {replies : List (Pid × ℤ)}
    (h : ((replies.map Prod.snd).filter fun n => decide (0 ≤ n)).Nodup)
    (hnew : ∀ n, c = .returned n → 0 ≤ n → ∀ q, (q, n) ∉ replies) :
    (((c.answer pid replies).map Prod.snd).filter fun n => decide (0 ≤ n)).Nodup := by
  cases c with
  | returned n =>
    simp only [Conversion.answer, List.map_cons]
    by_cases h0 : 0 ≤ n
    · rw [List.filter_cons_of_pos (by simpa using h0), List.nodup_cons]
      refine ⟨fun hmem => ?_, h⟩
      obtain ⟨⟨q, m⟩, hq, rfl⟩ := List.mem_map.mp (List.mem_filter.mp hmem).1
      exact hnew m rfl h0 q hq
    · rw [List.filter_cons_of_neg (by simpa using h0)]
      exact h
  | _ => exact h

variable {tgid : Pid} {threads : List Pid} {s : Race}

/-- The invariant after a step in which `pid` moves on to `c` and the record `e`,
if there is one, becomes `g e`. -/
theorem Ordered.turn (h : Ordered tgid threads s) {pid : Pid} (hpid : pid ∈ threads)
    {g : Entry ProcessArg → ProcessArg} (htables : Tables k')
    (hsearch : searchProcess k' tgid =
      (searchProcess s.kernel tgid).map fun e => { e with obj := g e })
    (hgrown : ∀ e, searchProcess s.kernel tgid = some e → Grown e.obj (g e))
    (hempty : ∀ q e, q ≠ pid → (s.call q).isAdded = true →
      searchProcess s.kernel tgid = some e → e.obj.threads = [] → (g e).threads = [])
    (hmissed : c.isMissed = true → searchProcess s.kernel tgid = none ∧
      ∀ q, (s.call q).isMissed = false)
    (hadded : c.isAdded = false)
    (hpointer : ∀ a, c.process = some a →
      ∃ e, searchProcess s.kernel tgid = some e ∧ e.addr = a)
    (hentered : c.entered = true → ∀ e, searchProcess s.kernel tgid = some e →
      HasThread (g e) pid)
    (htaken : ∀ i, c.index = some i →
      (∀ e, searchProcess s.kernel tgid = some e → i < (g e).fiberId) ∧
      (∀ q, q ≠ pid → (s.call q).index ≠ some i) ∧ ∀ q, (q, (i : ℤ)) ∉ s.replies)
    (hanswer : ∀ n, c = .returned n → 0 ≤ n →
      (∃ e, searchProcess s.kernel tgid = some e ∧ HasThread (g e) pid ∧ n < (g e).fiberId) ∧
      (∀ q i, q ≠ pid → (s.call q).index = some i → (i : ℤ) ≠ n) ∧ ∀ q, (q, n) ∉ s.replies) :
    Ordered tgid threads ⟨k', Function.update s.call pid c, c.answer pid s.replies⟩ := by
  have hafter : ∀ P : ProcessArg → Prop, (∀ e, searchProcess s.kernel tgid = some e → P (g e)) →
      ∀ e', searchProcess k' tgid = some e' → P e'.obj := by
    intro P hg e' he'
    rw [hsearch] at he'
    obtain ⟨e, he, rfl⟩ := Option.map_eq_some_iff.mp he'
    exact hg e he
  have hbefore : ∀ e, searchProcess s.kernel tgid = some e →
      searchProcess k' tgid = some { e with obj := g e } := by
    intro e he
    rw [hsearch, he]
    rfl
  have hnone : searchProcess s.kernel tgid = none → searchProcess k' tgid = none := by
    intro hnone
    rw [hsearch, hnone]
    rfl
  have hpoint : ∀ a, (∃ e, searchProcess s.kernel tgid = some e ∧ e.addr = a) →
      ∃ e', searchProcess k' tgid = some e' ∧ e'.addr = a := by
    intro a hp
    obtain ⟨e, he, ha⟩ := hp
    exact ⟨_, hbefore e he, ha⟩
  have hold : ∀ q n, (q, n) ∈ s.replies → 0 ≤ n →
      ∃ e', searchProcess k' tgid = some e' ∧ HasThread e'.obj q ∧ n < e'.obj.fiberId := by
    intro q n hmem h0
    obtain ⟨e, he, hthread, hlt⟩ := h.replied q n hmem h0
    have hg := hgrown e he
    have := hg.fiberId_le
    refine ⟨_, hbefore e he, hg.threads q hthread, ?_⟩
    change n < (g e).fiberId
    omega
  constructor <;> dsimp only
  case tables => exact htables
  case outside =>
    intro q hq
    have hqp : q ≠ pid := fun heq => hq (heq ▸ hpid)
    rw [Function.update_of_ne hqp]
    exact h.outside q hq
  case missed_none =>
    exact (Function.forall_update_iff s.call fun _ x =>
      x.isMissed = true → searchProcess k' tgid = none).mpr
      ⟨fun hc => hnone (hmissed hc).1, fun q _ hq => hnone (h.missed_none q hq)⟩
  case missed_unique =>
    refine unique_update (fun c => c.isMissed = true) h.missed_unique fun hc q _ => ?_
    rw [(hmissed hc).2 q]
    exact Bool.false_ne_true
  case pointer =>
    exact (Function.forall_update_iff s.call fun _ x => ∀ a, x.process = some a →
      ∃ e, searchProcess k' tgid = some e ∧ e.addr = a).mpr
      ⟨fun a hc => hpoint a (hpointer a hc), fun q _ a hq => hpoint a (h.pointer q a hq)⟩
  case added_empty =>
    refine (Function.forall_update_iff s.call fun _ x => ∀ e, x.isAdded = true →
      searchProcess k' tgid = some e → e.obj.threads = []).mpr
      ⟨fun e' hc => ?_, fun q hqp e' hq => hafter (fun p => p.threads = []) (fun e he => ?_) e'⟩
    · rw [hadded] at hc
      cases hc
    · exact hempty q e hqp hq he (h.added_empty q e hq he)
  case bucketed =>
    exact hafter Bucketed fun e he => (hgrown e he).bucketed (h.bucketed e he)
  case entered =>
    refine (Function.forall_update_iff s.call fun q x => ∀ e, x.entered = true →
      searchProcess k' tgid = some e → HasThread e.obj q).mpr
      ⟨fun e' hc => hafter (fun p => HasThread p pid) (fun e he => ?_) e',
        fun q _ e' hq => hafter (fun p => HasThread p q) (fun e he => ?_) e'⟩
    · exact hentered hc e he
    · exact (hgrown e he).threads q (h.entered q e hq he)
  case taken_lt =>
    refine (Function.forall_update_iff s.call fun _ x => ∀ i e, x.index = some i →
      searchProcess k' tgid = some e → i < e.obj.fiberId).mpr
      ⟨fun i e' hc => hafter (fun p => i < p.fiberId) (fun e he => ?_) e',
        fun q _ i e' hq => hafter (fun p => i < p.fiberId) (fun e he => ?_) e'⟩
    · exact (htaken i hc).1 e he
    · exact Nat.lt_of_lt_of_le (h.taken_lt q i e hq he) (hgrown e he).fiberId_le
  case taken_unique =>
    intro q q' i
    exact unique_update (fun c => c.index = some i) (fun r r' => h.taken_unique r r' i)
      (fun hc => (htaken i hc).2.1) q q'
  case taken_new =>
    refine (Function.forall_update_iff s.call fun _ x => ∀ q' i, x.index = some i →
      (q', (i : ℤ)) ∉ c.answer pid s.replies).mpr
      ⟨fun q' i hi hmem => ?_, fun q hqp q' i hq hmem => ?_⟩
    · rcases mem_answer hmem with hmem | ⟨_, rfl⟩
      · exact (htaken i hi).2.2 q' hmem
      · cases hi
    · rcases mem_answer hmem with hmem | ⟨_, hc⟩
      · exact h.taken_new q q' i hq hmem
      · exact (hanswer i hc (Int.natCast_nonneg i)).2.1 q i hqp hq rfl
  case replied =>
    intro q n hmem h0
    rcases mem_answer hmem with hmem | ⟨rfl, hc⟩
    · exact hold q n hmem h0
    · obtain ⟨⟨e, he, hthread, hlt⟩, _⟩ := hanswer n hc h0
      exact ⟨_, hbefore e he, hthread, hlt⟩
  case distinct => exact distinct_answer h.distinct fun n hc h0 => (hanswer n hc h0).2.2

/-! ## Steps -/

/-- A step that leaves the records alone. -/
theorem Ordered.quiet (h : Ordered tgid threads s) {pid : Pid} (hpid : pid ∈ threads)
    (hs : SameTables s.kernel k')
    (hmissed : c.isMissed = true → searchProcess s.kernel tgid = none ∧
      ∀ q, (s.call q).isMissed = false)
    (hadded : c.isAdded = false)
    (hpointer : ∀ a, c.process = some a →
      ∃ e, searchProcess s.kernel tgid = some e ∧ e.addr = a)
    (hentered : c.entered = false) (hindex : c.index = none)
    (hanswer : ∀ n, c = .returned n → n < 0) :
    Ordered tgid threads ⟨k', Function.update s.call pid c, c.answer pid s.replies⟩ := by
  refine h.turn (g := fun e => e.obj) hpid (h.tables.of_same hs) ?_ (fun e _ => Grown.refl e.obj)
    (fun _ _ _ _ _ hnil => hnil) hmissed hadded hpointer ?_ ?_ ?_
  · rw [hs.searchProcess]
    cases searchProcess s.kernel tgid <;> rfl
  · intro htrue
    rw [hentered] at htrue
    cases htrue
  · intro i hi
    rw [hindex] at hi
    cases hi
  · intro n hc h0
    have := hanswer n hc
    omega

/-- The insertion of the record.  Only one thread can be about to insert it, and
no call has a record yet. -/
theorem Ordered.add (h : Ordered tgid threads s) {pid : Pid} (hpid : pid ∈ threads)
    {fiber : Option ℕ} (hcall : s.call pid = .missed fiber) (hs : SameTables s.kernel k')
    (hbrk : k'.brk = s.kernel.brk + 1) :
    Ordered tgid threads ⟨k'.addProcess s.kernel.brk (newProcess tgid),
      Function.update s.call pid (.added fiber s.kernel.brk), s.replies⟩ := by
  have hself := Function.update_self pid (Conversion.added fiber s.kernel.brk) s.call
  have hother : ∀ q, q ≠ pid →
      Function.update s.call pid (.added fiber s.kernel.brk) q = s.call q := fun q hq =>
    Function.update_of_ne hq _ s.call
  have hmissed : (s.call pid).isMissed = true := by rw [hcall]; rfl
  have hnone := h.missed_none pid hmissed
  have hlone : ∀ q, q ≠ pid → (s.call q).isMissed = false := by
    intro q hq
    cases hm : (s.call q).isMissed with
    | false => rfl
    | true => exact absurd (h.missed_unique q pid hm hmissed) hq
  have hgone : ∀ q, (Function.update s.call pid (.added fiber s.kernel.brk) q).isMissed = false :=
    (Function.forall_update_iff s.call fun _ x => x.isMissed = false).mpr ⟨rfl, hlone⟩
  have hnowhere : ∀ q, (s.call q).process = none := by
    intro q
    cases hp : (s.call q).process with
    | none => rfl
    | some a =>
      obtain ⟨e, he, _⟩ := h.pointer q a hp
      rw [hnone] at he
      cases he
  have hnew : searchProcess (k'.addProcess s.kernel.brk (newProcess tgid)) tgid =
      some ⟨hash32 tgid, s.kernel.brk, newProcess tgid⟩ :=
    search_hashAdd_self (beq_self_eq_true tgid)
  -- nobody but `pid` has a record
  have honly : ∀ q a, (Function.update s.call pid (.added fiber s.kernel.brk) q).process = some a →
      q = pid := by
    intro q a hq
    by_contra hqp
    rw [hother q hqp, hnowhere q] at hq
    cases hq
  have hindex : ∀ q i,
      (Function.update s.call pid (.added fiber s.kernel.brk) q).index ≠ some i := by
    intro q i hi
    obtain ⟨a, ha⟩ := process_of_index hi
    rw [honly q a ha, hself] at hi
    cases hi
  have hreplies : ∀ q n, (q, n) ∈ s.replies → ¬ 0 ≤ n := by
    intro q n hmem h0
    obtain ⟨e, he, _⟩ := h.replied q n hmem h0
    rw [hnone] at he
    cases he
  refine ⟨?_, ?_, ?_, ?_, ?_, ?_, ?_, ?_, ?_, ?_, ?_, ?_, h.distinct⟩ <;> dsimp only
  · apply (h.tables.of_same hs).addProcess
    · intro x hx
      rw [hs.listProcess] at hx
      exact Nat.ne_of_lt (h.tables.addr_lt x hx)
    · omega
    · rw [Kernel.record, hs.searchProcess]
      change (searchProcess s.kernel tgid).map Entry.obj = none
      rw [hnone]
      rfl
  · intro q hq
    rw [hother q fun heq => hq (heq ▸ hpid)]
    exact h.outside q hq
  · intro q hq
    rw [hgone q] at hq
    cases hq
  · intro q q' hq
    rw [hgone q] at hq
    cases hq
  · intro q a hq
    have hqp := honly q a hq
    rw [hqp, hself] at hq
    cases hq
    exact ⟨_, hnew, rfl⟩
  · intro q e _ he
    rw [hnew, Option.some.injEq] at he
    rw [← he]
    rfl
  · intro e he
    rw [hnew, Option.some.injEq] at he
    rw [← he]
    intro t ht
    cases ht
  · intro q e hq
    obtain ⟨a, ha⟩ := process_of_entered hq
    rw [honly q a ha, hself] at hq
    cases hq
  · exact fun q i e hi => absurd hi (hindex q i)
  · exact fun q q' i hi => absurd hi (hindex q i)
  · exact fun q q' i hi => absurd hi (hindex q i)
  · exact fun q n hmem h0 => absurd h0 (hreplies q n hmem)

theorem Wrote.pid_eq {p p' : ProcessArg} (h : Wrote cur env c p p' c') : p'.pid = p.pid := by
  cases h <;> rfl

/-- A write of the tables of a record that has been initialised keeps what is
there, and so does the initialisation of an empty one. -/
theorem Wrote.grown {p p' : ProcessArg} (h : Wrote cur env c p p' c')
    (hempty : c.isAdded = true → p.threads = []) : Grown p p' := by
  cases h with
  | init =>
    have hnil := hempty rfl
    refine ⟨fun q hq => ?_, Nat.le_refl _, fun _ t ht => (by cases ht)⟩
    obtain ⟨t, ht, _⟩ := hq
    rw [hnil] at ht
    cases ht
  | thread =>
    refine ⟨fun q hq => ?_, Nat.le_refl _, fun hb t ht => ?_⟩
    · obtain ⟨t, ht, heq⟩ := hq
      exact ⟨t, List.mem_cons_of_mem _ ht, heq⟩
    · rcases mem_hashAdd.mp ht with rfl | ht
      · rfl
      · exact hb t ht
  | number => exact ⟨fun _ hq => hq, Nat.le_succ _, fun hb => hb⟩
  | fiber => exact ⟨fun _ hq => hq, Nat.le_refl _, fun hb => hb⟩
  | @finish f a th i =>
    rw [modify_eq_mapObj]
    refine ⟨fun q hq => ?_, Nat.le_refl _, fun hb t ht => ?_⟩
    · obtain ⟨t, ht, heq⟩ := hq
      refine ⟨_, mem_mapObj_of_mem _ ht, ?_⟩
      change (if t.addr = th then { t.obj with activeFiber := some f } else t.obj).pid = q
      split <;> exact heq
    · obtain ⟨x, hx, rfl⟩ := mem_mapObj.mp ht
      change x.bucket = hash32
        (if x.addr = th then { x.obj with activeFiber := some f } else x.obj).pid
      rw [hb x hx]
      split <;> rfl

/-- A write of the record. -/
theorem Ordered.write (h : Ordered tgid threads s) (hpid : cur.pid ∈ threads)
    (hcall : s.call cur.pid = c)
    (horder : ∀ fiber a, c = .unlinked fiber a → ∀ q, (s.call q).isAdded = false)
    {a : ℕ} {k₁ : Kernel} {p p' : ProcessArg} (ha : c.process = some a)
    (hs : SameTables s.kernel k₁) (hp : k₁.derefProcess a = .ok p)
    (hw : Wrote cur env c p p' c') (hl : k'.listProcess = (k₁.setProcess a p').listProcess)
    (hb : k'.brk = k₁.brk) :
    Ordered tgid threads
      ⟨k', Function.update s.call cur.pid c', c'.answer cur.pid s.replies⟩ := by
  obtain ⟨e, he, rfl⟩ := h.pointer cur.pid a (by rw [hcall, ha])
  have hs₁ := h.tables.of_same hs
  have he₁ : e ∈ k₁.listProcess := by
    rw [hs.listProcess]
    exact (of_searchProcess he).1
  rw [derefProcess_eq hs₁.unique he₁, Except.ok.injEq] at hp
  subst hp
  have honly : ∀ e', searchProcess s.kernel tgid = some e' → e' = e := by
    intro e' he'
    rw [he, Option.some.injEq] at he'
    exact he'.symm
  have hgrown := hw.grown fun hadded => h.added_empty cur.pid e (by rw [hcall, hadded]) he
  have htables : Tables k' := (hs₁.setProcess he₁ hw.pid_eq).of_eq hl (Nat.le_of_eq hb.symm)
  have hentered : c.entered = true → HasThread e.obj cur.pid := fun htrue =>
    h.entered cur.pid e (by rw [hcall, htrue]) he
  have htaken : ∀ i, c.index = some i → i < e.obj.fiberId ∧
      (∀ q, q ≠ cur.pid → (s.call q).index ≠ some i) ∧ ∀ q, (q, (i : ℤ)) ∉ s.replies := by
    intro i hi
    have hself : (s.call cur.pid).index = some i := by rw [hcall, hi]
    refine ⟨h.taken_lt cur.pid i e hself he, fun q hq hqi => ?_, fun q => ?_⟩
    · exact hq (h.taken_unique q cur.pid i hqi hself)
    · exact h.taken_new cur.pid q i hself
  refine h.turn (g := fun _ => p') hpid htables ?_ ?_ ?_ ?_ ?_ ?_ ?_ ?_ ?_
  · have hmem : { e with obj := p' } ∈ k'.listProcess := by
      rw [hl]
      exact mem_modify_self (f := fun _ => p') he₁
    have hid : p'.pid = tgid := hw.pid_eq.trans (of_searchProcess he).2
    rw [he, ← hid]
    exact searchProcess_of_mem htables hmem
  · intro e' he'
    rw [honly e' he']
    exact hgrown
  · intro q e' _ hadded he' hnil
    rw [honly e' he'] at hnil
    cases hw with
    | init => rfl
    | thread =>
      rw [horder _ _ rfl q] at hadded
      cases hadded
    | number => exact hnil
    | fiber => exact hnil
    | @finish f _ th =>
      change e.obj.threads.modify th (fun x => { x with activeFiber := some f }) = []
      rw [hnil]
      rfl
  · intro hmissed
    cases hw <;> cases hmissed
  · cases hw <;> rfl
  · intro b hb'
    have hsame : b = e.addr := by
      cases hw <;> first | exact (Option.some.inj (ha.symm.trans hb')).symm | cases hb'
    exact ⟨e, he, hsame.symm⟩
  · intro htrue e' _
    cases hw with
    | init => cases htrue
    | thread => exact ⟨_, List.mem_cons_self, rfl⟩
    | number => exact hentered rfl
    | fiber => exact hentered rfl
    | finish => cases htrue
  · intro i hi
    cases hw with
    | init => cases hi
    | thread => cases hi
    | number =>
      cases hi
      refine ⟨fun _ _ => Nat.lt_succ_self _, fun q _ hq => ?_, fun q hmem => ?_⟩
      · have := h.taken_lt q _ e hq he
        omega
      · obtain ⟨e', he', _, hlt⟩ := h.replied q _ hmem (Int.natCast_nonneg _)
        rw [honly e' he'] at hlt
        omega
    | fiber =>
      obtain ⟨hlt, hothers, hnew⟩ := htaken i hi
      exact ⟨fun _ _ => hlt, hothers, hnew⟩
    | finish => cases hi
  · intro n hn h0
    cases hw with
    | init => cases hn
    | thread => cases hn
    | number => cases hn
    | fiber => cases hn
    | @finish f _ th i =>
      cases hn
      obtain ⟨hlt, hothers, hnew⟩ := htaken i rfl
      refine ⟨⟨e, he, hgrown.threads _ (hentered rfl), ?_⟩, fun q j hq hj heq => ?_, hnew⟩
      · exact Int.ofNat_lt.mpr hlt
      · have hij : j = i := by omega
        exact hothers q hq (hij ▸ hj)

/-- One ordered step. -/
theorem ordered_step {m : Turn} {t : Race} (h : Ordered tgid threads s)
    (hm : OrderedStep tgid threads s m t) : Ordered tgid threads t := by
  obtain ⟨horder, hpid, hexec⟩ := hm
  obtain ⟨⟨k', c'⟩, hstep, ht⟩ := of_bind hexec
  cases ht
  have hturn := turned hstep
  unfold inOrder at horder
  generalize hcall : s.call m.pid = c at horder hturn
  have hall : ∀ p : Conversion → Bool, (∀ q ∈ threads, p (s.call q) = false) →
      p .idle = false → ∀ q, p (s.call q) = false := by
    intro p hin hidle q
    by_cases hq : q ∈ threads
    · exact hin q hq
    · rw [h.outside q hq, hidle]
  cases hturn with
  | start hs =>
    exact h.quiet hpid hs (fun hx => (by cases hx)) rfl (fun a hx => (by cases hx)) rfl rfl
      (fun n hx => (by cases hx))
  | miss hnone =>
    change searchProcess s.kernel tgid = none at hnone
    have hin : ∀ q ∈ threads, (s.call q).isMissed = false := by
      simpa [hnone] using horder
    exact h.quiet hpid (SameTables.refl _) (fun _ => ⟨hnone, hall _ hin rfl⟩) rfl
      (fun a hx => (by cases hx)) rfl rfl (fun n hx => (by cases hx))
  | @find fiber e he =>
    refine h.quiet hpid (SameTables.refl _) (fun hx => (by cases hx)) rfl (fun a hx => ?_) rfl rfl
      (fun n hx => (by cases hx))
    cases hx
    exact ⟨e, he, rfl⟩
  | add hs hbrk => exact h.add hpid hcall hs hbrk
  | @pass fiber a =>
    refine h.quiet hpid (SameTables.refl _) (fun hx => (by cases hx)) rfl (fun b hx => ?_) rfl rfl
      (fun n hx => (by cases hx))
    apply h.pointer m.pid
    rw [hcall]
    exact hx
  | fail hs hneg =>
    refine h.quiet hpid hs (fun hx => (by cases hx)) rfl (fun a hx => (by cases hx)) rfl rfl
      (fun n hx => ?_)
    cases hx
    exact hneg
  | write ha hs hp hw hl hb =>
    have hcur : ({ m.context with tgid := tgid, pid := m.pid } : Task).pid ∈ threads := hpid
    refine h.write hcur hcall (fun fiber a hc => ?_) ha hs hp hw hl hb
    rw [hc] at horder
    apply hall Conversion.isAdded _ rfl
    simpa using horder

theorem ordered_start (threads : List Pid) (h : Tables k) (hnone : k.record tgid = none) :
    Ordered tgid threads (Race.start k) := by
  have hsearch : searchProcess k tgid = none := Option.map_eq_none_iff.mp hnone
  refine ⟨h, fun _ _ => rfl, ?_, ?_, ?_, ?_, ?_, ?_, ?_, ?_, ?_, ?_, List.nodup_nil⟩
  · exact fun _ _ => hsearch
  · intro q q' hq
    cases hq
  · intro q a hq
    cases hq
  · intro q e hq
    cases hq
  · intro e he
    change searchProcess k tgid = some e at he
    rw [hsearch] at he
    cases he
  · intro q e hq
    cases hq
  · intro q i e hq
    cases hq
  · intro q q' i hq
    cases hq
  · intro q q' i hq
    cases hq
  · intro q n hmem
    cases hmem

/-! ## No conversion is lost -/

/-- The process has one record, every thread whose call returned an id is found
in it, and the ids are distinct. -/
structure NoneLost (tgid : Pid) (s : Race) : Prop where
  one_record : (s.kernel.listProcess.filter fun e => e.obj.pid == tgid).length ≤ 1
  found : ∀ pid n, (pid, n) ∈ s.replies → 0 ≤ n →
    ∃ e t, searchProcess s.kernel tgid = some e ∧ searchThread pid e.obj = some t
  distinct : ((s.replies.map Prod.snd).filter fun n => decide (0 ≤ n)).Nodup

theorem length_records_le (h : Tables k) (tgid : Pid) :
    (k.listProcess.filter fun e => e.obj.pid == tgid).length ≤ 1 := by
  have hnodup := h.unique.nodup.filter fun e => e.obj.pid == tgid
  have hpid : ∀ e ∈ k.listProcess.filter (fun e => e.obj.pid == tgid),
      e ∈ k.listProcess ∧ e.obj.pid = tgid := by
    intro e he
    simpa using he
  generalize k.listProcess.filter (fun e => e.obj.pid == tgid) = l at hnodup hpid ⊢
  match l with
  | [] => simp
  | [e] => simp
  | e :: e' :: l =>
    obtain ⟨he, hp⟩ := hpid e (by simp)
    obtain ⟨he', hp'⟩ := hpid e' (by simp)
    have heq : e = e' := h.pid_inj e he e' he' (hp.trans hp'.symm)
    simp [heq] at hnodup

/-- In every ordered run of the threads of a process that has no record yet, no
conversion is lost. -/
theorem no_conversion_lost {context : Pid × Pid → Context} {as : List Action} {s₀ : System}
    {ms : List Turn} {t : Race} (hstart : Run Step (System.init context) as s₀)
    (hnone : s₀.kernel.record tgid = none)
    (h : Run (OrderedStep tgid threads) (Race.start s₀.kernel) ms t) : NoneLost tgid t := by
  have hord : Ordered tgid threads t :=
    h.invariant (I := Ordered tgid threads) (fun _ _ _ hs hm => ordered_step hs hm)
      (ordered_start threads (kernelOk_run hstart).toTables hnone)
  refine ⟨length_records_le hord.tables tgid, fun pid n hmem h0 => ?_, hord.distinct⟩
  obtain ⟨e, he, ⟨th, hth, rfl⟩, _⟩ := hord.replied pid n hmem h0
  have hsome : searchThread th.obj.pid e.obj ≠ none := by
    intro hnot
    have := search_eq_none_iff.mp hnot th hth (hord.bucketed e he th hth)
    rw [beq_self_eq_true] at this
    cases this
  obtain ⟨t', ht'⟩ := Option.ne_none_iff_exists'.mp hsome
  exact ⟨e, t', he, ht'⟩

/-- A step in the environment of `Env.plain`. -/
def Turn.plain (pid : Pid) : Turn := ⟨pid, ⟨fun _ => 0, 0⟩, Env.plain⟩

/-- `no_conversion_lost` for two threads that start together, and of which the
second waits with its search until the record is there. -/
theorem no_conversion_lost_waiting : ∃ t : Race,
    t.replies = [(7, 1), (8, 0)] ∧ NoneLost 7 t := by
  obtain ⟨t, hrun, hp⟩ := Lib.exists_run (Race.exec 7)
    (fun s m => inOrder 7 [7, 8] s m && [7, 8].contains m.pid) (Race.start Kernel.init)
    ([7, 8, 7, 7, 8, 7, 7, 8, 8, 7, 8, 8, 7, 8, 8, 7, 7].map Turn.plain)
    (fun t => t.replies == [(7, 1), (8, 0)]) (by decide +kernel)
  have hordered : Run (OrderedStep 7 [7, 8]) (Race.start Kernel.init) _ t :=
    hrun.mono fun s m t h => by
      obtain ⟨hin, hmem⟩ := Bool.and_eq_true_iff.mp h.1
      exact ⟨hin, by simpa using hmem, h.2⟩
  have hstart : Run Step (System.init zeroContext) [] (System.init zeroContext) := Run.nil
  exact ⟨t, by simpa using hp, no_conversion_lost hstart rfl hordered⟩

/-- Two threads that both miss the record: both insert one and both get the id 0,
and the first is not found any more. -/
theorem conversion_lost : ∃ (ms : List Turn) (t : Race),
    Run (RaceStep 7 [7, 8]) (Race.start Kernel.init) ms t ∧
    (t.kernel.listProcess.filter fun e => e.obj.pid == 7).length = 2 ∧
    t.replies = [(8, 0), (7, 0)] ∧
    ∃ e, searchProcess t.kernel 7 = some e ∧ searchThread 7 e.obj = none := by
  obtain ⟨t, hrun, hp⟩ := Lib.exists_run (Race.exec 7)
    (fun _ m => [7, 8].contains m.pid) (Race.start Kernel.init)
    ([7, 8, 7, 8, 7, 8, 7, 7, 7, 7, 7, 7, 7, 8, 8, 8, 8, 8, 8, 8].map Turn.plain)
    (fun t => (t.kernel.listProcess.filter fun e => e.obj.pid == 7).length == 2 &&
      (t.replies == [(8, 0), (7, 0)] &&
        (searchProcess t.kernel 7).any fun e => (searchThread 7 e.obj).isNone))
    (by decide +kernel)
  obtain ⟨htwo, hp⟩ := Bool.and_eq_true_iff.mp hp
  obtain ⟨hids, hlost⟩ := Bool.and_eq_true_iff.mp hp
  obtain ⟨e, he, hlost⟩ := (Option.any_eq_true _ _).mp hlost
  have hrace : Run (RaceStep 7 [7, 8]) (Race.start Kernel.init) _ t :=
    hrun.mono fun s m t h => ⟨by simpa using h.1, h.2⟩
  exact ⟨_, t, hrace, by simpa using htwo, by simpa using hids, e, he,
    Option.isNone_iff_eq_none.mp hlost⟩

end LinuxFibers.Module
