import Mathlib.Data.List.Forall2
import Mathlib.Data.List.Nodup

/-!
# Chained hash tables of objects

An intrusive chained hash table: an object is linked into the chain of one
bucket, and it is found again by a scan of a chain.  The bucket of an entry is
chosen by the caller at the insertion, and the bucket of a search by the caller
of the search.  Nothing makes the two agree.

The table is the list of its entries with the newest one first, which is the
order of every chain.  An entry has the address of its object, because an
object is also reached through pointers from elsewhere.  `deref` is the read
through such a pointer, and it gives nothing for an object that is not linked.

`UniqueAddr` says that no address is linked twice.  Under it `deref` is the inverse
of the address, and a write through an address changes one entry.  `image` maps
the objects of a table and leaves the entries where they are, and the operations
commute with it.
-/

namespace LinuxFibers.Lib

/-- A linked object. -/
structure Entry (α : Type) where
  bucket : ℕ
  addr : ℕ
  obj : α

/-- The entry of the image of the object. -/
def Entry.image {α β : Type} (f : α → β) (e : Entry α) : Entry β := ⟨e.bucket, e.addr, f e.obj⟩

/-- The entries of a table, the newest first. -/
abbrev HashTable (α : Type) := List (Entry α)

namespace HashTable

variable {α : Type}

/-- `hash_add`: the object becomes the head of the chain of the bucket. -/
def hashAdd (t : HashTable α) (bucket addr : ℕ) (obj : α) : HashTable α :=
  ⟨bucket, addr, obj⟩ :: t

/-- `hash_del`: the object is unlinked. -/
def hashDel (t : HashTable α) (addr : ℕ) : HashTable α := t.filter (fun e => e.addr != addr)

/-- `hash_for_each_possible` up to the first object that passes the test. -/
def search (t : HashTable α) (bucket : ℕ) (test : α → Bool) : Option (Entry α) :=
  (t.filter (fun e => e.bucket == bucket)).find? (fun e => test e.obj)

/-- The read of an object through its address. -/
def deref (t : HashTable α) (addr : ℕ) : Option α :=
  (t.find? (fun e => e.addr == addr)).map Entry.obj

/-- The write of an object through its address. -/
def modify (t : HashTable α) (addr : ℕ) (f : α → α) : HashTable α :=
  t.map (fun e => if e.addr = addr then { e with obj := f e.obj } else e)

/-- The table with every object rewritten in place. -/
def mapObj (t : HashTable α) (g : Entry α → α) : HashTable α :=
  t.map (fun e => { e with obj := g e })

/-- The chain of a bucket. -/
def chain (t : HashTable α) (bucket : ℕ) : List (Entry α) := t.filter (fun e => e.bucket == bucket)

/-- The entries in the order of `hash_for_each`, bucket by bucket. -/
def forEach (t : HashTable α) (buckets : ℕ) : List (Entry α) :=
  (List.range buckets).flatMap t.chain

/-- The address of the first object in the chain of a bucket. -/
def first (t : HashTable α) (bucket : ℕ) : Option ℕ := (t.chain bucket).head?.map Entry.addr

/-- The address of the object behind an object in the chain of a bucket. -/
def next (t : HashTable α) (bucket addr : ℕ) : Option ℕ :=
  ((t.chain bucket).dropWhile (fun e => e.addr != addr)).tail.head?.map Entry.addr

/-- No address is linked twice. -/
def UniqueAddr (t : HashTable α) : Prop := (t.map Entry.addr).Nodup

/-! ## The entries after an operation -/

@[simp] theorem mem_hashAdd {t : HashTable α} {b a : ℕ} {x : α} {e : Entry α} :
    e ∈ hashAdd t b a x ↔ e = ⟨b, a, x⟩ ∨ e ∈ t :=
  List.mem_cons

@[simp] theorem mem_hashDel {t : HashTable α} {a : ℕ} {e : Entry α} :
    e ∈ hashDel t a ↔ e ∈ t ∧ e.addr ≠ a := by
  simp [hashDel]

theorem mem_modify {t : HashTable α} {a : ℕ} {f : α → α} {e : Entry α} :
    e ∈ modify t a f ↔
      ∃ e' ∈ t, e = if e'.addr = a then { e' with obj := f e'.obj } else e' := by
  simp only [modify, List.mem_map, eq_comm]

theorem mem_forEach {t : HashTable α} {n : ℕ} (h : ∀ e ∈ t, e.bucket < n) {e : Entry α} :
    e ∈ t.forEach n ↔ e ∈ t := by
  simp only [forEach, chain, List.mem_flatMap, List.mem_range, List.mem_filter, beq_iff_eq]
  constructor
  · rintro ⟨_, _, he, _⟩
    exact he
  · intro he
    exact ⟨e.bucket, h e he, he, rfl⟩

theorem mem_mapObj {t : HashTable α} {g : Entry α → α} {e : Entry α} :
    e ∈ mapObj t g ↔ ∃ e' ∈ t, e = { e' with obj := g e' } := by
  simp only [mapObj, List.mem_map, eq_comm]

theorem mem_mapObj_of_mem {t : HashTable α} (g : Entry α → α) {e : Entry α} (he : e ∈ t) :
    { e with obj := g e } ∈ mapObj t g :=
  mem_mapObj.mpr ⟨e, he, rfl⟩

/-- A write is a rewriting of one object. -/
theorem modify_eq_mapObj (t : HashTable α) (a : ℕ) (f : α → α) :
    modify t a f = mapObj t fun e => if e.addr = a then f e.obj else e.obj := by
  apply List.map_congr_left
  intro e _
  dsimp only
  split <;> rfl

theorem mapObj_mapObj (t : HashTable α) (g g' : Entry α → α) :
    mapObj (mapObj t g) g' = mapObj t fun e => g' { e with obj := g e } := by
  simp only [mapObj, List.map_map]
  rfl

theorem modify_self (t : HashTable α) (a : ℕ) : modify t a (fun x => x) = t := by
  rw [modify_eq_mapObj]
  simp only [ite_self]
  exact List.map_id t

/-- The entry that a write changes. -/
theorem mem_modify_self {t : HashTable α} {f : α → α} {e : Entry α} (he : e ∈ t) :
    { e with obj := f e.obj } ∈ modify t e.addr f :=
  mem_modify.mpr ⟨e, he, (if_pos rfl).symm⟩

/-- The entries that a write leaves alone. -/
theorem mem_modify_of_ne {t : HashTable α} {a : ℕ} {f : α → α} {e : Entry α} (he : e ∈ t)
    (hne : e.addr ≠ a) : e ∈ modify t a f :=
  mem_modify.mpr ⟨e, he, (if_neg hne).symm⟩

@[simp] theorem map_addr_modify (t : HashTable α) (a : ℕ) (f : α → α) :
    (modify t a f).map Entry.addr = t.map Entry.addr := by
  simp only [modify, List.map_map]
  apply List.map_congr_left
  intro e _
  simp only [Function.comp]
  split <;> rfl

/-! ## Unique addresses -/

theorem UniqueAddr.hashAdd {t : HashTable α} (h : UniqueAddr t) {b a : ℕ} {x : α}
    (hfresh : ∀ e ∈ t, e.addr ≠ a) : UniqueAddr (hashAdd t b a x) := by
  apply List.nodup_cons.mpr
  refine ⟨fun hmem => ?_, h⟩
  obtain ⟨e, he, ha⟩ := List.mem_map.mp hmem
  exact hfresh e he ha

theorem UniqueAddr.hashDel {t : HashTable α} (h : UniqueAddr t) (a : ℕ) :
    UniqueAddr (hashDel t a) :=
  List.Nodup.sublist (List.filter_sublist.map Entry.addr) h

theorem UniqueAddr.modify {t : HashTable α} (h : UniqueAddr t) (a : ℕ) (f : α → α) :
    UniqueAddr (modify t a f) := by
  unfold UniqueAddr
  rw [map_addr_modify]
  exact h

theorem UniqueAddr.mapObj {t : HashTable α} (h : UniqueAddr t) (g : Entry α → α) :
    UniqueAddr (mapObj t g) := by
  unfold UniqueAddr HashTable.mapObj
  rw [List.map_map]
  exact h

/-- An address has one entry. -/
theorem UniqueAddr.eq_of_addr {t : HashTable α} (h : UniqueAddr t) {e e' : Entry α} (he : e ∈ t)
    (he' : e' ∈ t) (ha : e.addr = e'.addr) : e = e' :=
  List.inj_on_of_nodup_map h he he' ha

theorem UniqueAddr.nodup {t : HashTable α} (h : UniqueAddr t) : t.Nodup :=
  List.Nodup.of_map Entry.addr h

/-- The entry behind a write at a known entry. -/
theorem mem_modify_of_mem {t : HashTable α} (h : UniqueAddr t) {f : α → α} {e x : Entry α}
    (he : e ∈ t) (hx : x ∈ modify t e.addr f) :
    x = { e with obj := f e.obj } ∨ x ∈ t ∧ x.addr ≠ e.addr := by
  obtain ⟨y, hy, rfl⟩ := mem_modify.mp hx
  by_cases hya : y.addr = e.addr
  · rw [if_pos hya, h.eq_of_addr hy he hya]
    exact Or.inl rfl
  · rw [if_neg hya]
    exact Or.inr ⟨hy, hya⟩

/-! ## Reads -/

theorem deref_of_mem {t : HashTable α} (h : UniqueAddr t) {e : Entry α} (he : e ∈ t) :
    deref t e.addr = some e.obj := by
  have hsome : (t.find? fun x => x.addr == e.addr).isSome := by
    rw [List.find?_isSome]
    exact ⟨e, he, beq_self_eq_true e.addr⟩
  obtain ⟨x, hx⟩ := Option.isSome_iff_exists.mp hsome
  have ha : x.addr = e.addr := by simpa using List.find?_some hx
  rw [deref, hx, h.eq_of_addr (List.mem_of_find?_eq_some hx) he ha]
  rfl

theorem mem_of_deref {t : HashTable α} {a : ℕ} {x : α} (h : deref t a = some x) :
    ∃ e ∈ t, e.addr = a ∧ e.obj = x := by
  obtain ⟨e, he, rfl⟩ := Option.map_eq_some_iff.mp h
  exact ⟨e, List.mem_of_find?_eq_some he, by simpa using List.find?_some he, rfl⟩

theorem UniqueAddr.obj_of_deref {t : HashTable α} (h : UniqueAddr t) {a : ℕ} {x : α}
    (hx : deref t a = some x) {e : Entry α} (he : e ∈ t) (ha : e.addr = a) : e.obj = x := by
  rw [← ha, deref_of_mem h he] at hx
  exact Option.some.inj hx

/-! ## Searches -/

theorem of_search {t : HashTable α} {b : ℕ} {p : α → Bool} {e : Entry α}
    (h : search t b p = some e) : e ∈ t ∧ e.bucket = b ∧ p e.obj = true := by
  have hmem := List.mem_filter.mp (List.mem_of_find?_eq_some h)
  refine ⟨hmem.1, by simpa using hmem.2, ?_⟩
  simpa using List.find?_some h

theorem search_eq_none_iff {t : HashTable α} {b : ℕ} {p : α → Bool} :
    search t b p = none ↔ ∀ e ∈ t, e.bucket = b → p e.obj = false := by
  simp only [search, List.find?_eq_none, List.mem_filter, beq_iff_eq, Bool.not_eq_true, and_imp]

/-- The only object that passes the test is found if and only if it is linked
in the bucket of the search. -/
theorem search_eq_some_iff {t : HashTable α} {b : ℕ} {p : α → Bool} {e : Entry α}
    (he : e ∈ t) (hp : p e.obj = true) (honly : ∀ x ∈ t, p x.obj = true → x = e) :
    search t b p = some e ↔ e.bucket = b := by
  constructor
  · intro h
    exact (of_search h).2.1
  · intro hb
    cases hs : search t b p with
    | none =>
      have := search_eq_none_iff.mp hs e he hb
      rw [hp] at this
      cases this
    | some x =>
      obtain ⟨hx, _, hpx⟩ := of_search hs
      rw [honly x hx hpx]

/-- Of the objects that pass a test only one is linked, so a second test can
come after the search. -/
theorem search_and {t : HashTable α} {b : ℕ} {p c : α → Bool}
    (honly : ∀ e ∈ t, ∀ e' ∈ t, p e.obj = true → p e'.obj = true → e = e') :
    search t b (fun x => p x && c x) = (search t b p).filter fun e => c e.obj := by
  cases hs : search t b p with
  | none =>
    apply search_eq_none_iff.mpr
    intro e he hb
    rw [search_eq_none_iff.mp hs e he hb, Bool.false_and]
  | some x =>
    obtain ⟨hx, hb, hp⟩ := of_search hs
    by_cases hc : c x.obj = true
    · have hboth : (p x.obj && c x.obj) = true := by rw [hp, hc]; rfl
      have hfirst : ∀ y ∈ t, (p y.obj && c y.obj) = true → y = x := by
        intro y hy hpy
        exact honly y hy x hx (Bool.and_eq_true_iff.mp hpy).1 hp
      have hfound := (search_eq_some_iff (p := fun x => p x && c x) hx hboth hfirst).mpr hb
      rw [hfound, Option.filter, if_pos hc]
    · rw [Option.filter, if_neg hc]
      apply search_eq_none_iff.mpr
      intro e he _
      by_cases hpe : p e.obj = true
      · rw [honly e he x hx hpe hp, Bool.eq_false_iff.mpr hc, Bool.and_false]
      · rw [Bool.eq_false_iff.mpr hpe, Bool.false_and]

/-- A search in a table whose entries were mapped without a change of bucket or
test result. -/
theorem search_map {t : HashTable α} {b : ℕ} {p : α → Bool} {g : Entry α → Entry α}
    (hb : ∀ e ∈ t, (g e).bucket = e.bucket) (hp : ∀ e ∈ t, p (g e).obj = p e.obj) :
    search (t.map g) b p = (search t b p).map g := by
  unfold search
  induction t with
  | nil => rfl
  | cons e rest ih =>
    have ih := ih (fun x hx => hb x (List.mem_cons_of_mem e hx))
      (fun x hx => hp x (List.mem_cons_of_mem e hx))
    have hbe := hb e List.mem_cons_self
    have hpe := hp e List.mem_cons_self
    by_cases hbucket : e.bucket = b <;> by_cases htest : p e.obj = true <;> simp_all

/-- A write that keeps the test keeps the result of the search. -/
theorem search_modify {t : HashTable α} {b a : ℕ} {p : α → Bool} {f : α → α}
    (hp : ∀ e ∈ t, e.addr = a → p (f e.obj) = p e.obj) :
    search (modify t a f) b p =
      (search t b p).map (fun e => if e.addr = a then { e with obj := f e.obj } else e) := by
  apply search_map
  · intro e _
    split <;> rfl
  · intro e he
    split
    · exact hp e he (by assumption)
    · rfl

/-- A new object that fails the test is passed by. -/
theorem search_hashAdd_of_not {t : HashTable α} {b b' a : ℕ} {p : α → Bool} {x : α}
    (hp : p x = false) : search (hashAdd t b' a x) b p = search t b p := by
  unfold search hashAdd
  rw [List.filter_cons]
  split
  · rw [List.find?_cons, hp]
  · rfl

theorem search_hashAdd_self {t : HashTable α} {b a : ℕ} {p : α → Bool} {x : α}
    (hp : p x = true) : search (hashAdd t b a x) b p = some ⟨b, a, x⟩ := by
  simp [search, hashAdd, hp]

/-- The removal of an object that fails the test. -/
theorem search_hashDel_of_not {t : HashTable α} {b a : ℕ} {p : α → Bool}
    (hp : ∀ e ∈ t, e.addr = a → p e.obj = false) :
    search (hashDel t a) b p = search t b p := by
  unfold search hashDel
  induction t with
  | nil => rfl
  | cons e rest ih =>
    have ih := ih fun x hx => hp x (List.mem_cons_of_mem e hx)
    have hpe := hp e List.mem_cons_self
    by_cases ha : e.addr = a <;> by_cases hbucket : e.bucket = b <;>
      simp_all [List.find?_cons]

/-! ## Chains -/

theorem chain_hashAdd (t : HashTable α) (b b' a : ℕ) (x : α) :
    (t.hashAdd b' a x).chain b = if b' = b then ⟨b', a, x⟩ :: t.chain b else t.chain b := by
  simp only [chain, hashAdd, List.filter_cons, beq_iff_eq]

theorem UniqueAddr.chain {t : HashTable α} (h : UniqueAddr t) (b : ℕ) :
    ((t.chain b).map Entry.addr).Nodup :=
  h.sublist (List.filter_sublist.map Entry.addr)

theorem of_first {t : HashTable α} {b a : ℕ} (h : t.first b = some a) :
    ∃ e rest, t.chain b = e :: rest ∧ e.addr = a := by
  unfold first at h
  cases hc : t.chain b with
  | nil =>
    rw [hc] at h
    cases h
  | cons e rest =>
    rw [hc] at h
    exact ⟨e, rest, rfl, Option.some.inj h⟩

/-- The rest of a chain behind an object is found from its address. -/
theorem next_eq {t : HashTable α} (h : UniqueAddr t) {b : ℕ} {pre rest : List (Entry α)}
    {e : Entry α} (hc : t.chain b = pre ++ e :: rest) :
    t.next b e.addr = rest.head?.map Entry.addr := by
  have hnodup := h.chain b
  rw [hc, List.map_append, List.map_cons, List.nodup_middle, List.nodup_cons] at hnodup
  have hpre : ∀ x ∈ pre, (x.addr != e.addr) = true := by
    intro x hx
    apply bne_iff_ne.mpr
    intro heq
    apply hnodup.1
    rw [← heq]
    exact List.mem_append_left _ (List.mem_map_of_mem hx)
  rw [next, hc, List.dropWhile_append_of_pos hpre, List.dropWhile_cons_of_neg (by simp),
    List.tail_cons]

/-! ## Parallel tables

Two tables are parallel when they link objects of the same addresses in the same
buckets and in the same order, and the objects behind an address are related.
Then a search that the relation respects takes the same way in both. -/

variable {β : Type}

/-- Two entries with the same links. -/
structure SameLinks (R : α → β → Prop) (e : Entry α) (e' : Entry β) : Prop where
  bucket : e.bucket = e'.bucket
  addr : e.addr = e'.addr
  obj : R e.obj e'.obj

/-- The tables link related objects in the same way. -/
def Parallel (R : α → β → Prop) (t : HashTable α) (t' : HashTable β) : Prop :=
  List.Forall₂ (SameLinks R) t t'

theorem of_rel_some {R : α → β → Prop} {x : α} {o : Option β} (h : Option.Rel R (some x) o) :
    ∃ y, o = some y ∧ R x y := by
  cases h with
  | some hxy => exact ⟨_, rfl, hxy⟩

theorem of_rel_none {R : α → β → Prop} {o : Option β} (h : Option.Rel R none o) : o = none := by
  cases h
  rfl

namespace Parallel

variable {R S : α → β → Prop} {t : HashTable α} {t' : HashTable β}

theorem hashAdd (h : Parallel R t t') {b a : ℕ} {x : α} {x' : β} (hx : R x x') :
    Parallel R (t.hashAdd b a x) (t'.hashAdd b a x') :=
  List.Forall₂.cons ⟨rfl, rfl, hx⟩ h

theorem mapObj (h : Parallel R t t') {g : Entry α → α} {g' : Entry β → β}
    (hg : ∀ e ∈ t, ∀ e', SameLinks R e e' → S (g e) (g' e')) :
    Parallel S (t.mapObj g) (t'.mapObj g') := by
  induction h with
  | nil => exact List.Forall₂.nil
  | cons he _ ih =>
    have hhead := hg _ List.mem_cons_self _ he
    have htail := ih fun e hmem => hg e (List.mem_cons_of_mem _ hmem)
    exact List.Forall₂.cons ⟨he.bucket, he.addr, hhead⟩ htail

/-- Writes of related objects through one address. -/
theorem modify (h : Parallel R t t') (a : ℕ) {f : α → α} {g : β → β}
    (hf : ∀ e ∈ t, e.addr = a → ∀ x, R e.obj x → R (f e.obj) (g x)) :
    Parallel R (t.modify a f) (t'.modify a g) := by
  rw [modify_eq_mapObj, modify_eq_mapObj]
  apply h.mapObj
  intro e he e' hsame
  rw [hsame.addr.symm]
  split
  · exact hf e he (by assumption) _ hsame.obj
  · exact hsame.obj

/-- A write on one side that the relation does not see. -/
theorem modify_left (h : Parallel R t t') (a : ℕ) {f : α → α}
    (hf : ∀ e ∈ t, e.addr = a → ∀ x, R e.obj x → R (f e.obj) x) :
    Parallel R (t.modify a f) t' := by
  have hwritten := h.modify a (g := fun x => x) hf
  rwa [modify_self] at hwritten

theorem modify_right (h : Parallel R t t') (a : ℕ) {f : β → β}
    (hf : ∀ e ∈ t, e.addr = a → ∀ x, R e.obj x → R e.obj (f x)) :
    Parallel R t (t'.modify a f) := by
  have hwritten := h.modify a (f := fun x => x) hf
  rwa [modify_self] at hwritten

theorem find? (h : Parallel R t t') {p : Entry α → Bool} {q : Entry β → Bool}
    (hpq : ∀ e e', SameLinks R e e' → p e = q e') :
    Option.Rel (SameLinks R) (List.find? p t) (List.find? q t') := by
  induction h with
  | nil => exact Option.Rel.none
  | cons he _ ih =>
    rw [List.find?_cons, List.find?_cons, hpq _ _ he]
    split
    · exact Option.Rel.some he
    · exact ih

theorem search (h : Parallel R t t') (b : ℕ) {p : α → Bool} {q : β → Bool}
    (hpq : ∀ x x', R x x' → p x = q x') :
    Option.Rel (SameLinks R) (t.search b p) (t'.search b q) := by
  unfold HashTable.search
  rw [List.find?_filter, List.find?_filter]
  apply h.find?
  intro e e' he
  rw [he.bucket, hpq _ _ he.obj]

theorem deref (h : Parallel R t t') (a : ℕ) : Option.Rel R (t.deref a) (t'.deref a) := by
  have hfind := h.find? (p := fun e => e.addr == a) (q := fun e => e.addr == a) fun e e' he => by
    rw [he.addr]
  unfold HashTable.deref
  generalize List.find? _ t = x at hfind ⊢
  generalize List.find? _ t' = x' at hfind ⊢
  cases hfind with
  | none => exact Option.Rel.none
  | some he => exact Option.Rel.some he.obj

end Parallel

/-! ## Images

The table of the images of the objects under a function.  Facts that need only the
image of an object move between a table and its image. -/

section Image

variable {f : α → β} {t : HashTable α}

/-- The table of the images. -/
def image (f : α → β) (t : HashTable α) : HashTable β := t.map (Entry.image f)

theorem mem_image_of_mem (f : α → β) {e : Entry α} (he : e ∈ t) : e.image f ∈ t.image f :=
  List.mem_map_of_mem he

theorem of_mem_image {x : Entry β} (h : x ∈ t.image f) : ∃ e ∈ t, e.image f = x :=
  List.mem_map.mp h

theorem uniqueAddr_image (f : α → β) (t : HashTable α) : (t.image f).UniqueAddr ↔ t.UniqueAddr := by
  unfold UniqueAddr image
  rw [List.map_map]
  rfl

theorem image_hashDel (f : α → β) (t : HashTable α) (a : ℕ) :
    (t.hashDel a).image f = (t.image f).hashDel a := by
  unfold hashDel image
  rw [List.filter_map]
  rfl

/-- A rewriting that the image sees as another one. -/
theorem image_mapObj {g : Entry α → α} {g' : Entry β → β}
    (hg : ∀ e ∈ t, f (g e) = g' (e.image f)) :
    (t.mapObj g).image f = (t.image f).mapObj g' := by
  unfold image mapObj
  rw [List.map_map, List.map_map]
  apply List.map_congr_left
  intro e he
  show Entry.mk e.bucket e.addr (f (g e)) = ⟨e.bucket, e.addr, g' (e.image f)⟩
  rw [hg e he]

theorem image_modify {g : α → α} {g' : β → β} (a : ℕ) (hg : ∀ x, f (g x) = g' (f x)) :
    (t.modify a g).image f = (t.image f).modify a g' := by
  rw [modify_eq_mapObj, modify_eq_mapObj]
  apply image_mapObj
  intro e _
  show f (if e.addr = a then g e.obj else e.obj) = if e.addr = a then g' (f e.obj) else f e.obj
  split
  · exact hg e.obj
  · rfl

/-- A write that the image does not see. -/
theorem image_modify_of_eq {g : α → α} (a : ℕ) (hg : ∀ x, f (g x) = f x) :
    (t.modify a g).image f = t.image f := by
  have himage : (t.modify a g).image f = (t.image f).modify a fun y => y := image_modify a hg
  rw [himage, modify_self]

theorem search_image {b : ℕ} {p : α → Bool} {q : β → Bool} (hpq : ∀ x, q (f x) = p x) :
    (t.image f).search b q = (t.search b p).map (Entry.image f) := by
  unfold search image
  rw [List.filter_map, List.find?_map]
  congr 1
  show (t.filter fun e => e.bucket == b).find? (fun e => q (f e.obj)) = _
  simp only [hpq]

end Image

end HashTable

end LinuxFibers.Lib
