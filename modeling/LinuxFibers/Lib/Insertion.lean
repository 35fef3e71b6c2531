import LinuxFibers.Lib.HashTable
import Mathlib.Logic.Function.Basic

/-!
# Insertions into chains, pointer by pointer

`HashTable.hashAdd` links an object in one step.  Here the chains are what they are
in memory: the head of each bucket, and the pointers `next` and `pprev` of each
node.  `hlist_add_head` reads the head, and writes three pointers of others or of
its own.

* `Represents l t` says that the pointers hold the chains of the table `t`.
* `Layered next t` is what every order of the steps keeps: the objects of `t` were
  published in this order, and each has an older one of its bucket behind it.  So a
  chain is never circular, and never has a node that is not in `t`
  (`Layered.exists_chain`), but it can miss some.
* `represents_publish_iff`: a publication keeps the chains if and only if the head is
  still the one that was read.
* `represents_del`: a removal through `pprev` takes its node out and nothing else, where
  every `pprev` is right (`Backed`).
-/

namespace LinuxFibers.Lib

/-- What the `pprev` of a node points to. -/
inductive Slot where
  | first (bucket : ℕ)
  | next (addr : ℕ)
  deriving DecidableEq

/-- The pointers of the chains. -/
structure Links where
  first : ℕ → Option ℕ
  next : ℕ → Option ℕ
  pprev : ℕ → Option Slot

/-- Where an insertion is. -/
inductive Insertion where
  | waiting
  /-- The head is read, and it is the `next` of the node. -/
  | read (first : Option ℕ)
  /-- The `pprev` of the node behind is written. -/
  | linked (first : Option ℕ)
  /-- The node is the head. -/
  | published
  | done
  deriving DecidableEq

namespace Links

/-- The next step of `hlist_add_head` of the node `a` to the bucket `b`. -/
def addHead (l : Links) (b a : ℕ) : Insertion → Links × Insertion
  | .waiting => ({ l with next := Function.update l.next a (l.first b) }, .read (l.first b))
  | .read none => (l, .linked none)
  | .read (some f) =>
      ({ l with pprev := Function.update l.pprev f (some (.next a)) }, .linked (some f))
  | .linked _ => ({ l with first := Function.update l.first b (some a) }, .published)
  | .published =>
      ({ l with pprev := Function.update l.pprev a (some (.first b)) }, .done)
  | .done => (l, .done)

/-- `*slot = p`. -/
def store (l : Links) (slot : Slot) (p : Option ℕ) : Links :=
  match slot with
  | .first b => { l with first := Function.update l.first b p }
  | .next a => { l with next := Function.update l.next a p }

/-- `if (n) n->pprev = slot`. -/
def setPprev (l : Links) (n : Option ℕ) (slot : Option Slot) : Links :=
  match n with
  | none => l
  | some a => { l with pprev := Function.update l.pprev a slot }

/-- `hlist_del_init`, the removal of `hash_del`. -/
def del (l : Links) (a : ℕ) : Links :=
  match l.pprev a with
  | none => l
  | some slot =>
      let l' := (l.store slot (l.next a)).setPprev (l.next a) (some slot)
      { l' with
        next := Function.update l'.next a none
        pprev := Function.update l'.pprev a none }

/-- `hlist_for_each_entry` up to the first node that passes the test. -/
def search (l : Links) (test : ℕ → Bool) : ℕ → Option ℕ → Option (Option ℕ)
  | _, none => some none
  | 0, some _ => none
  | fuel + 1, some a => if test a then some (some a) else l.search test fuel (l.next a)

end Links

/-! ## Chains -/

/-- The nodes from a pointer on. -/
inductive Chain (next : ℕ → Option ℕ) : Option ℕ → List ℕ → Prop where
  | nil : Chain next none []
  | cons {a : ℕ} {as : List ℕ} : Chain next (next a) as → Chain next (some a) (a :: as)

variable {α : Type} {next next' : ℕ → Option ℕ} {p : Option ℕ} {a b : ℕ} {as : List ℕ}
  {l : Links} {t : HashTable α} {e : Entry α}

theorem Chain.head?_eq (h : Chain next p as) : as.head? = p := by
  cases h with
  | nil => rfl
  | cons _ => rfl

/-- A chain reads the `next` of its nodes only. -/
theorem Chain.congr (h : Chain next p as) (heq : ∀ x ∈ as, next' x = next x) :
    Chain next' p as := by
  induction h with
  | nil => exact .nil
  | @cons a as _ ih =>
    have hrest := ih fun x hx => heq x (List.mem_cons_of_mem a hx)
    rw [← heq a List.mem_cons_self] at hrest
    exact .cons hrest

theorem chain_cons_iff : Chain next (some a) (a :: as) ↔ Chain next (next a) as := by
  constructor
  · intro h
    cases h with
    | cons hrest => exact hrest
  · exact .cons

/-- A search on a chain with fuel for it is the search in the list of its nodes. -/
theorem Chain.search (h : Chain l.next p as) (test : ℕ → Bool) {fuel : ℕ}
    (hfuel : as.length ≤ fuel) : l.search test fuel p = some (as.find? test) := by
  induction as generalizing p fuel with
  | nil =>
    cases h with
    | nil => cases fuel <;> rfl
  | cons a as ih =>
    cases h with
    | cons hrest =>
      cases fuel with
      | zero => exact absurd hfuel (Nat.not_succ_le_zero _)
      | succ fuel =>
        rw [Links.search, List.find?_cons]
        cases test a with
        | true => rfl
        | false => exact ih hrest (Nat.le_of_succ_le_succ hfuel)

/-! ## The chains of a table -/

/-- The addresses in the chain of a bucket. -/
def HashTable.addrs (t : HashTable α) (b : ℕ) : List ℕ := (t.chain b).map Entry.addr

/-- The pointers hold the chains of a table. -/
def Represents (l : Links) (t : HashTable α) : Prop :=
  ∀ b, Chain l.next (l.first b) (t.addrs b)

/-- The pointer is null, or leads to an object of the bucket. -/
def Leads (t : HashTable α) (b : ℕ) (p : Option ℕ) : Prop :=
  ∀ a, p = some a → ∃ e ∈ t, e.bucket = b ∧ e.addr = a

/-- The objects were published one after the other, each in front of an older one of
its bucket. -/
def Layered (next : ℕ → Option ℕ) : HashTable α → Prop
  | [] => True
  | e :: t => Leads t e.bucket (next e.addr) ∧ Layered next t

theorem HashTable.addrs_cons_self (e : Entry α) (t : HashTable α) :
    HashTable.addrs (e :: t) e.bucket = e.addr :: t.addrs e.bucket := by
  simp only [HashTable.addrs, HashTable.chain, List.filter_cons, beq_self_eq_true, if_true,
    List.map_cons]

theorem HashTable.addrs_cons_of_ne {b : ℕ} (h : e.bucket ≠ b) (t : HashTable α) :
    HashTable.addrs (e :: t) b = t.addrs b := by
  have hne : (e.bucket == b) = false := beq_false_of_ne h
  simp only [HashTable.addrs, HashTable.chain, List.filter_cons, hne, Bool.false_eq_true, if_false]

theorem HashTable.mem_addrs : a ∈ t.addrs b ↔ ∃ e ∈ t, e.bucket = b ∧ e.addr = a := by
  simp only [HashTable.addrs, HashTable.chain, List.mem_map, List.mem_filter, beq_iff_eq,
    and_assoc]

theorem HashTable.addr_mem {a : ℕ} (h : a ∈ t.addrs b) : ∃ e ∈ t, e.addr = a := by
  obtain ⟨e, he, _, ha⟩ := mem_addrs.mp h
  exact ⟨e, he, ha⟩

/-- From every pointer that leads to the bucket there is a chain, and it has some of
the objects of the bucket, the newest first. -/
theorem Layered.exists_chain (h : Layered next t) : ∀ {p : Option ℕ}, Leads t b p →
    ∃ as, Chain next p as ∧ as.Sublist (t.addrs b) := by
  induction t with
  | nil =>
    intro p hp
    cases p with
    | none => exact ⟨[], .nil, List.Sublist.refl []⟩
    | some a =>
      obtain ⟨e, he, _⟩ := hp a rfl
      cases he
  | cons e t ih =>
    obtain ⟨hlead, hgrown⟩ := h
    intro p hp
    by_cases hhere : p = some e.addr ∧ e.bucket = b
    · obtain ⟨rfl, rfl⟩ := hhere
      obtain ⟨as, hchain, hsub⟩ := ih hgrown hlead
      rw [HashTable.addrs_cons_self]
      exact ⟨e.addr :: as, .cons hchain, hsub.cons_cons e.addr⟩
    · have hrest : Leads t b p := by
        intro a ha
        obtain ⟨x, hx, hb, hxa⟩ := hp a ha
        rcases List.mem_cons.mp hx with rfl | hx
        · exact absurd ⟨by rw [ha, hxa], hb⟩ hhere
        · exact ⟨x, hx, hb, hxa⟩
      obtain ⟨as, hchain, hsub⟩ := ih hgrown hrest
      refine ⟨as, hchain, hsub.trans ?_⟩
      exact (List.sublist_cons_self e t).filter _ |>.map _

/-- The objects of chains are in layers. -/
theorem layered_of_chains (h : ∀ b, ∃ p, Chain next p (t.addrs b)) : Layered next t := by
  induction t with
  | nil => trivial
  | cons e t ih =>
    obtain ⟨p, hself⟩ := h e.bucket
    rw [HashTable.addrs_cons_self] at hself
    cases hself with
    | cons hrest =>
      refine ⟨fun a ha => ?_, ih fun b => ?_⟩
      · rw [← hrest.head?_eq] at ha
        exact HashTable.mem_addrs.mp (List.mem_of_mem_head? ha)
      · by_cases hb : e.bucket = b
        · rw [← hb]
          exact ⟨_, hrest⟩
        · have hother := h b
          rwa [HashTable.addrs_cons_of_ne hb] at hother

theorem Layered.congr (h : Layered next t) (heq : ∀ e ∈ t, next' e.addr = next e.addr) :
    Layered next' t := by
  induction t with
  | nil => trivial
  | cons e t ih =>
    refine ⟨?_, ih h.2 fun x hx => heq x (List.mem_cons_of_mem e hx)⟩
    rw [heq e List.mem_cons_self]
    exact h.1

theorem represents_update (hfresh : ∀ e ∈ t, e.addr ≠ a) (p : Option ℕ) :
    Represents { l with next := Function.update l.next a p } t ↔ Represents l t := by
  have hsame : ∀ b, ∀ x ∈ t.addrs b, Function.update l.next a p x = l.next x := by
    intro b x hx
    obtain ⟨e, he, rfl⟩ := HashTable.addr_mem hx
    exact Function.update_of_ne (hfresh e he) p l.next
  constructor
  · exact fun h b => (h b).congr fun x hx => (hsame b x hx).symm
  · exact fun h b => (h b).congr (hsame b)

/-- The head of each bucket is the newest object. -/
theorem Represents.first_eq (h : Represents l t) (b : ℕ) : l.first b = (t.addrs b).head? :=
  (h b).head?_eq.symm

/-- A publication keeps the chains if and only if they were right before it, and the
head is the one that was read. -/
theorem represents_publish_iff (hfirst : ∀ b, l.first b = (t.addrs b).head?) (e : Entry α) :
    Represents { l with first := Function.update l.first e.bucket (some e.addr) } (e :: t) ↔
      Represents l t ∧ l.first e.bucket = l.next e.addr := by
  constructor
  · intro h
    have hself := h e.bucket
    rw [HashTable.addrs_cons_self] at hself
    dsimp only at hself
    rw [Function.update_self, chain_cons_iff] at hself
    have hread : l.first e.bucket = l.next e.addr := by
      rw [hfirst, hself.head?_eq]
    refine ⟨fun b => ?_, hread⟩
    by_cases hb : e.bucket = b
    · rw [← hb, hread]
      exact hself
    · have hother := h b
      rw [HashTable.addrs_cons_of_ne hb] at hother
      dsimp only at hother
      rwa [Function.update_of_ne (Ne.symm hb)] at hother
  · rintro ⟨h, hread⟩ b
    dsimp only
    by_cases hb : e.bucket = b
    · subst hb
      rw [HashTable.addrs_cons_self, Function.update_self, chain_cons_iff, ← hread]
      exact h e.bucket
    · rw [HashTable.addrs_cons_of_ne hb, Function.update_of_ne (Ne.symm hb)]
      exact h b

/-! ## Removals -/

/-- The `pprev` of each node is the slot in front of it. -/
def Back (pprev : ℕ → Option Slot) : Slot → List ℕ → Prop
  | _, [] => True
  | slot, a :: as => pprev a = some slot ∧ Back pprev (.next a) as

/-- Every `pprev` of a table is right. -/
def Backed (l : Links) (t : HashTable α) : Prop :=
  ∀ b, Back l.pprev (.first b) (t.addrs b)

theorem Back.congr {pprev pprev' : ℕ → Option Slot} {slot : Slot} (h : Back pprev slot as)
    (heq : ∀ x ∈ as, pprev' x = pprev x) : Back pprev' slot as := by
  induction as generalizing slot with
  | nil => trivial
  | cons a as ih =>
    refine ⟨(heq a List.mem_cons_self).trans h.1, ih h.2 fun x hx => ?_⟩
    exact heq x (List.mem_cons_of_mem a hx)

/-- Behind a node, every `pprev` is the `next` of a node. -/
theorem Back.exists_next {pprev : ℕ → Option Slot} {x : ℕ} (h : Back pprev (.next x) as)
    (ha : a ∈ as) : ∃ y, pprev a = some (.next y) := by
  induction as generalizing x with
  | nil => cases ha
  | cons c as ih =>
    rcases List.mem_cons.mp ha with rfl | ha
    · exact ⟨x, h.1⟩
    · exact ih h.2 ha

/-- The pointer in a slot. -/
def Links.load (l : Links) : Slot → Option ℕ
  | .first b => l.first b
  | .next a => l.next a

theorem load_del {front : Slot} (h : l.pprev a = some front) (slot : Slot) :
    (l.del a).load slot =
      if slot = .next a then none else if slot = front then l.next a else l.load slot := by
  have hset : ∀ (l : Links) (n : Option ℕ) (s : Option Slot),
      (l.setPprev n s).first = l.first ∧ (l.setPprev n s).next = l.next := by
    intro l n s
    cases n <;> exact ⟨rfl, rfl⟩
  simp only [Links.del, h]
  cases slot with
  | first b =>
    simp only [Links.load, (hset _ _ _).1, reduceCtorEq, if_false]
    cases front with
    | first b' => simp only [Links.store, Function.update_apply, Slot.first.injEq]
    | next x => simp only [Links.store, reduceCtorEq, if_false]
  | next c =>
    simp only [Links.load, (hset _ _ _).2, Function.update_apply, Slot.next.injEq]
    cases front with
    | first b' => simp only [Links.store, reduceCtorEq, if_false]
    | next x => simp only [Links.store, Function.update_apply, Slot.next.injEq]

theorem pprev_del {front : Slot} (h : l.pprev a = some front) (x : ℕ) :
    (l.del a).pprev x =
      if x = a then none else if l.next a = some x then some front else l.pprev x := by
  have hstore : ∀ p, (l.store front p).pprev = l.pprev := by
    intro p
    cases front <;> rfl
  simp only [Links.del, h, Function.update_apply]
  cases l.next a with
  | none => simp only [Links.setPprev, hstore, reduceCtorEq, if_false]
  | some c =>
    simp only [Links.setPprev, hstore, Function.update_apply, Option.some.injEq, eq_comm]

/-- A removal in a chain. -/
theorem chain_del {slot : Slot} {xs ys : List ℕ} (hnodup : (xs ++ a :: ys).Nodup)
    (hslot : ∀ z ∈ xs ++ a :: ys, slot ≠ .next z)
    (hchain : Chain l.next (l.load slot) (xs ++ a :: ys))
    (hback : Back l.pprev slot (xs ++ a :: ys)) :
    Chain (l.del a).next ((l.del a).load slot) (xs ++ ys) ∧
      Back (l.del a).pprev slot (xs ++ ys) ∧
      ∃ front, l.pprev a = some front ∧ l.next a = ys.head? ∧
        (front = slot ∨ ∃ x ∈ xs, front = .next x) := by
  induction xs generalizing slot with
  | nil =>
    obtain ⟨hprev, hback⟩ := hback
    have hload : l.load slot = some a := hchain.head?_eq.symm
    rw [hload, List.nil_append, chain_cons_iff] at hchain
    obtain ⟨ha, hys⟩ := List.nodup_cons.mp hnodup
    have hself : (l.del a).load slot = l.next a := by
      rw [load_del hprev, if_neg (hslot a List.mem_cons_self), if_pos rfl]
    have hnext : ∀ y ∈ ys, (l.del a).next y = l.next y := by
      intro y hy
      have hya : y ≠ a := ne_of_mem_of_not_mem hy ha
      have hne : Slot.next y ≠ slot := (hslot y (List.mem_cons_of_mem a hy)).symm
      have hy' := load_del hprev (.next y)
      rwa [if_neg (fun heq => hya (Slot.next.inj heq)), if_neg hne] at hy'
    refine ⟨?_, ?_, slot, hprev, hchain.head?_eq.symm, Or.inl rfl⟩
    · rw [hself]
      exact hchain.congr hnext
    · cases ys with
      | nil => trivial
      | cons y ys =>
        have hfirst : l.next a = some y := hchain.head?_eq.symm
        have hya : y ≠ a := ne_of_mem_of_not_mem List.mem_cons_self ha
        refine ⟨by rw [pprev_del hprev, if_neg hya, if_pos hfirst], hback.2.congr ?_⟩
        intro z hz
        have hza : z ≠ a := ne_of_mem_of_not_mem (List.mem_cons_of_mem y hz) ha
        have hyz : y ≠ z := (ne_of_mem_of_not_mem hz (List.nodup_cons.mp hys).1).symm
        rw [pprev_del hprev, if_neg hza, hfirst, if_neg (fun heq => hyz (Option.some.inj heq))]
  | cons x xs ih =>
    obtain ⟨hprev, hback⟩ := hback
    have hload : l.load slot = some x := hchain.head?_eq.symm
    rw [hload, List.cons_append, chain_cons_iff] at hchain
    obtain ⟨hx, hnodup⟩ := List.nodup_cons.mp hnodup
    have hslot' : ∀ z ∈ xs ++ a :: ys, Slot.next x ≠ .next z := by
      intro z hz heq
      exact hx (Slot.next.inj heq ▸ hz)
    obtain ⟨hrest, hback', front, hfront, hnext, hor⟩ := ih hnodup hslot' hchain hback
    have hslotfront : slot ≠ front := by
      rcases hor with rfl | ⟨z, hz, rfl⟩
      · exact hslot x List.mem_cons_self
      · exact hslot z (List.mem_cons_of_mem x (List.mem_append_left _ hz))
    have ha : slot ≠ .next a :=
      hslot a (List.mem_cons_of_mem x (List.mem_append_right _ List.mem_cons_self))
    have hself : (l.del a).load slot = some x := by
      rw [load_del hfront, if_neg ha, if_neg hslotfront, hload]
    have hxa : x ≠ a := fun heq => hx (heq ▸ List.mem_append_right _ List.mem_cons_self)
    have hxy : l.next a ≠ some x := by
      rw [hnext]
      intro hhead
      have hmem : x ∈ ys := List.mem_of_mem_head? hhead
      exact hx (List.mem_append_right _ (List.mem_cons_of_mem a hmem))
    refine ⟨?_, ⟨?_, hback'⟩, front, hfront, hnext, Or.inr ?_⟩
    · rw [hself]
      exact .cons hrest
    · rw [pprev_del hfront, if_neg hxa, if_neg hxy, hprev]
    · rcases hor with rfl | ⟨z, hz, rfl⟩
      · exact ⟨x, List.mem_cons_self, rfl⟩
      · exact ⟨z, List.mem_cons_of_mem x hz, rfl⟩

theorem HashTable.addrs_hashDel (t : HashTable α) (a b : ℕ) :
    (t.hashDel a).addrs b = (t.addrs b).filter (· != a) := by
  simp only [addrs, chain, hashDel, List.filter_map, List.filter_filter, Function.comp_def]
  congr 2
  funext x
  exact Bool.and_comm _ _

theorem HashTable.UniqueAddr.nodup_addrs (hu : t.UniqueAddr) (b : ℕ) : (t.addrs b).Nodup :=
  List.Nodup.sublist (List.filter_sublist.map Entry.addr) hu

/-- An address is in one bucket. -/
theorem HashTable.UniqueAddr.bucket_eq {b' : ℕ} (hu : t.UniqueAddr) (h : a ∈ t.addrs b)
    (h' : a ∈ t.addrs b') : b = b' := by
  obtain ⟨e, he, hb, ha⟩ := mem_addrs.mp h
  obtain ⟨e', he', hb', ha'⟩ := mem_addrs.mp h'
  rw [← hb, ← hb', hu.eq_of_addr he he' (ha.trans ha'.symm)]

/-- A removal takes its node out of the table, and leaves every `pprev` right. -/
theorem represents_del (h : Represents l t) (hback : Backed l t) (hu : t.UniqueAddr) (he : e ∈ t) :
    Represents (l.del e.addr) (t.hashDel e.addr) ∧ Backed (l.del e.addr) (t.hashDel e.addr) := by
  have hmem : e.addr ∈ t.addrs e.bucket := HashTable.mem_addrs.mpr ⟨e, he, rfl, rfl⟩
  obtain ⟨xs, ys, hsplit⟩ := List.append_of_mem hmem
  have hnodup := hu.nodup_addrs e.bucket
  have hchain := h e.bucket
  have hpprev := hback e.bucket
  rw [hsplit] at hnodup hchain hpprev
  have hslot : ∀ z ∈ xs ++ e.addr :: ys, Slot.first e.bucket ≠ .next z := fun _ _ => nofun
  obtain ⟨hchain', hpprev', front, hfront, hnext, hor⟩ :=
    chain_del hnodup hslot hchain hpprev
  have hkeeps : ∀ b, (∀ x ∈ t.addrs b, x ≠ e.addr) → (t.hashDel e.addr).addrs b = t.addrs b := by
    intro b hb
    rw [HashTable.addrs_hashDel, List.filter_eq_self]
    intro x hx
    exact bne_iff_ne.mpr (hb x hx)
  have hself : (t.hashDel e.addr).addrs e.bucket = xs ++ ys := by
    have hcut := List.nodup_middle.mp hnodup
    have hne : ∀ x ∈ xs ++ ys, (x != e.addr) = true := fun x hx =>
      bne_iff_ne.mpr (ne_of_mem_of_not_mem hx (List.nodup_cons.mp hcut).1)
    rw [HashTable.addrs_hashDel, hsplit, List.filter_append, List.filter_cons, bne_self_eq_false,
      if_neg Bool.false_ne_true, ← List.filter_append]
    exact List.filter_eq_self.mpr hne
  have hother : ∀ b, b ≠ e.bucket → Chain (l.del e.addr).next ((l.del e.addr).first b) (t.addrs b) ∧
      Back (l.del e.addr).pprev (.first b) (t.addrs b) := by
    intro b hb
    have hout : ∀ x ∈ t.addrs b, ∀ z ∈ t.addrs e.bucket, x ≠ z := by
      rintro x hx z hz rfl
      exact hb (hu.bucket_eq hx hz)
    rw [hsplit] at hout
    have hfrontOut : front ≠ .first b ∧ ∀ x ∈ t.addrs b, front ≠ .next x := by
      rcases hor with rfl | ⟨z, hz, rfl⟩
      · exact ⟨fun heq => hb (Slot.first.inj heq).symm, fun _ _ => nofun⟩
      · refine ⟨nofun, fun x hx heq => ?_⟩
        exact hout x hx z (List.mem_append_left _ hz) (Slot.next.inj heq).symm
    have hnexts : ∀ x ∈ t.addrs b, (l.del e.addr).next x = l.next x := by
      intro x hx
      have hxa : x ≠ e.addr := hout x hx _ (List.mem_append_right _ List.mem_cons_self)
      have hload := load_del hfront (.next x)
      rwa [if_neg (fun heq => hxa (Slot.next.inj heq)), if_neg (hfrontOut.2 x hx).symm] at hload
    have hfirst : (l.del e.addr).first b = l.first b := by
      have hload := load_del hfront (.first b)
      rwa [if_neg (nofun), if_neg hfrontOut.1.symm] at hload
    refine ⟨?_, (hback b).congr fun x hx => ?_⟩
    · rw [hfirst]
      exact (h b).congr hnexts
    · have hxa : x ≠ e.addr := hout x hx _ (List.mem_append_right _ List.mem_cons_self)
      have hxy : l.next e.addr ≠ some x := by
        rw [hnext]
        intro hhead
        have hys : x ∈ ys := List.mem_of_mem_head? hhead
        exact hout x hx x (List.mem_append_right _ (List.mem_cons_of_mem _ hys)) rfl
      rw [pprev_del hfront, if_neg hxa, if_neg hxy]
  refine ⟨fun b => ?_, fun b => ?_⟩
  · by_cases hb : b = e.bucket
    · rw [hb, hself]
      exact hchain'
    · rw [hkeeps b fun x hx hxa => hb (hu.bucket_eq (hxa ▸ hx) hmem)]
      exact (hother b hb).1
  · by_cases hb : b = e.bucket
    · rw [hb, hself]
      exact hpprev'
    · rw [hkeeps b fun x hx hxa => hb (hu.bucket_eq (hxa ▸ hx) hmem)]
      exact (hother b hb).2

/-- Any removals, one after the other. -/
theorem represents_dels (h : Represents l t) (hback : Backed l t) (hu : t.UniqueAddr)
    (hnodup : as.Nodup) (has : ∀ a ∈ as, ∃ e ∈ t, e.addr = a) :
    Represents (as.foldl Links.del l) (as.foldl HashTable.hashDel t) ∧
      Backed (as.foldl Links.del l) (as.foldl HashTable.hashDel t) := by
  induction as generalizing l t with
  | nil => exact ⟨h, hback⟩
  | cons a as ih =>
    obtain ⟨ha, hrest⟩ := List.nodup_cons.mp hnodup
    obtain ⟨e, he, rfl⟩ := has a List.mem_cons_self
    obtain ⟨h', hback'⟩ := represents_del h hback hu he
    refine ih h' hback' (hu.hashDel e.addr) hrest fun x hx => ?_
    obtain ⟨y, hy, rfl⟩ := has x (List.mem_cons_of_mem _ hx)
    exact ⟨y, HashTable.mem_hashDel.mpr ⟨hy, ne_of_mem_of_not_mem hx ha⟩, rfl⟩

end LinuxFibers.Lib
