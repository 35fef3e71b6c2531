import Mathlib.Data.Nat.Notation
import Mathlib.Data.List.Basic
import Mathlib.Logic.Function.Basic

/-!
# Doubly linked lists in a heap

Nodes at addresses, each with a value and two pointers.  A list is read from
its head through `prev`, and `next` leads back to the head.

* `Seg h above head ns tail` says that the heap has the nodes `ns` in this
  order, each as its address and value: the first is at `head`, its `next` is
  `above`, and the `prev` of the last is `tail`.  A whole list is a segment with
  `none` on both ends.
* `Seg.append` cuts a segment, `Seg.congr` moves it to another heap that agrees
  on its addresses, and `Seg.push`, `Seg.pop` and `Seg.unlink` are what the
  writes of an insertion and of the two cases of a removal leave.
* `forEach` and `find?` are the two loops over a list.  They have fuel, and they
  return on a segment that is not longer than it.
-/

namespace LinuxFibers.Lib.LinkedList

variable {α β γ : Type}

/-- A node. -/
structure Node (α : Type) where
  value : α
  next : Option ℕ
  prev : Option ℕ

/-- The nodes that are allocated. -/
abbrev Heap (α : Type) := ℕ → Option (Node α)

/-- What stops a loop: an address without a node, or a list without an end. -/
inductive Stuck where
  | dangling
  | endless
  deriving DecidableEq

/-- The node at an address. -/
def load (h : Heap α) (a : ℕ) : Except Stuck (Node α) :=
  match h a with
  | none => .error .dangling
  | some c => .ok c

/-- The write of `next`, unless the pointer is null. -/
def setNext (h : Heap α) (p next : Option ℕ) : Except Stuck (Heap α) :=
  match p with
  | none => .ok h
  | some a => do
      let c ← load h a
      return Function.update h a (some { c with next := next })

/-- The write of `prev`, unless the pointer is null. -/
def setPrev (h : Heap α) (p prev : Option ℕ) : Except Stuck (Heap α) :=
  match p with
  | none => .ok h
  | some a => do
      let c ← load h a
      return Function.update h a (some { c with prev := prev })

/-- The release of a node. -/
def free (h : Heap α) (a : ℕ) : Heap α := Function.update h a none

/-- The loop over a list that changes the values of its nodes. -/
def forEach (f : ℕ → α → β → α × β) : ℕ → Heap α → Option ℕ → β → Except Stuck (Heap α × β)
  | _, h, none, b => .ok (h, b)
  | 0, _, some _, _ => .error .endless
  | fuel + 1, h, some a, b => do
      let c ← load h a
      let (v, b) := f a c.value b
      forEach f fuel (Function.update h a (some { c with value := v })) c.prev b

/-- The loop over a list that looks for a node. -/
def find? (p : α → Bool) : ℕ → Heap α → Option ℕ → Except Stuck (Option ℕ)
  | _, _, none => .ok none
  | 0, _, some _ => .error .endless
  | fuel + 1, h, some a => do
      let c ← load h a
      if p c.value then .ok (some a) else find? p fuel h c.prev

/-! ## Segments -/

/-- The nodes of a part of a list. -/
def Seg (h : Heap α) : Option ℕ → Option ℕ → List (ℕ × α) → Option ℕ → Prop
  | _, head, [], tail => head = tail
  | above, head, (a, v) :: ns, tail =>
      head = some a ∧ ∃ prev, h a = some ⟨v, above, prev⟩ ∧ Seg h (some a) prev ns tail

/-- What the `next` of a node behind a segment is. -/
def bottom : Option ℕ → List (ℕ × α) → Option ℕ
  | above, [] => above
  | _, (a, _) :: ns => bottom (some a) ns

variable {h h' : Heap α} {above above' head tail : Option ℕ} {ns xs ys : List (ℕ × α)}
  {a : ℕ} {v : α} {c : Node α}

theorem load_of_some (hc : h a = some c) : load h a = .ok c := by
  simp [load, hc]

theorem Seg.append : Seg h above head (xs ++ ys) tail ↔
    ∃ mid, Seg h above head xs mid ∧ Seg h (bottom above xs) mid ys tail := by
  induction xs generalizing above head with
  | nil =>
    constructor
    · intro hs
      exact ⟨head, rfl, hs⟩
    · rintro ⟨mid, hmid, hs⟩
      have hmid : head = mid := hmid
      rw [hmid]
      exact hs
  | cons x xs ih =>
    constructor
    · rintro ⟨hhead, prev, hx, hs⟩
      obtain ⟨mid, hxs, hys⟩ := ih.mp hs
      exact ⟨mid, ⟨hhead, prev, hx, hxs⟩, hys⟩
    · rintro ⟨mid, ⟨hhead, prev, hx, hxs⟩, hys⟩
      exact ⟨hhead, prev, hx, ih.mpr ⟨mid, hxs, hys⟩⟩

/-- A segment reads the nodes at its addresses only. -/
theorem Seg.congr (hs : Seg h above head ns tail)
    (heq : ∀ b ∈ ns.map Prod.fst, h' b = h b) : Seg h' above head ns tail := by
  induction ns generalizing above head with
  | nil => exact hs
  | cons x ns ih =>
    obtain ⟨hhead, prev, hx, hns⟩ := hs
    have hx' : h' x.1 = h x.1 := heq x.1 List.mem_cons_self
    exact ⟨hhead, prev, hx'.trans hx, ih hns fun b hb => heq b (List.mem_cons_of_mem _ hb)⟩

/-- A write beside a segment. -/
theorem Seg.update (hs : Seg h above head ns tail) (ha : a ∉ ns.map Prod.fst)
    (c : Option (Node α)) : Seg (Function.update h a c) above head ns tail :=
  hs.congr fun _ hb => Function.update_of_ne (ne_of_mem_of_not_mem hb ha) c h

/-! ## Insertion and removal -/

/-- The write of the `next` of the first node. -/
theorem Seg.setNext (hs : Seg h above head ns tail) (hnd : (ns.map Prod.fst).Nodup)
    (htail : ns = [] → tail = none) (above' : Option ℕ) :
    ∃ h', setNext h head above' = .ok h' ∧ Seg h' above' head ns tail ∧
      ∀ b, b ∉ ns.map Prod.fst → h' b = h b := by
  cases ns with
  | nil =>
    have hhead : head = none := Eq.trans hs (htail rfl)
    rw [hhead]
    exact ⟨h, rfl, (htail rfl).symm, fun _ _ => rfl⟩
  | cons x ns =>
    obtain ⟨hhead, prev, hx, hns⟩ := hs
    have hnd := List.nodup_cons.mp hnd
    rw [hhead]
    refine ⟨_, by simp only [LinkedList.setNext, load_of_some hx]; rfl, ⟨rfl, prev, ?_, ?_⟩, ?_⟩
    · exact Function.update_self _ _ _
    · exact hns.update hnd.1 _
    · intro b hb
      have hne : b ≠ x.1 := fun heq => hb (heq ▸ List.mem_cons_self)
      exact Function.update_of_ne hne _ _

/-- A new node on top of a list. -/
theorem Seg.push (hs : Seg h none head ns none) (hnd : (ns.map Prod.fst).Nodup)
    (ha : a ∉ ns.map Prod.fst) (v : α) :
    ∃ h', LinkedList.setNext (Function.update h a (some ⟨v, none, head⟩)) head (some a) = .ok h' ∧
      h' a = some ⟨v, none, head⟩ ∧ Seg h' (some a) head ns none ∧
      ∀ b, b ≠ a → b ∉ ns.map Prod.fst → h' b = h b := by
  obtain ⟨h', hset, hns, hframe⟩ := (hs.update ha (some ⟨v, none, head⟩)).setNext hnd
    (fun _ => rfl) (some a)
  refine ⟨h', hset, ?_, hns, fun b hb hb' => ?_⟩
  · rw [hframe a ha, Function.update_self]
  · rw [hframe b hb', Function.update_of_ne hb]

/-- The removal of the first node. -/
theorem Seg.pop (hs : Seg h none head ((a, v) :: ns) none)
    (hnd : (((a, v) :: ns).map Prod.fst).Nodup) :
    ∃ c h', head = some a ∧ h a = some c ∧ c.value = v ∧ c.next = none ∧
      LinkedList.setNext h c.prev none = .ok h' ∧ Seg (free h' a) none c.prev ns none ∧
      ∀ b, b ≠ a → b ∉ ns.map Prod.fst → free h' a b = h b := by
  obtain ⟨hhead, prev, hx, hns⟩ := hs
  have hnd := List.nodup_cons.mp hnd
  obtain ⟨h', hset, hns', hframe⟩ := hns.setNext hnd.2 (fun _ => rfl) none
  refine ⟨_, h', hhead, hx, rfl, rfl, hset, hns'.update hnd.1 none, fun b hb hb' => ?_⟩
  rw [free, Function.update_of_ne hb, hframe b hb']

/-- The write of the `prev` of the last node. -/
theorem Seg.setPrev (hs : Seg h above head xs tail) (hne : xs ≠ [])
    (hnd : (xs.map Prod.fst).Nodup) (tail' : Option ℕ) :
    ∃ h', LinkedList.setPrev h (bottom above xs) tail' = .ok h' ∧ Seg h' above head xs tail' ∧
      ∀ b, b ∉ xs.map Prod.fst → h' b = h b := by
  induction xs generalizing above head with
  | nil => exact absurd rfl hne
  | cons x xs ih =>
    obtain ⟨hhead, prev, hx, hxs⟩ := hs
    have hnd := List.nodup_cons.mp hnd
    cases xs with
    | nil =>
      refine ⟨_, by simp only [bottom, LinkedList.setPrev, load_of_some hx]; rfl,
        ⟨hhead, tail', Function.update_self _ _ _, rfl⟩, fun b hb => ?_⟩
      have hne : b ≠ x.1 := fun heq => hb (heq ▸ List.mem_cons_self)
      exact Function.update_of_ne hne _ _
    | cons y ys =>
      obtain ⟨h', hset, hxs', hframe⟩ := ih hxs (List.cons_ne_nil y ys) hnd.2
      refine ⟨h', hset, ⟨hhead, prev, (hframe x.1 hnd.1).trans hx, hxs'⟩, fun b hb => ?_⟩
      exact hframe b fun hmem => hb (List.mem_cons_of_mem _ hmem)

/-- The removal of a node that is not the first. -/
theorem Seg.unlink (hs : Seg h none head (xs ++ (a, v) :: ys) none) (hne : xs ≠ [])
    (hnd : ((xs ++ (a, v) :: ys).map Prod.fst).Nodup) :
    ∃ c h₁ h₂, h a = some c ∧ c.value = v ∧ head ≠ some a ∧
      LinkedList.setPrev h c.next c.prev = .ok h₁ ∧ h₁ a = some c ∧
      LinkedList.setNext h₁ c.prev c.next = .ok h₂ ∧
      Seg (free h₂ a) none head (xs ++ ys) none ∧
      ∀ b, b ∉ (xs ++ (a, v) :: ys).map Prod.fst → free h₂ a b = h b := by
  obtain ⟨mid, hxs, _, prev, ha, hys⟩ := Seg.append.mp hs
  rw [List.map_append, List.map_cons, List.nodup_append] at hnd
  obtain ⟨hndx, hnda, hdisj⟩ := hnd
  have hnda := List.nodup_cons.mp hnda
  have hax : a ∉ xs.map Prod.fst := fun hmem => hdisj a hmem a List.mem_cons_self rfl
  have hyx : ∀ b ∈ ys.map Prod.fst, b ∉ xs.map Prod.fst :=
    fun b hb hmem => hdisj b hmem b (List.mem_cons_of_mem _ hb) rfl
  obtain ⟨h₁, hset₁, hxs₁, hframe₁⟩ := hxs.setPrev hne hndx prev
  have hys₁ : Seg h₁ (some a) prev ys none := hys.congr fun b hb => hframe₁ b (hyx b hb)
  obtain ⟨h₂, hset₂, hys₂, hframe₂⟩ := hys₁.setNext hnda.2 (fun _ => rfl) (bottom none xs)
  have hxs₂ : Seg h₂ none head xs prev :=
    hxs₁.congr fun b hb => hframe₂ b fun hmem => hyx b hmem hb
  have hhead : head ≠ some a := by
    cases xs with
    | nil => exact absurd rfl hne
    | cons x xs =>
      intro heq
      have hx : some x.1 = some a := hxs.1.symm.trans heq
      exact hax (Option.some.inj hx ▸ List.mem_cons_self)
  refine ⟨_, h₁, h₂, ha, rfl, hhead, hset₁, (hframe₁ a hax).trans ha, hset₂, ?_, fun b hb => ?_⟩
  · refine Seg.append.mpr ⟨prev, hxs₂.update hax none, ?_⟩
    exact hys₂.update hnda.1 none
  · have hb : b ∉ xs.map Prod.fst ∧ b ≠ a ∧ b ∉ ys.map Prod.fst := by
      simpa only [List.map_append, List.map_cons, List.mem_append, List.mem_cons, not_or] using hb
    rw [free, Function.update_of_ne hb.2.1, hframe₂ b hb.2.2, hframe₁ b hb.1]

/-! ## Loops -/

/-- What `forEach` does with the nodes of a segment. -/
def walk (f : ℕ → α → β → α × β) : List (ℕ × α) → β → List (ℕ × α) × β
  | [], b => ([], b)
  | (a, v) :: ns, b =>
      let r := f a v b
      let rest := walk f ns r.2
      ((a, r.1) :: rest.1, rest.2)

/-- A walk leaves the nodes in place, with all of their values that the body keeps. -/
theorem map_walk (f : ℕ → α → β → α × β) (ns : List (ℕ × α)) (b : β) (g : ℕ × α → γ)
    (hg : ∀ a v b, g (a, (f a v b).1) = g (a, v)) : (walk f ns b).1.map g = ns.map g := by
  induction ns generalizing b with
  | nil => rfl
  | cons x ns ih => simp only [walk, List.map_cons, ih, hg]

theorem map_fst_walk (f : ℕ → α → β → α × β) (ns : List (ℕ × α)) (b : β) :
    (walk f ns b).1.map Prod.fst = ns.map Prod.fst :=
  map_walk f ns b Prod.fst fun _ _ _ => rfl

/-- `forEach` on a segment is the walk over its nodes. -/
theorem Seg.forEach_eq_walk (f : ℕ → α → β → α × β) {fuel : ℕ} (hs : Seg h above head ns none)
    (hnd : (ns.map Prod.fst).Nodup) (hfuel : ns.length ≤ fuel) (b : β) :
    ∃ h', LinkedList.forEach f fuel h head b = .ok (h', (walk f ns b).2) ∧
      Seg h' above head (walk f ns b).1 none ∧ ∀ a, a ∉ ns.map Prod.fst → h' a = h a := by
  induction ns generalizing h above head b fuel with
  | nil =>
    have hhead : head = none := hs
    rw [hhead]
    exact ⟨h, by cases fuel <;> rfl, rfl, fun _ _ => rfl⟩
  | cons x ns ih =>
    obtain ⟨hhead, prev, hx, hns⟩ := hs
    have hnd := List.nodup_cons.mp hnd
    cases fuel with
    | zero => exact absurd hfuel (by simp)
    | succ fuel =>
      have hfuel : ns.length ≤ fuel := by simpa using hfuel
      let r := f x.1 x.2 b
      obtain ⟨h', hrun, hns', hframe⟩ :=
        ih (hns.update hnd.1 (some ⟨r.1, above, prev⟩)) hnd.2 hfuel r.2
      have hx' : h' x.1 = some ⟨r.1, above, prev⟩ := by
        rw [hframe x.1 hnd.1, Function.update_self]
      refine ⟨h', ?_, ⟨hhead, prev, hx', hns'⟩, fun c hc => ?_⟩
      · rw [hhead]
        simp only [LinkedList.forEach, load_of_some hx]
        exact hrun
      · have hc : c ≠ x.1 ∧ c ∉ ns.map Prod.fst := by
          simpa only [List.map_cons, List.mem_cons, not_or] using hc
        rw [hframe c hc.2, Function.update_of_ne hc.1]

/-- The same for a part of the values that the body keeps. -/
theorem Seg.forEach (f : ℕ → α → β → α × β) {fuel : ℕ} (hs : Seg h above head ns none)
    (hnd : (ns.map Prod.fst).Nodup) (hfuel : ns.length ≤ fuel) (b : β)
    (g : α → γ) (hg : ∀ a v b, g (f a v b).1 = g v) :
    ∃ h' b' ns', LinkedList.forEach f fuel h head b = .ok (h', b') ∧ Seg h' above head ns' none ∧
      ns'.map (fun n => (n.1, g n.2)) = ns.map (fun n => (n.1, g n.2)) ∧
      ∀ b, b ∉ ns.map Prod.fst → h' b = h b := by
  obtain ⟨h', hrun, hns, hframe⟩ := hs.forEach_eq_walk f hnd hfuel b
  have hkeep : ∀ a v b, (a, g (f a v b).1) = (a, g v) := fun a v b => by rw [hg]
  exact ⟨h', _, _, hrun, hns, map_walk f ns b (fun n => (n.1, g n.2)) hkeep, hframe⟩

/-- A search in a segment returns its first node with the property. -/
theorem Seg.find? (p : α → Bool) {fuel : ℕ} (hs : Seg h above head ns none)
    (hfuel : ns.length ≤ fuel) :
    LinkedList.find? p fuel h head = .ok ((ns.find? fun n => p n.2).map Prod.fst) := by
  induction ns generalizing above head fuel with
  | nil =>
    have hhead : head = none := hs
    rw [hhead]
    cases fuel <;> rfl
  | cons x ns ih =>
    obtain ⟨hhead, prev, hx, hns⟩ := hs
    cases fuel with
    | zero => exact absurd hfuel (by simp)
    | succ fuel =>
      have hfuel : ns.length ≤ fuel := by simpa using hfuel
      rw [hhead, LinkedList.find?, load_of_some hx, List.find?_cons]
      show (if p x.2 = true then _ else _) = _
      split
      · rename_i hp
        rw [hp]
        rfl
      · rename_i hp
        rw [ih hns hfuel, Bool.eq_false_iff.mpr hp]

/-! ## One list -/

/-- Two heaps with the same list have the same nodes at its addresses. -/
theorem Seg.eq_of_mem (hs : Seg h above head ns tail) (hs' : Seg h' above head ns tail) :
    ∀ a ∈ ns.map Prod.fst, h a = h' a := by
  induction ns generalizing above head with
  | nil => exact fun a ha => absurd ha List.not_mem_nil
  | cons x ns ih =>
    obtain ⟨_, prev, hx, hns⟩ := hs
    obtain ⟨_, prev', hx', hns'⟩ := hs'
    have hprev : prev = prev' := by
      cases ns with
      | nil => exact Eq.trans hns (Eq.symm hns')
      | cons y ns => exact hns.1.trans hns'.1.symm
    subst hprev
    intro a ha
    rcases List.mem_cons.mp ha with rfl | ha
    · exact hx.trans hx'.symm
    · exact ih hns hns' a ha

/-- A head leads to one list. -/
theorem Seg.nodes_unique (hs : Seg h above head xs none) (hs' : Seg h above head ys none) :
    xs = ys := by
  induction xs generalizing above head ys with
  | nil =>
    have hhead : head = none := hs
    cases ys with
    | nil => rfl
    | cons y ys =>
      have hy : head = some y.1 := hs'.1
      rw [hhead] at hy
      cases hy
  | cons x xs ih =>
    obtain ⟨hhead, prev, hx, hxs⟩ := hs
    cases ys with
    | nil =>
      have hnone : head = none := hs'
      rw [hhead] at hnone
      cases hnone
    | cons y ys =>
      obtain ⟨hhead', prev', hy, hys⟩ := hs'
      obtain ⟨a, v⟩ := x
      obtain ⟨b, w⟩ := y
      obtain rfl : a = b := Option.some.inj (hhead.symm.trans hhead')
      rw [hx] at hy
      cases hy
      rw [ih hxs hys]

/-- A list has one head. -/
theorem Seg.head_unique {head' : Option ℕ} (hs : Seg h above head ns tail)
    (hs' : Seg h' above' head' ns tail) : head = head' := by
  cases ns with
  | nil => exact Eq.trans hs (Eq.symm hs')
  | cons x ns => exact hs.1.trans hs'.1.symm

end LinuxFibers.Lib.LinkedList
