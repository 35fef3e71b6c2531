import Mathlib.Data.List.Nodup
import Mathlib.Data.Nat.Notation

/-!
# Tickets

A dispenser gives out the tickets 1, 2, 3 and so on, and gives at most one to each
holder.  It is the list of its holders in the order in which they were served.
-/

namespace LinuxFibers.Lib

/-- The holders, the first one first. -/
structure Dispenser (ι : Type) where
  holders : List ι
  nodup : holders.Nodup

namespace Dispenser

variable {ι : Type}

/-- Nobody has a ticket. -/
def empty : Dispenser ι := ⟨[], List.nodup_nil⟩

/-- The next ticket goes to somebody who has none. -/
def serve (d : Dispenser ι) (i : ι) (h : i ∉ d.holders) : Dispenser ι where
  holders := d.holders ++ [i]
  nodup := List.nodup_append_comm.mp (List.nodup_cons.mpr ⟨h, d.nodup⟩)

/-- One move of the dispenser: it waits or serves. -/
inductive Moves (d : Dispenser ι) : Dispenser ι → Prop where
  | waits : Moves d d
  | serves (i : ι) (h : i ∉ d.holders) : Moves d (d.serve i h)

/-- The number of tickets that were given out. -/
def served (d : Dispenser ι) : ℕ := d.holders.length

@[simp] theorem served_serve (d : Dispenser ι) {i : ι} (h : i ∉ d.holders) :
    (d.serve i h).served = d.served + 1 :=
  List.length_append

variable [DecidableEq ι] {d : Dispenser ι} {i j : ι}

/-- The ticket of a holder. -/
def ticket (d : Dispenser ι) (i : ι) : ℕ := d.holders.idxOf i + 1

theorem ticket_serve_self (h : i ∉ d.holders) : (d.serve i h).ticket i = d.served + 1 := by
  rw [ticket, serve, List.idxOf_append_of_notMem h, List.idxOf_cons_self]
  rfl

/-- A holder keeps the ticket. -/
theorem ticket_serve_of_mem (h : i ∉ d.holders) (hj : j ∈ d.holders) :
    (d.serve i h).ticket j = d.ticket j := by
  rw [ticket, serve, List.idxOf_append_of_mem hj, ticket]

theorem ticket_le (h : i ∈ d.holders) : d.ticket i ≤ d.served :=
  List.idxOf_lt_length_of_mem h

theorem eq_of_ticket_eq (hi : i ∈ d.holders) (h : d.ticket i = d.ticket j) : i = j :=
  (List.idxOf_inj hi).mp (Nat.succ_inj.mp h)

/-- Every ticket up to the last one has a holder. -/
theorem exists_ticket {k : ℕ} (hpos : 0 < k) (hk : k ≤ d.served) :
    ∃ i, i ∈ d.holders ∧ d.ticket i = k := by
  have hlt : k - 1 < d.holders.length := show k - 1 < d.served by omega
  refine ⟨d.holders[k - 1], List.getElem_mem hlt, ?_⟩
  rw [ticket, d.nodup.idxOf_getElem (k - 1) hlt]
  omega

/-- A dispenser has served the numbers below `n` and nobody else. -/
theorem served_of_mem_iff {d : Dispenser ℕ} {n : ℕ} (h : ∀ t, t ∈ d.holders ↔ t < n) :
    d.served = n := by
  have hperm : d.holders.Perm (List.range n) :=
    (List.perm_ext_iff_of_nodup d.nodup List.nodup_range).mpr fun t =>
      (h t).trans List.mem_range.symm
  rw [served, hperm.length_eq, List.length_range]

end Dispenser

end LinuxFibers.Lib
