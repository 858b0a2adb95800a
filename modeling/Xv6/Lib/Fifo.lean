import Mathlib.Data.Nat.ModEq
import Mathlib.Tactic.Common

/-!
# Rings with wrapping counters

A ring of `N` cells with a read and a write counter of `w` bits that are never reset: a cell is found by
the counter modulo `N`. When `N` divides `2 ^ w` the ring is a queue no matter how often the counters have
wrapped.
-/

structure Fifo (α : Type*) (w N : Nat) where
  data : Fin N → α
  nread : BitVec w
  nwrite : BitVec w

namespace Fifo

variable {α : Type*} {w N : Nat} [NeZero N] (f : Fifo α w N)

/-- The number of cells in use. -/
def count : Nat := (f.nwrite - f.nread).toNat

/-- The cells in use, from the first one written on. -/
def contents : List α := (List.range f.count).map fun i => f.data (Fin.ofNat N (f.nread.toNat + i))

def push (x : α) : Fifo α w N :=
  { f with
    data := Function.update f.data (Fin.ofNat N f.nwrite.toNat) x
    nwrite := f.nwrite + 1 }

def front : α := f.data (Fin.ofNat N f.nread.toNat)

def pop : Fifo α w N := { f with nread := f.nread + 1 }

/-- The last cell written is given up. -/
def retract : Fifo α w N := { f with nwrite := f.nwrite - 1 }

variable {f}

omit [NeZero N] in
theorem count_eq_zero_iff : f.count = 0 ↔ f.nread = f.nwrite := by
  rw [count]
  constructor
  · intro zero
    have same : f.nwrite - f.nread = 0 := BitVec.eq_of_toNat_eq (by simpa using zero)
    simpa [same] using BitVec.sub_add_cancel f.nwrite f.nread
  · intro same
    simp [same]

theorem contents_of_count_eq_zero (empty : f.count = 0) : f.contents = [] := by
  rw [contents, empty, List.range_zero, List.map_nil]

omit [NeZero N] in
theorem count_lt : f.count < 2 ^ w := BitVec.isLt _

omit [NeZero N] in
theorem count_eq_iff (small : N < 2 ^ w) : f.count = N ↔ f.nwrite = f.nread + BitVec.ofNat w N := by
  rw [count]
  constructor
  · intro full
    have same : f.nwrite - f.nread = BitVec.ofNat w N :=
      BitVec.eq_of_toNat_eq (by rw [full, BitVec.toNat_ofNat, Nat.mod_eq_of_lt small])
    rw [← same, BitVec.add_comm, BitVec.sub_add_cancel]
  · intro full
    rw [full, BitVec.add_comm, BitVec.add_sub_cancel, BitVec.toNat_ofNat, Nat.mod_eq_of_lt small]

omit [NeZero N] in
/-- The write counter, from the read counter and the number of cells in use. -/
theorem nwrite_eq : f.nwrite.toNat = (f.nread.toNat + f.count) % 2 ^ w := by
  have same : f.nwrite = f.nread + (f.nwrite - f.nread) := by rw [BitVec.add_comm, BitVec.sub_add_cancel]
  calc f.nwrite.toNat = (f.nread + (f.nwrite - f.nread)).toNat := by rw [← same]
    _ = (f.nread.toNat + f.count) % 2 ^ w := BitVec.toNat_add _ _

/-- Cells at a distance of less than `N` are different. -/
theorem cell_ne {a i j : Nat} (less : i < j) (near : j < i + N) : Fin.ofNat N (a + i) ≠ Fin.ofNat N (a + j) := by
  intro same
  have equal : (a + i) % N = (a + j) % N := congrArg Fin.val same
  have divides : N ∣ (a + j) - (a + i) := (Nat.modEq_iff_dvd' (by omega)).mp equal
  have := Nat.le_of_dvd (by omega) divides
  omega

/-- A counter that has wrapped still finds the same cell. -/
theorem cell_mod (divides : N ∣ 2 ^ w) (a : Nat) : Fin.ofNat N (a % 2 ^ w) = Fin.ofNat N a :=
  Fin.ext (Nat.mod_mod_of_dvd a divides)

private theorem toNat_one (wide : 1 < 2 ^ w) : (1 : BitVec w).toNat = 1 := by
  rw [show (1 : BitVec w) = BitVec.ofNat w 1 from rfl, BitVec.toNat_ofNat, Nat.mod_eq_of_lt wide]

theorem count_push (small : N < 2 ^ w) (room : f.count < N) (x : α) : (f.push x).count = f.count + 1 := by
  have split : f.nwrite + 1 - f.nread = f.nwrite - f.nread + 1 := by
    rw [BitVec.sub_eq_add_neg, BitVec.sub_eq_add_neg, BitVec.add_assoc, BitVec.add_comm 1, ← BitVec.add_assoc]
  have one : (1 : BitVec w).toNat = 1 := toNat_one (by omega)
  calc (f.push x).count = (f.nwrite - f.nread + 1).toNat := congrArg BitVec.toNat split
    _ = (f.count + 1) % 2 ^ w := by rw [BitVec.toNat_add, one, count]
    _ = f.count + 1 := Nat.mod_eq_of_lt (by omega)

theorem contents_push (divides : N ∣ 2 ^ w) (small : N < 2 ^ w) (room : f.count < N) (x : α) :
    (f.push x).contents = f.contents ++ [x] := by
  have last : Fin.ofNat N f.nwrite.toNat = Fin.ofNat N (f.nread.toNat + f.count) := by
    rw [nwrite_eq, cell_mod divides]
  rw [contents, count_push small room, List.range_succ, List.map_append, List.map_singleton]
  congr 1
  · -- the cell written lies behind those in use
    refine List.map_congr_left fun i inside => ?_
    have before : i < f.count := List.mem_range.mp inside
    have apart : Fin.ofNat N (f.nread.toNat + i) ≠ Fin.ofNat N f.nwrite.toNat := by
      rw [last]
      exact cell_ne before (by omega)
    exact Function.update_of_ne apart x f.data
  · have written : (f.push x).data (Fin.ofNat N f.nwrite.toNat) = x := Function.update_self _ _ _
    have cell : Fin.ofNat N ((f.push x).nread.toNat + f.count) = Fin.ofNat N f.nwrite.toNat := last.symm
    rw [cell, written]

omit [NeZero N] in
private theorem toNat_sub_one (used : f.count ≠ 0) : (f.nwrite - f.nread - 1).toNat = f.count - 1 := by
  have bound : f.count < 2 ^ w := count_lt
  have one : (1 : BitVec w).toNat = 1 := toNat_one (by omega)
  calc (f.nwrite - f.nread - 1).toNat = (2 ^ w - 1 + f.count) % 2 ^ w := by rw [BitVec.toNat_sub, one, count]
    _ = f.count - 1 := by
      rw [show 2 ^ w - 1 + f.count = f.count - 1 + 2 ^ w by omega, Nat.add_mod_right, Nat.mod_eq_of_lt (by omega)]

omit [NeZero N] in
theorem count_pop (used : f.count ≠ 0) : f.pop.count = f.count - 1 := by
  have split : f.nwrite - (f.nread + 1) = f.nwrite - f.nread - 1 := by
    rw [BitVec.sub_eq_add_neg, BitVec.sub_eq_add_neg, BitVec.sub_eq_add_neg, BitVec.neg_add, BitVec.sub_eq_add_neg,
      BitVec.add_assoc]
  exact (congrArg BitVec.toNat split).trans (toNat_sub_one used)

theorem contents_pop (divides : N ∣ 2 ^ w) (used : f.count ≠ 0) : f.contents = f.front :: f.pop.contents := by
  obtain ⟨n, size⟩ := Nat.exists_eq_succ_of_ne_zero used
  have bound : f.count < 2 ^ w := count_lt
  have one : (1 : BitVec w).toNat = 1 := toNat_one (by omega)
  rw [contents, contents, count_pop used, size, List.range_succ_eq_map, List.map_cons, List.map_map, Nat.succ_sub_one]
  congr 1
  refine List.map_congr_left fun i _ => ?_
  -- the next read counter may have wrapped to zero
  have next : f.pop.nread.toNat = (f.nread.toNat + 1) % 2 ^ w := by rw [pop, BitVec.toNat_add, one]
  have cell : Fin.ofNat N (f.pop.nread.toNat + i) = Fin.ofNat N (f.nread.toNat + (i + 1)) := by
    rw [← cell_mod divides, next, Nat.mod_add_mod, cell_mod divides, Nat.add_assoc, Nat.add_comm 1]
  rw [Function.comp_apply, cell, pop]

omit [NeZero N] in
theorem count_retract (used : f.count ≠ 0) : f.retract.count = f.count - 1 := by
  have split : f.nwrite - 1 - f.nread = f.nwrite - f.nread - 1 := by
    rw [BitVec.sub_eq_add_neg, BitVec.sub_eq_add_neg, BitVec.sub_eq_add_neg, BitVec.sub_eq_add_neg, BitVec.add_assoc,
      BitVec.add_comm (-1), ← BitVec.add_assoc]
  exact (congrArg BitVec.toNat split).trans (toNat_sub_one used)

theorem contents_retract (divides : N ∣ 2 ^ w) (used : f.count ≠ 0) :
    f.contents = f.retract.contents ++ [f.data (Fin.ofNat N (f.nwrite - 1).toNat)] := by
  obtain ⟨n, size⟩ := Nat.exists_eq_succ_of_ne_zero used
  have less : f.retract.count = n := by rw [count_retract used, size, Nat.succ_sub_one]
  have last : Fin.ofNat N (f.nwrite - 1).toNat = Fin.ofNat N (f.nread.toNat + n) := by
    have counter : (f.nwrite - 1).toNat = (f.nread.toNat + n) % 2 ^ w := less ▸ nwrite_eq (f := f.retract)
    rw [counter, cell_mod divides]
  rw [contents, contents, less, size, List.range_succ, List.map_append, List.map_singleton, last]
  rfl

@[simp] theorem length_contents : f.contents.length = f.count := by
  rw [contents, List.length_map, List.length_range]

/-- A ring that is read up to an earlier counter shows the first of its cells. -/
theorem contents_until {k : BitVec w} (early : (k - f.nread).toNat ≤ f.count) :
    ({ f with nwrite := k } : Fifo α w N).contents = f.contents.take (k - f.nread).toNat := by
  rw [contents, contents, ← List.map_take, List.take_range, Nat.min_eq_left early]
  rfl

end Fifo
