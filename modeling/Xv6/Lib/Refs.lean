import Mathlib.Algebra.BigOperators.Ring.Finset
import Mathlib.Algebra.Order.Group.Int
import Mathlib.Data.Fintype.Card
import Mathlib.Tactic.Common

/-!
# Reference counts

Pointers `g : ι → Option β` from finitely many places to objects. `count g b` is the number of
places that point to `b`; `mark x` counts the single pointer `x`. An assignment to one place
takes the old pointer out of the count and puts the new one in.
-/

namespace Refs

open Function (update)

/-- Only the summand of `i` changes. -/
theorem sum_of_others {ι : Type*} [Fintype ι] [DecidableEq ι] {f g : ι → Nat} {i : ι}
    (others : ∀ j, j ≠ i → g j = f j) : (∑ j, g j) + f i = (∑ j, f j) + g i := by
  have rest : ∑ j ∈ Finset.univ.erase i, g j = ∑ j ∈ Finset.univ.erase i, f j :=
    Finset.sum_congr rfl fun j member => others j (Finset.ne_of_mem_erase member)
  rw [← Finset.add_sum_erase _ _ (Finset.mem_univ i), ← Finset.add_sum_erase _ f (Finset.mem_univ i), rest]
  omega

variable {ι β : Type*} [Fintype ι] [DecidableEq ι] [DecidableEq β]

/-- The number of places that point to `b`. -/
def count (g : ι → Option β) (b : β) : ℤ := (Finset.univ.filter fun i => g i = some b).card

/-- The count of a single pointer. -/
def mark (x : Option β) (b : β) : ℤ := if x = some b then 1 else 0

@[simp] theorem mark_none : mark (none : Option β) = 0 := by
  funext b
  simp [mark]

omit [DecidableEq ι] in
theorem count_eq_sum (g : ι → Option β) (b : β) : count g b = ∑ i, mark (g i) b := by
  simp [count, mark]

omit [DecidableEq ι] in
theorem count_of_none {g : ι → Option β} (null : ∀ i, g i = none) : count g = 0 := by
  funext b
  simp [count, null]

omit [DecidableEq ι] in
theorem count_nonneg (g : ι → Option β) (b : β) : 0 ≤ count g b := Int.natCast_nonneg _

/-- An assignment `place = x`. -/
theorem count_update (g : ι → Option β) (i : ι) (x : Option β) :
    count (update g i x) = count g - mark (g i) + mark x := by
  funext b
  have others : ∑ j ∈ Finset.univ.erase i, mark (update g i x j) b =
      ∑ j ∈ Finset.univ.erase i, mark (g j) b :=
    Finset.sum_congr rfl fun j member => by rw [Function.update_of_ne (Finset.ne_of_mem_erase member)]
  have after := Finset.add_sum_erase Finset.univ (fun j => mark (update g i x j) b) (Finset.mem_univ i)
  have before := Finset.add_sum_erase Finset.univ (fun j => mark (g j) b) (Finset.mem_univ i)
  simp only [Function.update_self] at after
  rw [Pi.add_apply, Pi.sub_apply, count_eq_sum, count_eq_sum, ← after, ← before, others]
  omega

end Refs
