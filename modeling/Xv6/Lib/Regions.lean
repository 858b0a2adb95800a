import Mathlib.Logic.Function.Basic
import Mathlib.Tactic.Common

/-!
# Regions of one width

A family of regions on the natural numbers, all of one width, by their owners. `Packed` says that they
start at multiples of a unit, end below a limit and do not overlap. A region can be dropped, change hands,
or be placed at the limit, which it then moves.
-/

namespace Regions

open Function (update)

/-- A function changed on the interval from `lo` to `hi`. -/
def fill {α : Type*} (f : Nat → α) (lo hi : Nat) (x : α) : Nat → α :=
  fun i => if lo ≤ i ∧ i < hi then x else f i

/-- A function changed to another one on the interval from `lo` to `hi`. -/
def patch {α : Type*} (f : Nat → α) (lo hi : Nat) (g : Nat → α) : Nat → α :=
  fun i => if lo ≤ i ∧ i < hi then g i else f i

section Patch

variable {α β : Type*} {f g : Nat → α} {lo hi i : Nat}

@[simp] theorem patch_empty : patch f lo lo g = f := by
  funext i
  simp only [patch]
  rw [if_neg (by omega)]

theorem patch_inside (above : lo ≤ i) (below : i < hi) : patch f lo hi g i = g i :=
  if_pos ⟨above, below⟩

theorem patch_outside (out : i < lo ∨ hi ≤ i) : patch f lo hi g i = f i :=
  if_neg (by omega)

theorem patch_congr {g' : Nat → α} (same : ∀ i, lo ≤ i → i < hi → g i = g' i) : patch f lo hi g = patch f lo hi g' := by
  funext i
  by_cases inside : lo ≤ i ∧ i < hi
  · rw [patch_inside inside.1 inside.2, patch_inside inside.1 inside.2, same i inside.1 inside.2]
  · rw [patch_outside (by omega), patch_outside (by omega)]

theorem patch_of_le (none : hi ≤ lo) : patch f lo hi g = f := by
  funext i
  exact patch_outside (by omega)

theorem patch_patch {mid : Nat} (order : lo ≤ mid) (order' : mid ≤ hi) :
    patch (patch f lo mid g) mid hi g = patch f lo hi g := by
  funext i
  simp only [patch]
  grind

theorem comp_patch (h : α → β) (f : Nat → α) (lo hi : Nat) (g : Nat → α) :
    (fun i => h (patch f lo hi g i)) = patch (fun i => h (f i)) lo hi fun i => h (g i) := by
  funext i
  exact apply_ite h _ _ _

end Patch

section Fill

variable {α β : Type*} {f : Nat → α} {lo mid hi i : Nat} {x y : α}

theorem comp_fill (h : α → β) (f : Nat → α) (lo hi : Nat) (x : α) :
    (fun i => h (fill f lo hi x i)) = fill (fun i => h (f i)) lo hi (h x) :=
  comp_patch h f lo hi fun _ => x

@[simp] theorem fill_empty : fill f lo lo x = f := by
  funext i
  simp only [fill]
  rw [if_neg (by omega)]

theorem fill_inside (above : lo ≤ i) (below : i < hi) : fill f lo hi x i = x :=
  if_pos ⟨above, below⟩

theorem fill_outside (out : i < lo ∨ hi ≤ i) : fill f lo hi x i = f i :=
  if_neg (by omega)

theorem fill_update (below : i < hi) : fill (update f i x) (i + 1) hi x = fill f i hi x := by
  funext j
  by_cases first : j = i
  · subst first
    rw [fill_outside (.inl (by omega)), fill_inside (Nat.le_refl j) below, Function.update_self]
  · simp only [fill, Function.update_of_ne first]
    grind

theorem fill_fill (order : lo ≤ mid) (order' : mid ≤ hi) :
    fill (fill f lo mid x) mid hi x = fill f lo hi x := by
  funext j
  simp only [fill]
  grind

theorem fill_of_update (above : lo ≤ i) (below : i < hi) :
    fill (update f i y) lo hi x = fill f lo hi x := by
  funext j
  by_cases first : j = i
  · subst first
    rw [fill_inside above below, fill_inside above below]
  · simp only [fill, Function.update_of_ne first]

/-- Filling from further on, where the points before already have the value. -/
theorem fill_from (order : lo ≤ mid) (already : ∀ j, lo ≤ j → j < mid → j < hi → f j = x) :
    fill f mid hi x = fill f lo hi x := by
  funext j
  simp only [fill]
  grind

end Fill

variable {ι : Type*} {unit width limit limit' b : Nat} {base : ι → Option Nat} {o o' : ι}

structure Packed (unit width limit : Nat) (base : ι → Option Nat) : Prop where
  aligned : ∀ o b, base o = some b → unit ∣ b
  below : ∀ o b, base o = some b → b + width ≤ limit
  apart : ∀ o o' b b', o ≠ o' → base o = some b → base o' = some b' →
    b + width ≤ b' ∨ b' + width ≤ b

namespace Packed

/-- The limit can move to wherever all regions stay below it. -/
theorem resize (packed : Packed unit width limit base)
    (below : ∀ o b, base o = some b → b + width ≤ limit') : Packed unit width limit' base :=
  ⟨packed.aligned, below, packed.apart⟩

theorem owner_unique (packed : Packed unit width limit base) {b' x : Nat} (here : base o = some b)
    (there : base o' = some b') (inside : b ≤ x ∧ x < b + width)
    (inside' : b' ≤ x ∧ x < b' + width) : o = o' := by
  by_contra ne
  have := packed.apart o o' b b' ne here there
  omega

variable [DecidableEq ι]

theorem drop (packed : Packed unit width limit base) (o : ι) :
    Packed unit width limit (update base o none) := by
  have kept : ∀ q b, update base o none q = some b → base q = some b := by
    intro q b found
    by_cases same : q = o
    · rw [same, Function.update_self] at found
      cases found
    · rwa [Function.update_of_ne same] at found
  exact ⟨fun q b found => packed.aligned q b (kept q b found),
    fun q b found => packed.below q b (kept q b found),
    fun q q' b b' ne found found' => packed.apart q q' b b' ne (kept q b found) (kept q' b' found')⟩

theorem add (packed : Packed unit width limit base) (aligned : unit ∣ b) (below : b + width ≤ limit)
    (apart : ∀ q c, q ≠ o → base q = some c → b + width ≤ c ∨ c + width ≤ b) :
    Packed unit width limit (update base o (some b)) := by
  have split : ∀ q c, update base o (some b) q = some c →
      q = o ∧ c = b ∨ q ≠ o ∧ base q = some c := by
    intro q c found
    by_cases same : q = o
    · rw [same, Function.update_self] at found
      exact .inl ⟨same, (Option.some.inj found).symm⟩
    · rw [Function.update_of_ne same] at found
      exact .inr ⟨same, found⟩
  refine ⟨fun q c found => ?_, fun q c found => ?_, fun q q' c c' ne found found' => ?_⟩
  · rcases split q c found with ⟨_, rfl⟩ | ⟨_, old⟩
    · exact aligned
    · exact packed.aligned q c old
  · rcases split q c found with ⟨_, rfl⟩ | ⟨_, old⟩
    · exact below
    · exact packed.below q c old
  · rcases split q c found with ⟨rfl, rfl⟩ | ⟨out, old⟩ <;>
      rcases split q' c' found' with ⟨rfl, rfl⟩ | ⟨out', old'⟩
    · exact absurd rfl ne
    · exact apart q' c' out' old'
    · exact (apart q c out old).symm
    · exact packed.apart q q' c c' ne old old'

/-- The region of `o` goes to `o'`. -/
theorem pass (packed : Packed unit width limit base) (here : base o = some b) :
    Packed unit width limit (update (update base o none) o' (some b)) := by
  refine (packed.drop o).add (packed.aligned o b here) (packed.below o b here) fun q c _ found => ?_
  by_cases same : q = o
  · rw [same, Function.update_self] at found
    cases found
  · rw [Function.update_of_ne same] at found
    exact packed.apart o q b c (Ne.symm same) here found

theorem place (packed : Packed unit width limit base) (aligned : unit ∣ limit) :
    Packed unit width (limit + width) (update base o (some limit)) := by
  have wider : Packed unit width (limit + width) base :=
    packed.resize fun q c found => Nat.le_add_right_of_le (packed.below q c found)
  exact wider.add aligned (Nat.le_refl _) fun q c _ found => .inr (packed.below q c found)

/-- The last region goes, and the limit goes back to where it began. -/
theorem trim (packed : Packed unit width limit base) (here : base o = some b)
    (last : limit ≤ b + width) :
    Packed unit width (limit - width) (update base o none) := by
  refine (packed.drop o).resize fun q c found => ?_
  have ne : q ≠ o := by
    rintro rfl
    rw [Function.update_self] at found
    cases found
  rw [Function.update_of_ne ne] at found
  have := packed.apart q o c b ne found here
  have := packed.below q c found
  have := packed.below o b here
  omega

end Packed

/-! ### Families that differ in one region -/

/-- The two families have the same regions apart from one that begins at `b`. -/
def Beside (b : Nat) (base base' : ι → Option Nat) : Prop :=
  (∀ o c, base o = some c → base' o = some c ∨ c = b) ∧
    ∀ o c, base' o = some c → base o = some c ∨ c = b

namespace Beside

theorem trans {base' base'' : ι → Option Nat} (first : Beside b base base')
    (second : Beside b base' base'') : Beside b base base'' := by
  refine ⟨fun o c found => ?_, fun o c found => ?_⟩
  · rcases first.1 o c found with kept | same
    · exact second.1 o c kept
    · exact .inr same
  · rcases second.2 o c found with kept | same
    · exact first.2 o c kept
    · exact .inr same

variable [DecidableEq ι]

theorem drop (here : base o = some b) : Beside b base (update base o none) := by
  refine ⟨fun q c found => ?_, fun q c found => ?_⟩ <;> by_cases same : q = o
  · subst same
    exact .inr (Option.some.inj (found.symm.trans here))
  · exact .inl ((Function.update_of_ne same ..).trans found)
  · rw [same, Function.update_self] at found
    cases found
  · exact .inl ((Function.update_of_ne same ..).symm.trans found)

theorem add (fresh : base o = none) : Beside b base (update base o (some b)) := by
  refine ⟨fun q c found => ?_, fun q c found => ?_⟩ <;> by_cases same : q = o
  · rw [same, fresh] at found
    cases found
  · exact .inl ((Function.update_of_ne same ..).trans found)
  · rw [same, Function.update_self] at found
    exact .inr (Option.some.inj found).symm
  · exact .inl ((Function.update_of_ne same ..).symm.trans found)

theorem pass (here : base o = some b) (fresh : base o' = none) :
    Beside b base (update (update base o none) o' (some b)) := by
  refine (drop here).trans (add ?_)
  have ne : o' ≠ o := by
    rintro rfl
    rw [here] at fresh
    cases fresh
  rw [Function.update_of_ne ne, fresh]

end Beside

end Regions
