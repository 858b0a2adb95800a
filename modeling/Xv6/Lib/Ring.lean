import Mathlib.Data.List.Induction
import Mathlib.Data.List.Nodup
import Mathlib.Logic.Function.Basic
import Mathlib.Tactic.Common

/-!
# Circular doubly linked lists

A ring of cells of any type through a head cell, which is `none`. `Path r x l y` says that from `x` the
pointers lead through the cells `l` to `y`, and back; `Holds r l` is the whole ring. A search along either
pointer is a search in the list.
-/

structure RingLinks (α : Type*) where
  next : Option α → Option α
  prev : Option α → Option α

namespace RingLinks

open Function (update)

variable {α : Type*} {r s : RingLinks α} {a b : α} {x y : Option α} {l xs ys : List α}

/-- From `x` through `l` to `y`, in both directions. -/
def Path (r : RingLinks α) : Option α → List α → Option α → Prop
  | x, [], y => r.next x = y ∧ r.prev y = x
  | x, a :: l, y => (r.next x = some a ∧ r.prev (some a) = x) ∧ Path r (some a) l y

/-- The cells of the ring behind the head, in order. -/
def Holds (r : RingLinks α) (l : List α) : Prop := r.Path none l none

theorem path_append : r.Path x (xs ++ a :: ys) y ↔ r.Path x xs (some a) ∧ r.Path (some a) ys y := by
  induction xs generalizing x with
  | nil => rfl
  | cons b xs ih => simp only [List.cons_append, Path, ih, and_assoc]

theorem Path.congr (path : r.Path x l y) (next : ∀ z, z = x ∨ (∃ b ∈ l, z = some b) → s.next z = r.next z)
    (prev : ∀ z, z = y ∨ (∃ b ∈ l, z = some b) → s.prev z = r.prev z) : s.Path x l y := by
  induction l generalizing x with
  | nil => exact ⟨(next x (.inl rfl)).trans path.1, (prev y (.inl rfl)).trans path.2⟩
  | cons b l ih =>
    obtain ⟨⟨forth, back⟩, rest⟩ := path
    refine ⟨⟨(next x (.inl rfl)).trans forth, (prev _ (.inr ⟨b, by simp, rfl⟩)).trans back⟩, ih rest ?_ ?_⟩
    · rintro z (rfl | ⟨c, member, rfl⟩)
      · exact next _ (.inr ⟨b, by simp, rfl⟩)
      · exact next _ (.inr ⟨c, by simp [member], rfl⟩)
    · rintro z (rfl | ⟨c, member, rfl⟩)
      · exact prev _ (.inl rfl)
      · exact prev _ (.inr ⟨c, by simp [member], rfl⟩)

theorem Path.next_eq (path : r.Path x l none) : r.next x = l.head? := by
  cases l with
  | nil => exact path.1
  | cons a l => exact path.1.1

/-- The cells up to the head are determined by where the path begins. -/
theorem Path.unique (first : r.Path x xs none) (second : r.Path x ys none) : xs = ys := by
  induction xs generalizing x ys with
  | nil =>
    have head := first.next_eq.symm.trans second.next_eq
    exact (List.head?_eq_none_iff.mp head.symm).symm
  | cons a xs ih =>
    have head := first.next_eq.symm.trans second.next_eq
    obtain ⟨zs, rfl⟩ := List.head?_eq_some_iff.mp head.symm
    rw [ih first.2 second.2]

theorem Path.nodup (path : r.Path x l none) : l.Nodup := by
  induction l generalizing x with
  | nil => exact List.nodup_nil
  | cons a l ih =>
    refine List.nodup_cons.mpr ⟨fun member => ?_, ih path.2⟩
    obtain ⟨xs, ys, rfl⟩ := List.append_of_mem member
    -- the path behind the second `a` would be as long as the one behind the first
    have equal := congrArg List.length (path.2.unique (path_append.mp path.2).2)
    simp only [List.length_append, List.length_cons] at equal
    omega

theorem Holds.nodup (holds : r.Holds l) : l.Nodup := Path.nodup holds

/-- All the way round, the two pointers undo each other. -/
theorem Holds.inverse (holds : r.Holds l) {z : Option α} (inside : ∀ a, z = some a → a ∈ l) :
    r.prev (r.next z) = z ∧ r.next (r.prev z) = z := by
  have along : ∀ {l x y}, r.Path x l y →
      r.prev (r.next x) = x ∧ r.next (r.prev y) = y ∧
        ∀ a ∈ l, r.prev (r.next (some a)) = some a ∧ r.next (r.prev (some a)) = some a := by
    intro l
    induction l with
    | nil =>
      rintro x y ⟨forth, back⟩
      exact ⟨by rw [forth, back], by rw [back, forth], by simp⟩
    | cons b l ih =>
      rintro x y ⟨⟨forth, back⟩, rest⟩
      obtain ⟨first, last, others⟩ := ih rest
      refine ⟨by rw [forth, back], last, fun a member => ?_⟩
      rcases List.mem_cons.mp member with rfl | member
      · exact ⟨first, by rw [back, forth]⟩
      · exact others a member
  obtain ⟨first, last, others⟩ := along holds
  cases z with
  | none => exact ⟨first, last⟩
  | some a => exact others a (inside a rfl)

/-! ### Assignments -/

section Assign

variable [DecidableEq α]

/-- `x->next = y`. -/
def setNext (r : RingLinks α) (x y : Option α) : RingLinks α := { r with next := update r.next x y }

/-- `x->prev = y`. -/
def setPrev (r : RingLinks α) (x y : Option α) : RingLinks α := { r with prev := update r.prev x y }

/-- The ring of the head alone. -/
def clear (r : RingLinks α) : RingLinks α := (r.setPrev none none).setNext none none

/-- Put `a` right behind the head. -/
def insertFront (r : RingLinks α) (a : α) : RingLinks α :=
  let r := r.setNext (some a) (r.next none)
  let r := r.setPrev (some a) none
  let r := r.setPrev (r.next none) (some a)
  r.setNext none (some a)

/-- Take `a` out; its own pointers stay. -/
def unlink (r : RingLinks α) (a : α) : RingLinks α :=
  let r := r.setPrev (r.next (some a)) (r.prev (some a))
  r.setNext (r.prev (some a)) (r.next (some a))

theorem holds_clear (r : RingLinks α) : r.clear.Holds [] := by
  simp [Holds, Path, clear, setNext, setPrev]

theorem Holds.insertFront (holds : r.Holds l) (fresh : a ∉ l) : (r.insertFront a).Holds (a :: l) := by
  have head : r.next none = l.head? := Path.next_eq holds
  have nextEq : ∀ z, (r.insertFront a).next z =
      if z = none then some a else if z = some a then l.head? else r.next z := by
    intro z
    simp [RingLinks.insertFront, setNext, setPrev, Function.update_apply, head]
  have prevEq : ∀ z, (r.insertFront a).prev z =
      if z = l.head? then some a else if z = some a then none else r.prev z := by
    intro z
    simp [RingLinks.insertFront, setNext, setPrev, Function.update_apply, head]
  have headNe : some a ≠ l.head? := fun same => fresh (List.mem_of_head? same.symm)
  refine ⟨⟨by rw [nextEq, if_pos rfl], by rw [prevEq, if_neg headNe, if_pos rfl]⟩, ?_⟩
  cases l with
  | nil => exact ⟨by simp [nextEq], by simp [prevEq]⟩
  | cons b l =>
    have once := (List.nodup_cons.mp holds.nodup).1
    have ne : b ≠ a := fun same => fresh (by simp [same])
    refine ⟨⟨by simp [nextEq], by simp [prevEq]⟩, holds.2.congr ?_ ?_⟩
    · rintro z (rfl | ⟨c, member, rfl⟩)
      · simp [nextEq, ne]
      · have : c ≠ a := fun same => fresh (by simp [← same, member])
        simp [nextEq, this]
    · rintro z (rfl | ⟨c, member, rfl⟩)
      · simp [prevEq]
      · have first : c ≠ a := fun same => fresh (by simp [← same, member])
        have second : c ≠ b := ne_of_mem_of_not_mem member once
        simp [prevEq, first, second]

theorem unlink_eq (other : r.next (some a) ≠ some a) (z : Option α) :
    (r.unlink a).next z = (if z = r.prev (some a) then r.next (some a) else r.next z) ∧
      (r.unlink a).prev z = if z = r.next (some a) then r.prev (some a) else r.prev z := by
  simp [RingLinks.unlink, setNext, setPrev, Function.update_apply, other.symm]

/-- Removal, along a path whose cells differ from where it begins. -/
theorem Path.unlink (before : r.Path x xs (some a)) (after : r.Path (some a) ys none)
    (nodup : (xs ++ a :: ys).Nodup) (apart : ∀ z ∈ xs ++ a :: ys, x ≠ some z) :
    (r.unlink a).Path x (xs ++ ys) none := by
  have next : r.next (some a) = ys.head? := after.next_eq
  have behind : a ∉ ys := (List.nodup_cons.mp (List.nodup_append.mp nodup).2.1).1
  have other : r.next (some a) ≠ some a := fun same =>
    behind (List.mem_of_head? (next.symm.trans same))
  have nextEq := fun z => (unlink_eq other z).1
  have prevEq := fun z => (unlink_eq other z).2
  induction xs generalizing x with
  | nil =>
    obtain ⟨_, back⟩ := before
    rw [back] at nextEq prevEq
    cases ys with
    | nil => exact ⟨by rw [nextEq, if_pos rfl]; exact next, by rw [prevEq, next]; exact if_pos rfl⟩
    | cons b ys =>
      have once := (List.nodup_cons.mp (List.nodup_cons.mp (nodup : (a :: b :: ys).Nodup)).2).1
      refine ⟨⟨by rw [nextEq, if_pos rfl]; exact next, by rw [prevEq, next]; exact if_pos rfl⟩, after.2.congr ?_ ?_⟩
      · rintro z (rfl | ⟨c, member, rfl⟩)
        · rw [nextEq, if_neg fun same => apart b (by simp) same.symm]
        · rw [nextEq, if_neg fun same => apart c (by simp [member]) same.symm]
      · rintro z (rfl | ⟨c, member, rfl⟩)
        · rw [prevEq, next, if_neg (by simp)]
        · have ne : c ≠ b := ne_of_mem_of_not_mem member once
          rw [prevEq, next, if_neg (by simpa using ne)]
  | cons c xs ih =>
    obtain ⟨⟨forth, back⟩, rest⟩ := before
    obtain ⟨fresh, nodup'⟩ := List.nodup_cons.mp (nodup : (c :: (xs ++ a :: ys)).Nodup)
    have inner := ih rest nodup' fun z member same => fresh (by
      cases same
      exact member)
    refine ⟨⟨?_, ?_⟩, inner⟩
    · -- the cell in front of `a` is one of `c :: xs`, not `x`
      have last : ∀ {zs w}, r.Path w zs (some a) → r.prev (some a) = w ∨ ∃ z ∈ zs, r.prev (some a) = some z := by
        intro zs
        induction zs with
        | nil => exact fun path => .inl path.2
        | cons z zs ih =>
          intro w path
          rcases ih path.2 with here | ⟨u, member, here⟩
          · exact .inr ⟨z, by simp, here⟩
          · exact .inr ⟨u, by simp [member], here⟩
      rw [nextEq, if_neg, forth]
      intro same
      rcases last rest with here | ⟨z, member, here⟩
      · exact apart c (by simp) (same.trans here)
      · exact apart z (by simp [member]) (same.trans here)
    · rw [prevEq, next, if_neg, back]
      intro same
      exact fresh (by simp [List.mem_of_head? same.symm])

theorem Holds.unlink (holds : r.Holds l) (member : a ∈ l) : (r.unlink a).Holds (l.erase a) := by
  obtain ⟨xs, ys, rfl⟩ := List.append_of_mem member
  have nodup := holds.nodup
  have front : a ∉ xs := fun again => (List.nodup_append.mp nodup).2.2 a again a (by simp) rfl
  rw [List.erase_append_right _ front, List.erase_cons_head]
  obtain ⟨before, after⟩ := path_append.mp holds
  exact before.unlink after nodup fun _ _ => nofun

end Assign

/-! ### Searches -/

/-- Follow one of the pointers from a cell on until `pick` holds or the head is reached
(`some none`); `none` means that the head is not among the first `n` cells. -/
def search (step : Option α → Option α) (pick : α → Bool) : Nat → Option α → Option (Option α)
  | _, none => some none
  | 0, some _ => none
  | n + 1, some a => if pick a then some (some a) else search step pick n (step (some a))

theorem Path.search_next (path : r.Path x l none) {pick : α → Bool} {n : Nat} (enough : l.length ≤ n) :
    search r.next pick n (r.next x) = some (l.find? pick) := by
  induction l generalizing x n with
  | nil =>
    rw [path.1]
    cases n <;> rfl
  | cons a l ih =>
    cases n with
    | zero => simp at enough
    | succ n =>
      rw [path.1.1, search, List.find?_cons]
      split
      next picked => simp [picked]
      next other =>
        rw [ih path.2 (by simpa using enough)]
        simp [other]

theorem Path.search_prev (path : r.Path none l y) {pick : α → Bool} {n : Nat} (enough : l.length ≤ n) :
    search r.prev pick n (r.prev y) = some (l.reverse.find? pick) := by
  induction l using List.reverseRecOn generalizing y n with
  | nil =>
    rw [path.2]
    cases n <;> rfl
  | append_singleton l a ih =>
    obtain ⟨before, after⟩ := path_append.mp path
    cases n with
    | zero => simp at enough
    | succ n =>
      rw [after.2, search, List.reverse_append, List.reverse_singleton, List.singleton_append, List.find?_cons]
      split
      next picked => simp [picked]
      next other =>
        rw [ih before (by simpa using enough)]
        simp [other]

end RingLinks
