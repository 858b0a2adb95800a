import Mathlib.Data.List.Basic
import Mathlib.Data.List.Induction
import Mathlib.Data.List.Nodup
import Mathlib.Tactic.Common
import Xv6.Lib.Chain

/-!
# Doubly linked lists

Two pointer fields over cells of any type. `Seg s b l e` says that the cells `l` are linked in order in both
directions, with `b` before the first and `e` after the last; `Linked s l` is the null-terminated case.
Insertion and removal each have one lemma that says which list results.
-/

structure Links (α : Type*) where
  next : α → Option α
  prev : α → Option α

namespace Links

variable {α : Type*} {s t : Links α} {a b c : α} {x y e : Option α} {xs ys l : List α}

/-- The cells `l` in order, with `x` before the first and `e` after the last. -/
def Seg (s : Links α) : Option α → List α → Option α → Prop
  | _, [], _ => True
  | x, a :: l, e => s.prev a = x ∧ s.next a = l.head?.or e ∧ Seg s (some a) l e

/-- A null-terminated list. -/
def Linked (s : Links α) (l : List α) : Prop := s.Seg none l none

theorem Seg.congr (seg : s.Seg x l e)
    (same : ∀ a ∈ l, t.next a = s.next a ∧ t.prev a = s.prev a) : t.Seg x l e := by
  induction l generalizing x with
  | nil => trivial
  | cons a l ih =>
    obtain ⟨prev, next, rest⟩ := seg
    have here := same a List.mem_cons_self
    exact ⟨here.2.trans prev, here.1.trans next,
      ih rest fun a member => same a (List.mem_cons_of_mem _ member)⟩

theorem seg_append : s.Seg x (xs ++ ys) e ↔
    s.Seg x xs (ys.head?.or e) ∧ s.Seg (xs.getLast?.or x) ys e := by
  induction xs generalizing x with
  | nil => simp [Seg]
  | cons a xs ih =>
    have last : ((a :: xs).getLast?).or x = xs.getLast?.or (some a) := by
      rw [List.getLast?_cons]
      cases xs.getLast? <;> rfl
    have head : ((xs ++ ys).head?).or e = xs.head?.or (ys.head?.or e) := by
      cases xs <;> rfl
    rw [last]
    simp only [List.cons_append, Seg, head, ih, and_assoc]

/-- The cells after `a` are determined by `a`. -/
theorem Seg.unique (first : s.Seg x (a :: xs) none) (second : s.Seg y (a :: ys) none) :
    xs = ys := by
  induction xs generalizing a x y ys with
  | nil =>
    have null := first.2.1.symm.trans second.2.1
    cases ys with
    | nil => rfl
    | cons b ys => cases null
  | cons b xs ih =>
    have next := first.2.1.symm.trans second.2.1
    cases ys with
    | nil => cases next
    | cons c ys =>
      cases next
      rw [ih first.2.2 second.2.2]

theorem Seg.nodup (seg : s.Seg x l none) : l.Nodup := by
  induction l generalizing x with
  | nil => exact List.nodup_nil
  | cons a l ih =>
    refine List.nodup_cons.mpr ⟨?_, ih seg.2.2⟩
    intro member
    obtain ⟨xs, ys, rfl⟩ := List.append_of_mem member
    -- the list after the second `a` would be the whole list after the first
    have again := (seg_append.mp seg.2.2).2
    have equal := congrArg List.length (seg.unique again)
    simp at equal
    omega

theorem Linked.nodup (linked : s.Linked l) : l.Nodup := Seg.nodup linked

theorem Linked.congr (linked : s.Linked l)
    (same : ∀ a ∈ l, t.next a = s.next a ∧ t.prev a = s.prev a) : t.Linked l :=
  Seg.congr linked same

theorem Linked.at (linked : s.Linked (xs ++ a :: ys)) :
    s.prev a = xs.getLast? ∧ s.next a = ys.head? := by
  have here := (seg_append.mp linked).2
  rw [Option.or_none] at here
  exact ⟨here.1, by rw [here.2.1, Option.or_none]⟩

/-! ### Assignments -/

section Assign

variable [DecidableEq α]

/-- `p->next = v`, when `p` is not null. -/
def setNext (s : Links α) (p v : Option α) : Links α :=
  { s with next := fun a => if p = some a then v else s.next a }

/-- `p->prev = v`, when `p` is not null. -/
def setPrev (s : Links α) (p v : Option α) : Links α :=
  { s with prev := fun a => if p = some a then v else s.prev a }

variable (s) (p v : Option α)

@[simp] theorem next_setNext : (s.setNext p v).next a = if p = some a then v else s.next a := rfl

@[simp] theorem prev_setNext : (s.setNext p v).prev a = s.prev a := rfl

@[simp] theorem next_setPrev : (s.setPrev p v).next a = s.next a := rfl

@[simp] theorem prev_setPrev : (s.setPrev p v).prev a = if p = some a then v else s.prev a := rfl

variable {s p v}

theorem Seg.setNext_of_notMem (seg : s.Seg x l e) (out : ∀ a ∈ l, p ≠ some a) :
    (s.setNext p v).Seg x l e :=
  seg.congr fun a member => ⟨by rw [next_setNext, if_neg (out a member)], rfl⟩

theorem Seg.setPrev_of_notMem (seg : s.Seg x l e) (out : ∀ a ∈ l, p ≠ some a) :
    (s.setPrev p v).Seg x l e :=
  seg.congr fun a member => ⟨rfl, by rw [prev_setPrev, if_neg (out a member)]⟩

theorem Seg.setNext_last (seg : s.Seg x l e) (nodup : l.Nodup) :
    (s.setNext l.getLast? v).Seg x l v := by
  rcases List.eq_nil_or_concat l with rfl | ⟨xs, a, rfl⟩
  · trivial
  · rw [List.concat_eq_append] at seg nodup ⊢
    have out : ∀ b ∈ xs, some a ≠ some b := by
      rintro b member same
      cases same
      exact (List.nodup_append.mp nodup).2.2 a member a (by simp) rfl
    rw [List.getLast?_append, List.getLast?_singleton, Option.some_or]
    obtain ⟨front, back⟩ := seg_append.mp seg
    exact seg_append.mpr ⟨front.setNext_of_notMem out, back.1, by simp, trivial⟩

theorem Seg.setPrev_head (seg : s.Seg x l e) (nodup : l.Nodup) :
    (s.setPrev l.head? v).Seg v l e := by
  cases l with
  | nil => trivial
  | cons a l =>
    have out : ∀ b ∈ l, some a ≠ some b := by
      rintro b member same
      cases same
      exact (List.nodup_cons.mp nodup).1 member
    exact ⟨by simp, seg.2.1, seg.2.2.setPrev_of_notMem out⟩

/-- Put `m` behind `target`. -/
def insertAfter (s : Links α) (target m : α) : Links α :=
  let s := s.setPrev (some m) (some target)
  let s := s.setPrev (s.next target) (some m)
  let s := s.setNext (some m) (s.next target)
  s.setNext (some target) (some m)

/-- Put `m` in front of `target`. -/
def insertBefore (s : Links α) (target m : α) : Links α :=
  let s := s.setNext (some m) (some target)
  let s := s.setNext (s.prev target) (some m)
  let s := s.setPrev (some m) (s.prev target)
  s.setPrev (some target) (some m)

/-- Take `m` out; its own pointers stay. -/
def unlink (s : Links α) (m : α) : Links α :=
  let s := s.setNext (s.prev m) (s.next m)
  s.setPrev (s.next m) (s.prev m)

/-- Take `m` out and clear its pointers. -/
def remove (s : Links α) (m : α) : Links α :=
  let s := s.unlink m
  let s := s.setNext (some m) none
  s.setPrev (some m) none

end Assign

private theorem notMem_of_nodup_append (nodup : (xs ++ ys).Nodup) (member : a ∈ xs) : a ∉ ys :=
  fun again => (List.nodup_append.mp nodup).2.2 a member a again rfl

private theorem head?_ne (out : a ∉ l) : l.head? ≠ some a :=
  fun head => out (List.mem_of_head? head)

private theorem getLast?_ne (out : a ∉ l) : l.getLast? ≠ some a :=
  fun last => out (List.mem_of_getLast? last)

section Operations

variable [DecidableEq α] {m : α}

theorem Linked.insertAfter (linked : s.Linked (xs ++ a :: ys)) (fresh : m ∉ xs ++ a :: ys) :
    (s.insertAfter a m).Linked (xs ++ a :: m :: ys) := by
  have nodup := linked.nodup
  have next := linked.at.2
  obtain ⟨front, prev, _, back⟩ := seg_append.mp linked
  have outFront : m ∉ xs := fun h => fresh (by simp [h])
  have outBack : m ∉ ys := fun h => fresh (by simp [h])
  have ne : m ≠ a := fun h => fresh (by simp [h])
  have split : ys.Nodup ∧ a ∉ ys := by
    have := (List.nodup_append.mp nodup).2.1
    exact ⟨(List.nodup_cons.mp this).2, (List.nodup_cons.mp this).1⟩
  have frontA : ∀ b ∈ xs, b ≠ a := by
    rintro b member rfl
    exact notMem_of_nodup_append nodup member List.mem_cons_self
  have frontYs : ∀ b ∈ xs, b ∉ ys := fun b member again =>
    notMem_of_nodup_append nodup member (List.mem_cons_of_mem _ again)
  have heads : ys.head? ≠ some a ∧ ys.head? ≠ some m := ⟨head?_ne split.2, head?_ne outBack⟩
  -- the final values of all pointers
  have nextEq : ∀ b, (s.insertAfter a m).next b =
      if b = a then some m else if b = m then ys.head? else s.next b := by
    intro b
    simp only [Links.insertAfter, next_setNext, next_setPrev, next, Option.some.injEq,
      eq_comm (b := b)]
  have prevEq : ∀ b, (s.insertAfter a m).prev b =
      if ys.head? = some b then some m else if b = m then some a else s.prev b := by
    intro b
    simp only [Links.insertAfter, prev_setNext, prev_setPrev, next_setPrev, next, Option.some.injEq,
      eq_comm (b := b)]
  refine seg_append.mpr ⟨?_, ?_, ?_, ?_, ?_, ?_⟩
  · refine front.congr fun b member => ⟨?_, ?_⟩
    · rw [nextEq, if_neg (frontA b member), if_neg (ne_of_mem_of_not_mem member outFront)]
    · rw [prevEq, if_neg (head?_ne (frontYs b member)), if_neg (ne_of_mem_of_not_mem member outFront)]
  · rw [prevEq, if_neg heads.1, if_neg ne.symm, prev]
  · rw [nextEq, if_pos rfl]
    rfl
  · rw [prevEq, if_neg heads.2, if_pos rfl]
  · rw [nextEq, if_neg ne, if_pos rfl, Option.or_none]
  · refine (Seg.setPrev_head (v := some m) back split.1).congr fun b member => ⟨?_, ?_⟩
    · rw [nextEq, if_neg (ne_of_mem_of_not_mem member split.2), if_neg (ne_of_mem_of_not_mem member outBack)]
      rfl
    · rw [prevEq, prev_setPrev]
      split
      · rfl
      · rw [if_neg (ne_of_mem_of_not_mem member outBack)]

theorem Linked.insertBefore (linked : s.Linked (xs ++ a :: ys)) (fresh : m ∉ xs ++ a :: ys) :
    (s.insertBefore a m).Linked (xs ++ m :: a :: ys) := by
  have nodup := linked.nodup
  have prev := linked.at.1
  obtain ⟨front, _, next, back⟩ := seg_append.mp linked
  have outFront : m ∉ xs := fun h => fresh (by simp [h])
  have outBack : m ∉ ys := fun h => fresh (by simp [h])
  have ne : m ≠ a := fun h => fresh (by simp [h])
  have frontA : a ∉ xs := fun member => notMem_of_nodup_append nodup member List.mem_cons_self
  have backXs : ∀ b ∈ ys, b ∉ xs := fun b member again =>
    notMem_of_nodup_append nodup again (List.mem_cons_of_mem _ member)
  have backA : a ∉ ys := (List.nodup_cons.mp (List.nodup_append.mp nodup).2.1).1
  have lasts : xs.getLast? ≠ some a ∧ xs.getLast? ≠ some m := ⟨getLast?_ne frontA, getLast?_ne outFront⟩
  have nextEq : ∀ b, (s.insertBefore a m).next b =
      if xs.getLast? = some b then some m else if b = m then some a else s.next b := by
    intro b
    simp only [Links.insertBefore, next_setNext, next_setPrev, prev_setNext, prev, Option.some.injEq,
      eq_comm (b := b)]
  have prevEq : ∀ b, (s.insertBefore a m).prev b =
      if b = a then some m else if b = m then xs.getLast? else s.prev b := by
    intro b
    simp only [Links.insertBefore, prev_setNext, prev_setPrev, prev, Option.some.injEq,
      eq_comm (b := b)]
  refine seg_append.mpr ⟨?_, ?_, ?_, ?_, ?_, ?_⟩
  · refine (Seg.setNext_last (v := some m) front (List.nodup_append.mp nodup).1).congr
      fun b member => ⟨?_, ?_⟩
    · rw [nextEq, next_setNext]
      split
      · rfl
      · rw [if_neg (ne_of_mem_of_not_mem member outFront)]
    · rw [prevEq, if_neg (ne_of_mem_of_not_mem member frontA), if_neg (ne_of_mem_of_not_mem member outFront)]
      rfl
  · rw [prevEq, if_neg ne, if_pos rfl, Option.or_none]
  · rw [nextEq, if_neg lasts.2, if_pos rfl]
    rfl
  · rw [prevEq, if_pos rfl]
  · rw [nextEq, if_neg lasts.1, if_neg ne.symm, next]
  · refine back.congr fun b member => ⟨?_, ?_⟩
    · rw [nextEq, if_neg (getLast?_ne (backXs b member)), if_neg (ne_of_mem_of_not_mem member outBack)]
    · rw [prevEq, if_neg (ne_of_mem_of_not_mem member backA), if_neg (ne_of_mem_of_not_mem member outBack)]

theorem Linked.unlink (linked : s.Linked (xs ++ m :: ys)) : (s.unlink m).Linked (xs ++ ys) := by
  have nodup := linked.nodup
  obtain ⟨prev, next⟩ := linked.at
  obtain ⟨front, _, _, back⟩ := seg_append.mp linked
  have frontM : m ∉ xs := fun member => notMem_of_nodup_append nodup member List.mem_cons_self
  have splitBack := List.nodup_cons.mp (List.nodup_append.mp nodup).2.1
  have frontYs : ∀ b ∈ xs, b ∉ ys := fun b member again =>
    notMem_of_nodup_append nodup member (List.mem_cons_of_mem _ again)
  have nextEq : ∀ b, (s.unlink m).next b = if xs.getLast? = some b then ys.head? else s.next b := by
    intro b
    simp only [Links.unlink, next_setNext, next_setPrev, prev, next]
  have prevEq : ∀ b, (s.unlink m).prev b = if ys.head? = some b then xs.getLast? else s.prev b := by
    intro b
    simp only [Links.unlink, prev_setNext, prev_setPrev, next_setNext, prev, next,
      if_neg (getLast?_ne frontM)]
  refine seg_append.mpr ⟨?_, ?_⟩
  · rw [Option.or_none]
    refine (Seg.setNext_last (v := ys.head?) front (List.nodup_append.mp nodup).1).congr
      fun b member => ⟨?_, ?_⟩
    · rw [nextEq, next_setNext]
    · rw [prevEq, if_neg (head?_ne (frontYs b member))]
      rfl
  · rw [Option.or_none]
    refine (Seg.setPrev_head (v := xs.getLast?) back splitBack.2).congr fun b member => ⟨?_, ?_⟩
    · rw [nextEq, if_neg (getLast?_ne fun again => frontYs b again member)]
      rfl
    · rw [prevEq, prev_setPrev]

theorem Linked.unlink_next (linked : s.Linked (xs ++ m :: ys)) :
    (s.unlink m).next m = ys.head? := by
  obtain ⟨prev, next⟩ := linked.at
  have out : m ∉ xs := fun member =>
    notMem_of_nodup_append linked.nodup member List.mem_cons_self
  simp only [Links.unlink, next_setNext, next_setPrev, prev, next, if_neg (getLast?_ne out)]

/-- Taking a cell out of a list touches no cell outside it. -/
theorem Linked.unlink_of_notMem (linked : s.Linked (xs ++ m :: ys)) (out : b ∉ xs ++ m :: ys) :
    (s.unlink m).next b = s.next b ∧ (s.unlink m).prev b = s.prev b := by
  obtain ⟨prev, next⟩ := linked.at
  have frontM : m ∉ xs := fun member =>
    notMem_of_nodup_append linked.nodup member List.mem_cons_self
  have front : b ∉ xs := fun member => out (by simp [member])
  have back : b ∉ ys := fun member => out (by simp [member])
  constructor
  · simp only [Links.unlink, next_setNext, next_setPrev, prev, next, if_neg (getLast?_ne front)]
  · simp only [Links.unlink, prev_setNext, prev_setPrev, next_setNext, prev, next,
      if_neg (getLast?_ne frontM), if_neg (head?_ne back)]

/-- Taking several cells out of the list behind `a`, one after the other. -/
theorem Linked.unlink_all {ws : List α} (linked : s.Linked (a :: l)) (nodup : ws.Nodup)
    (inside : ∀ w ∈ ws, w ∈ l) : ∃ l', (ws.foldl Links.unlink s).Linked (a :: l') ∧
      (∀ b, b ∈ l' ↔ b ∈ l ∧ b ∉ ws) ∧
      ∀ b, b ∉ a :: l → (ws.foldl Links.unlink s).next b = s.next b ∧ (ws.foldl Links.unlink s).prev b = s.prev b := by
  induction ws generalizing s l with
  | nil => exact ⟨l, linked, by simp, fun _ _ => ⟨rfl, rfl⟩⟩
  | cons w ws ih =>
    obtain ⟨fresh, nodup⟩ := List.nodup_cons.mp nodup
    obtain ⟨xs, ys, rfl⟩ := List.append_of_mem (inside w List.mem_cons_self)
    have whole : s.Linked ((a :: xs) ++ w :: ys) := linked
    have once := (List.nodup_cons.mp (List.nodup_middle.mp whole.nodup)).1
    have rest : ∀ u ∈ ws, u ∈ xs ++ ys := by
      intro u member
      have := inside u (List.mem_cons_of_mem _ member)
      have ne : u ≠ w := ne_of_mem_of_not_mem member fresh
      simpa [ne] using this
    have shorter : (s.unlink w).Linked (a :: (xs ++ ys)) := whole.unlink
    obtain ⟨l', linked', members, others⟩ := ih shorter nodup rest
    refine ⟨l', linked', fun b => ?_, fun b out => ?_⟩
    · have ne : b ∈ xs ++ ys → b ≠ w := by
        rintro member rfl
        exact once (List.mem_cons_of_mem _ member)
      rw [members]
      simp only [List.mem_append, List.mem_cons] at ne ⊢
      tauto
    · have out' : b ∉ a :: (xs ++ ys) := fun member => out (by
        simp only [List.mem_cons, List.mem_append] at member ⊢
        tauto)
      have here := whole.unlink_of_notMem out
      have later := others b out'
      exact ⟨later.1.trans here.1, later.2.trans here.2⟩

/-- Insertion behind a cell of a list touches no cell outside it but the inserted one. -/
theorem Linked.insertAfter_of_notMem (linked : s.Linked (xs ++ a :: ys)) (out : b ∉ xs ++ a :: ys)
    (ne : b ≠ m) : (s.insertAfter a m).next b = s.next b ∧ (s.insertAfter a m).prev b = s.prev b := by
  have next := linked.at.2
  have back : b ∉ ys := fun member => out (by simp [member])
  have neA : b ≠ a := fun same => out (by simp [same])
  constructor
  · simp [Links.insertAfter, ne.symm, neA.symm]
  · simp [Links.insertAfter, next, head?_ne back, ne.symm]

theorem Linked.remove (linked : s.Linked (xs ++ m :: ys)) : (s.remove m).Linked (xs ++ ys) := by
  have nodup := linked.nodup
  refine linked.unlink.congr fun b member => ?_
  have ne : some m ≠ some b := by
    rintro same
    cases same
    exact (List.nodup_middle.mp nodup |> List.nodup_cons.mp).1 member
  simp only [Links.remove, next_setPrev, next_setNext, prev_setPrev, prev_setNext, if_neg ne,
    and_self]

end Operations

end Links
