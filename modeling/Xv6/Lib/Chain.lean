import Mathlib.Data.Fintype.Card
import Mathlib.Logic.Function.Basic
import Mathlib.Tactic.Common

/-!
# Chains of pointers

Following a pointer field `f : α → Option α` until it is null. `Ends f n x z` says that the chain from `x`
ends at `z` after `n` steps, and `climb` follows it with a bound on the rounds.
-/

namespace Chain

variable {α : Type*} {f g : α → Option α} {n m : Nat} {x y z w : α}

inductive Ends (f : α → Option α) : Nat → α → α → Prop where
  | here {x : α} : f x = none → Ends f 0 x x
  | step {n : Nat} {x y z : α} : f x = some y → Ends f n y z → Ends f (n + 1) x z

/-- `y` is met on the way from `x`. -/
inductive On (f : α → Option α) : α → α → Prop where
  | here {x : α} : On f x x
  | step {x y z : α} : f x = some y → On f y z → On f x z

/-- Follow the pointers for at most `rounds` tests for null. -/
def climb (f : α → Option α) : Nat → α → Option α
  | 0, _ => none
  | rounds + 1, x =>
    match f x with
    | none => some x
    | some y => climb f rounds y

/-- The cells met in at most `rounds` rounds. -/
def trail (f : α → Option α) : Nat → α → List α
  | 0, _ => []
  | rounds + 1, x =>
    x ::
      match f x with
      | none => []
      | some y => trail f rounds y

theorem Ends.last (ends : Ends f n x z) : f z = none := by
  induction ends with
  | here null => exact null
  | step _ _ ih => exact ih

theorem Ends.unique (first : Ends f n x z) (second : Ends f m x w) : n = m ∧ z = w := by
  induction first generalizing m w with
  | here null =>
    cases second with
    | here _ => exact ⟨rfl, rfl⟩
    | step next _ => rw [null] at next; cases next
  | step next _ ih =>
    cases second with
    | here null => rw [null] at next; cases next
    | step next' rest =>
      rw [next] at next'
      cases next'
      obtain ⟨rfl, rfl⟩ := ih rest
      exact ⟨rfl, rfl⟩

theorem Ends.on_last (ends : Ends f n x z) : On f x z := by
  induction ends with
  | here _ => exact .here
  | step next _ ih => exact .step next ih

theorem Ends.before_last (ends : Ends f n x z) (ne : x ≠ z) : ∃ y, On f x y ∧ f y = some z := by
  induction ends with
  | here _ => exact absurd rfl ne
  | @step n x y z next rest ih =>
    by_cases last : y = z
    · exact ⟨x, .here, last ▸ next⟩
    · obtain ⟨w, on, before⟩ := ih last
      exact ⟨w, .step next on, before⟩

/-- Enough rounds meet every cell of a chain that ends. -/
theorem Ends.mem_trail (ends : Ends f n x z) (on : On f x y) : ∀ {rounds : Nat}, n < rounds →
    y ∈ trail f rounds x := by
  induction on generalizing n with
  | here =>
    intro rounds some_
    obtain ⟨r, rfl⟩ : ∃ r, rounds = r + 1 := ⟨rounds - 1, by omega⟩
    exact List.mem_cons_self
  | step next _ ih =>
    intro rounds some_
    obtain ⟨r, rfl⟩ : ∃ r, rounds = r + 1 := ⟨rounds - 1, by omega⟩
    cases ends with
    | here null => rw [null] at next; cases next
    | step next' rest =>
      rw [next] at next'
      cases next'
      rw [trail, next]
      exact List.mem_cons_of_mem _ (ih rest (by omega))

theorem climb_sound : ∀ {rounds : Nat} {x : α}, climb f rounds x = some z → ∃ n, Ends f n x z := by
  intro rounds
  induction rounds with
  | zero => intro x ended; cases ended
  | succ rounds ih =>
    intro x ended
    rw [climb] at ended
    split at ended
    next null =>
      cases ended
      exact ⟨0, .here null⟩
    next y next =>
      obtain ⟨n, ends⟩ := ih ended
      exact ⟨n + 1, .step next ends⟩

theorem Ends.climb (ends : Ends f n x z) : ∀ {rounds : Nat}, n < rounds →
    climb f rounds x = some z := by
  induction ends with
  | here null =>
    intro rounds some_
    obtain ⟨k, rfl⟩ := Nat.exists_eq_add_of_lt some_
    simp [Chain.climb, null]
  | step next _ ih =>
    intro rounds some_
    obtain ⟨k, rfl⟩ : ∃ k, rounds = k + 1 := ⟨rounds - 1, by omega⟩
    rw [Chain.climb, next]
    exact ih (by omega)

theorem Ends.cells (ends : Ends f n x z) :
    ∃ l : List α, l.Nodup ∧ l.length = n + 1 ∧ ∀ y ∈ l, ∃ m ≤ n, Ends f m y z := by
  induction ends with
  | here null => exact ⟨[_], List.nodup_singleton _, rfl, by simpa using .here null⟩
  | @step n x y z next rest ih =>
    obtain ⟨l, nodup, length, met⟩ := ih
    refine ⟨x :: l, List.nodup_cons.mpr ⟨?_, nodup⟩, by simp [length], ?_⟩
    · intro member
      obtain ⟨m, le, ends⟩ := met x member
      have := (ends.unique (.step next rest)).1
      omega
    · intro w member
      rcases List.mem_cons.mp member with rfl | member
      · exact ⟨n + 1, le_rfl, .step next rest⟩
      · obtain ⟨m, le, ends⟩ := met w member
        exact ⟨m, by omega, ends⟩

theorem Ends.lt_card [Fintype α] (ends : Ends f n x z) : n < Fintype.card α := by
  obtain ⟨l, nodup, length, _⟩ := ends.cells
  have := nodup.length_le_card
  omega

/-- As many rounds as there are cells decide whether the chain ends. -/
theorem climb_card_iff [Fintype α] : Chain.climb f (Fintype.card α) x = some z ↔
    ∃ n, Ends f n x z :=
  ⟨climb_sound, fun ⟨_, ends⟩ => ends.climb ends.lt_card⟩

/-! ### Changed pointers -/

/-- A chain on which `g` agrees with `f` is a chain of `g`. -/
theorem Ends.congr (ends : Ends f n x z) (same : ∀ y, On f x y → g y = f y) : Ends g n x z := by
  induction ends with
  | here null => exact .here ((same _ .here).trans null)
  | step next _ ih =>
    exact .step ((same _ .here).trans next) (ih fun y on => same y (.step next on))

/-- Where `g` only clears pointers of `f`, chains still end. -/
theorem Ends.cut (ends : Ends f n x z) (cleared : ∀ y, g y = f y ∨ g y = none) :
    ∃ m w, Ends g m x w := by
  induction ends with
  | here null =>
    rcases cleared _ with same | null'
    · exact ⟨0, _, .here (same.trans null)⟩
    · exact ⟨0, _, .here null'⟩
  | step next _ ih =>
    rcases cleared _ with same | null
    · obtain ⟨m, w, ends⟩ := ih
      exact ⟨m + 1, w, .step (same.trans next) ends⟩
    · exact ⟨0, _, .here null⟩

section Update

variable [DecidableEq α]

/-- A null pointer set to a cell whose chain does not pass it. -/
theorem Ends.update_some {n' : Nat} {p q u : α} (ends : Ends f n x z)
    (target : Ends f n' p q) (off : ¬On f p u) :
    ∃ m w, Ends (Function.update f u (some p)) m x w := by
  have rest : Ends (Function.update f u (some p)) n' p q := by
    refine target.congr fun y on => Function.update_of_ne ?_ _ _
    rintro rfl
    exact off on
  induction ends with
  | @here x null =>
    by_cases same : x = u
    · subst same
      exact ⟨_, _, .step (Function.update_self ..) rest⟩
    · exact ⟨0, x, .here ((Function.update_of_ne same _ _).trans null)⟩
  | @step n x y z next _ ih =>
    by_cases same : x = u
    · subst same
      exact ⟨_, _, .step (Function.update_self ..) rest⟩
    · obtain ⟨m, w, ends⟩ := ih
      exact ⟨m + 1, w, .step ((Function.update_of_ne same _ _).trans next) ends⟩

end Update

/-! ### The cells in order -/

/-- From `x` on the cells are those of `l`. -/
def Cells (f : α → Option α) : Option α → List α → Prop
  | x, [] => x = none
  | x, a :: l => x = some a ∧ Cells f (f a) l

section Cells

variable {start : Option α} {l : List α} {a : α}

theorem Cells.head (cells : Cells f start l) : start = l.head? := by
  cases l with
  | nil => exact cells
  | cons => exact cells.1

theorem Cells.congr (cells : Cells f start l) (same : ∀ y ∈ l, g y = f y) : Cells g start l := by
  induction l generalizing start with
  | nil => exact cells
  | cons b l ih =>
    refine ⟨cells.1, ?_⟩
    rw [same b List.mem_cons_self]
    exact ih cells.2 fun y member => same y (List.mem_cons_of_mem _ member)

theorem Cells.climb (cells : Cells f (some x) (l ++ [z])) {rounds : Nat} (long : l.length < rounds) :
    Chain.climb f rounds x = some z := by
  induction l generalizing x rounds with
  | nil =>
    obtain ⟨rounds, rfl⟩ := Nat.exists_eq_add_of_lt long
    obtain ⟨rfl, null⟩ : x = z ∧ f z = none := by simpa [Cells] using cells
    simp [Chain.climb, null]
  | cons b l ih =>
    obtain ⟨rounds, rfl⟩ : ∃ n, rounds = n + 1 := ⟨rounds - 1, by omega⟩
    obtain rfl := Option.some.inj cells.1
    cases next : f x with
    | none => cases l <;> simp [Cells, next] at cells
    | some y =>
      rw [Chain.climb, next]
      exact ih (next ▸ cells.2) (by simpa using long)

/-- A new cell behind the last one. -/
theorem Cells.concat [DecidableEq α] (cells : Cells f start (l ++ [z])) (nodup : (l ++ [z]).Nodup)
    (fresh : a ∉ l ++ [z]) (null : f a = none) : Cells (Function.update f z (some a)) start (l ++ [z] ++ [a]) := by
  induction l generalizing start with
  | nil =>
    have other : a ≠ z := by simpa using fresh
    exact ⟨cells.1, Function.update_self .., (Function.update_of_ne other _ _).trans null⟩
  | cons b l ih =>
    have other : b ≠ z := by
      rintro rfl
      simp at nodup
    refine ⟨cells.1, ?_⟩
    rw [Function.update_of_ne other]
    exact ih cells.2 (List.nodup_cons.mp nodup).2 fun member => fresh (List.mem_cons_of_mem _ member)

end Cells

end Chain
