import Mathlib.Data.List.DropRight
import Mathlib.Data.List.Basic

/-!
# Tokens of a text

The non-empty pieces of a list between the elements a predicate calls separators.  The maximal runs of
separators themselves are the tokens of the opposite predicate.
-/

namespace Tokens

variable {α β : Type} {p q : α → Bool} {s t : List α} {a : α}

/-- The non-empty pieces of a text between its separators, in order. -/
def tokens (p : α → Bool) (s : List α) : List (List α) :=
  (s.splitOnP p).filter fun t => !t.isEmpty

@[simp] theorem tokens_nil : tokens p [] = [] := by
  simp [tokens]

/-- Two texts with a separator between them have the tokens of the one and then those of the other. -/
theorem tokens_append_cons (s t : List α) (sep : p a = true) : tokens p (s ++ a :: t) = tokens p s ++ tokens p t := by
  simp only [tokens, List.splitOnP_append_cons s t sep, List.filter_append]

theorem tokens_cons (s : List α) (sep : p a = true) : tokens p (a :: s) = tokens p s :=
  tokens_append_cons [] s sep

theorem tokens_word (word : ∀ x ∈ s, p x = false) (some : s ≠ []) : tokens p s = [s] := by
  simp [tokens, List.splitOnP_eq_singleton word, some]

theorem tokens_blank_append (t : List α) (blank : ∀ x ∈ s, p x = true) : tokens p (s ++ t) = tokens p t := by
  induction s with
  | nil => rfl
  | cons x s ih =>
    rw [List.cons_append, tokens_cons _ (blank x List.mem_cons_self)]
    exact ih fun y mem => blank y (List.mem_cons_of_mem x mem)

theorem tokens_blank (blank : ∀ x ∈ s, p x = true) : tokens p s = [] := by
  rw [← List.append_nil s, tokens_blank_append [] blank, tokens_nil]

theorem tokens_append_blank (s : List α) (blank : ∀ x ∈ t, p x = true) : tokens p (s ++ t) = tokens p s := by
  match t with
  | [] => rw [List.append_nil]
  | a :: t =>
    rw [tokens_append_cons s t (blank a List.mem_cons_self),
      tokens_blank fun y mem => blank y (List.mem_cons_of_mem a mem), List.append_nil]

/-- The first token is what stands before the first separator. -/
theorem tokens_step (word : p a = false) :
    tokens p (a :: s) = (a :: s.takeWhile fun x => !p x) :: tokens p (s.dropWhile fun x => !p x) := by
  have taken : ∀ x ∈ a :: s.takeWhile (fun x => !p x), p x = false := by
    intro x mem
    rcases List.mem_cons.mp mem with rfl | mem
    · exact word
    · simpa using List.mem_takeWhile_imp mem
  have parts : a :: s = (a :: s.takeWhile fun x => !p x) ++ s.dropWhile fun x => !p x := by
    rw [List.cons_append, List.takeWhile_append_dropWhile]
  match rest : s.dropWhile fun x => !p x with
  | [] =>
    rw [rest, List.append_nil] at parts
    rw [tokens_nil, ← parts]
    exact tokens_word (fun x mem => taken x (parts ▸ mem)) (List.cons_ne_nil a s)
  | b :: t =>
    -- what stops the token is a separator, which starts no token itself
    have sep : p b = true := by
      have stopped := List.head_dropWhile_not (fun x => !p x) (l := s) (by rw [rest]; exact List.cons_ne_nil b t)
      simpa [rest] using stopped
    rw [parts, rest, tokens_append_cons _ t sep, tokens_word taken (List.cons_ne_nil _ _), tokens_cons t sep]
    rfl

/-- The separator that ends a token can be skipped with it. -/
theorem tokens_tail_dropWhile (s : List α) :
    tokens p (s.dropWhile fun x => !p x).tail = tokens p (s.dropWhile fun x => !p x) := by
  match rest : s.dropWhile fun x => !p x with
  | [] => rfl
  | b :: t =>
    have stopped := List.head_dropWhile_not (fun x => !p x) (l := s) (by rw [rest]; exact List.cons_ne_nil b t)
    have sep : p b = true := by simpa [rest] using stopped
    rw [List.tail_cons, tokens_cons t sep]

/-- The text is gone through token by token, separator by separator. -/
theorem tokens_induction {motive : List α → Prop} (nil : motive [])
    (sep : ∀ a s, p a = true → motive s → motive (a :: s))
    (token : ∀ a s, p a = false → motive (s.dropWhile fun x => !p x) → motive (a :: s)) (s : List α) : motive s := by
  match s with
  | [] => exact nil
  | a :: s =>
    have smaller := (List.dropWhile_sublist (fun x => !p x) (l := s)).length_le
    cases kind : p a with
    | true => exact sep a s kind (tokens_induction nil sep token s)
    | false => exact token a s kind (tokens_induction nil sep token _)
termination_by s.length

theorem mem_token (mem : t ∈ tokens p s) (inside : a ∈ t) : a ∈ s ∧ p a = false := by
  induction s using tokens_induction (p := p) with
  | nil => simp at mem
  | sep b s sep ih =>
    rw [tokens_cons s sep] at mem
    exact ⟨List.mem_cons_of_mem b (ih mem).1, (ih mem).2⟩
  | token b s word ih =>
    rw [tokens_step word] at mem
    rcases List.mem_cons.mp mem with rfl | mem
    · rcases List.mem_cons.mp inside with rfl | inside
      · exact ⟨List.mem_cons_self, word⟩
      · exact ⟨List.mem_cons_of_mem b ((List.takeWhile_sublist _).mem inside),
          by simpa using List.mem_takeWhile_imp inside⟩
    · exact ⟨List.mem_cons_of_mem b ((List.dropWhile_sublist _).mem (ih mem).1), (ih mem).2⟩

theorem exists_token (mem : a ∈ s) (word : p a = false) : ∃ t ∈ tokens p s, a ∈ t := by
  induction s using tokens_induction (p := p) with
  | nil => simp at mem
  | sep b s sep ih =>
    have mem : a ∈ s := by
      rcases List.mem_cons.mp mem with rfl | mem
      · rw [sep] at word
        cases word
      · exact mem
    rw [tokens_cons s sep]
    exact ih mem
  | token b s other ih =>
    rw [tokens_step other]
    rw [← List.takeWhile_append_dropWhile (p := fun x => !p x) (l := s), ← List.cons_append, List.mem_append] at mem
    rcases mem with mem | mem
    · exact ⟨_, List.mem_cons_self, mem⟩
    · obtain ⟨t, found, inside⟩ := ih mem
      exact ⟨t, List.mem_cons_of_mem _ found, inside⟩

theorem tokens_eq_nil : tokens p s = [] ↔ ∀ x ∈ s, p x = true := by
  constructor
  · intro none x mem
    by_contra word
    obtain ⟨t, found, -⟩ := exists_token mem (Bool.eq_false_iff.mpr word)
    rw [none] at found
    exact List.not_mem_nil found
  · exact tokens_blank

theorem splitOnP_congr (same : ∀ x ∈ s, p x = q x) : s.splitOnP p = s.splitOnP q := by
  induction s with
  | nil => rw [List.splitOnP_nil, List.splitOnP_nil]
  | cons a s ih =>
    rw [List.splitOnP_cons_eq_if_modifyHead, List.splitOnP_cons_eq_if_modifyHead, same a List.mem_cons_self,
      ih fun x mem => same x (List.mem_cons_of_mem a mem)]

theorem tokens_congr (same : ∀ x ∈ s, p x = q x) : tokens p s = tokens q s := by
  rw [tokens, tokens, splitOnP_congr same]

/-- What is put before a text without a separator goes to the first piece. -/
theorem splitOnP_append (s : List α) (word : ∀ x ∈ t, p x = false) :
    (t ++ s).splitOnP p = (s.splitOnP p).modifyHead (t ++ ·) := by
  induction t with
  | nil => cases pieces : s.splitOnP p <;> simp [pieces]
  | cons a t ih =>
    have other := word a List.mem_cons_self
    rw [List.cons_append, List.splitOnP_cons_eq_if_modifyHead, other,
      ih fun x mem => word x (List.mem_cons_of_mem a mem)]
    cases s.splitOnP p <;> simp

section Around

variable (f : List α → β)

theorem map_splitOnP_blank_append (s : List α) (word : ∀ x ∈ t, p x = false) (blank : ∀ u, f (t ++ u) = f u) :
    ((t ++ s).splitOnP p).map f = (s.splitOnP p).map f := by
  rw [splitOnP_append s word]
  cases s.splitOnP p with
  | nil => rfl
  | cons piece pieces => simp [blank piece]

theorem map_splitOnP_append_blank (s : List α) (word : ∀ x ∈ t, p x = false) (blank : ∀ u, f (u ++ t) = f u) :
    ((s ++ t).splitOnP p).map f = (s.splitOnP p).map f := by
  by_cases split : ∃ a ∈ s, p a = true
  · obtain ⟨a, mem, sep⟩ := split
    obtain ⟨u, v, parts⟩ := List.append_of_mem mem
    have shorter : v.length < s.length := by
      rw [parts, List.length_append, List.length_cons]
      omega
    rw [parts, List.append_assoc, List.cons_append, List.splitOnP_append_cons u _ sep, List.splitOnP_append_cons u v sep,
      List.map_append, List.map_append, map_splitOnP_append_blank v word blank]
  · have whole : ∀ x ∈ s, p x = false := fun x mem => Bool.eq_false_iff.mpr fun sep => split ⟨x, mem, sep⟩
    have longer : ∀ x ∈ s ++ t, p x = false := fun x mem => (List.mem_append.mp mem).elim (whole x) (word x)
    rw [List.splitOnP_eq_singleton longer, List.splitOnP_eq_singleton whole, List.map_singleton, List.map_singleton,
      blank s]
termination_by s.length

end Around

end Tokens
