import Mathlib.Data.List.Basic
import Mathlib.Tactic.Common

/-!
# Steps of programs

A program that can be stopped between any two of its steps is a list of functions on the state. A program
whose steps can fail is taken apart at its binds, and a loop of such steps is proved by an invariant.
-/

namespace Steps

variable {σ : Type*}

/-- Take all steps in order. -/
def run (program : List (σ → σ)) (s : σ) : σ :=
  program.foldl (fun s step => step s) s

@[simp] theorem run_cons (step : σ → σ) (rest : List (σ → σ)) (s : σ) :
    run (step :: rest) s = run rest (step s) := rfl

theorem run_append (first second : List (σ → σ)) (s : σ) :
    run (first ++ second) s = run second (run first s) :=
  List.foldl_append

/-- A loop body indexed by a counter, stopped after `k` rounds, satisfies the `k`-th
invariant. -/
theorem run_range_inv (body : Nat → σ → σ) (Inv : Nat → σ → Prop) (n : Nat) (s : σ)
    (initial : Inv 0 s) (round : ∀ i < n, ∀ s, Inv i s → Inv (i + 1) (body i s)) :
    ∀ k ≤ n, Inv k (run ((List.range k).map body) s) := by
  intro k
  induction k with
  | zero => exact fun _ => initial
  | succ k ih =>
    intro bound
    rw [List.range_succ, List.map_append, run_append]
    exact round k (by omega) _ (ih (by omega))

theorem take_range_map (body : Nat → σ → σ) (n k : Nat) :
    ((List.range n).map body).take k = (List.range (min k n)).map body := by
  rw [← List.map_take, List.take_range]

/-! ### Steps that can fail -/

variable {ε α β : Type}

theorem ok_bind {x : Except ε α} {f : α → Except ε β} {a : α} (ran : x = .ok a) : (x >>= f) = f a := by
  rw [ran]
  rfl

theorem bind_ok {x : Except ε α} {f : α → Except ε β} {r : β} (ran : x >>= f = .ok r) :
    ∃ a, x = .ok a ∧ f a = .ok r := by
  cases x with
  | error e => cases ran
  | ok a => exact ⟨a, rfl, ran⟩

theorem bind_error {x : Except ε α} {f : α → Except ε β} {e : ε} (ran : x >>= f = .error e) :
    x = .error e ∨ ∃ a, x = .ok a ∧ f a = .error e := by
  cases x with
  | error e' =>
    cases ran
    exact .inl rfl
  | ok a => exact .inr ⟨a, rfl, ran⟩

/-- A view of the results of a program is the program on the views, step by step. -/
theorem map_bind {α' β' : Type} {π : α → α'} {ρ : β → β'} {x : Except ε α} {y : Except ε α'} {f : α → Except ε β}
    {g : α' → Except ε β'} (first : x.map π = y) (each : ∀ a, (f a).map ρ = g (π a)) :
    (x >>= f).map ρ = y >>= g := by
  subst first
  cases x with
  | error e => rfl
  | ok a => exact each a

theorem map_eq_ok {π : α → β} {x : Except ε α} {b : β} (ran : x.map π = .ok b) : ∃ a, x = .ok a ∧ π a = b := by
  cases x with
  | error e => cases ran
  | ok a =>
    cases ran
    exact ⟨a, rfl, rfl⟩

theorem mapError_ok {ε' : Type} {g : ε → ε'} {x : Except ε α} {a : α} (ran : x.mapError g = .ok a) : x = .ok a := by
  cases x with
  | error e => cases ran
  | ok b =>
    cases ran
    rfl

/-- A loop that ends well keeps what every round keeps. -/
theorem foldlM_ok {γ : Type} {P : α → Prop} {body : α → γ → Except ε α}
    (round : ∀ a c a', P a → body a c = .ok a' → P a') {l : List γ} {a r : α} (start : P a)
    (ran : l.foldlM body a = .ok r) : P r := by
  induction l generalizing a with
  | nil =>
    cases ran
    exact start
  | cons c l ih =>
    rw [List.foldlM_cons] at ran
    obtain ⟨a', first, ran⟩ := bind_ok ran
    exact ih (round a c a' start first) ran

/-- `x` does not fail with `bad`, and what it returns satisfies `P`. -/
structure Avoids (bad : ε) (P : α → Prop) (x : Except ε α) : Prop where
  error_ne : ∀ {e}, x = .error e → e ≠ bad
  result : ∀ {a}, x = .ok a → P a

namespace Avoids

variable {bad : ε} {P P' : α → Prop} {Q : β → Prop} {x : Except ε α} {f : α → Except ε β}

theorem ok {a : α} (holds : P a) : Avoids bad P (.ok a) where
  error_ne := nofun
  result := by
    rintro _ ⟨⟩
    exact holds

theorem throw {e : ε} (other : e ≠ bad) : Avoids bad P (.error e) where
  error_ne := by
    rintro _ ⟨⟩
    exact other
  result := nofun

theorem bind (first : Avoids bad P x) (next : ∀ a, P a → Avoids bad Q (f a)) :
    Avoids bad Q (x >>= f) := by
  cases x with
  | error e => exact throw (first.error_ne rfl)
  | ok a => exact next a (first.result rfl)

/-- What the first step returns is known to be its result. -/
theorem bind_eq (first : Avoids bad P x) (next : ∀ a, x = .ok a → Avoids bad Q (f a)) :
    Avoids bad Q (x >>= f) := by
  cases x with
  | error e => exact throw (first.error_ne rfl)
  | ok a => exact next a rfl

theorem bind_of_ok {a : α} (ran : x = .ok a) : Avoids bad Q (x >>= f) ↔ Avoids bad Q (f a) := by
  subst ran
  exact Iff.rfl

theorem mono (first : Avoids bad P x) (weaken : ∀ a, P a → P' a) : Avoids bad P' x :=
  ⟨first.error_ne, fun ran => weaken _ (first.result ran)⟩

theorem map_iff (g : α → β) :
    (g <$> x ≠ .error bad ∧ ∀ b, g <$> x = .ok b → Q b) ↔ Avoids bad (fun a => Q (g a)) x := by
  constructor
  · rintro ⟨other, holds⟩
    cases x with
    | error e => exact throw fun same => other (congrArg Except.error same)
    | ok a => exact ok (holds (g a) rfl)
  · intro avoids
    cases x with
    | error e => exact ⟨fun same => avoids.error_ne rfl (Except.error.inj same), nofun⟩
    | ok a =>
      refine ⟨nofun, ?_⟩
      rintro b ⟨⟩
      exact avoids.result (a := a) rfl

theorem foldlM {γ : Type} {body : α → γ → Except ε α} (round : ∀ a c, Avoids bad P (body a c))
    (l : List γ) (a : α) (start : P a) : Avoids bad P (l.foldlM body a) := by
  induction l generalizing a with
  | nil => exact ok start
  | cons c l ih =>
    rw [List.foldlM_cons]
    exact (round a c).bind fun a' holds => ih a' holds

end Avoids

end Steps
