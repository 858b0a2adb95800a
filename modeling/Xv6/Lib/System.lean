import Mathlib.Tactic.Common

/-!
# Labelled transition systems

A system is a set of initial states and a partial step function; what is not determined by the state is
part of the label. `Reach` collects the states of all runs whose steps meet a side condition.
-/

structure System (σ α : Type*) where
  init : σ → Prop
  step : σ → α → Option σ

namespace System

variable {σ α : Type*} (S : System σ α)

/-- States reached by runs all of whose steps meet `ok`. -/
inductive Reach (ok : σ → α → Prop) : σ → Prop where
  | init {s} : S.init s → Reach ok s
  | step {s a t} : Reach ok s → ok s a → S.step s a = some t → Reach ok t

/-- No side condition: every run. -/
def Any (_ : σ) (_ : α) : Prop := True

variable {S} {ok : σ → α → Prop}

/-- What holds initially and is kept by every admitted step holds in every reached state. -/
theorem Reach.invariant {P : σ → Prop} (initial : ∀ s, S.init s → P s)
    (kept : ∀ s a t, P s → ok s a → S.step s a = some t → P t) {s : σ} (reach : S.Reach ok s) :
    P s := by
  induction reach with
  | init h => exact initial _ h
  | step _ admitted stepped ih => exact kept _ _ _ ih admitted stepped

variable (S) in
/-- Run a list of labels, checking the side condition before each step. -/
def exec (ok : σ → α → Prop) [∀ s a, Decidable (ok s a)] : List α → σ → Option σ
  | [], s => some s
  | a :: rest, s => if ok s a then (S.step s a).bind (exec ok rest) else none

theorem Reach.exec [∀ s a, Decidable (ok s a)] {s t : σ} (reach : S.Reach ok s) :
    ∀ {labels : List α}, S.exec ok labels s = some t → S.Reach ok t := by
  intro labels
  induction labels generalizing s with
  | nil =>
    intro same
    cases same
    exact reach
  | cons a rest ih =>
    intro ran
    simp only [System.exec] at ran
    split at ran
    next admitted =>
      obtain ⟨u, stepped, ran⟩ := Option.bind_eq_some_iff.mp ran
      exact ih (.step reach admitted stepped) ran
    · cases ran

/-- A run reaches the state it computes. -/
theorem Reach.of_exec (ok : σ → α → Prop) [∀ s a, Decidable (ok s a)] (labels : List α) {s : σ}
    (initial : S.init s) {P : σ → Bool} (ran : (S.exec ok labels s).any P = true) : ∃ t, S.Reach ok t ∧ P t = true := by
  cases run : S.exec ok labels s with
  | none => simp [run] at ran
  | some t =>
    simp only [run, Option.any_some] at ran
    exact ⟨t, .exec (.init initial) run, ran⟩

instance (s : σ) (a : α) : Decidable (Any s a) := .isTrue trivial

end System
