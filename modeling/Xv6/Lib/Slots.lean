import Mathlib.Data.List.GetD
import Mathlib.Logic.Function.Basic
import Mathlib.Tactic.Common

/-!
# Maps kept in slots

A table of slots, each empty or with a key and a value. `find` searches it from the front, `hole` is the
first empty slot, or the one behind the end, and `put` writes a slot. As long as no key stands in two
slots the table is a finite map, `toMap`.
-/

namespace Slots

open Function (update)

variable {κ ν : Type*} {t : List (Option (κ × ν))} {key key' : κ} {v w : ν} {i j : Nat}

/-- The first empty slot, or the length. -/
def hole : List (Option (κ × ν)) → Nat
  | [] => 0
  | none :: _ => 0
  | some _ :: t => hole t + 1

/-- Write a slot of the table, or the one behind it. -/
def put (t : List (Option (κ × ν))) (i : Nat) (e : Option (κ × ν)) : List (Option (κ × ν)) :=
  if i < t.length then t.set i e else t ++ [e]

/-- No key stands in two slots. -/
def Unique (t : List (Option (κ × ν))) : Prop :=
  ∀ (i j : Nat) key v w, t[i]? = some (some (key, v)) → t[j]? = some (some (key, w)) → i = j

/-! ### Holes -/

theorem hole_le : hole t ≤ t.length := by
  induction t with
  | nil => exact Nat.le_refl _
  | cons e t ih =>
    cases e with
    | none => exact Nat.zero_le _
    | some b => exact Nat.succ_le_succ ih

/-- A hole in front of the end is empty, and there is one if any slot is empty. -/
theorem hole_lt_iff : hole t < t.length ↔ none ∈ t := by
  induction t with
  | nil => simp [hole]
  | cons e t ih =>
    cases e with
    | none => simp [hole]
    | some b =>
      simp only [hole, List.length_cons, List.mem_cons, Nat.add_lt_add_iff_right, ih]
      exact ⟨.inr, fun member => member.resolve_left nofun⟩

theorem getElem?_hole (inside : hole t < t.length) : t[hole t]? = some none := by
  induction t with
  | nil => cases inside
  | cons e t ih =>
    cases e with
    | none => rfl
    | some b => exact ih (Nat.lt_of_succ_lt_succ inside)

theorem getElem?_hole_ne : t[hole t]? ≠ some (some (key, v)) := by
  rcases Nat.lt_or_ge (hole t) t.length with inside | behind
  · rw [getElem?_hole inside]
    nofun
  · rw [List.getElem?_eq_none behind]
    nofun

/-! ### Writing -/

theorem getElem?_put {e : Option (κ × ν)} (inside : i ≤ t.length) : (put t i e)[j]? = if j = i then some e else t[j]? := by
  unfold put
  split
  next within =>
    rw [List.getElem?_set]
    by_cases same : i = j
    · rw [if_pos same, if_pos within, if_pos same.symm]
    · rw [if_neg same, if_neg fun eq => same eq.symm]
  next behind =>
    obtain rfl : i = t.length := by omega
    by_cases same : j = t.length
    · rw [if_pos same, same, List.getElem?_append_right (Nat.le_refl _), Nat.sub_self]
      rfl
    · rw [if_neg same]
      rcases Nat.lt_or_ge j t.length with before | after
      · rw [List.getElem?_append_left before]
      · rw [List.getElem?_eq_none after, List.getElem?_eq_none (by simp; omega)]

theorem Unique.clear (unique : Unique t) (inside : i ≤ t.length) : Unique (put t i none) := by
  intro j j' other u w first second
  rw [getElem?_put inside] at first second
  split at first
  · cases first
  · split at second
    · cases second
    · exact unique j j' other u w first second

section Maps

variable [DecidableEq κ]

/-- The first slot with `key`, and its value. -/
def find (key : κ) : List (Option (κ × ν)) → Option (Nat × ν)
  | [] => none
  | e :: t =>
    match e with
    | none => (find key t).map fun (i, v) => (i + 1, v)
    | some (other, v) => if other = key then some (0, v) else (find key t).map fun (i, v) => (i + 1, v)

/-- The finite map of a table. -/
def toMap (t : List (Option (κ × ν))) (key : κ) : Option ν := (find key t).map Prod.snd

/-! ### Searching -/

theorem find_cons {e : Option (κ × ν)} : find key (e :: t) =
    if e.map Prod.fst = some key then e.map fun b => (0, b.2) else (find key t).map fun (i, v) => (i + 1, v) := by
  cases e with
  | none => rfl
  | some b =>
    simp only [find, Option.map_some, Option.some.injEq]

theorem getElem?_of_find : ∀ {t : List (Option (κ × ν))} {i : Nat}, find key t = some (i, v) →
    t[i]? = some (some (key, v)) := by
  intro t
  induction t with
  | nil => nofun
  | cons e t ih =>
    intro i found
    rw [find_cons] at found
    split at found
    next here =>
      obtain ⟨⟨other, v'⟩, rfl, same⟩ := Option.map_eq_some_iff.mp here
      cases found
      cases same
      rfl
    · obtain ⟨⟨i', v'⟩, later, same⟩ := Option.map_eq_some_iff.mp found
      cases same
      exact ih later

theorem find_eq_none_iff : find key t = none ↔ ∀ (i : Nat) v, t[i]? ≠ some (some (key, v)) := by
  induction t with
  | nil => simp [find]
  | cons e t ih =>
    rw [find_cons]
    split
    next here =>
      obtain ⟨⟨other, v⟩, rfl, same⟩ := Option.map_eq_some_iff.mp here
      cases same
      exact iff_of_false nofun fun absent => absent 0 v rfl
    next other =>
      rw [Option.map_eq_none_iff, ih]
      constructor
      · rintro absent (_ | i) v is
        · cases Option.some.inj is
          exact other rfl
        · exact absent i v is
      · exact fun absent i => absent (i + 1)

theorem Unique.find_eq (unique : Unique t) (is : t[i]? = some (some (key, v))) : find key t = some (i, v) := by
  cases found : find key t with
  | none => exact absurd is (find_eq_none_iff.mp found i v)
  | some r =>
    obtain ⟨j, w⟩ := r
    have there := getElem?_of_find found
    obtain rfl := unique i j key v w is there
    rw [is] at there
    cases there
    rfl

theorem toMap_eq_none_iff : toMap t key = none ↔ ∀ (i : Nat) v, t[i]? ≠ some (some (key, v)) := by
  rw [toMap, Option.map_eq_none_iff, find_eq_none_iff]

theorem Unique.toMap_eq_some_iff (unique : Unique t) : toMap t key = some v ↔ ∃ i : Nat, t[i]? = some (some (key, v)) := by
  constructor
  · intro bound
    obtain ⟨⟨i, w⟩, found, rfl⟩ := Option.map_eq_some_iff.mp bound
    exact ⟨i, getElem?_of_find found⟩
  · rintro ⟨i, is⟩
    rw [toMap, unique.find_eq is]
    rfl

/-! ### Changing the map -/

theorem Unique.put_hole (unique : Unique t) (absent : toMap t key = none) : Unique (put t (hole t) (some (key, v))) := by
  intro i j other u w first second
  rw [getElem?_put hole_le] at first second
  have absent := toMap_eq_none_iff.mp absent
  split at first
  next here =>
    split at second
    next there => exact here.trans there.symm
    · cases first
      exact absurd second (absent j w)
  · split at second
    · cases second
      exact absurd first (absent i u)
    · exact unique i j other u w first second

theorem Unique.toMap_put_hole (unique : Unique t) (absent : toMap t key = none) :
    toMap (put t (hole t) (some (key, v))) = update (toMap t) key (some v) := by
  have unique' := unique.put_hole (v := v) absent
  funext other
  by_cases same : other = key
  · rw [same, Function.update_self, unique'.toMap_eq_some_iff]
    exact ⟨hole t, by rw [getElem?_put hole_le, if_pos rfl]⟩
  · rw [Function.update_of_ne same]
    refine Option.ext fun u => ?_
    rw [unique'.toMap_eq_some_iff, unique.toMap_eq_some_iff]
    constructor
    · rintro ⟨i, is⟩
      rw [getElem?_put hole_le] at is
      split at is
      · cases is
        exact absurd rfl same
      · exact ⟨i, is⟩
    · rintro ⟨i, is⟩
      refine ⟨i, ?_⟩
      rw [getElem?_put hole_le, if_neg, is]
      rintro rfl
      exact getElem?_hole_ne is

theorem Unique.toMap_clear (unique : Unique t) (is : t[i]? = some (some (key, v))) :
    toMap (put t i none) = update (toMap t) key none := by
  have inside : i ≤ t.length := Nat.le_of_lt (List.getElem?_eq_some_iff.mp is).1
  have unique' := unique.clear inside
  funext other
  by_cases same : other = key
  · subst same
    rw [Function.update_self, toMap_eq_none_iff]
    intro j u there
    rw [getElem?_put inside] at there
    split at there
    · cases there
    next apart => exact apart (unique j i other u v there is)
  · rw [Function.update_of_ne same]
    refine Option.ext fun u => ?_
    rw [unique'.toMap_eq_some_iff, unique.toMap_eq_some_iff]
    constructor
    · rintro ⟨j, there⟩
      rw [getElem?_put inside] at there
      split at there
      · cases there
      · exact ⟨j, there⟩
    · rintro ⟨j, there⟩
      refine ⟨j, ?_⟩
      rw [getElem?_put inside, if_neg, there]
      rintro rfl
      rw [is] at there
      cases there
      exact same rfl

end Maps

end Slots
