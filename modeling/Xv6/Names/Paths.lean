import Mathlib.Data.List.TakeWhile
import Xv6.Dirs.Entries
import Xv6.Names.Model

/-!
# The parts of a path

What `skipelem` takes off a path, one after the other: the parts between runs of slashes, each cut off
after 14 bytes. The buffer it leaves compares like the part, whatever was in it before.
-/

namespace Xv6.Names

open Bytes Fs Dirs

/-- A path ends at its first NUL. -/
structure Path where
  bytes : List Byte
  terminated : 0 ∉ bytes

/-- The path split at runs of slashes, without empty parts, each part cut off at `DIRSIZ` bytes. -/
def parts (path : List Byte) : List (List Byte) :=
  ((path.splitOn slash).filter (· ≠ [])).map (·.take DIRSIZ)

@[simp] theorem parts_nil : parts [] = [] := rfl

@[simp] theorem parts_slash (path : List Byte) : parts (slash :: path) = parts path := by
  rw [parts, List.splitOn_cons_eq_if_modifyHead, if_pos (by simp)]
  simp [parts]

theorem parts_dropWhile (path : List Byte) : parts (path.dropWhile (· == slash)) = parts path := by
  induction path with
  | nil => rfl
  | cons b path ih =>
    by_cases here : b = slash
    · subst here
      rw [List.dropWhile_cons, if_pos (by simp), ih, parts_slash]
    · rw [List.dropWhile_cons, if_neg (by simpa using here)]

theorem parts_append {part rest : List Byte} (some_ : part ≠ []) (plain : slash ∉ part)
    (ends : rest = [] ∨ ∃ more, rest = slash :: more) : parts (part ++ rest) = part.take DIRSIZ :: parts rest := by
  rcases ends with rfl | ⟨more, rfl⟩
  · rw [List.append_nil, parts, List.splitOn_eq_singleton plain]
    simp [some_]
  · rw [parts_slash, parts, List.splitOn_append_cons_self, List.splitOn_eq_singleton plain]
    simp [some_, parts]

/-! ### `skipelem` -/

/-- A buffer that holds `part`, with a NUL behind it if there is space. -/
theorem prefixKey_of_holds {n : Nat} {name : Str} {part : List Byte} (same : ∀ i < n, i < part.length → name i = part.getD i 0)
    (terminated : 0 ∉ part) (ends : part.length < n → name part.length = 0) : prefixKey n name = part.take n := by
  induction n generalizing name part with
  | zero => rfl
  | succ n ih =>
    cases part with
    | nil =>
      have zero : name 0 = 0 := ends (Nat.succ_pos n)
      rw [prefixKey, if_pos zero, List.take_nil]
    | cons b part =>
      have first : name 0 = b := same 0 (Nat.succ_pos n) (Nat.succ_pos _)
      have nonzero : name 0 ≠ 0 := fun zero => terminated (by rw [← zero, first]; exact List.mem_cons_self)
      rw [prefixKey, if_neg nonzero, first, List.take_succ_cons]
      congr 1
      refine ih (fun i small inside => ?_) (fun member => terminated (List.mem_cons_of_mem _ member)) fun small => ?_
      · rw [same (i + 1) (by omega) (Nat.succ_lt_succ inside), List.getD_cons_succ]
      · exact ends (Nat.succ_lt_succ small)

theorem skipelem_none {path : List Byte} {name : Str} (scanned : skipelem path name = none) : parts path = [] := by
  unfold skipelem at scanned
  dsimp only at scanned
  split at scanned
  next empty => rw [← parts_dropWhile, empty, parts_nil]
  next => cases scanned

/-- The next part, and what stays. -/
structure Skipped (path rest : List Byte) (name : Str) : Prop where
  parts : parts path = key name :: parts rest
  start : rest.head? ≠ some slash
  terminated : 0 ∉ rest

theorem parts_ne_nil {rest : List Byte} (start : rest.head? ≠ some slash) : parts rest = [] ↔ rest = [] := by
  constructor
  · intro none
    cases rest with
    | nil => rfl
    | cons b rest =>
      have plain : b ≠ slash := fun same => start (congrArg some same)
      rw [parts, List.splitOn_cons_eq_if_modifyHead, if_neg (by simpa using plain)] at none
      obtain ⟨first, others, split⟩ := List.exists_cons_of_ne_nil (List.splitOn_ne_nil slash rest)
      rw [split] at none
      simp at none
  · rintro rfl
    rfl

theorem head?_dropWhile_slash (path : List Byte) : (path.dropWhile (· == slash)).head? ≠ some slash := by
  intro here
  have first := List.head?_dropWhile_not (· == slash) path
  rw [here] at first
  simp at first

theorem part_scanned (s : List Byte) : ∃ part behind, s = part ++ behind ∧ slash ∉ part ∧
    (behind = [] ∨ ∃ more, behind = slash :: more) ∧ s.dropWhile (· != slash) = behind := by
  refine ⟨s.takeWhile (· != slash), s.dropWhile (· != slash), List.takeWhile_append_dropWhile.symm, ?_, ?_, rfl⟩
  · intro member
    have := List.mem_takeWhile_imp member
    simp at this
  · cases behind : s.dropWhile (· != slash) with
    | nil => exact .inl rfl
    | cons b more =>
      have first := List.head?_dropWhile_not (· != slash) s
      rw [behind] at first
      simp only [List.head?_cons, bne_eq_false_iff_eq] at first
      exact .inr ⟨more, by rw [first]⟩

theorem key_copied (name : Str) {part behind : List Byte} (terminated : 0 ∉ part) :
    key (if DIRSIZ ≤ part.length then memmove name (part ++ behind) DIRSIZ
      else Function.update (memmove name (part ++ behind) part.length) part.length 0) = part.take DIRSIZ := by
  refine prefixKey_of_holds (fun i small inside => ?_) terminated fun short => ?_
  · have copied : (part ++ behind).getD i 0 = part.getD i 0 := by
      simp only [List.getD_eq_getElem?_getD]
      rw [List.getElem?_append_left inside]
    split
    · rw [memmove, if_pos small, copied]
    · rw [Function.update_of_ne (by omega), memmove, if_pos inside, copied]
  · rw [if_neg (by omega), Function.update_self]

theorem skipelem_some {path rest : List Byte} {name name' : Str} (terminated : 0 ∉ path)
    (scanned : skipelem path name = some (rest, name')) : Skipped path rest name' := by
  unfold skipelem at scanned
  dsimp only at scanned
  split at scanned
  next => cases scanned
  next more =>
    have first := head?_dropWhile_slash path
    have inPath : ∀ b ∈ path.dropWhile (· == slash), b ∈ path := fun b member => (List.dropWhile_suffix _).subset member
    have same := parts_dropWhile path
    generalize path.dropWhile (· == slash) = s at scanned more first inPath same
    obtain ⟨part, behind, rfl, plain, ends, dropped⟩ := part_scanned s
    have length : (part ++ behind).length - behind.length = part.length := by
      rw [List.length_append]
      omega
    rw [dropped, length] at scanned
    simp only [Option.some.injEq, Prod.mk.injEq] at scanned
    obtain ⟨rfl, rfl⟩ := scanned
    have some_ : part ≠ [] := by
      rintro rfl
      rcases ends with rfl | ⟨_, rfl⟩
      · exact more rfl
      · exact first rfl
    refine ⟨?_, head?_dropWhile_slash behind, fun zero => ?_⟩
    · rw [← same, parts_append some_ plain ends, parts_dropWhile, key_copied]
      exact fun zero => terminated (inPath 0 (List.mem_append_left _ zero))
    · exact terminated (inPath 0 (List.mem_append_right _ ((List.dropWhile_suffix _).subset zero)))

end Xv6.Names
