import Xv6.Dirs.Model
import Xv6.Fs.Refinement
import Xv6.Lib.Slots

/-!
# The contents of a directory as a table

Names are compared by their keys: the bytes up to the first NUL or the fourteenth. The contents of a
directory are a table of slots, one for each 16 bytes, and a write of one entry is a `put` on the table.
-/

namespace Xv6.Dirs

open Bytes Fs

/-! ### Keys -/

/-- The bytes in front of the first NUL, at most `n` of them. -/
def prefixKey : Nat → Str → List Byte
  | 0, _ => []
  | n + 1, p => if p 0 = 0 then [] else p 0 :: prefixKey n fun i => p (i + 1)

/-- What a name is compared by. -/
def key (name : Str) : List Byte := prefixKey DIRSIZ name

theorem strncmp_eq_zero_iff : ∀ {n : Nat} {p q : Str}, strncmp n p q = 0 ↔ prefixKey n p = prefixKey n q := by
  intro n
  induction n with
  | zero => exact fun {_ _} => iff_of_true rfl rfl
  | succ n ih =>
    intro p q
    simp only [strncmp, prefixKey]
    by_cases end_ : p 0 = 0
    · rw [if_neg (by simp [end_]), if_pos end_]
      by_cases last : q 0 = 0
      · simp [end_, last]
      · rw [if_neg last]
        refine iff_of_false (fun zero => last ?_) nofun
        have zero' : (p 0).toNat = 0 := by rw [end_]; rfl
        exact BitVec.eq_of_toNat_eq (show (q 0).toNat = 0 by omega)
    · by_cases same : p 0 = q 0
      · rw [if_pos ⟨end_, same⟩, ih, if_neg end_, if_neg (same ▸ end_), ← same]
        simp
      · rw [if_neg (by simp [same]), if_neg end_]
        refine iff_of_false (fun zero => same (BitVec.eq_of_toNat_eq (by omega))) ?_
        split
        · nofun
        · exact fun is => same (List.cons.inj is).1

theorem namecmp_eq_zero_iff {s t : Str} : namecmp s t = 0 ↔ key s = key t := strncmp_eq_zero_iff

@[simp] theorem length_strncpy : ∀ (n : Nat) (t : Str), (strncpy n t).length = n := by
  intro n
  induction n with
  | zero => exact fun _ => rfl
  | succ n ih =>
    intro t
    simp only [strncpy]
    split
    · rw [List.length_cons, ih]
    · exact List.length_replicate

theorem prefixKey_strncpy : ∀ (n : Nat) (t : Str), prefixKey n (literal (strncpy n t)) = prefixKey n t := by
  intro n
  induction n with
  | zero => exact fun _ => rfl
  | succ n ih =>
    intro t
    by_cases end_ : t 0 = 0
    · have zero : literal (strncpy (n + 1) t) 0 = 0 := by simp [literal, strncpy, end_, List.replicate_succ]
      rw [prefixKey, if_pos zero, prefixKey, if_pos end_]
    · have copied : strncpy (n + 1) t = t 0 :: strncpy n fun i => t (i + 1) := if_pos end_
      have rest := ih fun i => t (i + 1)
      rw [copied, prefixKey, prefixKey, if_neg end_, if_neg (show literal (t 0 :: _) 0 ≠ 0 from end_), ← rest]
      rfl

/-! ### Slots -/

/-- What an entry binds. -/
def Dirent.binding (de : Dirent) : Option (List Byte × Nat) :=
  if de.inum = 0 then none else some (key (literal de.name), de.inum)

/-- The entry with number `j`. -/
def entryBytes (contents : List Byte) (j : Nat) : List Byte := (contents.drop (direntSize * j)).take direntSize

/-- The contents of a directory as a table. -/
def slots (contents : List Byte) : List (Option (List Byte × Nat)) :=
  (List.range (contents.length / direntSize)).map fun j => (dirent (entryBytes contents j)).binding

@[simp] theorem length_slots {contents : List Byte} : (slots contents).length = contents.length / direntSize := by
  simp [slots]

theorem getElem?_slots {contents : List Byte} {j : Nat} (inside : j < contents.length / direntSize) :
    (slots contents)[j]? = some (dirent (entryBytes contents j)).binding := by
  simp [slots, inside]

/-- What `dirlink` writes binds the key of the name. -/
theorem binding_bytes (name : Str) {inum : Nat} (some_ : 1 ≤ inum) (small : inum < 65536) :
    (dirent (Dirent.bytes { inum, name := strncpy DIRSIZ name })).binding = some (key name, inum) := by
  have number : (dirent (Dirent.bytes { inum, name := strncpy DIRSIZ name })).inum = inum := by
    simp only [dirent, Dirent.bytes, List.getD_cons_zero, List.getD_cons_succ, BitVec.toNat_ofNat]
    omega
  have same : (dirent (Dirent.bytes { inum, name := strncpy DIRSIZ name })).name = strncpy DIRSIZ name := by
    simp only [dirent, Dirent.bytes, List.drop_succ_cons, List.drop_zero]
    exact List.take_of_length_le (by simp)
  rw [Dirent.binding, number, same, if_neg (by omega), key, key, prefixKey_strncpy]

/-- What `sys_unlink` writes binds nothing. -/
theorem binding_zero : (dirent (List.replicate direntSize 0)).binding = none := by decide

theorem slots_append {bytes contents : List Byte} (length : bytes.length = direntSize) :
    slots (bytes ++ contents) = (dirent bytes).binding :: slots contents := by
  have count : (bytes ++ contents).length / direntSize = contents.length / direntSize + 1 := by
    rw [List.length_append, length, Nat.add_comm]
    exact Nat.add_div_right _ (by decide)
  have first : entryBytes (bytes ++ contents) 0 = bytes := by
    rw [entryBytes, Nat.mul_zero, List.drop_zero, ← length, List.take_left]
  have rest : ∀ j, entryBytes (bytes ++ contents) (j + 1) = entryBytes contents j := by
    intro j
    rw [entryBytes, Nat.mul_succ, Nat.add_comm, ← List.drop_drop, List.drop_left' length, entryBytes]
  rw [slots, count, List.range_succ_eq_map, List.map_cons, List.map_map, first]
  exact congrArg _ (List.map_congr_left fun j _ => congrArg (fun b => (dirent b).binding) (rest j))

/-- The bytes of a directory with the entries `es`. -/
def listOf (es : List (Nat × List Byte)) : List Byte :=
  es.flatMap fun e => Dirent.bytes { inum := e.1, name := strncpy DIRSIZ (literal e.2) }

theorem length_bytes (inum : Nat) (name : Str) :
    (Dirent.bytes { inum, name := strncpy DIRSIZ name }).length = direntSize := by
  simp [Dirent.bytes, direntSize]

theorem length_listOf (es : List (Nat × List Byte)) : (listOf es).length = direntSize * es.length := by
  induction es with
  | nil => rfl
  | cons e es ih =>
    rw [listOf, List.flatMap_cons, List.length_append, length_bytes, ← listOf, ih, List.length_cons, Nat.mul_succ, Nat.add_comm]

theorem slots_listOf {es : List (Nat × List Byte)} (inums : ∀ e ∈ es, 1 ≤ e.1 ∧ e.1 < 65536) :
    slots (listOf es) = es.map fun e => some (key (literal e.2), e.1) := by
  induction es with
  | nil => rfl
  | cons e es ih =>
    have inum := inums e List.mem_cons_self
    rw [List.map_cons, ← ih fun e' member => inums e' (List.mem_cons_of_mem e member)]
    rw [← binding_bytes (literal e.2) inum.1 inum.2, ← slots_append (length_bytes _ _)]
    rfl

theorem getD_entryBytes {contents : List Byte} {j i : Nat} (small : i < direntSize) :
    (entryBytes contents j).getD i 0 = contents.getD (direntSize * j + i) 0 := by
  simp only [entryBytes, List.getD_eq_getElem?_getD]
  rw [List.getElem?_take_of_lt small, List.getElem?_drop]

theorem slots_overwrite {contents src : List Byte} {j : Nat} (aligned : contents.length % direntSize = 0)
    (inside : j ≤ contents.length / direntSize) (length : src.length = direntSize) :
    slots (ByteArrays.overwrite contents (direntSize * j) src) = Slots.put (slots contents) j (dirent src).binding := by
  have within : direntSize * j ≤ contents.length := by
    simp only [direntSize] at *
    omega
  have size : (ByteArrays.overwrite contents (direntSize * j) src).length = _ := ByteArrays.length_overwrite within
  have count : (ByteArrays.overwrite contents (direntSize * j) src).length / direntSize =
      if j < contents.length / direntSize then contents.length / direntSize else contents.length / direntSize + 1 := by
    rw [size, length]
    simp only [direntSize] at *
    split <;> omega
  apply List.ext_getElem?
  intro i
  rw [Slots.getElem?_put (by rwa [length_slots])]
  by_cases bound : i < (ByteArrays.overwrite contents (direntSize * j) src).length / direntSize
  · rw [getElem?_slots bound]
    have bytes : entryBytes (ByteArrays.overwrite contents (direntSize * j) src) i =
        if i = j then src else entryBytes contents i := by
      have full : ∀ {l : List Byte} {n : Nat}, n < l.length / direntSize → (entryBytes l n).length = direntSize := by
        intro l n small
        simp only [entryBytes, List.length_take, List.length_drop, direntSize] at *
        omega
      have lengths : (if i = j then src else entryBytes contents i).length = direntSize := by
        split
        · exact length
        · refine full ?_
          rw [count] at bound
          split at bound <;> omega
      apply List.ext_getElem (by rw [full bound, lengths])
      intro p low high
      rw [full bound] at low
      rw [← List.getD_eq_getElem (d := 0), ← List.getD_eq_getElem (d := 0), getD_entryBytes low,
        ByteArrays.getD_overwrite within, length]
      simp only [direntSize] at *
      by_cases same : i = j
      · subst same
        rw [if_pos (by omega), if_pos rfl, Nat.add_sub_cancel_left]
      · rw [if_neg (by omega), if_neg same, getD_entryBytes low]
    rw [bytes]
    split
    next same => rfl
    next other =>
      rw [getElem?_slots]
      rw [count] at bound
      split at bound <;> omega
  · rw [List.getElem?_eq_none (by rw [length_slots]; omega)]
    rw [count] at bound
    split at bound
    · rw [if_neg (by omega), List.getElem?_eq_none (by rw [length_slots]; omega)]
    · rw [if_neg (by omega), List.getElem?_eq_none (by rw [length_slots]; omega)]

end Xv6.Dirs
