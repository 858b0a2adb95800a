import Mathlib.Data.List.GetD
import Xv6.Fs.Ownership

/-!
# Files are byte arrays

The abstract file is a list of bytes, with bounded writes at or before its end and reads cut off there.
`writei` and `readi` on a held inode behave like these two operations; other inodes keep their contents.
-/

namespace Xv6.Fs

open Bytes Forest

/-! ### The abstract file -/

namespace ByteArrays

/-- Replace the bytes from `off` on by `src`. -/
def overwrite (contents : List Byte) (off : Nat) (src : List Byte) : List Byte :=
  contents.take off ++ src ++ contents.drop (off + src.length)

/-- Write `src` at `off`; `limit` is the largest size a file can have. -/
def write (limit : Nat) (contents : List Byte) (off : Nat) (src : List Byte) : Option (List Byte) :=
  if contents.length < off ∨ 2 ^ 32 ≤ off + src.length ∨ limit < off + src.length then none
  else some (overwrite contents off src)

/-- Read at most `n` bytes at `off`. -/
def read (contents : List Byte) (off n : Nat) : Option (List Byte) :=
  if contents.length < off ∨ 2 ^ 32 ≤ off + n then none else some ((contents.drop off).take n)

theorem write_eq_none {limit : Nat} {contents src : List Byte} {off : Nat} :
    write limit contents off src = none ↔
      contents.length < off ∨ 2 ^ 32 ≤ off + src.length ∨ limit < off + src.length := by
  unfold write
  split
  next rejected => exact iff_of_true rfl rejected
  next accepted => exact iff_of_false (by simp) accepted

theorem write_eq_some {limit : Nat} {contents src bytes : List Byte} {off : Nat} :
    write limit contents off src = some bytes ↔
      ¬(contents.length < off ∨ 2 ^ 32 ≤ off + src.length ∨ limit < off + src.length) ∧
        overwrite contents off src = bytes := by
  unfold write
  split
  next rejected => exact iff_of_false (by simp) fun h => h.1 rejected
  next accepted => exact ⟨fun h => ⟨accepted, Option.some.inj h⟩, fun h => by rw [h.2]⟩

theorem read_eq_none {contents : List Byte} {off n : Nat} :
    read contents off n = none ↔ contents.length < off ∨ 2 ^ 32 ≤ off + n := by
  unfold read
  split
  next rejected => exact iff_of_true rfl rejected
  next accepted => exact iff_of_false (by simp) accepted

theorem read_eq_some {contents bytes : List Byte} {off n : Nat} :
    read contents off n = some bytes ↔
      ¬(contents.length < off ∨ 2 ^ 32 ≤ off + n) ∧ (contents.drop off).take n = bytes := by
  unfold read
  split
  next rejected => exact iff_of_false (by simp) fun h => h.1 rejected
  next accepted => exact ⟨fun h => ⟨accepted, Option.some.inj h⟩, fun h => by rw [h.2]⟩

theorem length_overwrite {contents src : List Byte} {off : Nat} (within : off ≤ contents.length) :
    (overwrite contents off src).length = max contents.length (off + src.length) := by
  simp only [overwrite, List.length_append, List.length_take, List.length_drop]
  omega

theorem getD_overwrite {contents src : List Byte} {off : Nat} (within : off ≤ contents.length)
    (p : Nat) : (overwrite contents off src).getD p 0 =
      if off ≤ p ∧ p < off + src.length then src.getD (p - off) 0 else contents.getD p 0 := by
  have takes : (contents.take off).length = off := by
    rw [List.length_take]
    omega
  simp only [overwrite, List.getD_eq_getElem?_getD]
  by_cases before : p < off
  · rw [List.append_assoc, List.getElem?_append_left (by omega), List.getElem?_take_of_lt before,
      if_neg (by omega)]
  · by_cases inside : p < off + src.length
    · rw [if_pos (by omega), List.getElem?_append_left (by rw [List.length_append]; omega),
        List.getElem?_append_right (by omega), takes]
    · rw [if_neg (by omega), List.getElem?_append_right (by rw [List.length_append]; omega),
        List.length_append, takes, List.getElem?_drop]
      congr 2
      omega

end ByteArrays

/-! ### Contents of inodes -/

/-- The bytes of inode `i`. -/
def contents (sb : Superblock) (tbl : Nat → Dinode) (disk : Nat → Block) (i : Nat) : List Byte :=
  (List.range (tbl i).size).map (byteAt (trees sb tbl disk) disk i)

section Contents

variable {sb : Superblock} {tbl : Nat → Dinode} {disk : Nat → Block} {i : Nat}

@[simp] theorem length_contents : (contents sb tbl disk i).length = (tbl i).size := by
  simp [contents]

theorem getD_contents {p : Nat} (inside : p < (tbl i).size) :
    (contents sb tbl disk i).getD p 0 = byteAt (trees sb tbl disk) disk i p := by
  simp [contents, List.getD_eq_getElem?_getD, inside]

theorem contents_congr {tbl' : Nat → Dinode} {disk' : Nat → Block} (size : (tbl' i).size = (tbl i).size)
    (filled : Filled (trees sb tbl disk) i (tbl i))
    (addr : ∀ n, shape.IsNode n → (trees sb tbl' disk').addr n = (trees sb tbl disk).addr n)
    (data : ∀ b, (trees sb tbl disk).Owned shape b → disk' b = disk b) : contents sb tbl' disk' i = contents sb tbl disk i := by
  rw [contents, contents, size]
  refine List.map_congr_left fun p member => ?_
  have inside := List.mem_range.mp member
  have node := leaf_isNode i (div_BSIZE_lt (Nat.lt_of_lt_of_le inside filled.bounded))
  rw [byteAt, byteAt, addr _ node, data _ ⟨_, node, rfl, filled.live p inside⟩]

theorem Released.contents_eq {d e : Nat → Block} (released : Released sb d e i) (image : Image sb (dinode sb d) d) {j : Nat}
    (other : j ≠ i) (used : InUse sb (dinode sb d) j) (file : (dinode sb d j).type ≠ T_DEV) :
    contents sb (dinode sb e) e j = contents sb (dinode sb d) d j := by
  have filled := image.filled j used file
  rw [contents, contents, released.inodes j used.2.1 other]
  refine List.map_congr_left fun p member => ?_
  have inside := List.mem_range.mp member
  have node := leaf_isNode j (div_BSIZE_lt (Nat.lt_of_lt_of_le inside filled.bounded))
  rw [byteAt, byteAt, released.addr _ node other, released.data]
  exact (image.inData _ ⟨_, node, rfl, filled.live p inside⟩).1

theorem Row.contents_eq {n : Nat} {f : Nat → Dinode} (row : Row n f) (data : Nat → Block) (inside : 1 ≤ i ∧ i ≤ n) :
    contents mkfsSuperblock (dinode mkfsSuperblock (rowDisk n f data)) (rowDisk n f data) i =
      (List.range (f i).size).map (data (97 + i)).get := by
  have short := row.short i
  have small := row.small
  have entry := row.dinode_eq data (show i < mkfsSuperblock.ninodes from show i < 200 by omega)
  rw [contents, entry, rowTable, if_pos inside]
  refine List.map_congr_left fun p member => ?_
  have below : p < BSIZE := Nat.lt_of_lt_of_le (List.mem_range.mp member) short
  rw [byteAt, Nat.div_eq_of_lt below, row.disk_addr data (leaf_isNode i (show 0 < MAXFILE by decide)),
    if_pos ⟨rfl, rfl, inside⟩, Nat.mod_eq_of_lt below]
  change (rowDisk n f data (97 + i)).get p = _
  rw [rowDisk, assemble_data mkfsSuperblock_valid (show 98 ≤ 97 + i by omega)]

private theorem ext_getD {xs ys : List Byte} (length : xs.length = ys.length)
    (same : ∀ p < xs.length, xs.getD p 0 = ys.getD p 0) : xs = ys := by
  apply List.ext_getElem length
  intro p hx hy
  have equal := same p hx
  rwa [List.getD_eq_getElem _ _ hx, List.getD_eq_getElem _ _ hy] at equal

end Contents

variable {sb : Superblock} {ip ip' : Inode} {s s' : State}

/-- The contents as seen while `ip` is locked. -/
abbrev heldContents (sb : Superblock) (ip : Inode) (s : State) (i : Nat) : List Byte :=
  contents sb (table sb ip s.disk) s.disk i

theorem table_self : table sb ip s.disk ip.inum = ip.toDinode := Function.update_self ..

theorem Written.contents_self (filled : Filled (view sb ip s) ip.inum ip.toDinode) {off : Nat}
    {src : List Byte} (written : Written sb ip s off src ip' s')
    (accepted : ¬WriteRejected ip.size off src.length) :
    heldContents sb ip' s' ip.inum =
      ByteArrays.overwrite (heldContents sb ip s ip.inum) off src := by
  have inum : ip'.inum = ip.inum := by rw [written.inode]
  have size : ip'.size = max ip.size (off + src.length) := by rw [written.inode]
  have self' : table sb ip' s'.disk ip.inum = ip'.toDinode := by rw [← inum, table_self]
  have bounded := filled.bounded
  simp only [WriteRejected, not_or, Nat.not_lt, Nat.not_le] at accepted
  have within : off ≤ (heldContents sb ip s ip.inum).length := by
    rw [length_contents, table_self]
    exact accepted.1
  apply ext_getD
  · rw [ByteArrays.length_overwrite within, length_contents, length_contents, self', table_self, size]
  · intro p inside
    rw [length_contents, self', size] at inside
    rw [ByteArrays.getD_overwrite within, getD_contents (by rw [self', size]; exact inside)]
    by_cases new : off ≤ p ∧ p < off + src.length
    · rw [if_pos new]
      exact (written.bytes p new.1 new.2).2
    · have old : p < ip.size := by omega
      rw [if_neg new, getD_contents (by rw [table_self]; exact old)]
      exact written.others ip.inum p (by omega) (by omega) (filled.live p old)

theorem Written.contents_other {off : Nat} {src : List Byte}
    (written : Written sb ip s off src ip' s') {i : Nat} (inside : i < sb.ninodes)
    (other : i ≠ ip.inum) (filled : Filled (view sb ip s) i (table sb ip s.disk i)) :
    heldContents sb ip' s' i = heldContents sb ip s i := by
  have inum : ip'.inum = ip.inum := by rw [written.inode]
  have same : table sb ip' s'.disk i = table sb ip s.disk i := by
    simp only [table, inum, Function.update_of_ne other, written.inodes i inside other]
  apply ext_getD
  · rw [length_contents, length_contents, same]
  · intro p small
    have bounded := filled.bounded
    rw [length_contents] at small
    rw [getD_contents small]
    rw [same] at small
    rw [getD_contents small]
    exact written.others i p (by omega) (fun h => other h.1) (filled.live p small)

/-- A `writei` that succeeded: the contents are `bytes`, the other inodes have theirs, and
the image is in order again. -/
structure Stored (devsw : Devsw) (sb : Superblock) (ip : Inode) (s : State) (off : Nat)
    (src bytes : List Byte) (ip' : Inode) (s' : State) : Prop where
  ran : writei devsw sb ip off src s = .ok (src.length, ip', s')
  inum : ip'.inum = ip.inum
  type : ip'.type = ip.type
  size : ip'.size = max ip.size (off + src.length)
  contents : heldContents sb ip' s' ip.inum = bytes
  inodes : ∀ i < sb.ninodes, i ≠ ip.inum → table sb ip' s'.disk i = table sb ip s.disk i
  others : ∀ i, i ≠ ip.inum → InUse sb (table sb ip s.disk) i →
    (table sb ip s.disk i).type ≠ T_DEV → heldContents sb ip' s' i = heldContents sb ip s i
  held : Held sb ip' s'
  image : Image sb (table sb ip' s'.disk) s'.disk

theorem Written.refines {devsw : Devsw} {off : Nat} {src : List Byte}
    (image : Image sb (table sb ip s.disk) s.disk)
    (filled : Filled (view sb ip s) ip.inum ip.toDinode)
    (accepted : ¬WriteRejected ip.size off src.length)
    (ran : writei devsw sb ip off src s = .ok (src.length, ip', s'))
    (written : Written sb ip s off src ip' s') :
    Stored devsw sb ip s off src (ByteArrays.overwrite (heldContents sb ip s ip.inum) off src)
      ip' s' := by
  have inum : ip'.inum = ip.inum := by rw [written.inode]
  have same : ∀ i < sb.ninodes, i ≠ ip.inum →
      table sb ip' s'.disk i = table sb ip s.disk i := by
    intro i inside other
    simp only [table, inum, Function.update_of_ne other, written.inodes i inside other]
  refine ⟨ran, inum, by rw [written.inode], by rw [written.inode],
    written.contents_self filled accepted, same, ?_, written.held, written.held.safe, ?_⟩
  · intro i other used isFile
    exact written.contents_other used.2.1 other (image.filled i used isFile)
  · intro i used isFile
    by_cases here : i = ip.inum
    · subst here
      rw [← inum, table_self, inum]
      exact written.filled filled accepted
    · have entry := same i used.2.1 here
      have old := image.filled i ⟨used.1, used.2.1, entry ▸ used.2.2⟩ (entry ▸ isFile)
      rw [entry]
      refine ⟨old.bounded, ?_⟩
      intro p small
      have bounded := old.bounded
      have live := old.live p small
      have kept := written.addr _ (leaf_isNode i (div_BSIZE_lt (by omega))) live
      change (view sb ip' s').addr _ ≠ 0
      rw [kept]
      exact live

/-- `readi` reads the contents of a file without holes. -/
theorem readi_refines (devsw : Devsw) (roots : ∀ k, (view sb ip s).root (ip.inum, k) = ip.addrs k)
    (notDev : ip.type ≠ T_DEV) (filled : Filled (view sb ip s) ip.inum ip.toDinode) {off n : Nat} (offWord : off < 2 ^ 32)
    (lenWord : n < 2 ^ 32) :
    (ByteArrays.read (heldContents sb ip s ip.inum) off n = none → readi devsw sb ip off n s = .ok ((-1, []), ip, s)) ∧
      ∀ bytes, ByteArrays.read (heldContents sb ip s ip.inum) off n = some bytes →
        bytes.length = min n (ip.size - off) ∧ readi devsw sb ip off n s = .ok (((bytes.length : Nat), bytes), ip, s) := by
  have size : (heldContents sb ip s ip.inum).length = ip.size := by
    rw [length_contents, table_self]
  simp only [ByteArrays.read_eq_none, ByteArrays.read_eq_some, size]
  refine ⟨readi_rejected devsw notDev offWord lenWord, ?_⟩
  rintro bytes ⟨accepted, rfl⟩
  have length : (((heldContents sb ip s ip.inum).drop off).take n).length =
      min n (ip.size - off) := by
    rw [List.length_take, List.length_drop, size]
  refine ⟨length, ?_⟩
  rw [readi_spec devsw roots notDev filled accepted, length]
  congr 3
  apply List.ext_getElem
  · rw [length, List.length_map, List.length_range]
  · intro k _ inside
    rw [length] at inside
    simp [contents, view]

/-- `readi` and `writei` on a locked file or directory refine the operations on byte arrays.
A write that is not rejected either stores all of its bytes or finds fewer free blocks than
four for each block it touches; a read changes nothing. -/
theorem files_refine_byte_arrays (valid : sb.Valid) (devsw : Devsw)
    (inum : 1 ≤ ip.inum ∧ ip.inum < sb.ninodes) (fits : ip.Fits)
    (image : Image sb (table sb ip s.disk) s.disk) (file : ip.type = T_FILE ∨ ip.type = T_DIR) :
    (∀ off src, off < 2 ^ 32 → src.length < 2 ^ 32 →
      (ByteArrays.write (MAXFILE * BSIZE) (heldContents sb ip s ip.inum) off src = none →
        writei devsw sb ip off src s = .ok (-1, ip, s)) ∧
      ∀ bytes, ByteArrays.write (MAXFILE * BSIZE) (heldContents sb ip s ip.inum) off src = some bytes →
        (writei devsw sb ip off src s = .error .ballocOutOfBlocks ∧
          (freeBlocks sb s.disk).card < 4 * blocksTouched off src.length) ∨
        ∃ ip' s', Stored devsw sb ip s off src bytes ip' s') ∧
    (∀ off n, off < 2 ^ 32 → n < 2 ^ 32 →
      (ByteArrays.read (heldContents sb ip s ip.inum) off n = none →
        readi devsw sb ip off n s = .ok ((-1, []), ip, s)) ∧
      ∀ bytes, ByteArrays.read (heldContents sb ip s ip.inum) off n = some bytes →
        bytes.length = min n (ip.size - off) ∧
        readi devsw sb ip off n s = .ok (((bytes.length : Nat), bytes), ip, s)) := by
  have notDev : ip.type ≠ T_DEV := by rcases file with h | h <;> rw [h] <;> decide
  have typed : ip.type ≠ 0 := by rcases file with h | h <;> rw [h] <;> decide
  have held : Held sb ip s := ⟨inum, typed, fits, image.toSafe⟩
  have inUse := (inUse_table ip held.inum s.disk).mpr held.type
  have size : (heldContents sb ip s ip.inum).length = ip.size := by
    rw [length_contents, table_self]
  have filled : Filled (view sb ip s) ip.inum ip.toDinode := by
    have := image.filled ip.inum inUse (by rw [table_self]; exact notDev)
    rwa [table_self] at this
  constructor
  · intro off src offWord lenWord
    simp only [ByteArrays.write_eq_none, ByteArrays.write_eq_some, size]
    refine ⟨writei_rejected devsw notDev offWord lenWord, ?_⟩
    rintro bytes ⟨accepted, rfl⟩
    rcases writei_spec valid devsw held notDev filled accepted with failed | ⟨ip', s', ran, written⟩
    · exact .inl failed
    · exact .inr ⟨ip', s', written.refines image filled accepted ran⟩
  · intro off n offWord lenWord
    exact readi_refines devsw held.root notDev filled offWord lenWord

/-- The theorem at the small image: overwriting the last byte and growing the file by one. -/
theorem files_refine_byte_arrays_small :
    (heldContents mkfsSuperblock smallInode smallState 1).length = 3 ∧
      ((writei noDevices mkfsSuperblock smallInode 2 [72, 105] smallState = .error .ballocOutOfBlocks ∧
          (freeBlocks mkfsSuperblock smallState.disk).card < 4 * blocksTouched 2 2) ∨
        ∃ ip' s', Stored noDevices mkfsSuperblock smallInode smallState 2 [72, 105]
          (ByteArrays.overwrite (heldContents mkfsSuperblock smallInode smallState 1) 2 [72, 105])
          ip' s') := by
  have image : Image mkfsSuperblock (table mkfsSuperblock smallInode smallState.disk)
      smallState.disk := by
    rw [table_eq _ smallInode_stored]
    exact smallDisk_image
  have length : (heldContents mkfsSuperblock smallInode smallState 1).length = 3 := by
    rw [length_contents, show 1 = smallInode.inum from rfl, table_self]
    rfl
  refine ⟨length, ((files_refine_byte_arrays mkfsSuperblock_valid noDevices (by decide)
    (smallTable_fits 1) image (by decide)).1 2 [72, 105] (by decide) (by decide)).2 _ ?_⟩
  exact ByteArrays.write_eq_some.mpr ⟨by rw [show smallInode.inum = 1 from rfl, length]; decide, rfl⟩

end Xv6.Fs
