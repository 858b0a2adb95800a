import Xv6.Fs.Refinement
import Xv6.Fs.Room
import Xv6.Fs.Transaction

/-!
# Reading and writing open files

`filewrite` writes its bytes in chunks, each with a `writei` of its own; between two of them the inode is
unlocked. `Updated` describes a locked section: one file has new bytes, every other file has the ones it
had. Overwriting twice in a row is overwriting once, and the loop is an induction over this.
-/

namespace Xv6.Fs

open Bytes Forest

/-- A `struct file` of type `FD_INODE`. -/
structure OpenFile where
  readable : Bool
  writable : Bool
  ip : Fin NINODE
  off : Nat

inductive FilePanic where
  | fs (e : Panic)
  | shortFilewrite
deriving DecidableEq

/-- `f->off += r` if `r > 0`; `off` is an `unsigned int`. -/
def OpenFile.advance (f : OpenFile) (r : Int) : OpenFile :=
  if 0 < r then { f with off := (f.off + r.toNat) % 2 ^ 32 } else f

/-- `fileread`: the value returned and the bytes stored through `addr`. -/
def fileread (devsw : Devsw) (sb : Superblock) (f : OpenFile) (n : Nat) (fs : FileSystem) :
    Except Panic ((Int × List Byte) × OpenFile × FileSystem) :=
  if f.readable = false then .ok ((-1, []), f, fs)
  else do
    let fs ← ilock sb f.ip fs
    let (result, ip, s) ← readi devsw sb (fs.icache f.ip) f.off n fs.toState
    .ok (result, f.advance result.1, fs.store f.ip ip s)

/-- One round of `filewrite`, from `ilock` to `iunlock`. -/
def filewriteChunk (devsw : Devsw) (sb : Superblock) (f : OpenFile) (src : List Byte) (fs : FileSystem) :
    Except Panic (Int × OpenFile × FileSystem) := do
  let fs ← ilock sb f.ip fs
  let (r, ip, s) ← writei devsw sb (fs.icache f.ip) f.off src fs.toState
  .ok (r, f.advance r, fs.store f.ip ip s)

/-- The loop of `filewrite`; `i` bytes of `src` are written. -/
def filewriteLoop (devsw : Devsw) (sb : Superblock) (src : List Byte) (i : Nat) (f : OpenFile)
    (fs : FileSystem) : Except FilePanic (Nat × OpenFile × FileSystem) :=
  if _more : i < src.length then do
    let n1 := min (src.length - i) filewriteMax
    let (r, f, fs) ← (filewriteChunk devsw sb f ((src.drop i).take n1) fs).mapError .fs
    if r < 0 then .ok (i, f, fs)
    else if r ≠ n1 then .error .shortFilewrite
    else filewriteLoop devsw sb src (i + n1) f fs
  else .ok (i, f, fs)
termination_by src.length - i
decreasing_by
  have : 0 < filewriteMax := by decide
  omega

def filewrite (devsw : Devsw) (sb : Superblock) (f : OpenFile) (src : List Byte) (fs : FileSystem) :
    Except FilePanic (Int × OpenFile × FileSystem) :=
  if f.writable = false then .ok (-1, f, fs)
  else do
    let (i, f, fs) ← filewriteLoop devsw sb src 0 f fs
    .ok (if i = src.length then src.length else -1, f, fs)

/-! ### Bytes -/

theorem ByteArrays.overwrite_nil (contents : List Byte) (off : Nat) :
    overwrite contents off [] = contents := by
  simp [overwrite]

theorem ByteArrays.overwrite_overwrite {contents : List Byte} {off : Nat} (within : off ≤ contents.length)
    (one two : List Byte) :
    overwrite (overwrite contents off one) (off + one.length) two = overwrite contents off (one ++ two) := by
  have front : (contents.take off ++ one).length = off + one.length := by
    rw [List.length_append, List.length_take]
    omega
  have rest : (contents.drop (off + one.length)).drop two.length =
      contents.drop (off + (one ++ two).length) := by
    rw [List.drop_drop, List.length_append, Nat.add_assoc]
  simp only [overwrite]
  rw [List.take_left' front, ← List.drop_drop, List.drop_left' front, rest]
  simp only [List.append_assoc]

/-! ### Open files -/

/-- The bytes of inode `i` between operations. -/
abbrev fileContents (sb : Superblock) (fs : FileSystem) (i : Nat) : List Byte :=
  contents sb (dinode sb fs.disk) fs.disk i

/-- Cache entry `k` is referenced and belongs to a regular file. -/
structure Opened (sb : Superblock) (fs : FileSystem) (k : Fin NINODE) : Prop where
  busy : 0 < (fs.icache k).ref
  type : (dinode sb fs.disk (fs.icache k).inum).type = T_FILE

/-- File `i` now consists of `bytes`, the other files are as they were. -/
structure Updated (sb : Superblock) (fs : FileSystem) (i : Nat) (bytes : List Byte) (fs' : FileSystem) : Prop where
  ordered : Ordered sb fs'
  entries : SameEntries fs fs'
  type : (dinode sb fs'.disk i).type = (dinode sb fs.disk i).type
  contents : fileContents sb fs' i = bytes
  inodes : ∀ j < sb.ninodes, j ≠ i → dinode sb fs'.disk j = dinode sb fs.disk j
  others : ∀ j, j ≠ i → InUse sb (dinode sb fs.disk) j → (dinode sb fs.disk j).type ≠ T_DEV →
    fileContents sb fs' j = fileContents sb fs j

variable {sb : Superblock} {devsw : Devsw} {fs fs' fs₁ : FileSystem} {f f' : OpenFile} {src bytes : List Byte}
  {i : Nat} {k : Fin NINODE}

theorem Opened.transfer (opened : Opened sb fs k) (ordered : Ordered sb fs) (entries : SameEntries fs fs')
    (types : ∀ j < sb.ninodes, (dinode sb fs'.disk j).type = (dinode sb fs.disk j).type) : Opened sb fs' k := by
  refine ⟨by rw [(entries k).2]; exact opened.busy, ?_⟩
  rw [(entries k).1, types _ (ordered.inum k opened.busy).2, opened.type]

theorem Updated.types (updated : Updated sb fs i bytes fs') {j : Nat} (inside : j < sb.ninodes) :
    (dinode sb fs'.disk j).type = (dinode sb fs.disk j).type := by
  by_cases here : j = i
  · rw [here, updated.type]
  · rw [updated.inodes j inside here]

theorem Updated.opened (updated : Updated sb fs i bytes fs') (ordered : Ordered sb fs) (opened : Opened sb fs k) :
    Opened sb fs' k :=
  opened.transfer ordered updated.entries fun _ inside => updated.types inside

theorem Updated.size (updated : Updated sb fs i bytes fs') : (dinode sb fs'.disk i).size = bytes.length := by
  rw [← updated.contents, length_contents]

theorem Updated.trans {bytes' : List Byte} (first : Updated sb fs i bytes fs₁)
    (second : Updated sb fs₁ i bytes' fs') : Updated sb fs i bytes' fs' := by
  refine ⟨second.ordered, fun l => ?_, second.type.trans first.type, second.contents, fun j inside other =>
    (second.inodes j inside other).trans (first.inodes j inside other), fun j other used file => ?_⟩
  · rw [(second.entries l).1, (second.entries l).2]
    exact first.entries l
  · have same := first.inodes j used.2.1 other
    rw [second.others j other ⟨used.1, used.2.1, same ▸ used.2.2⟩ (same ▸ file), first.others j other used file]

theorem Updated.refl (ordered : Ordered sb fs) (i : Nat) : Updated sb fs i (fileContents sb fs i) fs :=
  ⟨ordered, fun _ => ⟨rfl, rfl⟩, rfl, rfl, fun _ _ _ => rfl, fun _ _ _ _ => rfl⟩

theorem Locked.size (locked : Locked sb fs k) : (fs.icache k).size = (dinode sb fs.disk (fs.icache k).inum).size := by
  rw [locked.stored]

/-- `ilock` of an open file reads it from the disk if necessary and does nothing else. -/
theorem ilock_opened (ordered : Ordered sb fs) (opened : Opened sb fs k) :
    ∃ fs₁, ilock sb k fs = .ok fs₁ ∧ Locked sb fs₁ k ∧ (fs₁.icache k).type = T_FILE ∧ fs₁.disk = fs.disk ∧
      SameEntries fs fs₁ := by
  have typed : (dinode sb fs.disk (fs.icache k).inum).type ≠ 0 := by
    rw [opened.type]
    decide
  obtain ⟨fs₁, ran, locked, state, entries⟩ := ilock_typed ordered opened.busy typed
  have disk : fs₁.disk = fs.disk := congrArg State.disk state
  refine ⟨fs₁, ran, locked, ?_, disk, entries⟩
  have stored := locked.stored
  rw [disk, (entries k).1] at stored
  have type := opened.type
  rwa [stored] at type

theorem Updated.of_disk (ordered : Ordered sb fs₁) (disk : fs₁.disk = fs.disk) (entries : SameEntries fs fs₁)
    (i : Nat) : Updated sb fs i (fileContents sb fs i) fs₁ := by
  refine ⟨ordered, entries, ?_, ?_, ?_, ?_⟩
  · rw [disk]
  · rw [fileContents, disk]
  · intro _ _ _
    rw [disk]
  · intro _ _ _ _
    rw [fileContents, disk]

theorem OpenFile.advance_length (f : OpenFile) {n : Nat} (bounded : f.off + n ≤ MAXFILE * BSIZE) :
    f.advance n = { f with off := f.off + n } := by
  have limit : MAXFILE * BSIZE < 2 ^ 32 := by decide
  unfold OpenFile.advance
  by_cases some_ : 0 < n
  · rw [if_pos (by omega), Int.toNat_natCast, Nat.mod_eq_of_lt (by omega)]
  · have none : n = 0 := by omega
    subst none
    rfl

/-- A `writei` to a locked file that is not rejected. -/
theorem Locked.stores (valid : sb.Valid) (locked : Locked sb fs k) (file : (fs.icache k).type = T_FILE) {off : Nat}
    (accepted : ¬WriteRejected (fs.icache k).size off src.length) {r : Int} {ip' : Inode} {s' : State}
    (ran : writei devsw sb (fs.icache k) off src fs.toState = .ok (r, ip', s')) :
    r = src.length ∧ dinode sb s'.disk ip'.inum = ip'.toDinode ∧
      Updated sb fs (fs.icache k).inum (ByteArrays.overwrite (fileContents sb fs (fs.icache k).inum) off src)
        (fs.store k ip' s') := by
  have notDev : (fs.icache k).type ≠ T_DEV := by
    rw [file]
    decide
  obtain ⟨held, view_eq⟩ := locked.held
  have filled := locked.filled notDev
  rcases writei_spec valid devsw held notDev filled accepted with ⟨failed, _⟩ | ⟨ip'', s'', ran', written⟩
  · rw [ran] at failed
    cases failed
  rw [ran] at ran'
  cases ran'
  have inum : ip'.inum = (fs.icache k).inum := by rw [written.inode]
  have stored := written.stored locked.stored
  rw [← inum] at stored
  have before := table_eq (fs.icache k) (s := fs.toState) locked.stored
  have after := table_eq ip' (s := s') stored
  have image : Image sb (table sb (fs.icache k) fs.disk) fs.disk := by
    rw [before]
    exact locked.image
  have bytes := (written.refines image filled accepted ran).contents
  have others := (written.refines image filled accepted ran).others
  rw [heldContents, after, heldContents, before] at bytes
  refine ⟨rfl, stored, ?_, ?_, ?_, bytes, written.inodes, ?_⟩
  · have offWord : off < 2 ^ 32 := by
      simp only [WriteRejected, not_or, Nat.not_le] at accepted
      omega
    have lenWord : src.length < 2 ^ 32 := by
      simp only [WriteRejected, not_or, Nat.not_le] at accepted
      omega
    have ordered := locked.write valid devsw offWord lenWord
    rw [ran] at ordered
    exact ordered
  · intro l
    by_cases here : l = k
    · subst here
      rw [store_icache_self, inum, written.inode]
      exact ⟨rfl, rfl⟩
    · rw [store_icache_ne _ here]
      exact ⟨rfl, rfl⟩
  · change (dinode sb s'.disk (fs.icache k).inum).type = _
    rw [locked.stored, ← inum, stored, written.inode]
  · intro j other used file
    have same := others j other
    rw [heldContents, after, heldContents, before] at same
    exact same used file

/-! ### One chunk -/

section Chunk

variable (ordered : Ordered sb fs) (opened : Opened sb fs f.ip)

include ordered opened

theorem filewriteChunk_full (devsw : Devsw) (offWord : f.off < 2 ^ 32) (lenWord : src.length < 2 ^ 32)
    (large : MAXFILE * BSIZE < f.off + src.length) (i : Nat) :
    ∃ fs', filewriteChunk devsw sb f src fs = .ok (-1, f, fs') ∧
      Updated sb fs i (fileContents sb fs i) fs' := by
  obtain ⟨fs₁, lock, locked, file, disk, entries⟩ := ilock_opened ordered opened
  have notDev : (fs₁.icache f.ip).type ≠ T_DEV := by
    rw [file]
    decide
  refine ⟨fs₁, ?_, Updated.of_disk locked.toOrdered disk entries i⟩
  rw [filewriteChunk, lock]
  change (writei devsw sb (fs₁.icache f.ip) f.off src fs₁.toState >>= _) = _
  rw [writei_rejected devsw notDev offWord lenWord (.inr (.inr large))]
  change Except.ok (_, _, fs₁.store f.ip (fs₁.icache f.ip) fs₁.toState) = _
  rw [store_self]
  rfl

variable (within : f.off ≤ (dinode sb fs.disk (fs.icache f.ip).inum).size)
  (bounded : f.off + src.length ≤ MAXFILE * BSIZE)

include within bounded

/-- A chunk within the largest file size is one `writei` that is not rejected. -/
theorem filewriteChunk_eq (devsw : Devsw) : ∃ fs₁, Locked sb fs₁ f.ip ∧ (fs₁.icache f.ip).type = T_FILE ∧ fs₁.disk = fs.disk ∧
    SameEntries fs fs₁ ∧ ¬WriteRejected (fs₁.icache f.ip).size f.off src.length ∧
    filewriteChunk devsw sb f src fs = (do
      let (r, ip, s) ← writei devsw sb (fs₁.icache f.ip) f.off src fs₁.toState
      .ok (r, f.advance r, fs₁.store f.ip ip s)) := by
  obtain ⟨fs₁, lock, locked, file, disk, entries⟩ := ilock_opened ordered opened
  refine ⟨fs₁, locked, file, disk, entries, ?_, ?_⟩
  · have limit : MAXFILE * BSIZE < 2 ^ 32 := by decide
    rw [WriteRejected, locked.size, disk, (entries f.ip).1]
    omega
  · rw [filewriteChunk, lock]
    rfl

theorem filewriteChunk_stores (valid : sb.Valid) {r : Int}
    (ran : filewriteChunk devsw sb f src fs = .ok (r, f', fs')) :
    r = src.length ∧ f' = { f with off := f.off + src.length } ∧
      Updated sb fs (fs.icache f.ip).inum
        (ByteArrays.overwrite (fileContents sb fs (fs.icache f.ip).inum) f.off src) fs' := by
  obtain ⟨fs₁, locked, file, disk, entries, accepted, chunk⟩ :=
    filewriteChunk_eq ordered opened within bounded devsw
  rw [chunk] at ran
  obtain ⟨⟨r', ip', s'⟩, wrote, rest⟩ := Steps.bind_ok ran
  simp only [Except.ok.injEq, Prod.mk.injEq] at rest
  obtain ⟨rfl, rfl, rfl⟩ := rest
  obtain ⟨rfl, _, updated⟩ := locked.stores valid file accepted wrote
  have same := Updated.of_disk locked.toOrdered disk entries (fs.icache f.ip).inum
  rw [(entries f.ip).1, same.contents] at updated
  exact ⟨rfl, f.advance_length bounded, same.trans updated⟩

theorem filewriteChunk_room (valid : sb.Valid) (devsw : Devsw) :
    Room sb (trees sb (dinode sb fs.disk) fs.disk) fs.disk (Reached (fs.icache f.ip).inum f.off src.length) ↔
      ∃ result, filewriteChunk devsw sb f src fs = .ok result := by
  obtain ⟨fs₁, locked, file, disk, entries, accepted, chunk⟩ :=
    filewriteChunk_eq ordered opened within bounded devsw
  obtain ⟨held, view_eq⟩ := locked.held
  have notDev : (fs₁.icache f.ip).type ≠ T_DEV := by
    rw [file]
    decide
  have iff := writei_room valid devsw held notDev accepted
  rw [view_eq, disk, (entries f.ip).1] at iff
  rw [chunk, iff]
  constructor
  · rintro ⟨r, ip', s', ran⟩
    rw [ran]
    exact ⟨_, rfl⟩
  · rintro ⟨_, ran⟩
    obtain ⟨⟨r, ip', s'⟩, wrote, _⟩ := Steps.bind_ok ran
    exact ⟨r, ip', s', wrote⟩

theorem filewriteChunk_free (valid : sb.Valid) (devsw : Devsw)
    (free : 4 * blocksTouched f.off src.length ≤ (freeBlocks sb fs.disk).card) :
    ∃ result, filewriteChunk devsw sb f src fs = .ok result := by
  obtain ⟨fs₁, locked, file, disk, entries, accepted, chunk⟩ :=
    filewriteChunk_eq ordered opened within bounded devsw
  have notDev : (fs₁.icache f.ip).type ≠ T_DEV := by
    rw [file]
    decide
  rcases writei_spec valid devsw locked.held.1 notDev (locked.filled notDev) accepted with
    ⟨_, few⟩ | ⟨ip', s', ran, _⟩
  · rw [disk] at few
    omega
  · rw [chunk, ran]
    exact ⟨_, rfl⟩

/-- What is left of the room for `len` bytes. -/
theorem filewriteChunk_left (valid : sb.Valid) {len : Nat} (longer : src.length ≤ len)
    (inside : f.off + len ≤ MAXFILE * BSIZE)
    (room : Room sb (trees sb (dinode sb fs.disk) fs.disk) fs.disk (Reached (fs.icache f.ip).inum f.off len))
    {r : Int} (ran : filewriteChunk devsw sb f src fs = .ok (r, f', fs')) :
    Room sb (trees sb (dinode sb fs'.disk) fs'.disk) fs'.disk
      (Reached (fs.icache f.ip).inum (f.off + src.length) (len - src.length)) := by
  obtain ⟨fs₁, locked, file, disk, entries, accepted, chunk⟩ :=
    filewriteChunk_eq ordered opened within bounded devsw
  obtain ⟨held, view_eq⟩ := locked.held
  have notDev : (fs₁.icache f.ip).type ≠ T_DEV := by
    rw [file]
    decide
  rw [chunk] at ran
  obtain ⟨⟨r', ip', s'⟩, wrote, rest⟩ := Steps.bind_ok ran
  simp only [Except.ok.injEq, Prod.mk.injEq] at rest
  obtain ⟨rfl, rfl, rfl⟩ := rest
  obtain ⟨_, stored, _⟩ := locked.stores valid file accepted wrote
  have left := writei_room_left valid devsw held notDev accepted longer inside
    (by rw [view_eq, disk, (entries f.ip).1]; exact room) wrote
  rw [view, table_eq ip' stored, (entries f.ip).1] at left
  exact left

end Chunk

/-! ### The loop -/

/-- How many of `n` bytes at `off` are written: all of them, or the whole chunks below the largest file size. -/
def fitting (off n : Nat) : Nat :=
  if off + n ≤ MAXFILE * BSIZE then n else (MAXFILE * BSIZE - off) / filewriteMax * filewriteMax

theorem fitting_le {off n : Nat} (inside : off ≤ MAXFILE * BSIZE) :
    fitting off n ≤ n ∧ off + fitting off n ≤ MAXFILE * BSIZE := by
  have whole := Nat.div_mul_le_self (MAXFILE * BSIZE - off) filewriteMax
  unfold fitting
  split <;> omega

theorem fitting_eq_zero {off n : Nat} (large : MAXFILE * BSIZE < off + min n filewriteMax) :
    fitting off n = 0 := by
  have pos : 0 < filewriteMax := by decide
  have none : (MAXFILE * BSIZE - off) / filewriteMax = 0 := Nat.div_eq_of_lt (by omega)
  rw [fitting, if_neg (by omega), none, Nat.zero_mul]

theorem fitting_eq_add {off n : Nat} (bounded : off + min n filewriteMax ≤ MAXFILE * BSIZE) :
    fitting off n = min n filewriteMax + fitting (off + min n filewriteMax) (n - min n filewriteMax) := by
  unfold fitting
  by_cases all : off + n ≤ MAXFILE * BSIZE
  · rw [if_pos all, if_pos (by omega)]
    omega
  · -- the last chunk of all would not fit, so this one is full
    have full : min n filewriteMax = filewriteMax := by omega
    have pos : 0 < filewriteMax := by decide
    rw [full] at bounded ⊢
    have one : MAXFILE * BSIZE - off = MAXFILE * BSIZE - (off + filewriteMax) + filewriteMax := by omega
    rw [if_neg all, if_neg (by omega), one, Nat.add_div_right _ pos, Nat.add_mul, Nat.one_mul, Nat.add_comm]

theorem Opened.size_le (opened : Opened sb fs k) (ordered : Ordered sb fs) :
    (dinode sb fs.disk (fs.icache k).inum).size ≤ MAXFILE * BSIZE := by
  have inum := ordered.inum k opened.busy
  have type := opened.type
  exact (ordered.image.filled _ ⟨inum.1, inum.2, by rw [type]; decide⟩ (by rw [type]; decide)).bounded

/-- The loop ends with the chunk that `writei` rejects. -/
theorem filewriteLoop_stop {i : Nat} (more : i < src.length) {r : Int} (negative : r < 0)
    (ran : filewriteChunk devsw sb f ((src.drop i).take (min (src.length - i) filewriteMax)) fs = .ok (r, f', fs')) :
    filewriteLoop devsw sb src i f fs = .ok (i, f', fs') := by
  rw [filewriteLoop, dif_pos more]
  simp only [ran, Except.mapError]
  exact if_pos negative

theorem filewriteLoop_next {i : Nat} {chunk : List Byte} (more : i < src.length)
    (split : (src.drop i).take (min (src.length - i) filewriteMax) = chunk)
    (ran : filewriteChunk devsw sb f chunk fs = .ok (chunk.length, f', fs')) :
    filewriteLoop devsw sb src i f fs = filewriteLoop devsw sb src (i + chunk.length) f' fs' := by
  have length : chunk.length = min (src.length - i) filewriteMax := by
    rw [← split, List.length_take, List.length_drop]
    omega
  rw [filewriteLoop, dif_pos more]
  simp only [split, ran, Except.mapError]
  rw [Steps.ok_bind rfl]
  simp only [length]
  rw [if_neg (by omega), if_neg (by simp)]

theorem filewriteLoop_ok (valid : sb.Valid) (devsw : Devsw) (lenWord : src.length < 2 ^ 31) {i : Nat}
    (ordered : Ordered sb fs) (opened : Opened sb fs f.ip)
    (within : f.off ≤ (dinode sb fs.disk (fs.icache f.ip).inum).size)
    (room : Room sb (trees sb (dinode sb fs.disk) fs.disk) fs.disk
      (Reached (fs.icache f.ip).inum f.off (fitting f.off (src.length - i)))) :
    ∃ fs', filewriteLoop devsw sb src i f fs = .ok (i + fitting f.off (src.length - i),
        { f with off := f.off + fitting f.off (src.length - i) }, fs') ∧
      Updated sb fs (fs.icache f.ip).inum (ByteArrays.overwrite (fileContents sb fs (fs.icache f.ip).inum) f.off
        ((src.drop i).take (fitting f.off (src.length - i)))) fs' := by
  induction left : src.length - i using Nat.strong_induction_on generalizing i f fs with
  | _ rest ih =>
    rw [left] at room
    have size := opened.size_le ordered
    have limit : MAXFILE * BSIZE < 2 ^ 32 := by decide
    have pos : 0 < filewriteMax := by decide
    have fits := fitting_le (n := rest) (Nat.le_trans within size)
    by_cases more : i < src.length
    · generalize split : (src.drop i).take (min rest filewriteMax) = chunk
      have length : chunk.length = min rest filewriteMax := by
        rw [← split, List.length_take, List.length_drop]
        omega
      by_cases large : MAXFILE * BSIZE < f.off + min rest filewriteMax
      · rw [← length] at large
        obtain ⟨fs', ran, updated⟩ := filewriteChunk_full ordered opened devsw (by omega) (by omega) large
          (fs.icache f.ip).inum
        rw [length] at large
        rw [fitting_eq_zero large]
        refine ⟨fs', ?_, ?_⟩
        · subst split left
          exact filewriteLoop_stop more (by decide) ran
        · rw [List.take_zero, ByteArrays.overwrite_nil]
          exact updated
      · have bounded : f.off + chunk.length ≤ MAXFILE * BSIZE := by omega
        have next := fitting_eq_add (Nat.le_of_not_lt large)
        rw [← length] at next
        obtain ⟨⟨r, f₁, fs₁⟩, ran⟩ := (filewriteChunk_room ordered opened within bounded valid devsw).mp
          (room.mono fun n ⟨p, low, high, on⟩ => ⟨p, low, by omega, on⟩)
        have roomLeft := filewriteChunk_left ordered opened within bounded valid
          (by omega : chunk.length ≤ fitting f.off rest) fits.2 room ran
        obtain ⟨rfl, rfl, updated⟩ := filewriteChunk_stores ordered opened within bounded valid ran
        have length₁ : (fileContents sb fs (fs.icache f.ip).inum).length =
            (dinode sb fs.disk (fs.icache f.ip).inum).size := length_contents
        have size₁ := updated.size
        rw [ByteArrays.length_overwrite (by omega)] at size₁
        -- what the induction needs in the new state
        have within₁ : f.off + chunk.length ≤ (dinode sb fs₁.disk (fs₁.icache f.ip).inum).size := by
          rw [(updated.entries f.ip).1, size₁]
          omega
        have fewer : src.length - (i + chunk.length) = rest - chunk.length := by omega
        rw [next, Nat.add_sub_cancel_left, ← fewer, ← (updated.entries f.ip).1] at roomLeft
        obtain ⟨fs', loop, updated'⟩ := ih (rest - chunk.length) (by omega) (f := { f with off := f.off + chunk.length })
          updated.ordered (updated.opened ordered opened) within₁ roomLeft fewer
        refine ⟨fs', ?_, ?_⟩
        · rw [filewriteLoop_next more (left ▸ split) ran, loop, next]
          simp only [Nat.add_assoc]
        · have bytes : (src.drop i).take (fitting f.off rest) =
              chunk ++ (src.drop (i + chunk.length)).take (fitting (f.off + chunk.length) (rest - chunk.length)) := by
            rw [next, List.take_add, List.drop_drop, length, split]
          rw [(updated.entries f.ip).1, updated.contents, ByteArrays.overwrite_overwrite (by omega), ← bytes] at updated'
          exact updated.trans updated'
    · have all : rest = 0 := by omega
      subst all
      rw [filewriteLoop, dif_neg more]
      have none : fitting f.off 0 = 0 := by omega
      rw [none, List.take_zero, ByteArrays.overwrite_nil]
      exact ⟨fs, rfl, .refl ordered _⟩

/-! ### Chunks and single writes -/

/-- The two file systems hold the same files. -/
structure SameFiles (sb : Superblock) (fs fs' : FileSystem) : Prop where
  types : ∀ i < sb.ninodes, (dinode sb fs'.disk i).type = (dinode sb fs.disk i).type
  sizes : ∀ i < sb.ninodes, (dinode sb fs'.disk i).size = (dinode sb fs.disk i).size
  contents : ∀ i, InUse sb (dinode sb fs.disk) i → (dinode sb fs.disk i).type ≠ T_DEV →
    fileContents sb fs' i = fileContents sb fs i

theorem Updated.sameFiles (one : Updated sb fs i bytes fs₁) (two : Updated sb fs i bytes fs') :
    SameFiles sb fs₁ fs' := by
  have inodes : ∀ j < sb.ninodes, j ≠ i → dinode sb fs'.disk j = dinode sb fs₁.disk j := fun j inside other => by
    rw [two.inodes j inside other, one.inodes j inside other]
  refine ⟨fun j inside => ?_, fun j inside => ?_, fun j used file => ?_⟩
  · rw [two.types inside, one.types inside]
  · by_cases here : j = i
    · rw [here, two.size, one.size]
    · rw [inodes j inside here]
  · by_cases here : j = i
    · rw [here, two.contents, one.contents]
    · have same := one.inodes j used.2.1 here
      rw [same] at file
      have used : InUse sb (dinode sb fs.disk) j := ⟨used.1, used.2.1, same ▸ used.2.2⟩
      rw [two.others j here used file, one.others j here used file]

/-- `filewrite` writes what a single `writei` of the bytes that fit writes. -/
theorem filewrite_fitting (valid : sb.Valid) (ordered : Ordered sb fs) (opened : Opened sb fs f.ip)
    (writable : f.writable = true) (within : f.off ≤ (dinode sb fs.disk (fs.icache f.ip).inum).size)
    (lenWord : src.length < 2 ^ 31) {r : Int}
    (single : filewriteChunk devsw sb f (src.take (fitting f.off src.length)) fs = .ok (r, f', fs₁)) :
    ∃ fs', filewrite devsw sb f src fs = .ok (if fitting f.off src.length = src.length then src.length else -1,
        { f with off := f.off + fitting f.off src.length }, fs') ∧ SameFiles sb fs₁ fs' := by
  have fits := fitting_le (n := src.length) (Nat.le_trans within (opened.size_le ordered))
  have length : (src.take (fitting f.off src.length)).length = fitting f.off src.length := by
    rw [List.length_take]
    omega
  have room := (filewriteChunk_room ordered opened within (by rw [length]; exact fits.2) valid devsw).mpr ⟨_, single⟩
  obtain ⟨_, _, one⟩ := filewriteChunk_stores ordered opened within (by rw [length]; exact fits.2) valid single
  rw [length] at room
  obtain ⟨fs', loop, two⟩ := filewriteLoop_ok (i := 0) valid devsw lenWord ordered opened within room
  refine ⟨fs', ?_, one.sameFiles two⟩
  rw [filewrite, if_neg (by rw [writable]; decide), loop]
  simp only [Nat.zero_add, Nat.sub_zero]
  rfl

end Xv6.Fs
