import Xv6.Dirs.Entries

/-!
# What the directory operations do

On a locked directory without holes in its file, the loops of `dirlookup` and `dirlink` are `find` and
`hole` on the table of the contents. The write of an entry needs a new block only behind the end.
-/

namespace Xv6.Dirs

open Bytes Fs Steps

variable {sb : Superblock} {dp dp' : Inode} {s s' : State} {i j : Nat}

/-! ### A locked directory -/

/-- The contents of the directory that is locked. -/
abbrev listing (sb : Superblock) (dp : Inode) (s : State) : List Byte := heldContents sb dp s dp.inum

/-- A directory in order, locked: every block of its file is there, and it is a file of entries. -/
structure IsDir (sb : Superblock) (dp : Inode) (s : State) : Prop where
  inum : 1 ≤ dp.inum ∧ dp.inum < sb.ninodes
  type : dp.type = T_DIR
  fits : dp.Fits
  image : Image sb (table sb dp s.disk) s.disk
  aligned : dp.size % direntSize = 0

namespace IsDir

theorem notDev (dir : IsDir sb dp s) : dp.type ≠ T_DEV := by
  rw [dir.type]
  decide

theorem held (dir : IsDir sb dp s) : Held sb dp s :=
  ⟨dir.inum, by rw [dir.type]; decide, dir.fits, dir.image.toSafe⟩

theorem filled (dir : IsDir sb dp s) : Filled (view sb dp s) dp.inum dp.toDinode := by
  have used := (inUse_table dp dir.inum s.disk).mpr dir.held.type
  have filled := dir.image.filled dp.inum used (by rw [table_self]; exact dir.notDev)
  rwa [table_self] at filled

theorem length (_ : IsDir sb dp s) : (listing sb dp s).length = dp.size := by rw [length_contents, table_self]

theorem count (dir : IsDir sb dp s) : (slots (listing sb dp s)).length = dp.size / direntSize := by
  rw [length_slots, dir.length]

/-- `readi` of an entry. -/
theorem readi_entry (dir : IsDir sb dp s) (devsw : Devsw) (inside : j < dp.size / direntSize) :
    readi devsw sb dp (direntSize * j) direntSize s =
      .ok (((direntSize : Nat), entryBytes (listing sb dp s) j), dp, s) := by
  have bounded := dir.filled.bounded
  have limit : MAXFILE * BSIZE < 2 ^ 32 - 16 := by decide
  have within : direntSize * j + direntSize ≤ dp.size := by
    simp only [direntSize] at *
    omega
  have accepted : ¬ReadRejected dp.size (direntSize * j) direntSize := by
    simp only [ReadRejected, not_or, Nat.not_lt, Nat.not_le, direntSize] at *
    omega
  have all : min direntSize (dp.size - direntSize * j) = direntSize := by
    simp only [direntSize] at *
    omega
  rw [readi_spec devsw dir.held.root dir.notDev dir.filled accepted, all]
  congr 3
  apply List.ext_getElem
  · simp only [entryBytes, List.length_map, List.length_range, List.length_take, List.length_drop, dir.length]
    exact all.symm
  · intro p low high
    simp [entryBytes, contents, view]

end IsDir

/-! ### The loops -/

/-- The slots from `i` on begin with the entry `i`. -/
theorem drop_slots {contents : List Byte} (inside : i < contents.length / direntSize) :
    (slots contents).drop i = (dirent (entryBytes contents i)).binding :: (slots contents).drop (i + 1) := by
  have bound : i < (slots contents).length := by rwa [length_slots]
  have first := getElem?_slots inside
  rw [List.getElem?_eq_getElem bound] at first
  rw [List.drop_eq_getElem_cons bound, Option.some.inj first]

theorem lookupLoop_eq (dir : IsDir sb dp s) (devsw : Devsw) (name : Str) : ∀ {rounds i : Nat}, i ≤ dp.size / direntSize →
    dp.size / direntSize < i + rounds →
    lookupLoop devsw sb name rounds (direntSize * i) dp s =
      .ok ((Slots.find (key name) ((slots (listing sb dp s)).drop i)).map fun (j, inum) =>
        (inum, direntSize * (i + j)), dp, s) := by
  intro rounds
  induction rounds with
  | zero =>
    intro i low high
    omega
  | succ rounds ih =>
    intro i low high
    rw [lookupLoop]
    by_cases more : i < dp.size / direntSize
    · have below : direntSize * i < dp.size := by
        simp only [direntSize] at *
        omega
      -- a slot that does not match: the search goes on behind it
      have next : (Slots.find (key name) ((slots (listing sb dp s)).drop (i + 1))).map (fun (j, inum) =>
            (inum, direntSize * (i + 1 + j))) =
          ((Slots.find (key name) ((slots (listing sb dp s)).drop (i + 1))).map fun (j, inum) => (j + 1, inum)).map
            fun (j, inum) => (inum, direntSize * (i + j)) := by
        rw [Option.map_map]
        congr 1
        funext x
        obtain ⟨j, inum⟩ := x
        simp only [Function.comp_apply, Nat.add_assoc, Nat.add_comm 1 j]
      have step : direntSize * i + direntSize = direntSize * (i + 1) := by
        simp only [direntSize]
        omega
      have rest := ih (i := i + 1) (by omega) (by omega)
      rw [if_pos below, dir.readi_entry devsw more, drop_slots (by rwa [dir.length]), Slots.find_cons]
      simp only [lift, Except.mapError, bind, Except.bind, Dirent.binding, ne_eq, not_true_eq_false, if_false]
      by_cases empty : (dirent (entryBytes (listing sb dp s) i)).inum = 0
      · simp only [if_pos empty]
        rw [step, rest, next]
        rfl
      · simp only [if_neg empty]
        by_cases same : key name = key (literal (dirent (entryBytes (listing sb dp s) i)).name)
        · rw [if_pos (namecmp_eq_zero_iff.mpr same), if_pos (by rw [same]; rfl)]
          rfl
        · rw [if_neg (mt namecmp_eq_zero_iff.mp same), if_neg, step, rest, next]
          exact fun is => same (Option.some.inj is).symm
    · have last : i = dp.size / direntSize := by omega
      have all : dp.size ≤ direntSize * i := by
        have aligned := dir.aligned
        simp only [direntSize] at *
        omega
      rw [if_neg (by omega), List.drop_eq_nil_of_le (by rw [dir.count]; omega)]
      rfl

theorem emptyLoop_eq (dir : IsDir sb dp s) (devsw : Devsw) : ∀ {rounds i : Nat}, i ≤ dp.size / direntSize →
    dp.size / direntSize < i + rounds →
    emptyLoop devsw sb rounds (direntSize * i) dp s =
      .ok (direntSize * (i + Slots.hole ((slots (listing sb dp s)).drop i)), dp, s) := by
  intro rounds
  induction rounds with
  | zero =>
    intro i low high
    omega
  | succ rounds ih =>
    intro i low high
    rw [emptyLoop]
    by_cases more : i < dp.size / direntSize
    · have below : direntSize * i < dp.size := by
        simp only [direntSize] at *
        omega
      have step : direntSize * i + direntSize = direntSize * (i + 1) := by
        simp only [direntSize]
        omega
      rw [if_pos below, dir.readi_entry devsw more, drop_slots (by rwa [dir.length])]
      simp only [lift, Except.mapError, bind, Except.bind, Dirent.binding, ne_eq, not_true_eq_false, if_false]
      by_cases empty : (dirent (entryBytes (listing sb dp s) i)).inum = 0
      · simp only [if_pos empty]
        rfl
      · simp only [if_neg empty]
        rw [step, ih (by omega) (by omega), Slots.hole, Nat.add_assoc, Nat.add_comm 1]
    · have last : i = dp.size / direntSize := by omega
      have all : dp.size ≤ direntSize * i := by
        have aligned := dir.aligned
        simp only [direntSize] at *
        omega
      rw [if_neg (by omega), List.drop_eq_nil_of_le (by rw [dir.count]; omega)]
      rfl

/-! ### Writing an entry -/

/-- A write inside the file that does not cross a block boundary finds its block. -/
theorem writei_inside (dir : IsDir sb dp s) (devsw : Devsw) (off : Nat) (src : List Byte) (more : src.length ≠ 0)
    (room : src.length ≤ BSIZE - off % BSIZE) (within : off + src.length ≤ dp.size) :
    ∃ r, writei devsw sb dp off src s = .ok r := by
  have bounded := dir.filled.bounded
  have limit : MAXFILE * BSIZE < 2 ^ 32 := by decide
  have accepted : ¬WriteRejected dp.size off src.length := by
    simp only [WriteRejected, not_or, Nat.not_lt, Nat.not_le]
    omega
  have whole : chunk off src.length = src.length := by
    unfold chunk
    omega
  rw [writei_accepted devsw dir.notDev accepted, writeLoop, dif_neg more,
    bmap_live dir.held.root (div_BSIZE_lt (by omega)) (dir.filled.live off (by omega))]
  change ∃ r, (writeLoop sb dp (off + chunk off src.length) (src.drop (chunk off src.length)) _ >>= _) = Except.ok r
  rw [whole, writeLoop, dif_pos (by simp)]
  change ∃ r, (if 0 < src.length ∧ dp.size < off + src.length then _ else _) = Except.ok r
  split <;> exact ⟨_, rfl⟩

/-- The directory after the write of an entry. -/
structure Wrote (sb : Superblock) (dp : Inode) (s : State) (j : Nat) (src : List Byte) (dp' : Inode) (s' : State) :
    Prop where
  dir : IsDir sb dp' s'
  slots : slots (listing sb dp' s') = Slots.put (slots (listing sb dp s)) j (dirent src).binding
  size : dp'.size = if j < dp.size / direntSize then dp.size else dp.size + direntSize
  inum : dp'.inum = dp.inum
  ref : dp'.ref = dp.ref
  valid : dp'.valid = dp.valid

/-- `writei` of an entry of the directory, or of the one behind it. -/
theorem writei_entry (valid : sb.Valid) (dir : IsDir sb dp s) (devsw : Devsw) (src : List Byte)
    (inside : j ≤ dp.size / direntSize) (length : src.length = direntSize)
    (room : j < dp.size / direntSize ∨ dp.size + direntSize ≤ MAXFILE * BSIZE ∧ 4 ≤ (freeBlocks sb s.disk).card) :
    ∃ dp' s', writei devsw sb dp (direntSize * j) src s = .ok ((direntSize : Nat), dp', s') ∧ Wrote sb dp s j src dp' s' := by
  have bounded := dir.filled.bounded
  have aligned := dir.aligned
  have limit : MAXFILE * BSIZE < 2 ^ 32 := by decide
  have accepted : ¬WriteRejected dp.size (direntSize * j) src.length := by
    rw [length]
    simp only [WriteRejected, not_or, Nat.not_lt, Nat.not_le, direntSize] at *
    omega
  have one : blocksTouched (direntSize * j) src.length = 1 := by
    rw [length]
    simp only [blocksTouched, direntSize, BSIZE]
    omega
  rcases writei_spec valid devsw dir.held dir.notDev dir.filled accepted with ⟨failed, few⟩ | ⟨dp', s', ran, written⟩
  · -- an entry of the file needs no block, and behind it there are enough
    exfalso
    rcases room with within | ⟨-, free⟩
    · obtain ⟨r, ran⟩ := writei_inside dir devsw (direntSize * j) src (by rw [length]; decide) (by
        rw [length]
        simp only [direntSize, BSIZE]
        omega) (by
        rw [length]
        simp only [direntSize] at *
        omega)
      rw [ran] at failed
      cases failed
    · omega
  · have stored := written.refines dir.image dir.filled accepted ran
    have inode := written.inode
    have inum : dp'.inum = dp.inum := by rw [inode]
    have size : dp'.size = if j < dp.size / direntSize then dp.size else dp.size + direntSize := by
      rw [stored.size, length]
      simp only [direntSize] at *
      split <;> omega
    have contents : listing sb dp' s' = ByteArrays.overwrite (listing sb dp s) (direntSize * j) src := by
      rw [listing, inum]
      exact stored.contents
    rw [length] at ran
    refine ⟨dp', s', ran, ⟨inum ▸ dir.inum, stored.type.trans dir.type, written.held.fits,
      stored.image, ?_⟩, ?_, size, inum, by rw [inode], by rw [inode]⟩
    · rw [size]
      simp only [direntSize] at *
      split <;> omega
    · rw [contents]
      exact slots_overwrite (by rwa [dir.length]) (by rwa [dir.length]) length

/-! ### The inode found -/

variable {fs fs' : FileSystem} {k l : Fin NINODE} {inum : Nat}

/-- `iget` has an entry for the inode. -/
def Room (fs : FileSystem) (inum : Nat) : Prop :=
  ∃ l, 0 < (fs.icache l).ref ∧ (fs.icache l).inum = inum ∨ (fs.icache l).ref = 0

/-- What `iget` does to the entry it returns. -/
inductive Borrowed (fs : FileSystem) (inum : Nat) (l : Fin NINODE) : FileSystem → Prop where
  | cached : 0 < (fs.icache l).ref → (fs.icache l).inum = inum →
      Borrowed fs inum l (fs.store l { fs.icache l with ref := (fs.icache l).ref + 1 } fs.toState)
  | recycled : (fs.icache l).ref = 0 →
      Borrowed fs inum l (fs.store l { fs.icache l with inum := inum, ref := 1, valid := false } fs.toState)

theorem iget_borrowed (ran : iget inum fs = .ok (l, fs')) : Borrowed fs inum l fs' := by
  unfold iget at ran
  split at ran
  next m found =>
    have test := List.find?_some found
    simp only [Bool.and_eq_true, decide_eq_true_eq, beq_iff_eq] at test
    cases ran
    exact .cached test.1 test.2
  next =>
    split at ran
    · cases ran
    next m found =>
      have test := List.find?_some found
      simp only [beq_iff_eq] at test
      cases ran
      exact .recycled test

/-- `iget` fails only if every entry is in use, and none by the inode. -/
theorem iget_full {e : Panic} (ran : iget inum fs = .error e) : e = .igetNoInodes ∧ ¬Room fs inum := by
  unfold iget at ran
  split at ran
  · cases ran
  next missing =>
    split at ran
    next none_ =>
      cases ran
      refine ⟨rfl, ?_⟩
      rintro ⟨m, cached | idle⟩
      · have miss := List.find?_eq_none.mp missing m (List.mem_finRange m)
        simp only [Bool.and_eq_true, decide_eq_true_eq, beq_iff_eq] at miss
        exact miss cached
      · have taken := List.find?_eq_none.mp none_ m (List.mem_finRange m)
        simp only [beq_iff_eq] at taken
        exact taken idle
    · cases ran

theorem iget_room (room : Room fs inum) : ∃ l fs', iget inum fs = .ok (l, fs') ∧ Borrowed fs inum l fs' := by
  cases ran : iget inum fs with
  | error e => exact absurd room (iget_full ran).2
  | ok result => exact ⟨result.1, result.2, rfl, iget_borrowed ran⟩

namespace Borrowed

theorem toState (borrowed : Borrowed fs inum l fs') : fs'.toState = fs.toState := by
  cases borrowed <;> rfl

theorem inode (borrowed : Borrowed fs inum l fs') : (fs'.icache l).inum = inum ∧ 0 < (fs'.icache l).ref := by
  cases borrowed with
  | cached busy same =>
    rw [store_icache_self]
    exact ⟨same, Int.lt_add_one_iff.mpr busy.le⟩
  | recycled idle =>
    rw [store_icache_self]
    exact ⟨rfl, Int.one_pos⟩

/-- The directory keeps its entry in the cache; it may have a reference more. -/
theorem own (borrowed : Borrowed fs inum l fs') (busy : 0 < (fs.icache k).ref) :
    ∃ ref, 0 < ref ∧ fs'.icache k = { fs.icache k with ref } := by
  cases borrowed with
  | cached busy' same =>
    by_cases here : k = l
    · subst here
      rw [store_icache_self]
      exact ⟨_, Int.lt_add_one_iff.mpr busy.le, rfl⟩
    · rw [store_icache_ne fs here]
      exact ⟨_, busy, rfl⟩
  | recycled idle =>
    have here : k ≠ l := by
      rintro rfl
      omega
    rw [store_icache_ne fs here]
    exact ⟨_, busy, rfl⟩

theorem ne (borrowed : Borrowed fs inum l fs') (busy : 0 < (fs.icache k).ref) (other : (fs.icache k).inum ≠ inum) :
    l ≠ k := by
  rintro rfl
  cases borrowed with
  | cached busy' same => exact other same
  | recycled idle => omega

/-- `iput` gives the reference back, and frees nothing. -/
theorem iput (borrowed : Borrowed fs inum l fs') (sb : Superblock) : ∃ fs'', Fs.iput sb l fs' = .ok fs'' ∧ fs''.toState = fs.toState ∧
    (∀ m, (fs''.icache m).ref = (fs.icache m).ref) ∧ ∀ m, 0 < (fs.icache m).ref → fs''.icache m = fs.icache m := by
  have kept : ∀ ip : Inode, ip.ref = (fs.icache l).ref → (0 < (fs.icache l).ref → ip = fs.icache l) →
      (∀ m, ((Function.update fs.icache l ip) m).ref = (fs.icache m).ref) ∧
        ∀ m, 0 < (fs.icache m).ref → (Function.update fs.icache l ip) m = fs.icache m := by
    intro ip ref same
    constructor
    · intro m
      by_cases here : m = l
      · rw [here, Function.update_self, ref]
      · rw [Function.update_of_ne here]
    · intro m busy
      by_cases here : m = l
      · subst here
        rw [Function.update_self, same busy]
      · rw [Function.update_of_ne here]
  cases borrowed with
  | cached busy same =>
    refine ⟨(fs.store l { fs.icache l with ref := (fs.icache l).ref + 1 } fs.toState).store l
      { fs.icache l with ref := (fs.icache l).ref + 1 - 1 } fs.toState, ?_, rfl, ?_⟩
    · unfold Fs.iput
      simp only [store_icache_self]
      rw [if_neg (by omega)]
      rfl
    · simp only [FileSystem.store, Function.update_idem]
      exact kept _ (by simp) fun _ => by simp
  | recycled idle =>
    refine ⟨(fs.store l { fs.icache l with inum := inum, ref := 1, valid := false } fs.toState).store l
      { fs.icache l with inum := inum, ref := 1 - 1, valid := false } fs.toState, ?_, rfl, ?_⟩
    · unfold Fs.iput
      simp only [store_icache_self]
      rw [if_neg (by simp)]
      rfl
    · simp only [FileSystem.store, Function.update_idem]
      exact kept _ (by simp [idle]) fun busy => by omega

end Borrowed

end Xv6.Dirs
