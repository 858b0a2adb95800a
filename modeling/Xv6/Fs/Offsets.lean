import Xv6.Fs.OpenFiles

/-!
# Offsets of open files

Reads and writes move the offset of an open file by the bytes they transfer. Files never become
shorter by them, so the offset of every open file stays within its file, also of those that share an
inode with the one that moves.
-/

namespace Xv6.Fs

open Bytes Forest

variable {sb : Superblock} {devsw : Devsw} {fs fs' fs₁ : FileSystem} {f f' : OpenFile} {src bytes : List Byte}
  {i : Nat} {k : Fin NINODE}

/-- File `f` became `f'`, whose offset is within the file; sizes did not shrink. -/
structure Advanced (sb : Superblock) (f : OpenFile) (fs : FileSystem) (f' : OpenFile) (fs' : FileSystem) : Prop where
  ordered : Ordered sb fs'
  entries : SameEntries fs fs'
  types : ∀ j < sb.ninodes, (dinode sb fs'.disk j).type = (dinode sb fs.disk j).type
  sizes : ∀ j < sb.ninodes, (dinode sb fs.disk j).size ≤ (dinode sb fs'.disk j).size
  file : f' = { f with off := f'.off }
  within : f'.off ≤ (dinode sb fs'.disk (fs'.icache f.ip).inum).size

theorem Advanced.trans {f₁ : OpenFile} (first : Advanced sb f fs f₁ fs₁) (second : Advanced sb f₁ fs₁ f' fs') :
    Advanced sb f fs f' fs' := by
  have ip : f₁.ip = f.ip := by rw [first.file]
  refine ⟨second.ordered, fun l => ?_, fun j inside => (second.types j inside).trans (first.types j inside),
    fun j inside => Nat.le_trans (first.sizes j inside) (second.sizes j inside), ?_, ip ▸ second.within⟩
  · rw [(second.entries l).1, (second.entries l).2]
    exact first.entries l
  · rw [second.file, first.file]

theorem Updated.advanced (updated : Updated sb fs (fs.icache f.ip).inum bytes fs')
    (grows : (dinode sb fs.disk (fs.icache f.ip).inum).size ≤ bytes.length) {off : Nat} (within : off ≤ bytes.length) :
    Advanced sb f fs { f with off := off } fs' := by
  refine ⟨updated.ordered, updated.entries, fun _ inside => updated.types inside, fun j inside => ?_, rfl, ?_⟩
  · by_cases here : j = (fs.icache f.ip).inum
    · rw [here, updated.size]
      exact grows
    · rw [updated.inodes j inside here]
  · rw [(updated.entries f.ip).1, updated.size]
    exact within

theorem Advanced.of_disk (ordered : Ordered sb fs') (disk : fs'.disk = fs.disk) (entries : SameEntries fs fs')
    {off : Nat} (inside : off ≤ (dinode sb fs.disk (fs.icache f.ip).inum).size) :
    Advanced sb f fs { f with off := off } fs' :=
  (Updated.of_disk ordered disk entries _).advanced (by rw [length_contents]) (by rwa [length_contents])

section Advance

variable (ordered : Ordered sb fs) (opened : Opened sb fs f.ip)
  (within : f.off ≤ (dinode sb fs.disk (fs.icache f.ip).inum).size)

include ordered opened within

theorem fileread_advanced {n : Nat} (lenWord : n < 2 ^ 31) {result : Int × List Byte}
    (ran : fileread devsw sb f n fs = .ok (result, f', fs')) : Advanced sb f fs f' fs' := by
  unfold fileread at ran
  split at ran
  · cases ran
    exact Advanced.of_disk ordered rfl (fun _ => ⟨rfl, rfl⟩) within
  · obtain ⟨fs₁, lock, locked, file, disk, entries⟩ := ilock_opened ordered opened
    have size := opened.size_le ordered
    have limit : MAXFILE * BSIZE < 2 ^ 31 := by decide
    have notDev : (fs₁.icache f.ip).type ≠ T_DEV := by
      rw [file]
      decide
    have sizes : (fs₁.icache f.ip).size = (dinode sb fs.disk (fs.icache f.ip).inum).size := by
      rw [locked.size, disk, (entries f.ip).1]
    have accepted : ¬ReadRejected (fs₁.icache f.ip).size f.off n := by
      rw [ReadRejected, sizes]
      omega
    -- at most the bytes up to the end are transferred
    have moved : f.off + min n ((fs₁.icache f.ip).size - f.off) ≤ (dinode sb fs.disk (fs.icache f.ip).inum).size := by
      rw [sizes]
      omega
    rw [lock, Steps.ok_bind rfl, readi_spec devsw locked.held.1.root notDev (locked.filled notDev) accepted,
      Steps.ok_bind rfl] at ran
    simp only [store_self, Except.ok.injEq, Prod.mk.injEq] at ran
    obtain ⟨_, rfl, rfl⟩ := ran
    rw [f.advance_length (by omega)]
    exact Advanced.of_disk locked.toOrdered disk entries moved

theorem filewriteChunk_advanced (valid : sb.Valid) (lenWord : src.length < 2 ^ 31) {r : Int}
    (ran : filewriteChunk devsw sb f src fs = .ok (r, f', fs')) : Advanced sb f fs f' fs' := by
  have size := opened.size_le ordered
  have limit : MAXFILE * BSIZE < 2 ^ 32 := by decide
  have length : (fileContents sb fs (fs.icache f.ip).inum).length = (dinode sb fs.disk (fs.icache f.ip).inum).size :=
    length_contents
  by_cases large : MAXFILE * BSIZE < f.off + src.length
  · obtain ⟨fs₁, full, updated⟩ := filewriteChunk_full ordered opened devsw (by omega) (by omega) large
      (fs.icache f.ip).inum
    rw [full] at ran
    cases ran
    exact updated.advanced (by omega) (by omega)
  · obtain ⟨_, rfl, updated⟩ := filewriteChunk_stores ordered opened within (Nat.le_of_not_lt large) valid ran
    apply updated.advanced
    · rw [ByteArrays.length_overwrite (by omega)]
      omega
    · rw [ByteArrays.length_overwrite (by omega)]
      omega

theorem filewriteLoop_advanced (valid : sb.Valid) (lenWord : src.length < 2 ^ 31) {i i' : Nat}
    (ran : filewriteLoop devsw sb src i f fs = .ok (i', f', fs')) : Advanced sb f fs f' fs' := by
  induction left : src.length - i using Nat.strong_induction_on generalizing i f fs with
  | _ rest ih =>
    have pos : 0 < filewriteMax := by decide
    rw [filewriteLoop] at ran
    split at ran
    next more =>
      obtain ⟨⟨r, f₁, fs₁⟩, chunk, ran⟩ := Steps.bind_ok ran
      have first : Advanced sb f fs f₁ fs₁ := by
        refine filewriteChunk_advanced ordered opened within valid ?_ (Steps.mapError_ok chunk)
        rw [List.length_take]
        omega
      simp only at ran
      split at ran
      · cases ran
        exact first
      · split at ran
        · cases ran
        · have ip : f₁.ip = f.ip := by rw [first.file]
          have opened₁ := opened.transfer ordered first.entries first.types
          refine first.trans (ih (rest - min rest filewriteMax) (by omega) first.ordered (ip ▸ opened₁)
            (ip ▸ first.within) ran ?_)
          omega
    next =>
      cases ran
      exact Advanced.of_disk ordered rfl (fun _ => ⟨rfl, rfl⟩) within

theorem filewrite_advanced (valid : sb.Valid) (lenWord : src.length < 2 ^ 31) {r : Int}
    (ran : filewrite devsw sb f src fs = .ok (r, f', fs')) : Advanced sb f fs f' fs' := by
  unfold filewrite at ran
  split at ran
  · cases ran
    exact Advanced.of_disk ordered rfl (fun _ => ⟨rfl, rfl⟩) within
  · obtain ⟨⟨i, f₁, fs₁⟩, loop, ran⟩ := Steps.bind_ok ran
    cases ran
    exact filewriteLoop_advanced ordered opened within valid lenWord loop

end Advance

/-! ### Runs -/

section Runs

variable {ι : Type} [DecidableEq ι]

/-- A call on one of several open files. The chunks of a `filewrite` also stand for themselves: other processes
run between two of them. -/
inductive Call (ι : Type) where
  | read (j : ι) (n : Nat)
  | write (j : ι) (src : List Byte)
  | chunk (j : ι) (src : List Byte)

/-- The number of bytes is an `int`. -/
def Call.Legal : Call ι → Prop
  | .read _ n => n < 2 ^ 31
  | .write _ src => src.length < 2 ^ 31
  | .chunk _ src => src.length < 2 ^ 31

def Call.run (devsw : Devsw) (sb : Superblock) :
    (ι → OpenFile) × FileSystem → Call ι → Except FilePanic ((ι → OpenFile) × FileSystem)
  | (files, fs), .read j n => do
    let (_, f, fs) ← (fileread devsw sb (files j) n fs).mapError .fs
    .ok (Function.update files j f, fs)
  | (files, fs), .write j src => do
    let (_, f, fs) ← filewrite devsw sb (files j) src fs
    .ok (Function.update files j f, fs)
  | (files, fs), .chunk j src => do
    let (_, f, fs) ← (filewriteChunk devsw sb (files j) src fs).mapError .fs
    .ok (Function.update files j f, fs)

/-- All files are open regular files with their offsets within them. -/
structure WithinSize (sb : Superblock) (files : ι → OpenFile) (fs : FileSystem) : Prop where
  ordered : Ordered sb fs
  opened : ∀ j, Opened sb fs (files j).ip
  within : ∀ j, (files j).off ≤ (dinode sb fs.disk (fs.icache (files j).ip).inum).size

theorem Advanced.withinSize {files : ι → OpenFile} {j : ι} (advanced : Advanced sb (files j) fs f' fs')
    (before : WithinSize sb files fs) : WithinSize sb (Function.update files j f') fs' := by
  have ip : f'.ip = (files j).ip := by rw [advanced.file]
  refine ⟨advanced.ordered, fun l => ?_, fun l => ?_⟩
  · by_cases here : l = j
    · subst here
      rw [Function.update_self, ip]
      exact (before.opened l).transfer before.ordered advanced.entries advanced.types
    · rw [Function.update_of_ne here]
      exact (before.opened l).transfer before.ordered advanced.entries advanced.types
  · by_cases here : l = j
    · subst here
      rw [Function.update_self, ip]
      exact advanced.within
    · -- the file of another descriptor, perhaps the same inode, has not become shorter
      rw [Function.update_of_ne here, (advanced.entries _).1]
      exact Nat.le_trans (before.within l) (advanced.sizes _ (before.ordered.inum _ (before.opened l).busy).2)

theorem Call.run_withinSize (valid : sb.Valid) {files files' : ι → OpenFile} {call : Call ι} (legal : call.Legal)
    (before : WithinSize sb files fs) (ran : call.run devsw sb (files, fs) = .ok (files', fs')) :
    WithinSize sb files' fs' := by
  cases call with
  | read j n =>
    obtain ⟨⟨_, f, fs₁⟩, read, ran⟩ := Steps.bind_ok ran
    cases ran
    exact (fileread_advanced before.ordered (before.opened j) (before.within j) legal
      (Steps.mapError_ok read)).withinSize before
  | write j src =>
    obtain ⟨⟨_, f, fs₁⟩, wrote, ran⟩ := Steps.bind_ok ran
    cases ran
    exact (filewrite_advanced before.ordered (before.opened j) (before.within j) valid legal wrote).withinSize before
  | chunk j src =>
    obtain ⟨⟨_, f, fs₁⟩, wrote, ran⟩ := Steps.bind_ok ran
    cases ran
    exact (filewriteChunk_advanced before.ordered (before.opened j) (before.within j) valid legal
      (Steps.mapError_ok wrote)).withinSize before

/-- A sequence of calls. -/
def runCalls (devsw : Devsw) (sb : Superblock) (calls : List (Call ι)) (state : (ι → OpenFile) × FileSystem) :
    Except FilePanic ((ι → OpenFile) × FileSystem) :=
  calls.foldlM (Call.run devsw sb) state

theorem runCalls_withinSize (valid : sb.Valid) {calls : List (Call ι)} {files files' : ι → OpenFile}
    (legal : ∀ call ∈ calls, call.Legal) (before : WithinSize sb files fs)
    (ran : runCalls devsw sb calls (files, fs) = .ok (files', fs')) : WithinSize sb files' fs' := by
  induction calls generalizing files fs with
  | nil =>
    cases ran
    exact before
  | cons call calls ih =>
    rw [runCalls, List.foldlM_cons] at ran
    obtain ⟨⟨files₁, fs₁⟩, first, ran⟩ := Steps.bind_ok ran
    refine ih (fun c member => legal c (List.mem_cons_of_mem _ member)) ?_ ran
    exact call.run_withinSize valid (legal call List.mem_cons_self) before first

end Runs

/-! ### Chunked writes -/

/-- Chunked writes equal one write. A `filewrite` that fits, with room on the disk for one `writei` of all its
bytes, returns their number, moves the offset behind them and leaves the files as that `writei` does. If the file
would become too large it returns -1, and the files and the offset are those after one `writei` of the whole
chunks that fit. In runs of reads and writes the offsets stay within the files. -/
theorem filewrite_chunks (valid : sb.Valid) (devsw : Devsw) :
    (∀ (f : OpenFile) (fs fs₁ : FileSystem) (f₁ : OpenFile) (src : List Byte) (r : Int), Ordered sb fs →
      Opened sb fs f.ip → f.writable = true → f.off ≤ (dinode sb fs.disk (fs.icache f.ip).inum).size →
      src.length < 2 ^ 31 →
      (f.off + src.length ≤ MAXFILE * BSIZE → filewriteChunk devsw sb f src fs = .ok (r, f₁, fs₁) →
        ∃ fs', filewrite devsw sb f src fs = .ok (src.length, { f with off := f.off + src.length }, fs') ∧
          SameFiles sb fs₁ fs') ∧
      (MAXFILE * BSIZE < f.off + src.length → ∀ n, n = (MAXFILE * BSIZE - f.off) / filewriteMax * filewriteMax →
        filewriteChunk devsw sb f (src.take n) fs = .ok (r, f₁, fs₁) →
        ∃ fs', filewrite devsw sb f src fs = .ok (-1, { f with off := f.off + n }, fs') ∧ SameFiles sb fs₁ fs')) ∧
    ∀ (ι : Type) [DecidableEq ι] (files files' : ι → OpenFile) (fs fs' : FileSystem) (calls : List (Call ι)),
      (∀ call ∈ calls, call.Legal) → Ordered sb fs → (∀ j, Opened sb fs (files j).ip) →
      (∀ j, (files j).off ≤ (dinode sb fs.disk (fs.icache (files j).ip).inum).size) →
      runCalls devsw sb calls (files, fs) = .ok (files', fs') →
      ∀ j, (files' j).off ≤ (dinode sb fs'.disk (fs'.icache (files' j).ip).inum).size := by
  refine ⟨?_, fun ι _ files files' fs fs' calls legal ordered opened within ran =>
    (runCalls_withinSize valid legal ⟨ordered, opened, within⟩ ran).within⟩
  intro f fs fs₁ f₁ src r ordered opened writable within lenWord
  constructor
  · intro bounded single
    have all : fitting f.off src.length = src.length := if_pos bounded
    have result := filewrite_fitting valid ordered opened writable within lenWord
      (by rw [all, List.take_length]; exact single)
    rwa [all, if_pos rfl] at result
  · rintro large n rfl single
    have whole : fitting f.off src.length = (MAXFILE * BSIZE - f.off) / filewriteMax * filewriteMax :=
      if_neg (by omega)
    have fits := fitting_le (n := src.length) (Nat.le_trans within (opened.size_le ordered))
    have result := filewrite_fitting valid ordered opened writable within lenWord (by rw [whole]; exact single)
    rwa [if_neg (by omega), whole] at result

/-- The file of the small image, open at its last byte. -/
def smallFile : OpenFile := { readable := true, writable := true, ip := 0, off := 2 }

def openSystem : FileSystem := smallSystem.store 0 { smallInode with valid := false } smallSystem.toState

theorem openSystem_ordered : Ordered mkfsSuperblock openSystem :=
  smallSystem_ordered.recycle (Int.lt_irrefl 0) fun _ =>
    ⟨by decide, rfl, fun _ busy => absurd busy (Int.lt_irrefl 0)⟩

theorem openSystem_inum : (openSystem.icache smallFile.ip).inum = 1 := by
  rw [openSystem, smallFile, store_icache_self]
  rfl

theorem openSystem_dinode : dinode mkfsSuperblock openSystem.disk 1 = smallTable 1 := smallInode_stored

theorem smallFile_opened : Opened mkfsSuperblock openSystem smallFile.ip := by
  refine ⟨?_, ?_⟩
  · rw [openSystem, smallFile, store_icache_self]
    decide
  · rw [openSystem_inum, openSystem_dinode]
    rfl

/-- Two bytes are written across the end of the file; after that, and after any other calls, the offset is
within the file. -/
theorem filewrite_chunks_small :
    (∃ fs₁ fs', filewriteChunk noDevices mkfsSuperblock smallFile [72, 105] openSystem =
        .ok (2, { smallFile with off := 4 }, fs₁) ∧
      filewrite noDevices mkfsSuperblock smallFile [72, 105] openSystem = .ok (2, { smallFile with off := 4 }, fs') ∧
      SameFiles mkfsSuperblock fs₁ fs') ∧
    ∀ (calls : List (Call Unit)) (files' : Unit → OpenFile) (fs' : FileSystem), (∀ call ∈ calls, call.Legal) →
      runCalls noDevices mkfsSuperblock calls (fun _ => smallFile, openSystem) = .ok (files', fs') →
      (files' ()).off ≤ (dinode mkfsSuperblock fs'.disk (fs'.icache (files' ()).ip).inum).size := by
  obtain ⟨writes, runs⟩ := filewrite_chunks mkfsSuperblock_valid noDevices
  have within : smallFile.off ≤ (dinode mkfsSuperblock openSystem.disk (openSystem.icache smallFile.ip).inum).size := by
    rw [openSystem_inum, openSystem_dinode]
    decide
  constructor
  · obtain ⟨⟨r, f₁, fs₁⟩, single⟩ : ∃ result, filewriteChunk noDevices mkfsSuperblock smallFile [72, 105] openSystem =
        .ok result :=
      filewriteChunk_free openSystem_ordered smallFile_opened within (by decide) mkfsSuperblock_valid noDevices
        smallDisk_free
    obtain ⟨rfl, rfl, _⟩ := filewriteChunk_stores openSystem_ordered smallFile_opened within (by decide)
      mkfsSuperblock_valid single
    obtain ⟨fs', ran, same⟩ := (writes smallFile openSystem fs₁ _ [72, 105] _ openSystem_ordered smallFile_opened rfl
      within (by decide)).1 (by decide) single
    exact ⟨fs₁, fs', single, ran, same⟩
  · intro calls files' fs' legal ran
    exact runs Unit (fun _ => smallFile) files' openSystem fs' calls legal openSystem_ordered
      (fun _ => smallFile_opened) (fun _ => within) ran ()

end Xv6.Fs
