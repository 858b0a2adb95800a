import Xv6.Fs.Disk
import Xv6.Fs.Extent

/-!
# The size of a transaction

`filewrite` cuts a write into chunks so that one `writei` fits into `MAXOPBLOCKS` log blocks. It does except
in one constellation: the chunk crosses from the double into the triple indirect region, all blocks but
the first are new, and the nine lowest free blocks have their bits in nine different bitmap blocks.
-/

namespace Xv6.Fs

open Bytes Forest

/-- `max` in `filewrite`: the bytes written in one transaction. -/
def filewriteMax : Nat := ((MAXOPBLOCKS - 1 - 3 - 4) / 2) * 512

/-! ### `writei` -/

section Writei

variable {sb : Superblock} {ip ip' ip₁ : Inode} {s s' s₁ : State} {off : Nat} {src : List Byte}

/-- The log of a `writei` that was not rejected: the write loop's, then the inode's block if
the file grew. -/
theorem writei_logged (valid : sb.Valid) (devsw : Devsw) (held : Held sb ip s)
    (notDev : ip.type ≠ T_DEV) (accepted : ¬WriteRejected ip.size off src.length) {r : Int}
    (ran : writei devsw sb ip off src s = .ok (r, ip', s')) :
    ∃ es ip₁ s₁, Wrote sb ip s off src es ip₁ s₁ ∧ s'.logged = s₁.logged ++
      if decide (ip.size < off + src.length) then [sb.IBLOCK ip.inum] else [] := by
  rw [writei_accepted devsw notDev accepted] at ran
  simp only [WriteRejected, not_or, Nat.not_lt, Nat.not_le] at accepted
  obtain ⟨⟨ip₁, s₁⟩, looped, rest⟩ := Steps.bind_ok ran
  obtain ⟨es, wrote⟩ := writeLoop_ok valid src held accepted.2.2 looped
  have inode := (wrote.ran.kept valid held).inode
  have size : ip₁.size = ip.size := by rw [inode]
  have inum : ip₁.inum = ip.inum := by rw [inode]
  refine ⟨es, ip₁, s₁, wrote, ?_⟩
  simp only at rest
  by_cases grew : ip.size < off + src.length
  · rw [if_pos ⟨by omega, by omega⟩] at rest
    cases rest
    simp [grew, iupdate, logWrite, inum]
  · rw [if_neg (by omega)] at rest
    cases rest
    simp [grew]

/-- The last block that `src` at `off` touches. -/
def lastBlock (off n : Nat) : Nat := (off + n - 1) / BSIZE

theorem Wrote.touched_iff {es : List Event} (wrote : Wrote sb ip s off src es ip₁ s₁)
    (some_ : 0 < src.length) (n : Node Root) : n ∈ written es ↔
      ∃ bn, off / BSIZE ≤ bn ∧ bn ≤ lastBlock off src.length ∧ n = leaf ip.inum bn := by
  rw [wrote.touched]
  simp only [lastBlock, BSIZE]
  constructor
  · rintro ⟨p, low, high, rfl⟩
    exact ⟨p / 512, by omega, by omega, rfl⟩
  · rintro ⟨bn, low, high, rfl⟩
    by_cases begins : bn = off / 512
    · exact ⟨off, Nat.le_refl _, by omega, by rw [begins]⟩
    · refine ⟨bn * 512, by omega, by omega, ?_⟩
      rw [Nat.mul_div_cancel _ (by decide)]

theorem Wrote.added_block {es : List Event} (wrote : Wrote sb ip s off src es ip₁ s₁)
    (valid : sb.Valid) (held : Held sb ip s) {n : Node Root} (new : n ∈ grown es) :
    (view sb ip s).addr n = 0 ∧ ∃ bn, off / BSIZE ≤ bn ∧ bn ≤ lastBlock off src.length ∧
      n.1 = (leaf ip.inum bn).1 ∧ n.2 <+: (leaf ip.inum bn).2 := by
  refine ⟨(wrote.ran.grown_spec valid held new).2.1, ?_⟩
  obtain ⟨p, low, high, below⟩ := wrote.added n new
  refine ⟨p / BSIZE, ?_, ?_, below⟩ <;> simp only [lastBlock, BSIZE] <;> omega

/-- A chunk either modifies at most nineteen blocks, counting new ones twice, or is in the
critical constellation. -/
theorem Wrote.count (valid : sb.Valid) (held : Held sb ip s)
    (filled : Filled (view sb ip s) ip.inum ip.toDinode) (within : off ≤ ip.size)
    (chunk : src.length ≤ filewriteMax) (some_ : 0 < src.length)
    (inside : off + src.length ≤ MAXFILE * BSIZE) {es : List Event}
    (wrote : Wrote sb ip s off src es ip₁ s₁) :
    (modified es).card + (grown es).length ≤ 19 ∨
      (Critical (view sb ip s) ip.inum (off / BSIZE) (lastBlock off src.length) ∧
        (modified es).card ≤ 11 ∧ (grown es).length ≤ 9) := by
  have small : src.length ≤ 3072 := chunk
  have lastInside : lastBlock off src.length < MAXFILE := div_BSIZE_lt (by omega)
  have order : off / BSIZE ≤ lastBlock off src.length := by
    simp only [lastBlock, BSIZE]
    omega
  have extent : ∀ e, (view sb ip s).addr (leaf ip.inum e) ≠ 0 → e ≤ off / BSIZE →
      lastBlock off src.length ≤ e + 6 →
      Extent (view sb ip s) ip.inum es (off / BSIZE) (lastBlock off src.length) e :=
    fun e live before near => ⟨wrote.touched_iff some_, fun n new => wrote.added_block valid held new,
      wrote.ran.grown_nodup valid held, live, before, order, near, lastInside⟩
  by_cases live : (view sb ip s).addr (leaf ip.inum (off / BSIZE)) = 0
  · -- the write starts at the end of the file, at a block boundary
    have atEnd : ip.size ≤ off / BSIZE * BSIZE := by
      by_contra longer
      refine filled.live (off / BSIZE * BSIZE) (by omega) ?_
      rw [Nat.mul_div_cancel _ (by decide)]
      exact live
    by_cases empty : off / BSIZE = 0
    · -- an empty file: only direct blocks
      left
      have direct : ∀ n ∈ grown es, n.2 = [] ∧ ∃ bn ∈ Finset.range 6, n = leaf ip.inum bn := by
        intro n new
        obtain ⟨_, bn, _, high, root, isPrefix⟩ := wrote.added_block valid held new
        have low : bn < 6 := by
          simp only [lastBlock, BSIZE] at *
          omega
        have nil := leaf_direct ip.inum (show bn < 10 by omega)
        rw [nil] at isPrefix
        have path := List.prefix_nil.mp isPrefix
        exact ⟨path, bn, Finset.mem_range.mpr low, Prod.ext root (path.trans nil.symm)⟩
      have modifiedIn : modified es ⊆ (Finset.range 6).image (leaf ip.inum) := by
        intro n member
        rcases mem_modified.mp member with new | ⟨m, new, deep, _⟩ | old
        · obtain ⟨_, bn, range, rfl⟩ := direct n new
          exact Finset.mem_image_of_mem _ range
        · exact absurd (direct m new).1 deep
        · obtain ⟨bn, low, high, rfl⟩ := (wrote.touched_iff some_ n).mp old
          refine Finset.mem_image_of_mem _ (Finset.mem_range.mpr ?_)
          simp only [lastBlock, BSIZE] at *
          omega
      have grownIn : (grown es).toFinset ⊆ (Finset.range 6).image (leaf ip.inum) := by
        intro n member
        obtain ⟨_, bn, range, rfl⟩ := direct n (List.mem_toFinset.mp member)
        exact Finset.mem_image_of_mem _ range
      have six : ((Finset.range 6).image (leaf ip.inum)).card ≤ 6 := by
        simpa using Finset.card_image_le (s := Finset.range 6) (f := leaf ip.inum)
      have one := Finset.card_le_card modifiedIn
      have two := Finset.card_le_card grownIn
      rw [List.toFinset_card_of_nodup (wrote.ran.grown_nodup valid held)] at two
      omega
    · refine (extent (off / BSIZE - 1) ?_ (Nat.sub_le _ _) ?_).card_le_or_critical
      · have position : (off / BSIZE - 1) * BSIZE / BSIZE = off / BSIZE - 1 :=
          Nat.mul_div_cancel _ (by decide)
        rw [← position]
        apply filled.live
        simp only [BSIZE] at *
        omega
      · simp only [lastBlock, BSIZE] at *
        omega
  · refine (extent (off / BSIZE) live (Nat.le_refl _) ?_).card_le_or_critical
    simp only [lastBlock, BSIZE]
    omega

/-- The one case in which a chunk needs more than `MAXOPBLOCKS` blocks: seven blocks across
the start of the triple indirect region, all but the first missing, no triple index block
yet, and the nine lowest free blocks in nine different bitmap blocks. -/
structure Overflows (sb : Superblock) (ip : Inode) (s : State) (off n : Nat) : Prop where
  file : ip.type ≠ T_DEV
  seven : 6 * BSIZE < off % BSIZE + n
  left : off / BSIZE + 1 < tripleStart
  right : tripleStart ≤ off / BSIZE + 6
  noTriple : ip.addrs 12 = 0
  missing : ∀ bn, off / BSIZE < bn → bn < tripleStart →
    (view sb ip s).addr (leaf ip.inum bn) = 0
  scattered : ((lowest 9 (freeBlocks sb s.disk)).image sb.BBLOCK).card = 9

theorem Overflows.critical (held : Held sb ip s) {n : Nat} (chunk : n ≤ filewriteMax)
    (overflows : Overflows sb ip s off n) :
    Critical (view sb ip s) ip.inum (off / BSIZE) (lastBlock off n) := by
  obtain ⟨_, seven, left, right, noTriple, missing, _⟩ := overflows
  have small : n ≤ 3072 := chunk
  have last : lastBlock off n = off / BSIZE + 6 := by
    simp only [lastBlock, BSIZE] at *
    omega
  have root : (view sb ip s).root (ip.inum, 12) = 0 := (held.root 12).trans noTriple
  refine ⟨last, left, by omega, root, ?_⟩
  intro bn low high
  by_cases before : bn < tripleStart
  · exact missing bn low before
  · -- in the triple indirect region, where there is no root
    rw [tripleStart_eq] at before left
    have inside : bn < MAXFILE := by
      rw [MAXFILE_eq]
      omega
    have zero : leafOf bn = (12, (leafOf bn).2) := by
      rcases leafOf_cases inside with ⟨i, _, h, _⟩ | ⟨i, _, h, _⟩ | ⟨i, _, j, _, h, _⟩ |
          ⟨i, _, j, _, k, _, h, e⟩
      · omega
      · omega
      · omega
      · rw [e]
    rw [Store.addr, leaf, zero, root, follow_zero]

private theorem next_block_lt {n size : Nat} (seven : 6 * BSIZE < off % BSIZE + n)
    (short : ¬size < off + n) : (off / BSIZE + 1) * BSIZE < size := by
  have large : 3072 < off % 512 + n := seven
  change (off / 512 + 1) * 512 < size
  omega

/-- The distinct blocks that one chunk logs exceed `MAXOPBLOCKS` exactly in that case; shared
by the theorem below and its counterexample. -/
theorem passed_le_iff (valid : sb.Valid) (devsw : Devsw) (held : Held sb ip s)
    (notDev : ip.type ≠ T_DEV) (filled : Filled (view sb ip s) ip.inum ip.toDinode)
    (within : off ≤ ip.size) (chunk : src.length ≤ filewriteMax)
    (accepted : ¬WriteRejected ip.size off src.length) {r : Int}
    (ran : writei devsw sb ip off src s = .ok (r, ip', s')) :
    (passed s s').card ≤ MAXOPBLOCKS ↔ ¬Overflows sb ip s off src.length := by
  obtain ⟨es, ip₁, s₁, wrote, logged⟩ := writei_logged valid devsw held notDev accepted ran
  have count := wrote.ran.card_passed valid held _ logged
  simp only [WriteRejected, not_or, Nat.not_lt, Nat.not_le] at accepted
  have limit : MAXOPBLOCKS = 20 := rfl
  have inode : (if decide (ip.size < off + src.length) = true then 1 else 0) ≤ 1 := by
    split <;> omega
  have taken : (lowest (grown es).length (freeBlocks sb s.disk)).card ≤ (grown es).length := by
    rw [← wrote.ran.taken valid held]
    calc _ ≤ (grown es).toFinset.card := Finset.card_image_le
      _ ≤ (grown es).length := List.toFinset_card_le _
  have bitmaps : ((lowest (grown es).length (freeBlocks sb s.disk)).image sb.BBLOCK).card ≤
      (grown es).length := Nat.le_trans Finset.card_image_le taken
  by_cases some_ : 0 < src.length
  · constructor
    · -- in the bad case all counts are attained
      intro few overflows
      have critical := overflows.critical held chunk
      have lastInside : lastBlock off src.length < MAXFILE := div_BSIZE_lt (by omega)
      obtain ⟨eleven, nine⟩ := critical.counts lastInside
        (fun bn low high => (wrote.touched_iff some_ _).mpr ⟨bn, low, high, rfl⟩)
        (by
          intro bn n low high root isPrefix empty
          by_contra old
          have touchedLeaf := (wrote.touched_iff some_ _).mpr ⟨bn, low, high, rfl⟩
          have live := (wrote.ran.written_live valid held touchedLeaf).2
          have isNode : shape.IsNode n := by
            have node := leaf_isNode ip.inum (Nat.lt_of_le_of_lt high lastInside)
            obtain ⟨r, path⟩ := n
            simp only at root
            subst root
            exact ⟨Nat.le_trans isPrefix.length_le node.1,
              fun i h => node.2 i (isPrefix.subset h)⟩
          have same := wrote.ran.addr_of_not_grown valid held isNode old
          obtain ⟨r, path⟩ := n
          simp only at root isPrefix
          subst root
          exact live_above isPrefix live (same.trans empty))
        (wrote.ran.grown_nodup valid held)
      have grew : ip.size < off + src.length := by
        by_contra short
        refine filled.live ((off / BSIZE + 1) * BSIZE) (next_block_lt overflows.seven short) ?_
        · rw [Nat.mul_div_cancel _ (by decide)]
          exact critical.missing _ (by omega) (by rw [critical.seven]; omega)
      have exactly : (grown es).length = 9 := by
        rcases wrote.count valid held filled within chunk some_ accepted.2.2 with fewer | ⟨_, _, upper⟩
        · omega
        · omega
      rw [exactly, overflows.scattered, if_pos (by simpa using grew)] at count
      omega
    · intro fine
      rcases wrote.count valid held filled within chunk some_ accepted.2.2 with
        fewer | ⟨critical, eleven, nine⟩
      · omega
      · by_contra many
        apply fine
        have exactly : (grown es).length = 9 := by omega
        rw [exactly] at count bitmaps
        have seven := critical.seven
        refine ⟨notDev, ?_, critical.left, by rw [← seven]; exact critical.right,
          (held.root 12).symm.trans critical.noTriple, ?_, by omega⟩
        · simp only [lastBlock, BSIZE] at seven ⊢
          omega
        · intro bn low high
          refine critical.missing bn low ?_
          have := critical.right
          omega
  · have none : grown es = [] := by
      rw [List.eq_nil_iff_forall_not_mem]
      intro n new
      obtain ⟨p, low, high, _⟩ := wrote.added n new
      omega
    have nothing : modified es = ∅ := by
      rw [Finset.eq_empty_iff_forall_notMem]
      intro n member
      rcases mem_modified.mp member with new | ⟨m, new, _⟩ | old
      · rw [none] at new
        cases new
      · rw [none] at new
        cases new
      · obtain ⟨p, low, high, _⟩ := (wrote.touched n).mp old
        omega
    rw [none] at bitmaps count
    rw [nothing, Finset.card_empty] at count
    simp only [List.length_nil] at bitmaps count
    refine iff_of_true (by omega) ?_
    intro overflows
    have seven := overflows.seven
    have := Nat.mod_lt off (show 0 < BSIZE by decide)
    simp only [BSIZE] at *
    omega

/-- One chunk of `filewrite`, on any inode of a hole-free file system and any bitmap with
room, logs at most `MAXOPBLOCKS` distinct blocks unless it `Overflows`. -/
theorem transaction_size (valid : sb.Valid) (devsw : Devsw) (held : Held sb ip s)
    (filled : ip.type ≠ T_DEV → Filled (view sb ip s) ip.inum ip.toDinode)
    (within : off ≤ ip.size) (chunk : src.length ≤ filewriteMax) {r : Int}
    (ran : writei devsw sb ip off src s = .ok (r, ip', s')) :
    (passed s s').card ≤ MAXOPBLOCKS ↔ ¬Overflows sb ip s off src.length := by
  have nothing : s' = s → (passed s s').card ≤ MAXOPBLOCKS := by
    rintro rfl
    simp [passed]
  by_cases dev : ip.type = T_DEV
  · unfold writei at ran
    rw [if_pos dev] at ran
    cases ran
    exact iff_of_true (nothing rfl) fun overflows => overflows.file dev
  by_cases rejected : WriteRejected ip.size off src.length
  · have fits := held.fits.size
    have small : src.length ≤ 3072 := chunk
    rw [writei_rejected devsw dev (by omega) (by omega) rejected] at ran
    cases ran
    refine iff_of_true (nothing rfl) ?_
    intro overflows
    have early : off / 512 + 1 < 16522 := overflows.left
    have large : MAXFILE * BSIZE = 1082201088 := rfl
    rcases rejected with past | wraps | beyond <;> omega
  · exact passed_le_iff valid devsw held dev (filled dev) within chunk rejected ran

end Writei

/-- In the small image a write of two bytes at offset two stays within the limit. -/
theorem transaction_size_small : ∃ r ip' s',
    writei noDevices mkfsSuperblock smallInode 2 [72, 105] smallState = .ok (r, ip', s') ∧
      ((passed smallState s').card ≤ MAXOPBLOCKS ↔
        ¬Overflows mkfsSuperblock smallInode smallState 2 2) := by
  have held := smallInode_held
  have filled := smallInode_filled
  rcases writei_spec mkfsSuperblock_valid noDevices held (by decide) filled
    (show ¬WriteRejected smallInode.size 2 ([72, 105] : List Byte).length by decide) with
    ⟨_, few⟩ | ⟨ip', s', ran, _⟩
  · have := smallDisk_free
    have one : blocksTouched 2 ([72, 105] : List Byte).length = 1 := by decide
    rw [one] at few
    change (freeBlocks mkfsSuperblock smallDisk).card < 4 * 1 at few
    omega
  · exact ⟨_, ip', s', ran, transaction_size mkfsSuperblock_valid noDevices held (fun _ => filled)
      (by decide) (by decide) ran⟩

/-! ### A chunk that overflows

A file that ends with the second-to-last block of the double indirect region, on a disk
where of the first 36864 blocks only the last one of each bitmap block's range is free. -/

/-- The address of the `c`-th used data block. -/
def wideBlock (c : Nat) : Nat := 98 + c + (98 + c) / 4095

/-- Used data blocks in order: 16521 file blocks, then the index blocks. -/
def wideData (a : Nat) : Block :=
  let c := a - a / 4096 - 98
  if c = 16521 then Buf.ofWords 512 fun j => wideBlock (10 + j)
  else if c = 16522 then Buf.ofWords 512 fun i => wideBlock (16523 + i)
  else Buf.ofWords 512 fun j =>
    if 138 + 128 * (c - 16523) + j < 16521 then wideBlock (138 + 128 * (c - 16523) + j) else 0

def wideTable (i : Nat) : Dinode :=
  if i = 1 then
    { Dinode.blank with
      type := T_FILE, nlink := 1, size := 16521 * 512
      addrs := fun k => if k.val < 10 then wideBlock k else if k = 10 then wideBlock 16521
        else if k = 11 then wideBlock 16522 else 0 }
  else Dinode.blank

def wideUsed (b : Nat) : Bool := decide (b < 36864 ∧ b % 4096 ≠ 4095)

def wideState : State :=
  { disk := assemble mkfsSuperblock wideUsed wideTable wideData, logged := [] }

def wideInode : Inode := { wideTable 1 with inum := 1, ref := 1, valid := true }

/-- The trees of the parts. -/
def wideTrees : Store Root Nat := trees mkfsSuperblock wideTable wideData

private theorem wideBlock_bounds {c : Nat} (small : c < 16651) :
    98 ≤ wideBlock c ∧ wideBlock c < 16753 ∧ wideBlock c % 4096 ≠ 4095 ∧
      wideBlock c - wideBlock c / 4096 - 98 = c := by
  unfold wideBlock
  omega

private theorem wideTable_fits (i : Nat) : (wideTable i).Fits := by
  have bound : ∀ c < 16651, wideBlock c < 2 ^ 32 := fun c small => by
    have := wideBlock_bounds small
    omega
  unfold wideTable
  split
  · refine ⟨by decide, ?_⟩
    intro k
    have := k.isLt
    dsimp only
    split_ifs
    · exact bound _ (by omega)
    · exact bound _ (by omega)
    · exact bound _ (by omega)
    · exact Nat.two_pow_pos 32
  · exact ⟨by decide, fun _ => Nat.two_pow_pos 32⟩

private theorem wide_root (k : Fin (NDIRECT + 3)) : wideTrees.root (1, k) =
    if k.val < 10 then wideBlock k else if k = 10 then wideBlock 16521
    else if k = 11 then wideBlock 16522 else 0 := by
  have used : InUse mkfsSuperblock wideTable 1 := by decide
  simp only [wideTrees, trees, if_pos used]
  simp [wideTable]

private theorem wide_root_other {r : Root} (other : r.1 ≠ 1) : wideTrees.root r = 0 := by
  have unused : ¬InUse mkfsSuperblock wideTable r.1 := by
    rintro ⟨_, _, typed⟩
    simp [wideTable, other, Dinode.blank] at typed
  simp only [wideTrees, trees, if_neg unused]

private theorem wide_single {j : Nat} (small : j < 128) :
    wideTrees.next (wideBlock 16521) j = wideBlock (10 + j) := by
  have code := (wideBlock_bounds (show 16521 < 16651 by decide)).2.2.2
  have word := wideBlock_bounds (show 10 + j < 16651 by omega)
  change (wideData (wideBlock 16521)).word j = _
  simp only [wideData, code, if_true]
  exact Buf.word_ofWords _ small (by omega)

private theorem wide_double {i : Nat} (small : i < 128) :
    wideTrees.next (wideBlock 16522) i = wideBlock (16523 + i) := by
  have code := (wideBlock_bounds (show 16522 < 16651 by decide)).2.2.2
  have word := wideBlock_bounds (show 16523 + i < 16651 by omega)
  change (wideData (wideBlock 16522)).word i = _
  simp only [wideData, code]
  rw [if_neg (by decide), if_pos trivial]
  exact Buf.word_ofWords _ small (by omega)

private theorem wide_index {i j : Nat} (smallI : i < 128) (smallJ : j < 128) :
    wideTrees.next (wideBlock (16523 + i)) j =
      if 138 + 128 * i + j < 16521 then wideBlock (138 + 128 * i + j) else 0 := by
  have code := (wideBlock_bounds (show 16523 + i < 16651 by omega)).2.2.2
  have shift : 16523 + i - 16523 = i := by omega
  change (wideData (wideBlock (16523 + i))).word j = _
  simp only [wideData, code, shift]
  rw [if_neg (by omega), if_neg (by omega)]
  refine Buf.word_ofWords _ smallJ ?_
  split
  next inFile =>
    have := wideBlock_bounds (show 138 + 128 * i + j < 16651 by omega)
    omega
  · exact Nat.two_pow_pos 32

private theorem wideBlock_ne_zero {c : Nat} (small : c < 16651) : wideBlock c ≠ 0 := by
  have := wideBlock_bounds small
  omega

/-- The position of the `c`-th used data block. -/
def widePosition (c : Nat) : Node Root :=
  if direct : c < 10 then ((1, ⟨c, direct_lt direct⟩), [])
  else if c < 138 then ((1, 10), [c - 10])
  else if c < 16521 then ((1, 11), [(c - 138) / 128, (c - 138) % 128])
  else if c = 16521 then ((1, 10), [])
  else if c = 16522 then ((1, 11), [])
  else ((1, 11), [c - 16523])

private theorem wide_addr {n : Node Root} (node : shape.IsNode n) : wideTrees.addr n = 0 ∨
    ∃ c < 16651, wideTrees.addr n = wideBlock c ∧ n = widePosition c := by
  obtain ⟨⟨i, k⟩, path⟩ := n
  by_cases own : i = 1
  · subst own
    have short : path.length ≤ k.val - 9 := node.1
    have bounds : ∀ j ∈ path, j < 128 := node.2
    have kBound : k.val < 13 := k.isLt
    have root := wide_root k
    by_cases direct : k.val < 10
    · have nil : path = [] := List.eq_nil_of_length_eq_zero (by omega)
      subst nil
      rw [if_pos direct] at root
      refine .inr ⟨k.val, by omega, root, ?_⟩
      rw [widePosition, dif_pos direct]
    · rw [if_neg direct] at root
      by_cases single : k = 10
      · subst single
        rw [if_pos rfl] at root
        rcases path with _ | ⟨a, _ | ⟨b, rest⟩⟩
        · exact .inr ⟨16521, by decide, root, rfl⟩
        · have small := bounds a (by simp)
          right
          refine ⟨10 + a, by omega, ?_, ?_⟩
          · rw [Store.addr, root, follow_cons, if_neg (wideBlock_ne_zero (by decide)), follow_nil,
              wide_single small]
          · rw [widePosition, dif_neg (by omega), if_pos (by omega), Nat.add_sub_cancel_left]
        · exact absurd (show rest.length + 2 ≤ 1 from short) (by omega)
      · rw [if_neg single] at root
        by_cases double : k = 11
        · subst double
          rw [if_pos rfl] at root
          rcases path with _ | ⟨a, _ | ⟨b, _ | ⟨c, rest⟩⟩⟩
          · exact .inr ⟨16522, by decide, root, rfl⟩
          · have small := bounds a (by simp)
            right
            refine ⟨16523 + a, by omega, ?_, ?_⟩
            · rw [Store.addr, root, follow_cons, if_neg (wideBlock_ne_zero (by decide)), follow_nil,
                wide_double small]
            · rw [widePosition, dif_neg (by omega), if_neg (by omega), if_neg (by omega),
                if_neg (by omega), if_neg (by omega), Nat.add_sub_cancel_left]
          · have smallA := bounds a (by simp)
            have smallB := bounds b (by simp)
            have addr : wideTrees.addr ((1, 11), [a, b]) =
                if 138 + 128 * a + b < 16521 then wideBlock (138 + 128 * a + b) else 0 := by
              rw [Store.addr, root, follow_cons, if_neg (wideBlock_ne_zero (by decide)), follow_cons,
                wide_double smallA, if_neg (wideBlock_ne_zero (by omega)), follow_nil,
                wide_index smallA smallB]
            by_cases inFile : 138 + 128 * a + b < 16521
            · rw [if_pos inFile] at addr
              refine .inr ⟨138 + 128 * a + b, by omega, addr, ?_⟩
              have quotient : (138 + 128 * a + b - 138) / 128 = a := by omega
              have rest : (138 + 128 * a + b - 138) % 128 = b := by omega
              rw [widePosition, dif_neg (by omega), if_neg (by omega), if_pos inFile, quotient, rest]
            · rw [if_neg inFile] at addr
              exact .inl addr
          · exact absurd (show rest.length + 3 ≤ 2 from short) (by omega)
        · rw [if_neg double] at root
          left
          rw [Store.addr, root, follow_zero]
  · left
    rw [Store.addr, wide_root_other own, follow_zero]

private theorem wide_inData (b : Nat) (owned : wideTrees.Owned shape b) :
    mkfsSuperblock.IsData b ∧ wideUsed b = true := by
  obtain ⟨n, node, here, live⟩ := owned
  rcases wide_addr node with zero | ⟨c, small, addr, _⟩
  · exact absurd (here.symm.trans zero) live
  · have bounds := wideBlock_bounds small
    rw [← here, addr, wideUsed, decide_eq_true_eq]
    refine ⟨⟨?_, ?_⟩, ?_, ?_⟩
    · exact bounds.1
    · change _ < 40000
      omega
    · omega
    · exact bounds.2.2.1

private theorem wide_separated : wideTrees.Separated shape := by
  intro n m hn hm live same
  rcases wide_addr hn with zero | ⟨c, smallC, addrN, rfl⟩
  · exact absurd zero live
  · rcases wide_addr hm with zero | ⟨d, smallD, addrM, rfl⟩
    · exact absurd (same.trans zero) live
    · have codeC := (wideBlock_bounds smallC).2.2.2
      have codeD := (wideBlock_bounds smallD).2.2.2
      have blocks : wideBlock c = wideBlock d := by rw [← addrN, ← addrM, same]
      have equal : c = d := by
        rw [blocks] at codeC
        omega
      rw [equal]

private theorem wide_stored :
    dinode mkfsSuperblock wideState.disk wideInode.inum = wideInode.toDinode :=
  dinode_assemble mkfsSuperblock_valid wideTable_fits (show 1 < mkfsSuperblock.ninodes by decide)

theorem wideInode_held : Held mkfsSuperblock wideInode wideState := by
  refine ⟨by decide, by decide, wideTable_fits 1, ?_⟩
  rw [table_eq _ wide_stored]
  refine Safe.assemble mkfsSuperblock_valid wideTable_fits (readsb_assemble (by decide)) ?_
    wide_separated (fun b h => (wide_inData b h).1) fun b h => (wide_inData b h).2
  intro b low
  have small : b < 98 := low
  rw [wideUsed, decide_eq_true_eq]
  omega

private theorem wide_view {n : Node Root} (node : shape.IsNode n) :
    (view mkfsSuperblock wideInode wideState).addr n = wideTrees.addr n := by
  rw [view, table_eq _ wide_stored]
  exact trees_assemble mkfsSuperblock_valid wideTable_fits wideUsed
    (fun b h => (wide_inData b h).1) n node

/-- The leaf of block `bn`: present up to 16520, missing after that. -/
private theorem wide_leaf {bn : Nat} (inside : bn < MAXFILE) : wideTrees.addr (leaf 1 bn) =
    if bn < 16521 then wideBlock bn else 0 := by
  have ne : wideBlock 16521 ≠ 0 := wideBlock_ne_zero (by decide)
  have ne' : wideBlock 16522 ≠ 0 := wideBlock_ne_zero (by decide)
  rcases leafOf_cases inside with ⟨i, small, h, e⟩ | ⟨i, small, h, e⟩ | ⟨i, hi, j, hj, h, e⟩ |
      ⟨i, hi, j, hj, k, hk, h, e⟩
  · rw [leaf, e, if_pos (by omega), h]
    exact (wide_root i).trans (if_pos small)
  · have root : wideTrees.root (1, 10) = wideBlock 16521 := wide_root 10
    rw [leaf, e, Store.addr, root, follow_cons, if_neg ne, follow_nil, wide_single small,
      if_pos (by omega), h]
  · have root : wideTrees.root (1, 11) = wideBlock 16522 := wide_root 11
    rw [leaf, e, Store.addr, root, follow_cons, if_neg ne', follow_cons, wide_double hi,
      if_neg (wideBlock_ne_zero (by omega)), follow_nil, wide_index hi hj, h]
  · have root : wideTrees.root (1, 12) = 0 := wide_root 12
    rw [leaf, e, Store.addr, root, follow_zero, if_neg (by omega)]

theorem wideInode_filled :
    Filled (view mkfsSuperblock wideInode wideState) wideInode.inum wideInode.toDinode := by
  refine ⟨by decide, ?_⟩
  intro p small
  have inFile : p < 16521 * 512 := small
  have block : p / BSIZE < 16521 := Nat.div_lt_of_lt_mul (by simp only [BSIZE]; omega)
  have inside : p / BSIZE < MAXFILE := by
    rw [MAXFILE_eq]
    omega
  change (view mkfsSuperblock wideInode wideState).addr (leaf 1 (p / BSIZE)) ≠ 0
  rw [wide_view (leaf_isNode 1 inside), wide_leaf inside, if_pos block]
  exact wideBlock_ne_zero (by omega)

private theorem wide_free {b : Nat} : b ∈ freeBlocks mkfsSuperblock wideState.disk ↔
    b < 40000 ∧ ¬(b < 36864 ∧ b % 4096 ≠ 4095) := by
  rw [freeBlocks, Finset.mem_filter, Finset.mem_range]
  refine and_congr_right fun inside => ?_
  have bit : marked mkfsSuperblock wideState.disk b = wideUsed b :=
    marked_assemble mkfsSuperblock_valid inside
  rw [bit, wideUsed, decide_eq_false_iff_not]

theorem wide_overflows : Overflows mkfsSuperblock wideInode wideState (16520 * 512 + 1) 3072 := by
  have scattered : ((Finset.range 9).image fun i => 4095 + 4096 * i) =
      lowest 9 (freeBlocks mkfsSuperblock wideState.disk) := by
    have card : ((Finset.range 9).image fun i => 4095 + 4096 * i).card = 9 := by decide
    rw [← card]
    apply eq_lowest
    · intro b member
      obtain ⟨i, range, rfl⟩ := Finset.mem_image.mp member
      have := Finset.mem_range.mp range
      rw [wide_free]
      omega
    · intro b member c isFree outside
      obtain ⟨i, range, rfl⟩ := Finset.mem_image.mp member
      have := Finset.mem_range.mp range
      rw [wide_free] at isFree
      by_contra low
      apply outside
      refine Finset.mem_image.mpr ⟨c / 4096, Finset.mem_range.mpr (by omega), by omega⟩
  refine ⟨by decide, by decide, by decide, by decide, by decide, ?_, ?_⟩
  · intro bn low high
    have before : bn < 16522 := high
    have after : 16520 < bn := Nat.lt_of_le_of_lt (by decide) low
    have inside : bn < MAXFILE := by
      rw [MAXFILE_eq]
      omega
    change (view mkfsSuperblock wideInode wideState).addr (leaf 1 bn) = 0
    rw [wide_view (leaf_isNode 1 inside), wide_leaf inside, if_neg (by omega)]
  · rw [← scattered]
    decide

/-- On that disk the chunk of 3072 bytes at offset `16520 * 512 + 1` succeeds and logs more
than `MAXOPBLOCKS` distinct blocks. -/
theorem chunk_overflows :
    Held mkfsSuperblock wideInode wideState ∧
    Filled (view mkfsSuperblock wideInode wideState) wideInode.inum wideInode.toDinode ∧
    16520 * 512 + 1 ≤ wideInode.size ∧ (List.replicate 3072 (0 : Byte)).length ≤ filewriteMax ∧
    ∃ ip' s', writei noDevices mkfsSuperblock wideInode (16520 * 512 + 1)
        (List.replicate 3072 0) wideState = .ok (3072, ip', s') ∧
      MAXOPBLOCKS < (passed wideState s').card := by
  have length : (List.replicate 3072 (0 : Byte)).length = 3072 := List.length_replicate
  refine ⟨wideInode_held, wideInode_filled, by decide, by rw [length]; decide, ?_⟩
  have accepted : ¬WriteRejected wideInode.size (16520 * 512 + 1)
      (List.replicate 3072 (0 : Byte)).length := by
    rw [length]
    decide
  rcases writei_spec mkfsSuperblock_valid noDevices wideInode_held (by decide) wideInode_filled
    accepted with ⟨_, few⟩ | ⟨ip', s', ran, _⟩
  · have subset : Finset.Ico 36864 36892 ⊆ freeBlocks mkfsSuperblock wideState.disk := by
      intro b member
      have := Finset.mem_Ico.mp member
      rw [wide_free]
      omega
    have many := Finset.card_le_card subset
    rw [Nat.card_Ico] at many
    have touched : blocksTouched (16520 * 512 + 1) 3072 = 7 := by decide
    rw [length, touched] at few
    omega
  · have iff := passed_le_iff mkfsSuperblock_valid noDevices wideInode_held (by decide)
      wideInode_filled (by decide) (by rw [length]; decide) accepted ran
    rw [length] at ran iff
    refine ⟨ip', s', ran, ?_⟩
    by_contra small
    exact iff.mp (Nat.not_lt.mp small) wide_overflows

end Xv6.Fs
