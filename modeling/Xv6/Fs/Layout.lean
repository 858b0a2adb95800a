import Mathlib.Logic.Function.Basic
import Xv6.Param

/-!
# The on-disk format

The layout of `fs.h`. Dinodes and bitmap bits are read out of the blocks that hold them, so that writing any
block is the only way the disk changes; the lemmas here say which of the views a block write can touch.
-/

namespace Xv6.Fs

open Bytes

/-- `NDIRECT`: direct block addresses in an inode. -/
abbrev NDIRECT : Nat := 10

scoped instance (priority := 2000) neZero_roots : NeZero (NDIRECT + 3) := ⟨nofun⟩

theorem direct_lt {bn : Nat} (direct : bn < NDIRECT) : bn < NDIRECT + 3 := Nat.lt_add_right 3 direct

/-- `NINDIRECT`: addresses in an index block. -/
def NINDIRECT : Nat := BSIZE / 4

/-- `MAXFILE`: the blocks a file can have, through all three levels of indirection. -/
def MAXFILE : Nat :=
  NDIRECT + NINDIRECT + NINDIRECT * NINDIRECT + NINDIRECT * NINDIRECT * NINDIRECT

/-- `IPB`: inodes per block. -/
def IPB : Nat := BSIZE / 64

/-- `BPB`: bitmap bits per block. -/
def BPB : Nat := BSIZE * 8

def T_DIR : BitVec 16 := 1

def T_FILE : BitVec 16 := 2

def T_DEV : BitVec 16 := 3

/-- `struct superblock`. -/
structure Superblock where
  size : Nat
  nblocks : Nat
  ninodes : Nat
  nlog : Nat
  logstart : Nat
  inodestart : Nat
  bmapstart : Nat
  deriving DecidableEq

/-- `readsb`: the super block as block 1 stores it. -/
def readsb (disk : Nat → Block) : Superblock :=
  { size := (disk 1).word 0
    nblocks := (disk 1).word 1
    ninodes := (disk 1).word 2
    nlog := (disk 1).word 3
    logstart := (disk 1).word 4
    inodestart := (disk 1).word 5
    bmapstart := (disk 1).word 6 }

/-- `BBLOCK`: the bitmap block with the bit of block `b`. -/
def Superblock.BBLOCK (sb : Superblock) (b : Nat) : Nat := b / BPB + sb.bmapstart

/-- `IBLOCK`: the block that holds inode `i`. -/
def Superblock.IBLOCK (sb : Superblock) (i : Nat) : Nat := i / IPB + sb.inodestart

/-- `nmeta` of `mkfs`: the first data block. -/
def Superblock.nmeta (sb : Superblock) : Nat := sb.size - sb.nblocks

/-- The data area. -/
def Superblock.IsData (sb : Superblock) (b : Nat) : Prop := sb.nmeta ≤ b ∧ b < sb.size

/-- The areas follow one another as `mkfs` lays them out, with room for all inodes and for
a bit for every block. -/
structure Superblock.Valid (sb : Superblock) : Prop where
  superblock : 2 ≤ sb.logstart
  log : sb.logstart + sb.nlog ≤ sb.inodestart
  inodes : sb.inodestart + sb.ninodes / IPB < sb.bmapstart
  bitmap : sb.bmapstart + sb.size / BPB < sb.nmeta
  words : sb.size < 2 ^ 31

/-- The super block that `mkfs` writes: `FSSIZE` blocks and 200 inodes. -/
def mkfsSuperblock : Superblock :=
  { size := 40000, nblocks := 39902, ninodes := 200, nlog := LOGSIZE, logstart := 2
    inodestart := 62, bmapstart := 88 }

theorem mkfsSuperblock_valid : mkfsSuperblock.Valid := by
  constructor <;> decide

/-! ### Dinodes -/

/-- `struct dinode`. The 16-bit fields are kept as they are stored. -/
structure Dinode where
  type : BitVec 16
  major : BitVec 16
  minor : BitVec 16
  nlink : BitVec 16
  size : Nat
  addrs : Fin (NDIRECT + 3) → Nat

/-- A dinode as `memset` leaves it. -/
def Dinode.blank : Dinode :=
  { type := 0, major := 0, minor := 0, nlink := 0, size := 0, addrs := fun _ => 0 }

/-- The sixteen words of a dinode. -/
def Dinode.word (d : Dinode) : Nat → Nat
  | 0 => d.type.toNat + 65536 * d.major.toNat
  | 1 => d.minor.toNat + 65536 * d.nlink.toNat
  | 2 => d.size
  | k + 3 => if h : k < 13 then d.addrs ⟨k, h⟩ else 0

/-- The dinode in slot `slot` of an inode block. -/
def getDinode (b : Block) (slot : Nat) : Dinode :=
  { type := BitVec.ofNat 16 (b.word (16 * slot))
    major := BitVec.ofNat 16 (b.word (16 * slot) / 65536)
    minor := BitVec.ofNat 16 (b.word (16 * slot + 1))
    nlink := BitVec.ofNat 16 (b.word (16 * slot + 1) / 65536)
    size := b.word (16 * slot + 2)
    addrs := fun k => b.word (16 * slot + (k.val + 3)) }

def putDinode (b : Block) (slot : Nat) (d : Dinode) : Block := b.setWords (16 * slot) 16 d.word

/-- The fields that are words fit into words. -/
structure Dinode.Fits (d : Dinode) : Prop where
  size : d.size < 2 ^ 32
  addrs : ∀ k, d.addrs k < 2 ^ 32

private theorem word_putDinode (b : Block) (slot k : Nat) (d : Dinode) (inside : slot < 8)
    (small : k < 16) : (putDinode b slot d).word (16 * slot + k) = d.word k % 2 ^ 32 := by
  rw [putDinode, Buf.word_setWords _ _ _ _ (by omega), if_pos (by omega), Nat.add_sub_cancel_left]

theorem getDinode_putDinode_same (b : Block) (slot : Nat) (d : Dinode) (inside : slot < 8)
    (fits : d.Fits) : getDinode (putDinode b slot d) slot = d := by
  have w0 := word_putDinode b slot 0 d inside (by omega)
  have w1 := word_putDinode b slot 1 d inside (by omega)
  have w2 := word_putDinode b slot 2 d inside (by omega)
  have ht := d.type.isLt
  have hm := d.major.isLt
  have hn := d.minor.isLt
  have hl := d.nlink.isLt
  have hs := fits.size
  simp only [Nat.add_zero, Dinode.word] at w0 w1 w2
  cases d with
  | mk type major minor nlink size addrs =>
    simp only at *
    rw [getDinode, Dinode.mk.injEq]
    refine ⟨?_, ?_, ?_, ?_, ?_, ?_⟩
    · rw [w0]
      apply BitVec.eq_of_toNat_eq
      rw [BitVec.toNat_ofNat]
      omega
    · rw [w0]
      apply BitVec.eq_of_toNat_eq
      rw [BitVec.toNat_ofNat]
      omega
    · rw [w1]
      apply BitVec.eq_of_toNat_eq
      rw [BitVec.toNat_ofNat]
      omega
    · rw [w1]
      apply BitVec.eq_of_toNat_eq
      rw [BitVec.toNat_ofNat]
      omega
    · rw [w2]
      omega
    · funext k
      have hk : k.val < 13 := k.isLt
      rw [word_putDinode b slot (k.val + 3) _ inside (by omega)]
      simp only [Dinode.word, hk, dite_true]
      exact Nat.mod_eq_of_lt (fits.addrs k)

theorem getDinode_putDinode_ne (b : Block) (i j : Nat) (d : Dinode) (inside : i < 8)
    (other : j ≠ i) : getDinode (putDinode b i d) j = getDinode b j := by
  have untouched : ∀ k < 16, (putDinode b i d).word (16 * j + k) = b.word (16 * j + k) := by
    intro k small
    rw [putDinode, Buf.word_setWords _ _ _ _ (by omega), if_neg (by omega)]
  have w0 := untouched 0 (by omega)
  have w1 := untouched 1 (by omega)
  have w2 := untouched 2 (by omega)
  rw [Nat.add_zero] at w0
  simp only [getDinode, w0, w1, w2]
  congr 1
  funext k
  have hk : k.val < 13 := k.isLt
  exact untouched (k.val + 3) (by omega)

theorem putDinode_getDinode (b : Block) (slot : Nat) (inside : slot < 8) : putDinode b slot (getDinode b slot) = b := by
  apply Buf.ext_word (by decide)
  intro j small
  rw [putDinode, Buf.word_setWords _ _ _ _ (by omega)]
  split
  next within =>
    obtain ⟨k, rfl⟩ : ∃ k, j = 16 * slot + k := ⟨j - 16 * slot, by omega⟩
    have w0 := Buf.word_lt b (16 * slot)
    have w1 := Buf.word_lt b (16 * slot + 1)
    rw [Nat.add_sub_cancel_left]
    match k, within with
    | 0, _ =>
      simp only [Dinode.word, getDinode, BitVec.toNat_ofNat, Nat.add_zero]
      omega
    | 1, _ =>
      simp only [Dinode.word, getDinode, BitVec.toNat_ofNat]
      omega
    | 2, _ => exact Nat.mod_eq_of_lt (Buf.word_lt b _)
    | k + 3, within =>
      rw [Dinode.word, dif_pos (by omega)]
      exact Nat.mod_eq_of_lt (Buf.word_lt b _)
  · rfl

theorem getDinode_zero (slot : Nat) : getDinode (Buf.zero 512) slot = Dinode.blank := by
  simp only [getDinode, Buf.word_zero]
  rfl

theorem getDinode_fits (b : Block) (slot : Nat) : (getDinode b slot).Fits :=
  ⟨Buf.word_lt b _, fun _ => Buf.word_lt b _⟩

/-! ### Views of a disk -/

/-- The bitmap bit of block `b`. -/
def marked (sb : Superblock) (disk : Nat → Block) (b : Nat) : Bool :=
  (disk (sb.BBLOCK b)).bit (b % BPB)

/-- The dinode numbered `i`. -/
def dinode (sb : Superblock) (disk : Nat → Block) (i : Nat) : Dinode :=
  getDinode (disk (sb.IBLOCK i)) (i % IPB)

variable {sb : Superblock}

theorem Superblock.Valid.bblock_bounds (valid : sb.Valid) {b : Nat} (inside : b < sb.size) :
    sb.bmapstart ≤ sb.BBLOCK b ∧ sb.BBLOCK b < sb.nmeta := by
  have room := valid.bitmap
  simp only [BBLOCK, BPB, BSIZE] at *
  omega

theorem Superblock.Valid.iblock_bounds (valid : sb.Valid) {i : Nat} (inside : i < sb.ninodes) :
    2 ≤ sb.IBLOCK i ∧ sb.IBLOCK i < sb.bmapstart := by
  have room := valid.inodes
  have log := valid.log
  have start := valid.superblock
  simp only [IBLOCK, IPB, BSIZE] at *
  omega

theorem Superblock.Valid.bmapstart_lt (valid : sb.Valid) : 2 ≤ sb.bmapstart ∧ sb.bmapstart < sb.nmeta := by
  have start := valid.superblock
  have log := valid.log
  have inodes := valid.inodes
  have bitmap := valid.bitmap
  simp only [IPB, BPB, BSIZE] at *
  omega

/-- Two disks with the same blocks below the data area have the same metadata. -/
structure SameMeta (sb : Superblock) (d e : Nat → Block) : Prop where
  superblock : e 1 = d 1
  inodes : ∀ i < sb.ninodes, dinode sb e i = dinode sb d i
  bits : ∀ b < sb.size, marked sb e b = marked sb d b

theorem sameMeta_of_data (valid : sb.Valid) {d : Nat → Block} {a : Nat} (isData : sb.nmeta ≤ a)
    (data : Block) : SameMeta sb d (Function.update d a data) where
  superblock := by
    have := valid.bmapstart_lt
    rw [Function.update_of_ne (by omega)]
  inodes i inside := by
    have := valid.iblock_bounds inside
    have := valid.bmapstart_lt
    rw [dinode, Function.update_of_ne (by omega), dinode]
  bits b inside := by
    have := valid.bblock_bounds inside
    rw [marked, Function.update_of_ne (by omega), marked]

end Xv6.Fs
