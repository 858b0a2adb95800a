import Mathlib.Order.Interval.Finset.Nat
import Xv6.Fs.Image

/-!
# Disks assembled from parts

A disk given by its super block, its bitmap, its inode table and its data blocks, laid out
as `mkfs` lays them out.
-/

namespace Xv6.Fs

open Bytes Forest

/-- Block 1. -/
def superblockBlock (sb : Superblock) : Block :=
  (Buf.zero 512).setWords 0 7 fun
    | 0 => sb.size
    | 1 => sb.nblocks
    | 2 => sb.ninodes
    | 3 => sb.nlog
    | 4 => sb.logstart
    | 5 => sb.inodestart
    | _ => sb.bmapstart

/-- The inode block with the dinodes `f 0` to `f 7`. -/
def inodeBlock (f : Nat → Dinode) : Block :=
  (List.range 8).foldl (fun b j => putDinode b j (f j)) (Buf.zero 512)

def assemble (sb : Superblock) (used : Nat → Bool) (tbl : Nat → Dinode) (data : Nat → Block) :
    Nat → Block := fun a =>
  if a = 1 then superblockBlock sb
  else if sb.nmeta ≤ a then data a
  else if sb.bmapstart ≤ a then Buf.ofBits 512 fun i => used ((a - sb.bmapstart) * BPB + i)
  else if sb.inodestart ≤ a then inodeBlock fun j => tbl ((a - sb.inodestart) * IPB + j)
  else Buf.zero 512

theorem getDinode_inodeBlock (f : Nat → Dinode) (fits : ∀ j, (f j).Fits) {slot : Nat}
    (inside : slot < 8) : getDinode (inodeBlock f) slot = f slot := by
  have first : ∀ m ≤ 8, ∀ j < m,
      getDinode ((List.range m).foldl (fun b j => putDinode b j (f j)) (Buf.zero 512)) j = f j := by
    intro m
    induction m with
    | zero => exact fun _ j h => absurd h (Nat.not_lt_zero j)
    | succ m ih =>
      intro bound j small
      rw [List.range_succ, List.foldl_append]
      simp only [List.foldl_cons, List.foldl_nil]
      by_cases last : j = m
      · subst last
        exact getDinode_putDinode_same _ _ _ (by omega) (fits j)
      · rw [getDinode_putDinode_ne _ _ _ _ (by omega) last]
        exact ih (by omega) j (by omega)
  exact first 8 (Nat.le_refl 8) slot inside

section Assemble

variable {sb : Superblock} {used : Nat → Bool} {tbl : Nat → Dinode} {data : Nat → Block}

/-- The fields of the super block fit into words. -/
def Superblock.Words (sb : Superblock) : Prop :=
  sb.size < 2 ^ 32 ∧ sb.nblocks < 2 ^ 32 ∧ sb.ninodes < 2 ^ 32 ∧
    sb.nlog < 2 ^ 32 ∧ sb.logstart < 2 ^ 32 ∧ sb.inodestart < 2 ^ 32 ∧ sb.bmapstart < 2 ^ 32

instance (sb : Superblock) : Decidable sb.Words := by
  unfold Superblock.Words
  infer_instance

theorem readsb_superblockBlock {disk : Nat → Block} (block : disk 1 = superblockBlock sb) (words : sb.Words) :
    readsb disk = sb := by
  rw [readsb, block, superblockBlock]
  cases sb
  simp only [Buf.word_setWords _ 0 7 _ (show 4 * (0 + 7) ≤ 512 by decide)]
  simp only [Superblock.Words, Superblock.mk.injEq] at *
  simp
  omega

theorem readsb_assemble (words : sb.Words) : readsb (assemble sb used tbl data) = sb :=
  readsb_superblockBlock (if_pos rfl) words

theorem assemble_data (valid : sb.Valid) {a : Nat} (high : sb.nmeta ≤ a) :
    assemble sb used tbl data a = data a := by
  have := valid.bmapstart_lt
  rw [assemble, if_neg (by omega), if_pos high]

theorem marked_assemble (valid : sb.Valid) {b : Nat} (inside : b < sb.size) :
    marked sb (assemble sb used tbl data) b = used b := by
  have bounds := valid.bblock_bounds inside
  have := valid.bmapstart_lt
  have small : b % BPB < 8 * 512 := Nat.mod_lt b (by decide)
  rw [marked, assemble, if_neg (by omega), if_neg (by omega), if_pos bounds.1,
    Buf.bit_ofBits _ small]
  congr 1
  simp only [Superblock.BBLOCK, BPB, BSIZE] at *
  omega

theorem dinode_assemble (valid : sb.Valid) (fits : ∀ i, (tbl i).Fits) {i : Nat}
    (inside : i < sb.ninodes) : dinode sb (assemble sb used tbl data) i = tbl i := by
  have bounds := valid.iblock_bounds inside
  have := valid.bmapstart_lt
  have start : sb.inodestart ≤ sb.IBLOCK i := Nat.le_add_left _ _
  have slot : i % IPB < 8 := Nat.mod_lt i (by decide)
  rw [dinode, assemble, if_neg (by omega), if_neg (by omega), if_neg (by omega), if_pos start,
    getDinode_inodeBlock _ (fun j => fits _) slot]
  congr 1
  simp only [Superblock.IBLOCK, IPB, BSIZE] at *
  omega

/-- The trees of an assembled disk are those of its table and its data blocks. -/
theorem trees_assemble (valid : sb.Valid) (fits : ∀ i, (tbl i).Fits) (used : Nat → Bool)
    (inData : ∀ b, (trees sb tbl data).Owned shape b → sb.IsData b) :
    ∀ n, shape.IsNode n →
      (trees sb (dinode sb (assemble sb used tbl data)) (assemble sb used tbl data)).addr n =
        (trees sb tbl data).addr n := by
  apply addr_congr
  · intro r
    by_cases inside : 1 ≤ r.1 ∧ r.1 < sb.ninodes
    · have entry : dinode sb (assemble sb used tbl data) r.1 = tbl r.1 :=
        dinode_assemble valid fits inside.2
      exact trees_root_congr (by rw [entry]) (by rw [entry])
    · rw [trees_root_outside inside, trees_root_outside inside]
  · intro n i node _ _ live
    change (assemble sb used tbl data _).word i = (data _).word i
    rw [assemble_data valid (inData _ ⟨n, node, rfl, live⟩).1]

theorem Safe.assemble (valid : sb.Valid) (fits : ∀ i, (tbl i).Fits)
    (super : readsb (assemble sb used tbl data) = sb) (reserved : ∀ b < sb.nmeta, used b = true)
    (separated : (trees sb tbl data).Separated shape)
    (inData : ∀ b, (trees sb tbl data).Owned shape b → sb.IsData b)
    (owned : ∀ b, (trees sb tbl data).Owned shape b → used b = true) :
    Safe sb (dinode sb (assemble sb used tbl data)) (assemble sb used tbl data) := by
  have addr := trees_assemble valid fits used inData
  have same := fun b => owned_congr addr b
  refine ⟨super, ?_, ?_, ?_, ?_⟩
  · intro b low
    rw [marked_assemble valid (by unfold Superblock.nmeta at low; omega), reserved b low]
  · intro n m hn hm live equal
    rw [addr n hn] at live equal
    rw [addr m hm] at equal
    exact separated n m hn hm live equal
  · intro b h
    exact inData b ((same b).mp h)
  · intro b h
    have old := (same b).mp h
    rw [marked_assemble valid (inData b old).2, owned b old]

end Assemble

/-! ### Images with a block for every inode -/

section Row

/-- The inodes 1 to `n` are those of `f`, each with one block: inode `i` has block `97 + i`. -/
def rowTable (n : Nat) (f : Nat → Dinode) (i : Nat) : Dinode :=
  if 1 ≤ i ∧ i ≤ n then { f i with addrs := fun k => if k = 0 then 97 + i else 0 } else Dinode.blank

def rowDisk (n : Nat) (f : Nat → Dinode) (data : Nat → Block) : Nat → Block :=
  assemble mkfsSuperblock (fun b => decide (b < 98 + n)) (rowTable n f) data

/-- There are inodes for the row, all of them allocated, and none is larger than its block. -/
structure Row (n : Nat) (f : Nat → Dinode) : Prop where
  small : n < 200
  typed : ∀ i, (f i).type ≠ 0
  short : ∀ i, (f i).size ≤ BSIZE

variable {n : Nat} {f : Nat → Dinode} {data : Nat → Block}

theorem Row.fits (row : Row n f) (i : Nat) : (rowTable n f i).Fits := by
  have small := row.small
  have short := row.short i
  unfold rowTable
  split
  · refine ⟨?_, ?_⟩
    · dsimp only
      simp only [BSIZE] at short
      omega
    · intro k
      dsimp only
      split <;> omega
  · exact ⟨by decide, fun _ => Nat.two_pow_pos 32⟩

theorem Row.inUse_iff (row : Row n f) (i : Nat) : InUse mkfsSuperblock (rowTable n f) i ↔ 1 ≤ i ∧ i ≤ n := by
  have small := row.small
  have count : mkfsSuperblock.ninodes = 200 := rfl
  unfold InUse rowTable
  constructor
  · rintro ⟨_, _, typed⟩
    by_contra outside
    rw [if_neg outside] at typed
    exact typed rfl
  · intro inside
    rw [if_pos inside]
    exact ⟨inside.1, by omega, row.typed i⟩

theorem Row.addr (row : Row n f) (data : Nat → Block) {m : Node Root} (node : shape.IsNode m) :
    (trees mkfsSuperblock (rowTable n f) data).addr m =
      if m.2 = [] ∧ m.1.2 = 0 ∧ 1 ≤ m.1.1 ∧ m.1.1 ≤ n then 97 + m.1.1 else 0 := by
  have root : ∀ r : Root, (trees mkfsSuperblock (rowTable n f) data).root r =
      if r.2 = 0 ∧ 1 ≤ r.1 ∧ r.1 ≤ n then 97 + r.1 else 0 := by
    rintro ⟨i, k⟩
    by_cases inside : 1 ≤ i ∧ i ≤ n
    · simp only [trees, if_pos ((row.inUse_iff i).mpr inside), rowTable, if_pos inside]
      by_cases first : k = 0
      · rw [if_pos first, if_pos ⟨first, inside⟩]
      · rw [if_neg first, if_neg (fun h => first h.1)]
    · simp only [trees, if_neg (fun used => inside ((row.inUse_iff i).mp used))]
      rw [if_neg (fun h => inside h.2)]
  obtain ⟨r, path⟩ := m
  rw [Store.addr, root]
  by_cases here : r.2 = 0 ∧ 1 ≤ r.1 ∧ r.1 ≤ n
  · -- a direct block has nothing below it
    have depth : shape.depth r = 0 := by
      change rootDepth r.2 = 0
      rw [here.1]
      rfl
    have short : path.length ≤ shape.depth r := node.1
    have nil : path = [] := List.eq_nil_of_length_eq_zero (by omega)
    subst nil
    rw [if_pos here, if_pos ⟨rfl, here⟩]
    rfl
  · rw [if_neg here, follow_zero, if_neg (fun h => here h.2)]

theorem Row.owned_iff (row : Row n f) (data : Nat → Block) (b : Nat) :
    (trees mkfsSuperblock (rowTable n f) data).Owned shape b ↔ 98 ≤ b ∧ b < 98 + n := by
  constructor
  · rintro ⟨m, node, here, live⟩
    rw [row.addr data node] at here
    split at here <;> omega
  · rintro ⟨low, high⟩
    have node : shape.IsNode ((b - 97, 0), []) := ⟨Nat.zero_le _, by simp⟩
    refine ⟨_, node, ?_, by omega⟩
    rw [row.addr data node, if_pos ⟨rfl, rfl, by dsimp only; omega⟩]
    dsimp only
    omega

theorem Row.inData (row : Row n f) (data : Nat → Block) (b : Nat)
    (owned : (trees mkfsSuperblock (rowTable n f) data).Owned shape b) : mkfsSuperblock.IsData b := by
  have small := row.small
  have bounds := (row.owned_iff data b).mp owned
  exact ⟨bounds.1, show b < 40000 by omega⟩

theorem Row.dinode_eq (row : Row n f) (data : Nat → Block) {i : Nat} (inside : i < mkfsSuperblock.ninodes) :
    dinode mkfsSuperblock (rowDisk n f data) i = rowTable n f i :=
  dinode_assemble mkfsSuperblock_valid row.fits inside

theorem Row.disk_addr (row : Row n f) (data : Nat → Block) {m : Node Root} (node : shape.IsNode m) :
    (trees mkfsSuperblock (dinode mkfsSuperblock (rowDisk n f data)) (rowDisk n f data)).addr m =
      if m.2 = [] ∧ m.1.2 = 0 ∧ 1 ≤ m.1.1 ∧ m.1.1 ≤ n then 97 + m.1.1 else 0 := by
  rw [rowDisk, trees_assemble mkfsSuperblock_valid row.fits _ (row.inData data) _ node, row.addr data node]

theorem Row.leakFree (row : Row n f) (data : Nat → Block) :
    LeakFree mkfsSuperblock (dinode mkfsSuperblock (rowDisk n f data)) (rowDisk n f data) := by
  intro b isData used
  have addr := trees_assemble mkfsSuperblock_valid row.fits (fun b => decide (b < 98 + n)) (row.inData data)
  rw [rowDisk, marked_assemble mkfsSuperblock_valid isData.2, decide_eq_true_eq] at used
  have : 98 ≤ b := isData.1
  exact (owned_congr addr b).mpr ((row.owned_iff data b).mpr (by omega))

theorem Row.image (row : Row n f) (data : Nat → Block) :
    Image mkfsSuperblock (dinode mkfsSuperblock (rowDisk n f data)) (rowDisk n f data) := by
  refine ⟨?_, ?_⟩
  · refine Safe.assemble mkfsSuperblock_valid row.fits (readsb_assemble (by decide)) ?_ ?_ (row.inData data) ?_
    · intro b low
      have : b < 98 := low
      simp only [decide_eq_true_eq]
      omega
    · rintro ⟨⟨i, k⟩, p⟩ ⟨⟨j, l⟩, q⟩ hn hm live same
      rw [row.addr data hn] at live same
      rw [row.addr data hm] at same
      split at live
      next isN =>
        rw [if_pos isN] at same
        split at same
        next isM =>
          obtain ⟨rfl, rfl, _⟩ := isN
          obtain ⟨rfl, rfl, _⟩ := isM
          have equal : i = j := by
            dsimp only at same
            omega
          rw [equal]
        · omega
      · exact absurd rfl live
    · intro b owned
      have bounds := (row.owned_iff data b).mp owned
      simp only [decide_eq_true_eq]
      omega
  · intro i used _
    have entry := row.dinode_eq data used.2.1
    have inside := (row.inUse_iff i).mp ⟨used.1, used.2.1, entry ▸ used.2.2⟩
    have short := row.short i
    rw [entry, rowTable, if_pos inside]
    refine ⟨Nat.le_trans short (by decide), ?_⟩
    intro p within
    have first : p / BSIZE = 0 := Nat.div_eq_of_lt (Nat.lt_of_lt_of_le within short)
    rw [first, row.disk_addr data (leaf_isNode i (show 0 < MAXFILE by decide)), if_pos ⟨rfl, rfl, inside⟩]
    omega

theorem Row.free (row : Row n f) (data : Nat → Block) :
    4 ≤ (freeBlocks mkfsSuperblock (rowDisk n f data)).card := by
  have small := row.small
  have subset : Finset.Icc (98 + n) (101 + n) ⊆ freeBlocks mkfsSuperblock (rowDisk n f data) := by
    intro b member
    obtain ⟨low, high⟩ := Finset.mem_Icc.mp member
    have inside : b < mkfsSuperblock.size := by
      change b < 40000
      omega
    refine Finset.mem_filter.mpr ⟨Finset.mem_range.mpr inside, ?_⟩
    rw [rowDisk, marked_assemble mkfsSuperblock_valid inside, decide_eq_false_iff_not]
    omega
  have count := Finset.card_le_card subset
  rw [Nat.card_Icc] at count
  omega

end Row

/-! ### Images with one inode -/

section One

/-- An inode table whose only inode, number 1, has one block, 98. -/
def oneTable (type : BitVec 16) (size i : Nat) : Dinode :=
  if i = 1 then
    { Dinode.blank with type, nlink := 1, size, addrs := fun k => if k = 0 then 98 else 0 }
  else Dinode.blank

def oneDisk (type : BitVec 16) (size : Nat) (data : Nat → Block) : Nat → Block :=
  assemble mkfsSuperblock (fun b => decide (b < 99)) (oneTable type size) data

variable {type : BitVec 16} {size : Nat} {data : Nat → Block}

theorem oneTable_eq (type : BitVec 16) (size : Nat) :
    oneTable type size = rowTable 1 fun _ => { Dinode.blank with type, nlink := 1, size } := by
  funext i
  by_cases here : i = 1
  · subst here
    rfl
  · rw [oneTable, rowTable, if_neg here, if_neg (by omega)]

theorem oneDisk_eq (type : BitVec 16) (size : Nat) (data : Nat → Block) :
    oneDisk type size data = rowDisk 1 (fun _ => { Dinode.blank with type, nlink := 1, size }) data := by
  rw [oneDisk, oneTable_eq]
  rfl

theorem one_row (typed : type ≠ 0) (small : size ≤ BSIZE) :
    Row 1 fun _ => { Dinode.blank with type, nlink := 1, size } :=
  ⟨by decide, fun _ => typed, fun _ => small⟩

theorem dinode_oneDisk (data : Nat → Block) (typed : type ≠ 0) (small : size ≤ BSIZE) {i : Nat}
    (inside : i < mkfsSuperblock.ninodes) : dinode mkfsSuperblock (oneDisk type size data) i = oneTable type size i := by
  rw [oneDisk_eq, (one_row typed small).dinode_eq data inside, oneTable_eq]

theorem oneTable_fits (typed : type ≠ 0) (small : size ≤ BSIZE) (i : Nat) : (oneTable type size i).Fits := by
  rw [oneTable_eq]
  exact (one_row typed small).fits i

theorem oneDisk_addr (data : Nat → Block) (typed : type ≠ 0) (small : size ≤ BSIZE) :
    (trees mkfsSuperblock (dinode mkfsSuperblock (oneDisk type size data)) (oneDisk type size data)).addr (leaf 1 0) = 98 := by
  rw [oneDisk_eq, (one_row typed small).disk_addr data (leaf_isNode 1 (show 0 < MAXFILE by decide))]
  rfl

theorem oneDisk_leakFree (type : BitVec 16) (size : Nat) (data : Nat → Block) (typed : type ≠ 0) (small : size ≤ BSIZE) :
    LeakFree mkfsSuperblock (dinode mkfsSuperblock (oneDisk type size data)) (oneDisk type size data) := by
  rw [oneDisk_eq]
  exact (one_row typed small).leakFree data

theorem oneDisk_image (type : BitVec 16) (size : Nat) (data : Nat → Block) (typed : type ≠ 0) (small : size ≤ BSIZE) :
    Image mkfsSuperblock (dinode mkfsSuperblock (oneDisk type size data)) (oneDisk type size data) := by
  rw [oneDisk_eq]
  exact (one_row typed small).image data

theorem oneDisk_free (data : Nat → Block) (typed : type ≠ 0) (small : size ≤ BSIZE) :
    4 ≤ (freeBlocks mkfsSuperblock (oneDisk type size data)).card := by
  rw [oneDisk_eq]
  exact (one_row typed small).free data

end One

/-- An inode table with one file of three bytes, in block 98. -/
def smallTable (i : Nat) : Dinode :=
  if i = 1 then
    { Dinode.blank with type := T_FILE, nlink := 1, size := 3, addrs := fun k => if k = 0 then 98 else 0 }
  else Dinode.blank

/-- The file's bytes are zero. -/
def smallDisk : Nat → Block :=
  assemble mkfsSuperblock (fun b => decide (b < 99)) smallTable fun _ => Buf.zero 512

theorem smallTable_fits (i : Nat) : (smallTable i).Fits :=
  show (oneTable T_FILE 3 i).Fits from oneTable_fits (by decide) (by decide) i

theorem smallDisk_leakFree : LeakFree mkfsSuperblock (dinode mkfsSuperblock smallDisk) smallDisk :=
  oneDisk_leakFree T_FILE 3 (fun _ => Buf.zero 512) (by decide) (by decide)

theorem smallDisk_image : Image mkfsSuperblock (dinode mkfsSuperblock smallDisk) smallDisk :=
  oneDisk_image T_FILE 3 (fun _ => Buf.zero 512) (by decide) (by decide)

/-- The file of the small image, locked. -/
def smallInode : Inode := { smallTable 1 with inum := 1, ref := 1, valid := true }

def smallState : State := { disk := smallDisk, logged := [] }

theorem smallInode_stored : dinode mkfsSuperblock smallState.disk smallInode.inum = smallInode.toDinode := by
  change dinode mkfsSuperblock smallDisk 1 = smallTable 1
  rw [smallDisk, dinode_assemble mkfsSuperblock_valid smallTable_fits (by decide)]

theorem smallInode_held : Held mkfsSuperblock smallInode smallState :=
  ⟨by decide, by decide, smallTable_fits 1, by
    rw [table_eq _ smallInode_stored]
    exact smallDisk_image.toSafe⟩

theorem smallInode_filled :
    Filled (view mkfsSuperblock smallInode smallState) smallInode.inum smallInode.toDinode := by
  have stored := smallInode_stored
  rw [view, table_eq _ stored, ← stored]
  refine smallDisk_image.filled smallInode.inum ⟨by decide, by decide, ?_⟩ ?_
  · change (dinode mkfsSuperblock smallState.disk smallInode.inum).type ≠ 0
    rw [stored]
    decide
  · change (dinode mkfsSuperblock smallState.disk smallInode.inum).type ≠ T_DEV
    rw [stored]
    decide

theorem smallDisk_free : 4 ≤ (freeBlocks mkfsSuperblock smallDisk).card :=
  show 4 ≤ (freeBlocks mkfsSuperblock (oneDisk T_FILE 3 fun _ => Buf.zero 512)).card from
    oneDisk_free _ (by decide) (by decide)

end Xv6.Fs
