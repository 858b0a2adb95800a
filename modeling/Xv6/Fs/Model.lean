import Mathlib.Data.List.FinRange
import Xv6.Fs.Layout

/-!
# The file system below names

`fs.c` from block allocation to inode contents. A disk here is what `bread` returns; `log_write` changes it
and records the block number in `logged`. There is one device. Functions that change an in-memory inode
take it by value; the operations at the end store it back into the inode cache.
-/

namespace Xv6.Fs

open Bytes

/-- `NINODE`: entries of the inode cache. -/
abbrev NINODE : Nat := 50

scoped instance (priority := 2000) neZero_ninode : NeZero NINODE := ⟨nofun⟩

/-- `NDEV`: the number of major device numbers. -/
def NDEV : Int := 10

/-- The panics of the modelled functions. -/
inductive Panic where
  /-- "balloc: out of blocks" -/
  | ballocOutOfBlocks
  /-- "freeing free block" -/
  | freeingFreeBlock
  /-- "ialloc: no inodes" -/
  | iallocNoInodes
  /-- "iget: no inodes" -/
  | igetNoInodes
  /-- "ilock" -/
  | ilock
  /-- "ilock: no type" -/
  | ilockNoType
  /-- "bmap: out of range" -/
  | bmapOutOfRange
  /-- "unlink: nlink < 1" -/
  | unlinkNlink
  deriving DecidableEq

/-- The blocks and the numbers passed to `log_write`, oldest first. -/
structure State where
  disk : Nat → Block
  logged : List Nat

/-- A buffer modified to `data` and passed to `log_write`. -/
def logWrite (s : State) (b : Nat) (data : Block) : State :=
  { disk := Function.update s.disk b data, logged := s.logged ++ [b] }

/-! ### Blocks -/

def bzero (s : State) (b : Nat) : State := logWrite s b (Buf.zero 512)

/-- `(bp->data[bi/8] & (1 << (bi % 8))) == 0`. -/
def isFree (bp : Block) (bi : Nat) : Bool := bp.get (bi / 8) &&& Buf.mask (bi % 8) == 0

/-- `bp->data[bi/8] |= m`. -/
def markUsed (bp : Block) (bi : Nat) : Block :=
  bp.setByte (bi / 8) (bp.get (bi / 8) ||| Buf.mask (bi % 8))

/-- `bp->data[bi/8] &= ~m`. -/
def markFree (bp : Block) (bi : Nat) : Block :=
  bp.setByte (bi / 8) (bp.get (bi / 8) &&& ~~~(Buf.mask (bi % 8)))

/-- The inner loop of `balloc` over the bits of the bitmap block for blocks `b..`. -/
def ballocScan (sb : Superblock) (s : State) (b : Nat) : Option Nat :=
  (List.range BPB).find? fun bi => b + bi < sb.size && isFree (s.disk (sb.BBLOCK b)) bi

/-- `balloc`: allocate a zeroed disk block. -/
def balloc (sb : Superblock) (s : State) : Except Panic (Nat × State) :=
  match (List.range ((sb.size + BPB - 1) / BPB)).findSome? fun k =>
      (ballocScan sb s (k * BPB)).map (k * BPB, ·) with
  | none => .error .ballocOutOfBlocks
  | some (b, bi) =>
    let s := logWrite s (sb.BBLOCK b) (markUsed (s.disk (sb.BBLOCK b)) bi)
    .ok (b + bi, bzero s (b + bi))

/-- `bfree`. It reads the super block again. -/
def bfree (b : Nat) (s : State) : Except Panic State :=
  let sb := readsb s.disk
  let bp := s.disk (sb.BBLOCK b)
  if isFree bp (b % BPB) then .error .freeingFreeBlock
  else .ok (logWrite s (sb.BBLOCK b) (markFree bp (b % BPB)))

/-! ### Inodes -/

/-- `struct inode`: the in-memory copy of a dinode. -/
structure Inode extends Dinode where
  inum : Nat
  ref : Int
  valid : Bool

/-- `iupdate`: copy a modified in-memory inode to disk. -/
def iupdate (sb : Superblock) (ip : Inode) (s : State) : State :=
  logWrite s (sb.IBLOCK ip.inum)
    (putDinode (s.disk (sb.IBLOCK ip.inum)) (ip.inum % IPB) ip.toDinode)

/-- `ialloc`, up to the `iget` of the inode it found. -/
def ialloc (sb : Superblock) (type : BitVec 16) (s : State) : Except Panic (Nat × State) :=
  match (List.range sb.ninodes).find? fun inum =>
      1 ≤ inum && (dinode sb s.disk inum).type == 0 with
  | none => .error .iallocNoInodes
  | some inum =>
    .ok (inum, logWrite s (sb.IBLOCK inum) (putDinode (s.disk (sb.IBLOCK inum)) (inum % IPB)
      { Dinode.blank with type := type }))

/-- An entry of an index block, allocating if necessary. -/
def indexEntry (sb : Superblock) (a i : Nat) (s : State) : Except Panic (Nat × State) :=
  let addr := (s.disk a).word i
  if addr = 0 then do
    let (addr, s) ← balloc sb s
    .ok (addr, logWrite s a ((s.disk a).setWord i addr))
  else .ok (addr, s)

/-- An entry of `ip->addrs`, allocating if necessary. -/
def rootEntry (sb : Superblock) (ip : Inode) (k : Fin (NDIRECT + 3)) (s : State) :
    Except Panic (Nat × Inode × State) :=
  let addr := ip.addrs k
  if addr = 0 then do
    let (addr, s) ← balloc sb s
    .ok (addr, { ip with addrs := Function.update ip.addrs k addr }, s)
  else .ok (addr, ip, s)

/-- Load index block after index block along `path`, allocating if necessary. -/
def indexWalk (sb : Superblock) : Nat → List Nat → State → Except Panic (Nat × State)
  | a, [], s => .ok (a, s)
  | a, i :: path, s => do
    let (a, s) ← indexEntry sb a i s
    indexWalk sb a path s

/-- The walk of `bmap` from `ip->addrs[k]` through the index blocks. -/
def bmapWalk (sb : Superblock) (ip : Inode) (k : Fin (NDIRECT + 3)) (path : List Nat) (s : State) :
    Except Panic (Nat × Inode × State) := do
  let (a, ip, s) ← rootEntry sb ip k s
  let (a, s) ← indexWalk sb a path s
  .ok (a, ip, s)

/-- `bmap`: the address of the `bn`th block of an inode, allocated if there is none. -/
def bmap (sb : Superblock) (ip : Inode) (bn : Nat) (s : State) :
    Except Panic (Nat × Inode × State) :=
  if direct : bn < NDIRECT then bmapWalk sb ip ⟨bn, direct_lt direct⟩ [] s
  else
    let bn := bn - NDIRECT
    if bn < NINDIRECT then bmapWalk sb ip 10 [bn] s
    else
      let bn := bn - NINDIRECT
      if bn < NINDIRECT * NINDIRECT then bmapWalk sb ip 11 [bn / NINDIRECT, bn % NINDIRECT] s
      else
        let bn := bn - NINDIRECT * NINDIRECT
        if bn < NINDIRECT * NINDIRECT * NINDIRECT then
          bmapWalk sb ip 12 [bn / (NINDIRECT * NINDIRECT),
            bn % (NINDIRECT * NINDIRECT) / NINDIRECT, bn % NINDIRECT] s
        else .error .bmapOutOfRange

/-- The nested loops of `itrunc` below one address: free what an index block of level
`depth` refers to, then the block itself. -/
def freeTree : Nat → Nat → State → Except Panic State
  | 0, a, s => bfree a s
  | depth + 1, a, s => do
    let s ← (List.range NINDIRECT).foldlM (fun s j =>
      if (s.disk a).word j ≠ 0 then freeTree depth ((s.disk a).word j) s else .ok s) s
    bfree a s

/-- The levels of index blocks behind `addrs[k]`. -/
def rootDepth (k : Fin (NDIRECT + 3)) : Nat := k.val - 9

/-- `itrunc`: discard the contents of an inode. -/
def itrunc (sb : Superblock) (ip : Inode) (s : State) : Except Panic (Inode × State) := do
  let (ip, s) ← (List.finRange (NDIRECT + 3)).foldlM (fun (ip, s) k =>
    if ip.addrs k ≠ 0 then do
      let s ← freeTree (rootDepth k) (ip.addrs k) s
      .ok ({ ip with addrs := Function.update ip.addrs k 0 }, s)
    else .ok (ip, s)) (ip, s)
  let ip := { ip with size := 0 }
  .ok (ip, iupdate sb ip s)

/-! ### Reading and writing -/

/-- The device switch: what `devsw[major].read` and `devsw[major].write` return. Devices do
not touch the disk. -/
structure Devsw where
  read : Nat → Option (Nat → Int × List Byte)
  write : Nat → Option (List Byte → Int)

/-- A switch without drivers. -/
def noDevices : Devsw := { read := fun _ => none, write := fun _ => none }

def devRead (devsw : Devsw) (major : BitVec 16) (n : Nat) : Int × List Byte :=
  if major.toInt < 0 ∨ NDEV ≤ major.toInt then (-1, [])
  else match devsw.read major.toNat with
    | none => (-1, [])
    | some read => read n

def devWrite (devsw : Devsw) (major : BitVec 16) (src : List Byte) : Int :=
  if major.toInt < 0 ∨ NDEV ≤ major.toInt then -1
  else match devsw.write major.toNat with
    | none => -1
    | some write => write src

/-- The bytes left in the block at `off`, at most `n` of them. -/
def chunk (off n : Nat) : Nat := min n (BSIZE - off % BSIZE)

theorem chunk_pos (off : Nat) {n : Nat} (more : n ≠ 0) : 0 < chunk off n := by
  have small := Nat.mod_lt off (show 0 < BSIZE by decide)
  unfold chunk
  omega

/-- The loop of `readi`. -/
def readLoop (sb : Superblock) (ip : Inode) (off n : Nat) (s : State) :
    Except Panic (List Byte × Inode × State) :=
  if _more : n = 0 then .ok ([], ip, s)
  else do
    let (a, ip, s) ← bmap sb ip (off / BSIZE) s
    let m := chunk off n
    let bytes := (List.range m).map fun k => (s.disk a).get (off % BSIZE + k)
    let (rest, ip, s) ← readLoop sb ip (off + m) (n - m) s
    .ok (bytes ++ rest, ip, s)
termination_by n
decreasing_by
  have := chunk_pos off _more
  omega

/-- `readi`: the value returned, the bytes stored through `dst`, and the new state. -/
def readi (devsw : Devsw) (sb : Superblock) (ip : Inode) (off n : Nat) (s : State) :
    Except Panic ((Int × List Byte) × Inode × State) :=
  if ip.type = T_DEV then .ok (devRead devsw ip.major n, ip, s)
  else if ip.size < off ∨ (off + n) % 2 ^ 32 < off then .ok ((-1, []), ip, s)
  else
    let n := if ip.size < (off + n) % 2 ^ 32 then ip.size - off else n
    do
      let (bytes, ip, s) ← readLoop sb ip off n s
      .ok ((n, bytes), ip, s)

/-- The loop of `writei`. -/
def writeLoop (sb : Superblock) (ip : Inode) (off : Nat) (src : List Byte) (s : State) :
    Except Panic (Inode × State) :=
  if _more : src.length = 0 then .ok (ip, s)
  else do
    let (a, ip, s) ← bmap sb ip (off / BSIZE) s
    let m := chunk off src.length
    let s := logWrite s a ((s.disk a).move (off % BSIZE) m fun k => src.getD k 0)
    writeLoop sb ip (off + m) (src.drop m) s
termination_by src.length
decreasing_by
  have := chunk_pos off _more
  simp only [List.length_drop]
  omega

/-- `writei`, with `n` the length of `src`. -/
def writei (devsw : Devsw) (sb : Superblock) (ip : Inode) (off : Nat) (src : List Byte)
    (s : State) : Except Panic (Int × Inode × State) :=
  if ip.type = T_DEV then .ok (devWrite devsw ip.major src, ip, s)
  else if ip.size < off ∨ (off + src.length) % 2 ^ 32 < off then .ok (-1, ip, s)
  else if MAXFILE * BSIZE < (off + src.length) % 2 ^ 32 then .ok (-1, ip, s)
  else do
    let (ip, s) ← writeLoop sb ip off src s
    let off := off + src.length
    if 0 < src.length ∧ ip.size < off then
      let ip := { ip with size := off }
      .ok (src.length, ip, iupdate sb ip s)
    else .ok (src.length, ip, s)

/-! ### The inode cache -/

/-- The disk together with `icache`. -/
structure FileSystem extends State where
  icache : Fin NINODE → Inode

def FileSystem.store (fs : FileSystem) (k : Fin NINODE) (ip : Inode) (s : State) : FileSystem :=
  { s with icache := Function.update fs.icache k ip }

/-- `iget`: the cache entry of inode `inum`, with a reference more. -/
def iget (inum : Nat) (fs : FileSystem) : Except Panic (Fin NINODE × FileSystem) :=
  match (List.finRange NINODE).find? fun k => 0 < (fs.icache k).ref && (fs.icache k).inum == inum with
  | some k => .ok (k, fs.store k { fs.icache k with ref := (fs.icache k).ref + 1 } fs.toState)
  | none =>
    match (List.finRange NINODE).find? fun k => (fs.icache k).ref == 0 with
    | none => .error .igetNoInodes
    | some k =>
      .ok (k, fs.store k { fs.icache k with inum := inum, ref := 1, valid := false } fs.toState)

/-- `ilock`: read the inode from disk if necessary. -/
def ilock (sb : Superblock) (k : Fin NINODE) (fs : FileSystem) : Except Panic FileSystem :=
  let ip := fs.icache k
  if ip.ref < 1 then .error .ilock
  else if ip.valid then .ok fs
  else
    let ip := { ip with toDinode := dinode sb fs.disk ip.inum, valid := true }
    if ip.type = 0 then .error .ilockNoType else .ok (fs.store k ip fs.toState)

/-- `iput`: drop a reference; free the inode if it was the last and there are no links. -/
def iput (sb : Superblock) (k : Fin NINODE) (fs : FileSystem) : Except Panic FileSystem := do
  let ip := fs.icache k
  let (ip, s) ←
    if ip.valid ∧ ip.nlink = 0 ∧ ip.ref = 1 then do
      let (ip, s) ← itrunc sb ip fs.toState
      let ip := { ip with type := 0 }
      .ok ({ ip with valid := false }, iupdate sb ip s)
    else .ok (ip, fs.toState)
  .ok (fs.store k { ip with ref := ip.ref - 1 } s)

/-! ### Complete operations -/

/-- A file-system call as far as blocks and inodes are concerned. References are held from
`lookup` or `create` to `close`. -/
inductive Op where
  /-- find an inode, not yet locked, and keep a reference to it -/
  | lookup (inum : Nat)
  /-- `create`: a fresh inode with one link, referenced -/
  | create (type major minor : BitVec 16)
  | write (k : Fin NINODE) (off : Nat) (src : List Byte)
  | read (k : Fin NINODE) (off n : Nat)
  /-- `sys_link` -/
  | link (k : Fin NINODE)
  /-- `sys_unlink` -/
  | unlink (k : Fin NINODE)
  /-- the `iput` of a reference -/
  | close (k : Fin NINODE)

def Op.run (devsw : Devsw) (sb : Superblock) (fs : FileSystem) : Op → Except Panic FileSystem
  | .lookup inum => do
    let (_, fs) ← iget inum fs
    .ok fs
  | .create type major minor => do
    let (inum, s) ← ialloc sb type fs.toState
    let (k, fs) ← iget inum { fs with toState := s }
    let fs ← ilock sb k fs
    let ip := { fs.icache k with major := major, minor := minor, nlink := 1 }
    .ok (fs.store k ip (iupdate sb ip fs.toState))
  | .write k off src => do
    let fs ← ilock sb k fs
    let (_, ip, s) ← writei devsw sb (fs.icache k) off src fs.toState
    .ok (fs.store k ip s)
  | .read k off n => do
    let fs ← ilock sb k fs
    let (_, ip, s) ← readi devsw sb (fs.icache k) off n fs.toState
    .ok (fs.store k ip s)
  | .link k => do
    let fs ← ilock sb k fs
    let ip := { fs.icache k with nlink := (fs.icache k).nlink + 1 }
    .ok (fs.store k ip (iupdate sb ip fs.toState))
  | .unlink k => do
    let fs ← ilock sb k fs
    if (fs.icache k).nlink.toInt < 1 then .error .unlinkNlink
    else
      let ip := { fs.icache k with nlink := (fs.icache k).nlink - 1 }
      .ok (fs.store k ip (iupdate sb ip fs.toState))
  | .close k => iput sb k fs

/-- A sequence of complete operations. -/
def runOps (devsw : Devsw) (sb : Superblock) (ops : List Op) (fs : FileSystem) :
    Except Panic FileSystem :=
  ops.foldlM (Op.run devsw sb) fs

end Xv6.Fs
