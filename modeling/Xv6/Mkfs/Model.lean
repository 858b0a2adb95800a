import Xv6.Dirs.Model
import Xv6.Fs.Disk

/-!
# `mkfs`

The program that makes the first disk image, on the host: a sector can be read if the file is long enough,
and writing behind the end makes it longer. Other failures of the host are left out. Blocks and dinodes
have the layout of the kernel; the conversions to intel byte order do nothing on the hosts this runs on.
-/

namespace Xv6.Mkfs

open Bytes Fs
open Dirs (Dirent DIRSIZ literal strncpy)

/-- `FSSIZE`: blocks of the file system. -/
def FSSIZE : Nat := 40000

def NINODES : Nat := 200

def ROOTINO : Nat := 1

def nbitmap : Nat := FSSIZE / (BSIZE * 8) + 1

def ninodeblocks : Nat := NINODES / IPB + 1

def nlog : Nat := LOGSIZE

/-- Boot block, super block, log, inodes and bitmap. -/
def nmeta : Nat := 2 + nlog + ninodeblocks + nbitmap

def nblocks : Nat := FSSIZE - nmeta

def sb : Superblock where
  size := FSSIZE
  nblocks := nblocks
  ninodes := NINODES
  nlog := nlog
  logstart := 2
  inodestart := 2 + nlog
  bmapstart := 2 + nlog + ninodeblocks

theorem sb_eq : sb = mkfsSuperblock := by decide

/-- Why `mkfs` does not exit with 0. -/
inductive Stop where
  /-- `perror("read")`: a sector behind the end of the image -/
  | read
  /-- `assert(fbn < MAXFILE)` -/
  | assertFbn
  /-- an index outside `indirect[NINDIRECT]` -/
  | outOfBounds
  /-- `assert(used < BSIZE*8)` -/
  | assertUsed
  /-- `assert(rootino == ROOTINO)` -/
  | assertRootino
  /-- `assert(index(argv[i], '/') == 0)` -/
  | assertIndex
  /-- an input file cannot be opened -/
  | cannotOpen
  deriving DecidableEq

/-- The image file, its length in sectors, and the two pointers. -/
structure State where
  image : Nat → Block
  sectors : Nat
  freeinode : Nat
  freeblock : Nat

/-! ### Sectors and inodes -/

def wsect (sec : Nat) (buf : Block) (s : State) : State :=
  { s with image := Function.update s.image sec buf, sectors := max s.sectors (sec + 1) }

def rsect (sec : Nat) (s : State) : Except Stop Block :=
  if sec < s.sectors then .ok (s.image sec) else .error .read

def winode (inum : Nat) (ip : Dinode) (s : State) : Except Stop State := do
  let buf ← rsect (sb.IBLOCK inum) s
  .ok (wsect (sb.IBLOCK inum) (putDinode buf (inum % IPB) ip) s)

def rinode (inum : Nat) (s : State) : Except Stop Dinode := do
  let buf ← rsect (sb.IBLOCK inum) s
  .ok (getDinode buf (inum % IPB))

def ialloc (type : BitVec 16) (s : State) : Except Stop (Nat × State) := do
  let inum := s.freeinode
  let s ← winode inum { Dinode.blank with type, nlink := 1 } { s with freeinode := s.freeinode + 1 }
  .ok (inum, s)

/-- Write the bitmap: the first `used` blocks are in use. It has one block here. -/
def balloc (used : Nat) (s : State) : Except Stop State :=
  if used < BSIZE * 8 then .ok (wsect sb.bmapstart ((List.range used).foldl markUsed (Buf.zero 512)) s)
  else .error .assertUsed

/-! ### Appending -/

/-- `freeblock++`, stored in `addrs[k]` if there is nothing yet. -/
def rootAddr (din : Dinode) (k : Fin (NDIRECT + 3)) (s : State) : Dinode × State :=
  if din.addrs k = 0 then
    ({ din with addrs := Function.update din.addrs k s.freeblock }, { s with freeblock := s.freeblock + 1 })
  else (din, s)

/-- The entry `i` of the block `a`, read into `indirect`; `freeblock++` is stored there if there is
nothing yet. -/
def indexAddr (a i : Nat) (s : State) : Except Stop (Nat × State) := do
  let indirect ← rsect a s
  if i < NINDIRECT then
    if indirect.word i = 0 then
      let indirect := indirect.setWord i s.freeblock
      .ok (indirect.word i, wsect a indirect { s with freeblock := s.freeblock + 1 })
    else .ok (indirect.word i, s)
  else .error .outOfBounds

/-- The block number `x` that a round of `iappend` writes to. -/
def blockAddr (din : Dinode) (fbn : Nat) (s : State) : Except Stop (Nat × Dinode × State) :=
  if direct : fbn < NDIRECT then
    let k : Fin (NDIRECT + 3) := ⟨fbn, direct_lt direct⟩
    let (din, s) := rootAddr din k s
    .ok (din.addrs k, din, s)
  else
    let (din, s) := rootAddr din 10 s
    do
      let (x, s) ← indexAddr (din.addrs 10) (fbn - NDIRECT) s
      .ok (x, din, s)

/-- The bytes left in the block at `off`, at most `n` of them. -/
def n1 (off n : Nat) : Nat := min n ((off / BSIZE + 1) * BSIZE - off)

theorem n1_eq (off n : Nat) : n1 off n = chunk off n := by
  simp only [n1, chunk, BSIZE]
  omega

/-- The loop of `iappend`: `din` and `off` at its end. -/
def iappendLoop (din : Dinode) (off : Nat) (p : List Byte) (s : State) : Except Stop (Dinode × Nat × State) :=
  if _more : p.length = 0 then .ok (din, off, s)
  else
    let fbn := off / BSIZE
    if fbn < MAXFILE then do
      let (x, din, s) ← blockAddr din fbn s
      let m := n1 off p.length
      let buf ← rsect x s
      let s := wsect x (buf.move (off - fbn * BSIZE) m fun k => p.getD k 0) s
      iappendLoop din (off + m) (p.drop m) s
    else .error .assertFbn
termination_by p.length
decreasing_by
  have := chunk_pos off _more
  simp only [List.length_drop, n1_eq]
  omega

def iappend (inum : Nat) (p : List Byte) (s : State) : Except Stop State := do
  let din ← rinode inum s
  let (din, off, s) ← iappendLoop din din.size p s
  winode inum { din with size := off } s

/-! ### `main` -/

/-- What a successful `read(fd, buf, sizeof(buf))` puts into the buffer. -/
abbrev Chunk := { buf : List Byte // 0 < buf.length ∧ buf.length ≤ BSIZE }

/-- An input file: its name, and what the reads return until the end; nothing if it cannot be
opened. -/
structure Arg where
  name : List Byte
  reads : Option (List Chunk)

/-- The name in the file system. -/
def Arg.target (arg : Arg) : List Byte := if arg.name.head? = some 0x5f then arg.name.tail else arg.name

/-- A round of the loop over the input files. -/
def addFile (rootino : Nat) (s : State) (arg : Arg) : Except Stop State :=
  if 0x2f ∈ arg.name then .error .assertIndex
  else match arg.reads with
    | none => .error .cannotOpen
    | some reads => do
      let (inum, s) ← ialloc T_FILE s
      let s ← iappend rootino (Dirent.bytes { inum, name := strncpy DIRSIZ (literal arg.target) }) s
      reads.foldlM (fun s buf => iappend inum buf.val s) s

/-- The image after `O_TRUNC`, `FSSIZE` sectors of zeroes and the super block. -/
def fresh : State :=
  let opened : State := { image := fun _ => Buf.zero 512, sectors := 0, freeinode := 1, freeblock := nmeta }
  wsect 1 (superblockBlock sb) ((List.range FSSIZE).foldl (fun s i => wsect i (Buf.zero 512) s) opened)

/-- The root directory and the input files. -/
def build (argv : List Arg) : Except Stop State := do
  let (rootino, s) ← ialloc T_DIR fresh
  if rootino ≠ ROOTINO then .error .assertRootino
  else do
    let s ← iappend rootino (Dirent.bytes { inum := rootino, name := strncpy DIRSIZ (literal [0x2e]) }) s
    let s ← iappend rootino (Dirent.bytes { inum := rootino, name := strncpy DIRSIZ (literal [0x2e, 0x2e]) }) s
    argv.foldlM (addFile rootino) s

/-- Fix the size of the root inode, and write the bitmap. -/
def finish (s : State) : Except Stop State := do
  let din ← rinode ROOTINO s
  let off := (din.size / BSIZE + 1) * BSIZE
  let s ← winode ROOTINO { din with size := off } s
  balloc s.freeblock s

def main (argv : List Arg) : Except Stop State := do
  let s ← build argv
  finish s

end Xv6.Mkfs
