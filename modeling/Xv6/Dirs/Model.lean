import Xv6.Fs.Model

/-!
# Directories: `fs.c`, `string.c`, `sysfile.c`

A directory is a file of `struct dirent`: an inode number, zero for an entry that is not in use, and a
name of at most 14 bytes. `dirlookup`, `dirlink` and the removal in `sys_unlink` work on a directory whose
inode is locked by the caller, in the entry `k` of the inode cache.
-/

namespace Xv6.Dirs

open Bytes Fs

abbrev DIRSIZ : Nat := 14

/-- `sizeof(struct dirent)`. -/
abbrev direntSize : Nat := 16

/-- Why the code stops. -/
inductive Stop where
  /-- a panic below the directories -/
  | panic (p : Panic)
  /-- "dirlookup not DIR" -/
  | dirlookupNotDir
  /-- "dirlookup read" -/
  | dirlookupRead
  /-- "dirlink read" -/
  | dirlinkRead
  /-- "dirlink" -/
  | dirlink
  /-- "unlink: writei" -/
  | unlinkWritei
  /-- `acquiresleep` on a lock that the caller holds itself -/
  | asleep
  deriving DecidableEq

/-! ### Strings -/

/-- The bytes in memory from a `char *` on. -/
abbrev Str := Nat → Byte

def strncmp : Nat → Str → Str → Int
  | 0, _, _ => 0
  | n + 1, p, q =>
    if p 0 ≠ 0 ∧ p 0 = q 0 then strncmp n (fun i => p (i + 1)) fun i => q (i + 1)
    else (p 0).toNat - (q 0).toNat

/-- The `n` bytes that `strncpy(s, t, n)` stores. -/
def strncpy : Nat → Str → List Byte
  | 0, _ => []
  | n + 1, t => if t 0 ≠ 0 then t 0 :: strncpy n fun i => t (i + 1) else List.replicate (n + 1) 0

def namecmp (s t : Str) : Int := strncmp DIRSIZ s t

/-- A string literal. -/
def literal (bytes : List Byte) : Str := fun i => bytes.getD i 0

/-! ### Entries -/

structure Dirent where
  inum : Nat
  name : List Byte

/-- The bytes of an entry; `inum` is a `ushort`. -/
def Dirent.bytes (de : Dirent) : List Byte :=
  BitVec.ofNat 8 de.inum :: BitVec.ofNat 8 (de.inum / 256) :: de.name

def dirent (bytes : List Byte) : Dirent where
  inum := (bytes.getD 0 0).toNat + 256 * (bytes.getD 1 0).toNat
  name := (bytes.drop 2).take DIRSIZ

/-! ### `dirlookup` -/

/-- A panic below. -/
def lift {α : Type} (x : Except Panic α) : Except Stop α := x.mapError .panic

/-- The loop of `dirlookup` from `off` on, with a bound on the rounds left: the inode number and the
offset of the entry. -/
def lookupLoop (devsw : Devsw) (sb : Superblock) (name : Str) :
    Nat → Nat → Inode → State → Except Stop (Option (Nat × Nat) × Inode × State)
  | 0, _, dp, s => .ok (none, dp, s)
  | rounds + 1, off, dp, s =>
    if off < dp.size then do
      let ((r, bytes), dp, s) ← lift (readi devsw sb dp off direntSize s)
      if r ≠ direntSize then .error .dirlookupRead
      else
        let de := dirent bytes
        if de.inum = 0 then lookupLoop devsw sb name rounds (off + direntSize) dp s
        else if namecmp name (literal de.name) = 0 then .ok (some (de.inum, off), dp, s)
        else lookupLoop devsw sb name rounds (off + direntSize) dp s
    else .ok (none, dp, s)

/-- `dirlookup(dp, name, &off)`: the inode in the cache, with a new reference, and `off`. -/
def dirlookup (devsw : Devsw) (sb : Superblock) (k : Fin NINODE) (name : Str) (fs : FileSystem) :
    Except Stop (Option (Fin NINODE × Nat) × FileSystem) :=
  let dp := fs.icache k
  if dp.type ≠ T_DIR then .error .dirlookupNotDir
  else do
    let (found, dp, s) ← lookupLoop devsw sb name (dp.size / direntSize + 1) 0 dp fs.toState
    let fs := fs.store k dp s
    match found with
    | none => .ok (none, fs)
    | some (inum, off) => do
      let (ip, fs) ← lift (iget inum fs)
      .ok (some (ip, off), fs)

/-! ### `dirlink` -/

/-- The loop of `dirlink` that looks for an empty entry. -/
def emptyLoop (devsw : Devsw) (sb : Superblock) :
    Nat → Nat → Inode → State → Except Stop (Nat × Inode × State)
  | 0, off, dp, s => .ok (off, dp, s)
  | rounds + 1, off, dp, s =>
    if off < dp.size then do
      let ((r, bytes), dp, s) ← lift (readi devsw sb dp off direntSize s)
      if r ≠ direntSize then .error .dirlinkRead
      else if (dirent bytes).inum = 0 then .ok (off, dp, s)
      else emptyLoop devsw sb rounds (off + direntSize) dp s
    else .ok (off, dp, s)

/-- `dirlink(dp, name, inum)`. `iput` takes the lock of the inode found, and the caller holds that of
`dp`. -/
def dirlink (devsw : Devsw) (sb : Superblock) (k : Fin NINODE) (name : Str) (inum : Nat) (fs : FileSystem) :
    Except Stop (Int × FileSystem) := do
  let (found, fs) ← dirlookup devsw sb k name fs
  match found with
  | some (ip, _) =>
    if ip = k then .error .asleep
    else do
      let fs ← lift (iput sb ip fs)
      .ok (-1, fs)
  | none => do
    let dp := fs.icache k
    let (off, dp, s) ← emptyLoop devsw sb (dp.size / direntSize + 1) 0 dp fs.toState
    let de : Dirent := { inum, name := strncpy DIRSIZ name }
    let (r, dp, s) ← lift (writei devsw sb dp off de.bytes s)
    if r ≠ direntSize then .error .dirlink else .ok (0, fs.store k dp s)

/-! ### Removal -/

/-- The part of `sys_unlink` that works on the directory: the inode found, still referenced, once its
entry is cleared; `none` goes to `bad`. What `sys_unlink` does with the inode is left out. -/
def unlinkEntry (devsw : Devsw) (sb : Superblock) (k : Fin NINODE) (name : Str) (fs : FileSystem) :
    Except Stop (Option (Fin NINODE) × FileSystem) :=
  if namecmp name (literal [0x2e]) = 0 ∨ namecmp name (literal [0x2e, 0x2e]) = 0 then .ok (none, fs)
  else do
    let (found, fs) ← dirlookup devsw sb k name fs
    match found with
    | none => .ok (none, fs)
    | some (ip, off) => do
      let (r, dp, s) ← lift (writei devsw sb (fs.icache k) off (List.replicate direntSize 0) fs.toState)
      if r ≠ direntSize then .error .unlinkWritei else .ok (some ip, fs.store k dp s)

end Xv6.Dirs
