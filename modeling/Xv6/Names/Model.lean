import Xv6.Dirs.Model

/-!
# Path names: `fs.c` and `sysfile.c`

Path resolution and the calls `link`, `unlink`, `mkdir` and `mknod`. The inode cache of `Xv6.Fs` gets its
sleeplocks here. A call runs by itself: `ilock` of an inode that is locked means that it waits for a lock
it holds itself. A path is the bytes in front of its NUL, and an argument that cannot be fetched is `none`.
There is one device.
-/

namespace Xv6.Names

open Bytes Fs Dirs

abbrev ROOTINO : Nat := 1

inductive Stop where
  /-- a panic or a wait in the directories or below -/
  | below (s : Dirs.Stop)
  /-- "iunlock" -/
  | iunlock
  /-- "isdirempty: readi" -/
  | isdiremptyReadi
  /-- "create dots" -/
  | createDots
  /-- "create: dirlink" -/
  | createDirlink
  deriving DecidableEq

/-- The file system with the sleeplocks of the inodes. -/
structure Cache extends FileSystem where
  locked : Fin NINODE → Bool

def below {α : Type} (x : Except Dirs.Stop α) : Except Stop α := x.mapError .below

def panics {α : Type} (x : Except Panic α) : Except Stop α := below (lift x)

/-- Replace everything but the locks. -/
def Cache.put (c : Cache) (fs : FileSystem) : Cache := { c with toFileSystem := fs }

/-! ### Inodes -/

def iget (inum : Nat) (c : Cache) : Except Stop (Fin NINODE × Cache) := do
  let (k, fs) ← panics (Fs.iget inum c.toFileSystem)
  .ok (k, c.put fs)

def idup (k : Fin NINODE) (c : Cache) : Cache :=
  c.put (c.store k { c.icache k with ref := (c.icache k).ref + 1 } c.toState)

def ilock (sb : Superblock) (k : Fin NINODE) (c : Cache) : Except Stop Cache :=
  if (c.icache k).ref < 1 then .error (.below (.panic .ilock))
  else if c.locked k then .error (.below .asleep)
  else do
    let fs ← panics (Fs.ilock sb k c.toFileSystem)
    .ok { toFileSystem := fs, locked := Function.update c.locked k true }

def iunlock (k : Fin NINODE) (c : Cache) : Except Stop Cache :=
  if c.locked k = false ∨ (c.icache k).ref < 1 then .error .iunlock
  else .ok { c with locked := Function.update c.locked k false }

/-- `iput` takes the lock and gives it back. -/
def iput (sb : Superblock) (k : Fin NINODE) (c : Cache) : Except Stop Cache :=
  if c.locked k then .error (.below .asleep)
  else do
    let fs ← panics (Fs.iput sb k c.toFileSystem)
    .ok (c.put fs)

def iunlockput (sb : Superblock) (k : Fin NINODE) (c : Cache) : Except Stop Cache := do
  let c ← iunlock k c
  iput sb k c

/-- A change of a locked inode with its `iupdate`. -/
def update (sb : Superblock) (k : Fin NINODE) (change : Inode → Inode) (c : Cache) : Cache :=
  c.put (c.store k (change (c.icache k)) (iupdate sb (change (c.icache k)) c.toState))

/-! ### Directories -/

def dirlookup (devsw : Devsw) (sb : Superblock) (k : Fin NINODE) (name : Str) (c : Cache) :
    Except Stop (Option (Fin NINODE × Nat) × Cache) := do
  let (found, fs) ← below (Dirs.dirlookup devsw sb k name c.toFileSystem)
  .ok (found, c.put fs)

def dirlink (devsw : Devsw) (sb : Superblock) (k : Fin NINODE) (name : Str) (inum : Nat) (c : Cache) :
    Except Stop (Int × Cache) := do
  let (found, c) ← dirlookup devsw sb k name c
  match found with
  | some (ip, _) => do
    let c ← iput sb ip c
    .ok (-1, c)
  | none => do
    let dp := c.icache k
    let (off, dp, s) ← below (emptyLoop devsw sb (dp.size / direntSize + 1) 0 dp c.toState)
    let de : Dirent := { inum, name := strncpy DIRSIZ name }
    let (r, dp, s) ← panics (writei devsw sb dp off de.bytes s)
    if r ≠ direntSize then .error (.below .dirlink) else .ok (0, c.put (c.store k dp s))

/-- The loop of `isdirempty`. -/
def isdiremptyLoop (devsw : Devsw) (sb : Superblock) : Nat → Nat → Inode → State → Except Stop (Bool × Inode × State)
  | 0, _, dp, s => .ok (true, dp, s)
  | rounds + 1, off, dp, s =>
    if off < dp.size then do
      let ((r, bytes), dp, s) ← panics (readi devsw sb dp off direntSize s)
      if r ≠ direntSize then .error .isdiremptyReadi
      else if (dirent bytes).inum ≠ 0 then .ok (false, dp, s)
      else isdiremptyLoop devsw sb rounds (off + direntSize) dp s
    else .ok (true, dp, s)

def isdirempty (devsw : Devsw) (sb : Superblock) (k : Fin NINODE) (c : Cache) : Except Stop (Bool × Cache) := do
  let dp := c.icache k
  let (empty, dp, s) ← isdiremptyLoop devsw sb (dp.size / direntSize + 1) (2 * direntSize) dp c.toState
  .ok (empty, c.put (c.store k dp s))

/-! ### Paths -/

abbrev slash : Byte := 0x2f

/-- Copy `n` bytes of `src` into the buffer `dst`. -/
def memmove (dst : Str) (src : List Byte) (n : Nat) : Str := fun i => if i < n then src.getD i 0 else dst i

/-- `skipelem`: the rest of the path and the buffer `name`; `none` if there is no name to remove. -/
def skipelem (path : List Byte) (name : Str) : Option (List Byte × Str) :=
  let path := path.dropWhile (· == slash)
  if path = [] then none
  else
    let s := path
    let path := path.dropWhile (· != slash)
    let len := s.length - path.length
    let name :=
      if DIRSIZ ≤ len then memmove name s DIRSIZ else Function.update (memmove name s len) len 0
    some (path.dropWhile (· == slash), name)

theorem length_dropWhile_le {α : Type} (p : α → Bool) (l : List α) : (l.dropWhile p).length ≤ l.length :=
  (List.dropWhile_suffix p).length_le

theorem skipelem_shorter {path rest : List Byte} {name name' : Str} (ran : skipelem path name = some (rest, name')) :
    rest.length < path.length := by
  unfold skipelem at ran
  dsimp only at ran
  split at ran
  · cases ran
  next more =>
    cases ran
    obtain ⟨b, s, start⟩ := List.exists_cons_of_ne_nil more
    -- the first byte of the name is passed over
    have first : (b != slash) = true := by
      have head := List.head?_dropWhile_not (· == slash) path
      rw [start] at head
      simpa using head
    have all := length_dropWhile_le (· == slash) path
    have step := length_dropWhile_le (· != slash) s
    have last := length_dropWhile_le (· == slash) (s.dropWhile (· != slash))
    rw [start] at all ⊢
    rw [List.dropWhile_cons, if_pos first]
    simp only [List.length_cons] at all
    omega

/-- The loop of `namex` at the inode `ip`, with the path not yet scanned. -/
def namexLoop (devsw : Devsw) (sb : Superblock) (nameiparent : Bool) (path : List Byte) (name : Str)
    (ip : Fin NINODE) (c : Cache) : Except Stop (Option (Fin NINODE) × Str × Cache) :=
  match _scanned : skipelem path name with
  | none =>
    if nameiparent then do
      let c ← iput sb ip c
      .ok (none, name, c)
    else .ok (some ip, name, c)
  | some (path, name) => do
    let c ← ilock sb ip c
    if (c.icache ip).type ≠ T_DIR then do
      let c ← iunlockput sb ip c
      .ok (none, name, c)
    else if nameiparent ∧ path = [] then do
      let c ← iunlock ip c
      .ok (some ip, name, c)
    else do
      let (next, c) ← dirlookup devsw sb ip name c
      match next with
      | none => do
        let c ← iunlockput sb ip c
        .ok (none, name, c)
      | some (next, _) => do
        let c ← iunlockput sb ip c
        namexLoop devsw sb nameiparent path name next c
termination_by path.length
decreasing_by exact skipelem_shorter _scanned

/-- `namex` in a process with the current directory `cwd`: the inode and the buffer `name`. -/
def namex (devsw : Devsw) (sb : Superblock) (cwd : Fin NINODE) (path : List Byte) (nameiparent : Bool) (name : Str)
    (c : Cache) : Except Stop (Option (Fin NINODE) × Str × Cache) := do
  let (ip, c) ← if path.head? = some slash then iget ROOTINO c else .ok (cwd, idup cwd c)
  namexLoop devsw sb nameiparent path name ip c

def namei (devsw : Devsw) (sb : Superblock) (cwd : Fin NINODE) (path : List Byte) (name : Str) (c : Cache) :
    Except Stop (Option (Fin NINODE) × Cache) := do
  let (ip, _, c) ← namex devsw sb cwd path false name c
  .ok (ip, c)

def nameiparent (devsw : Devsw) (sb : Superblock) (cwd : Fin NINODE) (path : List Byte) (name : Str) (c : Cache) :
    Except Stop (Option (Fin NINODE) × Str × Cache) :=
  namex devsw sb cwd path true name c

/-! ### Calls -/

section Calls

-- `name` is the buffer on the stack, with whatever was there before
variable (devsw : Devsw) (sb : Superblock) (cwd : Fin NINODE) (name : Str)

/-- The label `bad` of `sys_link`. -/
def linkBad (ip : Fin NINODE) (c : Cache) : Except Stop (Int × Cache) := do
  let c ← ilock sb ip c
  let c := update sb ip (fun ip => { ip with nlink := ip.nlink - 1 }) c
  let c ← iunlockput sb ip c
  .ok (-1, c)

def sysLink (old new : Option (List Byte)) (c : Cache) : Except Stop (Int × Cache) :=
  match old, new with
  | some old, some new => do
    let (ip, c) ← namei devsw sb cwd old name c
    match ip with
    | none => .ok (-1, c)
    | some ip => do
      let c ← ilock sb ip c
      if (c.icache ip).type = T_DIR then do
        let c ← iunlockput sb ip c
        .ok (-1, c)
      else do
        let c := update sb ip (fun ip => { ip with nlink := ip.nlink + 1 }) c
        let c ← iunlock ip c
        let (dp, name, c) ← nameiparent devsw sb cwd new name c
        match dp with
        | none => linkBad sb ip c
        | some dp => do
          let c ← ilock sb dp c
          let (r, c) ← dirlink devsw sb dp name (c.icache ip).inum c
          if r < 0 then do
            let c ← iunlockput sb dp c
            linkBad sb ip c
          else do
            let c ← iunlockput sb dp c
            let c ← iput sb ip c
            .ok (0, c)
  | _, _ => .ok (-1, c)

/-- The label `bad` of `sys_unlink`. -/
def unlinkBad (dp : Fin NINODE) (c : Cache) : Except Stop (Int × Cache) := do
  let c ← iunlockput sb dp c
  .ok (-1, c)

/-- The rest of `sys_unlink`, once the entry at `off` of `dp` may be removed. -/
def unlinkCommit (dp ip : Fin NINODE) (off : Nat) (c : Cache) : Except Stop (Int × Cache) := do
  let (r, d, s) ← panics (writei devsw sb (c.icache dp) off (List.replicate direntSize 0) c.toState)
  if r ≠ direntSize then .error (.below .unlinkWritei)
  else do
    let c := c.put (c.store dp d s)
    let c :=
      if (c.icache ip).type = T_DIR then update sb dp (fun dp => { dp with nlink := dp.nlink - 1 }) c else c
    let c ← iunlockput sb dp c
    let c := update sb ip (fun ip => { ip with nlink := ip.nlink - 1 }) c
    let c ← iunlockput sb ip c
    .ok (0, c)

def sysUnlink (path : Option (List Byte)) (c : Cache) : Except Stop (Int × Cache) :=
  match path with
  | none => .ok (-1, c)
  | some path => do
    let (dp, name, c) ← nameiparent devsw sb cwd path name c
    match dp with
    | none => .ok (-1, c)
    | some dp => do
      let c ← ilock sb dp c
      if namecmp name (literal [0x2e]) = 0 ∨ namecmp name (literal [0x2e, 0x2e]) = 0 then unlinkBad sb dp c
      else do
        let (found, c) ← dirlookup devsw sb dp name c
        match found with
        | none => unlinkBad sb dp c
        | some (ip, off) => do
          let c ← ilock sb ip c
          if (c.icache ip).nlink.toInt < 1 then .error (.below (.panic .unlinkNlink))
          else if (c.icache ip).type = T_DIR then do
            let (empty, c) ← isdirempty devsw sb ip c
            if empty then unlinkCommit devsw sb dp ip off c
            else do
              let c ← iunlockput sb ip c
              unlinkBad sb dp c
          else unlinkCommit devsw sb dp ip off c

/-- The rest of `create`: a new inode, with its dots if it is a directory, and its entry in `dp`. It is returned
locked. -/
def createNew (dp : Fin NINODE) (type major minor : BitVec 16) (c : Cache) : Except Stop (Fin NINODE × Cache) := do
  let (inum, s) ← panics (ialloc sb type c.toState)
  let (ip, c) ← iget inum (c.put { c.toFileSystem with toState := s })
  let c ← ilock sb ip c
  let c := update sb ip (fun ip => { ip with major, minor, nlink := 1 }) c
  let c ←
    if type = T_DIR then do
      let c := update sb dp (fun dp => { dp with nlink := dp.nlink + 1 }) c
      let (r, c) ← dirlink devsw sb ip (literal [0x2e]) (c.icache ip).inum c
      if r < 0 then .error .createDots
      else do
        let (r, c) ← dirlink devsw sb ip (literal [0x2e, 0x2e]) (c.icache dp).inum c
        if r < 0 then .error .createDots else .ok c
    else .ok c
  let (r, c) ← dirlink devsw sb dp name (c.icache ip).inum c
  if r < 0 then .error .createDirlink
  else do
    let c ← iunlockput sb dp c
    .ok (ip, c)

def create (path : List Byte) (type major minor : BitVec 16) (c : Cache) :
    Except Stop (Option (Fin NINODE) × Cache) := do
  let (dp, name, c) ← nameiparent devsw sb cwd path name c
  match dp with
  | none => .ok (none, c)
  | some dp => do
    let c ← ilock sb dp c
    let (found, c) ← dirlookup devsw sb dp name c
    match found with
    | some (ip, _) => do
      let c ← iunlockput sb dp c
      let c ← ilock sb ip c
      if type = T_FILE ∧ (c.icache ip).type = T_FILE then .ok (some ip, c)
      else do
        let c ← iunlockput sb ip c
        .ok (none, c)
    | none => do
      let (ip, c) ← createNew devsw sb name dp type major minor c
      .ok (some ip, c)

/-- What `sys_mkdir` and `sys_mknod` do with the result of `create`. -/
def made (result : Option (Fin NINODE) × Cache) : Except Stop (Int × Cache) :=
  match result with
  | (none, c) => .ok (-1, c)
  | (some ip, c) => do
    let c ← iunlockput sb ip c
    .ok (0, c)

def sysMkdir (path : Option (List Byte)) (c : Cache) : Except Stop (Int × Cache) :=
  match path with
  | none => .ok (-1, c)
  | some path => do
    let result ← create devsw sb cwd name path T_DIR 0 0 c
    made sb result

/-- `create` takes the numbers as `short`. -/
def sysMknod (path : Option (List Byte)) (major minor : Option Int) (c : Cache) : Except Stop (Int × Cache) :=
  match path, major, minor with
  | some path, some major, some minor => do
    let result ← create devsw sb cwd name path T_DEV (BitVec.ofInt 16 major) (BitVec.ofInt 16 minor) c
    made sb result
  | _, _, _ => .ok (-1, c)

end Calls

end Xv6.Names
