import Xv6.Lib.Refs
import Xv6.Proc.Activity

/-!
# Open files

`file.c`, the reference counts of the inode cache of `fs.c`, and the system calls of `sysfile.c` that open
and close. What a path name leads to is the file system's affair: a `Path` says which inode numbers
`dirlookup` finds on the way. Nothing modelled here sleeps on a pipe.
-/

namespace Xv6.Files

open Function (update)
open Proc Vm

/-- `NOFILE`: open files of a process. -/
abbrev NOFILE : Nat := 16

/-- `NFILE`: open files of the system. -/
abbrev NFILE : Nat := 100

/-- `NINODE`: entries of the inode cache. -/
abbrev NINODE : Nat := 50

/-- `ROOTINO` -/
abbrev ROOTINO : Nat := 1

/-- `FD_NONE`, `FD_PIPE` with the pipe's page and the flag `writable`, `FD_INODE`. -/
inductive FileType where
  | none
  | pipe (page : Nat) (writable : Bool)
  | inode (ip : Fin NINODE)
  deriving DecidableEq

def FileType.ip : FileType → Option (Fin NINODE)
  | .inode ip => some ip
  | _ => Option.none

/-- `struct file` -/
structure File where
  ref : Int
  type : FileType

/-- `struct inode`, as far as `iget` looks at it -/
structure Inode where
  inum : Nat
  ref : Int

/-- `struct pipe` -/
structure Pipe where
  readopen : Bool
  writeopen : Bool

structure Machine where
  k : Kernel
  /-- `ftable` -/
  file : Fin NFILE → File
  /-- `icache` -/
  inode : Fin NINODE → Inode
  ofile : Slot × Fin NOFILE → Option (Fin NFILE)
  cwd : Slot → Option (Fin NINODE)
  /-- the pipes, by page -/
  pipe : Nat → Pipe

variable (m : Machine) (cur : Slot)

/-! ### Inodes -/

def iget (inum : Nat) : Except Stop (Fin NINODE × Machine) :=
  match (List.finRange NINODE).find? fun ip => 0 < (m.inode ip).ref ∧ (m.inode ip).inum = inum with
  | some ip =>
    .ok (ip, { m with inode := update m.inode ip { inum, ref := (m.inode ip).ref + 1 } })
  | none =>
    match (List.finRange NINODE).find? fun ip => (m.inode ip).ref = 0 with
    | some ip => .ok (ip, { m with inode := update m.inode ip { inum, ref := 1 } })
    | none => .error (.panic .igetNoInodes)

def addRef (ip : Fin NINODE) (n : Int) : Machine :=
  { m with inode := update m.inode ip { m.inode ip with ref := (m.inode ip).ref + n } }

def idup : Option (Fin NINODE) → Except Stop (Fin NINODE × Machine)
  | none => .error .null
  | some ip => .ok (ip, addRef m ip 1)

/-- Of `iput`, the reference; freeing the blocks of an unlinked file is `Fs.iput`. -/
def iput (ip : Fin NINODE) : Machine := addRef m ip (-1)

/-- A path name: whether it starts at the root, the inode numbers that `dirlookup` finds on
the way, and whether the way ends there or at something that is missing or no directory. -/
structure Path where
  absolute : Bool
  found : List Nat
  ok : Bool
  deriving DecidableEq

/-- `ip` for the next round: `next = dirlookup(ip, name); iunlockput(ip); ip = next`. -/
def lookup : Fin NINODE × Machine → Nat → Except Stop (Fin NINODE × Machine)
  | (ip, m), inum => do
    let (next, m) ← iget m inum
    .ok (next, iput m ip)

/-- Where `namex` starts. -/
def startDir (absolute : Bool) : Except Stop (Fin NINODE × Machine) :=
  if absolute then iget m ROOTINO else idup m (m.cwd cur)

/-- `namex`; `none` is a null pointer. -/
def namex (path : Path) : Except Stop (Option (Fin NINODE) × Machine) := do
  let start ← startDir m cur path.absolute
  let (ip, m) ← path.found.foldlM lookup start
  if path.ok then .ok (some ip, m) else .ok (none, iput m ip)

/-! ### Files -/

def filealloc : Option (Fin NFILE × Machine) :=
  match (List.finRange NFILE).find? fun f => (m.file f).ref = 0 with
  | none => none
  | some f => some (f, { m with file := update m.file f { m.file f with ref := 1 } })

def filedup (f : Fin NFILE) : Except Stop Machine :=
  if (m.file f).ref < 1 then .error (.panic .filedup)
  else .ok { m with file := update m.file f { m.file f with ref := (m.file f).ref + 1 } }

def pipeclose (page : Nat) (writable : Bool) : Machine :=
  let pipe := if writable then { m.pipe page with writeopen := false }
    else { m.pipe page with readopen := false }
  let m := { m with pipe := update m.pipe page pipe }
  if pipe.readopen = false ∧ pipe.writeopen = false then
    { m with k := { m.k with mem := kfree m.k.mem page } }
  else m

/-- The end of `fileclose`, with the type of the file that is gone. -/
def closeType : FileType → Machine
  | .none => m
  | .pipe page writable => pipeclose m page writable
  | .inode ip => iput m ip

def fileclose (f : Fin NFILE) : Except Stop Machine :=
  if (m.file f).ref < 1 then .error (.panic .fileclose)
  else if (m.file f).ref - 1 > 0 then
    .ok { m with file := update m.file f { m.file f with ref := (m.file f).ref - 1 } }
  else .ok (closeType { m with file := update m.file f { ref := 0, type := .none } } (m.file f).type)

/-! ### Descriptors -/

/-- `none` is the return value -1. -/
def fdalloc (f : Fin NFILE) : Option (Fin NOFILE × Machine) :=
  match (List.finRange NOFILE).find? fun fd => m.ofile (cur, fd) = none with
  | none => none
  | some fd => some (fd, { m with ofile := update m.ofile (cur, fd) (some f) })

def argfd (fd : Int) : Option (Fin NOFILE × Fin NFILE) :=
  if bound : 0 ≤ fd ∧ fd < NOFILE then
    let fd : Fin NOFILE := ⟨fd.toNat, by omega⟩
    (m.ofile (cur, fd)).map fun f => (fd, f)
  else none

def sysDup (fd : Int) : Except Stop (Int × Machine) :=
  match argfd m cur fd with
  | none => .ok (-1, m)
  | some (_, f) =>
    match fdalloc m cur f with
    | none => .ok (-1, m)
    | some (fd, m) => do .ok (fd, ← filedup m f)

def clearFd (fd : Fin NOFILE) : Machine := { m with ofile := update m.ofile (cur, fd) none }

def sysClose (fd : Int) : Except Stop (Int × Machine) :=
  match argfd m cur fd with
  | none => .ok (-1, m)
  | some (fd, f) => do .ok (0, ← fileclose (clearFd m cur fd) f)

/-! ### `open` -/

/-- The last element of a path in its directory: an inode, which may be a plain file, or
nothing yet, and the inode that `ialloc` finds. -/
inductive Entry where
  | found (inum : Nat) (plain : Bool)
  | fresh (inum : Nat)
  deriving DecidableEq

/-- `create(path, T_FILE, 0, 0)`; `path` is the directory's. -/
def create (path : Path) (entry : Entry) : Except Stop (Option (Fin NINODE) × Machine) := do
  match ← namex m cur path with
  | (none, m) => .ok (none, m)
  | (some dp, m) =>
    match entry with
    | .found inum plain => do
      let (ip, m) ← iget m inum
      let m := iput m dp
      if plain then .ok (some ip, m) else .ok (none, iput m ip)
    | .fresh inum => do
      let (ip, m) ← iget m inum
      .ok (some ip, iput m dp)

/-- What `open` is asked for: with `O_CREATE`, or without and `refused` if it is a directory to
be written. -/
inductive Target where
  | create (path : Path) (entry : Entry)
  | existing (path : Path) (refused : Bool)
  deriving DecidableEq

/-- The first part of `sys_open`. -/
def openInode : Target → Except Stop (Option (Fin NINODE) × Machine)
  | .create path entry => create m cur path entry
  | .existing path refused => do
    match ← namex m cur path with
    | (none, m) => .ok (none, m)
    | (some ip, m) => if refused then .ok (none, iput m ip) else .ok (some ip, m)

/-- `f->type = type`. -/
def setType (f : Fin NFILE) (type : FileType) : Machine :=
  { m with file := update m.file f { m.file f with type } }

def sysOpen (target : Target) : Except Stop (Int × Machine) := do
  match ← openInode m cur target with
  | (none, m) => .ok (-1, m)
  | (some ip, m) =>
    match filealloc m with
    | none => .ok (-1, iput m ip)
    | some (f, m) =>
      match fdalloc m cur f with
      | none => do .ok (-1, iput (← fileclose m f) ip)
      | some (fd, m) => .ok (fd, setType m f (.inode ip))

/-! ### `pipe` -/

/-- `none` is the return value -1. -/
def pipealloc : Except Stop (Option (Fin NFILE × Fin NFILE) × Machine) :=
  match filealloc m with
  | none => .ok (none, m)
  | some (f0, m) =>
    match filealloc m with
    | none => do .ok (none, ← fileclose m f0)
    | some (f1, m) =>
      match kalloc m.k.mem with
      | none => do .ok (none, ← fileclose (← fileclose m f0) f1)
      | some (page, mem) =>
        let m :=
          { m with
            k := { m.k with mem := mem }
            pipe := update m.pipe page { readopen := true, writeopen := true } }
        .ok (some (f0, f1), setType (setType m f0 (.pipe page false)) f1 (.pipe page true))

def sysPipe : Except Stop (Int × Machine) := do
  match ← pipealloc m with
  | (none, m) => .ok (-1, m)
  | (some (rf, wf), m) =>
    match fdalloc m cur rf with
    | none => do .ok (-1, ← fileclose (← fileclose m rf) wf)
    | some (fd0, m) =>
      match fdalloc m cur wf with
      | none => do .ok (-1, ← fileclose (← fileclose (clearFd m cur fd0) rf) wf)
      | some (_, m) => .ok (0, m)

/-! ### Directories -/

/-- `iput(curproc->cwd); curproc->cwd = ip`. -/
def setCwd (ip : Option (Fin NINODE)) : Except Stop Machine :=
  match m.cwd cur with
  | none => .error .null
  | some old =>
    let m := iput m old
    .ok { m with cwd := update m.cwd cur ip }

def sysChdir (path : Path) (directory : Bool) : Except Stop (Int × Machine) := do
  match ← namex m cur path with
  | (none, m) => .ok (-1, m)
  | (some ip, m) => if directory then do .ok (0, ← setCwd m cur (some ip)) else .ok (-1, iput m ip)

/-! ### The files of a process -/

/-- `exit`, `thread_exit`: close one descriptor. -/
def closeFd (fd : Fin NOFILE) : Except Stop Machine :=
  match m.ofile (cur, fd) with
  | none => .ok m
  | some f => do .ok (clearFd (← fileclose m f) cur fd)

/-- `exit`, `thread_exit`: close all open files. -/
def closeFiles : Except Stop Machine := do
  let m ← (List.finRange NOFILE).foldlM (fun m fd => closeFd m cur fd) m
  setCwd m cur none

/-- `fork`, `thread_create`: copy one descriptor. -/
def copyFd (np : Slot) (fd : Fin NOFILE) : Except Stop Machine :=
  match m.ofile (cur, fd) with
  | none => .ok m
  | some f => do
    let m ← filedup m f
    .ok { m with ofile := update m.ofile (np, fd) (some f) }

/-- `fork`, `thread_create`: the new slot `np` shares the open files. -/
def copyFiles (np : Slot) : Except Stop Machine := do
  let m ← (List.finRange NOFILE).foldlM (fun m fd => copyFd m cur np fd) m
  let (ip, m) ← idup m (m.cwd cur)
  .ok { m with cwd := update m.cwd np (some ip) }

/-! ### System calls -/

inductive Request where
  /-- a process system call other than `exec` -/
  | call (c : Call)
  | exec (path : Path) (program : Option Program)
  | open (target : Target)
  | close (fd : Int)
  | dup (fd : Int)
  | pipe
  | chdir (path : Path) (directory : Bool)
  | kill (pid : Int)
  deriving DecidableEq

/-- The files after a process system call, which has led from `k` to `m.k`. -/
def settle (k : Kernel) : Call → Except Stop Machine
  | .fork | .threadCreate =>
    match born k m.k with
    | some np => copyFiles m cur np
    | none => .ok m
  | .threadExit _ | .exit | .resume =>
    if m.k.state cur = .ZOMBIE then closeFiles m cur else .ok m
  | _ => .ok m

/-- `exec` opens the program and closes it again. -/
def findProgram (path : Path) (program : Option Program) :
    Except Stop (Option Program × Machine) := do
  match ← namex m cur path with
  | (none, m) => .ok (none, m)
  | (some ip, m) => .ok (program, iput m ip)

/-- A ready thread in user mode that has not been killed. -/
def InUser (k : Kernel) (cur : Slot) : Prop :=
  k.state cur = .RUNNABLE ∧ k.context cur = .user ∧ k.killed cur = false

instance (k : Kernel) (cur : Slot) : Decidable (InUser k cur) := by
  unfold InUser
  infer_instance

/-- A call of `cur` on files, or `kill`. -/
def serve : Request → Except Stop Machine
  | .open target => do .ok (← sysOpen m cur target).2
  | .close fd => do .ok (← sysClose m cur fd).2
  | .dup fd => do .ok (← sysDup m cur fd).2
  | .pipe => do .ok (← sysPipe m cur).2
  | .chdir path directory => do .ok (← sysChdir m cur path directory).2
  | .kill pid => do .ok { m with k := (← kill m.k pid).2 }
  | .call _ | .exec .. => .ok m

/-- The process call `c` by `cur`, and then the files. -/
def process (c : Call) : Option Machine :=
  (step m.k (cur, c)).bind fun k => (settle { m with k := k } cur m.k c).toOption

def Machine.step : Slot × Request → Option Machine
  | (_, .call (.exec _)) => none
  | (cur, .call c) => process m cur c
  | (cur, .exec path program) =>
    if InUser m.k cur then
      (findProgram m cur path program).toOption.bind fun (program, m) => process m cur (.exec program)
    else none
  | (cur, request) => if InUser m.k cur then (serve m cur request).toOption else none

/-- No file is open. -/
def Machine.idle (k : Kernel) : Machine :=
  { k := k
    file := fun _ => { ref := 0, type := .none }
    inode := fun _ => { inum := 0, ref := 0 }
    ofile := fun _ => none
    cwd := fun _ => none
    pipe := fun _ => { readopen := false, writeopen := false } }

/-- `userinit`: the first process is in the root directory. -/
def Machine.boot (k : Kernel) : Except Stop Machine := do
  let (ip, m) ← namex (.idle k) k.initproc { absolute := true, found := [], ok := true }
  .ok { m with cwd := update m.cwd k.initproc ip }

/-- The system calls on processes and files, one after the other. -/
def fileCalls : System Machine (Slot × Request) where
  init m := ∃ free k, userinit free = .ok k ∧ Machine.boot k = .ok m
  step m := m.step

end Xv6.Files
