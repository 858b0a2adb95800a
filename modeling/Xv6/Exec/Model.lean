import Xv6.Proc.Calls

/-!
# `exec` in full: `exec.c`

`exec` reads the program file itself: the ELF header, the program headers with all their checks, the pages
of each segment and the argument strings, with every way to `bad`. Beside the process table there are the
name and the two registers of the trap frame that `exec` assigns. The contents of user pages are left
out, so `loaduvm` and `copyout` are what they return.
-/

namespace Xv6.Exec

open Function (update)
open Bytes (Byte)
open Proc Vm

abbrev MAXARG : Nat := 32

abbrev ELF_MAGIC : Nat := 0x464C457F

abbrev ELF_PROG_LOAD : Nat := 1

abbrev PHYSTOP : Nat := 0xE000000

abbrev DEVSPACE : Nat := 0xFE000000

/-! ### The program file -/

/-- An inode as `readi(ip, dst, off, n)` shows it: the bytes it stores at `dst`. It returns their
number, or -1. -/
structure File where
  readi : Nat → Nat → Option (List Byte)

/-- A regular file. -/
def File.ofBytes (data : List Byte) : File where
  readi off n := if data.length < off ∨ 2 ^ 32 ≤ off + n then none else some ((data.drop off).take n)

/-- `readi(ip, dst, off, n) == n`. -/
def File.read (file : File) (off n : Nat) : Option (List Byte) :=
  (file.readi off n).filter fun bytes => bytes.length = n

/-- The little-endian field of `width` bytes at `off`. -/
def field (bytes : List Byte) (off width : Nat) : Nat :=
  ((bytes.drop off).take width).foldr (fun b n => b.toNat + 256 * n) 0

structure Elfhdr where
  magic : Nat
  entry : Nat
  phoff : Nat
  phnum : Nat

def elfhdr (bytes : List Byte) : Elfhdr where
  magic := field bytes 0 4
  entry := field bytes 24 4
  phoff := field bytes 28 4
  phnum := field bytes 44 2

structure Proghdr where
  type : Nat
  off : Nat
  vaddr : Nat
  filesz : Nat
  memsz : Nat

def proghdr (bytes : List Byte) : Proghdr where
  type := field bytes 0 4
  off := field bytes 4 4
  vaddr := field bytes 8 4
  filesz := field bytes 16 4
  memsz := field bytes 20 4

/-! ### Loading -/

/-- The loop of `loaduvm`, with the rounds left; `false` is the return value -1. -/
def loadLoop (m : Memory) (pgdir addr : Nat) (file : File) (offset sz : Nat) : Nat → Nat → Except Stop Bool
  | 0, _ => .ok true
  | rounds + 1, i =>
    match walkpgdir m pgdir (addr + i) false with
    | none => .error (.panic .loaduvmAddress)
    | some _ =>
      match file.read (uint32 (offset + i)) (min (sz - i) PGSIZE) with
      | none => .ok false
      | some _ => loadLoop m pgdir addr file offset sz rounds (i + PGSIZE)

def loaduvm (m : Memory) (pgdir addr : Nat) (file : File) (offset sz : Nat) : Except Stop Bool :=
  if addr % PGSIZE ≠ 0 then .error (.panic .loaduvmAligned)
  else loadLoop m pgdir addr file offset sz ((sz + PGSIZE - 1) / PGSIZE) 0

/-- One turn of the loop over the program headers; `none` goes to `bad`. -/
def loadHeader (pgdir : Nat) (file : File) (ph : Proghdr) (sz : Nat) (m : Memory) :
    Except Stop (Option Nat × Memory) :=
  if ph.type ≠ ELF_PROG_LOAD then .ok (some sz, m)
  else if ph.memsz < ph.filesz then .ok (none, m)
  else if uint32 (ph.vaddr + ph.memsz) < ph.vaddr then .ok (none, m)
  else do
    let (sz, m) ← allocuvm m pgdir sz (uint32 (ph.vaddr + ph.memsz))
    if sz = 0 then .ok (none, m)
    else if ph.vaddr % PGSIZE ≠ 0 then .ok (none, m)
    else do
      let loaded ← loaduvm m pgdir ph.vaddr file ph.off ph.filesz
      if loaded then .ok (some sz, m) else .ok (none, m)

/-- The loop over the program headers, with the rounds left. -/
def headerLoop (pgdir : Nat) (file : File) : Nat → Nat → Nat → Memory → Except Stop (Option Nat × Memory)
  | 0, _, sz, m => .ok (some sz, m)
  | rounds + 1, off, sz, m =>
    match file.read off 32 with
    | none => .ok (none, m)
    | some bytes => do
      let (loaded, m) ← loadHeader pgdir file (proghdr bytes) sz m
      match loaded with
      | none => .ok (none, m)
      | some sz => headerLoop pgdir file rounds (uint32 (off + 32)) sz m

/-- A loaded program: its page directory, the size and the entry point. -/
structure Image where
  pgdir : Nat
  sz : Nat
  entry : Nat

/-- From the ELF header to `end_op`; `none` has gone through `bad`. -/
def load (m : Memory) (file : File) : Except Stop (Option Image × Memory) :=
  match file.read 0 52 with
  | none => .ok (none, m)
  | some bytes =>
    let elf := elfhdr bytes
    if elf.magic ≠ ELF_MAGIC then .ok (none, m)
    else do
      let (pgdir, m) ← setupkvm m
      if pgdir = 0 then .ok (none, m)
      else do
        let (loaded, m) ← headerLoop pgdir file elf.phnum elf.phoff 0 m
        match loaded with
        | some sz => .ok (some { pgdir, sz, entry := elf.entry }, m)
        | none => do
          let m ← freevm m pgdir
          .ok (none, m)

/-! ### The stack -/

/-- `uva2ka`: whether it finds a page. The kernel half is mapped without `PTE_U` up to `PHYSTOP` and
from `DEVSPACE` on; where there is no page table `uva2ka` reads through a null pointer. -/
def uva2ka (m : Memory) (pgdir uva : Nat) : Except Stop Bool :=
  if uva < KERNBASE then
    match walkpgdir m pgdir uva false with
    | none => .error .null
    | some m => .ok ((m.pte pgdir uva).any Pte.user)
  else if uva < KERNBASE + PHYSTOP ∨ DEVSPACE ≤ uva then .ok false
  else .error .null

/-- The loop of `copyout`, with a bound on the rounds left; `false` is the return value -1. -/
def copyLoop (m : Memory) (pgdir : Nat) : Nat → Nat → Nat → Except Stop Bool
  | 0, _, len => if len = 0 then .ok true else .error .loop
  | rounds + 1, va, len =>
    if len = 0 then .ok true
    else do
      let va0 := PGROUNDDOWN va
      let found ← uva2ka m pgdir va0
      if found then copyLoop m pgdir rounds (uint32 (va0 + PGSIZE)) (len - min (PGSIZE - (va - va0)) len)
      else .ok false

def copyout (m : Memory) (pgdir va len : Nat) : Except Stop Bool :=
  copyLoop m pgdir (len / PGSIZE + 2) va len

/-- The loop over `argv`: the number of arguments and the stack pointer; `none` goes to `bad`. -/
def pushArgs (m : Memory) (pgdir : Nat) : List (List Byte) → Nat → Nat → Except Stop (Option (Nat × Nat))
  | [], argc, sp => .ok (some (argc, sp))
  | arg :: rest, argc, sp =>
    if argc ≥ MAXARG then .ok none
    else do
      let sp := uint32 (sp - (arg.length + 1)) / 4 * 4
      let copied ← copyout m pgdir sp (arg.length + 1)
      if copied then pushArgs m pgdir rest (argc + 1) sp else .ok none

/-- The arguments and `ustack`: the stack pointer. -/
def pushStack (m : Memory) (pgdir sp : Nat) (argv : List (List Byte)) : Except Stop (Option Nat) := do
  match ← pushArgs m pgdir argv 0 sp with
  | none => .ok none
  | some (argc, sp) =>
    let sp := uint32 (sp - (3 + argc + 1) * 4)
    let copied ← copyout m pgdir sp ((3 + argc + 1) * 4)
    if copied then .ok (some sp) else .ok none

/-- From the stack pages at `base` to the last `copyout`: the size and the stack pointer; `none` has
gone through `bad`. -/
def makeStack (m : Memory) (pgdir base : Nat) (argv : List (List Byte)) :
    Except Stop (Option (Nat × Nat) × Memory) := do
  let (sz, m) ← allocuvm m pgdir base (uint32 (base + 2 * PGSIZE))
  if sz = 0 then do
    let m ← freevm m pgdir
    .ok (none, m)
  else do
    let m ← clearpteu m pgdir (uint32 (sz - 2 * PGSIZE))
    match ← pushStack m pgdir sz argv with
    | none => do
      let m ← freevm m pgdir
      .ok (none, m)
    | some sp => .ok (some (sz, sp), m)

/-! ### The call -/

structure Trapframe where
  eip : Nat
  esp : Nat

/-- The process table with the names and the trap frames. -/
structure Host where
  k : Kernel
  name : Slot → List Byte
  tf : Slot → Trapframe

/-- The last element of a path, cut off to fit `curproc->name`. -/
def programName (path : List Byte) : List Byte :=
  ((path.reverse.takeWhile (· ≠ 0x2f)).reverse).take 15

/-- `exec(path, argv)`; `ip` is what `namei(path)` finds. -/
def exec (s : Host) (cur : Slot) (path : List Byte) (ip : Option File) (argv : List (List Byte)) :
    Except Stop (Outcome × Host) :=
  if s.k.killed cur then .ok (.returns (-1), s)
  else do
    let k ← sleepOtherThreads s.k cur
    match ip with
    | none => .ok (.returns (-1), { s with k })
    | some file => do
      let (loaded, mem) ← load k.mem file
      match loaded with
      | none => .ok (.returns (-1), { s with k := { k with mem } })
      | some image => do
        let base := PGROUNDUP image.sz
        let k := { k with originalbase := update k.originalbase cur base }
        let (stack, mem) ← makeStack mem image.pgdir base argv
        match stack with
        | none => .ok (.returns (-1), { s with k := { k with mem } })
        | some (sz, sp) => do
          let committed := { k with mem, pgdir := update k.pgdir cur image.pgdir, sz := update k.sz cur sz }
          let (outcome, k) ← execCommit committed cur (k.pgdir cur)
          .ok (outcome,
            { k
              name := update s.name cur (programName path)
              tf := update s.tf cur { eip := image.entry, esp := sp } })

end Xv6.Exec
