import Mathlib.Data.Nat.Notation
import Mathlib.Logic.Function.Basic
import Xv6.Param

/-!
# Page tables: `vm.c` over `kalloc.c`

Physical memory is the free list of page frames and the page directories, by the frame that
holds them. Of a page directory the user half is kept entry by entry; the kernel half is the
same in every directory, so only the frames of its page tables are recorded. Addresses and
sizes are the code's 32-bit numbers, with null as 0. The contents of user pages are left
out.
-/

namespace Xv6

/-- The panics of the modelled functions. -/
inductive Panic where
  /-- "remap" -/
  | remap
  /-- "kfree" -/
  | kfree
  /-- "freevm: no pgdir" -/
  | freevmNoPgdir
  /-- "clearpteu" -/
  | clearpteu
  /-- "copyuvm: pte should exist" -/
  | copyuvmPte
  /-- "loaduvm: addr must be page aligned" -/
  | loaduvmAligned
  /-- "loaduvm: address should exist" -/
  | loaduvmAddress
  /-- "userinit: out of memory?" -/
  | userinit
  /-- "init exiting" -/
  | initExiting
  /-- "filedup" -/
  | filedup
  /-- "fileclose" -/
  | fileclose
  /-- "iget: no inodes" -/
  | igetNoInodes
  deriving DecidableEq

/-- Why a kernel function does not return. -/
inductive Stop where
  | panic (why : Panic)
  /-- waits for a lock that its holder has left locked -/
  | lock
  /-- follows pointers in a circle -/
  | loop
  /-- dereferences a null pointer -/
  | null
  /-- runs past the end of an array -/
  | bounds
  deriving DecidableEq

namespace Vm

/-- `PGSIZE`: bytes in a page. -/
def PGSIZE : Nat := 4096

/-- `KERNBASE`: the first kernel virtual address. -/
def KERNBASE : Nat := 0x80000000

/-- The page tables of the kernel half: 56 for `KERNBASE..KERNBASE+PHYSTOP` and 8 from
`DEVSPACE` up. -/
def KERNTABLES : Nat := 64

/-- `PDX`: the page directory index of an address. -/
def PDX (va : Nat) : Nat := va / (1024 * PGSIZE)

/-- `PTX`: the page table index of an address. -/
def PTX (va : Nat) : Nat := va / PGSIZE % 1024

def PGROUNDUP (sz : Nat) : Nat := (sz + PGSIZE - 1) / PGSIZE * PGSIZE

def PGROUNDDOWN (a : Nat) : Nat := a / PGSIZE * PGSIZE

/-- A present page table entry: frame, `PTE_W` and `PTE_U`. -/
structure Pte where
  frame : Nat
  writable : Bool
  user : Bool
  deriving DecidableEq

/-- A page table with the frame it stands in. An entry without `PTE_P` is 0. -/
structure PageTable where
  frame : Nat
  entry : Nat → Option Pte

structure PageDir where
  tables : Nat → Option PageTable
  /-- the frames of the page tables of the kernel half -/
  kernel : List Nat

structure Memory where
  /-- `kmem.freelist` -/
  free : List Nat
  /-- the page directories, by their own frame -/
  dirs : Nat → PageDir

/-! ### `kalloc.c` -/

def kalloc (m : Memory) : Option (Nat × Memory) :=
  match m.free with
  | [] => none
  | r :: rest => some (r, { m with free := rest })

def kfree (m : Memory) (v : Nat) : Memory := { m with free := v :: m.free }

/-! ### Entries -/

namespace Memory

/-- `*walkpgdir(pgdir, va, 0)`; without a page table there is no entry. -/
def pte (m : Memory) (pgdir va : Nat) : Option Pte :=
  ((m.dirs pgdir).tables (PDX va)).bind fun table => table.entry (PTX va)

def setTable (m : Memory) (pgdir i : Nat) (table : PageTable) : Memory :=
  { m with
    dirs := Function.update m.dirs pgdir
      { m.dirs pgdir with tables := Function.update (m.dirs pgdir).tables i (some table) } }

/-- Assign to the entry that `walkpgdir` returned. -/
def setPte (m : Memory) (pgdir va : Nat) (e : Option Pte) : Memory :=
  match (m.dirs pgdir).tables (PDX va) with
  | none => m
  | some table =>
    m.setTable pgdir (PDX va) { table with entry := Function.update table.entry (PTX va) e }

end Memory

/-- `none` is a null pointer; otherwise the page table of `va` is there. -/
def walkpgdir (m : Memory) (pgdir va : Nat) (alloc : Bool) : Option Memory :=
  match (m.dirs pgdir).tables (PDX va) with
  | some _ => some m
  | none =>
    if alloc then
      match kalloc m with
      | none => none
      | some (pgtab, m) => some (m.setTable pgdir (PDX va) { frame := pgtab, entry := fun _ => none })
    else none

/-! ### Mapping and unmapping -/

/-- The loop of `mappages`, with the rounds left. -/
def mapLoop (pgdir : Nat) (writable user : Bool) : Nat → Nat → Nat → Memory →
    Except Stop (Bool × Memory)
  | 0, _, _, m => .ok (true, m)
  | rounds + 1, a, frame, m =>
    match walkpgdir m pgdir a true with
    | none => .ok (false, m)
    | some m =>
      if (m.pte pgdir a).isSome then .error (.panic .remap)
      else mapLoop pgdir writable user rounds (a + PGSIZE) (frame + 1)
        (m.setPte pgdir a (some { frame, writable, user }))

/-- `false` is the return value -1. -/
def mappages (m : Memory) (pgdir va size frame : Nat) (writable user : Bool) :
    Except Stop (Bool × Memory) :=
  mapLoop pgdir writable user ((va + size - 1) / PGSIZE - va / PGSIZE + 1) (PGROUNDDOWN va) frame m

/-- `inituvm`: one page at address 0. -/
def inituvm (m : Memory) (pgdir : Nat) : Except Stop Memory :=
  match kalloc m with
  | none => .error .null
  | some (mem, m) => do
    let (_, m) ← mappages m pgdir 0 PGSIZE mem true true
    .ok m

/-- The loop of `deallocuvm`, with a bound on the rounds left: each one goes up at least a
page. -/
def deallocLoop (pgdir oldsz : Nat) : Nat → Nat → Memory → Except Stop Memory
  | 0, _, m => .ok m
  | rounds + 1, a, m =>
    if a < oldsz then
      match walkpgdir m pgdir a false with
      | none => deallocLoop pgdir oldsz rounds ((PDX a + 1) * (1024 * PGSIZE)) m
      | some m =>
        match m.pte pgdir a with
        | none => deallocLoop pgdir oldsz rounds (a + PGSIZE) m
        | some pte =>
          if pte.frame = 0 then .error (.panic .kfree)
          else deallocLoop pgdir oldsz rounds (a + PGSIZE)
            ((kfree m pte.frame).setPte pgdir a none)
    else .ok m

def deallocuvm (m : Memory) (pgdir oldsz newsz : Nat) : Except Stop (Nat × Memory) :=
  if newsz ≥ oldsz then .ok (oldsz, m)
  else do
    let a := PGROUNDUP newsz
    let m ← deallocLoop pgdir oldsz ((oldsz - a) / PGSIZE + 1) a m
    .ok (newsz, m)

/-- The loop of `allocuvm`, with the rounds left. -/
def allocLoop (pgdir oldsz newsz : Nat) : Nat → Nat → Memory → Except Stop (Nat × Memory)
  | 0, _, m => .ok (newsz, m)
  | rounds + 1, a, m =>
    match kalloc m with
    | none => do
      let (_, m) ← deallocuvm m pgdir newsz oldsz
      .ok (0, m)
    | some (mem, m) => do
      let (mapped, m) ← mappages m pgdir a PGSIZE mem true true
      if mapped then allocLoop pgdir oldsz newsz rounds (a + PGSIZE) m
      else do
        let (_, m) ← deallocuvm m pgdir newsz oldsz
        .ok (0, kfree m mem)

def allocuvm (m : Memory) (pgdir oldsz newsz : Nat) : Except Stop (Nat × Memory) :=
  if newsz ≥ KERNBASE then .ok (0, m)
  else if newsz < oldsz then .ok (oldsz, m)
  else
    let a := PGROUNDUP oldsz
    allocLoop pgdir oldsz newsz ((newsz - a + PGSIZE - 1) / PGSIZE) a m

def clearpteu (m : Memory) (pgdir uva : Nat) : Except Stop Memory :=
  match walkpgdir m pgdir uva false with
  | none => .error (.panic .clearpteu)
  | some m => .ok (m.setPte pgdir uva ((m.pte pgdir uva).map fun pte => { pte with user := false }))

/-! ### Whole page tables -/

/-- The frames of the page tables of the user half, lowest index first. -/
def userTables (dir : PageDir) : List Nat :=
  (List.range 512).filterMap fun i => (dir.tables i).map PageTable.frame

def freevm (m : Memory) (pgdir : Nat) : Except Stop Memory :=
  if pgdir = 0 then .error (.panic .freevmNoPgdir)
  else do
    let (_, m) ← deallocuvm m pgdir KERNBASE 0
    let dir := m.dirs pgdir
    let m := (userTables dir ++ dir.kernel).foldl kfree m
    .ok (kfree { m with dirs := Function.update m.dirs pgdir ⟨fun _ => none, []⟩ } pgdir)

/-- Frames for up to `n` page tables of the kernel half, as far as memory lasts. -/
def kernelTables : Nat → Memory → List Nat × Memory
  | 0, m => ([], m)
  | n + 1, m =>
    match kalloc m with
    | none => ([], m)
    | some (pgtab, m) =>
      let (rest, m) := kernelTables n m
      (pgtab :: rest, m)

def setupkvm (m : Memory) : Except Stop (Nat × Memory) :=
  match kalloc m with
  | none => .ok (0, m)
  | some (pgdir, m) =>
    let (kernel, m) := kernelTables KERNTABLES m
    let m := { m with dirs := Function.update m.dirs pgdir { tables := fun _ => none, kernel } }
    if kernel.length < KERNTABLES then do
      let m ← freevm m pgdir
      .ok (0, m)
    else .ok (pgdir, m)

/-- The loop of `copyuvm2`, with the rounds left; `false` goes to `bad`. -/
def copyLoop (pgdir d : Nat) : Nat → Nat → Memory → Except Stop (Bool × Memory)
  | 0, _, m => .ok (true, m)
  | rounds + 1, i, m =>
    match walkpgdir m pgdir i false with
    | none => .error (.panic .copyuvmPte)
    | some m =>
      match m.pte pgdir i with
      | none => copyLoop pgdir d rounds (i + PGSIZE) m
      | some pte =>
        match kalloc m with
        | none => .ok (false, m)
        | some (mem, m) => do
          let (mapped, m) ← mappages m d i PGSIZE mem pte.writable pte.user
          if mapped then copyLoop pgdir d rounds (i + PGSIZE) m else .ok (false, kfree m mem)

def copyuvm2 (m : Memory) (pgdir sz : Nat) : Except Stop (Nat × Memory) := do
  let (d, m) ← setupkvm m
  if d = 0 then .ok (0, m)
  else do
    let (copied, m) ← copyLoop pgdir d ((sz + PGSIZE - 1) / PGSIZE) 0 m
    if copied then .ok (d, m)
    else do
      let m ← freevm m d
      .ok (0, m)

end Vm

end Xv6
