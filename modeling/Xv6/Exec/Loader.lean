import Xv6.Exec.Copyout
import Xv6.Vm.Copy

/-!
# The loader of `exec` with the bytes it loads

From the ELF header to the stack pages, on a memory with the contents of its frames.
-/

namespace Xv6.Exec.Contents

open Function (update)
open Bytes (Byte)
open Proc Regions Steps Vm

variable {m : Memory} {r r' : Ram} {pgdir sz addr : Nat} {file : File}

/-! ### The code -/

/-- The loop of `loaduvm`. An entry that is not present has the frame number 0. -/
def loadLoop (pgdir addr : Nat) (file : File) (offset sz : Nat) : Nat → Nat → Ram → Except Stop (Bool × Ram)
  | 0, _, r => .ok (true, r)
  | rounds + 1, i, r =>
    match walkpgdir r.mem pgdir (addr + i) false with
    | none => .error (.panic .loaduvmAddress)
    | some _ =>
      let pa := ((r.mem.pte pgdir (addr + i)).map Pte.frame).getD 0
      let n := min (sz - i) PGSIZE
      match file.readi (uint32 (offset + i)) n with
      | none => .ok (false, r)
      | some bytes =>
        -- `readi` has stored what there is, even when it is too short
        let r := memmove r pa 0 bytes
        if bytes.length = n then loadLoop pgdir addr file offset sz rounds (i + PGSIZE) r else .ok (false, r)

def loaduvm (r : Ram) (pgdir addr : Nat) (file : File) (offset sz : Nat) : Except Stop (Bool × Ram) :=
  if addr % PGSIZE ≠ 0 then .error (.panic .loaduvmAligned)
  else loadLoop pgdir addr file offset sz ((sz + PGSIZE - 1) / PGSIZE) 0 r

def loadHeader (pgdir : Nat) (file : File) (ph : Proghdr) (sz : Nat) (r : Ram) : Except Stop (Option Nat × Ram) :=
  if ph.type ≠ ELF_PROG_LOAD then .ok (some sz, r)
  else if ph.memsz < ph.filesz then .ok (none, r)
  else if uint32 (ph.vaddr + ph.memsz) < ph.vaddr then .ok (none, r)
  else do
    let (sz, r) ← r.allocuvm pgdir sz (uint32 (ph.vaddr + ph.memsz))
    if sz = 0 then .ok (none, r)
    else if ph.vaddr % PGSIZE ≠ 0 then .ok (none, r)
    else do
      let (loaded, r) ← loaduvm r pgdir ph.vaddr file ph.off ph.filesz
      if loaded then .ok (some sz, r) else .ok (none, r)

def headerLoop (pgdir : Nat) (file : File) : Nat → Nat → Nat → Ram → Except Stop (Option Nat × Ram)
  | 0, _, sz, r => .ok (some sz, r)
  | rounds + 1, off, sz, r =>
    match file.read off 32 with
    | none => .ok (none, r)
    | some bytes => do
      let (loaded, r) ← loadHeader pgdir file (proghdr bytes) sz r
      match loaded with
      | none => .ok (none, r)
      | some sz => headerLoop pgdir file rounds (uint32 (off + 32)) sz r

def load (r : Ram) (file : File) : Except Stop (Option Image × Ram) :=
  match file.read 0 52 with
  | none => .ok (none, r)
  | some bytes =>
    let elf := elfhdr bytes
    if elf.magic ≠ ELF_MAGIC then .ok (none, r)
    else do
      let (pgdir, r) ← r.setupkvm
      if pgdir = 0 then .ok (none, r)
      else do
        let (loaded, r) ← headerLoop pgdir file elf.phnum elf.phoff 0 r
        match loaded with
        | some sz => .ok (some { pgdir, sz, entry := elf.entry }, r)
        | none => do
          let r ← r.freevm pgdir
          .ok (none, r)

def clearpteu (r : Ram) (pgdir uva : Nat) : Except Stop Ram := do
  let mem ← Vm.clearpteu r.mem pgdir uva
  .ok { r with mem }

/-- The two pages at the next page boundary, the first one not for the user; `none` has gone through
`bad`. -/
def stackPages (r : Ram) (pgdir base : Nat) : Except Stop (Option Nat × Ram) := do
  let (sz, r) ← r.allocuvm pgdir base (uint32 (base + 2 * PGSIZE))
  if sz = 0 then do
    let r ← r.freevm pgdir
    .ok (none, r)
  else do
    let r ← clearpteu r pgdir (uint32 (sz - 2 * PGSIZE))
    .ok (some sz, r)

/-- The loader: up to the first value of `sp`. -/
def loader (r : Ram) (file : File) : Except Stop (Option Image × Ram) := do
  let (loaded, r) ← load r file
  match loaded with
  | none => .ok (none, r)
  | some image => do
    let (top, r) ← stackPages r image.pgdir (PGROUNDUP image.sz)
    .ok (top.map fun sz => { image with sz }, r)

open Ram (tables)

end Xv6.Exec.Contents
