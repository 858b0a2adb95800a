import Xv6.Lib.Bytes
import Xv6.Vm.Frames

/-!
# Memory with the contents of its frames

Here each frame also has its bytes, and the functions of `vm.c` are written down with what they store:
`kfree` fills a frame with ones, `allocuvm` with zeros, and `copyuvm2` copies a page of the parent.
-/

namespace Xv6.Vm

open Function (update)
open Bytes (Byte)

structure Ram where
  mem : Memory
  /-- the bytes of a frame, by their offset -/
  data : Nat → Nat → Byte

namespace Ram

/-! ### Functions of `vm.c` -/

/-- `memset(v, c, PGSIZE)` -/
def memset (r : Ram) (v : Nat) (c : Byte) : Ram := { r with data := update r.data v fun _ => c }

def kfree (r : Ram) (v : Nat) : Ram := { memset r v 1 with mem := Vm.kfree r.mem v }

def setPte (r : Ram) (pgdir va : Nat) (e : Option Pte) : Ram := { r with mem := r.mem.setPte pgdir va e }

/-- A page table is all that `mappages` writes. -/
def mappages (r : Ram) (pgdir va size frame : Nat) (writable user : Bool) : Except Stop (Bool × Ram) := do
  let (mapped, mem) ← Vm.mappages r.mem pgdir va size frame writable user
  .ok (mapped, { r with mem })

def deallocLoop (pgdir oldsz : Nat) : Nat → Nat → Ram → Except Stop Ram
  | 0, _, r => .ok r
  | rounds + 1, a, r =>
    if a < oldsz then
      match walkpgdir r.mem pgdir a false with
      | none => deallocLoop pgdir oldsz rounds ((PDX a + 1) * (1024 * PGSIZE)) r
      | some _ =>
        match r.mem.pte pgdir a with
        | none => deallocLoop pgdir oldsz rounds (a + PGSIZE) r
        | some pte =>
          if pte.frame = 0 then .error (.panic .kfree)
          else deallocLoop pgdir oldsz rounds (a + PGSIZE) ((r.kfree pte.frame).setPte pgdir a none)
    else .ok r

def deallocuvm (r : Ram) (pgdir oldsz newsz : Nat) : Except Stop (Nat × Ram) :=
  if newsz ≥ oldsz then .ok (oldsz, r)
  else do
    let a := PGROUNDUP newsz
    let r ← deallocLoop pgdir oldsz ((oldsz - a) / PGSIZE + 1) a r
    .ok (newsz, r)

def allocLoop (pgdir oldsz newsz : Nat) : Nat → Nat → Ram → Except Stop (Nat × Ram)
  | 0, _, r => .ok (newsz, r)
  | rounds + 1, a, r =>
    match kalloc r.mem with
    | none => do
      let (_, r) ← r.deallocuvm pgdir newsz oldsz
      .ok (0, r)
    | some (mem, m) => do
      let (mapped, r) ← (memset { r with mem := m } mem 0).mappages pgdir a PGSIZE mem true true
      if mapped then allocLoop pgdir oldsz newsz rounds (a + PGSIZE) r
      else do
        let (_, r) ← r.deallocuvm pgdir newsz oldsz
        .ok (0, r.kfree mem)

def allocuvm (r : Ram) (pgdir oldsz newsz : Nat) : Except Stop (Nat × Ram) :=
  if newsz ≥ KERNBASE then .ok (0, r)
  else if newsz < oldsz then .ok (oldsz, r)
  else
    let a := PGROUNDUP oldsz
    allocLoop pgdir oldsz newsz ((newsz - a + PGSIZE - 1) / PGSIZE) a r

def freevm (r : Ram) (pgdir : Nat) : Except Stop Ram :=
  if pgdir = 0 then .error (.panic .freevmNoPgdir)
  else do
    let (_, r) ← r.deallocuvm pgdir KERNBASE 0
    let dir := r.mem.dirs pgdir
    let r := (userTables dir ++ dir.kernel).foldl kfree r
    .ok (kfree { r with mem := { r.mem with dirs := update r.mem.dirs pgdir ⟨fun _ => none, []⟩ } } pgdir)

/-- The page directory and the page tables of the kernel half are no user pages; only frames that are
given back change. -/
def setupkvm (r : Ram) : Except Stop (Nat × Ram) :=
  match kalloc r.mem with
  | none => .ok (0, r)
  | some (pgdir, m) =>
    let (kernel, m) := kernelTables KERNTABLES m
    let r := { r with mem := { m with dirs := update m.dirs pgdir { tables := fun _ => none, kernel } } }
    if kernel.length < KERNTABLES then do
      let r ← r.freevm pgdir
      .ok (0, r)
    else .ok (pgdir, r)

def copyLoop (pgdir d : Nat) : Nat → Nat → Ram → Except Stop (Bool × Ram)
  | 0, _, r => .ok (true, r)
  | rounds + 1, i, r =>
    match walkpgdir r.mem pgdir i false with
    | none => .error (.panic .copyuvmPte)
    | some _ =>
      match r.mem.pte pgdir i with
      | none => copyLoop pgdir d rounds (i + PGSIZE) r
      | some pte =>
        match kalloc r.mem with
        | none => .ok (false, r)
        | some (mem, m) => do
          let (mapped, r) ← mappages { mem := m, data := update r.data mem (r.data pte.frame) }
            d i PGSIZE mem pte.writable pte.user
          if mapped then copyLoop pgdir d rounds (i + PGSIZE) r else .ok (false, r.kfree mem)

def copyuvm2 (r : Ram) (pgdir sz : Nat) : Except Stop (Nat × Ram) := do
  let (d, r) ← r.setupkvm
  if d = 0 then .ok (0, r)
  else do
    let (copied, r) ← copyLoop pgdir d ((sz + PGSIZE - 1) / PGSIZE) 0 r
    if copied then .ok (d, r)
    else do
      let r ← r.freevm d
      .ok (0, r)

/-! ### The page tables

Each function does to the free list and the page tables what the function of `Vm` with its name
does. -/

/-- A result without the contents. -/
abbrev tables {α : Type} (x : Except Stop (α × Ram)) : Except Stop (α × Memory) := x.map (Prod.map id mem)

theorem foldl_kfree_mem (frames : List Nat) (r : Ram) : (frames.foldl kfree r).mem = frames.foldl Vm.kfree r.mem := by
  induction frames generalizing r with
  | nil => rfl
  | cons v frames ih => exact ih (r.kfree v)

theorem mappages_mem (r : Ram) (pgdir va size frame : Nat) (writable user : Bool) :
    tables (r.mappages pgdir va size frame writable user) = Vm.mappages r.mem pgdir va size frame writable user := by
  unfold mappages
  cases Vm.mappages r.mem pgdir va size frame writable user with
  | error e => rfl
  | ok result => rfl

theorem deallocLoop_mem (pgdir oldsz : Nat) : ∀ (rounds a : Nat) (r : Ram),
    (deallocLoop pgdir oldsz rounds a r).map mem = Vm.deallocLoop pgdir oldsz rounds a r.mem := by
  intro rounds
  induction rounds with
  | zero => exact fun a r => rfl
  | succ rounds ih =>
    intro a r
    simp only [deallocLoop, Vm.deallocLoop]
    by_cases below : a < oldsz
    · rw [if_pos below, if_pos below]
      cases walked : walkpgdir r.mem pgdir a false with
      | none => exact ih _ r
      | some m =>
        obtain rfl := walkpgdir_false walked
        cases found : r.mem.pte pgdir a with
        | none => simpa only [found] using ih (a + PGSIZE) r
        | some pte =>
          by_cases null : pte.frame = 0
          · simp only [found, null, if_true]
            rfl
          · simp only [found, null, if_false]
            exact ih (a + PGSIZE) ((r.kfree pte.frame).setPte pgdir a none)
    · rw [if_neg below, if_neg below]
      rfl

theorem deallocuvm_mem (r : Ram) (pgdir oldsz newsz : Nat) :
    tables (r.deallocuvm pgdir oldsz newsz) = Vm.deallocuvm r.mem pgdir oldsz newsz := by
  unfold deallocuvm Vm.deallocuvm
  split
  · rfl
  · exact Steps.map_bind (deallocLoop_mem ..) fun _ => rfl

theorem allocLoop_mem (pgdir oldsz newsz : Nat) : ∀ (rounds a : Nat) (r : Ram),
    tables (allocLoop pgdir oldsz newsz rounds a r) = Vm.allocLoop pgdir oldsz newsz rounds a r.mem := by
  intro rounds
  induction rounds with
  | zero => exact fun a r => rfl
  | succ rounds ih =>
    intro a r
    simp only [allocLoop, Vm.allocLoop]
    cases taken : kalloc r.mem with
    | none => exact Steps.map_bind (deallocuvm_mem ..) fun _ => rfl
    | some pair =>
      obtain ⟨mem, m⟩ := pair
      refine Steps.map_bind (mappages_mem (memset { r with mem := m } mem 0) ..) fun mapped => ?_
      obtain ⟨mapped, r⟩ := mapped
      cases mapped with
      | true => exact ih _ r
      | false => exact Steps.map_bind (deallocuvm_mem ..) fun _ => rfl

theorem allocuvm_mem (r : Ram) (pgdir oldsz newsz : Nat) :
    tables (r.allocuvm pgdir oldsz newsz) = Vm.allocuvm r.mem pgdir oldsz newsz := by
  unfold allocuvm Vm.allocuvm
  split
  · rfl
  · split
    · rfl
    · exact allocLoop_mem ..

theorem freevm_mem (r : Ram) (pgdir : Nat) : (r.freevm pgdir).map mem = Vm.freevm r.mem pgdir := by
  unfold freevm Vm.freevm
  split
  · rfl
  · refine Steps.map_bind (deallocuvm_mem ..) fun ⟨_, r⟩ => ?_
    have freed := foldl_kfree_mem (userTables (r.mem.dirs pgdir) ++ (r.mem.dirs pgdir).kernel) r
    simp only [Prod.map, id]
    rw [← freed]
    rfl

theorem setupkvm_mem (r : Ram) : tables r.setupkvm = Vm.setupkvm r.mem := by
  unfold setupkvm Vm.setupkvm
  cases kalloc r.mem with
  | none => rfl
  | some pair =>
    obtain ⟨pgdir, m⟩ := pair
    simp only
    generalize kernelTables KERNTABLES m = pair
    obtain ⟨kernel, m⟩ := pair
    simp only
    split
    · exact Steps.map_bind (freevm_mem ..) fun _ => rfl
    · rfl

theorem copyLoop_mem (pgdir d : Nat) : ∀ (rounds i : Nat) (r : Ram),
    tables (copyLoop pgdir d rounds i r) = Vm.copyLoop pgdir d rounds i r.mem := by
  intro rounds
  induction rounds with
  | zero => exact fun i r => rfl
  | succ rounds ih =>
    intro i r
    simp only [copyLoop, Vm.copyLoop]
    cases walked : walkpgdir r.mem pgdir i false with
    | none => rfl
    | some m =>
      obtain rfl := walkpgdir_false walked
      cases found : r.mem.pte pgdir i with
      | none => simpa only [found] using ih (i + PGSIZE) r
      | some pte =>
        cases taken : kalloc r.mem with
        | none =>
          simp only [found, taken]
          rfl
        | some pair =>
          obtain ⟨mem, m⟩ := pair
          simp only [found, taken]
          refine Steps.map_bind (mappages_mem ..) fun ⟨mapped, r⟩ => ?_
          cases mapped with
          | true => exact ih _ r
          | false => rfl

end Ram

end Xv6.Vm
