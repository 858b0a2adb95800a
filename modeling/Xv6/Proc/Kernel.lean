import Mathlib.Data.Int.Notation
import Mathlib.Data.List.FinRange
import Mathlib.Data.Rat.Init
import Mathlib.Tactic.Common
import Xv6.Lib.Chain
import Xv6.Lib.Linked
import Xv6.Vm.Model

/-!
# The process table

`struct proc` field by field: each field is a function on the slots of `ptable.proc`. `context` is where a
thread goes on when it next runs in the kernel. The `double` paths and strides of the scheduler are
rationals. Open files, the working directory, the name and the trap frame are left out.
-/

namespace Xv6.Proc

open Vm

/-- `NPROC`: slots of the process table. -/
abbrev NPROC : Nat := 64

abbrev Slot := Fin NPROC

scoped instance (priority := 2000) neZero_nproc : NeZero NPROC := ⟨nofun⟩

instance lawful_slot : LawfulBEq Slot := inferInstance

/-- The entries of `mlfqnodeslabs`. -/
abbrev Node := Fin (NPROC + 4)

scoped instance (priority := 2000) neZero_nodes : NeZero (NPROC + 4) := ⟨nofun⟩

-- the levels of the queue and its headers
scoped instance (priority := 2000) neZero_levels : NeZero 3 := ⟨nofun⟩

scoped instance (priority := 2000) neZero_headers : NeZero 4 := ⟨nofun⟩

inductive ProcState where
  | UNUSED
  | EMBRYO
  | SLEEPING
  | RUNNABLE
  | RUNNING
  | ZOMBIE
  deriving DecidableEq

/-- `schedmode`: 0 default, 1 fixed share, 2 MLFQ. -/
inductive SchedMode where
  | default
  | share
  | mlfq
  deriving DecidableEq

/-- Sleep channels: a process, or anything else. -/
inductive Chan where
  | proc (p : Slot)
  | other (n : Nat)
  deriving DecidableEq

/-- An executable as `exec` sees it: the ends `vaddr + memsz` of its loadable segments, and
whether the arguments fit on the stack. -/
structure Program where
  segments : List Nat
  argsFit : Bool
  deriving DecidableEq

/-- Where a thread goes on. -/
inductive Context where
  /-- in user mode, or on the way back to it -/
  | user
  /-- `fork`: `allocproc` has returned `np` -/
  | forkCopy (np : Slot)
  /-- `thread_create`: `allocproc` has returned `np` -/
  | createPid (np : Slot)
  /-- `thread_create`: about to take a stack for `np` -/
  | createStack (np : Slot)
  /-- `thread_create`: about to number the thread `np` -/
  | createTid (np : Slot)
  /-- `thread_create`: has read `tid` from `nexttid` -/
  | createCount (np : Slot) (tid : Nat)
  /-- `thread_create`: about to insert `np` into the thread list -/
  | createLink (np : Slot)
  /-- `thread_join`: asleep, with the flag `found` -/
  | join (tid : Nat) (found : Bool)
  /-- `exit`: asleep until the worker threads are gone -/
  | exitReap
  /-- `exit`: past the loop over the worker threads -/
  | exitTail
  /-- `wait`: asleep -/
  | wait
  /-- `exec`: past `sleep_other_threads` -/
  | execLoad (program : Option Program)
  /-- `exec`: committed to the new image -/
  | execCommit (oldpgdir : Nat)
  /-- `exec`: about to free the old image -/
  | execFree (oldpgdir : Nat)
  deriving DecidableEq

/-- `state` of an MLFQ node: 0, 1, -1. -/
inductive NodeState where
  | unused
  | used
  | header
  deriving DecidableEq

/-- The MLFQ nodes, `headers` and `mlfqvmp`. -/
structure Mlfq where
  links : Links Node
  self : Node → Option Slot
  state : Node → NodeState
  level : Node → Fin 3
  execTime : Node → Nat
  headers : Fin 4 → Option Node
  highpr : Option Node
  sliceCnt : Nat
  tickCnt : Nat
  allottime : Fin 3 → Nat
  slice : Fin 3 → Nat
  path : ℚ
  stride : ℚ

structure Kernel where
  state : Slot → ProcState
  pid : Slot → Int
  parent : Slot → Option Slot
  chan : Slot → Option Chan
  killed : Slot → Bool
  context : Slot → Context
  kstack : Slot → Nat
  pgdir : Slot → Nat
  sz : Slot → Nat
  /-- base of the two stack pages -/
  originalbase : Slot → Nat
  tid : Slot → Nat
  retval : Slot → Nat
  master : Slot → Option Slot
  emptystacks : Slot → Nat → Nat
  emptystackcnt : Slot → Nat
  /-- `next_thread` and `prev_thread` -/
  threads : Links Slot
  turn : Slot → Option Slot
  schedmode : Slot → SchedMode
  path : Slot → ℚ
  fixedshare : Slot → Int
  pathlevel : Slot → Int
  mnode : Slot → Option Node
  nextpid : Int
  nexttid : Nat
  initproc : Slot
  /-- `ptable.lock` is held -/
  ptableLock : Bool
  /-- `memlock` is held -/
  memlock : Bool
  mem : Memory
  /-- `defaultvmp` -/
  defaultStride : ℚ
  defaultPath : ℚ
  defaultHighpr : Option Slot
  fixedmin : Option Slot
  mlfq : Mlfq

open Function (update)

/-- The wrap-around of a 32-bit `int`. -/
def wrap32 (n : Int) : Int := n.bmod (2 ^ 32)

/-- The wrap-around of a `uint`. -/
def uint32 (n : Int) : Nat := (n % 2 ^ 32).toNat

/-! ### Locks -/

/-- `acquire(&ptable.lock)`. -/
def acquire (k : Kernel) : Except Stop Kernel :=
  if k.ptableLock then .error .lock else .ok { k with ptableLock := true }

/-- `release(&ptable.lock)`, also by the scheduler after a switch to it. -/
def release (k : Kernel) : Kernel := { k with ptableLock := false }

def acquireMem (k : Kernel) : Except Stop Kernel :=
  if k.memlock then .error .lock else .ok { k with memlock := true }

def releaseMem (k : Kernel) : Kernel := { k with memlock := false }

/-! ### Pointers between processes -/

/-- The loop of `get_highest_master`: more rounds than there are slots means a circle. -/
def getHighestMaster (k : Kernel) (p : Slot) : Except Stop Slot :=
  match Chain.climb k.master NPROC p with
  | some q => .ok q
  | none => .error .loop

/-! ### Sleeping -/

/-- A null channel is equal to the cleared `chan` of a process that sleeps on nothing. -/
def wakeup1 (k : Kernel) (chan : Option Chan) : Kernel :=
  { k with
    state := fun p =>
      if k.state p = .SLEEPING ∧ k.chan p = chan then .RUNNABLE else k.state p }

/-- `sleep(chan, &ptable.lock)` up to the switch; the thread goes on at `context`. -/
def sleep (k : Kernel) (p : Slot) (chan : Chan) (context : Context) : Kernel :=
  release
    { k with
      chan := update k.chan p (some chan)
      state := update k.state p .SLEEPING
      context := update k.context p context }

/-! ### `allocproc` -/

/-- The first `UNUSED` slot. -/
def firstUnused (k : Kernel) : Option Slot :=
  (List.finRange NPROC).find? fun p => k.state p = .UNUSED

/-- `allocproc` takes the slot `p`. -/
def claim (k : Kernel) (p : Slot) : Kernel :=
  { k with
    state := update k.state p .EMBRYO
    pid := update k.pid p k.nextpid
    nextpid := k.nextpid + 1 }

/-- `allocproc` after `ptable.lock` is given back: the kernel stack. -/
def allocKstack (k : Kernel) (p : Slot) : Option Slot × Kernel :=
  match kalloc k.mem with
  | none => (none, { k with state := update k.state p .UNUSED, kstack := update k.kstack p 0 })
  | some (stack, mem) => (some p, { k with mem := mem, kstack := update k.kstack p stack })

/-- `none` is a null pointer. -/
def allocproc (k : Kernel) : Except Stop (Option Slot × Kernel) := do
  let k ← acquire k
  match firstUnused k with
  | none => .ok (none, release k)
  | some p => .ok (allocKstack (release (claim k p)) p)

end Xv6.Proc
