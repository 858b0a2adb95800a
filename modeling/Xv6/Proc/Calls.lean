import Xv6.Lib.System
import Xv6.Proc.Thread

/-!
# Sequences of calls

The process system calls one after the other: any thread that is ready may make any call,
and the call runs until it returns or goes to sleep. The sections of `Proc.Thread` are put
together as the code does. Starting state is the one `userinit` leaves.
-/

namespace Xv6.Proc

open Function (update)
open Vm

/-! ### Whole calls -/

def fork (k : Kernel) (cur : Slot) : Except Stop (Int × Kernel) := do
  match ← allocproc k with
  | (none, k) => .ok (-1, k)
  | (some np, k) => forkCopy k cur np

/-- `thread_create(&thread, start_routine, arg)`. -/
def threadCreate (k : Kernel) (cur : Slot) : Except Stop (Int × Kernel) := do
  match ← allocproc k with
  | (none, k) => .ok (-1, k)
  | (some np, k) => do
    match ← createStack k cur np with
    | (false, k) => .ok (-1, k)
    | (true, k) => createLink k cur np

/-- `exit()` once the first part has come to an end. -/
def exitFinish (cur : Slot) : Outcome × Kernel → Except Stop (Outcome × Kernel)
  | (.sleeps, k) => .ok (.sleeps, k)
  | (.returns _, k) => do
    let k ← exitTail k cur
    .ok (.returns 0, k)

def exec (k : Kernel) (cur : Slot) (program : Option Program) : Except Stop (Outcome × Kernel) :=
  if k.killed cur then .ok (.returns (-1), k)
  else do
    let k ← sleepOtherThreads k cur
    match ← execLoad k cur program with
    | (none, k) => .ok (.returns (-1), k)
    | (some oldpgdir, k) => execCommit k cur oldpgdir

inductive Call where
  | fork
  | threadCreate
  | threadExit (retval : Nat)
  | threadJoin (thread : Nat)
  | exit
  | wait
  | exec (program : Option Program)
  | sbrk (n : Int)
  /-- go on with the call in which the thread has slept -/
  | resume
  deriving DecidableEq

/-- A call that returns without sleeping. -/
def returning : Int × Kernel → Outcome × Kernel
  | (value, k) => (.returns value, k)

/-- After `sched()` in `sleep`: `p->chan = 0`. -/
def clearChan (k : Kernel) (cur : Slot) : Kernel := { k with chan := update k.chan cur none }

/-- A thread woken in a call goes around the loop again. -/
def resume (k : Kernel) (cur : Slot) : Except Stop (Outcome × Kernel) :=
  match k.context cur with
  | .join thread found => joinPass (clearChan k cur) cur thread found
  | .exitReap => do exitFinish cur (← exitReap (clearChan k cur) cur)
  | .wait => waitPass (clearChan k cur) cur
  | _ => .ok (.returns 0, k)

def call (k : Kernel) (cur : Slot) : Call → Except Stop (Outcome × Kernel)
  | .fork => do .ok (returning (← fork k cur))
  | .threadCreate => do .ok (returning (← threadCreate k cur))
  | .threadExit retval => do .ok (.returns 0, ← threadExit k cur retval)
  | .threadJoin thread => joinPass k cur thread false
  | .exit => do exitFinish cur (← exitStart k cur)
  | .wait => waitPass k cur
  | .exec program => exec k cur program
  | .sbrk n => do .ok (returning (← growproc k cur n))
  | .resume => resume k cur

/-! ### Who may call -/

/-- A ready thread in user mode calls what it likes, unless it has been killed: then all it
does is exit. A thread woken in a call goes on with it. -/
def Ready (k : Kernel) (cur : Slot) (c : Call) : Prop :=
  k.state cur = .RUNNABLE ∧
    match c with
    | .resume => k.context cur ≠ .user
    | .exit => k.context cur = .user
    | _ => k.context cur = .user ∧ k.killed cur = false

instance (k : Kernel) (cur : Slot) (c : Call) : Decidable (Ready k cur c) := by
  unfold Ready
  exact match c with
    | .resume => inferInstance
    | .exit => inferInstance
    | .fork | .threadCreate | .threadExit _ | .threadJoin _ | .wait | .exec _ | .sbrk _ => inferInstance

/-- The thread is put on the CPU, and taken off it after the call. -/
def takeOff (k : Kernel) (cur : Slot) : Outcome → Kernel
  | .sleeps => k
  | .returns _ =>
    { k with
      context := update k.context cur .user
      state := if k.state cur = .RUNNING then update k.state cur .RUNNABLE else k.state }

def step (k : Kernel) : Slot × Call → Option Kernel
  | (cur, c) =>
    if Ready k cur c then
      match call { k with state := update k.state cur .RUNNING } cur c with
      | .ok (outcome, k) => some (takeOff k cur outcome)
      | .error _ => none
    else none

/-! ### The first process -/

/-- All of the kernel's data is zero; `free` is what `kinit` has put on the free list. -/
def zeroed (free : List Nat) : Kernel :=
  { state := fun _ => .UNUSED
    pid := fun _ => 0
    parent := fun _ => none
    chan := fun _ => none
    killed := fun _ => false
    context := fun _ => .user
    kstack := fun _ => 0
    pgdir := fun _ => 0
    sz := fun _ => 0
    originalbase := fun _ => 0
    tid := fun _ => 0
    retval := fun _ => 0
    master := fun _ => none
    emptystacks := fun _ _ => 0
    emptystackcnt := fun _ => 0
    threads := { next := fun _ => none, prev := fun _ => none }
    turn := fun _ => none
    schedmode := fun _ => .default
    path := fun _ => 0
    fixedshare := fun _ => 0
    pathlevel := fun _ => 0
    mnode := fun _ => none
    nextpid := 1
    nexttid := 1
    initproc := 0
    ptableLock := false
    memlock := false
    mem := { free := free, dirs := fun _ => { tables := fun _ => none, kernel := [] } }
    defaultStride := 0
    defaultPath := 0
    defaultHighpr := none
    fixedmin := none
    mlfq :=
      { links := { next := fun _ => none, prev := fun _ => none }
        self := fun _ => none
        state := fun _ => .unused
        level := fun _ => 0
        execTime := fun _ => 0
        headers := fun _ => none
        highpr := none
        sliceCnt := 0
        tickCnt := 0
        allottime := fun _ => 0
        slice := fun _ => 0
        path := 0
        stride := 0 } }

/-- `userinit`: the page table and size of the first process. -/
def firstImage (k : Kernel) (p : Slot) (pgdir : Nat) (mem : Memory) : Kernel :=
  { k with
    initproc := p
    mem := mem
    pgdir := update k.pgdir p pgdir
    sz := update k.sz p PGSIZE }

/-- `userinit`: the first process is ready. -/
def firstReady (k : Kernel) (p : Slot) : Kernel :=
  { k with
    state := update k.state p .RUNNABLE
    schedmode := update k.schedmode p .default
    turn := update k.turn p (some p) }

/-- `userinit` after `allocproc`. -/
def userinitAt (k : Kernel) (p : Slot) : Except Stop Kernel := do
  let (pgdir, mem) ← setupkvm k.mem
  if pgdir = 0 then .error (.panic .userinit)
  else do
    let mem ← inituvm mem pgdir
    let k ← acquire (firstImage k p pgdir mem)
    let k ← updatevals (firstReady k p)
    .ok (release { k with pathlevel := update k.pathlevel p (getminpathlevel k) })

def userinit (free : List Nat) : Except Stop Kernel := do
  match ← allocproc (zeroed free) with
  | (none, _) => .error .null
  | (some p, k) => userinitAt k p

/-- The process system calls, one after the other, from the first process on. -/
def calls : System Kernel (Slot × Call) where
  init k := ∃ free, userinit free = .ok k
  step := step

theorem reach_of_run (ok : Kernel → Slot × Call → Prop) [∀ k a, Decidable (ok k a)]
    (free : List Nat) (labels : List (Slot × Call)) {P : Kernel → Bool}
    (ran : ((userinit free).toOption.bind (calls.exec ok labels)).any P = true) :
    ∃ k, calls.Reach ok k ∧ P k = true := by
  cases booted : userinit free with
  | error why => simp [booted, Except.toOption] at ran
  | ok k₀ =>
    simp only [booted, Except.toOption, Option.bind_some] at ran
    exact System.Reach.of_exec (S := calls) ok labels ⟨free, booted⟩ ran

end Xv6.Proc
