import Xv6.Proc.Calls

/-!
# Arguments of system calls: `syscall.c`

How the kernel takes its arguments from the user stack, and which user memory the calls then read or write.
What a word on the stack holds is up to the user, so the values are arguments here; only their addresses
are checked.
-/

namespace Xv6.Syscall

open Function (update)
open Proc Vm

/-- `sizeof(struct stat)`. -/
abbrev statSize : Nat := 20

/-- User memory that the kernel reads or writes, with the state it does so in. `checked` is false
for a pointer that has not been compared with the size of the process. -/
structure Access where
  k : Kernel
  lo : Nat
  len : Nat
  checked : Bool

/-- `if(curproc->master) curproc->sz = get_highest_master(curproc)->sz`. -/
def syncSize (k : Kernel) (cur : Slot) : Except Stop Kernel :=
  if k.master cur = none then .ok k
  else do
    let hmaster ← getHighestMaster k cur
    .ok { k with sz := update k.sz cur (k.sz hmaster) }

/-- What a check has read from user memory, and whether the call goes on after it. -/
structure Check where
  fetched : List Access
  passed : Bool

/-- A check after a check. -/
def Check.andThen (first second : Check) : Check :=
  if first.passed then { second with fetched := first.fetched ++ second.fetched } else first

/-- A check that reads no user memory. -/
def Check.test (passed : Bool) : Check := { fetched := [], passed }

/-- `fetchint(addr, &i) >= 0`, once the size is up to date. -/
def fetchint (k : Kernel) (cur : Slot) (addr : Nat) : Check :=
  if addr ≥ k.sz cur ∨ uint32 (addr + 4) > k.sz cur then .test false
  else { fetched := [{ k, lo := addr, len := 4, checked := true }], passed := true }

/-- `argint(n, &i) >= 0`, with the stack pointer of the user. -/
def argint (k : Kernel) (cur : Slot) (esp n : Nat) : Check := fetchint k cur (uint32 (esp + 4 + 4 * n))

/-- `argptr(n, &p, size) >= 0` for the word `i` on the stack. -/
def argptr (k : Kernel) (cur : Slot) (esp n i : Nat) (size : Int) : Check :=
  (argint k cur esp n).andThen (.test (¬(size < 0 ∨ i ≥ k.sz cur ∨ uint32 (i + size) > k.sz cur)))

/-- The calls that are given pointers to memory, with the words on the stack. For `read`, `write`
and `fstat` the descriptor may be invalid; the count of `read` and `write` is an `int`. -/
inductive UserCall where
  | read (fd : Bool) (p : Nat) (n : Int)
  | write (fd : Bool) (p : Nat) (n : Int)
  | fstat (fd : Bool) (st : Nat)
  | pipe (fd : Nat)
  | threadCreate (thread fcn arg : Nat)
  | threadJoin (thread retval : Nat)
  /-- a `thread_join` that goes on after its sleep -/
  | rejoin (retval : Nat)

/-- `argfd(0, 0, &f) >= 0`. -/
def argfd (k : Kernel) (cur : Slot) (esp : Nat) (fd : Bool) : Check := (argint k cur esp 0).andThen (.test fd)

/-- The checks in front of the call. -/
def UserCall.check (k : Kernel) (cur : Slot) (esp : Nat) : UserCall → Check
  | read fd p n | write fd p n => ((argfd k cur esp fd).andThen (argint k cur esp 2)).andThen (argptr k cur esp 1 p (wrap32 n))
  | fstat fd st => (argfd k cur esp fd).andThen (argptr k cur esp 1 st statSize)
  | pipe fd => argptr k cur esp 0 fd 8
  | threadCreate thread fcn arg =>
    ((argptr k cur esp 0 thread 4).andThen (argptr k cur esp 1 fcn 4)).andThen (argptr k cur esp 2 arg 4)
  | threadJoin _ _ => (argint k cur esp 0).andThen (argint k cur esp 1)
  | rejoin _ => .test true

/-- The thread call behind the system call. -/
def UserCall.act : UserCall → Option Call
  | threadCreate _ _ _ => some .threadCreate
  | threadJoin thread _ => some (.threadJoin thread)
  | rejoin _ => some .resume
  | _ => none

/-- What the call reads or writes through its pointer; a thread call does so after it has done its
work. -/
def UserCall.block (k : Kernel) : UserCall → Access
  | read _ p n | write _ p n => { k, lo := p, len := (wrap32 n).toNat, checked := true }
  | fstat _ st => { k, lo := st, len := statSize, checked := true }
  | pipe fd => { k, lo := fd, len := 8, checked := true }
  | threadCreate thread _ _ => { k, lo := thread, len := 4, checked := true }
  | threadJoin _ retval | rejoin retval => { k, lo := retval, len := 4, checked := false }

/-- All user memory that the call touches until it returns or goes to sleep. -/
def UserCall.accesses (c : UserCall) (k : Kernel) (cur : Slot) (esp : Nat) : Except Stop (List Access) := do
  let k ← syncSize k cur
  let check := c.check k cur esp
  if check.passed then
    match c.act with
    | none => .ok (check.fetched ++ [c.block k])
    | some act => do
      match ← call k cur act with
      | (.returns 0, k) => .ok (check.fetched ++ [c.block k])
      | _ => .ok check.fetched
  else .ok check.fetched

end Xv6.Syscall
