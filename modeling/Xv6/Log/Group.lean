import Mathlib.Data.Finset.Card
import Mathlib.Data.Fintype.Basic
import Mathlib.Logic.Function.Basic
import Xv6.Lib.System
import Xv6.Param

/-!
# Group commit: `begin_op`, `log_write`, `end_op` and `sync`

The logging calls of `log.c` as a transition system over any number of processes. Each
section under `log.lock`, each unlocked read of `log.lh.n` and each step of `commit()` is
one atomic step; the program counter of a process says between which of them it is.
-/

namespace Xv6.Log

/-- Where a process stands in the logging code. `logged` is what the `write_log` of the
current commit has copied. -/
inductive Pc where
  /-- outside all logging calls -/
  | idle
  /-- `begin_op`: asleep on `&log` -/
  | beginSleep
  /-- `begin_op`: woken, about to test again -/
  | beginWoken
  /-- between `begin_op` and `end_op` -/
  | inOp
  /-- `log_write`: past the unlocked tests, about to record block `b` -/
  | logWrite (b : Nat)
  /-- `end_op`: about to call `sync` -/
  | endSync
  /-- `sync`: has read `log.lh.n > 0`, about to take the lock -/
  | syncEnter
  /-- `sync`: asleep on `&log.sync_chan` -/
  | syncSleep
  /-- `sync`: woken, about to test `log.outstanding` again -/
  | syncWoken
  /-- `commit`: about to test `log.lh.n > 0` -/
  | commitTest
  | writeLog (tail : Nat) (logged : List Nat)
  | writeHead (logged : List Nat)
  | install (tail : Nat) (logged : List Nat)
  /-- `commit`: about to execute `log.lh.n = 0` -/
  | reset (logged : List Nat)
  | clearHead
  /-- `sync`: back from `commit`, about to clear `log.committing` -/
  | syncExit
  deriving DecidableEq

inductive Panic where
  | tooBigTransaction
  | logWriteOutsideOfTrans
  deriving DecidableEq

/-- The shared part of `struct log` and the processes' program counters. -/
structure State (ι : Type) where
  outstanding : Nat
  committing : Bool
  lh : List Nat
  pc : ι → Pc
  halted : Option Panic

/-- What a process does next: start one of the calls, or go on with the one it is in. -/
inductive Act where
  | beginOp
  | logWrite (b : Nat)
  | endOp
  | sync
  | run
  deriving DecidableEq

section Steps

variable {ι : Type} [DecidableEq ι]

def setPc (s : State ι) (p : ι) (c : Pc) : State ι := { s with pc := Function.update s.pc p c }

/-- `wakeup(&log)`. -/
def wakeLog (s : State ι) : State ι :=
  { s with pc := fun q => if s.pc q = .beginSleep then .beginWoken else s.pc q }

/-- `wakeup(&log.sync_chan)`. -/
def wakeSync (s : State ι) : State ι :=
  { s with pc := fun q => if s.pc q = .syncSleep then .syncWoken else s.pc q }

/-- The section of `begin_op`: sleep while a commit is going on or the log might fill up. -/
def beginOp (s : State ι) (p : ι) : State ι :=
  if s.committing then setPc s p .beginSleep
  else if LOGSIZE < s.lh.length + (s.outstanding + 1) * MAXOPBLOCKS then setPc s p .beginSleep
  else setPc { s with outstanding := s.outstanding + 1 } p .inOp

/-- The unlocked tests of `log_write`. -/
def logWriteTest (size : Nat) (s : State ι) (p : ι) (b : Nat) : State ι :=
  if LOGSIZE ≤ s.lh.length ∨ size - 1 ≤ s.lh.length then
    { s with halted := some .tooBigTransaction }
  else if s.outstanding < 1 then { s with halted := some .logWriteOutsideOfTrans }
  else setPc s p (.logWrite b)

/-- The section of `log_write`: a block already recorded is absorbed. -/
def logWrite (s : State ι) (p : ι) (b : Nat) : State ι :=
  setPc { s with lh := if b ∈ s.lh then s.lh else s.lh ++ [b] } p .inOp

/-- The section of `end_op`. -/
def endOp (s : State ι) (p : ι) : State ι :=
  let s := { s with outstanding := s.outstanding - 1 }
  let doCommit := s.outstanding = 0 ∧ LOGSIZE < s.lh.length + MAXOPBLOCKS
  let s := if doCommit then { s with committing := true } else s
  let s := if s.outstanding = 0 then wakeSync s else s
  let s := if s.committing then s else wakeLog s
  setPc s p (if doCommit then .endSync else .idle)

/-- The unlocked test at the top of `sync`. -/
def syncRead (s : State ι) (p : ι) : State ι :=
  setPc s p (if 0 < s.lh.length then .syncEnter else .idle)

/-- The waiting loop of `sync`. -/
def syncWait (s : State ι) (p : ι) : State ι :=
  setPc s p (if s.outstanding ≠ 0 then .syncSleep else .commitTest)

/-- The first section of `sync`. -/
def syncEnter (s : State ι) (p : ι) : State ι := syncWait { s with committing := true } p

/-- The last section of `sync`. -/
def syncExit (s : State ι) (p : ι) : State ι :=
  setPc (wakeLog { s with committing := false }) p .idle

/-- One step of `commit()`. -/
def commitStep (s : State ι) (p : ι) : Pc → Option (State ι)
  | .commitTest => some (setPc s p (if 0 < s.lh.length then .writeLog 0 [] else .syncExit))
  | .writeLog tail logged =>
    some (setPc s p (if h : tail < s.lh.length then .writeLog (tail + 1) (logged ++ [s.lh[tail]])
      else .writeHead logged))
  | .writeHead logged => some (setPc s p (.install 0 logged))
  | .install tail logged =>
    some (setPc s p (if tail < s.lh.length then .install (tail + 1) logged else .reset logged))
  | .reset _ => some (setPc { s with lh := [] } p .clearHead)
  | .clearHead => some (setPc s p .syncExit)
  | _ => none

/-- One atomic step of process `p`. -/
def stepBy (size : Nat) (s : State ι) (p : ι) (act : Act) : Option (State ι) :=
  if s.halted.isSome then none
  else match act with
    | .beginOp => if s.pc p = .idle then some (beginOp s p) else none
    | .logWrite b => if s.pc p = .inOp then some (logWriteTest size s p b) else none
    | .endOp => if s.pc p = .inOp then some (endOp s p) else none
    | .sync => if s.pc p = .idle then some (syncRead s p) else none
    | .run => match s.pc p with
      | .beginWoken => some (beginOp s p)
      | .logWrite b => some (logWrite s p b)
      | .endSync => some (syncRead s p)
      | .syncEnter => some (syncEnter s p)
      | .syncWoken => some (syncWait s p)
      | .syncExit => some (syncExit s p)
      | pc => commitStep s p pc

/-- The sections that a step of `p` may be. -/
inductive Move (size : Nat) (s : State ι) (p : ι) (act : Act) (t : State ι) : Prop where
  | begins : (act = .beginOp ∧ s.pc p = .idle ∨ act = .run ∧ s.pc p = .beginWoken) → t = beginOp s p →
      Move size s p act t
  | tests (b : Nat) : act = .logWrite b → s.pc p = .inOp → t = logWriteTest size s p b →
      Move size s p act t
  | records (b : Nat) : s.pc p = .logWrite b → t = logWrite s p b → Move size s p act t
  | ends : s.pc p = .inOp → t = endOp s p → Move size s p act t
  | reads : (s.pc p = .idle ∨ s.pc p = .endSync) → t = syncRead s p → Move size s p act t
  | enters : s.pc p = .syncEnter → t = syncEnter s p → Move size s p act t
  | waits : s.pc p = .syncWoken → t = syncWait s p → Move size s p act t
  | exits : s.pc p = .syncExit → t = syncExit s p → Move size s p act t
  | commits : commitStep s p (s.pc p) = some t → Move size s p act t

theorem stepBy_move {size : Nat} {s t : State ι} {p : ι} {act : Act}
    (stepped : stepBy size s p act = some t) : Move size s p act t := by
  unfold stepBy at stepped
  split at stepped
  · cases stepped
  · cases act with
    | beginOp =>
      obtain ⟨idle, same⟩ := Option.ite_none_right_eq_some.mp stepped
      exact .begins (.inl ⟨rfl, idle⟩) (Option.some.inj same).symm
    | logWrite b =>
      obtain ⟨isOpen, same⟩ := Option.ite_none_right_eq_some.mp stepped
      exact .tests b rfl isOpen (Option.some.inj same).symm
    | endOp =>
      obtain ⟨isOpen, same⟩ := Option.ite_none_right_eq_some.mp stepped
      exact .ends isOpen (Option.some.inj same).symm
    | sync =>
      obtain ⟨idle, same⟩ := Option.ite_none_right_eq_some.mp stepped
      exact .reads (.inl idle) (Option.some.inj same).symm
    | run =>
      simp only at stepped
      split at stepped
      next here => exact .begins (.inr ⟨rfl, here⟩) (Option.some.inj stepped).symm
      next b here => exact .records b here (Option.some.inj stepped).symm
      next here => exact .reads (.inr here) (Option.some.inj stepped).symm
      next here => exact .enters here (Option.some.inj stepped).symm
      next here => exact .waits here (Option.some.inj stepped).symm
      next here => exact .exits here (Option.some.inj stepped).symm
      · exact .commits stepped

end Steps

/-- The log after `initlog`: recovery has emptied it and no process uses it. -/
def initial (ι : Type) : State ι :=
  { outstanding := 0, committing := false, lh := [], pc := fun _ => .idle, halted := none }

/-- The logging calls of the processes `ι` over a log of `size` blocks. -/
def system (ι : Type) [DecidableEq ι] (size : Nat) : System (State ι) (ι × Act) where
  init s := s = initial ι
  step s label := stepBy size s label.1 label.2

-- runs with two processes
scoped instance (priority := 2000) neZero_two : NeZero 2 := ⟨nofun⟩

/-- Inside `commit()`. -/
def Pc.inCommit : Pc → Bool
  | .commitTest | .writeLog _ _ | .writeHead _ | .install _ _ | .reset _ | .clearHead => true
  | _ => false

/-- From the first locked section of `sync` to the one that clears `log.committing`. -/
def Pc.syncing : Pc → Bool
  | .syncSleep | .syncWoken | .syncExit => true
  | c => c.inCommit

/-- Between `begin_op` and `end_op`; the only places from which `log_write` runs. -/
def Pc.opened : Pc → Bool
  | .inOp | .logWrite _ => true
  | _ => false

end Xv6.Log
