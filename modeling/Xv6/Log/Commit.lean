import Mathlib.Data.List.GetD
import Mathlib.Logic.Function.Basic
import Xv6.Lib.Steps
import Xv6.Param

/-!
# The write-ahead log: commit and recovery

The redo log of `log.c`. Committing copies the pinned cache blocks into the slots, writes the header (the
commit point), copies the slots home and clears the header; recovery does the last two again. A block
write is atomic and the writes reach the disk in program order, so `commit` and `recoverFromLog` are lists
of steps, and a crash keeps the disk as some prefix of the list left it.
-/

namespace Xv6.Log

open Bytes

/-- Where the log lies on the disk: `log.start` and `log.size`. -/
structure Area where
  start : Nat
  size : Nat

/-- The blocks that make up the log: the header and the slots. -/
def Area.Contains (lg : Area) (b : Nat) : Prop := lg.start ≤ b ∧ b < lg.start + lg.size

/-- What the log code works on. `lh` is `log.lh.block[0..n)`, with `log.lh.n` its length:
no function reads an entry past `n`. -/
structure Machine where
  disk : Nat → Block
  cache : Nat → Option Block
  lh : List Nat

/-- `bread`: the cached copy if there is one, else the disk's. -/
def bread (m : Machine) (b : Nat) : Block := (m.cache b).getD (m.disk b)

/-- `bwrite`: the buffer goes to the disk and stays cached. -/
def bwrite (m : Machine) (b : Nat) (data : Block) : Machine :=
  { m with disk := Function.update m.disk b data, cache := Function.update m.cache b (some data) }

/-- The header block as `write_head` fills it: `n` in word 0, the block numbers after it,
the rest of the buffer as it was. -/
def fillHead (buf : Block) (lh : List Nat) : Block :=
  (buf.setWord 0 lh.length).setWords 1 lh.length fun i => lh.getD i 0

/-- `hb->n` of a header block. -/
def headCount (buf : Block) : Nat := buf.word 0

/-- `read_head`: the in-memory header that a header block describes. -/
def readHead (buf : Block) : List Nat :=
  (List.range (headCount buf)).map fun i => buf.word (1 + i)

/-- One round of `write_log`: cache block to log slot. -/
def writeLogAt (lg : Area) (tail : Nat) (m : Machine) : Machine :=
  bwrite m (lg.start + tail + 1) (bread m (m.lh.getD tail 0))

/-- One round of `install_trans`: log slot to home block. -/
def installAt (lg : Area) (tail : Nat) (m : Machine) : Machine :=
  bwrite m (m.lh.getD tail 0) (bread m (lg.start + tail + 1))

def writeHead (lg : Area) (m : Machine) : Machine :=
  bwrite m lg.start (fillHead (bread m lg.start) m.lh)

/-- `log.lh.n = 0`. No block is written. -/
def clearCount (m : Machine) : Machine := { m with lh := [] }

def writeLog (lg : Area) (n : Nat) : List (Machine → Machine) :=
  (List.range n).map (writeLogAt lg)

def installTrans (lg : Area) (n : Nat) : List (Machine → Machine) :=
  (List.range n).map (installAt lg)

/-- The steps of `commit()` on a machine whose header counts `n` blocks. -/
def commit (lg : Area) (n : Nat) : List (Machine → Machine) :=
  if 0 < n then
    writeLog lg n ++ [writeHead lg] ++ installTrans lg n ++ [clearCount, writeHead lg]
  else []

/-- The machine after a reboot and `read_head`: nothing is cached and the header is the
one on the disk. -/
def boot (lg : Area) (disk : Nat → Block) : Machine :=
  { disk := disk, cache := fun _ => none, lh := readHead (disk lg.start) }

/-- The steps of `recover_from_log()` once `read_head` has found `n` blocks. -/
def recoverFromLog (lg : Area) (n : Nat) : List (Machine → Machine) :=
  installTrans lg n ++ [clearCount, writeHead lg]

/-- The disk after the first `k` steps of `commit()`. -/
def crashDuringCommit (lg : Area) (m : Machine) (k : Nat) : Nat → Block :=
  (Steps.run ((commit lg m.lh.length).take k) m).disk

/-- The disk after the first `k` steps of recovery from a reboot. -/
def crashDuringRecovery (lg : Area) (disk : Nat → Block) (k : Nat) : Nat → Block :=
  (Steps.run ((recoverFromLog lg (boot lg disk).lh.length).take k) (boot lg disk)).disk

/-- The disk after recovery has run to its end. -/
def recovered (lg : Area) (disk : Nat → Block) : Nat → Block :=
  (Steps.run (recoverFromLog lg (boot lg disk).lh.length) (boot lg disk)).disk

/-- Recovery, stopped and restarted any number of times, finally run to the end. -/
inductive Recovers (lg : Area) : (Nat → Block) → (Nat → Block) → Prop where
  | finish (disk) : Recovers lg disk (recovered lg disk)
  | again {disk final} (k : Nat) :
      Recovers lg (crashDuringRecovery lg disk k) final → Recovers lg disk final

end Xv6.Log
