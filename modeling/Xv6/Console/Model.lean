import Mathlib.Logic.Function.Basic
import Xv6.Lib.Bytes
import Xv6.Lib.Fifo
import Xv6.Lib.System

/-!
# The console: `console.c`

The input buffer, the interrupt handler `consoleintr` and any number of processes in `consoleread`. Both
hold `cons.lock` except while a reader is in `sleep`: a batch of characters is one step, and so is what a
reader does up to its return or its next sleep. The output side and `procdump` are left out.
-/

namespace Xv6.Console

open Function (update)

open Bytes (Byte)

abbrev INPUT_BUF : Nat := 128

instance : NeZero INPUT_BUF := ⟨by decide⟩

/-- `C(x)`. -/
def C (x : Byte) : Byte := x - 0x40

def ctrlP : Byte := C 0x50
def ctrlU : Byte := C 0x55
def ctrlH : Byte := C 0x48
def ctrlD : Byte := C 0x44
def delete : Byte := 0x7f
def newline : Byte := 0x0a
def carriageReturn : Byte := 0x0d

/-- `input`: the buffer with the read, the write and the edit index. -/
structure Input where
  buf : Fin INPUT_BUF → Byte
  r : BitVec 32
  w : BitVec 32
  e : BitVec 32

namespace Input

/-- `input.buf[k % INPUT_BUF]`. -/
def get (s : Input) (k : BitVec 32) : Byte := s.buf (Fin.ofNat INPUT_BUF k.toNat)

/-- `input.buf[input.e++ % INPUT_BUF] = c`. -/
def store (s : Input) (c : Byte) : Input :=
  { s with buf := update s.buf (Fin.ofNat INPUT_BUF s.e.toNat) c, e := s.e + 1 }

def erase (s : Input) : Input := { s with e := s.e - 1 }

def commit (s : Input) : Input := { s with w := s.e }

end Input

section Interrupt

/-- The test of the loop for `C('U')`. -/
abbrev KillMore (s : Input) : Prop := s.e ≠ s.w ∧ s.get (s.e - 1) ≠ newline

/-- The loop for `C('U')`, for at most `k` rounds. -/
def killLoop : Nat → Input → Input
  | 0, s => s
  | k + 1, s => if KillMore s then killLoop k s.erase else s

/-- The edit index moves down to the write index at most. -/
def killLine (s : Input) : Input := killLoop (s.e - s.w).toNat s

/-- A character is put at the edit index; it commits the line if it ends it or fills the buffer.  Then the
readers are woken. -/
def enter (s : Input) (c : Byte) : Input × Bool :=
  let s := s.store c
  if c = newline ∨ c = ctrlD ∨ s.e = s.r + BitVec.ofNat 32 INPUT_BUF then (s.commit, true) else (s, false)

/-- One round of the loop of `consoleintr`, with whether it wakes the readers. -/
def handle (s : Input) (c : Byte) : Input × Bool :=
  if c = ctrlP then (s, false)
  else if c = ctrlU then (killLine s, false)
  else if c = ctrlH ∨ c = delete then (if s.e ≠ s.w then s.erase else s, false)
  else if c ≠ 0 ∧ (s.e - s.r).toNat < INPUT_BUF then enter s (if c = carriageReturn then newline else c)
  else (s, false)

/-- `consoleintr` on the characters that `getc` gives before it has none. -/
def consoleintr (s : Input) (cs : List Byte) : Input × Bool :=
  cs.foldl (fun went c => ((handle went.1 c).1, went.2 || (handle went.1 c).2)) (s, false)

end Interrupt

section Read

/-- A call of `consoleread` between two sleeps: `n` bytes of `target` are still wanted, `dst` are the bytes
stored so far. -/
structure Call where
  target : Nat
  n : Nat
  dst : List Byte
  deriving DecidableEq, Repr

/-- What is taken out of the buffer: a byte that is stored for the caller, or the end-of-file mark. -/
inductive Taken where
  | byte (c : Byte)
  | eof
  deriving DecidableEq, Repr

inductive Outcome where
  /-- `target - n`, with the bytes at `dst` -/
  | returned (value : Nat) (dst : List Byte)
  /-- -1, in a killed process -/
  | failed (dst : List Byte)
  | asleep (call : Call)
  deriving DecidableEq, Repr

/-- The loop of `consoleread`, up to its end or a `sleep`, with what it takes from the buffer. -/
def readLoop (killed : Bool) (target : Nat) : Nat → List Byte → Input → Input × Outcome × List Taken
  | 0, dst, s => (s, .returned target dst, [])
  | n + 1, dst, s =>
    if s.r = s.w then (s, if killed then .failed dst else .asleep { target, n := n + 1, dst }, [])
    else
      let c := s.get s.r
      let next := { s with r := s.r + 1 }
      if c = ctrlD then
        if n + 1 < target then
          -- saved for next time
          ({ next with r := next.r - 1 }, .returned (target - (n + 1)) dst, [])
        else (next, .returned (target - (n + 1)) dst, [.eof])
      else if c = newline then (next, .returned (target - n) (dst ++ [c]), [.byte c])
      else
        let (s, outcome, taken) := readLoop killed target n (dst ++ [c]) next
        (s, outcome, .byte c :: taken)

/-- The call goes on. -/
def Call.run (call : Call) (killed : Bool) (s : Input) : Input × Outcome × List Taken :=
  readLoop killed call.target call.n call.dst s

/-- `consoleread(ip, dst, n)` at its start; nothing is read for a length that is not positive. -/
def consoleread (n : Int) : Call where
  target := n.toNat
  n := n.toNat
  dst := []

end Read

section Machine

/-- The buffer and its readers.  A reader in `sleep` can go on once it is woken, by the handler or by `kill`. -/
structure Machine (P : Type) where
  input : Input
  asleep : P → Option Call
  woken : P → Bool
  killed : P → Bool

inductive Event (P : Type) where
  | intr (cs : List Byte)
  | read (q : P) (n : Int)
  | resume (q : P)
  | kill (q : P)
  deriving DecidableEq, Repr

variable {P : Type} [DecidableEq P]

namespace Machine

variable (s : Machine P) (q : P)

/-- The reader runs until it returns or sleeps. -/
def go (call : Call) : Machine P × List (P × Taken) :=
  match call.run (s.killed q) s.input with
  | (input, .asleep call, taken) =>
    ({ s with input, asleep := update s.asleep q (some call), woken := update s.woken q false }, taken.map (q, ·))
  | (input, _, taken) => ({ s with input, asleep := update s.asleep q none }, taken.map (q, ·))

def step : Event P → Option (Machine P × List (P × Taken))
  | .intr cs =>
    let (input, wakeup) := consoleintr s.input cs
    some ({ s with input, woken := fun p => s.woken p || wakeup }, [])
  | .read q n => if s.asleep q = none then some (s.go q (consoleread n)) else none
  | .resume q =>
    match s.asleep q with
    | some call => if s.woken q then some (s.go q call) else none
    | none => none
  | .kill q => some ({ s with killed := update s.killed q true, woken := update s.woken q true }, [])

/-- Nothing typed and no reader; the indices are those of a zeroed `input`. -/
structure Fresh : Prop where
  zero : s.input.r = 0 ∧ s.input.w = 0 ∧ s.input.e = 0
  idle : ∀ q, s.asleep q = none

end Machine

end Machine

end Xv6.Console
