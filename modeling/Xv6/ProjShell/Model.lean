import Mathlib.Data.List.TakeWhile
import Xv6.Lib.Bytes
import Xv6.Lib.Steps

/-!
# The command line of the project shell

`LeftRightTrim`, `CommandParser` and `ForkAndExec` of `proj_shell/src/shell.c`. The counts of a first pass
over the line are the sizes of the arrays that the other passes fill. A write past the end of an array is
made all the same, and the array remembers every index that was written. `malloc` and `fork` succeed.
-/

namespace Xv6.ProjShell

open Bytes

/-- What must not happen while a line is handled. -/
inductive Fault where
  /-- A byte after the terminating NUL is read. -/
  | pastEnd
  /-- A cell that nothing was stored in is used. -/
  | unset
  /-- A loop goes on for longer than the text it goes over. -/
  | loop
  deriving DecidableEq, Repr

/-- `input[i]`: the NUL that ends the string can be read, no byte after it. -/
def charAt (input : List Byte) (i : Nat) : Except Fault Byte :=
  if i < input.length then .ok (input.getD i 0) else if i = input.length then .ok 0 else .error .pastEnd

/-- An array from `malloc`: its size in elements, what its cells hold and the indices written so far. -/
structure Block (α : Type) where
  size : Nat
  cell : Nat → Option α
  written : List Nat

namespace Block

variable {α : Type}

def malloc (size : Nat) : Block α where
  size := size
  cell := fun _ => none
  written := []

def write (b : Block α) (i : Nat) (a : α) : Block α :=
  { b with cell := Function.update b.cell i (some a), written := b.written ++ [i] }

def read (b : Block α) (i : Nat) : Except Fault α :=
  match b.cell i with
  | some a => .ok a
  | none => .error .unset

end Block

/-- `isspace` in the C locale: the blank, and tab, line feed, vertical tab, form feed and carriage return. -/
def isspace (c : Byte) : Bool :=
  c == 0x20 || (0x09 ≤ c && c ≤ 0x0d)

def isSemicolon (c : Byte) : Bool := c == 0x3b

/-- The delimiters of the words of a command: line feed, tab and blank. -/
def isDelimiter (c : Byte) : Bool :=
  c == 0x0a || c == 0x09 || c == 0x20

section Trim

/-- The left side of the trim: how many bytes the string starts later. -/
def startIndex : List Byte → Nat
  | [] => 0
  | c :: input => if isspace c then startIndex input + 1 else 0

/-- The right side of the trim, from index `i - 1` down: blanks become NULs. -/
def clearRight (input : List Byte) : Nat → List Byte
  | 0 => input
  | i + 1 => if isspace (input.getD i 0) then clearRight (input.set i 0) i else input

def leftRightTrim (input : CString) : CString where
  bytes := cstr ((clearRight input.bytes input.bytes.length).drop (startIndex input.bytes))
  terminated mem := by simpa [cstr] using List.mem_takeWhile_imp mem

end Trim

section Count

/-- The variables of the counting loop. -/
structure Count where
  numOfCommands : Nat := 1
  numOfCommandsAndArgs : Nat := 1
  semicolonFlag : Bool := false
  spaceOrSemicolonFlag : Bool := false
  deriving DecidableEq, Repr

/-- What commands and words are told apart by. -/
def isSeparator (c : Byte) : Bool :=
  isspace c || isSemicolon c

/-- The inner loop: `i` moves over a run of separators. -/
def skipLoop (input : List Byte) : Nat → Nat → Bool → Except Fault (Nat × Bool)
  | 0, _, _ => .error .loop
  | fuel + 1, i, semicolonFlag => do
    let c ← charAt input i
    if isSeparator c then skipLoop input fuel (i + 1) (semicolonFlag || isSemicolon c) else .ok (i, semicolonFlag)

def countLoop (input : List Byte) : Nat → Nat → Count → Except Fault Count
  | 0, _, _ => .error .loop
  | fuel + 1, i, n =>
    if i < input.length then do
      let c ← charAt input i
      let spaceOrSemicolonFlag := n.spaceOrSemicolonFlag || isSeparator c
      let (i, semicolonFlag) ← skipLoop input (input.length + 1) i n.semicolonFlag
      if semicolonFlag then
        countLoop input fuel (i + 1)
          { numOfCommands := n.numOfCommands + 1
            numOfCommandsAndArgs := n.numOfCommandsAndArgs + 1
            semicolonFlag := false
            spaceOrSemicolonFlag := false }
      else if spaceOrSemicolonFlag then
        countLoop input fuel (i + 1)
          { n with numOfCommandsAndArgs := n.numOfCommandsAndArgs + 1, semicolonFlag, spaceOrSemicolonFlag := false }
      else countLoop input fuel (i + 1) { n with semicolonFlag, spaceOrSemicolonFlag }
    else .ok n

end Count

section Fill

/-- `strtok`: the next token and the text after the delimiter that ends it. -/
def strtok (delim : Byte → Bool) (s : List Byte) : Option (List Byte × List Byte) :=
  match s.dropWhile delim with
  | [] => none
  | c :: s => some (c :: s.takeWhile (!delim ·), (s.dropWhile (!delim ·)).tail)

/-- The loop that stores token after token, with the counter it leaves. -/
def storeLoop {α : Type} (delim : Byte → Bool) (store : List Byte → α) :
    Nat → List Byte → Nat → Block α → Except Fault (Nat × Block α)
  | 0, _, _, _ => .error .loop
  | fuel + 1, s, counter, block =>
    match strtok delim s with
    | none => .ok (counter, block)
    | some (parser, s) => storeLoop delim store fuel s (counter + 1) (block.write counter (store parser))

/-- What the last pass fills: the words of the commands, each command's ended by `NULL`, and where each
command starts. -/
structure Filled where
  commandsAndArguments : Block (Option (List Byte))
  argsCounter : Nat
  commandIndex : Block Nat
  indexCounter : Nat

/-- One round of the last pass. -/
def fillCommand (f : Filled) (command : List Byte) : Except Fault Filled :=
  match strtok isDelimiter command with
  -- the `continue` leaves the round before `g_commands_num--`
  | none => .ok f
  | some (parser, s) => do
    let commandsAndArguments := f.commandsAndArguments.write f.argsCounter (some parser)
    let commandIndex := f.commandIndex.write f.indexCounter f.argsCounter
    let (argsCounter, commandsAndArguments) ←
      storeLoop isDelimiter some (s.length + 1) s (f.argsCounter + 1) commandsAndArguments
    .ok
      { commandsAndArguments := commandsAndArguments.write argsCounter none
        argsCounter := argsCounter + 1
        commandIndex
        indexCounter := f.indexCounter + 1 }

/-- What `CommandParser` leaves, with the array of the pieces that it frees at its end. -/
structure Parsed where
  gCommandsNum : Nat
  commands : Block (List Byte)
  commandIndex : Block Nat
  commandsAndArguments : Block (Option (List Byte))

def commandParser (line : CString) : Except Fault Parsed := do
  let input := (leftRightTrim line).bytes
  let n ← countLoop input (input.length + 1) 0 {}
  let (commandsCounter, commands) ←
    storeLoop isSemicolon id (input.length + 1) input 0 (Block.malloc n.numOfCommands)
  let filled ← (List.range commandsCounter).foldlM (fun f i => do fillCommand f (← commands.read i))
    { commandsAndArguments := Block.malloc n.numOfCommandsAndArgs
      argsCounter := 0
      commandIndex := Block.malloc n.numOfCommands
      indexCounter := 0 }
  .ok
    { gCommandsNum := commandsCounter
      commands
      commandIndex := filled.commandIndex
      commandsAndArguments := filled.commandsAndArguments }

end Fill

section Exec

/-- The argument vector at `k`: the words up to the next `NULL`. -/
def argv (words : Block (Option (List Byte))) : Nat → Nat → Except Fault (List (List Byte))
  | 0, _ => .error .loop
  | fuel + 1, k => do
    match ← words.read k with
    | none => .ok []
    | some word => do
      let rest ← argv words fuel (k + 1)
      .ok (word :: rest)

/-- `ForkAndExec`: the argument vectors that the children hand to `execvp`, in the order of the children. -/
def forkAndExec (p : Parsed) : Except Fault (List (List (List Byte))) :=
  (List.range p.gCommandsNum).mapM fun i => do
    let k ← p.commandIndex.read i
    argv p.commandsAndArguments (p.commandsAndArguments.written.length + 1) k

end Exec

end Xv6.ProjShell
