import Xv6.Lib.Bytes
import Xv6.Lib.Steps

/-!
# The shell's parser: `sh.c`

A command line is a buffer of bytes with a NUL behind it; a `char*` into it is its index. The tree points
into the buffer with the two ends of every word. `fuel` bounds the depth of the calls, and an error of its
own says that it did not suffice.
-/

namespace Xv6.Shell

open Bytes

/-- Why no tree is returned. -/
inductive Stop where
  | panic (message : String)
  | loop
  deriving DecidableEq, Repr

/-- The command tree, over what stands for a word. -/
inductive Cmd (ω : Type) where
  | exec (argv : List ω)
  | redir (cmd : Cmd ω) (file : ω) (mode fd : Nat)
  | pipe (left right : Cmd ω)
  | list (left right : Cmd ω)
  | back (cmd : Cmd ω)
  deriving DecidableEq, Repr

/-- The two ends of a word in the buffer: `q` and `eq`. -/
structure Span where
  q : Nat
  eq : Nat
  deriving DecidableEq, Repr

def MAXARGS : Nat := 10

def O_RDONLY : Nat := 0x000
def O_WRONLY : Nat := 0x001
def O_CREATE : Nat := 0x200

section Characters

/-- The characters of `" \\t\\r\\n\\v"`. -/
def whitespace : List Byte := [0x20, 0x09, 0x0d, 0x0a, 0x0b]

def lt : Byte := 0x3c
def bar : Byte := 0x7c
def gt : Byte := 0x3e
def amp : Byte := 0x26
def semi : Byte := 0x3b
def lparen : Byte := 0x28
def rparen : Byte := 0x29

/-- The characters of `"<|>&;()"`. -/
def symbols : List Byte := [lt, bar, gt, amp, semi, lparen, rparen]

/-- What `gettoken` returns for `>>`. -/
def plus : Byte := 0x2b

/-- What `gettoken` returns for a word. -/
def letterA : Byte := 0x61

def isWhite (c : Byte) : Bool := whitespace.contains c

/-- The test of the loop over a word. -/
def isWordChar (c : Byte) : Bool := !whitespace.contains c && !symbols.contains c

end Characters

section Tokens

variable (buf : List Byte)

/-- `*s`, which is NUL at the end of the buffer. -/
def deref (s : Nat) : Byte := buf.getD s 0

def scanLoop (p : Byte → Bool) : Nat → Nat → Nat
  | 0, s => s
  | k + 1, s => if s < buf.length ∧ p (deref buf s) then scanLoop p k (s + 1) else s

/-- `while(s < es && ...) s++`. -/
def scan (p : Byte → Bool) (s : Nat) : Nat := scanLoop buf p (buf.length - s) s

/-- The switch of `gettoken`: what is returned for the token at `s`, and its end. -/
def tokenAt (s : Nat) : Byte × Nat :=
  let c := deref buf s
  if c = 0 then (c, s)
  else if c = bar ∨ c = lparen ∨ c = rparen ∨ c = semi ∨ c = amp ∨ c = lt then (c, s + 1)
  else if c = gt then if deref buf (s + 1) = gt then (plus, s + 2) else (c, s + 1)
  else (letterA, scan buf isWordChar s)

/-- The token, with its ends, and where the next one starts. -/
def gettoken (s : Nat) : Byte × Span × Nat :=
  let q := scan buf isWhite s
  let (ret, eq) := tokenAt buf q
  (ret, ⟨q, eq⟩, scan buf isWhite eq)

/-- Whether the next token starts with one of `toks`, and where. -/
def peek (s : Nat) (toks : List Byte) : Bool × Nat :=
  let s := scan buf isWhite s
  (deref buf s != 0 && toks.contains (deref buf s), s)

end Tokens

section Parser

variable {ω : Type}

/-- The switch of `parseredirs`. -/
def redirect (tok : Byte) (cmd : Cmd ω) (file : ω) : Cmd ω :=
  if tok = lt then .redir cmd file O_RDONLY 0
  else if tok = gt then .redir cmd file (O_WRONLY ||| O_CREATE) 1
  else if tok = plus then .redir cmd file (O_WRONLY ||| O_CREATE) 1
  else cmd

/-- `cmd->argv[argc] = q` for the `EXEC` node that the redirections read so far are put around. -/
def Cmd.push (w : ω) : Cmd ω → Cmd ω
  | .exec argv => .exec (argv ++ [w])
  | .redir cmd file mode fd => .redir (cmd.push w) file mode fd
  | cmd => cmd

variable (buf : List Byte)

def parseredirs : Nat → Cmd Span → Nat → Except Stop (Cmd Span × Nat)
  | 0, _, _ => .error .loop
  | fuel + 1, cmd, s =>
    let (more, s) := peek buf s [lt, gt]
    if more then
      let (tok, _, s) := gettoken buf s
      let (ret, file, s) := gettoken buf s
      if ret ≠ letterA then .error (.panic "missing file for redirection")
      else parseredirs fuel (redirect tok cmd file) s
    else .ok (cmd, s)

/-- The loop of `parseexec`. -/
def argLoop : Nat → Cmd Span → Nat → Nat → Except Stop (Cmd Span × Nat)
  | 0, _, _, _ => .error .loop
  | fuel + 1, ret, argc, s =>
    let (ends, s) := peek buf s [bar, rparen, amp, semi]
    if ends then .ok (ret, s)
    else
      let (tok, word, s) := gettoken buf s
      if tok = 0 then .ok (ret, s)
      else if tok ≠ letterA then .error (.panic "syntax")
      else if argc + 1 ≥ MAXARGS then .error (.panic "too many args")
      else do
        let (ret, s) ← parseredirs buf (buf.length + 1) (ret.push word) s
        argLoop fuel ret (argc + 1) s

/-- The loop of `parseline`. -/
def backLoop : Nat → Cmd Span → Nat → Except Stop (Cmd Span × Nat)
  | 0, _, _ => .error .loop
  | fuel + 1, cmd, s =>
    let (more, s) := peek buf s [amp]
    if more then
      let (_, _, s) := gettoken buf s
      backLoop fuel (.back cmd) s
    else .ok (cmd, s)

mutual

def parseline : Nat → Nat → Except Stop (Cmd Span × Nat)
  | 0, _ => .error .loop
  | fuel + 1, s => do
    let (cmd, s) ← parsepipe fuel s
    let (cmd, s) ← backLoop buf (buf.length + 1) cmd s
    let (more, s) := peek buf s [semi]
    if more then
      let (_, _, s) := gettoken buf s
      let (right, s) ← parseline fuel s
      .ok (.list cmd right, s)
    else .ok (cmd, s)

def parsepipe : Nat → Nat → Except Stop (Cmd Span × Nat)
  | 0, _ => .error .loop
  | fuel + 1, s => do
    let (cmd, s) ← parseexec fuel s
    let (more, s) := peek buf s [bar]
    if more then
      let (_, _, s) := gettoken buf s
      let (right, s) ← parsepipe fuel s
      .ok (.pipe cmd right, s)
    else .ok (cmd, s)

def parseblock : Nat → Nat → Except Stop (Cmd Span × Nat)
  | 0, _ => .error .loop
  | fuel + 1, s => do
    let (starts, s) := peek buf s [lparen]
    if !starts then .error (.panic "parseblock")
    else
      let (_, _, s) := gettoken buf s
      let (cmd, s) ← parseline fuel s
      let (ends, s) := peek buf s [rparen]
      if !ends then .error (.panic "syntax - missing )")
      else
        let (_, _, s) := gettoken buf s
        parseredirs buf (buf.length + 1) cmd s

def parseexec : Nat → Nat → Except Stop (Cmd Span × Nat)
  | 0, _ => .error .loop
  | fuel + 1, s => do
    let (block, s) := peek buf s [lparen]
    if block then parseblock fuel s
    else
      let (ret, s) ← parseredirs buf (buf.length + 1) (.exec []) s
      argLoop buf (buf.length + 1) ret 0 s

end

/-- The NULs are written behind the words; a word that ends with the line has one already. -/
def nulterminate : Cmd Span → List Byte → List Byte
  | .exec argv, buf => argv.foldl (fun buf word => buf.set word.eq 0) buf
  | .redir cmd file _ _, buf => (nulterminate cmd buf).set file.eq 0
  | .pipe left right, buf => nulterminate right (nulterminate left buf)
  | .list left right, buf => nulterminate right (nulterminate left buf)
  | .back cmd, buf => nulterminate cmd buf

/-- The tree and what has become of the buffer. -/
def parsecmd (line : CString) : Except Stop (Cmd Span × List Byte) := do
  let buf := line.bytes
  let (cmd, s) ← parseline buf (4 * buf.length + 4) 0
  let (_, s) := peek buf s []
  if s ≠ buf.length then .error (.panic "syntax") else .ok (cmd, nulterminate cmd buf)

end Parser

end Xv6.Shell
