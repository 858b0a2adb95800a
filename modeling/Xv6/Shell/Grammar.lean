import Xv6.Shell.Lexer

/-!
# The grammar of the shell

What the parsing functions accept, as a relation between the tokens before, the tree and the tokens behind
it. Two things follow from it: the tree has exactly the words, redirections and operators of the tokens,
and every tree is accepted in its printed form.
-/

namespace Xv6.Shell

open Bytes

variable {ω ω' : Type}

section Tree

namespace Cmd

def map (f : ω → ω') : Cmd ω → Cmd ω'
  | exec argv => .exec (argv.map f)
  | redir cmd file mode fd => .redir (cmd.map f) (f file) mode fd
  | pipe left right => .pipe (left.map f) (right.map f)
  | list left right => .list (left.map f) (right.map f)
  | back cmd => .back (cmd.map f)

/-- The argument words, from left to right. -/
def words : Cmd ω → List ω
  | exec argv => argv
  | redir cmd _ _ _ => cmd.words
  | pipe left right => left.words ++ right.words
  | list left right => left.words ++ right.words
  | back cmd => cmd.words

/-- The redirections, those of a command before those around it. -/
def redirs : Cmd ω → List (ω × Nat × Nat)
  | exec _ => []
  | redir cmd file mode fd => cmd.redirs ++ [(file, mode, fd)]
  | pipe left right => left.redirs ++ right.redirs
  | list left right => left.redirs ++ right.redirs
  | back cmd => cmd.redirs

/-- The operators, each between or behind its operands. -/
def ops : Cmd ω → List Byte
  | exec _ => []
  | redir cmd _ _ _ => cmd.ops
  | pipe left right => left.ops ++ bar :: right.ops
  | list left right => left.ops ++ semi :: right.ops
  | back cmd => cmd.ops ++ [amp]

/-- An `EXEC` node with redirections around it, as `parseexec` has it in hand. -/
def Chain : Cmd ω → Prop
  | exec _ => True
  | redir cmd _ _ _ => cmd.Chain
  | _ => False

variable {cmd : Cmd ω}

theorem Chain.push (chain : cmd.Chain) (w : ω) :
    (cmd.push w).Chain ∧ (cmd.push w).words = cmd.words ++ [w] ∧ (cmd.push w).redirs = cmd.redirs ∧
      (cmd.push w).ops = cmd.ops := by
  induction cmd with
  | exec argv => exact ⟨trivial, rfl, rfl, rfl⟩
  | redir cmd file mode fd ih =>
    obtain ⟨still, words, redirs, ops⟩ := ih chain
    refine ⟨still, words, ?_, ops⟩
    rw [Cmd.push, Cmd.redirs, redirs, Cmd.redirs]
  | pipe | list | back => cases chain

end Cmd

end Tree

section Sequence

/-- The symbols of redirections. -/
def isRedir (c : Byte) : Bool := c == lt || c == gt || c == plus

/-- The mode and the descriptor that go with the symbol of a redirection. -/
def redirMode (c : Byte) : Nat × Nat :=
  if c = lt then (O_RDONLY, 0) else (O_WRONLY ||| O_CREATE, 1)

/-- The argument words of a token sequence; a word behind the symbol of a redirection is a file name. -/
def argsFrom : Bool → List (Tok ω) → List ω
  | _, [] => []
  | true, .word _ :: toks => argsFrom false toks
  | false, .word w :: toks => w :: argsFrom false toks
  | _, .sym c :: toks => argsFrom (isRedir c) toks

def args (toks : List (Tok ω)) : List ω := argsFrom false toks

/-- The redirections of a token sequence. -/
def filesFrom : Option Byte → List (Tok ω) → List (ω × Nat × Nat)
  | _, [] => []
  | some c, .word w :: toks => (w, redirMode c) :: filesFrom none toks
  | none, .word _ :: toks => filesFrom none toks
  | _, .sym c :: toks => filesFrom (if isRedir c then some c else none) toks

def files (toks : List (Tok ω)) : List (ω × Nat × Nat) := filesFrom none toks

/-- The operators of a token sequence: all symbols but parentheses and those of redirections. -/
def operators : List (Tok ω) → List Byte
  | [] => []
  | .word _ :: toks => operators toks
  | .sym c :: toks => if c = bar ∨ c = semi ∨ c = amp then c :: operators toks else operators toks

theorem redirect_eq {k : Byte} (kind : isRedir k = true) (cmd : Cmd ω) (file : ω) :
    redirect k cmd file = .redir cmd file (redirMode k).1 (redirMode k).2 := by
  have cases : k = lt ∨ k = gt ∨ k = plus := by simpa [isRedir, or_assoc] using kind
  rcases cases with rfl | rfl | rfl <;> rfl

theorem opens_redir (c : Byte) (toks : List (Tok ω)) : opens [lt, gt] (.sym c :: toks) = isRedir c := by
  have all : ∀ c : Byte, [lt, gt].contains (firstChar c) = isRedir c := by decide
  exact all c

end Sequence

section Rules

/-- The end of the line, or a symbol out of `set`. -/
def Stops (set : List Byte) (toks : List (Tok ω)) : Prop := toks = [] ∨ opens set toks = true

/-- `parseredirs`. -/
inductive Redirs : Cmd ω → List (Tok ω) → Cmd ω → List (Tok ω) → Prop where
  | done (cmd toks) : opens [lt, gt] toks = false → Redirs cmd toks cmd toks
  | more {cmd k file toks cmd' rest} : isRedir k = true → Redirs (redirect k cmd file) toks cmd' rest →
      Redirs cmd (.sym k :: .word file :: toks) cmd' rest

/-- The loop of `parseexec`. -/
inductive Args : Cmd ω → Nat → List (Tok ω) → Cmd ω → List (Tok ω) → Prop where
  | done (ret argc toks) : Stops [bar, rparen, amp, semi] toks → Args ret argc toks ret toks
  | more {ret argc w toks ret₁ toks₁ ret' rest} : argc + 1 < MAXARGS → Redirs (ret.push w) toks ret₁ toks₁ →
      Args ret₁ (argc + 1) toks₁ ret' rest → Args ret argc (.word w :: toks) ret' rest

/-- The loop of `parseline`. -/
inductive Backs : Cmd ω → List (Tok ω) → Cmd ω → List (Tok ω) → Prop where
  | done (cmd toks) : opens [amp] toks = false → Backs cmd toks cmd toks
  | more {cmd toks cmd' rest} : Backs (.back cmd) toks cmd' rest → Backs cmd (.sym amp :: toks) cmd' rest

/-- The functions that call each other; `parseblock` is part of `parseexec`. -/
inductive Level where
  | exec
  | pipe
  | line

inductive Parses : Level → List (Tok ω) → Cmd ω → List (Tok ω) → Prop where
  | block {toks cmd toks₁ cmd' rest} : Parses .line toks cmd (.sym rparen :: toks₁) → Redirs cmd toks₁ cmd' rest →
      Parses .exec (.sym lparen :: toks) cmd' rest
  | words {toks ret toks₁ ret' rest} : opens [lparen] toks = false → Redirs (.exec []) toks ret toks₁ →
      Args ret 0 toks₁ ret' rest → Parses .exec toks ret' rest
  | last {toks cmd rest} : Parses .exec toks cmd rest → opens [bar] rest = false → Parses .pipe toks cmd rest
  | piped {toks left toks₁ right rest} : Parses .exec toks left (.sym bar :: toks₁) → Parses .pipe toks₁ right rest →
      Parses .pipe toks (.pipe left right) rest
  | single {toks cmd toks₁ cmd' rest} : Parses .pipe toks cmd toks₁ → Backs cmd toks₁ cmd' rest →
      opens [semi] rest = false → Parses .line toks cmd' rest
  | listed {toks cmd toks₁ left toks₂ right rest} : Parses .pipe toks cmd toks₁ →
      Backs cmd toks₁ left (.sym semi :: toks₂) → Parses .line toks₂ right rest →
      Parses .line toks (.list left right) rest

end Rules

section Accounts

/-- What is in the tree and what is still in the tokens: together it stays the same. -/
structure Extends (cmd : Cmd ω) (toks : List (Tok ω)) (cmd' : Cmd ω) (rest : List (Tok ω)) : Prop where
  words : cmd.words ++ args toks = cmd'.words ++ args rest
  redirs : cmd.redirs ++ files toks = cmd'.redirs ++ files rest
  ops : cmd.ops ++ operators toks = cmd'.ops ++ operators rest
  shorter : rest.length ≤ toks.length

variable {cmd cmd' : Cmd ω} {toks rest : List (Tok ω)}

theorem Extends.refl (cmd : Cmd ω) (toks : List (Tok ω)) : Extends cmd toks cmd toks :=
  ⟨rfl, rfl, rfl, Nat.le_refl _⟩

theorem Extends.trans {cmd₁ : Cmd ω} {toks₁ : List (Tok ω)} (first : Extends cmd toks cmd₁ toks₁)
    (second : Extends cmd₁ toks₁ cmd' rest) : Extends cmd toks cmd' rest :=
  ⟨first.words.trans second.words, first.redirs.trans second.redirs, first.ops.trans second.ops,
    second.shorter.trans first.shorter⟩

theorem args_sym {c : Byte} (plain : isRedir c = false) (toks : List (Tok ω)) :
    args (.sym c :: toks) = args toks ∧ files (.sym c :: toks) = files toks := by
  constructor
  · simp only [args, argsFrom, plain]
  · simp only [files, filesFrom, plain, Bool.false_eq_true, if_false]

theorem Extends.paren {c : Byte} (kind : c = lparen ∨ c = rparen) (cmd : Cmd ω) (toks : List (Tok ω)) :
    Extends cmd (.sym c :: toks) cmd toks := by
  have plain : ∀ c, c = lparen ∨ c = rparen → isRedir c = false ∧ ¬ (c = bar ∨ c = semi ∨ c = amp) := by decide
  obtain ⟨words, redirs⟩ := args_sym (plain c kind).1 toks
  refine ⟨by rw [words], by rw [redirs], ?_, Nat.le_succ _⟩
  simp only [operators, if_neg (plain c kind).2]

theorem Extends.operator {op : Byte} {left right : Cmd ω} {toks₁ : List (Tok ω)} (kind : op = bar ∨ op = semi)
    (first : Extends (.exec []) toks left (.sym op :: toks₁)) (second : Extends (.exec []) toks₁ right rest)
    (words : cmd.words = left.words ++ right.words) (redirs : cmd.redirs = left.redirs ++ right.redirs)
    (ops : cmd.ops = left.ops ++ op :: right.ops) : Extends (.exec []) toks cmd rest := by
  have plain : ∀ c, c = bar ∨ c = semi → isRedir c = false ∧ (c = bar ∨ c = semi ∨ c = amp) := by decide
  obtain ⟨skipped, unnamed⟩ := args_sym (plain op kind).1 toks₁
  have shorter := first.shorter.trans' (second.shorter.trans (Nat.le_succ _))
  refine ⟨?_, ?_, ?_, shorter⟩
  · rw [first.words, skipped, words, List.append_assoc]
    exact congrArg (left.words ++ ·) second.words
  · rw [first.redirs, unnamed, redirs, List.append_assoc]
    exact congrArg (left.redirs ++ ·) second.redirs
  · rw [first.ops, ops, operators, if_pos (plain op kind).2, List.append_assoc, List.cons_append]
    exact congrArg (left.ops ++ op :: ·) second.ops

theorem Redirs.extends (redirs : Redirs cmd toks cmd' rest) :
    Extends cmd toks cmd' rest ∧ (cmd.Chain → cmd'.Chain) := by
  induction redirs with
  | done cmd toks _ => exact ⟨.refl cmd toks, id⟩
  | @more cmd k file toks cmd' rest kind _ ih =>
    rw [redirect_eq kind] at ih
    refine ⟨Extends.trans ⟨?_, ?_, ?_, ?_⟩ ih.1, ih.2⟩
    · simp only [args, argsFrom, kind, Cmd.words]
    · simp only [files, filesFrom, kind, if_true, Cmd.redirs, List.append_assoc, List.singleton_append]
    · have plain : ∀ k, isRedir k = true → ¬ (k = bar ∨ k = semi ∨ k = amp) := by decide
      simp only [operators, if_neg (plain k kind), Cmd.ops]
    · simp only [List.length_cons]
      omega

theorem Args.extends {argc : Nat} (parsed : Args cmd argc toks cmd' rest) (chain : cmd.Chain) :
    Extends cmd toks cmd' rest := by
  induction parsed with
  | done ret argc toks _ => exact .refl ret toks
  | @more ret argc w toks ret₁ toks₁ ret' rest _ redirs _ ih =>
    obtain ⟨pushed, words, files, ops⟩ := chain.push w
    obtain ⟨next, still⟩ := redirs.extends
    refine Extends.trans ⟨?_, ?_, ?_, Nat.le_succ _⟩ (next.trans (ih (still pushed)))
    · rw [words, List.append_assoc]
      rfl
    · rw [files]
      rfl
    · rw [ops]
      rfl

theorem Backs.extends (parsed : Backs cmd toks cmd' rest) : Extends cmd toks cmd' rest := by
  induction parsed with
  | done cmd toks _ => exact .refl cmd toks
  | @more cmd toks cmd' rest _ ih =>
    obtain ⟨words, redirs⟩ := args_sym (c := amp) rfl toks
    refine Extends.trans ⟨?_, ?_, ?_, Nat.le_succ _⟩ ih
    · rw [words]
      rfl
    · rw [redirs]
      rfl
    · show cmd.ops ++ amp :: operators toks = cmd.ops ++ [amp] ++ operators toks
      rw [List.append_assoc, List.singleton_append]

/-- The tree of some tokens has their words, redirections and operators, each kind in its order. -/
theorem Parses.extends {level : Level} (parsed : Parses level toks cmd rest) : Extends (.exec []) toks cmd rest := by
  induction parsed with
  | block _ redirs ih =>
    exact (Extends.paren (.inl rfl) _ _).trans (ih.trans ((Extends.paren (.inr rfl) _ _).trans redirs.extends.1))
  | words _ redirs parsed =>
    obtain ⟨next, still⟩ := redirs.extends
    exact next.trans (parsed.extends (still trivial))
  | last _ _ ih => exact ih
  | piped _ _ first second => exact .operator (.inl rfl) first second rfl rfl rfl
  | single _ backs _ ih => exact ih.trans backs.extends
  | listed _ backs _ first second => exact .operator (.inr rfl) (first.trans backs.extends) second rfl rfl rfl

end Accounts

section Printing

/-- The operators that need parentheses as an operand of `<`, `>` and on the left of `|`. -/
def Cmd.compound : Cmd ω → Bool
  | .pipe .. | .list .. | .back .. => true
  | _ => false

/-- The operators that need parentheses on the right of `|`. -/
def Cmd.isLine : Cmd ω → Bool
  | .list .. | .back .. => true
  | _ => false

/-- The operator that needs parentheses on the left of `;` and before `&`. -/
def Cmd.isList : Cmd ω → Bool
  | .list .. => true
  | _ => false

def wrap (parens : Bool) (toks : List (Tok ω)) : List (Tok ω) :=
  if parens then .sym lparen :: (toks ++ [.sym rparen]) else toks

/-- The tokens of a tree in the shell's notation, with parentheses where the grammar needs them. -/
def Cmd.print : Cmd ω → List (Tok ω)
  | .exec argv => argv.map .word
  | .redir cmd file mode _ =>
    wrap cmd.compound cmd.print ++ [.sym (if mode = O_RDONLY then lt else gt), .word file]
  | .pipe left right => wrap left.compound left.print ++ .sym bar :: wrap right.isLine right.print
  | .list left right => wrap left.isList left.print ++ .sym semi :: right.print
  | .back cmd => wrap cmd.isList cmd.print ++ [.sym amp]

/-- What trees can be typed: at most 9 arguments in an `EXEC` node, and redirections as the two symbols make
them. -/
def Cmd.Fits : Cmd ω → Prop
  | .exec argv => argv.length < MAXARGS
  | .redir cmd _ mode fd => cmd.Fits ∧ ((mode, fd) = redirMode lt ∨ (mode, fd) = redirMode gt)
  | .pipe left right => left.Fits ∧ right.Fits
  | .list left right => left.Fits ∧ right.Fits
  | .back cmd => cmd.Fits

/-- `parseexec` accepts the printed tree, with more redirections behind it. -/
def ExecOk (t : Cmd ω) : Prop :=
  ∀ ⦃toks t' rest⦄, Redirs t toks t' rest → Stops [bar, rparen, amp, semi] rest →
    Parses .exec (wrap t.compound t.print ++ toks) t' rest

/-- `parsepipe` accepts it. -/
def PipeOk (t : Cmd ω) : Prop :=
  ∀ ⦃rest⦄, Stops [rparen, amp, semi] rest → Parses .pipe (wrap t.isLine t.print ++ rest) t rest

/-- `parsepipe` and the loop of `parseline` accept it, with more `&` behind it. -/
def BacksOk (t : Cmd ω) : Prop :=
  ∀ ⦃toks t' rest⦄, Backs t toks t' rest → Stops [rparen, amp, semi] toks →
    ∃ cmd toks₁, Parses .pipe (wrap t.isList t.print ++ toks) cmd toks₁ ∧ Backs cmd toks₁ t' rest

/-- `parseline` accepts it. -/
def LineOk (t : Cmd ω) : Prop :=
  ∀ ⦃rest⦄, Stops [rparen] rest → Parses .line (t.print ++ rest) t rest

/-- A tree is accepted in its printed form, by every function, before what can follow there. -/
structure Accepted (t : Cmd ω) : Prop where
  exec : ExecOk t
  pipe : PipeOk t
  backs : BacksOk t
  line : LineOk t

section Stops

variable {set other : List Byte} {toks : List (Tok ω)}

theorem Stops.mono (stops : Stops set toks) (more : ∀ c ∈ set, c ∈ other) : Stops other toks := by
  rcases stops with none | found
  · exact .inl none
  · match toks with
    | .sym c :: toks =>
      simp only [opens, List.contains_iff_mem] at found
      exact .inr (by simpa only [opens, List.contains_iff_mem] using more _ found)

theorem Stops.closed (stops : Stops set toks) (disjoint : ∀ c ∈ set, c ∉ other) : opens other toks = false := by
  rcases stops with rfl | found
  · rfl
  · match toks with
    | .sym c :: toks =>
      simp only [opens, List.contains_iff_mem] at found
      simpa [opens] using disjoint _ found

end Stops

section Accept

variable {t : Cmd ω}

theorem args_words {ws : List ω} (some : ws ≠ []) {before : List ω} {toks rest : List (Tok ω)} {t' : Cmd ω}
    (few : (before ++ ws).length < MAXARGS) (redirs : Redirs (.exec (before ++ ws)) toks t' rest)
    (stops : Stops [bar, rparen, amp, semi] rest) :
    Args (.exec before) before.length (ws.map .word ++ toks) t' rest := by
  induction ws generalizing before with
  | nil => exact absurd rfl some
  | cons w ws ih =>
    have pushed : (Cmd.exec before).push w = .exec (before ++ [w]) := rfl
    have count : before.length + 1 < MAXARGS := by
      rw [List.length_append, List.length_cons] at few
      omega
    by_cases last : ws = []
    · rw [last] at redirs ⊢
      exact .more count (pushed ▸ redirs) (.done _ _ _ stops)
    · rw [← List.singleton_append, ← List.append_assoc] at few redirs
      have next := ih last few redirs
      rw [List.length_append, List.length_singleton] at next
      refine .more count (.done _ _ ?_) (pushed ▸ next)
      obtain ⟨v, vs, rfl⟩ := List.exists_cons_of_ne_nil last
      rfl

theorem exec_of_words {argv : List ω} (few : argv.length < MAXARGS) : ExecOk (.exec argv) := by
  intro toks t' rest redirs stops
  show Parses .exec (argv.map .word ++ toks) t' rest
  by_cases none : argv = []
  · subst none
    refine .words ?_ redirs (.done _ _ _ stops)
    -- without arguments the line goes on with a redirection, or with what stops the command
    cases redirs with
    | done _ _ _ => exact stops.closed (by decide)
    | @more _ k _ _ _ _ kind _ =>
      have other : ∀ k, isRedir k = true → [lparen].contains (firstChar k) = false := by decide
      exact other k kind
  · have first : ∀ set, opens set (argv.map .word ++ toks) = false := by
      obtain ⟨v, vs, rfl⟩ := List.exists_cons_of_ne_nil none
      exact fun _ => rfl
    refine .words (first _) (.done _ _ (first _)) ?_
    exact args_words none (by simpa using few) (by simpa using redirs) stops

theorem exec_of_line (parens : t.compound = true) (line : LineOk t) : ExecOk t := by
  intro toks t' rest redirs _
  rw [parens, wrap, if_pos rfl, List.cons_append, List.append_assoc, List.singleton_append]
  exact .block (line (.inr rfl)) redirs

theorem pipe_of_exec (same : t.isLine = t.compound) (exec : ExecOk t) : PipeOk t := by
  intro rest stops
  rw [same]
  exact .last (exec (.done _ _ (stops.closed (by decide))) (stops.mono (by decide))) (stops.closed (by decide))

theorem backs_of_pipe (same : t.isList = t.isLine) (pipe : PipeOk t) : BacksOk t := by
  intro toks t' rest backs stops
  rw [same]
  exact ⟨t, toks, pipe stops, backs⟩

theorem line_of_backs (single : t.isList = false) (backs : BacksOk t) : LineOk t := by
  intro rest stops
  obtain ⟨cmd, toks₁, first, loop⟩ := backs (.done _ _ (stops.closed (by decide))) (stops.mono (by decide))
  rw [single, wrap, if_neg Bool.false_ne_true] at first
  exact .single first loop (stops.closed (by decide))

theorem redir_ok {file : ω} {mode fd : Nat} (kind : (mode, fd) = redirMode lt ∨ (mode, fd) = redirMode gt)
    (inner : ExecOk t) : ExecOk (.redir t file mode fd) := by
  intro toks t' rest redirs stops
  obtain ⟨k, symbol, made⟩ : ∃ k, isRedir k = true ∧ (if mode = O_RDONLY then lt else gt) = k ∧
      redirect k t file = .redir t file mode fd := by
    rcases kind with same | same
    · obtain ⟨rfl, rfl⟩ := Prod.mk.inj same
      exact ⟨lt, rfl, rfl, rfl⟩
    · obtain ⟨rfl, rfl⟩ := Prod.mk.inj same
      exact ⟨gt, rfl, rfl, rfl⟩
  have more : Redirs t (.sym k :: .word file :: toks) t' rest := .more symbol (made.2 ▸ redirs)
  have whole := inner more stops
  show Parses .exec (wrap t.compound t.print ++ [.sym (if mode = O_RDONLY then lt else gt), .word file] ++ toks) t' rest
  rw [made.1, List.append_assoc]
  exact whole

theorem pipe_ok {left right : Cmd ω} (first : ExecOk left) (second : PipeOk right) : PipeOk (.pipe left right) := by
  intro rest stops
  show Parses .pipe (wrap left.compound left.print ++ .sym bar :: wrap right.isLine right.print ++ rest) _ rest
  rw [List.append_assoc, List.cons_append]
  exact .piped (first (.done _ _ rfl) (.inr rfl)) (second stops)

theorem list_ok {left right : Cmd ω} (first : BacksOk left) (second : LineOk right) : LineOk (.list left right) := by
  intro rest stops
  show Parses .line (wrap left.isList left.print ++ .sym semi :: right.print ++ rest) _ rest
  rw [List.append_assoc, List.cons_append]
  obtain ⟨cmd, toks₁, parsed, loop⟩ := first (.done left (.sym semi :: (right.print ++ rest)) rfl) (.inr rfl)
  exact .listed parsed loop (second stops)

theorem back_ok (inner : BacksOk t) : BacksOk (.back t) := by
  intro toks t' rest backs _
  show ∃ cmd toks₁, Parses .pipe (wrap t.isList t.print ++ [.sym amp] ++ toks) cmd toks₁ ∧ _
  rw [List.append_assoc, List.singleton_append]
  exact inner (.more backs) (.inr rfl)

theorem accepted (t : Cmd ω) (fits : t.Fits) : Accepted t := by
  induction t with
  | exec argv =>
    have exec := exec_of_words fits
    have pipe := pipe_of_exec rfl exec
    have backs := backs_of_pipe rfl pipe
    exact ⟨exec, pipe, backs, line_of_backs rfl backs⟩
  | redir cmd file mode fd ih =>
    have exec : ExecOk (.redir cmd file mode fd) := redir_ok fits.2 (ih fits.1).exec
    have pipe := pipe_of_exec rfl exec
    have backs := backs_of_pipe rfl pipe
    exact ⟨exec, pipe, backs, line_of_backs rfl backs⟩
  | pipe left right first second =>
    have pipe := pipe_ok (first fits.1).exec (second fits.2).pipe
    have backs := backs_of_pipe rfl pipe
    have line := line_of_backs rfl backs
    exact ⟨exec_of_line rfl line, pipe, backs, line⟩
  | list left right first second =>
    have line := list_ok (first fits.1).backs (second fits.2).line
    have exec := exec_of_line rfl line
    have pipe := pipe_of_exec rfl exec
    exact ⟨exec, pipe, backs_of_pipe rfl pipe, line⟩
  | back cmd ih =>
    have backs := back_ok (ih fits).backs
    have line := line_of_backs rfl backs
    have exec := exec_of_line rfl line
    exact ⟨exec, pipe_of_exec rfl exec, backs, line⟩

end Accept

end Printing

end Xv6.Shell
