import Xv6.Shell.Parser

/-!
# Round trip

A tree that is printed and parsed again is the same tree, and the tree of any line has the words, the
redirections and the operators of the line.
-/

namespace Xv6.Shell

open Bytes

section Text

/-- A token with a blank behind it. -/
def Tok.text : Tok (List Byte) → List Byte
  | .word w => w ++ [0x20]
  | .sym c => [c, 0x20]

def render (toks : List (Tok (List Byte))) : List Byte := toks.flatMap Tok.text

/-- A word that can be typed. -/
structure Typed (w : List Byte) : Prop where
  some : w ≠ []
  chars : ∀ c ∈ w, isWordChar c = true
  terminated : 0 ∉ w

def Tok.Plain : Tok (List Byte) → Prop
  | .word w => Typed w
  | .sym c => c ∈ symbols

theorem lex_render {toks : List (Tok (List Byte))} (plain : ∀ tok ∈ toks, tok.Plain) : lex (render toks) = toks := by
  induction toks with
  | nil => rw [render, List.flatMap_nil, lex_nil]
  | cons tok toks ih =>
    have rest := ih fun other mem => plain other (List.mem_cons_of_mem tok mem)
    have here := plain tok List.mem_cons_self
    have white : isWhite 0x20 = true := by decide
    have joined : render (tok :: toks) = tok.text ++ render toks := List.flatMap_cons
    rw [joined]
    cases tok with
    | sym c =>
      show lex (c :: 0x20 :: render toks) = _
      by_cases greater : c = gt
      · rw [greater, lex_gt (by rw [List.head?_cons]; decide), lex_white white, rest]
      · rw [lex_symbol here greater, lex_white white, rest]
    | word w =>
      match w, here with
      | c :: w, here =>
        have all : ∀ b ∈ w, isWordChar b = true := fun b mem => here.chars b (List.mem_cons_of_mem c mem)
        have word : (w ++ 0x20 :: render toks).takeWhile isWordChar = w := by
          rw [List.takeWhile_append_of_pos all, List.takeWhile_cons_of_neg (by decide), List.append_nil]
        have behind : (w ++ 0x20 :: render toks).dropWhile isWordChar = 0x20 :: render toks := by
          rw [List.dropWhile_append_of_pos all, List.dropWhile_cons_of_neg (by decide)]
        have spaced : (Tok.word (c :: w)).text ++ render toks = c :: (w ++ 0x20 :: render toks) := by
          simp [Tok.text]
        rw [spaced, lex_word (here.chars c List.mem_cons_self), word, behind, lex_white white, rest]

/-- A tree that can be typed. -/
structure Printable where
  tree : Cmd (List Byte)
  fits : tree.Fits
  typed : ∀ w ∈ tree.words ++ tree.redirs.map Prod.fst, Typed w

theorem plain_wrap {toks : List (Tok (List Byte))} (plain : ∀ tok ∈ toks, tok.Plain) (parens : Bool) :
    ∀ tok ∈ wrap parens toks, tok.Plain := by
  rw [wrap]
  split
  next =>
    have open' : (Tok.sym lparen).Plain := by show lparen ∈ symbols; decide
    have close : (Tok.sym rparen).Plain := by show rparen ∈ symbols; decide
    intro tok mem
    simp only [List.mem_cons, List.mem_append, List.not_mem_nil, or_false] at mem
    rcases mem with rfl | mem | rfl
    · exact open'
    · exact plain tok mem
    · exact close
  next => exact plain

theorem plain_print (t : Cmd (List Byte)) (args : ∀ w ∈ t.words, Typed w) (files : ∀ f ∈ t.redirs, Typed f.1) :
    ∀ tok ∈ t.print, tok.Plain := by
  induction t with
  | exec argv =>
    intro tok mem
    obtain ⟨w, member, rfl⟩ := List.mem_map.mp mem
    exact args w member
  | redir cmd file mode fd ih =>
    have inner := ih args fun f mem => files f (List.mem_append_left _ mem)
    have symbol : (if mode = O_RDONLY then lt else gt) ∈ symbols := by split <;> decide
    have name : Typed file := files _ (List.mem_append_right _ (List.mem_singleton_self _))
    refine List.forall_mem_append.mpr ⟨plain_wrap inner _, ?_⟩
    exact List.forall_mem_cons.mpr ⟨symbol, List.forall_mem_singleton.mpr name⟩
  | pipe left right first second =>
    have left := first (fun w mem => args w (List.mem_append_left _ mem)) fun f mem => files f (List.mem_append_left _ mem)
    have right := second (fun w mem => args w (List.mem_append_right _ mem)) fun f mem => files f (List.mem_append_right _ mem)
    have symbol : bar ∈ symbols := by decide
    exact List.forall_mem_append.mpr ⟨plain_wrap left _, List.forall_mem_cons.mpr ⟨symbol, plain_wrap right _⟩⟩
  | list left right first second =>
    have left := first (fun w mem => args w (List.mem_append_left _ mem)) fun f mem => files f (List.mem_append_left _ mem)
    have right := second (fun w mem => args w (List.mem_append_right _ mem)) fun f mem => files f (List.mem_append_right _ mem)
    have symbol : semi ∈ symbols := by decide
    exact List.forall_mem_append.mpr ⟨plain_wrap left _, List.forall_mem_cons.mpr ⟨symbol, right⟩⟩
  | back cmd ih =>
    have symbol : amp ∈ symbols := by decide
    exact List.forall_mem_append.mpr ⟨plain_wrap (ih args files) _, List.forall_mem_singleton.mpr symbol⟩

namespace Printable

variable (t : Printable)

theorem plain : ∀ tok ∈ t.tree.print, tok.Plain :=
  plain_print t.tree (fun w mem => t.typed w (List.mem_append_left _ mem))
    fun _ mem => t.typed _ (List.mem_append_right _ (List.mem_map_of_mem mem))

/-- The text of the tree, as it is typed. -/
def text : CString where
  bytes := render t.tree.print
  terminated mem := by
    obtain ⟨tok, member, inside⟩ := List.mem_flatMap.mp mem
    have plain := t.plain tok member
    cases tok with
    | word w =>
      rcases List.mem_append.mp inside with inside | inside
      · exact plain.terminated inside
      · exact absurd inside (by decide)
    | sym c =>
      have visible : c ≠ 0 := (symbols_code plain).1
      simp only [Tok.text, List.mem_cons, List.not_mem_nil, or_false] at inside
      rcases inside with zero | zero
      · exact visible zero.symm
      · exact absurd zero (by decide)

end Printable

end Text

section Command

variable (line : CString)

theorem at_start : At line.bytes 0 (lex line.bytes) := ⟨Nat.zero_le _, by rw [List.drop_zero]⟩

variable {line}

theorem leftovers_iff {s : Nat} {toks : List (Tok (List Byte))} (at_s : At line.bytes s toks) :
    (peek line.bytes s []).2 = line.bytes.length ↔ toks = [] := by
  have after : At line.bytes (peek line.bytes s []).2 toks := at_s.skip
  constructor
  · intro ended
    rw [← after.tokens, ended, List.drop_length, lex_nil]
  · rintro rfl
    have next : Next line.bytes (peek line.bytes s []).2 [] := at_s.next
    cases next with
    | ended none =>
      have past := List.drop_eq_nil_iff.mp none
      have inside := after.inside
      omega

theorem parsecmd_of_line {c : Cmd Span} {s : Nat} {toks : List (Tok (List Byte))}
    (ran : parseline line.bytes (4 * line.bytes.length + 4) 0 = .ok (c, s)) (at_s : At line.bytes s toks) :
    parsecmd line = if toks = [] then .ok (c, nulterminate c line.bytes) else .error (.panic "syntax") := by
  have same := leftovers_iff at_s
  rw [parsecmd, Steps.ok_bind ran]
  by_cases none : toks = []
  · simp only [same.mpr none, ne_eq, not_true, if_false, if_pos none]
  · simp only [ne_eq, same.not.mpr none, not_false_iff, if_true, if_neg none]

/-- `parsecmd` panics, or returns a tree of the whole line. -/
theorem parsecmd_sound (line : CString) :
    (∃ message, parsecmd line = .error (.panic message)) ∨
      ∃ c t, parsecmd line = .ok (c, nulterminate c line.bytes) ∧ Denotes line.bytes c t ∧
        Parses .line (lex line.bytes) t [] := by
  have enough : 4 * (lex line.bytes).length + 4 ≤ 4 * line.bytes.length + 4 := by
    have := length_lex line.bytes
    omega
  have outcome := (sound line.terminated (4 * line.bytes.length + 4)).line (at_start line) enough
  generalize ran : parseline line.bytes (4 * line.bytes.length + 4) 0 = went at outcome
  cases outcome with
  | panic message =>
    refine .inl ⟨message, ?_⟩
    rw [parsecmd, ran]
    rfl
  | @ok c t s rest denotes after parsed =>
    have result := parsecmd_of_line ran after
    by_cases none : rest = []
    · subst none
      rw [if_pos rfl] at result
      exact .inr ⟨c, t, result, denotes, parsed⟩
    · rw [if_neg none] at result
      exact .inl ⟨_, result⟩

theorem parsecmd_complete {t : Cmd (List Byte)} (parsed : Parses .line (lex line.bytes) t []) :
    ∃ c, parsecmd line = .ok (c, nulterminate c line.bytes) ∧ Denotes line.bytes c t := by
  have enough : Level.need (lex line.bytes).length .line ≤ 4 * line.bytes.length + 4 := by
    have := length_lex line.bytes
    simp only [Level.need]
    omega
  obtain ⟨c, s, ran, denotes, after⟩ := complete line.terminated parsed (at_start line) enough
  have result := parsecmd_of_line ran after
  rw [if_pos rfl] at result
  exact ⟨c, result, denotes⟩

/-- Every tree that can be typed comes back from its text, word for word; and for every line the parser ends,
with a panic or with a tree that has the arguments, the redirections and the operators of the line's tokens in
their order. -/
theorem parsecmd_round_trip :
    (∀ t : Printable, ∃ c buf, parsecmd t.text = .ok (c, buf) ∧ c.map (stringAt buf) = t.tree) ∧
    ∀ line : CString, (∃ message, parsecmd line = .error (.panic message)) ∨
      ∃ c buf, parsecmd line = .ok (c, buf) ∧
        (c.map (stringAt buf)).words = args (lex line.bytes) ∧
        (c.map (stringAt buf)).redirs = files (lex line.bytes) ∧
        (c.map (stringAt buf)).ops = operators (lex line.bytes) := by
  constructor
  · intro t
    have tokens : lex t.text.bytes = t.tree.print := lex_render t.plain
    have parsed : Parses .line (lex t.text.bytes) t.tree [] := by
      have printed := (accepted t.tree t.fits).line (.inl rfl)
      rwa [List.append_nil, ← tokens] at printed
    obtain ⟨c, ran, denotes⟩ := parsecmd_complete parsed
    exact ⟨c, _, ran, nulterminate_strings denotes t.text.terminated⟩
  · intro line
    rcases parsecmd_sound line with panicked | ⟨c, t, ran, denotes, parsed⟩
    · exact .inl panicked
    · refine .inr ⟨c, _, ran, ?_⟩
      have accounts := parsed.extends
      have words : args (lex line.bytes) = t.words ++ [] := accounts.words
      have redirs : files (lex line.bytes) = t.redirs ++ [] := accounts.redirs
      have ops : operators (lex line.bytes) = t.ops ++ [] := accounts.ops
      rw [List.append_nil] at words redirs ops
      rw [nulterminate_strings denotes line.terminated, words, redirs, ops]
      exact ⟨rfl, rfl, rfl⟩

/-- The parser returns exactly the trees of the grammar, and a line has at most one. -/
theorem parsecmd_accepts_iff (line : CString) (t : Cmd (List Byte)) :
    (∃ c buf, parsecmd line = .ok (c, buf) ∧ c.map (stringAt buf) = t) ↔
      Parses .line (lex line.bytes) t [] ∧ ∀ t', Parses .line (lex line.bytes) t' [] → t' = t := by
  have returned : ∀ {t}, Parses .line (lex line.bytes) t [] →
      ∃ c buf, parsecmd line = .ok (c, buf) ∧ c.map (stringAt buf) = t := by
    intro t parsed
    obtain ⟨c, ran, denotes⟩ := parsecmd_complete parsed
    exact ⟨c, _, ran, nulterminate_strings denotes line.terminated⟩
  constructor
  · rintro ⟨c, buf, ran, rfl⟩
    have only : ∀ t, Parses .line (lex line.bytes) t [] → t = c.map (stringAt buf) := by
      intro t parsed
      obtain ⟨c', buf', again, rfl⟩ := returned parsed
      cases again.symm.trans ran
      rfl
    rcases parsecmd_sound line with ⟨message, panicked⟩ | ⟨_, t, _, _, parsed⟩
    · cases panicked.symm.trans ran
    · exact ⟨only t parsed ▸ parsed, only⟩
  · rintro ⟨parsed, -⟩
    exact returned parsed

end Command

end Xv6.Shell
