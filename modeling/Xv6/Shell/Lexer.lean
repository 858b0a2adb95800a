import Mathlib.Data.List.TakeWhile
import Xv6.Shell.Model

/-!
# The tokens of a line

The token sequence of a line, and what `peek` and `gettoken` say about it. A word is a run of word characters
that cannot be made longer, which is what `nulterminate` relies on.
-/

namespace Xv6.Shell

open Bytes

section Lex

/-- A token: a word, or what `gettoken` returns for a symbol. -/
inductive Tok (ω : Type) where
  | word (w : ω)
  | sym (c : Byte)
  deriving DecidableEq, Repr

/-- The token sequence of a text. -/
def lex : List Byte → List (Tok (List Byte))
  | [] => []
  | c :: s =>
    if isWhite c then lex s
    else if c = gt then if s.head? = some gt then .sym plus :: lex s.tail else .sym gt :: lex s
    else if symbols.contains c then .sym c :: lex s
    else .word (c :: s.takeWhile isWordChar) :: lex (s.dropWhile isWordChar)
termination_by s => s.length
decreasing_by
  all_goals
    have := (List.dropWhile_sublist isWordChar (l := s)).length_le
    simp only [List.length_cons, List.length_tail]
    omega

variable {c : Byte} {s : List Byte}

@[simp] theorem lex_nil : lex [] = [] := by
  rw [lex]

theorem lex_white (white : isWhite c = true) : lex (c :: s) = lex s := by
  rw [lex, if_pos white]

theorem lex_append : lex (gt :: gt :: s) = .sym plus :: lex s := by
  rw [lex, if_neg (by decide), if_pos rfl, List.head?_cons, if_pos rfl, List.tail_cons]

theorem lex_gt (single : s.head? ≠ some gt) : lex (gt :: s) = .sym gt :: lex s := by
  rw [lex, if_neg (by decide), if_pos rfl, if_neg single]

theorem lex_symbol (mem : c ∈ symbols) (other : c ≠ gt) : lex (c :: s) = .sym c :: lex s := by
  have visible : isWhite c = false := by
    revert mem c
    decide
  rw [lex, visible, if_neg Bool.false_ne_true, if_neg other, if_pos (by simpa using mem)]

theorem lex_word (first : isWordChar c = true) :
    lex (c :: s) = .word (c :: s.takeWhile isWordChar) :: lex (s.dropWhile isWordChar) := by
  obtain ⟨visible, plain⟩ : isWhite c = false ∧ symbols.contains c = false := by
    simpa [isWordChar, isWhite] using first
  have other : c ≠ gt := by
    rintro rfl
    exact absurd plain (by decide)
  rw [lex, visible, if_neg Bool.false_ne_true, if_neg other, plain, if_neg Bool.false_ne_true]

theorem lex_dropWhile_white (s : List Byte) : lex (s.dropWhile isWhite) = lex s := by
  induction s with
  | nil => rfl
  | cons c s ih =>
    rw [List.dropWhile_cons]
    split
    next white => rw [ih, lex_white white]
    next => rfl

theorem length_lex (s : List Byte) : (lex s).length ≤ s.length := by
  fun_induction lex s with
  | case1 => exact Nat.le_refl _
  | case2 c s white ih => exact ih.trans (Nat.le_succ _)
  | case3 s _ double ih =>
    rw [List.length_tail] at ih
    rw [List.length_cons, List.length_cons]
    omega
  | case4 s _ single ih => exact Nat.succ_le_succ ih
  | case5 c s _ _ symbol ih => exact Nat.succ_le_succ ih
  | case6 c s _ _ _ ih => exact Nat.succ_le_succ (ih.trans (List.dropWhile_sublist isWordChar).length_le)

theorem char_cases (c : Byte) :
    isWhite c = true ∨ c = gt ∨ (c ∈ symbols ∧ c ≠ gt) ∨ (isWordChar c = true) := by
  by_cases white : isWhite c = true
  · exact .inl white
  by_cases greater : c = gt
  · exact .inr (.inl greater)
  by_cases symbol : c ∈ symbols
  · exact .inr (.inr (.inl ⟨symbol, greater⟩))
  · refine .inr (.inr (.inr ?_))
    simp only [isWordChar, Bool.and_eq_true, Bool.not_eq_true']
    exact ⟨by simpa [isWhite] using white, by simpa using symbol⟩

end Lex

section Scan

variable {buf : List Byte}

theorem deref_drop {s : Nat} {c : Byte} {rest : List Byte} (here : buf.drop s = c :: rest) : deref buf s = c := by
  have at_s : buf[s]? = some c := by rw [← List.head?_drop, here, List.head?_cons]
  rw [deref, List.getD_eq_getElem?_getD, at_s, Option.getD_some]

theorem scan_eq (p : Byte → Bool) (s : Nat) : scan buf p s = s + ((buf.drop s).takeWhile p).length := by
  have rounds : ∀ k s, buf.length - s = k → scanLoop buf p k s = s + ((buf.drop s).takeWhile p).length := by
    intro k
    induction k with
    | zero =>
      intro s ended
      rw [scanLoop, List.drop_of_length_le (by omega)]
      rfl
    | succ k ih =>
      intro s more
      have inside : s < buf.length := by omega
      have here := List.drop_eq_getElem_cons inside
      rw [scanLoop, deref_drop here, here, List.takeWhile_cons]
      by_cases holds : p buf[s] = true
      · rw [if_pos ⟨inside, holds⟩, if_pos holds, ih (s + 1) (by omega), List.length_cons]
        omega
      · rw [if_neg fun both => holds both.2, if_neg holds]
        rfl
  exact rounds _ s rfl

theorem drop_scan (p : Byte → Bool) (s : Nat) : buf.drop (scan buf p s) = (buf.drop s).dropWhile p := by
  have parts := List.takeWhile_append_dropWhile (p := p) (l := buf.drop s)
  rw [scan_eq, ← List.drop_drop]
  exact (congrArg (List.drop ((buf.drop s).takeWhile p).length) parts).symm.trans List.drop_left

theorem scan_le (p : Byte → Bool) {s : Nat} (inside : s ≤ buf.length) : scan buf p s ≤ buf.length := by
  have short := (List.takeWhile_sublist p (l := buf.drop s)).length_le
  rw [List.length_drop] at short
  rw [scan_eq]
  omega

end Scan

section Cursor

/-- The cursor stands before the tokens `toks`. -/
structure At (buf : List Byte) (s : Nat) (toks : List (Tok (List Byte))) : Prop where
  inside : s ≤ buf.length
  tokens : lex (buf.drop s) = toks

/-- The ends of a word in the buffer: before its end there are word characters only, and behind it there
is none. -/
structure Occurs (buf : List Byte) (p : Span) (w : List Byte) : Prop where
  start : buf.drop p.q = w ++ buf.drop p.eq
  stop : p.eq = p.q + w.length
  chars : ∀ c ∈ w, isWordChar c = true
  ends : ∀ c, (buf.drop p.eq).head? = some c → isWordChar c = false
  inside : p.eq ≤ buf.length

/-- The character that a symbol starts with. -/
def firstChar (c : Byte) : Byte := if c = plus then gt else c

/-- Whether a symbol out of `toks` comes next. -/
def opens {ω : Type} (toks : List Byte) : List (Tok ω) → Bool
  | .sym c :: _ => toks.contains (firstChar c)
  | _ => false

variable {buf : List Byte} {s : Nat} {toks : List (Tok (List Byte))}

namespace At

theorem skip (at_s : At buf s toks) : At buf (scan buf isWhite s) toks where
  inside := scan_le isWhite at_s.inside
  tokens := by rw [drop_scan, lex_dropWhile_white, at_s.tokens]

end At

/-- What the cursor finds behind the blanks: the end of the line, or the start of a token. -/
inductive Next (buf : List Byte) (q : Nat) : List (Tok (List Byte)) → Prop where
  | ended : buf.drop q = [] → Next buf q []
  | append (rest) : buf.drop q = gt :: gt :: rest → Next buf q (.sym plus :: lex rest)
  | gt (rest) : buf.drop q = gt :: rest → rest.head? ≠ some gt → Next buf q (.sym gt :: lex rest)
  | symbol (c rest) : buf.drop q = c :: rest → c ∈ symbols → c ≠ Shell.gt → Next buf q (.sym c :: lex rest)
  | word (c rest) : buf.drop q = c :: rest → isWordChar c = true →
      Next buf q (.word (c :: rest.takeWhile isWordChar) :: lex (rest.dropWhile isWordChar))

theorem At.next (at_s : At buf s toks) : Next buf (scan buf isWhite s) toks := by
  have skipped := at_s.skip
  match here : buf.drop (scan buf isWhite s) with
  | [] =>
    have none := skipped.tokens
    rw [here, lex_nil] at none
    exact none ▸ .ended here
  | c :: rest =>
    have visible : isWhite c = false := by
      have stopped : buf.drop (scan buf isWhite s) = _ := drop_scan isWhite s
      rw [here] at stopped
      have first := List.head_dropWhile_not isWhite (l := buf.drop s) (by rw [← stopped]; exact List.cons_ne_nil c rest)
      simpa [← stopped] using first
    have tokens := skipped.tokens
    rw [here] at tokens
    rcases char_cases c with white | rfl | ⟨mem, other⟩ | first
    · rw [visible] at white
      cases white
    · by_cases double : rest.head? = some gt
      · obtain ⟨rest', rfl⟩ : ∃ rest', rest = gt :: rest' := by
          cases rest with
          | nil => cases double
          | cons d rest => exact ⟨rest, by rw [Option.some.inj double]⟩
        rw [lex_append] at tokens
        exact tokens ▸ .append rest' here
      · rw [lex_gt double] at tokens
        exact tokens ▸ .gt rest here double
    · rw [lex_symbol mem other] at tokens
      exact tokens ▸ .symbol c rest here mem other
    · rw [lex_word first] at tokens
      exact tokens ▸ .word c rest here first

variable (clean : 0 ∉ buf)

theorem deref_ended {q : Nat} (ended : buf.drop q = []) : deref buf q = 0 := by
  have none : buf[q]? = none := by rw [← List.head?_drop, ended, List.head?_nil]
  rw [deref, List.getD_eq_getElem?_getD, none, Option.getD_none]

theorem symbols_code {c : Byte} (mem : c ∈ symbols) : c ≠ 0 ∧ c ≠ letterA ∧ firstChar c = c := by
  revert mem c
  decide

theorem peek_spec (at_s : At buf s toks) {set : List Byte} (known : ∀ c ∈ set, c ∈ symbols) :
    (peek buf s set).1 = opens set toks ∧ At buf (peek buf s set).2 toks := by
  refine ⟨?_, at_s.skip⟩
  show (deref buf (scan buf isWhite s) != 0 && set.contains (deref buf (scan buf isWhite s))) = opens set toks
  cases at_s.next with
  | ended none => simp [deref_ended none, opens]
  | append rest here =>
    rw [deref_drop here]
    rfl
  | gt rest here single =>
    rw [deref_drop here]
    rfl
  | symbol c rest here mem other =>
    obtain ⟨visible, -, first⟩ := symbols_code mem
    have shown : (c != 0) = true := by simpa using visible
    rw [deref_drop here, opens, first, shown, Bool.true_and]
  | word c rest here first =>
    have plain : c ∉ set := fun mem => by
      have symbol := known c mem
      simp [isWordChar, symbol] at first
    simp [deref_drop here, opens, plain]

section TokenAt

variable {q : Nat} {c : Byte} {rest : List Byte}

theorem tokenAt_ended (none : buf.drop q = []) : tokenAt buf q = (0, q) := by
  simp [tokenAt, deref_ended none]

theorem tokenAt_append (here : buf.drop q = gt :: gt :: rest) : tokenAt buf q = (plus, q + 2) := by
  have second : deref buf (q + 1) = gt :=
    deref_drop (show buf.drop (q + 1) = gt :: rest by rw [← List.drop_drop, here, List.drop_one, List.tail_cons])
  simp only [tokenAt, deref_drop here, second]
  rw [if_neg (by decide), if_neg (by decide), if_pos trivial, if_pos trivial]

theorem tokenAt_gt (here : buf.drop q = gt :: rest) (single : rest.head? ≠ some gt) : tokenAt buf q = (gt, q + 1) := by
  have next : buf.drop (q + 1) = rest := by rw [← List.drop_drop, here, List.drop_one, List.tail_cons]
  have second : deref buf (q + 1) ≠ gt := by
    cases rest with
    | nil =>
      rw [deref_ended next]
      decide
    | cons d rest =>
      rw [deref_drop next]
      rintro rfl
      exact single rfl
  simp only [tokenAt, deref_drop here]
  rw [if_neg (by decide), if_neg (by decide), if_pos trivial, if_neg second]

theorem tokenAt_symbol (here : buf.drop q = c :: rest) (mem : c ∈ symbols) (other : c ≠ gt) :
    tokenAt buf q = (c, q + 1) := by
  have listed : ∀ c ∈ symbols, c ≠ gt → c = bar ∨ c = lparen ∨ c = rparen ∨ c = semi ∨ c = amp ∨ c = lt := by decide
  simp only [tokenAt, deref_drop here]
  rw [if_neg (symbols_code mem).1, if_pos (listed c mem other)]

theorem tokenAt_word (here : buf.drop q = c :: rest) (first : isWordChar c = true) (visible : c ≠ 0) :
    tokenAt buf q = (letterA, scan buf isWordChar q) := by
  have plain : c ∉ symbols := fun symbol => by simp [isWordChar, symbol] at first
  have unlisted : ¬ (c = bar ∨ c = lparen ∨ c = rparen ∨ c = semi ∨ c = amp ∨ c = lt) := by
    rintro (rfl | rfl | rfl | rfl | rfl | rfl) <;> exact plain (by decide)
  have other : c ≠ gt := by
    rintro rfl
    exact plain (by decide)
  simp only [tokenAt, deref_drop here]
  rw [if_neg visible, if_neg unlisted, if_neg other]

end TokenAt

/-- What `gettoken` returns before the given tokens. -/
inductive Got (buf : List Byte) : List (Tok (List Byte)) → Byte × Span × Nat → Prop where
  | ended (p s) : At buf s [] → Got buf [] (0, p, s)
  | sym (c p s ts) : c ≠ 0 → c ≠ letterA → At buf s ts → Got buf (.sym c :: ts) (c, p, s)
  | word (w p s ts) : Occurs buf p w → At buf s ts → Got buf (.word w :: ts) (letterA, p, s)

theorem At.of_drop {q k : Nat} {rest : List Byte} (here : buf.drop (q + k) = rest) (inside : q + k ≤ buf.length) :
    At buf (scan buf isWhite (q + k)) (lex rest) :=
  At.skip ⟨inside, by rw [here]⟩

theorem inside_of_drop {q k : Nat} {front rest : List Byte} (here : buf.drop q = front ++ rest) (size : front.length = k)
    (inside : q ≤ buf.length) : buf.drop (q + k) = rest ∧ q + k ≤ buf.length := by
  have total := congrArg List.length here
  rw [List.length_drop, List.length_append] at total
  refine ⟨?_, by omega⟩
  rw [← List.drop_drop, here, ← size, List.drop_left]

include clean in
theorem gettoken_got (at_s : At buf s toks) : Got buf toks (gettoken buf s) := by
  have inside := at_s.skip.inside
  have next := at_s.next
  simp only [gettoken]
  generalize scan buf isWhite s = q at inside next
  cases next with
  | ended none =>
    rw [tokenAt_ended none]
    exact .ended _ _ (At.skip ⟨inside, by rw [none, lex_nil]⟩)
  | append rest here =>
    obtain ⟨after, le⟩ := inside_of_drop (show buf.drop q = [gt, gt] ++ rest from here) rfl inside
    rw [tokenAt_append here]
    exact .sym _ _ _ _ (by decide) (by decide) (.of_drop after le)
  | gt rest here single =>
    obtain ⟨after, le⟩ := inside_of_drop (show buf.drop q = [gt] ++ rest from here) rfl inside
    rw [tokenAt_gt here single]
    exact .sym _ _ _ _ (by decide) (by decide) (.of_drop after le)
  | symbol c rest here mem other =>
    obtain ⟨after, le⟩ := inside_of_drop (show buf.drop q = [c] ++ rest from here) rfl inside
    obtain ⟨visible, noWord, -⟩ := symbols_code mem
    rw [tokenAt_symbol here mem other]
    exact .sym _ _ _ _ visible noWord (.of_drop after le)
  | word c rest here first =>
    have visible : c ≠ 0 := by
      rintro rfl
      exact clean (List.mem_of_mem_drop (here ▸ List.mem_cons_self))
    have word : (buf.drop q).takeWhile isWordChar = c :: rest.takeWhile isWordChar := by
      rw [here, List.takeWhile_cons_of_pos first]
    have behind : (buf.drop q).dropWhile isWordChar = rest.dropWhile isWordChar := by
      rw [here, List.dropWhile_cons_of_pos first]
    have parts : buf.drop q = (c :: rest.takeWhile isWordChar) ++ rest.dropWhile isWordChar := by
      rw [here, List.cons_append, List.takeWhile_append_dropWhile]
    obtain ⟨after, le⟩ := inside_of_drop parts rfl inside
    rw [tokenAt_word here first visible, scan_eq, word]
    refine .word _ _ _ _ ⟨?_, rfl, ?_, ?_, le⟩ (.of_drop after le)
    · rw [after, parts]
    · intro d mem
      rcases List.mem_cons.mp mem with rfl | mem
      · exact first
      · exact List.mem_takeWhile_imp mem
    · intro d found
      rw [after] at found
      exact Bool.eq_false_iff.mpr fun inWord => by
        have := List.head?_dropWhile_not isWordChar rest
        rw [found] at this
        simp [inWord] at this

end Cursor

end Xv6.Shell
