import Mathlib.Data.List.Forall2
import Xv6.Shell.Grammar

/-!
# The parser and the grammar

The parsing functions accept exactly what the grammar accepts. With fuel for the tokens that are left they
return a tree of the grammar or panic. Once `nulterminate` has run, each word is a string of its own.
-/

namespace Xv6.Shell

open Bytes

section Words

/-- A tree of positions stands for a tree of words. -/
inductive Denotes (buf : List Byte) : Cmd Span → Cmd (List Byte) → Prop where
  | exec {ps ws} : List.Forall₂ (Occurs buf) ps ws → Denotes buf (.exec ps) (.exec ws)
  | redir {c t p w mode fd} : Denotes buf c t → Occurs buf p w → Denotes buf (.redir c p mode fd) (.redir t w mode fd)
  | pipe {c t c' t'} : Denotes buf c t → Denotes buf c' t' → Denotes buf (.pipe c c') (.pipe t t')
  | list {c t c' t'} : Denotes buf c t → Denotes buf c' t' → Denotes buf (.list c c') (.list t t')
  | back {c t} : Denotes buf c t → Denotes buf (.back c) (.back t)

variable {buf : List Byte} {c : Cmd Span} {t : Cmd (List Byte)} {p : Span} {w : List Byte}

theorem Denotes.push (denotes : Denotes buf c t) (occurs : Occurs buf p w) : Denotes buf (c.push p) (t.push w) := by
  induction denotes with
  | exec all => exact .exec (List.rel_append all (.cons occurs .nil))
  | redir _ file ih => exact .redir ih file
  | pipe left right => exact .pipe left right
  | list left right => exact .list left right
  | back inner => exact .back inner

theorem Denotes.redirect (denotes : Denotes buf c t) (occurs : Occurs buf p w) (k : Byte) :
    Denotes buf (redirect k c p) (redirect k t w) := by
  unfold Shell.redirect
  split_ifs
  · exact .redir denotes occurs
  · exact .redir denotes occurs
  · exact .redir denotes occurs
  · exact denotes

end Words

section Cursor

variable {buf : List Byte} {s : Nat} {toks : List (Tok (List Byte))}

theorem peek_eq (at_s : At buf s toks) (set : List Byte) (known : ∀ c ∈ set, c ∈ symbols) :
    ∃ s', peek buf s set = (opens set toks, s') ∧ At buf s' toks := by
  obtain ⟨found, after⟩ := peek_spec at_s known
  exact ⟨_, Prod.ext found rfl, after⟩

variable (clean : 0 ∉ buf)

include clean

theorem gettoken_sym {k : Byte} (at_s : At buf s (.sym k :: toks)) :
    ∃ p s', gettoken buf s = (k, p, s') ∧ At buf s' toks ∧ k ≠ 0 ∧ k ≠ letterA := by
  have got := gettoken_got clean at_s
  generalize gettoken buf s = went at got
  cases got with
  | sym _ p s' _ visible noWord after => exact ⟨p, s', rfl, after, visible, noWord⟩

theorem gettoken_word {w : List Byte} (at_s : At buf s (.word w :: toks)) :
    ∃ p s', gettoken buf s = (letterA, p, s') ∧ Occurs buf p w ∧ At buf s' toks := by
  have got := gettoken_got clean at_s
  generalize gettoken buf s = went at got
  cases got with
  | word _ p s' _ occurs after => exact ⟨p, s', rfl, occurs, after⟩

theorem gettoken_end (at_s : At buf s []) : ∃ p s', gettoken buf s = (0, p, s') ∧ At buf s' [] := by
  have got := gettoken_got clean at_s
  generalize gettoken buf s = went at got
  cases got with
  | ended p s' after => exact ⟨p, s', rfl, after⟩

end Cursor

section Sound

/-- A call returns a tree that is related to the tokens, or panics; it has enough fuel. -/
inductive Outcome (buf : List Byte) (R : Cmd (List Byte) → List (Tok (List Byte)) → Prop) :
    Except Stop (Cmd Span × Nat) → Prop where
  | ok {c t s rest} : Denotes buf c t → At buf s rest → R t rest → Outcome buf R (.ok (c, s))
  | panic (message) : Outcome buf R (.error (.panic message))

variable {buf : List Byte} {c : Cmd Span} {t : Cmd (List Byte)} {s fuel : Nat} {toks : List (Tok (List Byte))}
  {R R' : Cmd (List Byte) → List (Tok (List Byte)) → Prop}

theorem Outcome.bind {x : Except Stop (Cmd Span × Nat)} {f : Cmd Span × Nat → Except Stop (Cmd Span × Nat)}
    (first : Outcome buf R x)
    (next : ∀ {c t s rest}, Denotes buf c t → At buf s rest → R t rest → Outcome buf R' (f (c, s))) :
    Outcome buf R' (x >>= f) := by
  cases first with
  | ok denotes after related => exact next denotes after related
  | panic message => exact .panic message

theorem Outcome.imp {x : Except Stop (Cmd Span × Nat)} (first : Outcome buf R x) (weaken : ∀ t rest, R t rest → R' t rest) :
    Outcome buf R' x := by
  cases first with
  | ok denotes after related => exact .ok denotes after (weaken _ _ related)
  | panic message => exact .panic message

theorem opens_single {x : Byte} (single : x ≠ gt) (found : opens [x] toks = true) : ∃ rest, toks = .sym x :: rest := by
  match toks with
  | .sym k :: rest =>
    have first : firstChar k = x := by simpa [opens] using found
    have same : k = x := by
      unfold firstChar at first
      split at first
      next => exact absurd first.symm single
      next => exact first
    exact ⟨rest, by rw [same]⟩

variable (clean : 0 ∉ buf)

include clean

theorem parseredirs_sound (denotes : Denotes buf c t) (at_s : At buf s toks) (enough : toks.length < fuel) :
    Outcome buf (Redirs t toks) (parseredirs buf fuel c s) := by
  induction fuel generalizing c t s toks with
  | zero => omega
  | succ fuel ih =>
    obtain ⟨s₁, peeked, at₁⟩ := peek_eq at_s [lt, gt] (by decide)
    rw [parseredirs, peeked]
    cases found : opens [lt, gt] toks with
    | false => exact .ok denotes at₁ (.done t toks found)
    | true =>
      match toks with
      | .sym k :: toks =>
        have kind : isRedir k = true := (opens_redir k toks).symm.trans found
        obtain ⟨_, s₂, got, at₂, -⟩ := gettoken_sym clean at₁
        simp only [got, if_true]
        -- the file name has to be a word
        match toks with
        | [] =>
          obtain ⟨_, _, ended, -⟩ := gettoken_end clean at₂
          simp only [ended]
          exact .panic _
        | .sym k' :: toks =>
          obtain ⟨_, _, other, -, -, noWord⟩ := gettoken_sym clean at₂
          simp only [other, ne_eq, noWord, not_false_iff, if_true]
          exact .panic _
        | .word w :: toks =>
          obtain ⟨p, s₃, word, occurs, at₃⟩ := gettoken_word clean at₂
          simp only [word, ne_eq, not_true, if_false]
          simp only [List.length_cons] at enough
          exact (ih (denotes.redirect occurs k) at₃ (by omega)).imp fun _ _ => .more kind

theorem argLoop_sound {argc : Nat} (denotes : Denotes buf c t) (at_s : At buf s toks) (room : toks.length ≤ buf.length)
    (enough : toks.length < fuel) : Outcome buf (Args t argc toks) (argLoop buf fuel c argc s) := by
  induction fuel generalizing c t argc s toks with
  | zero => omega
  | succ fuel ih =>
    obtain ⟨s₁, peeked, at₁⟩ := peek_eq at_s [bar, rparen, amp, semi] (by decide)
    rw [argLoop, peeked]
    cases found : opens [bar, rparen, amp, semi] toks with
    | true => exact .ok denotes at₁ (.done t argc toks (.inr found))
    | false =>
      simp only [Bool.false_eq_true, if_false]
      match toks with
      | [] =>
        obtain ⟨_, s₂, ended, at₂⟩ := gettoken_end clean at₁
        simp only [ended, if_true]
        exact .ok denotes at₂ (.done t argc [] (.inl rfl))
      | .sym k :: toks =>
        obtain ⟨_, _, other, -, visible, noWord⟩ := gettoken_sym clean at₁
        simp only [other, visible, ne_eq, noWord, not_false_iff, if_true, if_false]
        exact .panic _
      | .word w :: toks =>
        obtain ⟨p, s₂, word, occurs, at₂⟩ := gettoken_word clean at₁
        have letter : letterA ≠ 0 := by decide
        simp only [word, letter, ne_eq, not_true, if_false]
        simp only [List.length_cons] at room enough
        split
        next => exact .panic _
        next few =>
          refine (parseredirs_sound clean (denotes.push occurs) at₂ (by omega)).bind fun {c₃ t₃ s₃ rest₃} denotes₃ at₃ redirs => ?_
          have shorter := redirs.extends.1.shorter
          exact (ih denotes₃ at₃ (by omega) (by omega)).imp fun _ _ => .more (by omega) redirs

theorem backLoop_sound (denotes : Denotes buf c t) (at_s : At buf s toks) (enough : toks.length < fuel) :
    Outcome buf (Backs t toks) (backLoop buf fuel c s) := by
  induction fuel generalizing c t s toks with
  | zero => omega
  | succ fuel ih =>
    obtain ⟨s₁, peeked, at₁⟩ := peek_eq at_s [amp] (by decide)
    rw [backLoop, peeked]
    cases found : opens [amp] toks with
    | false => exact .ok denotes at₁ (.done t toks found)
    | true =>
      obtain ⟨toks, rfl⟩ := opens_single (by decide) found
      obtain ⟨_, s₂, got, at₂, -⟩ := gettoken_sym clean at₁
      simp only [got, if_true]
      simp only [List.length_cons] at enough
      exact (ih (.back denotes) at₂ (by omega)).imp fun _ _ => .more

omit clean in
theorem At.short (at_s : At buf s toks) : toks.length ≤ buf.length := by
  have fewer := length_lex (buf.drop s)
  rw [at_s.tokens, List.length_drop] at fewer
  omega

/-- The functions that call each other, with fuel for the tokens that are left: a call costs one, and between
two calls of the same function there is a token. -/
structure Sound (buf : List Byte) (fuel : Nat) : Prop where
  line : ∀ {s toks}, At buf s toks → 4 * toks.length + 4 ≤ fuel →
    Outcome buf (Parses .line toks) (parseline buf fuel s)
  pipe : ∀ {s toks}, At buf s toks → 4 * toks.length + 3 ≤ fuel →
    Outcome buf (Parses .pipe toks) (parsepipe buf fuel s)
  exec : ∀ {s toks}, At buf s toks → 4 * toks.length + 2 ≤ fuel →
    Outcome buf (Parses .exec toks) (parseexec buf fuel s)
  block : ∀ {s toks}, At buf s (.sym lparen :: toks) → 4 * toks.length + 5 ≤ fuel →
    Outcome buf (Parses .exec (.sym lparen :: toks)) (parseblock buf fuel s)

theorem parseline_sound (sound : Sound buf fuel) (at_s : At buf s toks) (enough : 4 * toks.length + 4 ≤ fuel + 1) :
    Outcome buf (Parses .line toks) (parseline buf (fuel + 1) s) := by
  rw [parseline]
  refine (sound.pipe at_s (by omega)).bind fun {c₁ t₁ s₁ toks₁} denotes₁ at₁ first => ?_
  have shorter₁ := first.extends.shorter
  refine (backLoop_sound clean denotes₁ at₁ (Nat.lt_succ_of_le at₁.short)).bind
    fun {c₂ t₂ s₂ toks₂} denotes₂ at₂ backs => ?_
  have shorter₂ := backs.extends.shorter
  obtain ⟨s₃, peeked, at₃⟩ := peek_eq at₂ [semi] (by decide)
  simp only [peeked]
  cases found : opens [semi] toks₂ with
  | false => exact .ok denotes₂ at₃ (.single first backs found)
  | true =>
    obtain ⟨toks₃, rfl⟩ := opens_single (by decide) found
    obtain ⟨_, s₄, got, at₄, -⟩ := gettoken_sym clean at₃
    simp only [got, if_true]
    rw [List.length_cons] at shorter₂
    refine (sound.line at₄ (by omega)).bind fun denotes₅ at₅ second => ?_
    exact .ok (.list denotes₂ denotes₅) at₅ (.listed first backs second)

theorem parsepipe_sound (sound : Sound buf fuel) (at_s : At buf s toks) (enough : 4 * toks.length + 3 ≤ fuel + 1) :
    Outcome buf (Parses .pipe toks) (parsepipe buf (fuel + 1) s) := by
  rw [parsepipe]
  refine (sound.exec at_s (by omega)).bind fun {c₁ t₁ s₁ toks₁} denotes₁ at₁ first => ?_
  have shorter := first.extends.shorter
  obtain ⟨s₂, peeked, at₂⟩ := peek_eq at₁ [bar] (by decide)
  simp only [peeked]
  cases found : opens [bar] toks₁ with
  | false => exact .ok denotes₁ at₂ (.last first found)
  | true =>
    obtain ⟨toks₂, rfl⟩ := opens_single (by decide) found
    obtain ⟨_, s₃, got, at₃, -⟩ := gettoken_sym clean at₂
    simp only [got, if_true]
    rw [List.length_cons] at shorter
    refine (sound.pipe at₃ (by omega)).bind fun denotes₄ at₄ second => ?_
    exact .ok (.pipe denotes₁ denotes₄) at₄ (.piped first second)

theorem parseblock_sound (sound : Sound buf fuel) (at_s : At buf s (.sym lparen :: toks))
    (enough : 4 * toks.length + 5 ≤ fuel + 1) :
    Outcome buf (Parses .exec (.sym lparen :: toks)) (parseblock buf (fuel + 1) s) := by
  obtain ⟨s₁, peeked, at₁⟩ := peek_eq at_s [lparen] (by decide)
  obtain ⟨_, s₂, got, at₂, -⟩ := gettoken_sym clean at₁
  have starts : opens [lparen] (.sym lparen :: toks) = true := rfl
  rw [parseblock, peeked, starts]
  simp only [got, Bool.not_true, Bool.false_eq_true, if_false]
  refine (sound.line at₂ (by omega)).bind fun {c₃ t₃ s₃ toks₃} denotes₃ at₃ inner => ?_
  obtain ⟨s₄, peeked₄, at₄⟩ := peek_eq at₃ [rparen] (by decide)
  simp only [peeked₄]
  cases found : opens [rparen] toks₃ with
  | false => exact .panic _
  | true =>
    obtain ⟨toks₄, rfl⟩ := opens_single (by decide) found
    obtain ⟨_, s₅, got₅, at₅, -⟩ := gettoken_sym clean at₄
    simp only [got₅, Bool.not_true, Bool.false_eq_true, if_false]
    exact (parseredirs_sound clean denotes₃ at₅ (Nat.lt_succ_of_le at₅.short)).imp fun _ _ => .block inner

theorem parseexec_sound (sound : Sound buf fuel) (at_s : At buf s toks) (enough : 4 * toks.length + 2 ≤ fuel + 1) :
    Outcome buf (Parses .exec toks) (parseexec buf (fuel + 1) s) := by
  obtain ⟨s₁, peeked, at₁⟩ := peek_eq at_s [lparen] (by decide)
  rw [parseexec, peeked]
  cases found : opens [lparen] toks with
  | true =>
    obtain ⟨toks₁, rfl⟩ := opens_single (by decide) found
    rw [List.length_cons] at enough
    exact sound.block at₁ (by omega)
  | false =>
    simp only [Bool.false_eq_true, if_false]
    refine (parseredirs_sound clean (.exec .nil) at₁ (Nat.lt_succ_of_le at₁.short)).bind
      fun {c₂ t₂ s₂ toks₂} denotes₂ at₂ redirs => ?_
    exact (argLoop_sound clean denotes₂ at₂ at₂.short (Nat.lt_succ_of_le at₂.short)).imp fun _ _ => .words found redirs

theorem sound (fuel : Nat) : Sound buf fuel := by
  induction fuel with
  | zero => exact ⟨fun _ few => by omega, fun _ few => by omega, fun _ few => by omega, fun _ few => by omega⟩
  | succ fuel ih =>
    exact ⟨parseline_sound clean ih, parsepipe_sound clean ih, parseexec_sound clean ih, parseblock_sound clean ih⟩

end Sound

section Complete

variable {buf : List Byte} {c : Cmd Span} {t t' : Cmd (List Byte)} {s fuel : Nat} {toks rest : List (Tok (List Byte))}

/-- A call returns the tree, with the cursor behind it. -/
def Returns (buf : List Byte) (x : Except Stop (Cmd Span × Nat)) (t : Cmd (List Byte)) (rest : List (Tok (List Byte))) :
    Prop :=
  ∃ c s, x = .ok (c, s) ∧ Denotes buf c t ∧ At buf s rest

/-- The function of a level. -/
def Level.run (buf : List Byte) : Level → Nat → Nat → Except Stop (Cmd Span × Nat)
  | .exec => parseexec buf
  | .pipe => parsepipe buf
  | .line => parseline buf

/-- The fuel that it needs for `n` tokens. -/
def Level.need (n : Nat) : Level → Nat
  | .exec => 4 * n + 2
  | .pipe => 4 * n + 3
  | .line => 4 * n + 4

/-- The function of a level returns the tree, wherever the tokens are. -/
def Complete (buf : List Byte) (level : Level) (toks : List (Tok (List Byte))) (t : Cmd (List Byte))
    (rest : List (Tok (List Byte))) : Prop :=
  ∀ ⦃s fuel⦄, At buf s toks → level.need toks.length ≤ fuel → Returns buf (level.run buf fuel s) t rest

variable (clean : 0 ∉ buf)

include clean

theorem parseredirs_complete (redirs : Redirs t toks t' rest) (denotes : Denotes buf c t) (at_s : At buf s toks)
    (enough : toks.length < fuel) : Returns buf (parseredirs buf fuel c s) t' rest := by
  induction redirs generalizing c s fuel with
  | done t toks closed =>
    obtain ⟨fuel, rfl⟩ := Nat.exists_eq_add_one.mpr (Nat.zero_lt_of_lt enough)
    obtain ⟨s₁, peeked, at₁⟩ := peek_eq at_s [lt, gt] (by decide)
    refine ⟨c, s₁, ?_, denotes, at₁⟩
    rw [parseredirs, peeked, closed]
    rfl
  | @more t k file toks t' rest kind _ ih =>
    obtain ⟨fuel, rfl⟩ := Nat.exists_eq_add_one.mpr (Nat.zero_lt_of_lt enough)
    obtain ⟨s₁, peeked, at₁⟩ := peek_eq at_s [lt, gt] (by decide)
    obtain ⟨_, s₂, got, at₂, -⟩ := gettoken_sym clean at₁
    obtain ⟨p, s₃, word, occurs, at₃⟩ := gettoken_word clean at₂
    simp only [List.length_cons] at enough
    rw [parseredirs, peeked, opens_redir, kind]
    simp only [got, word, ne_eq, not_true, if_true, if_false]
    exact ih (denotes.redirect occurs k) at₃ (by omega)

theorem argLoop_complete {argc : Nat} (parsed : Args t argc toks t' rest) (denotes : Denotes buf c t) (at_s : At buf s toks)
    (enough : toks.length < fuel) : Returns buf (argLoop buf fuel c argc s) t' rest := by
  induction parsed generalizing c s fuel with
  | done t argc toks stops =>
    obtain ⟨fuel, rfl⟩ := Nat.exists_eq_add_one.mpr (Nat.zero_lt_of_lt enough)
    obtain ⟨s₁, peeked, at₁⟩ := peek_eq at_s [bar, rparen, amp, semi] (by decide)
    rcases stops with rfl | found
    · obtain ⟨_, s₂, ended, at₂⟩ := gettoken_end clean at₁
      refine ⟨c, s₂, ?_, denotes, at₂⟩
      rw [argLoop, peeked]
      simp only [opens, ended, Bool.false_eq_true, if_true, if_false]
    · refine ⟨c, s₁, ?_, denotes, at₁⟩
      rw [argLoop, peeked, found]
      rfl
  | @more t argc w toks t₁ toks₁ t' rest few redirs _ ih =>
    obtain ⟨fuel, rfl⟩ := Nat.exists_eq_add_one.mpr (Nat.zero_lt_of_lt enough)
    obtain ⟨s₁, peeked, at₁⟩ := peek_eq at_s [bar, rparen, amp, semi] (by decide)
    obtain ⟨p, s₂, word, occurs, at₂⟩ := gettoken_word clean at₁
    obtain ⟨c₃, s₃, ran, denotes₃, at₃⟩ :=
      parseredirs_complete clean redirs (denotes.push occurs) at₂ (Nat.lt_succ_of_le at₂.short)
    have letter : letterA ≠ 0 := by decide
    have shorter := redirs.extends.1.shorter
    rw [List.length_cons] at enough
    rw [argLoop, peeked]
    simp only [opens, word, letter, ne_eq, not_true, Bool.false_eq_true, if_false]
    rw [if_neg (by omega), Steps.ok_bind ran]
    exact ih denotes₃ at₃ (by omega)

theorem backLoop_complete (parsed : Backs t toks t' rest) (denotes : Denotes buf c t) (at_s : At buf s toks)
    (enough : toks.length < fuel) : Returns buf (backLoop buf fuel c s) t' rest := by
  induction parsed generalizing c s fuel with
  | done t toks closed =>
    obtain ⟨fuel, rfl⟩ := Nat.exists_eq_add_one.mpr (Nat.zero_lt_of_lt enough)
    obtain ⟨s₁, peeked, at₁⟩ := peek_eq at_s [amp] (by decide)
    refine ⟨c, s₁, ?_, denotes, at₁⟩
    rw [backLoop, peeked, closed]
    rfl
  | @more t toks t' rest _ ih =>
    obtain ⟨fuel, rfl⟩ := Nat.exists_eq_add_one.mpr (Nat.zero_lt_of_lt enough)
    obtain ⟨s₁, peeked, at₁⟩ := peek_eq at_s [amp] (by decide)
    obtain ⟨_, s₂, got, at₂, -⟩ := gettoken_sym clean at₁
    rw [List.length_cons] at enough
    have found : opens [amp] (.sym amp :: toks) = true := rfl
    rw [backLoop, peeked, found]
    simp only [got, if_true]
    exact ih (.back denotes) at₂ (by omega)

theorem complete_block {toks₁ : List (Tok (List Byte))} (inner : Complete buf .line toks t (.sym rparen :: toks₁))
    (redirs : Redirs t toks₁ t' rest) : Complete buf .exec (.sym lparen :: toks) t' rest := by
  intro s fuel at_s enough
  -- one call of `parseexec` and one of `parseblock`
  obtain ⟨fuel, rfl⟩ := Nat.exists_eq_add_of_le' (show 2 ≤ fuel from by simp only [Level.need] at enough; omega)
  simp only [Level.need, List.length_cons] at enough
  obtain ⟨s₁, peeked, at₁⟩ := peek_eq at_s [lparen] (by decide)
  obtain ⟨s₂, again, at₂⟩ := peek_eq at₁ [lparen] (by decide)
  obtain ⟨_, s₃, got, at₃, -⟩ := gettoken_sym clean at₂
  obtain ⟨c₄, s₄, ran, denotes, at₄⟩ := inner at₃ (show 4 * toks.length + 4 ≤ fuel by omega)
  obtain ⟨s₅, closing, at₅⟩ := peek_eq at₄ [rparen] (by decide)
  obtain ⟨_, s₆, closed, at₆, -⟩ := gettoken_sym clean at₅
  have starts : opens [lparen] (.sym lparen :: toks) = true := rfl
  have ends : opens [rparen] (.sym rparen :: toks₁) = true := rfl
  show Returns buf (parseexec buf (fuel + 1 + 1) s) t' rest
  rw [parseexec, peeked, starts]
  simp only [if_true]
  rw [parseblock, again, starts]
  simp only [got, Bool.not_true, Bool.false_eq_true, if_false]
  rw [show parseline buf fuel s₃ = .ok (c₄, s₄) from ran, Steps.ok_bind rfl]
  simp only [closing, ends, closed, Bool.not_true, Bool.false_eq_true, if_false]
  exact parseredirs_complete clean redirs denotes at₆ (Nat.lt_succ_of_le at₆.short)

theorem complete_words {ret : Cmd (List Byte)} {toks₁ : List (Tok (List Byte))} (closed : opens [lparen] toks = false)
    (redirs : Redirs (.exec []) toks ret toks₁) (parsed : Args ret 0 toks₁ t rest) : Complete buf .exec toks t rest := by
  intro s fuel at_s enough
  obtain ⟨fuel, rfl⟩ := Nat.exists_eq_add_of_le' (show 1 ≤ fuel from by simp only [Level.need] at enough; omega)
  obtain ⟨s₁, peeked, at₁⟩ := peek_eq at_s [lparen] (by decide)
  obtain ⟨c₂, s₂, ran, denotes, at₂⟩ :=
    parseredirs_complete clean redirs (.exec .nil) at₁ (Nat.lt_succ_of_le at₁.short)
  show Returns buf (parseexec buf (fuel + 1) s) t rest
  rw [parseexec, peeked, closed]
  simp only [Bool.false_eq_true, if_false]
  rw [Steps.ok_bind ran]
  exact argLoop_complete clean parsed denotes at₂ (Nat.lt_succ_of_le at₂.short)

omit clean in
theorem complete_last (inner : Complete buf .exec toks t rest) (closed : opens [bar] rest = false) :
    Complete buf .pipe toks t rest := by
  intro s fuel at_s enough
  obtain ⟨fuel, rfl⟩ := Nat.exists_eq_add_of_le' (show 1 ≤ fuel from by simp only [Level.need] at enough; omega)
  obtain ⟨c₁, s₁, ran, denotes, at₁⟩ := inner at_s (Nat.le_of_succ_le_succ enough)
  obtain ⟨s₂, peeked, at₂⟩ := peek_eq at₁ [bar] (by decide)
  refine ⟨c₁, s₂, ?_, denotes, at₂⟩
  show parsepipe buf (fuel + 1) s = _
  rw [parsepipe]
  refine (Steps.ok_bind ran).trans ?_
  simp only [peeked, closed, Bool.false_eq_true, if_false]

theorem complete_piped {left right : Cmd (List Byte)} {toks₁ : List (Tok (List Byte))}
    (first : Complete buf .exec toks left (.sym bar :: toks₁)) (second : Complete buf .pipe toks₁ right rest)
    (shorter : toks₁.length < toks.length) : Complete buf .pipe toks (.pipe left right) rest := by
  intro s fuel at_s enough
  obtain ⟨fuel, rfl⟩ := Nat.exists_eq_add_of_le' (show 1 ≤ fuel from by simp only [Level.need] at enough; omega)
  obtain ⟨c₁, s₁, ran, denotes₁, at₁⟩ := first at_s (Nat.le_of_succ_le_succ enough)
  obtain ⟨s₂, peeked, at₂⟩ := peek_eq at₁ [bar] (by decide)
  obtain ⟨_, s₃, got, at₃, -⟩ := gettoken_sym clean at₂
  simp only [Level.need] at enough
  obtain ⟨c₄, s₄, ran₄, denotes₄, at₄⟩ := second at₃ (show 4 * toks₁.length + 3 ≤ fuel by omega)
  have found : opens [bar] (.sym bar :: toks₁) = true := rfl
  refine ⟨.pipe c₁ c₄, s₄, ?_, .pipe denotes₁ denotes₄, at₄⟩
  show parsepipe buf (fuel + 1) s = _
  rw [parsepipe]
  refine (Steps.ok_bind ran).trans ?_
  simp only [peeked, found, got, if_true]
  exact Steps.ok_bind ran₄

theorem complete_single {toks₁ : List (Tok (List Byte))} (first : Complete buf .pipe toks t toks₁)
    (backs : Backs t toks₁ t' rest) (closed : opens [semi] rest = false) : Complete buf .line toks t' rest := by
  intro s fuel at_s enough
  obtain ⟨fuel, rfl⟩ := Nat.exists_eq_add_of_le' (show 1 ≤ fuel from by simp only [Level.need] at enough; omega)
  obtain ⟨c₁, s₁, ran, denotes₁, at₁⟩ := first at_s (Nat.le_of_succ_le_succ enough)
  obtain ⟨c₂, s₂, loop, denotes₂, at₂⟩ := backLoop_complete clean backs denotes₁ at₁ (Nat.lt_succ_of_le at₁.short)
  obtain ⟨s₃, peeked, at₃⟩ := peek_eq at₂ [semi] (by decide)
  refine ⟨c₂, s₃, ?_, denotes₂, at₃⟩
  show parseline buf (fuel + 1) s = _
  rw [parseline]
  refine (Steps.ok_bind ran).trans ((Steps.ok_bind loop).trans ?_)
  simp only [peeked, closed, Bool.false_eq_true, if_false]

theorem complete_listed {left right : Cmd (List Byte)} {toks₁ toks₂ : List (Tok (List Byte))}
    (first : Complete buf .pipe toks t toks₁) (backs : Backs t toks₁ left (.sym semi :: toks₂))
    (second : Complete buf .line toks₂ right rest) (shorter : toks₂.length < toks.length) :
    Complete buf .line toks (.list left right) rest := by
  intro s fuel at_s enough
  obtain ⟨fuel, rfl⟩ := Nat.exists_eq_add_of_le' (show 1 ≤ fuel from by simp only [Level.need] at enough; omega)
  obtain ⟨c₁, s₁, ran, denotes₁, at₁⟩ := first at_s (Nat.le_of_succ_le_succ enough)
  obtain ⟨c₂, s₂, loop, denotes₂, at₂⟩ := backLoop_complete clean backs denotes₁ at₁ (Nat.lt_succ_of_le at₁.short)
  obtain ⟨s₃, peeked, at₃⟩ := peek_eq at₂ [semi] (by decide)
  obtain ⟨_, s₄, got, at₄, -⟩ := gettoken_sym clean at₃
  simp only [Level.need] at enough
  obtain ⟨c₅, s₅, ran₅, denotes₅, at₅⟩ := second at₄ (show 4 * toks₂.length + 4 ≤ fuel by omega)
  have found : opens [semi] (.sym semi :: toks₂) = true := rfl
  refine ⟨.list c₂ c₅, s₅, ?_, .list denotes₂ denotes₅, at₅⟩
  show parseline buf (fuel + 1) s = _
  rw [parseline]
  refine (Steps.ok_bind ran).trans ((Steps.ok_bind loop).trans ?_)
  simp only [peeked, found, got, if_true]
  exact Steps.ok_bind ran₅

theorem complete {level : Level} (parsed : Parses level toks t rest) : Complete buf level toks t rest := by
  induction parsed with
  | block _ redirs ih => exact complete_block clean ih redirs
  | words closed redirs parsed => exact complete_words clean closed redirs parsed
  | last _ closed ih => exact complete_last ih closed
  | piped first _ ihl ihr => exact complete_piped clean ihl ihr first.extends.shorter
  | single _ backs closed ih => exact complete_single clean ih backs closed
  | listed first backs _ ihl ihr =>
    exact complete_listed clean ihl backs ihr (first.extends.trans backs.extends).shorter

end Complete

section Terminate

/-- Where the NULs are written. -/
def Cmd.ends : Cmd Span → List Nat
  | .exec argv => argv.map Span.eq
  | .redir cmd file _ _ => cmd.ends ++ [file.eq]
  | .pipe left right => left.ends ++ right.ends
  | .list left right => left.ends ++ right.ends
  | .back cmd => cmd.ends

/-- NULs at some places. -/
def clear (buf : List Byte) (ends : List Nat) : List Byte := ends.foldl (fun buf i => buf.set i 0) buf

theorem nulterminate_eq (c : Cmd Span) (buf : List Byte) : nulterminate c buf = clear buf c.ends := by
  induction c generalizing buf with
  | exec argv => rw [nulterminate, Cmd.ends, clear, List.foldl_map]
  | redir cmd file mode fd ih =>
    rw [nulterminate, ih, clear, clear, Cmd.ends, List.foldl_append, List.foldl_cons, List.foldl_nil]
  | pipe left right first second => rw [nulterminate, first, second, clear, clear, clear, Cmd.ends, List.foldl_append]
  | list left right first second => rw [nulterminate, first, second, clear, clear, clear, Cmd.ends, List.foldl_append]
  | back cmd ih => rw [nulterminate, ih, Cmd.ends]

/-- The string at the start of a word. -/
def stringAt (buf : List Byte) (p : Span) : List Byte := cstr (buf.drop p.q)

variable {buf : List Byte} {c : Cmd Span} {t : Cmd (List Byte)} {ends : List Nat}

theorem clear_get (ends : List Nat) (buf : List Byte) (i : Nat) :
    (clear buf ends)[i]? = if i ∈ ends then buf[i]?.map fun _ => 0 else buf[i]? := by
  unfold clear
  induction ends generalizing buf with
  | nil => simp
  | cons e ends ih =>
    rw [List.foldl_cons, ih, List.getElem?_set]
    by_cases here : e = i
    · subst here
      by_cases inside : e < buf.length <;> simp [inside]
    · have other : i ∈ e :: ends ↔ i ∈ ends := by simp [Ne.symm here]
      simp only [if_neg here, other]

theorem Occurs.clear_drop {p : Span} {w : List Byte} (occurs : Occurs buf p w)
    (outside : ∀ e ∈ ends, ∀ c, buf[e]? = some c → isWordChar c = false) :
    (clear buf ends).drop p.q = w ++ (clear buf ends).drop p.eq := by
  refine List.ext_getElem? fun j => ?_
  rw [List.getElem?_drop, List.getElem?_append]
  split
  next less =>
    have here : buf[p.q + j]? = w[j]? := by
      rw [← List.getElem?_drop, occurs.start, List.getElem?_append_left less]
    rw [clear_get, if_neg, here]
    intro written
    rw [List.getElem?_eq_getElem less] at here
    have char := occurs.chars _ (List.getElem_mem less)
    rw [outside _ written _ here] at char
    cases char
  next past =>
    rw [List.getElem?_drop, occurs.stop]
    congr 1
    omega

theorem Occurs.string {p : Span} {w : List Byte} (occurs : Occurs buf p w) (clean : 0 ∉ buf) (mem : p.eq ∈ ends)
    (outside : ∀ e ∈ ends, ∀ c, buf[e]? = some c → isWordChar c = false) : stringAt (clear buf ends) p = w := by
  have visible : ∀ b ∈ w, (b != 0) = true := by
    intro b member
    have inside : b ∈ buf := List.mem_of_mem_drop (occurs.start ▸ List.mem_append_left _ member)
    simpa using fun zero : b = 0 => clean (zero ▸ inside)
  have behind : ((clear buf ends).drop p.eq).head? = buf[p.eq]?.map fun _ => 0 := by
    rw [List.head?_drop, clear_get, if_pos mem]
  rw [stringAt, occurs.clear_drop outside, cstr, List.takeWhile_append_of_pos visible]
  generalize (clear buf ends).drop p.eq = rest at behind
  cases rest with
  | nil => rw [List.takeWhile_nil, List.append_nil]
  | cons b rest =>
    obtain ⟨_, -, rfl⟩ := Option.map_eq_some_iff.mp behind.symm
    rw [List.takeWhile_cons_of_neg (by decide), List.append_nil]

theorem Denotes.outside (denotes : Denotes buf c t) : ∀ e ∈ c.ends, ∀ b, buf[e]? = some b → isWordChar b = false := by
  have single : ∀ {p w}, Occurs buf p w → ∀ b, buf[p.eq]? = some b → isWordChar b = false := by
    intro p w occurs b found
    exact occurs.ends b (by rw [List.head?_drop, found])
  induction denotes with
  | exec all =>
    induction all with
    | nil => simp [Cmd.ends]
    | cons occurs _ ih =>
      intro e mem
      rcases List.mem_cons.mp mem with rfl | mem
      · exact single occurs
      · exact ih e mem
  | redir _ file ih =>
    intro e mem
    rcases List.mem_append.mp mem with mem | mem
    · exact ih e mem
    · rw [List.mem_singleton.mp mem]
      exact single file
  | pipe _ _ first second =>
    intro e mem
    exact (List.mem_append.mp mem).elim (first e) (second e)
  | list _ _ first second =>
    intro e mem
    exact (List.mem_append.mp mem).elim (first e) (second e)
  | back _ ih => exact ih

/-- The tree of strings, with NULs behind the words of the tree and perhaps of others. -/
theorem Denotes.strings (denotes : Denotes buf c t) (clean : 0 ∉ buf) (own : ∀ e ∈ c.ends, e ∈ ends)
    (outside : ∀ e ∈ ends, ∀ c, buf[e]? = some c → isWordChar c = false) : c.map (stringAt (clear buf ends)) = t := by
  induction denotes with
  | exec all =>
    rw [Cmd.map, Cmd.exec.injEq]
    induction all with
    | nil => rfl
    | cons occurs _ ih =>
      rw [List.map_cons, occurs.string clean (own _ List.mem_cons_self) outside,
        ih fun e mem => own e (List.mem_cons_of_mem _ mem)]
  | redir _ file ih =>
    rw [Cmd.map, ih fun e mem => own e (List.mem_append_left _ mem),
      file.string clean (own _ (List.mem_append_right _ (List.mem_singleton_self _))) outside]
  | pipe _ _ first second =>
    rw [Cmd.map, first fun e mem => own e (List.mem_append_left _ mem),
      second fun e mem => own e (List.mem_append_right _ mem)]
  | list _ _ first second =>
    rw [Cmd.map, first fun e mem => own e (List.mem_append_left _ mem),
      second fun e mem => own e (List.mem_append_right _ mem)]
  | back _ ih => rw [Cmd.map, ih own]

theorem nulterminate_strings (denotes : Denotes buf c t) (clean : 0 ∉ buf) :
    c.map (stringAt (nulterminate c buf)) = t := by
  rw [nulterminate_eq]
  exact denotes.strings clean (fun _ mem => mem) denotes.outside

end Terminate

end Xv6.Shell
