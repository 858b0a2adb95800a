import Xv6.Lib.Tokens
import Xv6.ProjShell.Model

/-!
# The sizes of the arrays

The counting loop counts the runs of blanks and semicolons of the trimmed line, the other two passes store its
pieces and their words. The counts bound what is stored only for few lines.
-/

namespace Xv6.ProjShell

open Bytes Tokens

section Trim

/-- The text without the blanks at both ends. -/
def trim (s : List Byte) : List Byte :=
  (s.dropWhile isspace).rdropWhile isspace

theorem startIndex_eq (s : List Byte) : startIndex s = (s.takeWhile isspace).length := by
  induction s with
  | nil => rfl
  | cons c s ih =>
    rw [startIndex, List.takeWhile_cons]
    split
    next => rw [ih, List.length_cons]
    next => rfl

/-- The loop from the right replaces exactly the blanks at the end, whatever NULs it has left behind. -/
theorem clearRight_eq (s : List Byte) (k : Nat) :
    ∃ m, clearRight (s ++ List.replicate k 0) s.length = s.rdropWhile isspace ++ List.replicate m 0 := by
  induction s using List.reverseRecOn generalizing k with
  | nil => exact ⟨k, rfl⟩
  | append_singleton s c ih =>
    rw [List.length_append, List.length_singleton, clearRight, List.rdropWhile_concat]
    have last : (s ++ [c] ++ List.replicate k 0).getD s.length 0 = c := by simp
    rw [last]
    split
    next blank =>
      have cleared : (s ++ [c] ++ List.replicate k 0).set s.length 0 = s ++ List.replicate (k + 1) 0 := by
        simp [List.replicate_succ]
      rw [cleared]
      exact ih (k + 1)
    next => exact ⟨k, rfl⟩

theorem cstr_append_zeros {s : List Byte} (terminated : 0 ∉ s) (m : Nat) : cstr (s ++ List.replicate m 0) = s := by
  have whole : ∀ c ∈ s, (c != 0) = true := by
    intro c mem
    simpa using fun zero : c = 0 => terminated (zero ▸ mem)
  rw [cstr, List.takeWhile_append_of_pos whole]
  cases m <;> simp [List.replicate_succ]

theorem rdropWhile_mem {p : Byte → Bool} {s : List Byte} {c : Byte} (mem : c ∈ s.rdropWhile p) : c ∈ s :=
  (List.rdropWhile_prefix p s).sublist.mem mem

theorem rdropWhile_append (p : Byte → Bool) (s t : List Byte) :
    (s ++ t).rdropWhile p = if t.rdropWhile p = [] then s.rdropWhile p else s ++ t.rdropWhile p := by
  simp only [List.rdropWhile, List.reverse_append, List.dropWhile_append, List.isEmpty_iff, List.reverse_eq_nil_iff]
  split
  next => rfl
  next => rw [List.reverse_append, List.reverse_reverse]

theorem leftRightTrim_eq (input : CString) : (leftRightTrim input).bytes = trim input.bytes := by
  obtain ⟨m, cleared⟩ := clearRight_eq input.bytes 0
  rw [List.replicate_zero, List.append_nil] at cleared
  have blank : ∀ c ∈ input.bytes.takeWhile isspace, isspace c = true := fun c mem => List.mem_takeWhile_imp mem
  have kept : 0 ∉ trim input.bytes := fun mem =>
    input.terminated ((List.dropWhile_sublist _).mem (rdropWhile_mem mem))
  have parts := rdropWhile_append isspace (input.bytes.takeWhile isspace) (input.bytes.dropWhile isspace)
  rw [List.takeWhile_append_dropWhile] at parts
  have trimmed : cstr ((input.bytes.rdropWhile isspace ++ List.replicate m 0).drop (input.bytes.takeWhile isspace).length)
      = trim input.bytes := by
    rw [parts]
    split
    next none =>
      -- a line of blanks only: the string starts among the NULs
      rw [List.rdropWhile_eq_nil_iff.mpr blank, List.nil_append, List.drop_replicate, trim, none]
      exact cstr_append_zeros List.not_mem_nil _
    next =>
      rw [List.append_assoc, List.drop_left]
      exact cstr_append_zeros kept m
  show cstr _ = _
  rw [cleared, startIndex_eq, trimmed]

theorem trim_parts (s : List Byte) :
    ∃ b e, s = b ++ trim s ++ e ∧ (∀ c ∈ b, isspace c = true) ∧ ∀ c ∈ e, isspace c = true := by
  refine ⟨s.takeWhile isspace, (s.dropWhile isspace).rtakeWhile isspace, ?_, fun c mem => List.mem_takeWhile_imp mem,
    fun c mem => List.mem_rtakeWhile_imp mem⟩
  rw [List.append_assoc, trim, List.rdropWhile_append_rtakeWhile, List.takeWhile_append_dropWhile]

end Trim

section Count

/-- The maximal runs of blanks and semicolons. -/
def runs (s : List Byte) : List (List Byte) :=
  tokens (fun c => !isSeparator c) s

variable {input : List Byte}

theorem charAt_drop {i : Nat} {c : Byte} {s : List Byte} (here : input.drop i = c :: s) : charAt input i = .ok c := by
  have inside : i < input.length := by
    by_contra out
    rw [List.drop_of_length_le (by omega)] at here
    cases here
  have at_i : input[i]? = some c := by rw [← List.head?_drop, here, List.head?_cons]
  rw [charAt, if_pos inside, List.getD_eq_getElem?_getD, at_i, Option.getD_some]

theorem skipLoop_eq {fuel i : Nat} (enough : input.length < fuel + i) (inside : i ≤ input.length) (flag : Bool) :
    skipLoop input fuel i flag = .ok (i + ((input.drop i).takeWhile isSeparator).length,
      flag || ((input.drop i).takeWhile isSeparator).any isSemicolon) := by
  induction fuel generalizing i flag with
  | zero => omega
  | succ fuel ih =>
    match rest : input.drop i with
    | [] =>
      -- the NUL at the end is no separator
      have ended : i = input.length := by
        have := List.drop_eq_nil_iff.mp rest
        omega
      have nul : charAt input i = .ok 0 := by rw [charAt, if_neg (by omega), if_pos ended]
      rw [skipLoop, nul]
      simp
      rfl
    | c :: s =>
      have next : input.drop (i + 1) = s := by rw [← List.drop_drop, rest, List.drop_one, List.tail_cons]
      have more : i + 1 ≤ input.length := by
        have := congrArg List.length rest
        rw [List.length_drop, List.length_cons] at this
        omega
      rw [skipLoop, Steps.ok_bind (charAt_drop rest)]
      cases kind : isSeparator c with
      | false => simp [kind]
      | true =>
        rw [if_pos rfl, ih (by omega) more, next, List.takeWhile_cons_of_pos kind, List.length_cons, List.any_cons,
          Bool.or_assoc]
        congr 2
        omega

theorem runs_cons {c : Byte} {s : List Byte} (kind : isSeparator c = true) :
    runs (c :: s) = (c :: s.takeWhile isSeparator) :: runs (s.dropWhile isSeparator).tail := by
  have opposite : (fun x => !!isSeparator x) = isSeparator := funext fun x => Bool.not_not (isSeparator x)
  have rest := tokens_tail_dropWhile (p := fun x => !isSeparator x) s
  rw [opposite] at rest
  rw [runs, tokens_step (by simp [kind]), opposite, runs, rest]

theorem countLoop_eq {fuel i : Nat} (positive : 0 < fuel) (enough : input.length < fuel + i) (n m : Nat) :
    countLoop input fuel i { numOfCommands := n, numOfCommandsAndArgs := m } = .ok
      { numOfCommands := n + (runs (input.drop i)).countP (·.any isSemicolon)
        numOfCommandsAndArgs := m + (runs (input.drop i)).length } := by
  induction fuel generalizing i n m with
  | zero => omega
  | succ fuel ih =>
    match rest : input.drop i with
    | [] =>
      have ended := List.drop_eq_nil_iff.mp rest
      rw [countLoop, if_neg (by omega)]
      simp [runs]
    | c :: s =>
      have inside : i < input.length := by
        have := congrArg List.length rest
        rw [List.length_drop, List.length_cons] at this
        omega
      have skip : skipLoop input (input.length + 1) i false = _ := skipLoop_eq (by omega) (by omega) false
      rw [countLoop, if_pos inside, Steps.ok_bind (charAt_drop rest), Steps.ok_bind skip, rest]
      -- the byte the run ends at is passed by `i++`; as no separator it is in no run
      have after : ∀ k, input.drop (i + k + 1) = ((c :: s).drop k).tail := by
        intro k
        rw [← List.drop_drop, ← List.drop_drop, rest, List.drop_one]
      cases kind : isSeparator c with
      | false =>
        have passed : runs (c :: s) = runs s := tokens_cons s (by simp [kind])
        rw [List.takeWhile_cons_of_neg (by simp [kind]), passed]
        simp only [List.length_nil, List.any_nil, Bool.or_self, Bool.false_eq_true, if_false]
        rw [ih (by omega) (by omega), after 0]
        rfl
      | true =>
        rw [List.takeWhile_cons_of_pos kind, runs_cons kind, List.countP_cons, List.length_cons]
        have next : input.drop (i + ((s.takeWhile isSeparator).length + 1) + 1) = (s.dropWhile isSeparator).tail := by
          rw [after, List.drop_succ_cons]
          congr 1
          have parts := List.takeWhile_append_dropWhile (p := isSeparator) (l := s)
          exact (congrArg (List.drop (s.takeWhile isSeparator).length) parts).symm.trans List.drop_left
        rw [List.length_cons]
        cases semicolon : (c :: s.takeWhile isSeparator).any isSemicolon with
        | true =>
          simp only [Bool.or_true, if_true]
          rw [ih (by omega) (by omega), next]
          simp only [Except.ok.injEq, Count.mk.injEq, and_true]
          omega
        | false =>
          simp only [Bool.or_false, Bool.or_true, Bool.false_eq_true, if_false, if_true]
          rw [ih (by omega) (by omega), next]
          simp only [Except.ok.injEq, Count.mk.injEq, and_true]
          omega

end Count

section Store

variable {α : Type}

/-- An array whose first cells were written one after the other. -/
def Block.ofList (size : Nat) (l : List α) : Block α where
  size := size
  cell := fun i => l[i]?
  written := List.range l.length

@[simp] theorem Block.malloc_eq (size : Nat) : (Block.malloc size : Block α) = Block.ofList size [] := by
  simp [Block.malloc, Block.ofList]

theorem Block.write_ofList (size : Nat) (l : List α) (a : α) :
    (Block.ofList size l).write l.length a = Block.ofList size (l ++ [a]) := by
  simp only [Block.write, Block.ofList, List.length_append, List.length_singleton, List.range_succ, Block.mk.injEq,
    true_and, and_true]
  funext i
  rw [Function.update_apply, List.getElem?_append]
  split
  next last => simp [last]
  next other =>
    split
    next => rfl
    next past =>
      rw [List.getElem?_eq_none (by omega), List.getElem?_eq_none (by simp; omega)]

theorem Block.read_ofList {size i : Nat} {l : List α} {a : α} (here : l[i]? = some a) :
    (Block.ofList size l).read i = .ok a := by
  simp [Block.read, Block.ofList, here]

/-- All the indices written are inside the array. -/
def Block.InBounds (b : Block α) : Prop := ∀ i ∈ b.written, i < b.size

theorem Block.inBounds_ofList (size : Nat) (l : List α) : (Block.ofList size l).InBounds ↔ l.length ≤ size := by
  simp only [Block.InBounds, Block.ofList, List.mem_range]
  constructor
  · intro bounded
    by_contra long
    exact Nat.lt_irrefl _ (bounded size (by omega))
  · intro fits i inside
    omega

variable {delim : Byte → Bool} {s : List Byte}

theorem strtok_none (ended : strtok delim s = none) : tokens delim s = [] := by
  rw [strtok] at ended
  split at ended
  next blank => exact tokens_blank (List.dropWhile_eq_nil_iff.mp blank)
  next => cases ended

theorem strtok_some {parser rest : List Byte} (found : strtok delim s = some (parser, rest)) :
    tokens delim s = parser :: tokens delim rest ∧ rest.length < s.length := by
  have skipped : tokens delim (s.dropWhile delim) = tokens delim s := by
    conv_rhs => rw [← List.takeWhile_append_dropWhile (p := delim) (l := s)]
    exact (tokens_blank_append _ fun x mem => List.mem_takeWhile_imp mem).symm
  have shorter := (List.dropWhile_sublist delim (l := s)).length_le
  rw [strtok] at found
  split at found
  next => cases found
  next c t more =>
    obtain ⟨rfl, rfl⟩ := Prod.mk.inj (Option.some.inj found)
    have word : delim c = false := by
      have stopped := List.head_dropWhile_not delim (l := s) (by rw [more]; exact List.cons_ne_nil c t)
      simpa [more] using stopped
    have less := (List.dropWhile_sublist (fun x => !delim x) (l := t)).length_le
    rw [more, List.length_cons] at shorter
    rw [← skipped, more, tokens_step word, tokens_tail_dropWhile, List.length_tail]
    exact ⟨rfl, by omega⟩

theorem storeLoop_eq (store : List Byte → α) {fuel : Nat} (enough : s.length < fuel) (size : Nat) (l : List α) :
    storeLoop delim store fuel s l.length (Block.ofList size l) =
      .ok ((l ++ (tokens delim s).map store).length, Block.ofList size (l ++ (tokens delim s).map store)) := by
  induction fuel generalizing s l with
  | zero => omega
  | succ fuel ih =>
    rw [storeLoop]
    split
    next ended => rw [strtok_none ended, List.map_nil, List.append_nil]
    next parser rest found =>
      obtain ⟨parts, shorter⟩ := strtok_some found
      have stored := ih (s := rest) (by omega) (l ++ [store parser])
      rw [List.length_append, List.length_singleton] at stored
      rw [Block.write_ofList, stored, parts, List.map_cons, List.append_assoc, List.singleton_append]

end Store

section Fill

/-- The pieces that the second pass stores. -/
def pieces (s : List Byte) : List (List Byte) := tokens isSemicolon s

/-- The words that the last pass finds in a piece. -/
def args (piece : List Byte) : List (List Byte) := tokens isDelimiter piece

/-- The commands that the last pass stores. -/
def stored (s : List Byte) : List (List (List Byte)) := ((pieces s).map args).filter (· ≠ [])

/-- The cells of the words of some commands. -/
def cells (commands : List (List (List Byte))) : List (Option (List Byte)) :=
  commands.flatMap fun words => words.map some ++ [none]

/-- Where each of the commands starts. -/
def starts (commands : List (List (List Byte))) : List Nat :=
  (List.range commands.length).map fun i => (cells (commands.take i)).length

theorem cells_concat (commands : List (List (List Byte))) (words : List (List Byte)) :
    cells (commands ++ [words]) = cells commands ++ words.map some ++ [none] := by
  simp [cells]

theorem starts_concat (commands : List (List (List Byte))) (words : List (List Byte)) :
    starts (commands ++ [words]) = starts commands ++ [(cells commands).length] := by
  rw [starts, List.length_append, List.length_singleton, List.range_succ, List.map_append, List.map_singleton,
    List.take_left, starts]
  congr 1
  refine List.map_congr_left fun i mem => ?_
  rw [List.take_append_of_le_length (List.mem_range.mp mem).le]

@[simp] theorem length_starts (commands : List (List (List Byte))) : (starts commands).length = commands.length := by
  simp [starts]

/-- The arrays of the last pass once some commands have been stored. -/
def Filled.of (size num : Nat) (commands : List (List (List Byte))) : Filled where
  commandsAndArguments := Block.ofList size (cells commands)
  argsCounter := (cells commands).length
  commandIndex := Block.ofList num (starts commands)
  indexCounter := commands.length

theorem fillCommand_eq (size num : Nat) (commands : List (List (List Byte))) (piece : List Byte) :
    fillCommand (Filled.of size num commands) piece =
      .ok (Filled.of size num (commands ++ [args piece].filter (· ≠ []))) := by
  rw [fillCommand]
  split
  next ended =>
    rw [args, strtok_none ended]
    simp
  next parser rest found =>
    obtain ⟨parts, -⟩ := strtok_some found
    have words : args piece = parser :: tokens isDelimiter rest := parts
    have all : cells commands ++ [some parser] ++ (tokens isDelimiter rest).map some =
        cells commands ++ (args piece).map some := by
      rw [words, List.map_cons, List.append_assoc, List.singleton_append]
    have loop : storeLoop isDelimiter some (rest.length + 1) rest (cells commands ++ [some parser]).length
        (Block.ofList size (cells commands ++ [some parser])) = _ := storeLoop_eq some (Nat.lt_succ_self _) size _
    rw [all, List.length_append, List.length_singleton] at loop
    have index : (Block.ofList num (starts commands)).write commands.length (cells commands).length =
        Block.ofList num (starts (commands ++ [args piece])) := by
      rw [starts_concat, ← Block.write_ofList, length_starts]
    have kept : [args piece].filter (· ≠ []) = [args piece] := by simp [words]
    simp only [Filled.of]
    rw [Block.write_ofList, Steps.ok_bind loop, index, kept, cells_concat]
    simp only [Block.write_ofList]
    simp only [List.length_append, List.length_singleton]

theorem foldlM_read {α σ : Type} (body : σ → α → Except Fault σ) (size : Nat) (l : List α) (a : σ) :
    (List.range l.length).foldlM (fun a i => do body a (← (Block.ofList size l).read i)) a = l.foldlM body a := by
  have from_i : ∀ rest i a, l.drop i = rest →
      (List.range' i rest.length).foldlM (fun a i => do body a (← (Block.ofList size l).read i)) a =
        rest.foldlM body a := by
    intro rest
    induction rest with
    | nil => intros; rfl
    | cons x rest ih =>
      intro i a here
      have read : (Block.ofList size l).read i = .ok x :=
        Block.read_ofList (by rw [← List.head?_drop, here, List.head?_cons])
      have next : l.drop (i + 1) = rest := by rw [← List.drop_drop, here, List.drop_one, List.tail_cons]
      rw [List.length_cons, List.range'_succ, List.foldlM_cons, Steps.ok_bind read, List.foldlM_cons]
      congr 1
      funext b
      exact ih (i + 1) b next
  rw [List.range_eq_range']
  exact from_i l 0 a rfl

theorem fillLoop_eq (size num : Nat) (texts : List (List Byte)) (commands : List (List (List Byte))) :
    texts.foldlM fillCommand (Filled.of size num commands) =
      .ok (Filled.of size num (commands ++ (texts.map args).filter (· ≠ []))) := by
  induction texts generalizing commands with
  | nil => simp; rfl
  | cons text texts ih =>
    rw [List.foldlM_cons, Steps.ok_bind (fillCommand_eq size num commands text), ih, List.append_assoc,
      ← List.filter_append, List.map_cons, List.singleton_append]

/-- The number of runs with a semicolon in them. -/
def semicolonRuns (s : List Byte) : Nat := (runs s).countP (·.any isSemicolon)

/-- What the parser leaves for a trimmed line. -/
def parsedOf (s : List Byte) : Parsed where
  gCommandsNum := (pieces s).length
  commands := Block.ofList (1 + semicolonRuns s) (pieces s)
  commandIndex := Block.ofList (1 + semicolonRuns s) (starts (stored s))
  commandsAndArguments := Block.ofList (1 + (runs s).length) (cells (stored s))

theorem commandParser_eq (line : CString) : commandParser line = .ok (parsedOf (trim line.bytes)) := by
  rw [commandParser, leftRightTrim_eq]
  generalize trim line.bytes = s
  have counted : countLoop s (s.length + 1) 0 {} = _ := countLoop_eq (Nat.succ_pos _) (Nat.lt_succ_self _) 1 1
  have split : storeLoop isSemicolon id (s.length + 1) s 0 (Block.ofList (1 + semicolonRuns s) []) = _ :=
    storeLoop_eq id (Nat.lt_succ_self _) _ []
  have filled := fillLoop_eq (1 + (runs s).length) (1 + semicolonRuns s) (pieces s) []
  rw [List.map_id, List.nil_append] at split
  rw [← foldlM_read fillCommand (1 + semicolonRuns s)] at filled
  simp only [Block.malloc_eq]
  rw [Steps.ok_bind counted]
  refine (Steps.ok_bind split).trans ?_
  refine (Steps.ok_bind filled).trans ?_
  rfl

/-- Every write of the parser is inside the array it goes to. -/
structure Parsed.InBounds (p : Parsed) : Prop where
  commands : p.commands.InBounds
  commandIndex : p.commandIndex.InBounds
  commandsAndArguments : p.commandsAndArguments.InBounds

theorem length_cells (commands : List (List (List Byte))) :
    (cells commands).length = commands.flatten.length + commands.length := by
  induction commands with
  | nil => rfl
  | cons words commands ih =>
    have first : cells (words :: commands) = words.map some ++ [none] ++ cells commands := by simp [cells]
    rw [first, List.length_append, ih]
    simp
    omega

/-- The pieces are at most one more than the runs with a semicolon, and the words, with one more cell for
each command, at most one more than all the runs. -/
structure Fits (s : List Byte) : Prop where
  pieces : (pieces s).length ≤ 1 + semicolonRuns s
  words : (stored s).flatten.length + (stored s).length ≤ 1 + (runs s).length

theorem parsedOf_inBounds_iff (s : List Byte) : (parsedOf s).InBounds ↔ Fits s := by
  have fewer : (stored s).length ≤ (pieces s).length := by
    have mapped : ((pieces s).map args).length = (pieces s).length := List.length_map args
    exact mapped ▸ List.length_filter_le _ _
  constructor
  · intro bounded
    have commands := (Block.inBounds_ofList _ _).mp bounded.commands
    have words := (Block.inBounds_ofList _ _).mp bounded.commandsAndArguments
    exact ⟨commands, length_cells (stored s) ▸ words⟩
  · intro fits
    constructor
    · exact (Block.inBounds_ofList _ _).mpr fits.pieces
    · refine (Block.inBounds_ofList _ _).mpr ?_
      rw [length_starts]
      exact fewer.trans fits.pieces
    · refine (Block.inBounds_ofList _ _).mpr ?_
      rw [length_cells]
      exact fits.words

/-- The counting loop always ends without a read after the NUL; what it counts bounds the writes of the other
two passes exactly for the lines that fit. -/
theorem commandParser_inBounds_iff (line : CString) :
    ∃ p, commandParser line = .ok p ∧ (p.InBounds ↔ Fits (trim line.bytes)) :=
  ⟨_, commandParser_eq line, parsedOf_inBounds_iff _⟩

/-- The line `ls`: its only cell is the one of the word, and the `NULL` goes after it. -/
def lsLine : CString := ⟨[0x6c, 0x73], by decide⟩

theorem ls_overruns : ∃ p, commandParser lsLine = .ok p ∧ p.commandsAndArguments.size = 1 ∧
    p.commandsAndArguments.written = [0, 1] ∧ ¬ p.InBounds := by
  refine ⟨_, commandParser_eq lsLine, by decide, by decide, ?_⟩
  intro bounded
  exact absurd (bounded.commandsAndArguments 1 (by decide)) (by decide)

end Fill

end Xv6.ProjShell
