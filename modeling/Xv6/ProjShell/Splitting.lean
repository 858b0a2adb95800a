import Xv6.ProjShell.Counting

/-!
# The commands of a line

Which lines are run as written. A piece of blanks only stays in the number of commands, and the word pass
knows fewer blanks than the trim and the count.
-/

namespace Xv6.ProjShell

open Bytes Tokens

section Wanted

/-- The pieces of a line between semicolons that have a byte that is no blank. -/
def nonBlank (s : List Byte) : List (List Byte) :=
  (s.splitOnP isSemicolon).filter fun piece => piece.any fun c => !isspace c

/-- The words of a piece, split at blanks. -/
def words (piece : List Byte) : List (List Byte) := tokens isspace piece

theorem words_ne_nil_iff (piece : List Byte) : words piece ≠ [] ↔ piece.any (fun c => !isspace c) = true := by
  rw [words, ne_eq, tokens_eq_nil]
  simp

theorem map_words_nonBlank (s : List Byte) :
    (nonBlank s).map words = ((s.splitOnP isSemicolon).map words).filter (· ≠ []) := by
  rw [List.filter_map, nonBlank]
  congr 1
  refine List.filter_congr fun piece _ => ?_
  rw [Bool.eq_iff_iff, ← words_ne_nil_iff]
  simp

theorem isspace_not_semicolon {c : Byte} (blank : isspace c = true) : isSemicolon c = false := by
  revert c
  decide

theorem isDelimiter_isspace {c : Byte} (delimiter : isDelimiter c = true) : isspace c = true := by
  revert c
  decide

theorem map_words_trim (s : List Byte) : (nonBlank (trim s)).map words = (nonBlank s).map words := by
  obtain ⟨b, e, parts, before, after⟩ := trim_parts s
  rw [map_words_nonBlank, map_words_nonBlank]
  conv_rhs => rw [parts]
  rw [map_splitOnP_append_blank words (b ++ trim s) (fun c mem => isspace_not_semicolon (after c mem))
      (fun u => tokens_append_blank u after),
    map_splitOnP_blank_append words (trim s) (fun c mem => isspace_not_semicolon (before c mem))
      (fun u => tokens_blank_append u before)]

end Wanted

section Exec

variable {commands : List (List (List Byte))}

/-- The cells from the start of a command on: its words, and the `NULL`. -/
theorem cells_drop {i : Nat} {ws : List (List Byte)} (here : commands[i]? = some ws) :
    ∃ rest, (cells commands).drop (cells (commands.take i)).length = ws.map some ++ none :: rest := by
  have parts : commands = commands.take i ++ ws :: commands.drop (i + 1) := by
    obtain ⟨inside, rfl⟩ := List.getElem?_eq_some_iff.mp here
    rw [List.getElem_cons_drop, List.take_append_drop]
  refine ⟨cells (commands.drop (i + 1)), ?_⟩
  have joined : cells commands = cells (commands.take i) ++ (ws.map some ++ none :: cells (commands.drop (i + 1))) := by
    conv_lhs => rw [parts]
    simp [cells]
  rw [joined, List.drop_left]

theorem argv_eq {l : List (Option (List Byte))} {ws : List (List Byte)} {rest : List (Option (List Byte))}
    {size fuel k : Nat} (here : l.drop k = ws.map some ++ none :: rest) (enough : ws.length < fuel) :
    argv (Block.ofList size l) fuel k = .ok ws := by
  induction ws generalizing fuel k with
  | nil =>
    obtain ⟨fuel, rfl⟩ := Nat.exists_eq_succ_of_ne_zero (Nat.ne_of_gt enough)
    have null : (Block.ofList size l).read k = .ok none :=
      Block.read_ofList (by rw [← List.head?_drop, here, List.map_nil, List.nil_append, List.head?_cons])
    rw [argv, Steps.ok_bind null]
  | cons w ws ih =>
    obtain ⟨fuel, rfl⟩ := Nat.exists_eq_succ_of_ne_zero (Nat.ne_of_gt (Nat.zero_lt_of_lt enough))
    rw [List.map_cons, List.cons_append] at here
    have word : (Block.ofList size l).read k = .ok (some w) :=
      Block.read_ofList (by rw [← List.head?_drop, here, List.head?_cons])
    have next : l.drop (k + 1) = ws.map some ++ none :: rest := by
      rw [← List.drop_drop, here, List.drop_one, List.tail_cons]
    rw [argv, Steps.ok_bind word]
    exact Steps.ok_bind (ih next (Nat.lt_of_succ_lt_succ enough))

theorem starts_get {i : Nat} (inside : i < commands.length) :
    (starts commands)[i]? = some (cells (commands.take i)).length := by
  rw [starts, List.getElem?_map, List.getElem?_range inside, Option.map_some]

theorem mapM_range {α : Type} {f : Nat → Except Fault α} {l : List α} (each : ∀ i a, l[i]? = some a → f i = .ok a) :
    (List.range l.length).mapM f = .ok l := by
  induction l using List.reverseRecOn with
  | nil => rfl
  | append_singleton l a ih =>
    have before := ih fun i b here => each i b (by
      obtain ⟨inside, -⟩ := List.getElem?_eq_some_iff.mp here
      rw [List.getElem?_append_left inside, here])
    have last := each l.length a List.getElem?_concat_length
    rw [List.length_append, List.length_singleton, List.range_succ, List.mapM_append, Steps.ok_bind before,
      List.mapM_cons, Steps.ok_bind last, List.mapM_nil]
    rfl

theorem forkAndExec_eq {p : Parsed} {num size : Nat} (count : p.gCommandsNum = commands.length)
    (index : p.commandIndex = Block.ofList num (starts commands))
    (filled : p.commandsAndArguments = Block.ofList size (cells commands)) : forkAndExec p = .ok commands := by
  rw [forkAndExec, count]
  refine mapM_range fun i ws here => ?_
  obtain ⟨inside, -⟩ := List.getElem?_eq_some_iff.mp here
  obtain ⟨rest, at_i⟩ := cells_drop here
  have read : p.commandIndex.read i = .ok (cells (commands.take i)).length := by
    rw [index]
    exact Block.read_ofList (starts_get inside)
  rw [Steps.ok_bind read, filled]
  refine argv_eq at_i ?_
  -- the fuel is the number of cells written, among them the command's own
  have := congrArg List.length at_i
  simp only [List.length_drop, List.length_append, List.length_map, List.length_cons] at this
  simp only [Block.ofList, List.length_range]
  omega

end Exec

section Splits

/-- What a line should be parsed to: as many commands as it has pieces that are more than blanks, each with
its words in order and a `NULL` from the index on that is given for it, and these are run. -/
structure Splits (line : CString) (p : Parsed) : Prop where
  num : p.gCommandsNum = (nonBlank line.bytes).length
  placed : ∀ i piece, (nonBlank line.bytes)[i]? = some piece → ∃ k, p.commandIndex.cell i = some k ∧
    ∀ j ≤ (words piece).length, p.commandsAndArguments.cell (k + j) = ((words piece).map some ++ [none])[j]?
  runs : forkAndExec p = .ok ((nonBlank line.bytes).map words)

/-- No piece but an empty one is of blanks only, and all the blanks are line feeds, tabs and spaces. -/
structure Regular (s : List Byte) : Prop where
  pieces : ∀ piece ∈ pieces s, ∃ c ∈ piece, isspace c = false
  blanks : ∀ c ∈ s, isspace c = true → isDelimiter c = true

variable {s : List Byte}

theorem nonBlank_eq_filter (s : List Byte) : nonBlank s = (pieces s).filter fun piece => piece.any fun c => !isspace c := by
  rw [pieces, tokens, List.filter_filter, nonBlank]
  refine List.filter_congr fun piece _ => ?_
  cases piece <;> simp

theorem length_nonBlank_iff :
    (nonBlank s).length = (pieces s).length ↔ ∀ piece ∈ pieces s, ∃ c ∈ piece, isspace c = false := by
  rw [nonBlank_eq_filter, List.length_filter_eq_length_iff]
  simp

theorem nonBlank_eq_pieces (visible : ∀ piece ∈ pieces s, ∃ c ∈ piece, isspace c = false) : nonBlank s = pieces s := by
  rw [nonBlank_eq_filter, List.filter_eq_self]
  simpa using visible

theorem stored_eq (visible : ∀ piece ∈ pieces s, ∃ c ∈ piece, isspace c = false) :
    stored s = (pieces s).map args := by
  rw [stored, List.filter_eq_self]
  intro ws mem
  obtain ⟨piece, inside, rfl⟩ := List.mem_map.mp mem
  obtain ⟨c, here, shown⟩ := visible piece inside
  have word : isDelimiter c = false := Bool.eq_false_iff.mpr fun delimiter => by
    rw [isDelimiter_isspace delimiter] at shown
    cases shown
  obtain ⟨w, found, -⟩ := exists_token here word
  exact decide_eq_true (List.ne_nil_of_mem found)

theorem forkAndExec_parsedOf (visible : ∀ piece ∈ pieces s, ∃ c ∈ piece, isspace c = false) :
    forkAndExec (parsedOf s) = .ok (stored s) := by
  refine forkAndExec_eq ?_ rfl rfl
  rw [stored_eq visible, List.length_map]
  rfl

theorem args_eq_words (regular : Regular s) {piece : List Byte} (mem : piece ∈ pieces s) : args piece = words piece := by
  refine tokens_congr fun c inside => ?_
  rw [Bool.eq_iff_iff]
  exact ⟨isDelimiter_isspace, regular.blanks c (mem_token mem inside).1⟩

/-- The line is stored as it should be, and run so, exactly if it is regular between its ends. -/
theorem commandParser_splits_iff (line : CString) :
    ∃ p, commandParser line = .ok p ∧ (Splits line p ↔ Regular (trim line.bytes)) := by
  refine ⟨_, commandParser_eq line, ?_⟩
  have same := map_words_trim line.bytes
  generalize trim line.bytes = s at same
  have number : (nonBlank line.bytes).length = (nonBlank s).length := by
    simpa using congrArg List.length same.symm
  constructor
  · intro splits
    have visible := length_nonBlank_iff.mp (number.symm.trans splits.num.symm)
    have equal : (pieces s).map args = (pieces s).map words := by
      rw [← stored_eq visible, ← nonBlank_eq_pieces visible, same]
      exact Except.ok.inj ((forkAndExec_parsedOf visible).symm.trans splits.runs)
    refine ⟨visible, fun c mem blank => ?_⟩
    by_contra other
    -- the byte is in a word of its piece, although it is a blank
    obtain ⟨piece, found, inside⟩ := exists_token mem (isspace_not_semicolon blank)
    obtain ⟨w, member, here⟩ := exists_token inside (Bool.eq_false_iff.mpr other)
    have listed : w ∈ words piece := List.map_inj_left.mp equal piece found ▸ member
    rw [(mem_token listed here).2] at blank
    cases blank
  · intro regular
    have all := nonBlank_eq_pieces regular.pieces
    have commands : stored s = (nonBlank line.bytes).map words := by
      rw [stored_eq regular.pieces, ← same, all]
      exact List.map_congr_left fun piece mem => args_eq_words regular mem
    constructor
    · show (pieces s).length = _
      rw [number, all]
    · intro i piece here
      have listed : (stored s)[i]? = some (words piece) := by rw [commands, List.getElem?_map, here, Option.map_some]
      obtain ⟨inside, -⟩ := List.getElem?_eq_some_iff.mp listed
      obtain ⟨rest, at_i⟩ := cells_drop listed
      refine ⟨_, starts_get inside, fun j le => ?_⟩
      show (cells (stored s))[_]? = _
      rw [← List.getElem?_drop, at_i, ← List.singleton_append, ← List.append_assoc]
      exact List.getElem?_append_left (by simp; omega)
    · rw [← commands]
      exact forkAndExec_parsedOf regular.pieces

/-- The line `a; ;b`. -/
def blankPieceLine : CString := ⟨[0x61, 0x3b, 0x20, 0x3b, 0x62], by decide⟩

/-- The blank piece of `a; ;b` is counted and stored nowhere: the third child starts from an index that was
never set. -/
theorem blank_piece_counted : ∃ p, commandParser blankPieceLine = .ok p ∧ p.gCommandsNum = 3 ∧
    (nonBlank blankPieceLine.bytes).length = 2 ∧ p.commandIndex.cell 2 = none ∧
    forkAndExec p = .error .unset ∧ ¬ Splits blankPieceLine p := by
  refine ⟨_, commandParser_eq blankPieceLine, by decide, by decide, by decide, by rfl, ?_⟩
  intro splits
  exact absurd splits.num (by decide)

end Splits

end Xv6.ProjShell
