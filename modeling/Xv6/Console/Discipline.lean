import Mathlib.Data.List.Induction
import Xv6.Console.Buffer

/-!
# The line discipline

Lines are edited until they are committed, and the readers get exactly the committed text in order, with an
end-of-file mark as the end of a read instead of a byte. The buffer follows this description in every run.
-/

namespace Xv6.Console

open Bytes (Byte)

section Text

/-- All the text committed so far, and the line being edited. -/
structure Tty where
  text : List Byte := []
  line : List Byte := []
  deriving DecidableEq, Repr

/-- A character is put at the end of the line, while `waiting` bytes of the text have not been taken. -/
def Tty.enter (waiting : Nat) (t : Tty) (c : Byte) : Tty :=
  if c = newline ∨ c = ctrlD ∨ waiting + (t.line.length + 1) = INPUT_BUF then
    { text := t.text ++ (t.line ++ [c]), line := [] }
  else { t with line := t.line ++ [c] }

/-- A character is typed. -/
def Tty.type (waiting : Nat) (t : Tty) (c : Byte) : Tty :=
  if c = ctrlP then t
  else if c = ctrlU then { t with line := [] }
  else if c = ctrlH ∨ c = delete then { t with line := t.line.dropLast }
  else if c ≠ 0 ∧ waiting + t.line.length < INPUT_BUF then t.enter waiting (if c = carriageReturn then newline else c)
  else t

/-- A batch of characters is typed while `taken` bytes of the text have been taken. -/
def Tty.batch (taken : Nat) (t : Tty) (cs : List Byte) : Tty :=
  cs.foldl (fun t c => t.type (t.text.drop taken).length c) t

theorem Tty.text_type (waiting : Nat) (t : Tty) (c : Byte) : t.text <+: (t.type waiting c).text := by
  unfold Tty.type Tty.enter
  split_ifs
  all_goals first | exact List.prefix_rfl | exact List.prefix_append _ _

theorem Tty.text_batch (taken : Nat) (t : Tty) (cs : List Byte) : t.text <+: (t.batch taken cs).text := by
  induction cs generalizing t with
  | nil => exact List.prefix_rfl
  | cons c cs ih => exact (t.text_type _ c).trans (ih _)

end Text

section Interrupt

variable {s : Input} {u l : List Byte}

/-- The distance from the write index to the edit index is the length of the line. -/
theorem Shows.edited (shows : Shows s u l) : (s.e - s.w).toNat = l.length := by
  have whole : (s.e - s.r).toNat = u.length + l.length := shows.count
  have committed := shows.committed
  have bounded := shows.bounded
  rw [BitVec.toNat_sub] at *
  omega

theorem Shows.killLoop (shows : Shows s u l) (oneLine : newline ∉ l) : Shows (killLoop l.length s) u [] := by
  induction l using List.reverseRecOn generalizing s with
  | nil => exact shows
  | append_singleton l c ih =>
    obtain ⟨last, erased⟩ := shows.erase
    have more : KillMore s := by
      constructor
      · intro same
        exact absurd (shows.write_eq_edit.mp same) (by simp)
      · rw [last]
        rintro rfl
        exact oneLine (by simp)
    rw [List.length_append, List.length_singleton, Console.killLoop, if_pos more]
    exact ih erased fun mem => oneLine (List.mem_append_left _ mem)

/-- The buffer holds what of the text has not been taken, and the line. -/
structure Follows (s : Input) (t : Tty) (taken : Nat) : Prop where
  shows : Shows s (t.text.drop taken) t.line
  behind : taken ≤ t.text.length
  oneLine : newline ∉ t.line

namespace Follows

variable {t : Tty} {taken : Nat}

theorem enter (follows : Follows s t taken) (room : (t.text.drop taken).length + t.line.length < INPUT_BUF) (c : Byte) :
    Follows (enter s c).1 (t.enter (t.text.drop taken).length c) taken ∧
      ((Console.enter s c).2 = false → (t.enter (t.text.drop taken).length c).text = t.text) := by
  have stored := follows.shows.store room c
  have full := stored.full_iff
  rw [List.length_append, List.length_singleton] at full
  have tests : (c = newline ∨ c = ctrlD ∨ (s.store c).e = (s.store c).r + BitVec.ofNat 32 INPUT_BUF) ↔
      (c = newline ∨ c = ctrlD ∨ (t.text.drop taken).length + (t.line.length + 1) = INPUT_BUF) := by
    rw [full]
  by_cases ends : c = newline ∨ c = ctrlD ∨ (t.text.drop taken).length + (t.line.length + 1) = INPUT_BUF
  · simp only [Console.enter, Tty.enter, if_pos ends, if_pos (tests.mpr ends)]
    refine ⟨⟨?_, ?_, List.not_mem_nil⟩, fun quiet => by cases quiet⟩
    · show Shows (s.store c).commit ((t.text ++ (t.line ++ [c])).drop taken) []
      rw [List.drop_append_of_le_length follows.behind]
      exact stored.commit
    · exact follows.behind.trans (by simp)
  · simp only [Console.enter, Tty.enter, if_neg ends, if_neg (tests.not.mpr ends)]
    refine ⟨⟨stored, follows.behind, ?_⟩, fun _ => trivial⟩
    intro mem
    rcases List.mem_append.mp mem with mem | mem
    · exact follows.oneLine mem
    · exact ends (.inl (List.mem_singleton.mp mem).symm)

theorem backspace (follows : Follows s t taken) :
    Follows (if s.e ≠ s.w then s.erase else s) { t with line := t.line.dropLast } taken := by
  have shows := follows.shows
  have empty := shows.write_eq_edit
  rcases List.eq_nil_or_concat t.line with none | ⟨l, c, line⟩
  · rw [none] at shows
    rw [if_neg (not_not.mpr (empty.mpr none)), none]
    exact ⟨shows, follows.behind, List.not_mem_nil⟩
  · rw [List.concat_eq_append] at line
    rw [line] at shows empty
    rw [if_pos (fun same => absurd (empty.mp same) (by simp)), line, List.dropLast_concat]
    refine ⟨shows.erase.2, follows.behind, fun mem => follows.oneLine ?_⟩
    rw [line]
    exact List.mem_append_left _ mem

/-- Each character does to the buffer what it does to the text and the line. -/
theorem handle (follows : Follows s t taken) (c : Byte) :
    Follows (handle s c).1 (t.type (t.text.drop taken).length c) taken ∧
      ((Console.handle s c).2 = false → (t.type (t.text.drop taken).length c).text = t.text) := by
  have used : (s.e - s.r).toNat = (t.text.drop taken).length + t.line.length := follows.shows.count
  by_cases procdump : c = ctrlP
  · simp only [Console.handle, Tty.type, if_pos procdump]
    exact ⟨follows, fun _ => trivial⟩
  by_cases kill : c = ctrlU
  · simp only [Console.handle, Tty.type, if_neg procdump, if_pos kill]
    refine ⟨⟨?_, follows.behind, List.not_mem_nil⟩, fun _ => trivial⟩
    rw [killLine, follows.shows.edited]
    exact follows.shows.killLoop follows.oneLine
  by_cases erase : c = ctrlH ∨ c = delete
  · simp only [Console.handle, Tty.type, if_neg procdump, if_neg kill, if_pos erase]
    exact ⟨follows.backspace, fun _ => trivial⟩
  simp only [Console.handle, Tty.type, if_neg procdump, if_neg kill, if_neg erase, used]
  split
  next typed => exact follows.enter typed.2 _
  next => exact ⟨follows, fun _ => rfl⟩

theorem consoleintr (follows : Follows s t taken) (cs : List Byte) :
    Follows (consoleintr s cs).1 (t.batch taken cs) taken ∧
      ((Console.consoleintr s cs).2 = false → (t.batch taken cs).text = t.text) := by
  -- the flag of the rounds before is carried along
  have rounds : ∀ (s : Input) (t : Tty) (woke : Bool), Follows s t taken →
      let went := cs.foldl (fun went c => ((Console.handle went.1 c).1, went.2 || (Console.handle went.1 c).2)) (s, woke)
      Follows went.1 (t.batch taken cs) taken ∧ (went.2 = false → woke = false ∧ (t.batch taken cs).text = t.text) := by
    induction cs with
    | nil => exact fun s t woke follows => ⟨follows, fun quiet => ⟨quiet, rfl⟩⟩
    | cons c cs ih =>
      intro s t woke follows
      obtain ⟨next, quiet⟩ := follows.handle c
      obtain ⟨after, silent⟩ := ih _ _ (woke || (Console.handle s c).2) next
      refine ⟨after, fun still => ?_⟩
      obtain ⟨before, rest⟩ := silent still
      rw [Bool.or_eq_false_iff] at before
      exact ⟨before.1, rest.trans (quiet before.2)⟩
  obtain ⟨after, silent⟩ := rounds s t false follows
  exact ⟨after, fun quiet => (silent quiet).2⟩

end Follows

end Interrupt

section Read

/-- The byte of the text that is taken. -/
def Taken.inText : Taken → Byte
  | .byte c => c
  | .eof => ctrlD

/-- How a call that has stored `dst` goes on, with the bytes left unread after it. -/
inductive Ends (target : Nat) (dst : List Byte) (unread : List Byte) : Outcome → List Taken → Prop where
  /-- all the bytes asked for -/
  | filled (bs : List Byte) : (dst ++ bs).length = target →
      Ends target dst unread (.returned (dst ++ bs).length (dst ++ bs)) (bs.map .byte)
  /-- up to the end of a line -/
  | line (bs : List Byte) :
      Ends target dst unread (.returned (dst ++ (bs ++ [newline])).length (dst ++ (bs ++ [newline])))
        ((bs ++ [newline]).map .byte)
  /-- up to an end-of-file mark, which is left -/
  | saved (bs : List Byte) : dst ++ bs ≠ [] → unread.head? = some ctrlD →
      Ends target dst unread (.returned (dst ++ bs).length (dst ++ bs)) (bs.map .byte)
  /-- at an end-of-file mark, which is taken -/
  | eof : dst = [] → Ends target dst unread (.returned 0 []) [.eof]
  /-- killed, with nothing to take -/
  | killed (bs : List Byte) : unread = [] → Ends target dst unread (.failed (dst ++ bs)) (bs.map .byte)
  /-- asleep, with nothing to take -/
  | asleep (bs : List Byte) (n : Nat) : unread = [] → n + (dst ++ bs).length = target →
      Ends target dst unread (.asleep { target, n, dst := dst ++ bs }) (bs.map .byte)

variable {s : Input} {u l : List Byte}

theorem Ends.cons {target : Nat} {dst unread : List Byte} {c : Byte} {outcome : Outcome} {taken : List Taken}
    (ends : Ends target (dst ++ [c]) unread outcome taken) : Ends target dst unread outcome (.byte c :: taken) := by
  cases ends with
  | filled bs full =>
    rw [List.append_assoc] at full ⊢
    exact .filled (c :: bs) full
  | line bs =>
    rw [List.append_assoc]
    exact .line (c :: bs)
  | saved bs some mark =>
    rw [List.append_assoc] at some ⊢
    exact .saved (c :: bs) some mark
  | eof none => cases (List.append_eq_nil_iff.mp none).2
  | killed bs none =>
    rw [List.append_assoc]
    exact .killed (c :: bs) none
  | asleep bs n none count =>
    rw [List.append_assoc] at count ⊢
    exact .asleep (c :: bs) n none count

/-- What a reader does to the unread bytes `u` up to its return or sleep: it takes some from the front, no
end-of-file mark among those it stores, and ends in one of the ways above. -/
structure Reads (u l : List Byte) (target : Nat) (dst : List Byte) (went : Input × Outcome × List Taken) : Prop where
  shows : Shows went.1 went.1.unread l
  order : went.2.2.map Taken.inText ++ went.1.unread = u
  marks : ∀ c, .byte c ∈ went.2.2 → c ≠ ctrlD
  ends : Ends target dst went.1.unread went.2.1 went.2.2

theorem Shows.reads {target : Nat} {dst rest : List Byte} {outcome : Outcome} {taken : List Taken} (shows : Shows s rest l)
    (order : taken.map Taken.inText ++ rest = u) (marks : ∀ c, .byte c ∈ taken → c ≠ ctrlD)
    (ends : Ends target dst rest outcome taken) : Reads u l target dst (s, outcome, taken) := by
  obtain rfl := shows.unread_eq
  exact ⟨shows, order, marks, ends⟩

theorem Shows.readLoop (shows : Shows s u l) (killed : Bool) {target n : Nat} {dst : List Byte}
    (count : n + dst.length = target) : Reads u l target dst (readLoop killed target n dst s) := by
  induction n generalizing s u dst with
  | zero =>
    have filled : Ends target dst u (.returned (dst ++ []).length (dst ++ [])) [] := .filled [] (by simpa using count)
    rw [List.append_nil, ← Nat.zero_add dst.length, count] at filled
    exact shows.reads rfl (by simp) filled
  | succ n ih =>
    rw [Console.readLoop]
    match u with
    | [] =>
      rw [if_pos (shows.read_eq_write.mpr rfl)]
      refine shows.reads rfl (by simp) ?_
      cases killed with
      | true =>
        have failed : Ends target dst [] (.failed (dst ++ [])) [] := .killed [] rfl
        rwa [List.append_nil] at failed
      | false =>
        have slept : Ends target dst [] (.asleep { target, n := n + 1, dst := dst ++ [] }) [] :=
          .asleep [] (n + 1) rfl (by simpa using count)
        rwa [List.append_nil] at slept
    | c :: u =>
      rw [if_neg (fun same => absurd (shows.read_eq_write.mp same) (List.cons_ne_nil c u))]
      obtain ⟨first, next⟩ := shows.take
      simp only [first]
      by_cases mark : c = ctrlD
      · rw [if_pos mark]
        split
        next some =>
          -- the read index goes back over the mark
          have back : ({ s with r := s.r + 1 - 1 } : Input) = s := by rw [BitVec.add_sub_cancel]
          have saved : Ends target dst (c :: u) (.returned (dst ++ []).length (dst ++ [])) [] :=
            .saved [] (by rw [List.append_nil]; rintro rfl; simp at count; omega) (by rw [mark]; rfl)
          rw [List.append_nil, show dst.length = target - (n + 1) by omega] at saved
          refine Shows.reads (back.symm ▸ shows) rfl (by simp) saved
        next none =>
          have empty : dst = [] := List.length_eq_zero_iff.mp (by omega)
          rw [empty, show target - (n + 1) = 0 by omega]
          exact next.reads (by rw [mark]; rfl) (by simp) (.eof rfl)
      · rw [if_neg mark]
        split
        next ended =>
          have line : Ends target dst u (.returned (dst ++ ([] ++ [newline])).length (dst ++ ([] ++ [newline])))
              (([] ++ [newline]).map .byte) := .line []
          rw [List.nil_append, List.length_append, List.length_singleton, show dst.length + 1 = target - n by omega,
            ← ended] at line
          exact next.reads rfl (by simpa using mark) line
        next =>
          have rest : Reads u l target (dst ++ [c])
              (Console.readLoop killed target n (dst ++ [c]) { s with r := s.r + 1 }) :=
            ih next (by rw [List.length_append, List.length_singleton]; omega)
          refine ⟨rest.shows, congrArg (c :: ·) rest.order, ?_, rest.ends.cons⟩
          intro b mem
          rcases List.mem_cons.mp mem with same | mem
          · cases same
            exact mark
          · exact rest.marks b mem

end Read

section Runs

variable {P : Type}

/-- What has been taken from the buffer, and by whom, since the start, and what has been typed. -/
structure History (P : Type) where
  log : List (P × Taken) := []
  tty : Tty := {}

/-- The bytes of the text that were taken. -/
def History.taken (h : History P) : List Byte := h.log.map fun entry => entry.2.inText

def History.record (h : History P) (e : Event P) (taken : List (P × Taken)) : History P where
  log := h.log ++ taken
  tty := match e with
    | .intr cs => h.tty.batch h.log.length cs
    | _ => h.tty

/-- The console with its history. -/
def console (P : Type) [DecidableEq P] : System (Machine P × History P) (Event P) where
  init s := s.1.Fresh ∧ s.2 = {}
  step s e := (s.1.step e).map fun went => (went.1, s.2.record e went.2)

/-- What all steps keep. -/
structure Kept (m : Machine P) (h : History P) : Prop where
  follows : Follows m.input h.tty h.log.length
  delivered : h.taken = h.tty.text.take h.log.length
  marks : ∀ q c, (q, .byte c) ∈ h.log → c ≠ ctrlD
  calls : ∀ q call, m.asleep q = some call → call.n + call.dst.length = call.target
  /-- no reader sleeps through a commit -/
  waits : ∀ q call, m.asleep q = some call → m.woken q = false → m.input.unread = []

namespace Kept

variable {m : Machine P} {h : History P}

theorem run (kept : Kept m h) (killed : Bool) {call : Call} (count : call.n + call.dst.length = call.target) :
    Reads m.input.unread h.tty.line call.target call.dst (call.run killed m.input) := by
  rw [kept.follows.shows.unread_eq]
  exact kept.follows.shows.readLoop killed count

theorem history (kept : Kept m h) (q : P) {target : Nat} {dst : List Byte} {went : Input × Outcome × List Taken}
    (reads : Reads m.input.unread h.tty.line target dst went) :
    Follows went.1 h.tty (h.log ++ went.2.2.map (q, ·)).length ∧
      (h.log ++ went.2.2.map (q, ·)).map (fun entry => entry.2.inText) =
        h.tty.text.take (h.log ++ went.2.2.map (q, ·)).length ∧
      ∀ p c, (p, .byte c) ∈ h.log ++ went.2.2.map (q, ·) → c ≠ ctrlD := by
  have order := reads.order
  rw [kept.follows.shows.unread_eq] at order
  have moved : h.tty.text.drop (h.log.length + went.2.2.length) = went.1.unread := by
    rw [← List.drop_drop, ← order]
    exact List.drop_left' (by simp)
  have first : (h.tty.text.drop h.log.length).take went.2.2.length = went.2.2.map Taken.inText := by
    rw [← order]
    exact List.take_left' (by simp)
  have size : (h.log ++ went.2.2.map (q, ·)).length = h.log.length + went.2.2.length := by simp
  rw [size]
  refine ⟨⟨moved.symm ▸ reads.shows, ?_, kept.follows.oneLine⟩, ?_, ?_⟩
  · have total := congrArg List.length order
    have behind := kept.follows.behind
    rw [List.length_append, List.length_map, List.length_drop] at total
    omega
  · have before : h.log.map (fun entry => entry.2.inText) = _ := kept.delivered
    rw [List.map_append, before, List.take_add, first, List.map_map]
    rfl
  · intro p c mem
    rcases List.mem_append.mp mem with mem | mem
    · exact kept.marks p c mem
    · obtain ⟨taken, member, same⟩ := List.mem_map.mp mem
      cases same
      exact reads.marks c member

variable [DecidableEq P]

theorem go (kept : Kept m h) (q : P) {call : Call} (count : call.n + call.dst.length = call.target) :
    Kept (m.go q call).1 { h with log := h.log ++ (m.go q call).2 } := by
  have reads := kept.run (m.killed q) count
  obtain ⟨follows, delivered, marks⟩ := kept.history q reads
  -- the bytes of those who wait are not there after the run if they were not before
  have drained : m.input.unread = [] → (call.run (m.killed q) m.input).1.unread = [] := by
    intro none
    exact (List.append_eq_nil_iff.mp (none ▸ reads.order)).2
  have ends := reads.ends
  unfold Machine.go
  generalize call.run (m.killed q) m.input = went at follows delivered marks drained ends
  obtain ⟨input, outcome, taken⟩ := went
  have others : ∀ p call, Function.update m.asleep q none p = some call → p ≠ q ∧ m.asleep p = some call := by
    intro p call slept
    by_cases self : p = q
    · rw [self, Function.update_self] at slept
      cases slept
    · rw [Function.update_of_ne self] at slept
      exact ⟨self, slept⟩
  cases outcome with
  | returned value dst =>
    exact ⟨follows, delivered, marks, fun p call slept => kept.calls p call (others p call slept).2,
      fun p call slept quiet => drained (kept.waits p call (others p call slept).2 quiet)⟩
  | failed dst =>
    exact ⟨follows, delivered, marks, fun p call slept => kept.calls p call (others p call slept).2,
      fun p call slept quiet => drained (kept.waits p call (others p call slept).2 quiet)⟩
  | asleep now =>
    have own : input.unread = [] ∧ now.n + now.dst.length = now.target := by
      cases ends with
      | asleep bs n none count => exact ⟨none, count⟩
    refine ⟨follows, delivered, marks, fun p call slept => ?_, fun p call slept quiet => own.1⟩
    by_cases self : p = q
    · rw [self] at slept
      obtain rfl := Option.some.inj ((Function.update_self q (some now) m.asleep).symm.trans slept)
      exact own.2
    · exact kept.calls p call ((Function.update_of_ne self (some now) m.asleep).symm.trans slept)

omit [DecidableEq P] in
theorem intr (kept : Kept m h) (cs : List Byte) :
    Kept { m with input := (consoleintr m.input cs).1, woken := fun p => m.woken p || (consoleintr m.input cs).2 }
      { h with tty := h.tty.batch h.log.length cs } := by
  obtain ⟨follows, silent⟩ := kept.follows.consoleintr cs
  obtain ⟨more, text⟩ := h.tty.text_batch h.log.length cs
  refine ⟨follows, ?_, kept.marks, kept.calls, fun q call slept quiet => ?_⟩
  · show h.taken = (h.tty.batch h.log.length cs).text.take h.log.length
    rw [← text, List.take_append_of_le_length kept.follows.behind, kept.delivered]
  · -- a batch that wakes nobody has committed nothing
    rw [Bool.or_eq_false_iff] at quiet
    rw [follows.shows.unread_eq, silent quiet.2, ← kept.follows.shows.unread_eq]
    exact kept.waits q call slept quiet.1

theorem kill (kept : Kept m h) (q : P) :
    Kept { m with killed := Function.update m.killed q true, woken := Function.update m.woken q true } h := by
  refine ⟨kept.follows, kept.delivered, kept.marks, kept.calls, fun p call slept quiet => ?_⟩
  by_cases self : p = q
  · rw [self] at quiet
    exact absurd ((Function.update_self q true m.woken).symm.trans quiet) (by decide)
  · exact kept.waits p call slept ((Function.update_of_ne self true m.woken).symm.trans quiet)

theorem step (kept : Kept m h) {e : Event P} {went : Machine P × List (P × Taken)} (stepped : m.step e = some went) :
    Kept went.1 (h.record e went.2) := by
  cases e with
  | intr cs =>
    cases stepped
    have same : h.record (.intr cs) [] = { h with tty := h.tty.batch h.log.length cs } := by
      simp [History.record]
    show Kept _ (h.record (.intr cs) [])
    rw [same]
    exact kept.intr cs
  | read q n =>
    simp only [Machine.step] at stepped
    split at stepped
    next =>
      cases stepped
      exact kept.go q (by simp [consoleread])
    next => cases stepped
  | resume q =>
    simp only [Machine.step] at stepped
    split at stepped
    next call slept =>
      split at stepped
      next =>
        cases stepped
        exact kept.go q (kept.calls q call slept)
      next => cases stepped
    next => cases stepped
  | kill q =>
    cases stepped
    have same : h.record (.kill q) [] = h := by simp [History.record]
    show Kept _ (h.record (.kill q) [])
    rw [same]
    exact kept.kill q

omit [DecidableEq P] in
theorem fresh (fresh : m.Fresh) : Kept m {} := by
  obtain ⟨⟨r, w, e⟩, idle⟩ := fresh
  have empty : m.input.ring.count = 0 := Fifo.count_eq_zero_iff.mpr (r.trans e.symm)
  have shows : Shows m.input [] [] := ⟨Fifo.contents_of_count_eq_zero empty, by rw [r, w]; rfl, by decide⟩
  refine ⟨⟨shows, Nat.le_refl _, List.not_mem_nil⟩, rfl, ?_, ?_, ?_⟩
  · intro q c mem
    cases mem
  · intro q call slept
    rw [idle q] at slept
    cases slept
  · intro q call slept
    rw [idle q] at slept
    cases slept

end Kept

/-- The line discipline in one state of a run. -/
structure Disciplined (m : Machine P) (h : History P) : Prop where
  /-- `0 <= w - r <= e - r <= INPUT_BUF`, modulo `2 ^ 32` -/
  ordered : (m.input.w - m.input.r).toNat ≤ (m.input.e - m.input.r).toNat ∧ (m.input.e - m.input.r).toNat ≤ INPUT_BUF
  /-- what was taken and what is unread is the committed text -/
  delivered : h.taken ++ m.input.unread = h.tty.text
  /-- no end-of-file mark is delivered as a byte -/
  marks : ∀ q c, (q, .byte c) ∈ h.log → c ≠ ctrlD
  /-- whatever is typed next, nothing that is committed goes away -/
  editing : ∀ cs, m.input.unread <+: (consoleintr m.input cs).1.unread
  /-- a call that starts now, or goes on -/
  reads : ∀ (killed : Bool) (call : Call), ((∃ n, call = consoleread n) ∨ ∃ q, m.asleep q = some call) →
    Reads m.input.unread h.tty.line call.target call.dst (call.run killed m.input)

variable [DecidableEq P]

theorem kept_of_reach {m : Machine P} {h : History P} (reach : (console P).Reach System.Any (m, h)) : Kept m h := by
  refine System.Reach.invariant (P := fun s => Kept s.1 s.2) ?_ ?_ reach
  · rintro ⟨m, h⟩ ⟨fresh, rfl⟩
    exact .fresh fresh
  · rintro ⟨m, h⟩ e ⟨m', h'⟩ kept - stepped
    obtain ⟨went, moved, same⟩ := Option.map_eq_some_iff.mp stepped
    cases same
    exact kept.step moved

/-- However characters come in and calls are made, by any number of readers and with indices that wrap: the
line discipline holds in every state. -/
theorem console_disciplined {m : Machine P} {h : History P} (reach : (console P).Reach System.Any (m, h)) :
    Disciplined m h := by
  have kept := kept_of_reach reach
  refine ⟨kept.follows.shows.ordered, ?_, kept.marks, fun cs => ?_, fun killed call known => ?_⟩
  · rw [kept.delivered, kept.follows.shows.unread_eq, List.take_append_drop]
  · obtain ⟨more, text⟩ := h.tty.text_batch h.log.length cs
    rw [kept.follows.shows.unread_eq, (kept.follows.consoleintr cs).1.shows.unread_eq, ← text,
      List.drop_append_of_le_length kept.follows.behind]
    exact List.prefix_append _ _
  · rcases known with ⟨n, rfl⟩ | ⟨q, slept⟩
    · exact kept.run killed (by simp [consoleread])
    · exact kept.run killed (kept.calls q call slept)

/-- The console at the start. -/
def boot (P : Type) : Machine P where
  input := { buf := fun _ => 0, r := 0, w := 0, e := 0 }
  asleep := fun _ => none
  woken := fun _ => false
  killed := fun _ => false

/-- A line with a typing error, and an end-of-file mark; one reader waits for the line and gets it, another
gets the mark. -/
theorem console_disciplined_two : ∃ m h, (console (Fin 2)).Reach System.Any (m, h) ∧
    h.tty.text = [0x61, 0x63, newline, ctrlD] ∧
    h.log = [(0, .byte 0x61), (0, .byte 0x63), (0, .byte newline), (1, .eof)] ∧ Disciplined m h := by
  obtain ⟨⟨m, h⟩, reach, seen⟩ := System.Reach.of_exec (S := console (Fin 2)) System.Any
    [.read 0 10, .intr [0x61, 0x62, ctrlH], .intr [0x63, carriageReturn, ctrlD], .resume 0, .read 1 5]
    (s := (boot (Fin 2), {})) ⟨⟨⟨rfl, rfl, rfl⟩, fun _ => rfl⟩, rfl⟩
    (P := fun s => s.2.tty.text = [0x61, 0x63, newline, ctrlD] ∧
      s.2.log = [(0, .byte 0x61), (0, .byte 0x63), (0, .byte newline), (1, .eof)]) (by decide +kernel)
  have both := of_decide_eq_true seen
  exact ⟨m, h, reach, both.1, both.2, console_disciplined reach⟩

/-- **No lost wakeup.** While a reader sleeps and has not been woken, all committed text has been read. -/
theorem sleeper_waits {m : Machine P} {h : History P} {q : P} {call : Call}
    (reach : (console P).Reach System.Any (m, h)) (slept : m.asleep q = some call) (quiet : m.woken q = false) :
    m.input.unread = [] ∧ h.taken = h.tty.text := by
  have kept := kept_of_reach reach
  have none := kept.waits q call slept quiet
  refine ⟨none, ?_⟩
  rw [kept.follows.shows.unread_eq, List.drop_eq_nil_iff] at none
  rw [kept.delivered, List.take_of_length_le none]

/-- A reader waits for the end of the line. -/
theorem sleeper_waits_editing : ∃ m h call, (console (Fin 2)).Reach System.Any (m, h) ∧ m.asleep 0 = some call ∧
    m.woken 0 = false ∧ m.input.unread = [] ∧ h.taken = h.tty.text := by
  obtain ⟨⟨m, h⟩, reach, seen⟩ := System.Reach.of_exec (S := console (Fin 2)) System.Any [.read 0 10, .intr [0x61]]
    (s := (boot (Fin 2), {})) ⟨⟨⟨rfl, rfl, rfl⟩, fun _ => rfl⟩, rfl⟩
    (P := fun s => (s.1.asleep 0).isSome ∧ s.1.woken 0 = false) (by decide +kernel)
  obtain ⟨slept, quiet⟩ := of_decide_eq_true seen
  obtain ⟨call, slept⟩ := Option.isSome_iff_exists.mp slept
  exact ⟨m, h, call, reach, slept, quiet, sleeper_waits reach slept quiet⟩

end Runs

end Xv6.Console
