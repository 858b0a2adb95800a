import Mathlib.Algebra.BigOperators.Group.Finset.Basic
import Mathlib.Algebra.BigOperators.Group.Finset.Piecewise
import Xv6.Lib.Refs
import Xv6.Log.Group

/-!
# Commit exclusion

`sync` sets `log.committing` without testing it, so two processes can enter `commit()` together. Without the
first section of `sync` while another process is between that section and the one that clears the flag,
the flag is a lock.
-/

namespace Xv6.Log

variable {ι : Type}

/-- The state promised while commits are exclusive. -/
structure Exclusive (s : State ι) : Prop where
  /-- at most one process is inside `commit()` -/
  single : ∀ p q, (s.pc p).inCommit → (s.pc q).inCommit → p = q
  /-- no operation is outstanding while a process is inside `commit()` -/
  quiet : ∀ p, (s.pc p).inCommit → s.outstanding = 0
  /-- no process can take a step of `log_write` while a process is inside `commit()` -/
  unlogged : ∀ p q, (s.pc p).inCommit → ¬(s.pc q).opened
  /-- what the reset discards was copied to the log by the same commit -/
  kept : ∀ p logged, s.pc p = .reset logged → ∀ b ∈ s.lh, b ∈ logged

/-- The step that goes wrong is not taken: a process takes the first section of `sync`
only when no other process is between that section and the one clearing the flag. -/
def NoOverlap (s : State ι) (label : ι × Act) : Prop :=
  s.pc label.1 = .syncEnter → ∀ q, ¬(s.pc q).syncing

/-! ### What a step does to the other processes -/

/-- `d` is `c`, or `c` woken up. -/
def Pc.WokenFrom (d c : Pc) : Prop :=
  d = c ∨ (c = .beginSleep ∧ d = .beginWoken) ∨ (c = .syncSleep ∧ d = .syncWoken)

namespace Pc.WokenFrom

variable {c d e : Pc}

theorem trans (first : WokenFrom d c) (second : WokenFrom e d) : WokenFrom e c := by
  rcases first with rfl | ⟨rfl, rfl⟩ | ⟨rfl, rfl⟩
  · exact second
  · rcases second with rfl | ⟨h, _⟩ | ⟨h, _⟩
    · exact .inr (.inl ⟨rfl, rfl⟩)
    · cases h
    · cases h
  · rcases second with rfl | ⟨h, _⟩ | ⟨h, _⟩
    · exact .inr (.inr ⟨rfl, rfl⟩)
    · cases h
    · cases h

theorem inCommit (woken : WokenFrom d c) : d.inCommit = c.inCommit := by
  rcases woken with rfl | ⟨rfl, rfl⟩ | ⟨rfl, rfl⟩ <;> rfl

theorem syncing (woken : WokenFrom d c) : d.syncing = c.syncing := by
  rcases woken with rfl | ⟨rfl, rfl⟩ | ⟨rfl, rfl⟩ <;> rfl

theorem opened (woken : WokenFrom d c) : d.opened = c.opened := by
  rcases woken with rfl | ⟨rfl, rfl⟩ | ⟨rfl, rfl⟩ <;> rfl

theorem eq_of_inCommit (woken : WokenFrom d c) (inside : d.inCommit) : c = d := by
  rcases woken with rfl | ⟨rfl, rfl⟩ | ⟨rfl, rfl⟩
  · rfl
  · cases inside
  · cases inside

end Pc.WokenFrom

theorem inCommit_syncing {c : Pc} (inside : c.inCommit) : c.syncing := by
  cases c <;> first | rfl | cases inside

/-! ### The invariant -/

/-- What a process inside `commit()` has logged agrees with the header. -/
def Agrees (lh : List Nat) : Pc → Prop
  | .writeLog tail logged => logged = lh.take tail ∧ tail ≤ lh.length
  | .writeHead logged | .install _ logged | .reset logged => logged = lh
  | _ => True

structure Inv [Fintype ι] (s : State ι) : Prop where
  counted : s.outstanding = ∑ q, if (s.pc q).opened then 1 else 0
  alone : ∀ p q, (s.pc p).syncing → (s.pc q).syncing → p = q
  flagged : ∀ p, (s.pc p).syncing → s.committing = true
  quiet : ∀ p, (s.pc p).inCommit → s.outstanding = 0
  agrees : ∀ p, Agrees s.lh (s.pc p)

section

variable [Fintype ι] {s : State ι}

theorem Inv.not_opened (inv : Inv s) (none : s.outstanding = 0) (q : ι) : ¬(s.pc q).opened := by
  intro isOpen
  have total := inv.counted
  rw [none, eq_comm, Finset.sum_eq_zero_iff] at total
  have at_q := total q (Finset.mem_univ q)
  simp [isOpen] at at_q

theorem Inv.outstanding_pos (inv : Inv s) {p : ι} (isOpen : (s.pc p).opened) :
    0 < s.outstanding := by
  rcases Nat.eq_zero_or_pos s.outstanding with none | some
  · exact absurd isOpen (inv.not_opened none p)
  · exact some

theorem Inv.exclusive (inv : Inv s) : Exclusive s where
  single p q hp hq := inv.alone p q (inCommit_syncing hp) (inCommit_syncing hq)
  quiet := inv.quiet
  unlogged p q hp := inv.not_opened (inv.quiet p hp) q
  kept p logged at_reset b member := by
    have same := inv.agrees p
    rw [at_reset] at same
    exact same ▸ member

end

variable {s t : State ι} {p : ι}

/-- The processes other than `p` are where they were, or woken up. -/
def Others (s t : State ι) (p : ι) : Prop := ∀ q, q ≠ p → (t.pc q).WokenFrom (s.pc q)

theorem others_wakeLog : Others s (wakeLog s) p := by
  intro q _
  by_cases asleep : s.pc q = .beginSleep
  · exact .inr (.inl ⟨asleep, by simp [wakeLog, asleep]⟩)
  · exact .inl (by simp [wakeLog, asleep])

theorem others_wakeSync : Others s (wakeSync s) p := by
  intro q _
  by_cases asleep : s.pc q = .syncSleep
  · exact .inr (.inr ⟨asleep, by simp [wakeSync, asleep]⟩)
  · exact .inl (by simp [wakeSync, asleep])

theorem Others.trans {u : State ι} (first : Others s t p) (second : Others t u p) : Others s u p :=
  fun q other => (first q other).trans (second q other)

variable [DecidableEq ι]

theorem others_setPc (c : Pc) : Others s (setPc s p c) p := by
  intro q other
  exact .inl (Function.update_of_ne other _ _)

@[simp] theorem pc_setPc (c : Pc) : (setPc s p c).pc p = c := Function.update_self ..

@[simp] theorem outstanding_setPc (c : Pc) : (setPc s p c).outstanding = s.outstanding := rfl

@[simp] theorem committing_setPc (c : Pc) : (setPc s p c).committing = s.committing := rfl

@[simp] theorem lh_setPc (c : Pc) : (setPc s p c).lh = s.lh := rfl

variable [Fintype ι]

/-- Only the contribution of the stepping process to the count of open operations changes. -/
theorem sum_opened (others : Others s t p) :
    (∑ q, if (t.pc q).opened then 1 else 0) + (if (s.pc p).opened then 1 else 0) =
      (∑ q, if (s.pc q).opened then 1 else 0) + (if (t.pc p).opened then 1 else 0) :=
  Refs.sum_of_others (f := fun q => if (s.pc q).opened then 1 else 0)
    (g := fun q => if (t.pc q).opened then 1 else 0) fun q other => by
      simp only [(others q other).opened]

/-- The invariant after a step of `p`, from what the step does to the shared fields and to
`p` itself. -/
theorem Inv.advance (inv : Inv s) (others : Others s t p)
    (count : t.outstanding + (if (s.pc p).opened then 1 else 0) =
      s.outstanding + (if (t.pc p).opened then 1 else 0))
    (entered : (t.pc p).syncing → (s.pc p).syncing ∨ ∀ q, ¬(s.pc q).syncing)
    (flag : s.committing = true → t.committing = true ∨ ∀ q, q ≠ p → ¬(s.pc q).syncing)
    (own : (t.pc p).syncing → t.committing = true)
    (quiet : (t.pc p).inCommit ∨ (∃ q, q ≠ p ∧ (s.pc q).inCommit) → t.outstanding = 0)
    (agrees : Agrees t.lh (t.pc p))
    (header : t.lh = s.lh ∨ ∀ q, q ≠ p → ¬(s.pc q).inCommit) : Inv t where
  counted := by
    have sums := sum_opened others
    have old := inv.counted
    omega
  alone q r hq hr := by
    by_cases isP : q = p
    · by_cases isP' : r = p
      · rw [isP, isP']
      · rw [(others r isP').syncing] at hr
        subst isP
        rcases entered hq with was | none
        · exact inv.alone q r was hr
        · exact absurd hr (none r)
    · rw [(others q isP).syncing] at hq
      by_cases isP' : r = p
      · subst isP'
        rcases entered hr with was | none
        · exact inv.alone q r hq was
        · exact absurd hq (none q)
      · rw [(others r isP').syncing] at hr
        exact inv.alone q r hq hr
  flagged q hq := by
    by_cases isP : q = p
    · subst isP
      exact own hq
    · rw [(others q isP).syncing] at hq
      rcases flag (inv.flagged q hq) with still | none
      · exact still
      · exact absurd hq (none q isP)
  quiet q hq := by
    by_cases isP : q = p
    · subst isP
      exact quiet (.inl hq)
    · rw [(others q isP).inCommit] at hq
      exact quiet (.inr ⟨q, isP, hq⟩)
  agrees q := by
    by_cases isP : q = p
    · subst isP
      exact agrees
    · by_cases inside : (t.pc q).inCommit
      · have same := (others q isP).eq_of_inCommit inside
        rcases header with lh | none
        · rw [lh, ← same]
          exact inv.agrees q
        · rw [← same] at inside
          exact absurd inside (none q isP)
      · cases at_q : t.pc q <;> simp_all [Agrees, Pc.inCommit]

/-! ### The steps -/

omit [DecidableEq ι] in
theorem Inv.not_inCommit (inv : Inv s) (isOpen : (s.pc p).opened) (q : ι) : ¬(s.pc q).inCommit := by
  intro inside
  have pos := inv.outstanding_pos isOpen
  have none := inv.quiet q inside
  omega

/-- A step that only moves `p` between program counters outside operations and commits. -/
theorem Inv.move (inv : Inv s) {c : Pc} (closed : (s.pc p).opened = false) (fresh : c.opened = false)
    (outside : c.syncing = false) : Inv (setPc s p c) := by
  have notCommit : c.inCommit = false := by
    cases h : c.inCommit
    · rfl
    · rw [inCommit_syncing h] at outside
      cases outside
  apply inv.advance (others_setPc c)
  · simp [closed, fresh]
  · simp [outside]
  · exact fun h => .inl h
  · simp [outside]
  · rintro (inside | ⟨q, _, inside⟩)
    · simp [notCommit] at inside
    · exact inv.quiet q inside
  · rw [pc_setPc]
    cases c <;> simp_all [Agrees, Pc.inCommit]
  · exact .inl rfl

theorem inv_beginOp (inv : Inv s) (closed : (s.pc p).opened = false) : Inv (beginOp s p) := by
  unfold beginOp
  split
  · exact inv.move closed rfl rfl
  next idle =>
    split
    · exact inv.move closed rfl rfl
    · have none : ∀ q, ¬(s.pc q).syncing := fun q syncing => idle (inv.flagged q syncing)
      refine inv.advance (t := setPc { s with outstanding := s.outstanding + 1 } p .inOp)
        (fun q other => .inl (Function.update_of_ne other _ _)) ?_ ?_ ?_ ?_ ?_
        (by rw [pc_setPc]; trivial) (.inl rfl)
      · rw [pc_setPc, closed]
        rfl
      · simp [Pc.syncing, Pc.inCommit]
      · exact fun h => .inl h
      · simp [Pc.syncing, Pc.inCommit]
      · rintro (inside | ⟨q, _, inside⟩)
        · simp [Pc.inCommit] at inside
        · exact absurd (inCommit_syncing inside) (none q)

theorem Inv.stay_open (inv : Inv s) {c : Pc} (lh : List Nat) (isOpen : (s.pc p).opened)
    (still : c.opened) : Inv (setPc { s with lh := lh } p c) := by
  have closed := inv.not_inCommit isOpen
  have class_c : c.syncing = false ∧ c.inCommit = false := by
    cases c <;> first | exact ⟨rfl, rfl⟩ | cases still
  refine inv.advance (t := setPc { s with lh := lh } p c)
    (fun q other => .inl (Function.update_of_ne other _ _)) ?_ ?_ ?_ ?_ ?_ ?_ (.inr fun q _ => closed q)
  · simp [isOpen, still]
  · simp [class_c]
  · exact fun h => .inl h
  · simp [class_c]
  · rintro (inside | ⟨q, _, inside⟩)
    · simp [class_c] at inside
    · exact absurd inside (closed q)
  · rw [pc_setPc]
    cases c <;> trivial

omit [DecidableEq ι] in
theorem inv_halt (inv : Inv s) (why : Option Panic) : Inv { s with halted := why } :=
  ⟨inv.counted, inv.alone, inv.flagged, inv.quiet, inv.agrees⟩

theorem inv_logWriteTest (inv : Inv s) (size b : Nat) (isOpen : s.pc p = .inOp) :
    Inv (logWriteTest size s p b) := by
  unfold logWriteTest
  split
  · exact inv_halt inv _
  · split
    · exact inv_halt inv _
    · exact inv.stay_open s.lh (by rw [isOpen]; rfl) rfl

omit [Fintype ι] in
theorem others_endOp : Others s (endOp s p) p := by
  unfold endOp
  dsimp only
  refine Others.trans ?_ (others_setPc _)
  split_ifs <;>
    first
      | exact others_wakeSync
      | exact others_wakeSync.trans others_wakeLog
      | exact others_wakeLog
      | exact fun q _ => .inl rfl

omit [Fintype ι] in
theorem endOp_lands : (endOp s p).pc p = .endSync ∨ (endOp s p).pc p = .idle := by
  unfold endOp
  dsimp only
  rw [pc_setPc]
  split_ifs <;> simp

omit [Fintype ι] in
theorem endOp_lh : (endOp s p).lh = s.lh ∧ (endOp s p).halted = s.halted := by
  unfold endOp wakeLog wakeSync setPc
  dsimp only
  split_ifs <;> exact ⟨rfl, rfl⟩

/-- `end_op` in one record: the flag it leaves, who is woken, and where it goes on. -/
theorem inv_endOp (inv : Inv s) (isOpen : s.pc p = .inOp) : Inv (endOp s p) := by
  have opened : (s.pc p).opened := by rw [isOpen]; rfl
  have pos := inv.outstanding_pos opened
  have closed := inv.not_inCommit opened
  have outstanding : (endOp s p).outstanding = s.outstanding - 1 := by
    unfold endOp wakeLog wakeSync setPc
    dsimp only
    split_ifs <;> rfl
  have committing : s.committing = true → (endOp s p).committing = true := by
    intro flag
    unfold endOp wakeLog wakeSync setPc
    dsimp only
    split_ifs <;> simp_all
  have class_p : ((endOp s p).pc p).opened = false ∧ ((endOp s p).pc p).syncing = false ∧
      ((endOp s p).pc p).inCommit = false ∧ Agrees (endOp s p).lh ((endOp s p).pc p) := by
    rcases endOp_lands (s := s) (p := p) with h | h <;> rw [h] <;> exact ⟨rfl, rfl, rfl, trivial⟩
  refine inv.advance others_endOp ?_ ?_ (fun h => .inl (committing h)) ?_ ?_ class_p.2.2.2
    (.inl endOp_lh.1)
  · simp [opened, class_p.1, outstanding]
    omega
  · simp [class_p.2.1]
  · simp [class_p.2.1]
  · rintro (inside | ⟨q, _, inside⟩)
    · simp [class_p.2.2.1] at inside
    · exact absurd inside (closed q)

theorem inv_syncRead (inv : Inv s) (closed : (s.pc p).opened = false) : Inv (syncRead s p) := by
  unfold syncRead
  split <;> exact inv.move closed rfl rfl

/-- Entering or re-entering the waiting loop of `sync` with the flag set. -/
theorem inv_syncWait (inv : Inv s) (closed : (s.pc p).opened = false)
    (entered : (s.pc p).syncing ∨ ∀ q, ¬(s.pc q).syncing) :
    Inv (syncWait { s with committing := true } p) := by
  unfold syncWait
  refine inv.advance (t := setPc { s with committing := true } p _)
    (fun q other => .inl (Function.update_of_ne other _ _)) ?_ (fun _ => entered)
    (fun _ => .inl rfl) (fun _ => rfl) ?_ ?_ (.inl rfl)
  · rw [pc_setPc, closed]
    split <;> rfl
  · rintro (inside | ⟨q, _, inside⟩)
    · by_cases busy : s.outstanding ≠ 0
      · simp [busy, Pc.inCommit] at inside
      · simpa using busy
    · exact inv.quiet q inside
  · rw [pc_setPc]
    split <;> trivial

theorem inv_syncExit (inv : Inv s) (leaving : s.pc p = .syncExit) : Inv (syncExit s p) := by
  unfold syncExit
  have syncing : (s.pc p).syncing := by rw [leaving]; rfl
  have others : Others s (setPc (wakeLog { s with committing := false }) p .idle) p :=
    Others.trans (t := wakeLog { s with committing := false })
      (fun q other => others_wakeLog (s := { s with committing := false }) q other) (others_setPc _)
  have only : ∀ q, q ≠ p → ¬(s.pc q).syncing := fun q other h => other (inv.alone q p h syncing)
  refine inv.advance others ?_ ?_ (fun _ => .inr only) ?_ ?_ (by rw [pc_setPc]; trivial) (.inl rfl)
  · rw [leaving, pc_setPc]
    rfl
  · simp [Pc.syncing, Pc.inCommit]
  · simp [Pc.syncing, Pc.inCommit]
  · rintro (inside | ⟨q, other, inside⟩)
    · simp [Pc.inCommit] at inside
    · exact absurd (inCommit_syncing inside) (only q other)

/-- A step of `commit()` that leaves the header alone. -/
theorem Inv.within (inv : Inv s) {c : Pc} (inside : (s.pc p).inCommit) (closed : c.opened = false)
    (agrees : Agrees s.lh c) : Inv (setPc s p c) := by
  have was : (s.pc p).opened = false := by
    cases h : s.pc p <;> simp_all [Pc.inCommit, Pc.opened]
  have flag := inv.flagged p (inCommit_syncing inside)
  refine inv.advance (others_setPc c) ?_ (fun _ => .inl (inCommit_syncing inside))
    (fun h => .inl h) (fun _ => flag) (fun _ => inv.quiet p inside) (by simpa using agrees) (.inl rfl)
  simp [was, closed]

theorem inv_commitStep (inv : Inv s) (stepped : commitStep s p (s.pc p) = some t) : Inv t := by
  have agrees := inv.agrees p
  cases at_p : s.pc p with
  | commitTest =>
    rw [at_p] at stepped
    cases stepped
    have inside : (s.pc p).inCommit := by rw [at_p]; rfl
    split
    · exact inv.within inside rfl ⟨by simp, Nat.zero_le _⟩
    · exact inv.within inside rfl trivial
  | writeLog tail logged =>
    rw [at_p] at stepped agrees
    cases stepped
    have inside : (s.pc p).inCommit := by rw [at_p]; rfl
    split
    next more =>
      refine inv.within inside rfl ⟨?_, by omega⟩
      rw [agrees.1, List.take_concat_get' _ _ more]
    next done =>
      refine inv.within inside rfl ?_
      rw [Agrees, agrees.1, List.take_of_length_le (by omega)]
  | writeHead logged =>
    rw [at_p] at stepped agrees
    cases stepped
    exact inv.within (by rw [at_p]; rfl) rfl agrees
  | install tail logged =>
    rw [at_p] at stepped agrees
    cases stepped
    have inside : (s.pc p).inCommit := by rw [at_p]; rfl
    split <;> exact inv.within inside rfl agrees
  | reset logged =>
    rw [at_p] at stepped
    cases stepped
    have inside : (s.pc p).inCommit := by rw [at_p]; rfl
    have syncing := inCommit_syncing inside
    refine inv.advance (t := setPc { s with lh := [] } p .clearHead)
      (fun q other => .inl (Function.update_of_ne other _ _)) ?_ (fun _ => .inl syncing)
      (fun h => .inl h) (fun _ => inv.flagged p syncing) (fun _ => inv.quiet p inside)
      (by rw [pc_setPc]; trivial) (.inr ?_)
    · simp [at_p, Pc.opened]
    · intro q other h
      exact other (inv.alone q p (inCommit_syncing h) syncing)
  | clearHead =>
    rw [at_p] at stepped
    cases stepped
    exact inv.within (by rw [at_p]; rfl) rfl trivial
  | _ =>
    rw [at_p] at stepped
    cases stepped

theorem inv_step (inv : Inv s) {size : Nat} {label : ι × Act} (admitted : NoOverlap s label)
    (stepped : stepBy size s label.1 label.2 = some t) : Inv t := by
  obtain ⟨p, act⟩ := label
  cases stepBy_move stepped with
  | begins here same =>
    subst same
    refine inv_beginOp inv ?_
    rcases here with ⟨_, here⟩ | ⟨_, here⟩ <;> rw [here] <;> rfl
  | tests b _ isOpen same => exact same ▸ inv_logWriteTest inv size b isOpen
  | records b here same => exact same ▸ inv.stay_open _ (by rw [here]; rfl) rfl
  | ends isOpen same => exact same ▸ inv_endOp inv isOpen
  | reads here same =>
    subst same
    refine inv_syncRead inv ?_
    rcases here with here | here <;> rw [here] <;> rfl
  | enters here same => exact same ▸ inv_syncWait inv (by rw [here]; rfl) (.inr (admitted here))
  | waits here same =>
    have syncing : (s.pc p).syncing := by rw [here]; rfl
    have waits := inv_syncWait (p := p) inv (by rw [here]; rfl) (.inl syncing)
    rwa [show ({ s with committing := true } : State ι) = s by
      rw [← inv.flagged p syncing], ← same] at waits
  | exits here same => exact same ▸ inv_syncExit inv here
  | commits stepped => exact inv_commitStep inv stepped

omit [DecidableEq ι] in
theorem inv_initial : Inv (initial ι) where
  counted := by simp [initial, Pc.opened]
  alone _ _ h := by cases h
  flagged _ h := by cases h
  quiet _ h := by cases h
  agrees _ := trivial

/-- **Commit exclusion.** In every run in which `sync` never takes its first section while
another process is between that section and its last one, commits are exclusive in every
state: one process at a time, no open operation, and no recorded block lost. -/
theorem commit_exclusive (ι : Type) [Fintype ι] [DecidableEq ι] (size : Nat) (s : State ι)
    (reach : (system ι size).Reach NoOverlap s) : Exclusive s := by
  have inv : Inv s := reach.invariant
    (fun s start => by rw [show s = initial ι from start]; exact inv_initial)
    (fun s label t inv admitted stepped => inv_step inv admitted stepped)
  exact inv.exclusive

/-! ### The overlapping commits -/

/-- One operation has logged block 7; both processes read `log.lh.n > 0` and then take the
first section of `sync` one after the other. -/
def overlap : List (Fin 2 × Act) :=
  [(0, .beginOp), (0, .logWrite 7), (0, .run), (0, .endOp), (0, .sync), (1, .sync),
    (0, .run), (1, .run)]

/-- Two processes inside `commit()` at once: commits are not exclusive in every run. -/
theorem sync_overlaps :
    ¬∀ s, (system (Fin 2) LOGSIZE).Reach System.Any s → Exclusive s := by
  intro exclusive
  have ran : ((system (Fin 2) LOGSIZE).exec System.Any overlap (initial _)).isSome := by decide
  obtain ⟨s, hs⟩ := Option.isSome_iff_exists.mp ran
  have reach := System.Reach.exec (.init rfl) hs
  have both : s.pc 0 = .commitTest ∧ s.pc 1 = .commitTest := by
    cases hs
    exact ⟨rfl, rfl⟩
  have equal := (exclusive s reach).single 0 1 (by rw [both.1]; rfl) (by rw [both.2]; rfl)
  cases equal

instance (s : State ι) (label : ι × Act) : Decidable (NoOverlap s label) :=
  inferInstanceAs (Decidable (_ → _))

/-- The same calls, the second process entering `sync` only after the first has left it. -/
def separate : List (Fin 2 × Act) :=
  [(0, .beginOp), (0, .logWrite 7), (0, .run), (0, .endOp), (0, .sync), (1, .sync),
    (0, .run), (0, .run), (0, .run), (0, .run), (0, .run), (0, .run), (0, .run), (0, .run),
    (0, .run), (0, .run), (1, .run)]

theorem commit_exclusive_separate :
    ∃ s, (system (Fin 2) LOGSIZE).exec NoOverlap separate (initial _) = some s ∧
      (s.pc 1).inCommit ∧ Exclusive s := by
  have ran : ((system (Fin 2) LOGSIZE).exec NoOverlap separate (initial _)).isSome := by decide
  obtain ⟨s, hs⟩ := Option.isSome_iff_exists.mp ran
  refine ⟨s, hs, ?_, commit_exclusive (Fin 2) LOGSIZE s (System.Reach.exec (.init rfl) hs)⟩
  cases hs
  rfl

end Xv6.Log
