import Mathlib.Algebra.BigOperators.Ring.Finset
import Mathlib.Algebra.Order.BigOperators.Group.Finset
import Xv6.Log.Exclusion

/-!
# Reservation of log space

`begin_op` reserves `MAXOPBLOCKS` blocks for each open operation, against `LOGSIZE`; `log_write` gives up as
soon as the header holds `log.size - 1` blocks. If `begin_op` kept the sum below that, no operation within
its reservation would be refused.
-/

namespace Xv6.Log

open Function (update)

variable {ι : Type}

/-- The log, and the distinct blocks each process has passed to `log_write` in its current
operation. -/
structure Tracked (ι : Type) where
  log : State ι
  passed : ι → List Nat

/-- A block counts once it is recorded; a new operation starts with none. -/
def track [DecidableEq ι] (s : Tracked ι) (p : ι) (t : State ι) : ι → List Nat :=
  match s.log.pc p with
  | .logWrite b => update s.passed p ((s.passed p).insert b)
  | .inOp => s.passed
  | _ => if (t.pc p).opened then update s.passed p [] else s.passed

/-- The logging calls over a log of `size` blocks, tracked. -/
def reserving (ι : Type) [DecidableEq ι] (size : Nat) : System (Tracked ι) (ι × Act) where
  init s := s = { log := initial ι, passed := fun _ => [] }
  step s label := (stepBy size s.log label.1 label.2).map fun t =>
    { log := t, passed := track s label.1 t }

/-- The operation passes at most `MAXOPBLOCKS` distinct blocks. -/
def WithinReservation (s : Tracked ι) : ι × Act → Prop
  | (p, .logWrite b) => ((s.passed p).insert b).length ≤ MAXOPBLOCKS
  | _ => True

instance (s : Tracked ι) : (label : ι × Act) → Decidable (WithinReservation s label)
  | (p, .logWrite b) => inferInstanceAs (Decidable (((s.passed p).insert b).length ≤ MAXOPBLOCKS))
  | (_, .beginOp) | (_, .endOp) | (_, .sync) | (_, .run) => .isTrue trivial

/-- The section of `begin_op` is about to run. -/
def Begins (s : State ι) : ι × Act → Prop
  | (_, .beginOp) => True
  | (p, .run) => s.pc p = .beginWoken
  | _ => False

instance (s : State ι) : (label : ι × Act) → Decidable (Begins s label)
  | (_, .beginOp) => .isTrue trivial
  | (p, .run) => inferInstanceAs (Decidable (s.pc p = .beginWoken))
  | (_, .logWrite _) | (_, .endOp) | (_, .sync) => .isFalse id

/-- What `begin_op` lets in fits below the limit of `log_write`. -/
def LeavesRoom (size : Nat) (s : State ι) (label : ι × Act) : Prop :=
  Begins s label → s.lh.length + (s.outstanding + 1) * MAXOPBLOCKS ≤ LOGSIZE →
    s.lh.length + (s.outstanding + 1) * MAXOPBLOCKS < size - 1

instance (size : Nat) (s : State ι) (label : ι × Act) : Decidable (LeavesRoom size s label) := by
  unfold LeavesRoom
  infer_instance

/-- Commits one at a time, operations within their reservation. -/
def Disciplined (s : Tracked ι) (label : ι × Act) : Prop :=
  NoOverlap s.log label ∧ WithinReservation s label

/-! ### What a step does -/

section Kinds

variable [DecidableEq ι] {s t : State ι} {p : ι} {size : Nat} {act : Act}

/-- The steps that matter to the reservation. -/
inductive Kind (size : Nat) (s : State ι) (p : ι) (act : Act) (t : State ι) : Prop where
  /-- `begin_op` lets the operation in -/
  | opens : Begins s (p, act) → (s.pc p).opened = false → (t.pc p).opened = true → t.lh = s.lh →
      t.halted = s.halted → s.lh.length + (s.outstanding + 1) * MAXOPBLOCKS ≤ LOGSIZE → Kind size s p act t
  | test (b : Nat) : act = .logWrite b → s.pc p = .inOp → t = logWriteTest size s p b →
      Kind size s p act t
  | record (b : Nat) : s.pc p = .logWrite b → t = logWrite s p b → Kind size s p act t
  /-- everything else; only `log.lh.n = 0` empties the header -/
  | other : (t.pc p).opened = false → (∀ b, s.pc p ≠ .logWrite b) → t.halted = s.halted →
      (t.lh = s.lh ∨ (∃ logged, s.pc p = .reset logged) ∧ t.lh = []) → Kind size s p act t

theorem beginOp_kind (begins : Begins s (p, act)) (closed : (s.pc p).opened = false)
    (outside : ∀ b, s.pc p ≠ .logWrite b) :
    Others s (beginOp s p) p ∧ Kind size s p act (beginOp s p) := by
  unfold beginOp
  split
  · exact ⟨others_setPc _, .other (by rw [pc_setPc]; rfl) outside rfl (.inl rfl)⟩
  · split
    · exact ⟨others_setPc _, .other (by rw [pc_setPc]; rfl) outside rfl (.inl rfl)⟩
    next fits =>
      exact ⟨others_setPc (s := { s with outstanding := s.outstanding + 1 }) _,
        .opens begins closed (by rw [pc_setPc]; rfl) rfl rfl (not_lt.mp fits)⟩

/-- A step that leaves `p` outside operations and the header alone. -/
theorem setPc_kind {u : State ι} {c : Pc} (others : Others s u p) (outside : ∀ b, s.pc p ≠ .logWrite b)
    (closed : c.opened = false) (halted : u.halted = s.halted)
    (lh : u.lh = s.lh ∨ (∃ logged, s.pc p = .reset logged) ∧ u.lh = []) :
    Others s (setPc u p c) p ∧ Kind size s p act (setPc u p c) :=
  ⟨others.trans (others_setPc c), .other (by rw [pc_setPc]; exact closed) outside halted lh⟩

theorem commitStep_kind (stepped : commitStep s p (s.pc p) = some t) :
    Others s t p ∧ Kind size s p act t := by
  have same : Others s s p := fun _ _ => .inl rfl
  cases here : s.pc p with
  | reset logged =>
    rw [here] at stepped
    cases stepped
    exact setPc_kind (u := { s with lh := [] }) same (by simp [here]) rfl rfl
      (.inr ⟨⟨logged, here⟩, rfl⟩)
  | commitTest | writeLog tail logged | install tail logged =>
    rw [here] at stepped
    cases stepped
    refine setPc_kind same (by simp [here]) ?_ rfl (.inl rfl)
    split_ifs <;> rfl
  | writeHead logged | clearHead =>
    rw [here] at stepped
    cases stepped
    exact setPc_kind same (by simp [here]) rfl rfl (.inl rfl)
  | _ =>
    rw [here] at stepped
    cases stepped

theorem stepBy_kind (stepped : stepBy size s p act = some t) :
    Others s t p ∧ Kind size s p act t := by
  have same : Others s s p := fun _ _ => .inl rfl
  cases stepBy_move stepped with
  | begins here moved =>
    subst moved
    rcases here with ⟨rfl, here⟩ | ⟨rfl, here⟩
    · exact beginOp_kind trivial (by rw [here]; rfl) (by simp [here])
    · exact beginOp_kind here (by rw [here]; rfl) (by simp [here])
  | tests b isAct isOpen moved =>
    refine ⟨?_, .test b isAct isOpen moved⟩
    rw [moved, logWriteTest]
    split_ifs
    · exact same
    · exact same
    · exact others_setPc _
  | records b here moved => exact ⟨moved ▸ others_setPc _, .record b here moved⟩
  | ends isOpen moved =>
    subst moved
    refine ⟨others_endOp, .other ?_ (by simp [isOpen]) endOp_lh.2 (.inl endOp_lh.1)⟩
    rcases endOp_lands (s := s) (p := p) with lands | lands <;> rw [lands] <;> rfl
  | reads here moved =>
    subst moved
    refine setPc_kind same ?_ ?_ rfl (.inl rfl)
    · rcases here with here | here <;> simp [here]
    · split_ifs <;> rfl
  | enters here moved =>
    subst moved
    refine setPc_kind (u := { s with committing := true }) same (by simp [here]) ?_ rfl (.inl rfl)
    split_ifs <;> rfl
  | waits here moved =>
    subst moved
    refine setPc_kind same (by simp [here]) ?_ rfl (.inl rfl)
    split_ifs <;> rfl
  | exits here moved =>
    subst moved
    exact setPc_kind (others_wakeLog (s := { s with committing := false })) (by simp [here]) rfl
      rfl (.inl rfl)
  | commits stepped => exact commitStep_kind stepped

/-- A step into `commit()` comes from `sync`; within it, `commitStep` goes on. -/
theorem stepBy_inCommit (stepped : stepBy size s p act = some t) (inside : (t.pc p).inCommit = true) :
    t.pc p = .commitTest ∨ commitStep s p (s.pc p) = some t := by
  cases stepBy_move stepped with
  | begins _ moved =>
    simp only [moved, beginOp] at inside
    split_ifs at inside <;> simp [Pc.inCommit] at inside
  | tests b _ here moved =>
    simp only [moved, logWriteTest] at inside
    split_ifs at inside <;> simp [Pc.inCommit, here] at inside
  | records b _ moved => simp [moved, logWrite, Pc.inCommit] at inside
  | ends _ moved =>
    rw [moved] at inside
    rcases endOp_lands (s := s) (p := p) with lands | lands <;>
      rw [lands] at inside <;> cases inside
  | reads _ moved =>
    simp only [moved, syncRead] at inside
    split_ifs at inside <;> simp [Pc.inCommit] at inside
  | enters _ moved | waits _ moved =>
    simp only [moved, syncEnter, syncWait, pc_setPc] at inside ⊢
    split_ifs at inside ⊢
    · cases inside
    · exact .inl rfl
  | exits _ moved => simp [moved, syncExit, Pc.inCommit] at inside
  | commits stepped => exact .inr stepped

theorem Inv.lh_kept [Fintype ι] {q : ι} (inv : Inv s) (other : q ≠ p) (inside : (s.pc q).inCommit = true)
    (stepped : stepBy size s p act = some t) : t.lh = s.lh := by
  have closed : (s.pc p).opened = false := by
    cases isOpen : (s.pc p).opened with
    | false => rfl
    | true => exact absurd inside (inv.not_inCommit isOpen q)
  cases (stepBy_kind stepped).2 with
  | opens _ _ _ lh _ _ => exact lh
  | test b _ here _ | record b here _ =>
    rw [here] at closed
    cases closed
  | other _ _ _ lh =>
    rcases lh with lh | ⟨⟨logged, here⟩, _⟩
    · exact lh
    · exact absurd (inv.exclusive.single q p inside (by rw [here]; rfl)) other

end Kinds

/-! ### The budget -/

variable [Fintype ι]

/-- What the open operation of `q` may still record. -/
def room (s : Tracked ι) (q : ι) : Nat :=
  if (s.log.pc q).opened then MAXOPBLOCKS - (s.passed q).length else 0

structure Budget (size : Nat) (s : Tracked ι) : Prop where
  /-- the header and what is still promised stay below the limit of `log_write` -/
  fits : s.log.lh.length + ∑ q, room s q < size - 1
  /-- what an open operation has passed is in the header -/
  recorded : ∀ q, (s.log.pc q).opened → ∀ b ∈ s.passed q, b ∈ s.log.lh
  bounded : ∀ q, (s.log.pc q).opened → (s.passed q).length ≤ MAXOPBLOCKS
  pending : ∀ q b, s.log.pc q = .logWrite b → ((s.passed q).insert b).length ≤ MAXOPBLOCKS
  running : s.log.halted ≠ some .tooBigTransaction

variable [DecidableEq ι] {s s' : Tracked ι} {t : State ι} {p : ι} {size : Nat} {act : Act}

theorem sum_room (others : Others s.log s'.log p) (passed : ∀ q, q ≠ p → s'.passed q = s.passed q) :
    (∑ q, room s' q) + room s p = (∑ q, room s q) + room s' p :=
  Refs.sum_of_others fun q other => by rw [room, room, (others q other).opened, passed q other]

theorem Budget.step (budget : Budget size s) (others : Others s.log s'.log p)
    (passed : ∀ q, q ≠ p → s'.passed q = s.passed q)
    (fits : s'.log.lh.length + room s' p < size - 1 - (∑ q, room s q) + room s p ∨
      s'.log.lh.length + room s' p ≤ s.log.lh.length + room s p)
    (kept : ∀ b ∈ s.log.lh, b ∈ s'.log.lh ∨ ∀ q, q ≠ p → ¬(s.log.pc q).opened)
    (recorded : (s'.log.pc p).opened → ∀ b ∈ s'.passed p, b ∈ s'.log.lh)
    (bounded : (s'.log.pc p).opened → (s'.passed p).length ≤ MAXOPBLOCKS)
    (pending : ∀ b, s'.log.pc p = .logWrite b → ((s'.passed p).insert b).length ≤ MAXOPBLOCKS)
    (running : s'.log.halted ≠ some .tooBigTransaction) : Budget size s' where
  fits := by
    have sums := sum_room others passed
    have old := budget.fits
    omega
  recorded q isOpen b member := by
    by_cases isP : q = p
    · subst isP
      exact recorded isOpen b member
    · rw [(others q isP).opened] at isOpen
      rw [passed q isP] at member
      rcases kept b (budget.recorded q isOpen b member) with here | none
      · exact here
      · exact absurd isOpen (none q isP)
  bounded q isOpen := by
    by_cases isP : q = p
    · subst isP
      exact bounded isOpen
    · rw [(others q isP).opened] at isOpen
      rw [passed q isP]
      exact budget.bounded q isOpen
  pending q b writing := by
    by_cases isP : q = p
    · subst isP
      exact pending b writing
    · rw [passed q isP]
      refine budget.pending q b ?_
      rcases others q isP with same | ⟨_, woken⟩ | ⟨_, woken⟩
      · exact same ▸ writing
      · rw [woken] at writing
        cases writing
      · rw [woken] at writing
        cases writing
  running := running

omit [DecidableEq ι] in
/-- Each open operation has at most `MAXOPBLOCKS` blocks to go. -/
theorem sum_room_le (inv : Inv s.log) : ∑ q, room s q ≤ s.log.outstanding * MAXOPBLOCKS := by
  rw [inv.counted, Finset.sum_mul]
  refine Finset.sum_le_sum fun q _ => ?_
  unfold room
  split_ifs <;> omega

omit [Fintype ι] in
theorem track_of_closed (closed : (s.log.pc p).opened = false) (isOpen : (t.pc p).opened = true) :
    track s p t = update s.passed p [] := by
  unfold track
  split
  next b here => simp [here, Pc.opened] at closed
  next here => simp [here, Pc.opened] at closed
  · rw [if_pos isOpen]

omit [Fintype ι] in
theorem track_of_left (outside : ∀ b, s.log.pc p ≠ .logWrite b) (closed : (t.pc p).opened = false) :
    track s p t = s.passed := by
  unfold track
  split
  next b here => exact absurd here (outside b)
  · rfl
  · rw [if_neg (by simp [closed])]

theorem budget_step (inv : Inv s.log) (budget : Budget LOGSIZE s)
    (within : WithinReservation s (p, act)) (leaves : LeavesRoom LOGSIZE s.log (p, act))
    (stepped : stepBy LOGSIZE s.log p act = some t) :
    Budget LOGSIZE { log := t, passed := track s p t } := by
  obtain ⟨others, kind⟩ := stepBy_kind stepped
  cases kind with
  | opens begins closed isOpen lh halted reserved =>
    have fresh := track_of_closed closed isOpen
    have none_ : track s p t p = [] := by rw [fresh, Function.update_self]
    have promised := sum_room_le inv
    have fits := leaves begins reserved
    have before : room s p = 0 := by simp [room, closed]
    have after : room { log := t, passed := track s p t } p = MAXOPBLOCKS := by
      simp [room, isOpen, none_]
    refine budget.step others (fun q ne => ?_) (.inl ?_) (fun b member => .inl (lh ▸ member))
      (fun _ b member => ?_) (fun _ => ?_) (fun b _ => ?_) (by rw [halted]; exact budget.running)
    · change track s p t q = _
      rw [fresh, Function.update_of_ne ne]
    · rw [before, after, lh]
      rw [Nat.add_mul] at fits
      omega
    · change b ∈ track s p t p at member
      rw [none_] at member
      cases member
    · change (track s p t p).length ≤ _
      rw [none_]
      exact Nat.zero_le _
    · change ((track s p t p).insert b).length ≤ _
      rw [none_]
      simp [MAXOPBLOCKS]
  | test b act' here test =>
    subst act' test
    have same : ∀ u, track s p u = s.passed := fun u => by simp [track, here]
    have fits := budget.fits
    have below : ¬(LOGSIZE ≤ s.log.lh.length ∨ LOGSIZE - 1 ≤ s.log.lh.length) := by omega
    have opened : (s.log.pc p).opened = true := by rw [here]; rfl
    simp only [logWriteTest, if_neg below, same] at others ⊢
    split_ifs at others ⊢
    · exact ⟨budget.fits, budget.recorded, budget.bounded, budget.pending, by simp⟩
    · refine budget.step others (fun _ _ => rfl) (.inr ?_) (fun b member => .inl member)
        (fun _ => budget.recorded p opened) (fun _ => budget.bounded p opened) (fun c writing => ?_)
        budget.running
      · simp [room, here, Pc.opened]
      · rw [pc_setPc] at writing
        cases writing
        exact within
  | record b here written =>
    subst written
    have opened : (s.log.pc p).opened = true := by rw [here]; rfl
    have inserted : track s p (logWrite s.log p b) = update s.passed p ((s.passed p).insert b) := by
      simp [track, here]
    have own : track s p (logWrite s.log p b) p = (s.passed p).insert b := by
      rw [inserted, Function.update_self]
    have lh : (logWrite s.log p b).lh = if b ∈ s.log.lh then s.log.lh else s.log.lh ++ [b] := rfl
    have kept : ∀ c ∈ s.log.lh, c ∈ (logWrite s.log p b).lh := by
      intro c member
      rw [lh]
      split_ifs
      · exact member
      · exact List.mem_append_left _ member
    have bound := budget.pending p b here
    refine budget.step others (fun q ne => ?_) (.inr ?_) (fun c member => .inl (kept c member))
      (fun _ c member => ?_) (fun _ => ?_) (fun c writing => ?_) budget.running
    · change track s p _ q = _
      rw [inserted, Function.update_of_ne ne]
    · have before : room s p = MAXOPBLOCKS - (s.passed p).length := by simp [room, opened]
      have after : room { log := logWrite s.log p b, passed := track s p (logWrite s.log p b) } p =
          MAXOPBLOCKS - ((s.passed p).insert b).length := by
        have here' : ((logWrite s.log p b).pc p).opened = true := by simp [logWrite, Pc.opened]
        simp only [room, here', own, if_true]
      rw [before, after, lh]
      by_cases old : b ∈ s.passed p
      · rw [if_pos (budget.recorded p opened b old), List.insert_of_mem old]
      · rw [List.length_insert_of_not_mem old] at bound ⊢
        split_ifs
        · omega
        · rw [List.length_append, List.length_singleton]
          omega
    · change c ∈ track s p _ p at member
      rw [own, List.mem_insert_iff] at member
      rcases member with rfl | old
      · rw [lh]
        split_ifs with already
        · exact already
        · simp
      · exact kept c (budget.recorded p opened c old)
    · change (track s p _ p).length ≤ _
      rw [own]
      exact bound
    · simp [logWrite] at writing
  | other closed outside halted lh =>
    have same := track_of_left outside closed
    have short : t.lh.length ≤ s.log.lh.length := by
      rcases lh with lh | ⟨_, lh⟩ <;> simp [lh]
    refine budget.step others (fun q _ => by rw [same]) (.inr ?_) (fun b member => ?_)
      (fun isOpen => ?_) (fun isOpen => ?_) (fun b writing => ?_) (by rw [halted]; exact budget.running)
    · have after : room { log := t, passed := track s p t } p = 0 := by simp [room, closed]
      rw [after]
      exact short.trans (Nat.le_add_right ..)
    · rcases lh with lh | ⟨⟨logged, here⟩, _⟩
      · exact .inl (lh ▸ member)
      · exact .inr fun q _ => inv.exclusive.unlogged p q (by rw [here]; rfl)
    · rw [closed] at isOpen
      cases isOpen
    · rw [closed] at isOpen
      cases isOpen
    · rw [writing] at closed
      cases closed

/-- Commits one at a time, operations within their reservation, and `begin_op` leaves room for
what it lets in. -/
def Reserved (s : Tracked ι) (label : ι × Act) : Prop :=
  Disciplined s label ∧ LeavesRoom LOGSIZE s.log label

/-- **Reservation of log space.** In every run of operations within their reservation, with
commits one at a time, in which `begin_op` lets an operation in only when its blocks and those
promised to the other open operations stay below `log.size - 1`, `log_write` never gives up. -/
theorem log_write_fits (ι : Type) [Fintype ι] [DecidableEq ι] (s : Tracked ι)
    (reach : (reserving ι LOGSIZE).Reach Reserved s) : s.log.halted ≠ some .tooBigTransaction := by
  have both : Inv s.log ∧ Budget LOGSIZE s := by
    refine reach.invariant (?_ : ∀ s, (reserving ι LOGSIZE).init s → Inv s.log ∧ Budget LOGSIZE s) ?_
    · rintro s rfl
      refine ⟨inv_initial, ⟨?_, ?_, ?_, ?_, ?_⟩⟩ <;> simp [initial, room, Pc.opened, LOGSIZE, MAXOPBLOCKS]
    · rintro s ⟨p, act⟩ s' ⟨inv, budget⟩ ⟨⟨alone, within⟩, leaves⟩ stepped
      obtain ⟨t, moved, rfl⟩ := Option.map_eq_some_iff.mp stepped
      exact ⟨inv_step inv alone moved, budget_step inv budget within leaves moved⟩
  exact both.2.running

/-! ### The last promised block -/

instance (s : Tracked ι) (label : ι × Act) : Decidable (Disciplined s label) :=
  inferInstanceAs (Decidable (_ ∧ _))

instance (s : Tracked ι) (label : ι × Act) : Decidable (Reserved s label) :=
  inferInstanceAs (Decidable (_ ∧ _))

/-- Process `p` runs one operation that writes `n` blocks from `first` on, up to its `end_op`. -/
def operation {n : Nat} (p : Fin n) (first blocks : Nat) : List (Fin n × Act) :=
  (p, .beginOp) :: ((List.range' first blocks).flatMap fun b => [(p, .logWrite b), (p, .run)])

/-- Two operations at a time, both with all the blocks they may write. -/
theorem log_write_fits_two : ∃ s, (reserving (Fin 2) LOGSIZE).Reach Reserved s ∧
    s.log.lh.length = 40 ∧ s.log.outstanding = 2 ∧ s.log.halted ≠ some .tooBigTransaction := by
  obtain ⟨s, reach, found⟩ := System.Reach.of_exec (S := reserving (Fin 2) LOGSIZE) Reserved
    ((0, .beginOp) :: operation 1 100 20 ++ (operation 0 200 20).tail) rfl
    (P := fun s => s.log.lh.length = 40 ∧ s.log.outstanding = 2) (by decide +kernel)
  obtain ⟨full, two⟩ := of_decide_eq_true found
  exact ⟨s, reach, full, two, log_write_fits (Fin 2) s reach⟩

/-- Three operations that `begin_op` lets in one after the other, each with the twenty blocks it
has reserved: the sixtieth block is refused. -/
theorem log_write_refused : ∃ s, (reserving (Fin 3) LOGSIZE).Reach Disciplined s ∧
    s.log.halted = some .tooBigTransaction := by
  obtain ⟨s, reach, found⟩ := System.Reach.of_exec (S := reserving (Fin 3) LOGSIZE) Disciplined
    ((0, .beginOp) :: (1, .beginOp) :: operation 2 100 20 ++ (operation 0 200 20).tail ++
      (operation 1 300 20).tail.dropLast) rfl
    (P := fun s => s.log.halted = some .tooBigTransaction) (by decide +kernel)
  exact ⟨s, reach, of_decide_eq_true found⟩

end Xv6.Log
