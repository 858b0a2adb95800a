import Xv6.Log.Reservation

/-!
# Progress of `begin_op`

`end_op` commits only when the log is nearly full, so a process that sleeps in `begin_op` relies on others:
on an operation that will end, or on a commit that will empty the log and wake it. Whoever sets
`log.committing`, leaves a full log behind or puts a process to sleep leaves such a process too.
-/

namespace Xv6.Log

variable {ι : Type}

/-- On the way into `sync`, before its first section. -/
def Pc.queued : Pc → Bool
  | .endSync | .syncEnter => true
  | _ => false

/-- Between the decision to commit and the step that empties the log. -/
def Pc.pending : Pc → Bool
  | .endSync | .syncEnter | .syncSleep | .syncWoken | .commitTest | .writeLog _ _ | .writeHead _
  | .install _ _ | .reset _ => true
  | _ => false

/-- Inside `end_op` or `sync`. -/
def Pc.closing (c : Pc) : Bool := c.queued || c.syncing

/-- No operation fits into the log any more. -/
def State.full (s : State ι) : Prop := LOGSIZE < s.lh.length + MAXOPBLOCKS

/-- A process is going to clear `log.committing` and wake the sleepers. -/
def Busy (s : State ι) : Prop := (∃ q, (s.pc q).syncing) ∨ s.full ∧ ∃ q, (s.pc q).queued

structure Served [Fintype ι] (s : State ι) : Prop where
  counted : s.outstanding = ∑ q, if (s.pc q).opened then 1 else 0
  flagged : s.committing = true → Busy s
  due : s.outstanding = 0 → s.full → ∃ q, (s.pc q).pending
  asleep : ∀ p, s.pc p = .beginSleep → 0 < s.outstanding ∨ Busy s

theorem Pc.WokenFrom.queued {c d : Pc} (woken : d.WokenFrom c) : d.queued = c.queued := by
  rcases woken with rfl | ⟨rfl, rfl⟩ | ⟨rfl, rfl⟩ <;> rfl

theorem Pc.WokenFrom.pending {c d : Pc} (woken : d.WokenFrom c) : d.pending = c.pending := by
  rcases woken with rfl | ⟨rfl, rfl⟩ | ⟨rfl, rfl⟩ <;> rfl

theorem Pc.WokenFrom.beginSleep {c d : Pc} (woken : d.WokenFrom c) (asleep : d = .beginSleep) :
    c = .beginSleep := by
  rcases woken with rfl | ⟨rfl, rfl⟩ | ⟨rfl, rfl⟩
  · exact asleep
  · cases asleep
  · cases asleep

theorem busy_of_pending {s : State ι} {q : ι} (full : s.full) (pending : (s.pc q).pending) : Busy s := by
  cases at_q : s.pc q with
  | endSync | syncEnter => exact .inr ⟨full, q, by rw [at_q]; rfl⟩
  | syncSleep | syncWoken | commitTest | writeLog | writeHead | install | reset =>
    exact .inl ⟨q, by rw [at_q]; rfl⟩
  | _ =>
    rw [at_q] at pending
    cases pending

variable {s t : State ι} {p : ι}

/-- What a step must do about the process `p` that takes it, so that nobody is forgotten. -/
theorem Busy.advance (busy : Busy s) (others : Others s t p)
    (stays : (s.pc p).syncing → (t.pc p).syncing)
    (queued : (s.pc p).queued → t.full → (t.pc p).queued ∨ (t.pc p).syncing)
    (full : s.full → t.full ∨ (t.pc p).syncing) : Busy t := by
  rcases busy with ⟨q, syncing⟩ | ⟨was, q, waits⟩
  · by_cases self : q = p
    · exact .inl ⟨p, stays (self ▸ syncing)⟩
    · exact .inl ⟨q, by rw [(others q self).syncing]; exact syncing⟩
  · rcases full was with still | syncing
    · by_cases self : q = p
      · rcases queued (self ▸ waits) still with waits | syncing
        · exact .inr ⟨still, p, waits⟩
        · exact .inl ⟨p, syncing⟩
      · exact .inr ⟨still, q, by rw [(others q self).queued]; exact waits⟩
    · exact .inl ⟨p, syncing⟩

variable [DecidableEq ι] [Fintype ι]

/-- A step after which nobody new sleeps and the log is not fuller than an open operation
explains. -/
theorem Served.advance (served : Served s) (others : Others s t p)
    (count : t.outstanding + (if (s.pc p).opened then 1 else 0) =
      s.outstanding + (if (t.pc p).opened then 1 else 0))
    (flagged : t.committing = true → Busy t)
    (due : t.outstanding = 0 → t.full →
      (t.pc p).pending ∨ s.outstanding = 0 ∧ s.full ∧ (s.pc p).pending = false)
    (own : t.pc p = .beginSleep → 0 < t.outstanding ∨ Busy t)
    (asleep : (∃ q, t.pc q = .beginSleep) → 0 < s.outstanding ∨ Busy s → 0 < t.outstanding ∨ Busy t) :
    Served t where
  counted := by
    have sums := sum_opened others
    have old := served.counted
    omega
  flagged := flagged
  due none full := by
    rcases due none full with pending | ⟨none, was, idle⟩
    · exact ⟨p, pending⟩
    · obtain ⟨q, pending⟩ := served.due none was
      have other : q ≠ p := by
        rintro rfl
        rw [idle] at pending
        cases pending
      exact ⟨q, by rw [(others q other).pending]; exact pending⟩
  asleep q sleeps := by
    by_cases self : q = p
    · exact own (self ▸ sleeps)
    · exact asleep ⟨q, sleeps⟩ (served.asleep q ((others q self).beginSleep sleeps))

/-! ### The sections -/

/-- A process that is not in `sync` goes to a point where it does not sleep in `begin_op`. -/
theorem Served.move (served : Served s) {c : Pc} (closed : (s.pc p).opened = false)
    (outside : (s.pc p).pending = false) (unsynced : (s.pc p).closing = false) (fresh : c.opened = false)
    (awake : c = .beginSleep → 0 < s.outstanding ∨ Busy s) : Served (setPc s p c) := by
  rw [Pc.closing, Bool.or_eq_false_iff] at unsynced
  have others : Others s (setPc s p c) p := others_setPc c
  have busy : Busy s → Busy (setPc s p c) := fun busy =>
    busy.advance others (by simp [unsynced]) (by simp [unsynced]) .inl
  refine served.advance others (by simp [closed, fresh]) (fun flag => busy (served.flagged flag))
    (fun none full => .inr ⟨none, full, outside⟩) (fun asleep => ?_) fun _ before => before.imp_right busy
  rw [pc_setPc] at asleep
  exact (awake asleep).imp_right busy

theorem served_beginOp (served : Served s) (here : s.pc p = .idle ∨ s.pc p = .beginWoken) :
    Served (beginOp s p) := by
  have idle : (s.pc p).opened = false ∧ (s.pc p).pending = false ∧ (s.pc p).closing = false := by
    rcases here with here | here <;> rw [here] <;> exact ⟨rfl, rfl, rfl⟩
  obtain ⟨closed, outside, unsynced⟩ := idle
  unfold beginOp
  split
  next flag => exact served.move closed outside unsynced rfl fun _ => .inr (served.flagged flag)
  next unflagged =>
    split
    next tight =>
      -- without an open operation only a full log keeps the process out
      refine served.move closed outside unsynced rfl fun _ => ?_
      rcases Nat.eq_zero_or_pos s.outstanding with none | some
      · rw [none] at tight
        obtain ⟨q, pending⟩ := served.due none (by simpa [State.full] using tight)
        exact .inr (busy_of_pending (by simpa [State.full] using tight) pending)
      · exact .inl some
    · refine served.advance (others_setPc (s := { s with outstanding := s.outstanding + 1 }) _) ?_
        (fun flag => absurd flag unflagged) (fun none => ?_) (fun asleep => ?_) fun _ _ => .inl (Nat.succ_pos _)
      · rw [pc_setPc, closed]
        rfl
      · cases none
      · rw [pc_setPc] at asleep
        cases asleep

omit [DecidableEq ι] in
theorem Served.outstanding_pos (served : Served s) (isOpen : (s.pc p).opened) : 0 < s.outstanding := by
  rw [served.counted, Nat.pos_iff_ne_zero, ne_eq, Finset.sum_eq_zero_iff]
  intro none
  simpa [isOpen] using none p (Finset.mem_univ p)

theorem Served.stay_open (served : Served s) {c : Pc} {lh : List Nat} (longer : s.lh.length ≤ lh.length)
    (isOpen : (s.pc p).opened) (still : c.opened) : Served (setPc { s with lh := lh } p c) := by
  have some := served.outstanding_pos isOpen
  have outside : (s.pc p).syncing = false ∧ (s.pc p).queued = false := by
    cases at_p : s.pc p <;> first | exact ⟨rfl, rfl⟩ | (rw [at_p] at isOpen; cases isOpen)
  have others : Others s (setPc { s with lh := lh } p c) p := fun q other =>
    .inl (Function.update_of_ne other _ _)
  have busy : Busy s → Busy (setPc { s with lh := lh } p c) := fun busy =>
    busy.advance others (by simp [outside]) (by simp [outside]) fun full => .inl (by
      unfold State.full at full ⊢
      change LOGSIZE < lh.length + MAXOPBLOCKS
      omega)
  refine served.advance others (by simp [isOpen, still]) (fun flag => busy (served.flagged flag))
    (fun none => ?_) (fun _ => .inl some) fun _ _ => .inl some
  change s.outstanding = 0 at none
  omega

omit [Fintype ι] in
/-- After `wakeup(&log)` nobody is asleep in `begin_op`. -/
theorem awake_wakeLog (u : State ι) (q : ι) : (setPc (wakeLog u) p .idle).pc q ≠ .beginSleep := by
  by_cases self : q = p
  · subst self
    simp
  · simp only [setPc, Function.update_of_ne self, wakeLog]
    split_ifs with sleeps
    · rintro ⟨⟩
    · exact sleeps

omit [Fintype ι] in
/-- What `end_op` does, once the operation is no longer counted. -/
theorem endOp_cases : (endOp s p).outstanding = s.outstanding - 1 ∧ (endOp s p).lh = s.lh ∧
    ((endOp s p).outstanding = 0 ∧ s.full ∧ (endOp s p).pc p = .endSync ∨
      ((endOp s p).outstanding = 0 → ¬s.full) ∧ (endOp s p).pc p = .idle ∧
        (endOp s p).committing = s.committing ∧
        (s.committing = false → ∀ q, (endOp s p).pc q ≠ .beginSleep)) := by
  have outstanding : (endOp s p).outstanding = s.outstanding - 1 := by
    unfold endOp wakeLog wakeSync setPc
    dsimp only
    split_ifs <;> rfl
  refine ⟨outstanding, endOp_lh.1, ?_⟩
  rw [outstanding]
  by_cases commits : s.outstanding - 1 = 0 ∧ LOGSIZE < s.lh.length + MAXOPBLOCKS
  · refine .inl ⟨commits.1, commits.2, ?_⟩
    unfold endOp
    simp [commits]
  · have idle : (endOp s p).pc p = .idle := by
      unfold endOp
      simp [commits]
    refine .inr ⟨fun none full => commits ⟨none, full⟩, idle, ?_, fun unflagged q => ?_⟩
    · unfold endOp wakeLog wakeSync setPc
      simp only [commits, if_false]
      split_ifs <;> rfl
    · unfold endOp
      simp only [commits, if_false]
      split_ifs with none flag flag
      · simp [wakeSync, unflagged] at flag
      · exact awake_wakeLog _ q
      · simp [unflagged] at flag
      · exact awake_wakeLog _ q

theorem served_endOp (served : Served s) (isOpen : s.pc p = .inOp) : Served (endOp s p) := by
  obtain ⟨outstanding, lh, lands⟩ := endOp_cases (s := s) (p := p)
  have some := served.outstanding_pos (p := p) (by rw [isOpen]; rfl)
  have full : (endOp s p).full ↔ s.full := by rw [State.full, lh, State.full]
  have busy : Busy s → Busy (endOp s p) := fun busy =>
    busy.advance others_endOp (by simp [isOpen, Pc.syncing, Pc.inCommit]) (by simp [isOpen, Pc.queued])
      fun was => .inl (full.mpr was)
  rcases lands with ⟨none, was, pc⟩ | ⟨room, pc, committing, woken⟩
  · -- the last operation has left a full log: this process is on the way to `sync`
    have here : Busy (endOp s p) := .inr ⟨full.mpr was, p, by rw [pc]; rfl⟩
    refine served.advance others_endOp ?_ (fun _ => here) (fun _ _ => .inl (by rw [pc]; rfl))
      (fun _ => .inr here) fun _ _ => .inr here
    rw [isOpen, pc, outstanding]
    simp only [Pc.opened, if_true]
    simp
    omega
  · refine served.advance others_endOp ?_ (fun flag => busy (served.flagged (committing ▸ flag)))
      (fun none was => absurd (full.mp was) (room none)) (fun asleep => ?_) fun sleeper _ => ?_
    · rw [isOpen, pc, outstanding]
      simp only [Pc.opened, if_true]
      simp
      omega
    · rw [pc] at asleep
      cases asleep
    · -- a sleeper that is not woken is left to the process that set the flag
      obtain ⟨q, asleep⟩ := sleeper
      cases flag : s.committing with
      | true => exact .inr (busy (served.flagged flag))
      | false => exact absurd asleep (woken flag q)

theorem served_syncRead (served : Served s) (here : s.pc p = .idle ∨ s.pc p = .endSync) :
    Served (syncRead s p) := by
  rcases here with here | here
  · unfold syncRead
    refine served.move (by rw [here]; rfl) (by rw [here]; rfl) (by rw [here]; rfl) ?_ fun asleep => ?_
    · split_ifs <;> rfl
    · split_ifs at asleep
  · have others : Others s (syncRead s p) p := others_setPc _
    have nonempty : s.full → 0 < s.lh.length := by
      unfold State.full LOGSIZE MAXOPBLOCKS
      omega
    have lands : s.full → (syncRead s p).pc p = .syncEnter := fun full => by
      rw [syncRead, pc_setPc, if_pos (nonempty full)]
    have busy : Busy s → Busy (syncRead s p) := fun busy =>
      busy.advance others (by simp [here, Pc.syncing, Pc.inCommit])
        (fun _ full => .inl (by rw [lands full]; rfl)) .inl
    refine served.advance others ?_ (fun flag => busy (served.flagged flag))
      (fun _ full => .inl (by rw [lands full]; rfl)) (fun asleep => ?_) fun _ before => before.imp_right busy
    · have fresh : ((syncRead s p).pc p).opened = false := by
        rw [syncRead, pc_setPc]
        split_ifs <;> rfl
      rw [here, fresh]
      rfl
    · rw [syncRead, pc_setPc] at asleep
      split_ifs at asleep

/-- A process in `sync` or `commit()` goes on there, with the log as it was, or emptied. -/
theorem Served.sync (served : Served s) {c : Pc} (flag : Bool) (lh : List Nat)
    (closed : (s.pc p).opened = false) (fresh : c.opened = false) (syncing : c.syncing = true)
    (due : LOGSIZE < lh.length + MAXOPBLOCKS →
      c.pending = true ∨ lh = s.lh ∧ (s.pc p).pending = false) :
    Served (setPc { s with committing := flag, lh := lh } p c) := by
  have others : Others s (setPc { s with committing := flag, lh := lh } p c) p := fun q other =>
    .inl (Function.update_of_ne other _ _)
  have busy : Busy (setPc { s with committing := flag, lh := lh } p c) :=
    .inl ⟨p, by rw [pc_setPc]; exact syncing⟩
  refine served.advance others (by simp [closed, fresh]) (fun _ => busy) (fun none full => ?_)
    (fun _ => .inr busy) fun _ _ => .inr busy
  rw [pc_setPc]
  refine (due full).imp_right fun ⟨same, idle⟩ => ⟨none, ?_, idle⟩
  rw [State.full, ← same]
  exact full

theorem served_syncWait (served : Served s) (closed : (s.pc p).opened = false) (flag : Bool) :
    Served (syncWait { s with committing := flag } p) := by
  unfold syncWait
  refine served.sync flag s.lh closed ?_ ?_ fun _ => .inl ?_ <;> split_ifs <;> rfl

theorem served_syncExit (served : Served s) (here : s.pc p = .syncExit) : Served (syncExit s p) := by
  have others : Others s (syncExit s p) p :=
    Others.trans (t := wakeLog { s with committing := false })
      (fun q other => others_wakeLog (s := { s with committing := false }) q other) (others_setPc _)
  have awake : ∀ q, (syncExit s p).pc q ≠ .beginSleep := awake_wakeLog _
  refine served.advance others ?_ (fun flag => ?_) (fun none full => .inr ⟨none, full, by rw [here]; rfl⟩)
    (fun asleep => absurd asleep (awake p)) fun ⟨q, asleep⟩ _ => absurd asleep (awake q)
  · rw [here, syncExit, pc_setPc]
    rfl
  · cases flag

theorem served_commitStep (served : Served s) (stepped : commitStep s p (s.pc p) = some t) : Served t := by
  cases here : s.pc p with
  | commitTest =>
    rw [here] at stepped
    cases stepped
    refine served.sync s.committing s.lh (by rw [here]; rfl) ?_ ?_ fun full => .inl ?_
    · split_ifs <;> rfl
    · split_ifs <;> rfl
    · rw [if_pos (by unfold LOGSIZE MAXOPBLOCKS at full; omega)]
      rfl
  | writeLog tail logged | install tail logged =>
    rw [here] at stepped
    cases stepped
    refine served.sync s.committing s.lh (by rw [here]; rfl) ?_ ?_ fun full => .inl ?_ <;>
      split_ifs <;> rfl
  | writeHead logged =>
    rw [here] at stepped
    cases stepped
    exact served.sync s.committing s.lh (by rw [here]; rfl) rfl rfl fun _ => .inl rfl
  | reset logged =>
    rw [here] at stepped
    cases stepped
    exact served.sync s.committing [] (by rw [here]; rfl) rfl rfl fun full => by
      simp [LOGSIZE, MAXOPBLOCKS] at full
  | clearHead =>
    rw [here] at stepped
    cases stepped
    exact served.sync s.committing s.lh (by rw [here]; rfl) rfl rfl fun _ =>
      .inr ⟨rfl, by rw [here]; rfl⟩
  | _ =>
    rw [here] at stepped
    cases stepped

theorem served_step {size : Nat} {act : Act} (served : Served s) (stepped : stepBy size s p act = some t) :
    Served t := by
  cases stepBy_move stepped with
  | begins here same => exact same ▸ served_beginOp served (here.imp And.right And.right)
  | tests b _ isOpen same =>
    rw [same, logWriteTest]
    split_ifs
    · exact ⟨served.counted, served.flagged, served.due, served.asleep⟩
    · exact ⟨served.counted, served.flagged, served.due, served.asleep⟩
    · exact served.stay_open le_rfl (by rw [isOpen]; rfl) rfl
  | records b here same =>
    rw [same, logWrite]
    refine served.stay_open ?_ (by rw [here]; rfl) rfl
    split_ifs
    · exact le_rfl
    · simp
  | ends isOpen same => exact same ▸ served_endOp served isOpen
  | reads here same => exact same ▸ served_syncRead served here
  | enters here same => exact same ▸ served_syncWait served (by rw [here]; rfl) true
  | waits here same => exact same ▸ served_syncWait served (by rw [here]; rfl) s.committing
  | exits here same => exact same ▸ served_syncExit served here
  | commits stepped => exact served_commitStep served stepped

omit [DecidableEq ι] in
theorem served_initial : Served (initial ι) where
  counted := by simp [initial, Pc.opened]
  flagged := nofun
  due _ full := by simp [State.full, initial, LOGSIZE, MAXOPBLOCKS] at full
  asleep _ := nofun

/-- No operation is outstanding, and no process is inside `end_op` or `sync`. -/
structure Quiet (s : State ι) : Prop where
  ended : s.outstanding = 0
  outside : ∀ p, (s.pc p).closing = false

omit [DecidableEq ι] [Fintype ι] in
theorem Quiet.not_busy (quiet : Quiet s) : ¬Busy s := by
  have outside := quiet.outside
  simp only [Pc.closing, Bool.or_eq_false_iff] at outside
  rintro (⟨q, syncing⟩ | ⟨_, q, queued⟩)
  · rw [(outside q).2] at syncing
    cases syncing
  · rw [(outside q).1] at queued
    cases queued

/-- **Progress of `begin_op`.** Whenever all operations have ended and nobody is inside `end_op`
or `sync`, no commit is announced, the log has room for an operation, nobody is left asleep, and
the section of `begin_op` lets any process in. -/
theorem begin_op_progress (ι : Type) [Fintype ι] [DecidableEq ι] (size : Nat) (s : State ι)
    (reach : (system ι size).Reach System.Any s) (quiet : Quiet s) :
    s.committing = false ∧ s.lh.length + MAXOPBLOCKS ≤ LOGSIZE ∧ (∀ p, s.pc p ≠ .beginSleep) ∧
      ∀ p, (beginOp s p).pc p = .inOp := by
  have served : Served s := reach.invariant (P := Served)
    (fun s start => by rw [show s = initial ι from start]; exact served_initial)
    (fun s label t served _ stepped => served_step served stepped)
  have idle := quiet.not_busy
  have unflagged : s.committing = false := by
    cases flag : s.committing with
    | false => rfl
    | true => exact absurd (served.flagged flag) idle
  have room : ¬s.full := by
    intro full
    obtain ⟨q, pending⟩ := served.due quiet.ended full
    exact idle (busy_of_pending full pending)
  refine ⟨unflagged, not_lt.mp room, fun p asleep => ?_, fun p => ?_⟩
  · rcases served.asleep p asleep with some | busy
    · rw [quiet.ended] at some
      cases some
    · exact idle busy
  · have fits : ¬LOGSIZE < s.lh.length + (s.outstanding + 1) * MAXOPBLOCKS := by
      rw [quiet.ended]
      simpa [State.full] using room
    rw [beginOp, if_neg (by simp [unflagged]), if_neg fits, pc_setPc]

/-- Three operations fill the log while a fourth process sleeps in `begin_op`; the last of them
commits, and then the sleeper can begin. -/
theorem begin_op_progress_filled : ∃ s, (system (Fin 4) 100).Reach System.Any s ∧ Quiet s ∧
    s.pc 3 = .beginWoken ∧ s.committing = false ∧ s.lh.length + MAXOPBLOCKS ≤ LOGSIZE ∧
    (∀ p, s.pc p ≠ .beginSleep) ∧ ∀ p, (beginOp s p).pc p = .inOp := by
  obtain ⟨s, reach, found⟩ := System.Reach.of_exec (S := system (Fin 4) 100) System.Any
    ([(0, .beginOp), (1, .beginOp)] ++ operation 2 100 20 ++ [(3, .beginOp)] ++ (operation 0 200 20).tail ++
      (operation 1 300 20).tail ++ [(0, .endOp), (1, .endOp), (3, .run), (2, .endOp)] ++
      List.replicate 129 (2, .run)) rfl
    (P := fun s => s.outstanding = 0 ∧ (∀ p, (s.pc p).closing = false) ∧ s.pc 3 = .beginWoken)
    (by decide +kernel)
  obtain ⟨ended, outside, woken⟩ := of_decide_eq_true found
  exact ⟨s, reach, ⟨ended, outside⟩, woken, begin_op_progress (Fin 4) 100 s reach ⟨ended, outside⟩⟩

end Xv6.Log
