import Xv6.Proc.Activity

/-!
# Phases of a slot

A slot is unused, claimed by a creation under way, waiting, on a CPU or exited. Waking and killing change no
phase.
-/

namespace Xv6.Proc

open Function (update)
open Vm Steps

inductive Phase where
  | unused
  | embryo
  | waiting
  | running
  | zombie
  deriving DecidableEq

def ProcState.phase : ProcState → Phase
  | .UNUSED => .unused
  | .EMBRYO => .embryo
  | .SLEEPING | .RUNNABLE => .waiting
  | .RUNNING => .running
  | .ZOMBIE => .zombie

def Kernel.phase (k : Kernel) (p : Slot) : Phase := (k.state p).phase

variable {k k' : Kernel} {cur np p w : Slot} {outcome : Outcome} {s : ProcState}

theorem phase_of_state (is : k.state p = s) : k.phase p = s.phase := by
  rw [Kernel.phase, is]

/-- An assignment to `state`. -/
theorem phase_setState (k : Kernel) (p : Slot) (s : ProcState) :
    ({ k with state := update k.state p s } : Kernel).phase = update k.phase p s.phase := by
  funext q
  by_cases same : q = p
  · subst same
    simp [Kernel.phase]
  · simp [Kernel.phase, same]

theorem phase_keepState (same : s.phase = k.phase p) :
    ({ k with state := update k.state p s } : Kernel).phase = k.phase := by
  rw [phase_setState, same, Function.update_eq_self]

theorem running_iff : k.phase p = .running ↔ k.state p = .RUNNING := by
  unfold Kernel.phase
  cases k.state p <;> decide

theorem zombie_iff : k.phase p = .zombie ↔ k.state p = .ZOMBIE := by
  unfold Kernel.phase
  cases k.state p <;> decide

theorem unused_iff : k.phase p = .unused ↔ k.state p = .UNUSED := by
  unfold Kernel.phase
  cases k.state p <;> decide

/-! ### Sleeping, waking, killing -/

@[simp] theorem phase_wakeup1 (k : Kernel) (chan : Option Chan) :
    (wakeup1 k chan).phase = k.phase := by
  funext p
  simp only [Kernel.phase, wakeup1]
  split
  next asleep =>
    rw [asleep.1]
    rfl
  · rfl

@[simp] theorem phase_killThread (k : Kernel) (p : Slot) : (killThread k p).phase = k.phase := by
  simp only [killThread]
  split
  next asleep => exact phase_keepState (k := { k with killed := _ }) (phase_of_state (k := k) asleep).symm
  · rfl

theorem phase_sleep (k : Kernel) (p : Slot) (chan : Chan) (context : Context) :
    (sleep k p chan context).phase = update k.phase p .waiting :=
  phase_setState { k with chan := _, context := _ } p .SLEEPING

theorem phase_wakeParent (k : Kernel) (cur : Slot) : (wakeParent k cur).phase = k.phase := by
  unfold wakeParent
  split
  · rfl
  · exact phase_wakeup1 ..

theorem wakeMaster_phase (ran : wakeMaster k cur = .ok k') : k'.phase = k.phase := by
  unfold wakeMaster at ran
  split at ran
  · cases ran
    rfl
  · obtain ⟨h, _, ran⟩ := bind_ok ran
    cases ran
    rw [phase_wakeup1]
    split <;> rfl

theorem phase_reparent (k : Kernel) (cur : Slot) : (reparent k cur).phase = k.phase := by
  unfold reparent
  simp only
  split
  · exact phase_wakeup1 k (some (.proc k.initproc))
  · rfl

theorem sleepLoop_frame : ∀ {rounds : Nat} {q : Option Slot} {k k' : Kernel},
    sleepLoop cur rounds q k = .ok k' → k'.phase = k.phase ∧ ∃ state, k' = { k with state := state } := by
  intro rounds
  induction rounds with
  | zero =>
    intro q k k' ran
    cases q <;> cases ran
    exact ⟨rfl, _, rfl⟩
  | succ rounds ih =>
    intro q k k' ran
    cases q with
    | none =>
      cases ran
      exact ⟨rfl, _, rfl⟩
    | some p =>
      simp only [sleepLoop] at ran
      obtain ⟨phase, state, rfl⟩ := ih ran
      by_cases awake : p ≠ cur ∧ k.state p = .RUNNABLE
      · rw [if_pos awake] at phase ⊢
        exact ⟨phase.trans (phase_keepState (phase_of_state awake.2).symm), state, rfl⟩
      · rw [if_neg awake] at phase ⊢
        exact ⟨phase, state, rfl⟩

/-! ### Reclaiming -/

/-- Some exited threads are reclaimed, and nothing else happens to the phases. -/
def Reaped (k k' : Kernel) : Prop :=
  ∀ p, k'.phase p = k.phase p ∨ k.phase p = .zombie ∧ k'.phase p = .unused

theorem Reaped.refl (k : Kernel) : Reaped k k := fun _ => .inl rfl

theorem Reaped.trans {k'' : Kernel} (first : Reaped k k') (second : Reaped k' k'') : Reaped k k'' := by
  intro p
  rcases first p with same | ⟨zombie, unused⟩
  · rw [← same]
    exact second p
  · right
    refine ⟨zombie, ?_⟩
    rcases second p with same | ⟨zombie', _⟩
    · rw [same, unused]
    · rw [unused] at zombie'
      cases zombie'

theorem deallocThread_reaped {r : Int} (zombie : k.state w = .ZOMBIE)
    (ran : deallocThread k w = .ok (r, k')) : Reaped k k' := by
  rcases deallocThread_frame ran with ⟨_, rfl⟩ | ⟨_, _, _, _, _, _, _, rfl⟩
  · exact .refl k'
  · intro p
    by_cases here : p = w
    · subst here
      exact .inr ⟨zombie_iff.mpr zombie, unused_iff.mpr (Function.update_self ..)⟩
    · left
      simp [Kernel.phase, clearThread, here]

/-- What the loops over the thread list may write. -/
def Cleared (k k' : Kernel) : Prop :=
  ∃ state killed kstack pid parent master cnt turn tid mnode share mem memlock lists sz base threads,
    k' =
      { k with
        state := state
        killed := killed
        kstack := kstack
        pid := pid
        parent := parent
        master := master
        emptystackcnt := cnt
        turn := turn
        tid := tid
        mnode := mnode
        fixedshare := share
        mem := mem
        memlock := memlock
        emptystacks := lists
        sz := sz
        originalbase := base
        threads := threads }

theorem deallocThread_cleared {r : Int} (ran : deallocThread k w = .ok (r, k')) : Cleared k k' := by
  rcases deallocThread_frame ran with ⟨_, rfl⟩ | ⟨_, _, _, _, _, _, _, rfl⟩
  · exact ⟨_, _, _, _, _, _, _, _, _, _, _, _, _, _, _, _, _, rfl⟩
  · exact ⟨_, _, _, _, _, _, _, _, _, _, _, _, _, _, _, _, _, rfl⟩

theorem reapLoop_reaped : ∀ {rounds : Nat} {q : Option Slot} {found found' : Bool} {k k' : Kernel},
    reapLoop false rounds q found k = .ok (found', k') → Reaped k k' ∧ Cleared k k' := by
  intro rounds
  induction rounds with
  | zero =>
    intro q found found' k k' ran
    cases q <;> cases ran
    exact ⟨.refl k, _, _, _, _, _, _, _, _, _, _, _, _, _, _, _, _, _, rfl⟩
  | succ rounds ih =>
    intro q found found' k k' ran
    cases q with
    | none =>
      cases ran
      exact ⟨.refl k, _, _, _, _, _, _, _, _, _, _, _, _, _, _, _, _, _, rfl⟩
    | some p =>
      simp only [reapLoop, Bool.false_eq_true, if_false] at ran
      split at ran
      next zombie =>
        obtain ⟨⟨r, k₁⟩, dealloc, ran⟩ := bind_ok ran
        obtain ⟨reaped, cleared⟩ := ih ran
        refine ⟨(deallocThread_reaped zombie dealloc).trans reaped, ?_⟩
        obtain ⟨_, _, _, _, _, _, _, _, _, _, _, _, _, _, _, _, _, rfl⟩ := deallocThread_cleared dealloc
        obtain ⟨_, _, _, _, _, _, _, _, _, _, _, _, _, _, _, _, _, rfl⟩ := cleared
        exact ⟨_, _, _, _, _, _, _, _, _, _, _, _, _, _, _, _, _, rfl⟩
      next =>
        obtain ⟨reaped, cleared⟩ := ih ran
        refine ⟨fun q => ?_, ?_⟩
        · rw [← phase_killThread k p]
          exact reaped q
        obtain ⟨_, _, _, _, _, _, _, _, _, _, _, _, _, _, _, _, _, rfl⟩ := cleared
        exact ⟨_, _, _, _, _, _, _, _, _, _, _, _, _, _, _, _, _, rfl⟩

/-- What one pass of `thread_join` has found. -/
theorem joinLoop_tid {tid : Nat} : ∀ {rounds : Nat} {q : Option Slot} {found found' : Bool},
    joinLoop k tid rounds q found = .ok (some p, found') → k.tid p = tid := by
  intro rounds
  induction rounds with
  | zero =>
    intro q found found' ran
    cases q <;> cases ran
  | succ rounds ih =>
    intro q found found' ran
    cases q with
    | none => cases ran
    | some r =>
      simp only [joinLoop] at ran
      split at ran
      next same =>
        split at ran
        · cases ran
          exact same
        · exact ih ran
      · exact ih ran

theorem joinPass_frame {thread : Nat} {found : Bool}
    (ran : joinPass k cur thread found = .ok (outcome, k')) :
    (∃ w r k₁, k.state w = .ZOMBIE ∧ k.tid w = thread ∧
      (∀ xs ys, k.threads.Linked (xs ++ cur :: ys) → w ∈ ys) ∧
      deallocThread { k with ptableLock := true } w = .ok (r, k₁) ∧
      outcome = .returns 0 ∧ k' = release { k₁ with retval := update k₁.retval w 0 }) ∨
    outcome = .returns (-1) ∧ k' = { k with ptableLock := false } ∨
    ∃ found', outcome = .sleeps ∧ k' = sleep k cur (.proc cur) (.join thread found') := by
  unfold joinPass at ran
  obtain ⟨k₁, locked, ran⟩ := bind_ok ran
  obtain rfl := acquire_eq locked
  obtain ⟨⟨r, found'⟩, loop, ran⟩ := bind_ok ran
  cases r with
  | some w =>
    obtain ⟨⟨r, k₂⟩, dealloc, ran⟩ := bind_ok ran
    cases ran
    refine .inl ⟨w, r, k₂, (joinLoop_zombie loop :), (joinLoop_tid loop :), fun xs ys linked => ?_,
      dealloc, rfl, rfl⟩
    exact joinLoop_found loop (xs ++ [cur]) ys (by rwa [List.append_assoc]) linked.at.2
  | none =>
    simp only at ran
    split at ran
    · cases ran
      exact .inr (.inl ⟨rfl, rfl⟩)
    · cases ran
      exact .inr (.inr ⟨found', rfl, rfl⟩)

/-! ### Exiting and waiting -/

theorem threadExit_frame {retval : Nat} (ran : threadExit k cur retval = .ok k') :
    k'.phase = update k.phase cur .zombie ∧ ∃ state, k' =
      { k with
        ptableLock := false
        retval := update k.retval cur retval
        state := state } := by
  unfold threadExit at ran
  obtain ⟨k₁, locked, ran⟩ := bind_ok ran
  obtain rfl := acquire_eq locked
  cases ran
  refine ⟨(phase_setState _ cur .ZOMBIE).trans ?_, _, rfl⟩
  rw [phase_wakeup1, phase_wakeup1]
  rfl

theorem exitTail_frame (ran : exitTail k cur = .ok k') :
    k'.phase = update k.phase cur .zombie ∧ ∃ state killed, k' =
      { k with
        ptableLock := false
        state := state
        killed := killed
        parent := fun p => if k.parent p = some cur then some k.initproc else k.parent p } := by
  unfold exitTail at ran
  obtain ⟨k₁, locked, ran⟩ := bind_ok ran
  obtain rfl := acquire_eq locked
  obtain ⟨k₂, woken, rest⟩ := bind_ok ran
  cases rest
  refine ⟨(phase_setState _ cur .ZOMBIE).trans ?_, ?_⟩
  · rw [phase_reparent, wakeMaster_phase woken, phase_wakeParent]
    rfl
  obtain ⟨_, parent⟩ := wakeParent_frame { k with ptableLock := true } cur
  rw [parent] at woken
  obtain ⟨_, _, rfl⟩ := wakeMaster_frame woken
  obtain ⟨_, reparented⟩ := reparent_frame _ cur
  rw [reparented]
  exact ⟨_, _, rfl⟩

/-- The first part of `exit` reclaims threads; then it sleeps or goes on. -/
theorem exitReap_frame (ran : exitReap k cur = .ok (outcome, k')) :
    ∃ found k₁, reapLoop false NPROC (k.threads.next cur) false { k with ptableLock := true } = .ok (found, k₁) ∧
      (outcome = .sleeps ∧ k' = sleep k₁ cur (.proc cur) .exitReap ∨
        outcome = .returns 0 ∧ k' = release k₁) := by
  unfold exitReap at ran
  obtain ⟨k₁, locked, ran⟩ := bind_ok ran
  obtain rfl := acquire_eq locked
  obtain ⟨⟨found, k₂⟩, loop, ran⟩ := bind_ok ran
  refine ⟨found, k₂, loop, ?_⟩
  simp only at ran
  split at ran
  · cases ran
    exact .inl ⟨rfl, rfl⟩
  · cases ran
    exact .inr ⟨rfl, rfl⟩

theorem exitStart_frame (ran : exitStart k cur = .ok (outcome, k')) :
    k.master cur ≠ none ∧ outcome = .returns 0 ∧ k' = { k with ptableLock := false } ∨
      k.master cur = none ∧ exitReap k cur = .ok (outcome, k') := by
  unfold exitStart at ran
  split at ran
  · cases ran
  split at ran
  next worker =>
    obtain ⟨k₁, locked, ran⟩ := bind_ok ran
    obtain rfl := acquire_eq locked
    cases ran
    exact .inl ⟨worker, rfl, rfl⟩
  next main => exact .inr ⟨by simpa using main, ran⟩

/-- `wait` reclaims an exited child, returns -1 or sleeps. -/
theorem waitPass_frame (ran : waitPass k cur = .ok (outcome, k')) :
    (∃ c mem, k.parent c = some cur ∧ k.state c = .ZOMBIE ∧
      freevm (kfree k.mem (k.kstack c)) (k.pgdir c) = .ok mem ∧ outcome = .returns (k.pid c) ∧
      k' =
        { k with
          ptableLock := false
          mem := mem
          kstack := update k.kstack c 0
          pid := update k.pid c 0
          parent := update k.parent c none
          killed := update k.killed c false
          state := update k.state c .UNUSED
          emptystackcnt := update k.emptystackcnt c 0 }) ∨
    outcome = .returns (-1) ∧ k' = { k with ptableLock := false } ∨
    outcome = .sleeps ∧ k' = sleep k cur (.proc cur) .wait := by
  unfold waitPass at ran
  obtain ⟨k₁, locked, ran⟩ := bind_ok ran
  obtain rfl := acquire_eq locked
  split at ran
  next c found =>
    obtain ⟨mem, freed, ran⟩ := bind_ok ran
    cases ran
    have child := List.find?_some found
    simp only [decide_eq_true_eq] at child
    exact .inl ⟨c, mem, child.1, child.2, freed, rfl, rfl⟩
  next =>
    split at ran
    · cases ran
      exact .inr (.inl ⟨rfl, rfl⟩)
    · cases ran
      exact .inr (.inr ⟨rfl, rfl⟩)

/-! ### `exec` -/

theorem sleepOtherThreads_frame (ran : sleepOtherThreads k cur = .ok k') :
    k'.phase = k.phase ∧ ∃ state, k' = { k with ptableLock := false, state := state } := by
  unfold sleepOtherThreads at ran
  obtain ⟨k₁, locked, ran⟩ := bind_ok ran
  obtain rfl := acquire_eq locked
  obtain ⟨h, _, ran⟩ := bind_ok ran
  obtain ⟨k₂, slept, ran⟩ := bind_ok ran
  cases ran
  obtain ⟨phase, state, rfl⟩ := sleepLoop_frame slept
  exact ⟨phase, state, rfl⟩

theorem promote_frame (ran : promote k cur = .ok k') :
    ∃ p, getHighestMaster k cur = .ok p ∧ k'.phase = k.phase ∧ ∃ killed state, k' =
      { k with
        ptableLock := false
        parent := update (update k.parent cur (k.parent p)) p (some cur)
        threads := k.threads.remove cur
        master := update k.master cur none
        killed := killed
        state := state } := by
  unfold promote at ran
  obtain ⟨k₁, locked, ran⟩ := bind_ok ran
  obtain rfl := acquire_eq locked
  obtain ⟨p, highest, ran⟩ := bind_ok ran
  cases ran
  refine ⟨p, highest, (phase_killThread _ p).trans rfl, ?_⟩
  simp only [killThread, release]
  exact ⟨_, _, rfl⟩

/-! ### Other calls -/

theorem kill_frame {pid r : Int} (ran : kill k pid = .ok (r, k')) :
    k'.phase = k.phase ∧ ∃ killed state, k' =
      { k with ptableLock := false, killed := killed, state := state } := by
  unfold kill at ran
  obtain ⟨k₁, locked, ran⟩ := bind_ok ran
  obtain rfl := acquire_eq locked
  split at ran
  · cases ran
    exact ⟨rfl, _, _, rfl⟩
  · obtain ⟨h, _, ran⟩ := bind_ok ran
    cases ran
    exact ⟨(phase_killThread _ h).trans rfl, _, _, rfl⟩

end Xv6.Proc
