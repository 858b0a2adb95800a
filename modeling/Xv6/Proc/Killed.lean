import Xv6.Proc.Activity
import Xv6.Proc.Groups

/-!
# The flag `killed` of unused slots

Nobody resets `killed` when a slot is taken, so a flag left on an `UNUSED` slot kills the next process there.
On intact thread groups only `kill` marks such a slot, when it is the first one with the given pid.
-/

namespace Xv6.Proc

open Function (update)
open Vm Steps

variable {k k' k'' : Kernel} {cur np p w : Slot} {act : Call} {outcome : Outcome}

/-- The flag waits for the next process in the slot. -/
def Marked (k : Kernel) (p : Slot) : Prop := k.state p = .UNUSED ∧ k.killed p = true

/-- No slot is marked that was not. -/
def MarksNone (k k' : Kernel) : Prop := ∀ p, Marked k' p → Marked k p

theorem MarksNone.refl (k : Kernel) : MarksNone k k := fun _ marked => marked

theorem MarksNone.trans (first : MarksNone k k') (second : MarksNone k' k'') : MarksNone k k'' :=
  fun p marked => first p (second p marked)

theorem marksNone_of_used (killed : k'.killed = k.killed)
    (used : ∀ p, k.state p ≠ .UNUSED → k'.state p ≠ .UNUSED) : MarksNone k k' := by
  rintro p ⟨unused, flag⟩
  rw [killed] at flag
  exact ⟨by_contra fun was => used p was unused, flag⟩

theorem marksNone_of_view (killed : k'.killed = k.killed) (view : k'.view = k.view) :
    MarksNone k k' := by
  refine marksNone_of_used killed fun p used => ?_
  rw [← ident_ne_none] at used ⊢
  rwa [view]

theorem marksNone_clear (state : k'.state = update k.state w .UNUSED)
    (killed : k'.killed = update k.killed w false) : MarksNone k k' := by
  rintro p ⟨unused, flag⟩
  rw [killed] at flag
  by_cases same : p = w
  · simp [same] at flag
  · rw [Function.update_of_ne same] at flag
    rw [state, Function.update_of_ne same] at unused
    exact ⟨unused, flag⟩

theorem marksNone_flag (used : k.state w ≠ .UNUSED) :
    MarksNone k { k with killed := update k.killed w true } := by
  rintro p ⟨unused, flag⟩
  refine ⟨unused, ?_⟩
  have ne : p ≠ w := by
    rintro rfl
    exact used unused
  simpa [ne] using flag

theorem killThread_marksNone (used : k.state w ≠ .UNUSED) : MarksNone k (killThread k w) :=
  (marksNone_flag used).trans
    (marksNone_of_view (k := { k with killed := update k.killed w true }) rfl (view_killThread k w))

theorem wakeup1_marksNone (k : Kernel) (chan : Option Chan) : MarksNone k (wakeup1 k chan) :=
  marksNone_of_view rfl (view_wakeup1 k chan)

theorem used_of_active (active : k.active p) : k.state p ≠ .UNUSED := by
  intro unused
  rw [active_of_state unused] at active
  cases active

/-! ### Reclaiming -/

theorem deallocThread_marksNone {r : Int} (ran : deallocThread k w = .ok (r, k')) :
    MarksNone k k' := by
  rcases deallocThread_frame ran with ⟨_, rfl⟩ | ⟨_, _, _, _, _, _, _, rfl⟩
  · exact .refl _
  · exact marksNone_clear (k := k) rfl rfl

/-- The loop of `exit` marks the threads on its list, which are in use. -/
theorem reapLoop_marksNone : ∀ {rounds : Nat} {xs ys : List Slot} {q : Option Slot}
    {found found' : Bool} {k k' : Kernel},
    reapLoop false rounds q found k = .ok (found', k') → k.threads.Linked (xs ++ ys) →
    q = ys.head? → (∀ w ∈ ys, k.state w ≠ .UNUSED) → MarksNone k k' := by
  intro rounds
  induction rounds with
  | zero =>
    intro xs ys q found found' k k' ran _ _ _
    cases q <;> cases ran
    exact .refl k
  | succ rounds ih =>
    intro xs ys q found found' k k' ran linked start used
    cases q with
    | none =>
      cases ran
      exact .refl k
    | some p =>
      obtain ⟨ys', rfl⟩ := List.head?_eq_some_iff.mp start.symm
      have fresh : p ∉ ys' := (List.nodup_cons.mp (List.nodup_append.mp linked.nodup).2.1).1
      have next := linked.at.2
      have longer : k.threads.Linked ((xs ++ [p]) ++ ys') := by rwa [List.append_assoc]
      have rest : ∀ w ∈ ys', k.state w ≠ .UNUSED := fun w member => used w (List.mem_cons_of_mem _ member)
      simp only [reapLoop, Bool.false_eq_true, if_false] at ran
      split at ran
      · obtain ⟨⟨r, k₁⟩, dealloc, looped⟩ := bind_ok ran
        have first := deallocThread_marksNone dealloc
        rcases deallocThread_view dealloc with ⟨_, rfl⟩ | ⟨_, state, reclaimed⟩
        · exact first.trans (ih looped longer next rest)
        · have threads : k₁.threads = k.threads.unlink p := congrArg View.threads reclaimed
          refine first.trans (ih looped (?_ : k₁.threads.Linked (xs ++ ys')) ?_ fun w member => ?_)
          · rw [threads]
            exact linked.unlink
          · rw [threads]
            exact linked.unlink_next
          · rw [state, Function.update_of_ne (ne_of_mem_of_not_mem member fresh)]
            exact rest w member
      · have here := used p List.mem_cons_self
        refine (killThread_marksNone here).trans (ih ran longer next fun w member => ?_)
        rw [← ident_ne_none, view_killThread, ident_ne_none]
        exact rest w member

theorem reapLoop_force_marksNone : ∀ {rounds : Nat} {q : Option Slot} {found found' : Bool}
    {k k' : Kernel}, reapLoop true rounds q found k = .ok (found', k') → MarksNone k k' := by
  intro rounds
  induction rounds with
  | zero =>
    intro q found found' k k' ran
    cases q <;> cases ran
    exact .refl k
  | succ rounds ih =>
    intro q found found' k k' ran
    cases q with
    | none =>
      cases ran
      exact .refl k
    | some w =>
      simp only [reapLoop, if_true, Function.update_self] at ran
      obtain ⟨⟨r, k₁⟩, dealloc, ran⟩ := bind_ok ran
      have zombie : MarksNone k { k with state := update k.state w .ZOMBIE } := by
        refine marksNone_of_used rfl fun p used => ?_
        by_cases same : p = w
        · simp [same]
        · simpa [same] using used
      exact (zombie.trans (deallocThread_marksNone dealloc)).trans (ih ran)

theorem joinPass_marksNone {thread : Nat} {found : Bool} (used : k.state cur ≠ .UNUSED)
    (ran : joinPass k cur thread found = .ok (outcome, k')) : MarksNone k k' := by
  rcases joinPass_cases ran with ⟨w, r, k₁, _, dealloc, rfl⟩ | rfl | ⟨found', rfl⟩
  · exact (deallocThread_marksNone dealloc :)
  · exact .refl k
  · exact marksNone_of_view rfl (view_sleep (k := { k with ptableLock := true }) used _ _)

/-! ### Exiting and waiting -/

theorem threadExit_marksNone {retval : Nat} (used : k.state cur ≠ .UNUSED)
    (ran : threadExit k cur retval = .ok k') : MarksNone k k' := by
  refine marksNone_of_view ?_ (threadExit_view used ran)
  unfold threadExit at ran
  obtain ⟨k₁, locked, ran⟩ := bind_ok ran
  obtain rfl := acquire_eq locked
  cases ran
  rfl

theorem wakeParent_marksNone (k : Kernel) (cur : Slot) : MarksNone k (wakeParent k cur) := by
  refine marksNone_of_view ?_ (view_wakeParent k cur)
  obtain ⟨_, same⟩ := wakeParent_frame k cur
  rw [same]

theorem wakeMaster_marksNone (used : ∀ n h, Chain.Ends k.master n cur h → k.state h ≠ .UNUSED)
    (ran : wakeMaster k cur = .ok k') : MarksNone k k' := by
  unfold wakeMaster at ran
  split at ran
  · cases ran
    exact .refl k
  · obtain ⟨h, highest, ran⟩ := bind_ok ran
    cases ran
    obtain ⟨n, ends⟩ := getHighestMaster_ends highest
    refine MarksNone.trans ?_ (wakeup1_marksNone _ _)
    split
    · exact .refl k
    · exact marksNone_flag (used n h ends)

theorem exitTail_marksNone (used : ∀ n h, Chain.Ends k.master n cur h → k.state h ≠ .UNUSED)
    (ran : exitTail k cur = .ok k') : MarksNone k k' := by
  unfold exitTail at ran
  obtain ⟨k₁, locked, ran⟩ := bind_ok ran
  obtain rfl := acquire_eq locked
  obtain ⟨k₂, woken, ran⟩ := bind_ok ran
  cases ran
  have parentView := view_wakeParent { k with ptableLock := true } cur
  have first : MarksNone k (wakeParent { k with ptableLock := true } cur) :=
    wakeParent_marksNone { k with ptableLock := true } cur
  have master : (wakeParent { k with ptableLock := true } cur).master = k.master :=
    congrArg View.master parentView
  have used' : ∀ n h, Chain.Ends (wakeParent { k with ptableLock := true } cur).master n cur h →
      (wakeParent { k with ptableLock := true } cur).state h ≠ .UNUSED := by
    intro n h ends
    rw [← ident_ne_none, parentView]
    exact ident_ne_none.mpr (used n h (master ▸ ends))
  have second := wakeMaster_marksNone used' woken
  obtain ⟨state, moved⟩ := reparent_frame k₂ cur
  refine (first.trans second).trans (marksNone_of_used (congrArg Kernel.killed moved :) fun p live => ?_)
  by_cases same : p = cur
  · simp [release, same]
  · have live' : (reparent k₂ cur).view.ident p ≠ none := by
      rw [view_reparent]
      exact ident_ne_none.mpr live
    simpa [release, same] using ident_ne_none.mp live'

theorem waitPass_marksNone (used : k.state cur ≠ .UNUSED)
    (ran : waitPass k cur = .ok (outcome, k')) : MarksNone k k' := by
  unfold waitPass at ran
  obtain ⟨k₁, locked, ran⟩ := bind_ok ran
  obtain rfl := acquire_eq locked
  split at ran
  · obtain ⟨mem, _, ran⟩ := bind_ok ran
    cases ran
    exact marksNone_clear rfl rfl
  · split at ran
    · cases ran
      exact .refl k
    · cases ran
      exact marksNone_of_view rfl (view_sleep (k := { k with ptableLock := true }) used _ _)

theorem exitReap_marksNone (intact : Integrity k.view) (running : k.state cur = .RUNNING)
    (ran : exitReap k cur = .ok (outcome, k')) : MarksNone k k' ∧ k'.active cur := by
  have used : k.view.ident cur ≠ none := by
    rw [ident_ne_none, running]
    decide
  have active : k.active cur := active_of_state running
  refine ⟨?_, by rwa [exitReap_active active ran]⟩
  obtain ⟨xs, ys, linked, workers⟩ := intact.intact used
  unfold exitReap at ran
  obtain ⟨k₁, locked, ran⟩ := bind_ok ran
  obtain rfl := acquire_eq locked
  obtain ⟨⟨found, k₂⟩, loop, ran⟩ := bind_ok ran
  have reaped := reapLoop_marksNone (k := { k with ptableLock := true }) loop
    (show k.threads.Linked ((xs ++ [cur]) ++ ys) by rwa [List.append_assoc]) linked.at.2
    fun w member => ident_ne_none.mp (workers w member).1
  have stays : k₂.active cur := by
    rw [reapLoop_active loop]
    exact active
  simp only at ran
  split at ran
  · cases ran
    exact reaped.trans (marksNone_of_view rfl (view_sleep (used_of_active stays) _ _))
  · cases ran
    exact reaped

theorem exitStart_marksNone (intact : Integrity k.view) (running : k.state cur = .RUNNING)
    (ran : exitStart k cur = .ok (outcome, k')) : MarksNone k k' ∧ k'.active cur := by
  unfold exitStart at ran
  split at ran
  · cases ran
  split at ran
  · obtain ⟨k₁, locked, ran⟩ := bind_ok ran
    obtain rfl := acquire_eq locked
    cases ran
    exact ⟨.refl k, active_of_state (k := k) running⟩
  · exact exitReap_marksNone intact running ran

/-- The highest master whose flag `exit` sets is one of the threads that are left. -/
theorem exitFinish_marksNone {k₁ : Kernel} {outcome₁ : Outcome} (first : MarksNone k k₁ ∧ k₁.active cur)
    (intact : Integrity k'.view) (clean : Clean k'.view)
    (ran : exitFinish cur (outcome₁, k₁) = .ok (outcome, k')) : MarksNone k k' := by
  obtain ⟨first, active⟩ := first
  cases outcome₁ with
  | sleeps =>
    cases ran
    exact first
  | returns value =>
    obtain ⟨k₂, tail, ran⟩ := bind_ok ran
    cases ran
    have used := used_of_active active
    have view := exitTail_view used tail
    refine first.trans (exitTail_marksNone (fun n h ends => ?_) tail)
    have same : k'.view.ident = k₁.view.ident := by
      rw [view]
      rfl
    have master : k'.view.master = k₁.view.master := by
      rw [view]
      rfl
    rw [← ident_ne_none, ← same]
    refine used_on intact clean (t := cur) ?_ ?_
    · rw [same]
      exact ident_ne_none.mpr used
    · rw [master]
      exact ends.on_last

/-! ### Creation -/

/-- `fork` and `thread_create` leave the flags alone and give back only the slot they took. -/
theorem fork_marksNone {r : Int} (ran : fork k cur = .ok (r, k')) : MarksNone k k' := by
  unfold fork at ran
  obtain ⟨⟨slot, k₁⟩, alloc, rest⟩ := bind_ok ran
  obtain ⟨_, ⟨rfl, rfl, _⟩ | ⟨np, first, kstack, mem, ⟨rfl, rfl⟩ | ⟨rfl, rfl⟩⟩⟩ := allocproc_frame alloc
  · cases rest
    exact .refl _
  · cases rest
    exact .refl k
  · have unused := firstUnused_state first
    obtain ⟨_, _, _, _, _, ⟨_, rfl⟩ | ⟨_, _, rfl⟩⟩ := forkCopy_frame rest
    all_goals
      refine marksNone_of_used rfl fun p used => ?_
      have ne : p ≠ np := by
        rintro rfl
        exact used unused
      simpa [ne] using used

theorem threadCreate_marksNone {r : Int} (ran : threadCreate k cur = .ok (r, k')) :
    MarksNone k k' := by
  unfold threadCreate at ran
  obtain ⟨⟨slot, k₁⟩, alloc, rest⟩ := bind_ok ran
  obtain ⟨_, ⟨rfl, rfl, _⟩ | ⟨np, first, kstack, mem, ⟨rfl, rfl⟩ | ⟨rfl, rfl⟩⟩⟩ := allocproc_frame alloc
  · cases rest
    exact .refl _
  · cases rest
    exact .refl k
  · obtain ⟨⟨stack, k₂⟩, created, last⟩ := bind_ok rest
    have stays : ∀ p, k.state p ≠ .UNUSED → update k.state np .EMBRYO p ≠ .UNUSED := by
      intro p used
      by_cases same : p = np
      · simp [same]
      · simpa [same] using used
    obtain ⟨_, _, _, _, ⟨rfl, rfl⟩ | ⟨rfl, _, rfl⟩⟩ := createStack_frame created
    · cases last
      exact marksNone_of_used rfl stays
    · obtain ⟨_, _, _, rfl⟩ := createLink_frame last
      refine marksNone_of_used rfl fun p used => ?_
      by_cases same : p = np
      · simp [same]
      · simpa [same] using used

/-! ### `exec` -/

theorem sleepLoop_killed : ∀ {rounds : Nat} {q : Option Slot} {k k' : Kernel},
    sleepLoop cur rounds q k = .ok k' → k'.killed = k.killed := by
  intro rounds
  induction rounds with
  | zero =>
    intro q k k' ran
    cases q <;> cases ran
    rfl
  | succ rounds ih =>
    intro q k k' ran
    cases q with
    | none =>
      cases ran
      rfl
    | some p =>
      simp only [sleepLoop] at ran
      rw [ih ran]
      split <;> rfl

theorem sleepOtherThreads_marksNone (ran : sleepOtherThreads k cur = .ok k') : MarksNone k k' := by
  refine marksNone_of_view ?_ (sleepOtherThreads_view ran)
  unfold sleepOtherThreads at ran
  obtain ⟨k₁, locked, ran⟩ := bind_ok ran
  obtain rfl := acquire_eq locked
  obtain ⟨h, _, ran⟩ := bind_ok ran
  obtain ⟨k₂, slept, ran⟩ := bind_ok ran
  cases ran
  exact (sleepLoop_killed slept :)

theorem promote_marksNone (used : ∀ n h, Chain.Ends k.master n cur h → k.state h ≠ .UNUSED)
    (ran : promote k cur = .ok k') : MarksNone k k' := by
  unfold promote at ran
  obtain ⟨k₁, locked, ran⟩ := bind_ok ran
  obtain rfl := acquire_eq locked
  obtain ⟨h, highest, ran⟩ := bind_ok ran
  cases ran
  obtain ⟨n, ends⟩ := getHighestMaster_ends highest
  exact (killThread_marksNone (used n h ends) :)

theorem exec_marksNone {program : Option Program} (intact : Integrity k.view) (clean : Clean k.view)
    (running : k.active cur) (ran : exec k cur program = .ok (outcome, k')) : MarksNone k k' := by
  unfold exec at ran
  split at ran
  · cases ran
    exact .refl k
  obtain ⟨k₁, slept, ran⟩ := bind_ok ran
  obtain ⟨⟨r, k₂⟩, load, ran⟩ := bind_ok ran
  have view₁ := sleepOtherThreads_view slept
  have active₁ := sleepOtherThreads_active slept
  obtain ⟨_, _, _, _, rfl⟩ := execLoad_frame load
  have first : MarksNone k k₁ := sleepOtherThreads_marksNone slept
  cases r with
  | none =>
    cases ran
    exact first
  | some old =>
    simp only [execCommit] at ran
    split at ran
    · obtain ⟨k₃, promoted, ran⟩ := bind_ok ran
      obtain ⟨⟨waited, k₄⟩, wait, ran⟩ := bind_ok ran
      cases ran
      have second := promote_marksNone (fun n h ends => by
        have master : k₁.view.master = k.view.master := congrArg View.master view₁
        have onH : Chain.On k.view.master cur h := master ▸ ends.on_last
        have used := used_on intact clean (ident_ne_none.mpr (used_of_active running)) onH
        rw [← view₁] at used
        exact (ident_ne_none (k := k₁)).mp used) promoted
      have active₃ : k₃.active cur := by
        rw [promote_active promoted]
        exact active₁ ▸ running
      exact (first.trans (second :)).trans (waitPass_marksNone (used_of_active active₃) wait)
    · obtain ⟨k₃, locked, ran⟩ := bind_ok ran
      obtain rfl := acquire_eq locked
      obtain ⟨⟨found, k₄⟩, reaped, ran⟩ := bind_ok ran
      obtain ⟨mem, _, ran⟩ := bind_ok ran
      cases ran
      exact first.trans (reapLoop_force_marksNone reaped :)

/-! ### Steps -/

theorem resume_marksNone (intact : Integrity k.view) (running : k.state cur = .RUNNING)
    (intact' : Integrity k'.view) (clean' : Clean k'.view)
    (ran : resume k cur = .ok (outcome, k')) : MarksNone k k' := by
  have used : (clearChan k cur).state cur ≠ .UNUSED := by
    rw [show (clearChan k cur).state cur = .RUNNING from running]
    decide
  unfold resume at ran
  split at ran
  · exact (joinPass_marksNone used ran :)
  · obtain ⟨⟨first, k₁⟩, reaped, ran⟩ := bind_ok ran
    exact (exitFinish_marksNone
      (exitReap_marksNone (k := clearChan k cur) intact running reaped) intact' clean' ran :)
  · exact (waitPass_marksNone used ran :)
  · cases ran
    exact .refl k

theorem call_marksNone (intact : Integrity k.view) (clean : Clean k.view)
    (running : k.state cur = .RUNNING) (intact' : Integrity k'.view) (clean' : Clean k'.view)
    (ran : call k cur act = .ok (outcome, k')) : MarksNone k k' := by
  have active : k.active cur := active_of_state running
  cases act with
  | fork =>
    obtain ⟨⟨r, k₁⟩, forked, ran⟩ := bind_ok ran
    cases ran
    exact fork_marksNone forked
  | threadCreate =>
    obtain ⟨⟨r, k₁⟩, created, ran⟩ := bind_ok ran
    cases ran
    exact threadCreate_marksNone created
  | threadExit retval =>
    obtain ⟨k₁, exited, ran⟩ := bind_ok ran
    cases ran
    exact threadExit_marksNone (used_of_active active) exited
  | threadJoin thread => exact joinPass_marksNone (used_of_active active) ran
  | exit =>
    obtain ⟨⟨first, k₁⟩, started, ran⟩ := bind_ok ran
    exact exitFinish_marksNone (exitStart_marksNone intact running started) intact' clean' ran
  | wait => exact waitPass_marksNone (used_of_active active) ran
  | exec program => exact exec_marksNone intact clean active ran
  | sbrk n =>
    obtain ⟨⟨r, k₁⟩, grown, ran⟩ := bind_ok ran
    cases ran
    obtain ⟨_, _, _, rfl⟩ := growproc_frame grown
    exact .refl k
  | resume => exact resume_marksNone intact running intact' clean' ran

theorem takeOff_killed (k : Kernel) (cur : Slot) (outcome : Outcome) :
    (takeOff k cur outcome).killed = k.killed := by
  cases outcome <;> rfl

/-- **No process call marks an unused slot**, if the thread groups are intact before and after. -/
theorem step_marksNone (intact : Integrity k.view) (clean : Clean k.view)
    (intact' : Integrity k'.view) (clean' : Clean k'.view)
    (stepped : step k (cur, act) = some k') : MarksNone k k' := by
  have used : k.state cur ≠ .UNUSED := by
    rw [step_ready stepped]
    decide
  have view := view_setState used (show ProcState.RUNNING ≠ .UNUSED by decide)
  have start : MarksNone k { k with state := update k.state cur .RUNNING } := marksNone_of_view rfl view
  simp only [step] at stepped
  split at stepped
  · split at stepped
    next outcome k₁ ran =>
      cases stepped
      rw [takeOff_view] at intact' clean'
      rw [← view] at intact clean
      refine (start.trans (call_marksNone intact clean (Function.update_self ..) intact' clean' ran)).trans ?_
      exact marksNone_of_view (takeOff_killed ..) (takeOff_view ..)
    · cases stepped
  · cases stepped

end Xv6.Proc
