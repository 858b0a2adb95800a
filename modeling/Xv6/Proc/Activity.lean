import Xv6.Proc.Frames

/-!
# Threads that go on

A thread is active while it is asleep, ready or on a CPU. Only `exec`, which calls its siblings zombies
before they have exited, ends other threads than the caller.
-/

namespace Xv6.Proc

open Function (update)
open Vm Steps

def ProcState.active : ProcState → Bool
  | .SLEEPING | .RUNNABLE | .RUNNING => true
  | .UNUSED | .EMBRYO | .ZOMBIE => false

def Kernel.active (k : Kernel) (p : Slot) : Bool := (k.state p).active

variable {k k' : Kernel} {cur np p w : Slot} {act : Call} {outcome : Outcome}

theorem active_congr (same : k'.state = k.state) : k'.active = k.active := by
  funext p
  rw [Kernel.active, same, Kernel.active]

/-- An assignment to `state`. -/
theorem active_setState (k : Kernel) (p : Slot) (s : ProcState) :
    ({ k with state := update k.state p s } : Kernel).active = update k.active p s.active := by
  funext q
  by_cases same : q = p
  · subst same
    simp [Kernel.active]
  · simp [Kernel.active, same]

theorem active_keepState {s : ProcState} (same : s.active = k.active p) :
    ({ k with state := update k.state p s } : Kernel).active = k.active := by
  rw [active_setState, same, Function.update_eq_self]

theorem active_of_state {s : ProcState} (is : k.state p = s) : k.active p = s.active := by
  rw [Kernel.active, is]

/-! ### Sleeping, waking, killing -/

@[simp] theorem active_wakeup1 (k : Kernel) (chan : Option Chan) :
    (wakeup1 k chan).active = k.active := by
  funext p
  simp only [Kernel.active, wakeup1]
  split
  next asleep =>
    rw [asleep.1]
    rfl
  · rfl

@[simp] theorem active_killThread (k : Kernel) (p : Slot) : (killThread k p).active = k.active := by
  simp only [killThread]
  split
  next asleep => exact active_keepState (k := { k with killed := _ }) (active_of_state (k := k) asleep).symm
  · rfl

theorem active_sleep (running : k.active p) (chan : Chan) (context : Context) :
    (sleep k p chan context).active = k.active :=
  active_keepState (k := { k with chan := _, context := _ }) running.symm

theorem acquire_active (locked : acquire k = .ok k') : k'.active = k.active := by
  rw [acquire_eq locked]
  rfl

/-! ### Reclaiming -/

theorem deallocThread_active {r : Int} (zombie : k.state w = .ZOMBIE)
    (ran : deallocThread k w = .ok (r, k')) : k'.active = k.active := by
  rcases deallocThread_view ran with ⟨_, rfl⟩ | ⟨_, state, _⟩
  · rfl
  · rw [active_congr (k := { k with state := update k.state w .UNUSED }) state]
    exact active_keepState (active_of_state zombie).symm

theorem reapLoop_active : ∀ {rounds : Nat} {q : Option Slot} {found found' : Bool} {k k' : Kernel},
    reapLoop false rounds q found k = .ok (found', k') → k'.active = k.active := by
  intro rounds
  induction rounds with
  | zero =>
    intro q found found' k k' ran
    cases q <;> cases ran
    rfl
  | succ rounds ih =>
    intro q found found' k k' ran
    cases q with
    | none =>
      cases ran
      rfl
    | some p =>
      simp only [reapLoop, Bool.false_eq_true, if_false] at ran
      split at ran
      next zombie =>
        obtain ⟨⟨r, k₁⟩, dealloc, ran⟩ := bind_ok ran
        rw [ih ran, deallocThread_active zombie dealloc]
      next => rw [ih ran, active_killThread]

/-- The loop of `exec` may end threads; it starts none. -/
theorem reapLoop_force_active :
    ∀ {rounds : Nat} {q : Option Slot} {found found' : Bool} {k k' : Kernel},
    reapLoop true rounds q found k = .ok (found', k') → ∀ p, k'.active p → k.active p := by
  intro rounds
  induction rounds with
  | zero =>
    intro q found found' k k' ran
    cases q <;> cases ran
    exact fun _ active => active
  | succ rounds ih =>
    intro q found found' k k' ran p active
    cases q with
    | none =>
      cases ran
      exact active
    | some w =>
      simp only [reapLoop, if_true, Function.update_self] at ran
      obtain ⟨⟨r, k₁⟩, dealloc, ran⟩ := bind_ok ran
      have before := ih ran p active
      rw [deallocThread_active (Function.update_self ..) dealloc, active_setState] at before
      by_cases same : p = w
      · simp [same, ProcState.active] at before
      · rwa [Function.update_of_ne same] at before

theorem joinLoop_zombie {tid : Nat} : ∀ {rounds : Nat} {q : Option Slot} {found found' : Bool},
    joinLoop k tid rounds q found = .ok (some p, found') → k.state p = .ZOMBIE := by
  intro rounds
  induction rounds with
  | zero =>
    intro q found found' ran
    cases q <;> cases ran
  | succ rounds ih =>
    intro q found found' ran
    cases q with
    | none => cases ran
    | some r =>
      simp only [joinLoop] at ran
      split at ran
      · split at ran
        next zombie =>
          cases ran
          exact zombie
        · exact ih ran
      · exact ih ran

theorem joinPass_active {thread : Nat} {found : Bool} (running : k.active cur)
    (ran : joinPass k cur thread found = .ok (outcome, k')) : k'.active = k.active := by
  unfold joinPass at ran
  obtain ⟨k₁, locked, ran⟩ := bind_ok ran
  rw [← acquire_active locked] at running ⊢
  obtain ⟨⟨r, found'⟩, loop, ran⟩ := bind_ok ran
  cases r with
  | some w =>
    obtain ⟨⟨r, k₂⟩, dealloc, ran⟩ := bind_ok ran
    cases ran
    exact (deallocThread_active (joinLoop_zombie loop) dealloc :)
  | none =>
    simp only at ran
    split at ran
    · cases ran
      rfl
    · cases ran
      exact active_sleep running ..

/-! ### Exiting and waiting -/

theorem threadExit_active {retval : Nat} (ran : threadExit k cur retval = .ok k') :
    k'.active = update k.active cur false ∧ k'.state cur = .ZOMBIE := by
  unfold threadExit at ran
  obtain ⟨k₁, locked, ran⟩ := bind_ok ran
  cases ran
  refine ⟨(active_setState _ cur .ZOMBIE).trans ?_, by simp [release]⟩
  rw [active_wakeup1, active_wakeup1, acquire_active locked]
  rfl

theorem active_wakeParent (k : Kernel) (cur : Slot) : (wakeParent k cur).active = k.active := by
  unfold wakeParent
  split
  · rfl
  · exact active_wakeup1 ..

theorem wakeMaster_active (ran : wakeMaster k cur = .ok k') : k'.active = k.active := by
  unfold wakeMaster at ran
  split at ran
  · cases ran
    rfl
  · obtain ⟨h, _, ran⟩ := bind_ok ran
    cases ran
    rw [active_wakeup1]
    split <;> rfl

theorem active_reparent (k : Kernel) (cur : Slot) : (reparent k cur).active = k.active := by
  unfold reparent
  simp only
  split
  · exact active_wakeup1 k (some (.proc k.initproc))
  · rfl

theorem exitTail_active (ran : exitTail k cur = .ok k') :
    k'.active = update k.active cur false ∧ k'.state cur = .ZOMBIE := by
  unfold exitTail at ran
  obtain ⟨k₁, locked, ran⟩ := bind_ok ran
  obtain ⟨k₂, woken, ran⟩ := bind_ok ran
  cases ran
  refine ⟨(active_setState _ cur .ZOMBIE).trans ?_, by simp [release]⟩
  rw [active_reparent, wakeMaster_active woken, active_wakeParent, acquire_active locked]
  rfl

theorem exitReap_active (running : k.active cur) (ran : exitReap k cur = .ok (outcome, k')) :
    k'.active = k.active := by
  unfold exitReap at ran
  obtain ⟨k₁, locked, ran⟩ := bind_ok ran
  obtain ⟨⟨found, k₂⟩, loop, ran⟩ := bind_ok ran
  rw [← acquire_active locked, ← reapLoop_active loop] at running ⊢
  simp only at ran
  split at ran
  · cases ran
    exact active_sleep running ..
  · cases ran
    rfl

theorem exitStart_active (running : k.active cur) (ran : exitStart k cur = .ok (outcome, k')) :
    k'.active = k.active := by
  unfold exitStart at ran
  split at ran
  · cases ran
  split at ran
  · obtain ⟨k₁, locked, ran⟩ := bind_ok ran
    cases ran
    exact (acquire_active locked :)
  · exact exitReap_active running ran

/-- Once its first part is over, `exit` ends the calling thread. -/
theorem exitFinish_active {k₁ : Kernel} {outcome₁ : Outcome}
    (first : k₁.active = k.active) (ran : exitFinish cur (outcome₁, k₁) = .ok (outcome, k')) :
    k'.active = k.active ∨ k'.active = update k.active cur false ∧ k'.state cur = .ZOMBIE := by
  cases outcome₁ with
  | sleeps =>
    cases ran
    exact .inl first
  | returns value =>
    obtain ⟨k₂, tail, ran⟩ := bind_ok ran
    cases ran
    rw [← first]
    exact .inr (exitTail_active tail)

theorem waitPass_active (running : k.active cur) (ran : waitPass k cur = .ok (outcome, k')) :
    k'.active = k.active := by
  unfold waitPass at ran
  obtain ⟨k₁, locked, ran⟩ := bind_ok ran
  rw [← acquire_active locked] at running ⊢
  split at ran
  next c found =>
    obtain ⟨mem, _, ran⟩ := bind_ok ran
    cases ran
    have zombie := List.find?_some found
    simp only [decide_eq_true_eq] at zombie
    exact active_keepState (k := k₁) (active_of_state zombie.2).symm
  next =>
    split at ran
    · cases ran
      rfl
    · cases ran
      exact active_sleep running ..

/-! ### Creation -/

/-- The slot that `fork` or `thread_create` has made ready. -/
def born (k k' : Kernel) : Option Slot := (firstUnused k).filter fun np => k'.state np = .RUNNABLE

/-- A creation activates the slot it makes ready, or nothing. -/
def Creates (k k' : Kernel) : Prop :=
  k'.active = k.active ∨
    ∃ np, firstUnused k = some np ∧ k'.state np = .RUNNABLE ∧ k'.active = update k.active np true

theorem firstUnused_state (first : firstUnused k = some np) : k.state np = .UNUSED := by
  simpa using List.find?_some first

theorem Creates.active (creates : Creates k k') :
    k'.active = match born k k' with
      | some np => update k.active np true
      | none => k.active := by
  rcases creates with same | ⟨np, first, ready, active⟩
  · cases first : firstUnused k with
    | none => simpa [born, first] using same
    | some np =>
      have idle : k'.active np = false := by
        rw [same, active_of_state (firstUnused_state first)]
        rfl
      have waits : k'.state np ≠ .RUNNABLE := by
        intro ready
        rw [active_of_state ready] at idle
        cases idle
      simpa [born, first, waits, Option.filter] using same
  · simpa [born, first, ready, Option.filter] using active

theorem allocproc_active {r : Option Slot} (ran : allocproc k = .ok (r, k')) :
    k'.active = k.active ∧
      ∀ np, r = some np → firstUnused k = some np ∧ k'.state np = .EMBRYO := by
  obtain ⟨_, ⟨rfl, rfl, _⟩ | ⟨np, first, kstack, mem, ⟨rfl, rfl⟩ | ⟨rfl, rfl⟩⟩⟩ := allocproc_frame ran
  · exact ⟨rfl, nofun⟩
  · exact ⟨rfl, nofun⟩
  · refine ⟨active_keepState (k := k) (active_of_state (firstUnused_state first)).symm, ?_⟩
    rintro _ ⟨⟩
    exact ⟨first, Function.update_self ..⟩

theorem forkCopy_active {r : Int} (embryo : k.state np = .EMBRYO)
    (ran : forkCopy k cur np = .ok (r, k')) :
    k'.active = k.active ∨ k'.state np = .RUNNABLE ∧ k'.active = update k.active np true := by
  obtain ⟨_, _, _, _, _, ⟨_, rfl⟩ | ⟨_, _, rfl⟩⟩ := forkCopy_frame ran
  · exact .inl (active_keepState (k := k) (active_of_state embryo).symm)
  · exact .inr ⟨Function.update_self .., active_setState k np .RUNNABLE⟩

theorem fork_creates {r : Int} (ran : fork k cur = .ok (r, k')) : Creates k k' := by
  unfold fork at ran
  obtain ⟨⟨slot, k₁⟩, alloc, ran⟩ := bind_ok ran
  obtain ⟨same, taken⟩ := allocproc_active alloc
  cases slot with
  | none =>
    cases ran
    exact .inl same
  | some np =>
    obtain ⟨first, embryo⟩ := taken np rfl
    rw [Creates, ← same]
    exact (forkCopy_active embryo ran).imp_right fun ready => ⟨np, first, ready⟩

theorem createStack_state {r : Bool} (ran : createStack k cur np = .ok (r, k')) :
    k'.state = k.state := by
  obtain ⟨_, _, _, _, ⟨_, rfl⟩ | ⟨_, _, rfl⟩⟩ := createStack_frame ran
  · rfl
  · rfl

theorem createLink_state {r : Int} (ran : createLink k cur np = .ok (r, k')) :
    k'.state = update k.state np .RUNNABLE := by
  obtain ⟨_, _, _, rfl⟩ := createLink_frame ran
  rfl

theorem threadCreate_creates {r : Int} (ran : threadCreate k cur = .ok (r, k')) :
    Creates k k' := by
  unfold threadCreate at ran
  obtain ⟨⟨slot, k₁⟩, alloc, ran⟩ := bind_ok ran
  obtain ⟨same, taken⟩ := allocproc_active alloc
  cases slot with
  | none =>
    cases ran
    exact .inl same
  | some np =>
    obtain ⟨first, _⟩ := taken np rfl
    obtain ⟨⟨stack, k₂⟩, created, ran⟩ := bind_ok ran
    have same₂ := (active_congr (createStack_state created)).trans same
    cases stack with
    | false =>
      cases ran
      exact .inl same₂
    | true =>
      have state := createLink_state ran
      refine .inr ⟨np, first, by rw [state, Function.update_self], ?_⟩
      rw [active_congr (k := { k₂ with state := update k₂.state np .RUNNABLE }) state,
        active_setState, same₂]
      rfl

/-! ### `exec` -/

theorem sleepLoop_active : ∀ {rounds : Nat} {q : Option Slot} {k k' : Kernel},
    sleepLoop cur rounds q k = .ok k' → k'.active = k.active := by
  intro rounds
  induction rounds with
  | zero =>
    intro q k k' ran
    cases q <;> cases ran
    rfl
  | succ rounds ih =>
    intro q k k' ran
    cases q with
    | none =>
      cases ran
      rfl
    | some p =>
      simp only [sleepLoop] at ran
      rw [ih ran]
      split
      next awake => exact active_keepState (active_of_state awake.2).symm
      · rfl

theorem sleepOtherThreads_active (ran : sleepOtherThreads k cur = .ok k') :
    k'.active = k.active := by
  unfold sleepOtherThreads at ran
  obtain ⟨k₁, locked, ran⟩ := bind_ok ran
  obtain ⟨h, _, ran⟩ := bind_ok ran
  obtain ⟨k₂, slept, ran⟩ := bind_ok ran
  cases ran
  exact ((sleepLoop_active slept).trans (acquire_active locked) :)

theorem execLoad_state {program : Option Program} {r : Option Nat}
    (ran : execLoad k cur program = .ok (r, k')) : k'.state = k.state := by
  obtain ⟨_, _, _, _, rfl⟩ := execLoad_frame ran
  rfl

theorem promote_active (ran : promote k cur = .ok k') : k'.active = k.active := by
  unfold promote at ran
  obtain ⟨k₁, locked, ran⟩ := bind_ok ran
  obtain ⟨p, _, ran⟩ := bind_ok ran
  cases ran
  exact (active_killThread _ p).trans (acquire_active locked :)

/-- `exec` starts no thread. -/
theorem exec_active {program : Option Program} (running : k.active cur)
    (ran : exec k cur program = .ok (outcome, k')) : ∀ p, k'.active p → k.active p := by
  unfold exec at ran
  split at ran
  · cases ran
    exact fun _ active => active
  obtain ⟨k₁, slept, ran⟩ := bind_ok ran
  obtain ⟨⟨r, k₂⟩, load, ran⟩ := bind_ok ran
  have same := (active_congr (execLoad_state load)).trans (sleepOtherThreads_active slept)
  rw [← same] at running ⊢
  cases r with
  | none =>
    cases ran
    exact fun _ active => active
  | some old =>
    simp only [execCommit] at ran
    split at ran
    · obtain ⟨k₃, promoted, ran⟩ := bind_ok ran
      obtain ⟨⟨waited, k₄⟩, wait, ran⟩ := bind_ok ran
      cases ran
      rw [← promote_active promoted] at running ⊢
      rw [waitPass_active running wait]
      exact fun _ active => active
    · obtain ⟨k₃, locked, ran⟩ := bind_ok ran
      obtain ⟨⟨found, k₄⟩, reaped, ran⟩ := bind_ok ran
      obtain ⟨mem, _, ran⟩ := bind_ok ran
      cases ran
      rw [← acquire_active locked]
      exact (reapLoop_force_active reaped :)

/-! ### Steps -/

/-- What a call does to the active threads. -/
def Activity (k k' : Kernel) (cur : Slot) : Call → Prop
  | .fork | .threadCreate => Creates k k'
  | .threadExit _ | .exit | .resume =>
    k'.active = k.active ∨ k'.active = update k.active cur false ∧ k'.state cur = .ZOMBIE
  | .threadJoin _ | .wait | .sbrk _ => k'.active = k.active
  | .exec _ => ∀ p, k'.active p → k.active p

theorem resume_active (running : k.active cur) (ran : resume k cur = .ok (outcome, k')) :
    k'.active = k.active ∨ k'.active = update k.active cur false ∧ k'.state cur = .ZOMBIE := by
  unfold resume at ran
  split at ran
  · exact .inl (joinPass_active (k := clearChan k cur) running ran)
  · obtain ⟨⟨first, k₁⟩, reaped, ran⟩ := bind_ok ran
    exact exitFinish_active (k := clearChan k cur)
      (exitReap_active (k := clearChan k cur) running reaped) ran
  · exact .inl (waitPass_active (k := clearChan k cur) running ran)
  · cases ran
    exact .inl rfl

theorem call_active (running : k.active cur) (ran : call k cur act = .ok (outcome, k')) :
    Activity k k' cur act := by
  cases act with
  | fork =>
    obtain ⟨⟨r, k₁⟩, forked, ran⟩ := bind_ok ran
    cases ran
    exact fork_creates forked
  | threadCreate =>
    obtain ⟨⟨r, k₁⟩, created, ran⟩ := bind_ok ran
    cases ran
    exact threadCreate_creates created
  | threadExit retval =>
    obtain ⟨k₁, exited, ran⟩ := bind_ok ran
    cases ran
    exact .inr (threadExit_active exited)
  | threadJoin thread => exact joinPass_active running ran
  | exit =>
    obtain ⟨⟨first, k₁⟩, started, ran⟩ := bind_ok ran
    exact exitFinish_active (exitStart_active running started) ran
  | wait => exact waitPass_active running ran
  | exec program => exact exec_active running ran
  | sbrk n =>
    obtain ⟨⟨r, k₁⟩, grown, ran⟩ := bind_ok ran
    cases ran
    obtain ⟨_, _, _, rfl⟩ := growproc_frame grown
    rfl
  | resume => exact resume_active running ran

theorem active_takeOff (k : Kernel) (cur : Slot) (outcome : Outcome) :
    (takeOff k cur outcome).active = k.active := by
  cases outcome with
  | sleeps => rfl
  | returns value =>
    simp only [takeOff]
    split
    next running =>
      exact active_keepState (k := { k with context := _ }) (active_of_state (k := k) running).symm
    · rfl

theorem takeOff_state {s : ProcState} (off : s ≠ .RUNNING) (is : k.state p = s)
    (outcome : Outcome) : (takeOff k cur outcome).state p = s := by
  cases outcome with
  | sleeps => exact is
  | returns value =>
    simp only [takeOff]
    split
    next running =>
      have ne : p ≠ cur := by
        rintro rfl
        exact off (is.symm.trans running)
      rw [Function.update_of_ne ne, is]
    · exact is

theorem firstUnused_start (ready : k.state cur = .RUNNABLE) :
    firstUnused { k with state := update k.state cur .RUNNING } = firstUnused k := by
  simp only [firstUnused]
  congr 1
  funext p
  by_cases same : p = cur
  · subst same
    simp [ready]
  · simp [same]

/-- **What a step does to the active threads.** -/
theorem step_activity (stepped : step k (cur, act) = some k') : Activity k k' cur act := by
  have ready : k.state cur = .RUNNABLE := step_ready stepped
  have start := active_keepState (k := k) (s := .RUNNING) (active_of_state ready).symm
  simp only [step] at stepped
  split at stepped
  · split at stepped
    next outcome k₁ ran =>
      cases stepped
      have running : ({ k with state := update k.state cur .RUNNING } : Kernel).active cur := by
        rw [start, active_of_state ready]
        rfl
      have activity := call_active running ran
      have creates : ∀ {k₀ : Kernel}, k₀.active = k.active → firstUnused k₀ = firstUnused k →
          Creates k₀ k₁ → Creates k (takeOff k₁ cur outcome) := by
        intro k₀ active first creates
        rw [Creates, active_takeOff, ← active, ← first]
        refine creates.imp_right ?_
        rintro ⟨np, first, ready, active⟩
        exact ⟨np, first, takeOff_state (by decide) ready outcome, active⟩
      have ends : ∀ {k₀ : Kernel}, k₀.active = k.active →
          (k₁.active = k₀.active ∨ k₁.active = update k₀.active cur false ∧ k₁.state cur = .ZOMBIE) →
          (takeOff k₁ cur outcome).active = k.active ∨
            (takeOff k₁ cur outcome).active = update k.active cur false ∧
              (takeOff k₁ cur outcome).state cur = .ZOMBIE := by
        intro k₀ active ended
        rw [active_takeOff, ← active]
        exact ended.imp_right fun other => ⟨other.1, takeOff_state (by decide) other.2 outcome⟩
      cases act with
      | fork => exact creates start (firstUnused_start ready) activity
      | threadCreate => exact creates start (firstUnused_start ready) activity
      | threadExit retval => exact ends start activity
      | exit => exact ends start activity
      | resume => exact ends start activity
      | threadJoin thread => exact (active_takeOff ..).trans (activity.trans start)
      | wait => exact (active_takeOff ..).trans (activity.trans start)
      | sbrk n => exact (active_takeOff ..).trans (activity.trans start)
      | exec program =>
        intro p active
        rw [active_takeOff] at active
        rw [← start]
        exact activity p active
    · cases stepped
  · cases stepped

theorem userinit_active {free : List Nat} (booted : userinit free = .ok k) :
    k.active k.initproc := by
  unfold userinit at booted
  obtain ⟨⟨slot, k₁⟩, alloc, booted⟩ := bind_ok booted
  cases slot with
  | none => cases booted
  | some p =>
    replace booted : userinitAt k₁ p = .ok k := booted
    unfold userinitAt at booted
    obtain ⟨⟨pgdir, mem⟩, _, booted⟩ := bind_ok booted
    simp only at booted
    split at booted
    · cases booted
    obtain ⟨mem', _, booted⟩ := bind_ok booted
    obtain ⟨k₂, locked, booted⟩ := bind_ok booted
    obtain rfl := acquire_eq locked
    obtain ⟨k₃, updated, booted⟩ := bind_ok booted
    cases booted
    obtain ⟨_, _, _, _, _, rfl⟩ := updatevals_chosen updated
    exact active_of_state (s := .RUNNABLE) (by simp [release, firstReady, firstImage])

end Xv6.Proc
