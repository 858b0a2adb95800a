import Xv6.Files.Conservation
import Xv6.Proc.Killed

/-!
# Clean slots

`allocproc` and `fork` rely on an `UNUSED` slot being clean. `kill` breaks this, for it takes the first slot
with the pid it is given, and so does `exec`, which leaves descriptors in the slots of the threads it ends.
-/

namespace Xv6.Files

open Function (update)
open Proc Vm Steps

variable {m m' : Machine} {cur : Slot} {request : Request} {k k' : Kernel}

def CleanSlots (m : Machine) : Prop :=
  ∀ p, m.k.state p = .UNUSED → m.k.killed p = false ∧ m.k.master p = none ∧ m.k.parent p = none ∧
    ∀ fd, m.ofile (p, fd) = none

/-- A process produced by `fork` is not killed, is a main thread, and has exactly the open
descriptors of its parent. -/
def CleanForks (m : Machine) : Prop :=
  ∀ cur np m', m.step (cur, .call .fork) = some m' → m.k.state np = .UNUSED →
    m'.k.state np ≠ .UNUSED →
    m'.k.killed np = false ∧ m'.k.master np = none ∧ ∀ fd, m'.ofile (np, fd) = m.ofile (cur, fd)

/-! ### The conditions -/

/-- The first slot with the pid that `kill` is given is in use. -/
def KillsUsed (k : Kernel) : Request → Prop
  | .kill pid =>
    ∀ p ∈ (List.finRange NPROC).find? fun p => k.pid p = pid, k.state p ≠ .UNUSED
  | _ => True

/-- The call keeps the thread groups, ends no other thread and kills no unused slot. -/
def KeepsSlots (m : Machine) (a : Slot × Request) : Prop :=
  (∀ m' ∈ m.step a, ¬Orphans m.k.view m'.k.view ∧ ¬Strands m.k.view m'.k.view) ∧
    SparesThreads m a ∧ KillsUsed m.k a.2

instance (k : Kernel) (request : Request) : Decidable (KillsUsed k request) := by
  cases request <;> unfold KillsUsed <;> infer_instance

instance (m : Machine) (a : Slot × Request) : Decidable (KeepsSlots m a) := by
  unfold KeepsSlots
  infer_instance

/-! ### The invariant -/

structure Tidy (m : Machine) : Prop where
  counted : Counted m
  intact : Integrity m.k.view
  clean : Clean m.k.view
  unmarked : ∀ p, ¬Marked m.k p

theorem Tidy.cleanSlots (tidy : Tidy m) : CleanSlots m := by
  intro p unused
  obtain ⟨master, parent⟩ := tidy.clean.unused p (ident_eq_none.mpr unused)
  refine ⟨?_, master, parent, (tidy.counted.idle p (active_of_state unused)).1⟩
  simpa [Marked, unused] using tidy.unmarked p

theorem kill_view {pid r : Int} (ran : kill k pid = .ok (r, k')) : k'.view = k.view := by
  unfold kill at ran
  obtain ⟨k₁, locked, ran⟩ := bind_ok ran
  obtain rfl := acquire_eq locked
  split at ran
  · cases ran
    rfl
  · obtain ⟨h, _, ran⟩ := bind_ok ran
    cases ran
    exact (view_killThread _ h :)

/-- On intact groups, `kill` of a slot in use marks none: the highest master is in use too. -/
theorem kill_marksNone {pid r : Int} (intact : Integrity k.view) (clean : Clean k.view)
    (used : KillsUsed k (.kill pid)) (ran : kill k pid = .ok (r, k')) : MarksNone k k' := by
  unfold kill at ran
  obtain ⟨k₁, locked, ran⟩ := bind_ok ran
  obtain rfl := acquire_eq locked
  split at ran
  · cases ran
    exact .refl k
  next p found =>
    obtain ⟨h, highest, ran⟩ := bind_ok ran
    cases ran
    obtain ⟨n, ends⟩ := getHighestMaster_ends highest
    have usedH := used_on intact clean (ident_ne_none.mpr (used p found)) ends.on_last
    exact (killThread_marksNone (k := { k with ptableLock := true }) (ident_ne_none.mp usedH) :)

/-- A call on files leaves the kernel alone but for memory; `kill` marks no unused slot. -/
theorem serve_kernel (tidy : Tidy m) (used : KillsUsed m.k request)
    (ran : serve m cur request = .ok m') : m'.k.view = m.k.view ∧ MarksNone m.k m'.k := by
  have moved : ∀ {m₁ : Machine}, Moves (some cur) m m₁ 0 0 →
      m₁.k.view = m.k.view ∧ MarksNone m.k m₁.k := by
    intro m₁ moves
    rw [moves.kernel]
    exact ⟨rfl, .refl m.k⟩
  cases request with
  | «open» target =>
    obtain ⟨r, opened, ran⟩ := bind_ok ran
    cases ran
    exact moved (sysOpen_moves tidy.counted.closed opened)
  | close fd =>
    obtain ⟨r, closed, ran⟩ := bind_ok ran
    cases ran
    exact moved (sysClose_moves closed)
  | dup fd =>
    obtain ⟨r, dup, ran⟩ := bind_ok ran
    cases ran
    exact moved (sysDup_moves dup)
  | pipe =>
    obtain ⟨r, piped, ran⟩ := bind_ok ran
    cases ran
    exact moved (sysPipe_moves tidy.counted.closed piped)
  | chdir path directory =>
    obtain ⟨r, changed, ran⟩ := bind_ok ran
    cases ran
    exact moved (sysChdir_moves changed)
  | kill pid =>
    obtain ⟨⟨r, k⟩, killed, ran⟩ := bind_ok ran
    cases ran
    exact ⟨kill_view killed, kill_marksNone tidy.intact tidy.clean used killed⟩
  | call c =>
    cases ran
    exact ⟨rfl, .refl m.k⟩
  | exec path program =>
    cases ran
    exact ⟨rfl, .refl m.k⟩

theorem process_tidy {c : Call} (tidy : Tidy m)
    (spares : ∀ program, c = .exec program → ∀ p, m.k.active p → m'.k.active p)
    (stays : ¬Orphans m.k.view m'.k.view) (placed : ¬Strands m.k.view m'.k.view)
    (ran : process m cur c = some m') : Tidy m' := by
  obtain ⟨counted, k, stepped, kernel, _⟩ := process_counted tidy.counted spares ran
  have view : m'.k.view = k.view := by
    rw [kernel]
    rfl
  have used : m.k.view.ident cur ≠ none := by
    rw [ident_ne_none, step_ready stepped]
    decide
  rw [view] at stays placed
  obtain ⟨intact, clean⟩ := (step_effect (fun _ _ => tidy.intact.intact used) stepped).groups used
    tidy.intact tidy.clean stays placed
  have marks := step_marksNone tidy.intact tidy.clean intact clean stepped
  refine ⟨counted, view ▸ intact, view ▸ clean, fun p marked => tidy.unmarked p (marks p ?_)⟩
  rw [kernel] at marked
  exact marked

theorem Tidy.moves (tidy : Tidy m) (running : m.k.active cur) (moves : Moves (some cur) m m' 0 0) :
    Tidy m' where
  counted := tidy.counted.moves running moves
  intact := by
    rw [moves.kernel]
    exact tidy.intact
  clean := by
    rw [moves.kernel]
    exact tidy.clean
  unmarked p marked := by
    rw [moves.kernel] at marked
    exact tidy.unmarked p marked

/-- **One step.** -/
theorem step_tidy (tidy : Tidy m) (keeps : KeepsSlots m (cur, request))
    (stepped : m.step (cur, request) = some m') : Tidy m' := by
  obtain ⟨groups, spares, used⟩ := keeps
  obtain ⟨stays, placed⟩ := groups m' stepped
  rcases step_cases stepped with ⟨c, rfl, other, ran⟩ |
    ⟨path, program, found, m₁, rfl, ready, looked, ran⟩ | ⟨ready, ran⟩
  · exact process_tidy tidy (fun program same => absurd same (other program)) stays placed ran
  · have moves := findProgram_moves looked
    have view : m₁.k.view = m.k.view := by
      rw [moves.kernel]
      rfl
    refine process_tidy (tidy.moves ready.running moves) (fun _ _ p was => ?_) (by rwa [view])
      (by rwa [view]) ran
    rw [active_congr moves.state] at was
    exact spares m' stepped p was
  · obtain ⟨view, marks⟩ := serve_kernel tidy used ran
    exact ⟨serve_counted tidy.counted ready.running ran, view ▸ tidy.intact, view ▸ tidy.clean,
      fun p marked => tidy.unmarked p (marks p marked)⟩

theorem userinit_killed {free : List Nat} (booted : userinit free = .ok k) :
    k.killed = fun _ => false := by
  unfold userinit at booted
  obtain ⟨⟨slot, k₁⟩, alloc, booted⟩ := bind_ok booted
  cases slot with
  | none => cases booted
  | some p =>
    have killed : k₁.killed = fun _ => false := by
      obtain ⟨_, ⟨_, rfl, _⟩ | ⟨np, _, kstack, mem, ⟨_, rfl⟩ | ⟨_, rfl⟩⟩⟩ := allocproc_frame alloc
      · rfl
      · rfl
      · rfl
    replace booted : userinitAt k₁ p = .ok k := booted
    unfold userinitAt at booted
    obtain ⟨⟨pgdir, mem⟩, _, booted⟩ := bind_ok booted
    simp only at booted
    split at booted
    · cases booted
    obtain ⟨mem', _, booted⟩ := bind_ok booted
    obtain ⟨k₂, locked, booted⟩ := bind_ok booted
    obtain rfl := acquire_eq locked
    obtain ⟨k₃, updated, booted⟩ := bind_ok booted
    cases booted
    obtain ⟨_, _, _, _, _, rfl⟩ := updatevals_chosen updated
    exact killed

theorem boot_kernel (started : Machine.boot k = .ok m) : m.k = { k with mem := m.k.mem } := by
  unfold Machine.boot at started
  obtain ⟨⟨ip, m₁⟩, named, started⟩ := bind_ok started
  cases started
  exact (namex_moves named).kernel

theorem tidy_of_reach (reach : fileCalls.Reach KeepsSlots m) : Tidy m := by
  refine reach.invariant (?_ : ∀ m, fileCalls.init m → Tidy m) ?_
  · rintro m ⟨free, k, booted, started⟩
    obtain ⟨intact, clean⟩ := groups_of_reach (.init ⟨free, booted⟩)
    have kernel := boot_kernel started
    have view : m.k.view = k.view := by
      rw [kernel]
      rfl
    refine ⟨boot_counted booted started, view ▸ intact, view ▸ clean, fun p marked => ?_⟩
    have flag := marked.2
    rw [kernel] at flag
    simp only [userinit_killed booted] at flag
    cases flag
  · rintro m ⟨cur, request⟩ m' tidy keeps stepped
    exact step_tidy tidy keeps stepped

/-! ### `fork` -/

/-- `fork` takes the first unused slot, or none, and touches no flag and no master. -/
theorem fork_takes {r : Int} (ran : fork k cur = .ok (r, k')) :
    k'.killed = k.killed ∧ k'.master = k.master ∧
      ∀ np, k.state np = .UNUSED → k'.state np ≠ .UNUSED →
        firstUnused k = some np ∧ k'.state np = .RUNNABLE := by
  unfold fork at ran
  obtain ⟨⟨slot, k₁⟩, alloc, rest⟩ := bind_ok ran
  obtain ⟨_, ⟨rfl, rfl, _⟩ | ⟨np, first, kstack, mem, ⟨rfl, rfl⟩ | ⟨rfl, rfl⟩⟩⟩ := allocproc_frame alloc
  · cases rest
    exact ⟨rfl, rfl, fun _ unused used => absurd unused used⟩
  · cases rest
    exact ⟨rfl, rfl, fun _ unused used => absurd unused used⟩
  · obtain ⟨_, _, _, _, _, ⟨_, rfl⟩ | ⟨_, _, rfl⟩⟩ := forkCopy_frame rest
    all_goals
      refine ⟨rfl, rfl, fun q unused used => ?_⟩
      by_cases same : q = np
      · subst same
        simp_all
      · simp [same] at used
        exact absurd unused used

theorem step_fork (stepped : step k (cur, .fork) = some k') :
    k'.killed = k.killed ∧ k'.master = k.master ∧
      ∀ np, k.state np = .UNUSED → k'.state np ≠ .UNUSED → born k k' = some np := by
  have ready : k.state cur = .RUNNABLE := step_ready stepped
  simp only [step] at stepped
  split at stepped
  · split at stepped
    next outcome k₁ ran =>
      cases stepped
      obtain ⟨⟨r, k₂⟩, forked, returned⟩ := bind_ok ran
      obtain ⟨rfl, rfl⟩ := Prod.mk.inj (Except.ok.inj returned)
      obtain ⟨killed, master, takes⟩ := fork_takes forked
      have view := takeOff_view k₂ cur (.returns r)
      refine ⟨killed, (congrArg View.master view).trans master, fun np unused used => ?_⟩
      have ne : np ≠ cur := by
        rintro rfl
        rw [ready] at unused
        cases unused
      have used₂ : k₂.state np ≠ .UNUSED := by
        rw [← ident_ne_none] at used ⊢
        rwa [← view]
      obtain ⟨first, runnable⟩ := takes np (by simpa [ne] using unused) used₂
      rw [firstUnused_start ready] at first
      have still : (takeOff k₂ cur (.returns r)).state np = .RUNNABLE :=
        takeOff_state (by decide) runnable _
      simp [born, first, Option.filter, still]
    · cases stepped
  · cases stepped

theorem Tidy.cleanForks (tidy : Tidy m) : CleanForks m := by
  intro cur np m' stepped unused used
  obtain ⟨c, same, _, ran⟩ | ⟨_, _, _, _, other, _⟩ | ⟨_, ran⟩ := step_cases stepped
  · cases same
    obtain ⟨_, k, forked, kernel, copies⟩ := process_counted (c := .fork) tidy.counted (fun _ => nofun) ran
    obtain ⟨killed, master, takes⟩ := step_fork forked
    rw [kernel] at used ⊢
    obtain ⟨unkilled, main, _⟩ := tidy.cleanSlots np unused
    refine ⟨?_, ?_, copies rfl np (takes np unused used)⟩
    · change k.killed np = false
      rw [killed, unkilled]
    · change k.master np = none
      rw [master, main]
  · cases other
  · cases ran
    exact absurd unused used

end Xv6.Files
