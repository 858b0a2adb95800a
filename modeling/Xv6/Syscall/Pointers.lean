import Xv6.Exec.Failure
import Xv6.Proc.Activity
import Xv6.Syscall.Args

/-!
# User pointers

The kernel compares a user pointer with the size of the process and then follows it. In a sound address space
the pages below the size are there, except those of empty stack regions. `thread_join` does not compare.
-/

namespace Xv6.Syscall

open Function (update)
open Proc Vm Steps

variable {k k' : Kernel} {m cur : Slot} {d esp : Nat} {c : UserCall} {a : Access} {accesses : List Access}

/-! ### The runs of a process -/

/-- The thread is put on the CPU. -/
def running (k : Kernel) (cur : Slot) : Kernel := { k with state := update k.state cur .RUNNING }

theorem running_used {p : Slot} (used : k.state p ≠ .UNUSED) : (running k cur).state p ≠ .UNUSED := by
  by_cases same : p = cur
  · rw [same, show (running k cur).state cur = .RUNNING from Function.update_self ..]
    decide
  · rw [show (running k cur).state p = k.state p from Function.update_of_ne same _ _]
    exact used

/-- The calls of one process that move its memory: those of its threads, and `exec` by its main
thread. -/
def memoryCalls (m : Slot) : System Kernel (Slot × Call) where
  init := (processCalls m).init
  step k a :=
    match a with
    | (cur, .exec program) => if cur = m then Proc.step k (m, .exec program) else none
    | a => (processCalls m).step k a

/-- `exec` is called by a main thread alone and without empty stack regions, and if it fails it has
not moved `originalbase`. All other calls keep the layout. -/
def KeepsMemory (m : Slot) (k : Kernel) : Slot × Call → Prop
  | (_, .exec program) =>
    Single m (running k m) ∧ ∀ r k', Proc.exec (running k m) m program = .ok (.returns r, k') → r ≠ 0 →
      k'.originalbase m = k.originalbase m
  | a => KeepsLayout m k a

/-! ### A failing `exec` -/

theorem loadSegments_others {pgdir : Nat} : ∀ {segments : List Nat} {sz : Nat} {r : Option Nat} {mem mem' : Memory},
    loadSegments pgdir segments sz mem = .ok (r, mem') → ∀ e, e ≠ pgdir → mem'.dirs e = mem.dirs e := by
  intro segments
  induction segments with
  | nil =>
    intro sz r mem mem' ran
    cases ran
    exact fun _ _ => rfl
  | cons last rest ih =>
    intro sz r mem mem' ran e other
    obtain ⟨⟨sz₁, mem₁⟩, alloc, ran⟩ := bind_ok ran
    have same := (allocuvm_moves alloc).others e other
    simp only at ran
    split at ran
    · cases ran
      exact same
    · exact (ih ran e other).trans same

theorem execLoad_failed {program : Option Program} (ran : execLoad k cur program = .ok (none, k')) :
    ∃ base mem, k' = { k with originalbase := base, mem := mem } ∧ ∀ e, e ∉ k.mem.free → mem.dirs e = k.mem.dirs e := by
  unfold execLoad at ran
  split at ran
  · cases ran
    exact ⟨k.originalbase, k.mem, rfl, fun _ _ => rfl⟩
  obtain ⟨⟨pgdir, mem₁⟩, made, ran⟩ := bind_ok ran
  obtain ⟨-, -, kept⟩ := setupkvm_free made
  simp only at ran
  split at ran
  · cases ran
    exact ⟨k.originalbase, mem₁, rfl, kept⟩
  next success =>
    have fresh := (setupkvm_page made success).1
    have other : ∀ e, e ∉ k.mem.free → e ≠ pgdir := by
      rintro e used rfl
      exact used fresh
    obtain ⟨⟨loaded, mem₂⟩, load, ran⟩ := bind_ok ran
    have segments := loadSegments_others load
    cases loaded with
    | none =>
      obtain ⟨mem₃, freed, ran⟩ := bind_ok ran
      cases ran
      refine ⟨k.originalbase, mem₃, rfl, fun e used => ?_⟩
      rw [(freevm_free freed).2 e (other e used), segments e (other e used), kept e used]
    | some sz =>
      obtain ⟨⟨top, mem₃⟩, alloc, ran⟩ := bind_ok ran
      have stack := (allocuvm_moves alloc).others
      simp only at ran
      split at ran
      · obtain ⟨mem₄, freed, ran⟩ := bind_ok ran
        cases ran
        refine ⟨_, mem₄, rfl, fun e used => ?_⟩
        rw [(freevm_free freed).2 e (other e used), stack e (other e used), segments e (other e used), kept e used]
      · obtain ⟨mem₄, guard, ran⟩ := bind_ok ran
        split at ran
        · cases ran
        · obtain ⟨mem₅, freed, ran⟩ := bind_ok ran
          cases ran
          refine ⟨_, mem₅, rfl, fun e used => ?_⟩
          rw [(freevm_free freed).2 e (other e used), clearpteu_others guard (other e used), stack e (other e used),
            segments e (other e used), kept e used]

theorem stackSpace_congr {v : View} {a a' : Image} (alone : ∀ w, ¬Worker v m w) (sz : a'.sz m = a.sz m)
    (base : a'.originalbase m = a.originalbase m) (empty : a'.emptystacks = a.emptystacks)
    (count : a'.emptystackcnt = a.emptystackcnt) (page : a'.page d = a.page d) :
    stackSpace m d v a' = stackSpace m d v a := by
  have regions : stackBase m v a' = stackBase m v a := by
    funext o
    cases o with
    | exec => rw [stackBase, stackBase, base]
    | thread w => rw [stackBase, stackBase, if_neg (alone w), if_neg (alone w)]
    | empty j => rw [stackBase, stackBase, empty, count]
  rw [stackSpace, stackSpace, sz, regions, page]

/-- `exec` by a main thread does not wait for anybody. -/
theorem exec_root_awake {program : Option Program} (root : k.master m = none) :
    Proc.exec k m program ≠ .ok (.sleeps, k') := by
  intro ran
  unfold Proc.exec at ran
  split at ran
  · cases ran
  obtain ⟨k₁, slept, ran⟩ := bind_ok ran
  obtain ⟨state, same⟩ := sleepOtherThreads_eq slept
  obtain ⟨⟨loaded, k₂⟩, load, ran⟩ := bind_ok ran
  cases loaded with
  | none => cases ran
  | some old =>
    obtain ⟨_, _, _, _, _, _, _, rfl⟩ := execLoad_image load
    have root₂ : k₁.master m = none := by rw [same]; exact root
    simp only [execCommit, root₂, ne_eq, not_true_eq_false, if_false] at ran
    obtain ⟨k₃, _, ran⟩ := bind_ok ran
    obtain ⟨_, _, ran⟩ := bind_ok ran
    obtain ⟨_, _, ran⟩ := bind_ok ran
    cases ran

/-- The address space after an `exec` that has failed without moving `originalbase`. -/
theorem exec_failed_laid {program : Option Program} {r : Int} (laid : Laid m d k) (single : Single m k)
    (ran : Proc.exec k m program = .ok (.returns r, k')) (failed : r ≠ 0)
    (base : k'.originalbase m = k.originalbase m) : Laid m d k' := by
  unfold Proc.exec at ran
  split at ran
  · cases ran
    exact laid
  obtain ⟨k₁, slept, ran⟩ := bind_ok ran
  obtain ⟨state, same⟩ := sleepOtherThreads_eq slept
  have view₁ := sleepOtherThreads_view slept
  have used₁ : k₁.state m ≠ .UNUSED := by
    rw [← ident_ne_none, view₁, ident_ne_none]
    exact single.used
  obtain ⟨⟨loaded, k₂⟩, load, ran⟩ := bind_ok ran
  cases loaded with
  | some old =>
    -- a main thread alone cannot fail any more
    rcases execLoad_view used₁ load with ⟨no, _⟩ | ⟨_, id, _, view₂⟩
    · cases no
    · have view₂ : k₂.view = k.view.load m id := by rw [view₂, view₁]
      have root₂ : k₂.master m = none := (congrFun (congrArg View.master view₂) m).trans single.root
      simp only [execCommit, root₂, ne_eq, not_true_eq_false, if_false] at ran
      obtain ⟨k₃, _, ran⟩ := bind_ok ran
      obtain ⟨_, _, ran⟩ := bind_ok ran
      obtain ⟨_, _, ran⟩ := bind_ok ran
      cases ran
      exact absurd rfl failed
  | none =>
    cases ran
    have view₂ : k'.view = k.view := by
      rcases execLoad_view used₁ load with ⟨_, view₂⟩ | ⟨_, _, no, _⟩
      · exact view₂.trans view₁
      · cases no
    obtain ⟨base', mem, rfl, kept⟩ := execLoad_failed load
    obtain ⟨l, group, pgdir⟩ := laid.group
    have owned : d ∉ k₁.mem.free := by
      rw [same, ← pgdir m List.mem_cons_self]
      exact single.owned
    have page : mem.page d = k.mem.page d := by
      have dirs : mem.dirs d = k.mem.dirs d := by rw [kept d owned, same]
      funext i
      rw [Memory.page, Memory.page, Memory.pte, Memory.pte, dirs]
    obtain ⟨intact, clean, root, main, sound⟩ := laid
    refine ⟨view₂ ▸ intact, view₂ ▸ clean, (congrFun (congrArg View.master view₂) m).trans root, view₂ ▸ main, ?_⟩
    rw [view₂, stackSpace_congr (a := k.image) single.alone ?_ base ?_ ?_ page]
    · exact sound
    all_goals
      rw [same]
      rfl

theorem memoryCalls_step {act : Call} (stepped : (memoryCalls m).step k (cur, act) = some k')
    (keeps : KeepsMemory m k (cur, act)) :
    (∃ program, act = .exec program ∧ Proc.step k (m, act) = some k') ∨
      (processCalls m).step k (cur, act) = some k' ∧ KeepsLayout m k (cur, act) := by
  cases act with
  | exec program =>
    simp only [memoryCalls, Option.ite_none_right_eq_some] at stepped
    exact .inl ⟨program, rfl, stepped.2⟩
  | _ => exact .inr ⟨stepped, keeps⟩

/-- A successful or failing `exec` as a step. -/
theorem exec_step_laid {program : Option Program} (laid : Laid m d k) (keeps : KeepsMemory m k (m, .exec program))
    (stepped : Proc.step k (m, .exec program) = some k') : ∃ d, Laid m d k' := by
  obtain ⟨single, kept⟩ := keeps
  have used : k.state m ≠ .UNUSED := by
    rw [step_ready stepped]
    decide
  have view : (running k m).view = k.view := view_setState used (show ProcState.RUNNING ≠ .UNUSED by decide)
  simp only [Proc.step] at stepped
  split at stepped
  · split at stepped
    next outcome k₁ ran =>
      cases stepped
      have ran : Proc.exec (running k m) m program = .ok (outcome, k₁) := ran
      have after : ∃ d, Laid m d k₁ := by
        cases outcome with
        | sleeps => exact absurd ran (exec_root_awake single.root)
        | returns r =>
          by_cases success : r = 0
          · subst success
            exact exec_laid single ran
          · exact ⟨d, exec_failed_laid (laid.congr view rfl) single ran success (kept r k₁ ran success)⟩
      obtain ⟨d', laid₁⟩ := after
      exact ⟨d', laid₁.congr (takeOff_view ..) (takeOff_image ..)⟩
    · cases stepped
  · cases stepped

/-- **The layout along a run**, `exec` included. -/
theorem laid_of_memoryCalls (reach : (memoryCalls m).Reach (KeepsMemory m) k) : ∃ d, Laid m d k := by
  refine reach.invariant (P := fun k => ∃ d, Laid m d k) ?_ ?_
  · rintro k ⟨k₀, program, k₁, single, ran, rfl⟩
    obtain ⟨d, laid⟩ := exec_laid single ran
    exact ⟨d, laid.congr (takeOff_view ..) (takeOff_image ..)⟩
  · rintro k ⟨cur, act⟩ k' ⟨d, laid⟩ keeps stepped
    rcases memoryCalls_step stepped keeps with ⟨program, rfl, stepped⟩ | ⟨stepped, keeps⟩
    · exact exec_step_laid laid keeps stepped
    · simp only [processCalls] at stepped
      split at stepped
      next ofProcess => exact ⟨d, laid.step ofProcess keeps stepped⟩
      · cases stepped

/-! ### What a call leaves alone -/

theorem setThread_sz {np : Slot} (other : np ≠ m) (same : k.sz cur = k.sz m) (top : Nat) :
    k.sz m ≤ (setThread k cur np m top).sz m := by
  have sizes := congrFun (congrArg Image.sz (setThread_image k cur np m top)) m
  refine le_of_le_of_eq ?_ sizes.symm
  simp only [Function.update_of_ne (Ne.symm other)]
  split
  · rw [Function.update_self]
    omega
  · exact le_rfl

theorem createStack_sz {np : Slot} (highest : getHighestMaster k cur = .ok m) (other : np ≠ m)
    (ran : createStack k cur np = .ok (true, k')) : k.sz m ≤ k'.sz m := by
  unfold createStack at ran
  obtain ⟨h, found, ran⟩ := bind_ok ran
  obtain rfl : m = h := Except.ok.inj (highest.symm.trans found)
  obtain ⟨k₁, locked, ran⟩ := bind_ok ran
  obtain rfl := acquireMem_eq locked
  simp only at ran
  generalize taken : takeStack _ cur m = pair at ran
  obtain ⟨b, k₂⟩ := pair
  obtain ⟨cnt, rfl⟩ := takeStack_fields taken
  obtain ⟨⟨top, mem₁⟩, alloc, ran⟩ := bind_ok ran
  simp only at ran
  split at ran
  · cases ran
  · obtain ⟨mem₂, guard, ran⟩ := bind_ok ran
    obtain ⟨_, rfl⟩ := Prod.mk.inj (Except.ok.inj ran)
    have size : update k.sz cur (k.sz m) m = k.sz m := by
      by_cases same : m = cur
      · rw [same, Function.update_self]
      · rw [Function.update_of_ne same]
    change _ ≤ (setThread _ cur np m top).sz m
    refine le_of_eq_of_le ?_ (setThread_sz other ?_ top)
    · exact size.symm
    · exact (Function.update_self ..).trans size.symm

/-- When a thread is created the size does not shrink and the page directory stays. -/
theorem threadCreate_sz (highest : getHighestMaster k cur = .ok m) (main : k.state m ≠ .UNUSED)
    (used : k.state cur ≠ .UNUSED) (ran : threadCreate k cur = .ok (0, k')) :
    k.sz m ≤ k'.sz m ∧ k'.pgdir cur = k.pgdir cur := by
  unfold threadCreate at ran
  obtain ⟨⟨r, k₁⟩, alloc, rest⟩ := bind_ok ran
  clear ran
  obtain ⟨-, ⟨rfl, -⟩ | ⟨np, first, kstack, mem, ⟨rfl, -⟩ | ⟨rfl, same⟩⟩⟩ := allocproc_frame alloc
  · cases rest
  · cases rest
  · have unused := firstUnused_state first
    have apart : np ≠ m ∧ np ≠ cur := by
      constructor
      · rintro rfl
        exact main unused
      · rintro rfl
        exact used unused
    obtain ⟨⟨placed, k₂⟩, created, rest⟩ := bind_ok rest
    have fields : k₁.master = k.master ∧ k₁.sz = k.sz ∧ k₁.pgdir = k.pgdir := by rw [same]; exact ⟨rfl, rfl, rfl⟩
    obtain ⟨masters, sizes, dirs⟩ := fields
    have highest₁ : getHighestMaster k₁ cur = .ok m := by rw [getHighestMaster, masters]; exact highest
    cases placed with
    | false => cases rest
    | true =>
      obtain ⟨_, _, _, linked⟩ := createLink_frame rest
      have grown := createStack_sz highest₁ apart.1 created
      obtain ⟨-, _, _, _, ⟨no, -⟩ | ⟨-, _, made⟩⟩ := createStack_frame created
      · cases no
      · refine ⟨?_, ?_⟩
        · rw [linked, ← sizes]
          exact grown
        · rw [linked, made, ← dirs]
          exact Function.update_of_ne (Ne.symm apart.2) _ _

theorem joinPass_pgdir {thread : Nat} {found : Bool} {outcome : Outcome}
    (ran : joinPass k cur thread found = .ok (outcome, k')) : k'.pgdir = k.pgdir := by
  rcases joinPass_cases ran with ⟨w, r, k₁, _, dealloc, rfl⟩ | rfl | ⟨found', rfl⟩
  · rcases deallocThread_frame dealloc with ⟨_, same⟩ | ⟨_, _, _, _, _, _, _, same⟩ <;> rw [same] <;> rfl
  · rfl
  · rfl

/-! ### Following a pointer -/

/-- The memory lies in the user half, on pages that are there. -/
def Access.Present (a : Access) (cur : Slot) : Prop :=
  ∀ b, a.lo ≤ b → b < a.lo + a.len → b < KERNBASE ∧ a.k.mem.page (a.k.pgdir cur) (b / PGSIZE) ≠ none

/-- The memory does not touch an empty stack region, and if nobody has compared the pointer with the
size it is below the end of the last page. -/
def Access.Clear (a : Access) (m : Slot) : Prop :=
  ∀ b, a.lo ≤ b → b < a.lo + a.len → ¬(processSpace m a.k).Spare (b / PGSIZE) ∧
    (a.checked = false → b / PGSIZE * PGSIZE < a.k.sz m)

/-- What has been checked is below the size. -/
def Access.Inside (a : Access) (m : Slot) : Prop := a.checked = true → a.lo + a.len ≤ a.k.sz m

/-- In a sound address space the pages below the size are there, except the empty regions. -/
theorem Laid.present_iff (laid : Laid m d a.k) (pgdir : a.k.pgdir cur = d) (inside : a.Inside m) :
    a.Present cur ↔ a.Clear m := by
  obtain ⟨l, group, same⟩ := laid.group
  have space : processSpace m a.k = stackSpace m d a.k.view a.k.image := by
    rw [processSpace, same m List.mem_cons_self]
  have mapped : ∀ i, a.k.mem.page (a.k.pgdir cur) i ≠ none ↔ i * PGSIZE < a.k.sz m ∧ ¬(processSpace m a.k).Spare i := by
    rw [space, pgdir]
    exact laid.sound.mapped
  have user : a.k.sz m < KERNBASE := laid.sound.user
  have page : ∀ b, b / PGSIZE * PGSIZE < a.k.sz m → b < KERNBASE := by
    intro b below
    simp only [PGSIZE, KERNBASE] at *
    omega
  constructor
  · intro present b above below
    obtain ⟨under, free⟩ := (mapped _).mp (present b above below).2
    exact ⟨free, fun _ => under⟩
  · intro clear b above below
    obtain ⟨free, under⟩ := clear b above below
    have under : b / PGSIZE * PGSIZE < a.k.sz m := by
      cases checked : a.checked with
      | false => exact under checked
      | true => exact lt_of_le_of_lt (Nat.div_mul_le_self b PGSIZE) (lt_of_lt_of_le below (inside checked))
    exact ⟨page b under, (mapped _).mpr ⟨under, free⟩⟩

/-! ### The checks -/

theorem Check.passed_andThen {first second : Check} (passed : (first.andThen second).passed = true) :
    first.passed = true ∧ second.passed = true := by
  unfold Check.andThen at passed
  split at passed
  next began => exact ⟨began, passed⟩
  next failed => exact absurd passed failed

/-- All that has been fetched lies below the size `n`. -/
def Check.Within (check : Check) (k : Kernel) (n : Nat) : Prop :=
  ∀ a ∈ check.fetched, a.k = k ∧ a.checked = true ∧ a.lo + a.len ≤ n

theorem Check.Within.andThen {first second : Check} {n : Nat} (one : first.Within k n) (two : second.Within k n) :
    (first.andThen second).Within k n := by
  unfold Check.andThen
  split
  · intro a member
    exact (List.mem_append.mp member).elim (one a) (two a)
  · exact one

theorem Check.within_test (passed : Bool) (n : Nat) : (Check.test passed).Within k n :=
  List.forall_mem_nil _

theorem fetchint_within {addr : Nat} (user : k.sz cur < KERNBASE) : (fetchint k cur addr).Within k (k.sz cur) := by
  unfold fetchint
  split
  · exact Check.within_test _ _
  next inside =>
    intro a member
    obtain rfl := List.mem_singleton.mp member
    refine ⟨rfl, rfl, ?_⟩
    simp only [not_or, not_le, gt_iff_lt, not_lt, ge_iff_le, uint32, KERNBASE] at inside user ⊢
    omega

theorem argptr_within {n i : Nat} {size : Int} (user : k.sz cur < KERNBASE) : (argptr k cur esp n i size).Within k (k.sz cur) :=
  (fetchint_within user).andThen (Check.within_test _ _)

theorem argptr_passed {n i : Nat} {size : Int} (user : k.sz cur < KERNBASE) (int : size < 2 ^ 31)
    (passed : (argptr k cur esp n i size).passed = true) : i + size.toNat ≤ k.sz cur := by
  have tested := (Check.passed_andThen passed).2
  simp only [Check.test, decide_eq_true_eq, not_or, not_lt, not_le, ge_iff_le, gt_iff_lt, uint32, KERNBASE] at tested user
  omega

theorem UserCall.check_within (c : UserCall) (user : k.sz cur < KERNBASE) : (c.check k cur esp).Within k (k.sz cur) := by
  have fd : ∀ fd, (argfd k cur esp fd).Within k (k.sz cur) := fun fd =>
    (fetchint_within user).andThen (Check.within_test _ _)
  cases c with
  | read | write => exact ((fd _).andThen (fetchint_within user)).andThen (argptr_within user)
  | fstat => exact (fd _).andThen (argptr_within user)
  | pipe => exact argptr_within user
  | threadCreate => exact ((argptr_within user).andThen (argptr_within user)).andThen (argptr_within user)
  | threadJoin => exact (fetchint_within user).andThen (fetchint_within user)
  | rejoin => exact Check.within_test _ _

theorem wrap32_lt (n : Int) : wrap32 n < 2 ^ 31 := by
  have bound := Int.bmod_lt (x := n) (m := 2 ^ 32) (by decide)
  unfold wrap32
  omega

/-- The block of a call that has passed its checks, unless it is the slot of a `thread_join`. -/
theorem UserCall.block_within (c : UserCall) (k' : Kernel) (user : k.sz cur < KERNBASE)
    (passed : (c.check k cur esp).passed = true) (checked : (c.block k').checked = true) : (c.block k').lo + (c.block k').len ≤ k.sz cur := by
  cases c with
  | read | write => exact argptr_passed user (wrap32_lt _) (Check.passed_andThen passed).2
  | fstat => exact argptr_passed user (by decide) (Check.passed_andThen passed).2
  | pipe => exact argptr_passed user (by decide) passed
  | threadCreate => exact argptr_passed user (by decide) (Check.passed_andThen (Check.passed_andThen passed).1).1
  | threadJoin | rejoin => cases checked

/-! ### Every call -/

theorem syncSize_laid (laid : Laid m d k) (highest : getHighestMaster k cur = .ok m) (synced : syncSize k cur = .ok k') :
    Laid m d k' ∧ k'.sz cur = k'.sz m ∧ ∃ sz, k' = { k with sz := sz } := by
  unfold syncSize at synced
  split at synced
  next main =>
    cases synced
    have same : m = cur := by
      have here : getHighestMaster k cur = .ok cur := by simp [getHighestMaster, Chain.climb, main]
      exact Except.ok.inj (highest.symm.trans here)
    exact ⟨laid, by rw [same], k.sz, rfl⟩
  next worker =>
    obtain ⟨h, found, synced⟩ := bind_ok synced
    obtain rfl : m = h := Except.ok.inj (highest.symm.trans found)
    cases synced
    have other : m ≠ cur := by
      rintro rfl
      exact worker laid.root
    have kept : update k.sz cur (k.sz m) m = k.sz m := Function.update_of_ne other _ _
    obtain ⟨intact, clean, root, main, sound⟩ := laid
    refine ⟨⟨intact, clean, root, main, ?_⟩, (Function.update_self ..).trans kept.symm, _, rfl⟩
    change Space.Sound (Space.mk (update k.sz cur (k.sz m) m) (stackBase m k.view k.image) _)
    rw [kept]
    exact sound

/-- A thread of the process is ready for the call, and if a thread call stands behind it, that call
keeps the layout. -/
structure Meets (m : Slot) (k : Kernel) (cur : Slot) (c : UserCall) : Prop where
  member : getHighestMaster k cur = .ok m
  ready : k.state cur = .RUNNABLE
  keeps : ∀ act k₁, c.act = some act → syncSize k cur = .ok k₁ →
    Ready k₁ cur act ∧ OfProcess m k₁ (cur, act) ∧ KeepsLayout m k₁ (cur, act)

theorem syncSize_running (synced : syncSize (running k cur) cur = .ok k') :
    ∃ k₁, syncSize k cur = .ok k₁ ∧ k' = running k₁ cur := by
  unfold syncSize at synced ⊢
  split at synced
  next main =>
    cases synced
    exact ⟨k, if_pos main, rfl⟩
  next worker =>
    obtain ⟨h, found, synced⟩ := bind_ok synced
    cases synced
    have found : getHighestMaster k cur = .ok h := found
    have worker : ¬k.master cur = none := worker
    refine ⟨{ k with sz := update k.sz cur (k.sz h) }, ?_, rfl⟩
    rw [if_neg worker, found]
    rfl

/-- A thread call of the process leaves a sound address space, the page directory of the caller, and
a size that covers what `thread_create` has checked. -/
theorem call_laid {act : Call} (laid : Laid m d k) (ready : Ready k cur act) (ofProcess : OfProcess m k (cur, act))
    (keeps : KeepsLayout m k (cur, act)) (behind : c.act = some act)
    (ran : call (running k cur) cur act = .ok (.returns 0, k')) :
    Laid m d k' ∧ k'.pgdir cur = k.pgdir cur ∧ (c.block k').k = k' ∧
      ((c.block k').checked = true → k.sz m ≤ k'.sz m) := by
  have stepped : Proc.step k (cur, act) = some (takeOff k' cur (.returns 0)) := by
    simp only [Proc.step, if_pos ready]
    rw [show call { k with state := update k.state cur .RUNNING } cur act = .ok (.returns 0, k') from ran]
  have laid' : Laid m d k' :=
    (laid.step ofProcess keeps stepped).congr (takeOff_view ..).symm (takeOff_image ..).symm
  have used : k.state cur ≠ .UNUSED := by
    rw [ready.1]
    decide
  cases c with
  | threadCreate =>
    cases behind
    obtain ⟨⟨r, k₁⟩, created, same⟩ := bind_ok ran
    obtain ⟨zero, rfl⟩ := Prod.mk.inj (Except.ok.inj same)
    cases zero
    have main : k.state m ≠ .UNUSED := by
      obtain ⟨pid, ident⟩ := laid.main
      exact ident_ne_none.mp (by rw [ident]; rintro ⟨⟩)
    have highest : getHighestMaster (running k cur) cur = .ok m := ofProcess.1
    obtain ⟨grown, pgdir⟩ := threadCreate_sz highest (running_used main) (running_used used) created
    exact ⟨laid', pgdir, rfl, fun _ => grown⟩
  | threadJoin =>
    cases behind
    exact ⟨laid', congrFun (joinPass_pgdir ran) cur, rfl, by rintro ⟨⟩⟩
  | rejoin =>
    cases behind
    have which := ofProcess.2
    simp only at which
    split at which
    next thread found context =>
      have ran : resume (running k cur) cur = .ok (.returns 0, k') := ran
      unfold resume at ran
      rw [show (running k cur).context cur = .join thread found from context] at ran
      exact ⟨laid', congrFun (joinPass_pgdir ran) cur, rfl, by rintro ⟨⟩⟩
    · exact which.elim
  | _ => cases behind

/-- Runs without `exec`. -/
theorem memoryCalls_of_process {ok ok' : Kernel → Slot × Call → Prop}
    (admitted : ∀ k cur act, (∀ program, act ≠ .exec program) → ok k (cur, act) → ok' k (cur, act))
    (reach : (processCalls m).Reach ok k) : (memoryCalls m).Reach ok' k := by
  induction reach with
  | init first => exact .init first
  | @step k a t _ allowed stepped ih =>
    obtain ⟨cur, act⟩ := a
    have other : ∀ program, act ≠ .exec program := by
      rintro program rfl
      simp [processCalls, OfProcess] at stepped
    refine .step ih (admitted k cur act other allowed) ?_
    cases act with
    | exec program => exact absurd rfl (other program)
    | _ => exact stepped

/-- What a call touches that runs to its end. -/
def touched (c : UserCall) (k : Kernel) (cur : Slot) (esp : Nat) : List Access :=
  (c.accesses (running k cur) cur esp).toOption.getD []

theorem accesses_of_touched (member : a ∈ touched c k cur esp) :
    c.accesses (running k cur) cur esp = .ok (touched c k cur esp) := by
  unfold touched at *
  cases ran : c.accesses (running k cur) cur esp with
  | error why =>
    rw [ran] at member
    cases member
  | ok accesses => rfl

end Xv6.Syscall
