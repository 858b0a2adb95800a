import Xv6.Proc.Stacks

/-!
# Stacks and heap of a process

The address space stays sound in every run in which the calls keep the thread group, no `sbrk` goes below the
end of a stack region, and `thread_create` finds the end of memory page-aligned when there is no empty
region. `exec` leaves a sound address space only to a process without worker threads and empty regions.
-/

namespace Xv6.Proc

open Function (update)
open Regions Vm Steps

variable {k k' : Kernel} {m cur : Slot} {d c : Nat} {act : Call}

/-! ### The calls -/

/-- A call by a thread of the process with main thread `m`, of those that move its memory. -/
def OfProcess (m : Slot) (k : Kernel) : Slot × Call → Prop
  | (cur, act) =>
    getHighestMaster k cur = .ok m ∧
      match act with
      | .sbrk _ | .threadCreate | .threadExit _ | .threadJoin _ => True
      | .resume =>
        match k.context cur with
        | .join _ _ => True
        | _ => False
      | _ => False

instance (m : Slot) (k : Kernel) (a : Slot × Call) : Decidable (OfProcess m k a) := by
  obtain ⟨cur, act⟩ := a
  unfold OfProcess
  cases act
  case resume =>
    dsimp only
    cases k.context cur <;> infer_instance
  all_goals infer_instance

/-- A main thread about to call `exec`, alone and without empty stack regions. -/
structure Single (m : Slot) (k : Kernel) : Prop where
  intact : Integrity k.view
  clean : Clean k.view
  used : k.state m ≠ .UNUSED
  root : k.master m = none
  alone : ∀ w, ¬Worker k.view m w
  empty : k.emptystackcnt m = 0
  /-- its page directory has not been freed -/
  owned : k.pgdir m ∉ k.mem.free

/-- The calls of one process after a successful `exec`. -/
def processCalls (m : Slot) : System Kernel (Slot × Call) where
  init k := ∃ k₀ program k₁, Single m k₀ ∧ exec k₀ m program = .ok (.returns 0, k₁) ∧
    k = takeOff k₁ m (.returns 0)
  step k a := if OfProcess m k a then step k a else none

def processSpace (m : Slot) (k : Kernel) : Space Slot := stackSpace m (k.pgdir m) k.view k.image

/-- All stack regions end at or below `top`. -/
def StacksBelow (m : Slot) (v : View) (a : Image) (top : Nat) : Prop :=
  a.originalbase m + 2 * PGSIZE ≤ top ∧
    (∀ w, Worker v m w → a.originalbase w + 2 * PGSIZE ≤ top) ∧
    ∀ j < a.emptystackcnt m, a.emptystacks m j + 2 * PGSIZE ≤ top

instance (m : Slot) (v : View) (a : Image) (top : Nat) : Decidable (StacksBelow m v a top) := by
  unfold StacksBelow
  infer_instance

theorem StacksBelow.base {v : View} {a : Image} {top b : Nat} {o : Owner Slot}
    (below : StacksBelow m v a top) (found : stackBase m v a o = some b) : b + 2 * PGSIZE ≤ top := by
  obtain ⟨main, workers, empty⟩ := below
  cases o with
  | exec =>
    cases found
    exact main
  | thread w =>
    simp only [stackBase] at found
    split at found
    next worker =>
      cases found
      exact workers w worker
    · cases found
  | empty j =>
    simp only [stackBase] at found
    split at found
    next listed =>
      cases found
      exact empty j listed
    · cases found

/-- `sbrk` does not go below a stack region, and `thread_create` without an empty region finds
the end of memory page-aligned. -/
def Suits (m : Slot) (v : View) (a : Image) : Call → Prop
  | .sbrk n => n < 0 → StacksBelow m v a (uint32 (a.sz m + n))
  | .threadCreate => a.emptystackcnt m = 0 → PGSIZE ∣ a.sz m
  | _ => True

instance (m : Slot) (v : View) (a : Image) (act : Call) : Decidable (Suits m v a act) := by
  unfold Suits
  cases act <;> infer_instance

/-- The call keeps the thread groups and suits the layout. -/
def KeepsLayout (m : Slot) (k : Kernel) (a : Slot × Call) : Prop :=
  KeepsGroups k a ∧ Suits m k.view k.image a.2

instance (m : Slot) (k : Kernel) (a : Slot × Call) : Decidable (KeepsLayout m k a) := by
  unfold KeepsLayout
  infer_instance

/-! ### One call -/

/-- A process with main thread `m` and page directory `d` whose address space is sound. -/
structure Laid (m : Slot) (d : Nat) (k : Kernel) : Prop where
  intact : Integrity k.view
  clean : Clean k.view
  root : k.master m = none
  main : ∃ pid, k.view.ident m = some (pid, d)
  sound : (stackSpace m d k.view k.image).Sound

theorem Laid.congr (laid : Laid m d k) (view : k'.view = k.view) (image : k'.image = k.image) :
    Laid m d k' := by
  obtain ⟨intact, clean, root, main, sound⟩ := laid
  refine ⟨view ▸ intact, view ▸ clean, (congrFun (congrArg View.master view) m).trans root,
    view ▸ main, ?_⟩
  rw [view, image]
  exact sound

theorem Laid.group (laid : Laid m d k) : ∃ l, Grouped k.view m l ∧ ∀ u ∈ m :: l, k.pgdir u = d := by
  obtain ⟨pid, ident⟩ := laid.main
  obtain ⟨l, group⟩ := laid.intact.group laid.root (by simp [ident])
  refine ⟨l, group, fun u member => ?_⟩
  have same : k.view.ident u = some (pid, d) := by
    rcases List.mem_cons.mp member with rfl | behind
    · exact ident
    · exact (group.ident u behind).trans ident
  have used := ident_ne_none.mp (group.used member)
  simp only [Kernel.view, if_neg used, Option.some.injEq, Prod.mk.injEq] at same
  exact same.2

theorem Grouped.of_highest {l : List Slot} (group : Grouped k.view m l)
    (used : k.state cur ≠ .UNUSED) (highest : getHighestMaster k cur = .ok m) : cur ∈ m :: l :=
  (group.members cur).mpr ⟨ident_ne_none.mpr used, getHighestMaster_ends highest⟩

/-- A pass of `thread_join`. -/
theorem joinPass_sound {thread : Nat} {found : Bool} {outcome : Outcome} (laid : Laid m d k)
    (used : k.state cur ≠ .UNUSED) (highest : getHighestMaster k cur = .ok m)
    (stays : ¬Orphans k.view k'.view) (ran : joinPass k cur thread found = .ok (outcome, k')) :
    (stackSpace m d k'.view k'.image).Sound ∧ k'.view.ident m = k.view.ident m ∧
      k'.view.master m = k.view.master m := by
  obtain ⟨l, group, pgdir⟩ := laid.group
  have member := group.of_highest used highest
  rcases joinPass_cases ran with ⟨w, r, k₁, behind, dealloc, rfl⟩ | rfl | ⟨found', rfl⟩
  · have view : (release { k₁ with retval := update k₁.retval w 0 }).view = k₁.view := rfl
    have image : (release { k₁ with retval := update k₁.retval w 0 }).image = k₁.image := rfl
    rw [view] at stays ⊢
    rw [image]
    rcases deallocThread_view dealloc with ⟨_, rfl⟩ | ⟨worker, _, reclaimed⟩
    · exact ⟨laid.sound, rfl, rfl⟩
    · -- the thread found stands behind the caller in the list of the group
      obtain ⟨xs, ys, split⟩ := List.append_of_mem member
      have inside : w ∈ m :: l := by
        rw [split]
        simp [behind xs ys (split ▸ group.linked)]
      have ne : w ≠ m := by
        rintro rfl
        exact worker laid.root
      have inList : w ∈ l := (List.mem_cons.mp inside).resolve_left ne
      replace reclaimed : k₁.view = k.view.reclaim w := reclaimed
      rw [reclaimed] at stays ⊢
      refine ⟨?_, Function.update_of_ne (Ne.symm ne) .., Function.update_of_ne (Ne.symm ne) ..⟩
      exact deallocThread_sound (k := { k with ptableLock := true }) laid.sound laid.intact
        laid.clean group inList worker (pgdir w inside) stays dealloc
  · exact ⟨laid.sound, rfl, rfl⟩
  · have view := view_sleep (k := { k with ptableLock := true }) used (.proc cur)
      (.join thread found')
    rw [view]
    exact ⟨laid.sound, rfl, rfl⟩

theorem call_sound {outcome : Outcome} (laid : Laid m d k) (running : k.state cur = .RUNNING)
    (ofProcess : OfProcess m k (cur, act)) (stays : ¬Orphans k.view k'.view)
    (placed : ¬Strands k.view k'.view)
    (suits : Suits m k.view k.image act)
    (ran : call k cur act = .ok (outcome, k')) :
    (stackSpace m d k'.view k'.image).Sound ∧ k'.view.ident m = k.view.ident m ∧
      k'.view.master m = k.view.master m := by
  obtain ⟨highest, which⟩ := ofProcess
  have used : k.state cur ≠ .UNUSED := by
    rw [running]
    decide
  obtain ⟨l, group, pgdir⟩ := laid.group
  have member := group.of_highest used highest
  cases act with
  | sbrk n =>
    obtain ⟨⟨r, k₁⟩, grown, ran⟩ := bind_ok ran
    cases ran
    refine ⟨?_, by rw [growproc_view grown], by rw [growproc_view grown]⟩
    exact growproc_sound laid.sound highest (pgdir cur member)
      (fun negative o b found => (suits negative).base found) grown
  | threadCreate =>
    obtain ⟨⟨r, k₁⟩, created, ran⟩ := bind_ok ran
    cases ran
    refine ⟨threadCreate_sound laid.sound laid.intact laid.clean group member (pgdir cur member)
      suits placed created, ?_⟩
    have ne : ∀ np, k.view.firstUnused = some np → m ≠ np := by
      rintro np first rfl
      exact group.used List.mem_cons_self (View.firstUnused_ident first)
    rcases threadCreate_cases used created with ⟨_, view⟩ | ⟨np, id, k₂, _, first, _, rest⟩
    · rw [view]
      exact ⟨rfl, rfl⟩
    · rcases rest with ⟨_, view⟩ | ⟨_, _, _, view⟩
      · rw [view]
        exact ⟨Function.update_of_ne (ne np first) .., rfl⟩
      · rw [view]
        exact ⟨Function.update_of_ne (ne np first) .., Function.update_of_ne (ne np first) ..⟩
  | threadExit retval =>
    obtain ⟨k₁, exited, ran⟩ := bind_ok ran
    cases ran
    rw [threadExit_view used exited, threadExit_image exited]
    exact ⟨laid.sound, rfl, rfl⟩
  | threadJoin thread => exact joinPass_sound laid used highest stays ran
  | resume =>
    replace ran : resume k cur = .ok (outcome, k') := ran
    unfold resume at ran
    simp only at which
    split at which
    next thread found context =>
      rw [context] at ran
      exact joinPass_sound (k := clearChan k cur) (laid.congr rfl rfl) used highest stays ran
    · exact which.elim
  | _ => exact which.elim

theorem takeOff_image (k : Kernel) (cur : Slot) (outcome : Outcome) :
    (takeOff k cur outcome).image = k.image := by
  cases outcome <;> rfl

theorem Laid.step (laid : Laid m d k) (ofProcess : OfProcess m k (cur, act))
    (keeps : KeepsLayout m k (cur, act)) (stepped : step k (cur, act) = some k') : Laid m d k' := by
  have used : k.state cur ≠ .UNUSED := by
    rw [step_ready stepped]
    decide
  obtain ⟨groups, suits⟩ := keeps
  obtain ⟨stays, placed⟩ := groups k' stepped
  have effect := step_effect (fun _ _ => laid.intact.intact (ident_ne_none.mpr used)) stepped
  obtain ⟨intact, clean⟩ :=
    effect.groups (ident_ne_none.mpr used) laid.intact laid.clean stays placed
  have view := view_setState used (show ProcState.RUNNING ≠ .UNUSED by decide)
  simp only [Proc.step] at stepped
  split at stepped
  · split at stepped
    next outcome k₁ ran =>
      cases stepped
      rw [takeOff_view] at stays placed intact clean
      rw [← view] at stays placed
      obtain ⟨sound, main, root⟩ := call_sound (laid.congr view rfl) (Function.update_self ..)
        ofProcess stays placed (view ▸ suits) ran
      rw [view] at main
      obtain ⟨pid, ident⟩ := laid.main
      have laid₁ : Laid m d k₁ :=
        ⟨intact, clean, root.trans laid.root, ⟨pid, main.trans ident⟩, sound⟩
      exact laid₁.congr (takeOff_view ..) (takeOff_image ..)
    · cases stepped
  · cases stepped

/-! ### `exec` -/

theorem loadSegments_page {pgdir : Nat} : ∀ {segments : List Nat} {sz sz' : Nat} {mem mem' : Memory},
    loadSegments pgdir segments sz mem = .ok (some sz', mem') → sz < KERNBASE →
    mem.page pgdir = fill (fun _ => none) 0 (pages sz) (some true) →
    sz' < KERNBASE ∧ mem'.page pgdir = fill (fun _ => none) 0 (pages sz') (some true) := by
  intro segments
  induction segments with
  | nil =>
    intro sz sz' mem mem' ran user page
    cases ran
    exact ⟨user, page⟩
  | cons last rest ih =>
    intro sz sz' mem mem' ran user page
    obtain ⟨⟨sz₁, mem₁⟩, alloc, loop⟩ := bind_ok ran
    clear ran
    simp only at loop
    split at loop
    · cases loop
    next success =>
      rcases allocuvm_page alloc with ⟨rfl, order, user₁, page₁⟩ | ⟨rfl, _, rfl⟩ | ⟨failed, _⟩
      · refine ih loop user₁ ?_
        rw [page₁, Function.update_self, page]
        exact fill_fill (Nat.zero_le _) (Nat.div_le_div_right (by omega))
      · exact ih loop user page
      · exact absurd failed success

/-- What `exec` has before it commits: a new page directory with the program and one stack. -/
theorem execLoad_image {program : Option Program} {old : Nat}
    (ran : execLoad k m program = .ok (some old, k')) :
    ∃ pgdir mem c, pgdir ∈ k.mem.free ∧ c * PGSIZE + 2 * PGSIZE < KERNBASE ∧
      mem.page pgdir = Space.stackPages (fill (fun _ => none) 0 c (some true)) c ∧
      old = k.pgdir m ∧ k' =
        { k with
          originalbase := update k.originalbase m (c * PGSIZE)
          mem := mem
          pgdir := update k.pgdir m pgdir
          sz := update k.sz m (c * PGSIZE + 2 * PGSIZE) } := by
  unfold execLoad at ran
  split at ran
  · cases ran
  next program =>
    obtain ⟨⟨pgdir, mem⟩, made, ran⟩ := bind_ok ran
    simp only at ran
    split at ran
    · cases ran
    next success =>
      obtain ⟨free, empty⟩ := setupkvm_page made success
      obtain ⟨⟨loaded, mem₁⟩, load, ran⟩ := bind_ok ran
      simp only at ran
      split at ran
      · obtain ⟨_, _, ran⟩ := bind_ok ran
        cases ran
      next sz =>
        obtain ⟨user, page⟩ := loadSegments_page load (by decide) (by
          rw [empty, Function.update_self]
          exact fill_empty.symm)
        rw [PGROUNDUP_eq] at ran
        obtain ⟨⟨top, mem₂⟩, alloc, ran⟩ := bind_ok ran
        simp only at ran
        split at ran
        · obtain ⟨_, _, ran⟩ := bind_ok ran
          cases ran
        next stack =>
          obtain ⟨mem₃, guard, ran⟩ := bind_ok ran
          have small : pages sz * PGSIZE + 2 * PGSIZE < 2 ^ 32 := by
            simp only [pages, PGSIZE, KERNBASE] at user ⊢
            omega
          obtain ⟨rfl, user', page'⟩ := stack_page small alloc stack guard
          split at ran
          · obtain ⟨same, rfl⟩ := Prod.mk.inj (Except.ok.inj ran)
            refine ⟨pgdir, mem₃, pages sz, free, user', ?_, (Option.some.inj same).symm, rfl⟩
            rw [page', Function.update_self, page]
          · obtain ⟨_, _, ran⟩ := bind_ok ran
            cases ran

theorem sleepLoop_eq : ∀ {rounds : Nat} {q : Option Slot} {k k' : Kernel},
    sleepLoop cur rounds q k = .ok k' → ∃ state, k' = { k with state := state } := by
  intro rounds
  induction rounds with
  | zero =>
    intro q k k' ran
    cases q with
    | none =>
      cases ran
      exact ⟨_, rfl⟩
    | some p => cases ran
  | succ rounds ih =>
    intro q k k' ran
    cases q with
    | none =>
      cases ran
      exact ⟨_, rfl⟩
    | some p =>
      obtain ⟨state, rfl⟩ := ih ran
      refine ⟨state, ?_⟩
      split <;> rfl

theorem sleepOtherThreads_eq (ran : sleepOtherThreads k cur = .ok k') :
    ∃ state, k' = { k with state := state, ptableLock := false } := by
  unfold sleepOtherThreads at ran
  obtain ⟨k₁, locked, ran⟩ := bind_ok ran
  obtain rfl := acquire_eq locked
  obtain ⟨h, _, ran⟩ := bind_ok ran
  obtain ⟨k₂, slept, ran⟩ := bind_ok ran
  cases ran
  obtain ⟨state, rfl⟩ := sleepLoop_eq slept
  exact ⟨state, rfl⟩

/-- The regions of a process with the stack of `exec` only. -/
theorem stackBase_single {v : View} {a : Image} (alone : ∀ w, ¬Worker v m w)
    (empty : a.emptystackcnt m = 0) (start : a.originalbase m = c * PGSIZE) :
    stackBase m v a = update (fun _ => none) .exec (some (c * PGSIZE)) := by
  funext o
  cases o with
  | exec => simp [stackBase, start]
  | thread w => simp [stackBase, alone w]
  | empty j => simp [stackBase, empty]

theorem Single.next (single : Single m k) : k.threads.next m = none ∧ Grouped k.view m [] := by
  obtain ⟨l, group⟩ := single.intact.group single.root (ident_ne_none.mpr single.used)
  have none_ : l = [] := List.eq_nil_iff_forall_not_mem.mpr fun w member =>
    single.alone w (group.worker_iff.mpr member)
  subst none_
  have linked : k.threads.Linked ([] ++ m :: []) := group.linked
  exact ⟨linked.at.2, group⟩

/-- Without worker threads all that is left to do is to free the old page directory. -/
theorem execCommit_alone {old : Nat} {outcome : Outcome} (root : k.master cur = none)
    (next : k.threads.next cur = none) (ran : execCommit k cur old = .ok (outcome, k')) :
    ∃ mem, freevm k.mem old = .ok mem ∧ k' = { k with mem := mem, ptableLock := false } := by
  unfold execCommit at ran
  rw [if_neg (not_not.mpr root)] at ran
  obtain ⟨k₁, locked, ran⟩ := bind_ok ran
  obtain rfl := acquire_eq locked
  obtain ⟨⟨found, k₂⟩, reaped, ran⟩ := bind_ok ran
  replace reaped : reapLoop true NPROC (k.threads.next cur) false { k with ptableLock := true } =
    .ok (found, k₂) := reaped
  rw [next] at reaped
  cases reaped
  obtain ⟨mem, freed, ran⟩ := bind_ok ran
  cases ran
  exact ⟨mem, freed, rfl⟩

theorem view_execLoad (k : Kernel) (m : Slot) (used : k.state m ≠ .UNUSED) (pgdir base sz : Nat)
    (mem : Memory) :
    ({ k with
        originalbase := update k.originalbase m base
        mem := mem
        pgdir := update k.pgdir m pgdir
        sz := update k.sz m sz } : Kernel).view = k.view.load m (k.pid m, pgdir) := by
  ext1
  · refine ident_update k m (fun q other => ?_) ?_
    · simp [other]
    · simp [Kernel.view, used]
  all_goals rfl

/-- A successful `exec` by a main thread alone leaves a sound address space. -/
theorem exec_laid {program : Option Program} (single : Single m k)
    (ran : exec k m program = .ok (.returns 0, k')) : ∃ d, Laid m d k' := by
  unfold exec at ran
  split at ran
  · cases ran
  obtain ⟨k₁, slept, ran⟩ := bind_ok ran
  have view₁ := sleepOtherThreads_view slept
  have used₁ : k₁.state m ≠ .UNUSED := by
    rw [← ident_ne_none, view₁, ident_ne_none]
    exact single.used
  obtain ⟨state, same⟩ := sleepOtherThreads_eq slept
  obtain ⟨⟨loaded, k₂⟩, load, ran⟩ := bind_ok ran
  cases loaded with
  | none => cases ran
  | some old =>
    obtain ⟨pgdir, mem, c, free, user, page, oldIs, loaded⟩ := execLoad_image load
    obtain ⟨next, group⟩ := single.next
    have view₂ : k₂.view = k.view.load m (k₁.pid m, pgdir) := by
      rw [loaded, view_execLoad k₁ m used₁, view₁]
    have root₂ : k₂.master m = none := (congrFun (congrArg View.master view₂) m).trans single.root
    have next₂ : k₂.threads.next m = none :=
      (congrArg (fun v : View => v.threads.next m) view₂).trans next
    obtain ⟨mem', freed, rfl⟩ := execCommit_alone root₂ next₂ ran
    -- the new page directory was free, so it is not the old one
    have other : pgdir ≠ old := by
      rintro rfl
      rw [oldIs, same] at free
      exact single.owned free
    have page' : mem'.page pgdir = Space.stackPages (fill (fun _ => none) 0 c (some true)) c := by
      have kept : k₂.mem = mem := by rw [loaded]
      rw [freevm_page freed, Function.update_of_ne other, kept, page]
    have alone : ∀ w, ¬Worker k₂.view m w := by
      rintro w ⟨used, ne, climb⟩
      rw [view₂] at used climb
      refine single.alone w ⟨?_, ne, climb⟩
      rwa [show (k.view.load m (k₁.pid m, pgdir)).ident w = k.view.ident w from
        Function.update_of_ne ne ..] at used
    have start : k₂.originalbase m = c * PGSIZE := by simp [loaded]
    have empty : k₂.emptystackcnt m = 0 := by
      rw [loaded, same]
      exact single.empty
    have size : k₂.sz m = c * PGSIZE + 2 * PGSIZE := by simp [loaded]
    refine ⟨pgdir, view₂ ▸ single.intact.load group _, view₂ ▸ single.clean.load _, root₂,
      ⟨k₁.pid m, ?_⟩, ?_⟩
    · exact (congrFun (congrArg View.ident view₂) m).trans (Function.update_self ..)
    · have sound := (Space.sound_program (τ := Slot) (c := c) (by omega)).carve (o := .exec) trivial
        rfl user rfl
      have base := stackBase_single
        (a := ({ k₂ with mem := mem', ptableLock := false } : Kernel).image) alone empty start
      change Space.Sound (Space.mk (k₂.sz m) _ (mem'.page pgdir))
      rw [size, page']
      exact base ▸ sound

/-! ### Runs -/

theorem laid_of_reach {k : Kernel} (reach : (processCalls m).Reach (KeepsLayout m) k) :
    ∃ d, Laid m d k := by
  refine reach.invariant (?_ : ∀ k, (processCalls m).init k → ∃ d, Laid m d k) ?_
  · rintro k ⟨k₀, program, k₁, single, ran, rfl⟩
    obtain ⟨d, laid⟩ := exec_laid single ran
    exact ⟨d, laid.congr (takeOff_view ..) (takeOff_image ..)⟩
  · rintro k ⟨cur, act⟩ k' ⟨d, laid⟩ keeps stepped
    simp only [processCalls] at stepped
    split at stepped
    next ofProcess => exact ⟨d, laid.step ofProcess keeps stepped⟩
    · cases stepped

/-- The first process, once it has called `exec` on a program. -/
def firstExec (free : List Nat) (program : Program) : Option Kernel := do
  let k ← (userinit free).toOption
  let running := { k with state := update k.state 0 .RUNNING }
  if k.state 0 ≠ .UNUSED ∧ k.master 0 = none ∧ (∀ w, ¬Worker running.view 0 w) ∧
      k.emptystackcnt 0 = 0 ∧ k.pgdir 0 ∉ k.mem.free then
    match exec running 0 (some program) with
    | .ok (.returns 0, k) => some (takeOff k 0 (.returns 0))
    | _ => none
  else none

theorem process_of_run (ok : Kernel → Slot × Call → Prop) [∀ k a, Decidable (ok k a)]
    (free : List Nat) (program : Program) (labels : List (Slot × Call)) {P : Kernel → Bool}
    (ran : ((firstExec free program).bind ((processCalls 0).exec ok labels)).any P = true) :
    ∃ k, (processCalls 0).Reach ok k ∧ P k = true := by
  cases started : firstExec free program with
  | none => simp [started] at ran
  | some k₀ =>
    have init : (processCalls 0).init k₀ := by
      unfold firstExec at started
      obtain ⟨k₁, booted, started⟩ := Option.bind_eq_some_iff.mp started
      simp only at started
      split at started
      next single =>
        split at started
        next k₂ ran =>
          cases started
          obtain ⟨used, root, alone, empty, owned⟩ := single
          cases booted' : userinit free with
          | error why => simp [booted', Except.toOption] at booted
          | ok k =>
            simp only [booted', Except.toOption, Option.some.injEq] at booted
            subst booted
            obtain ⟨intact, clean⟩ := groups_of_reach (.init ⟨free, booted'⟩)
            have view := view_setState used (show ProcState.RUNNING ≠ .UNUSED by decide)
            refine ⟨{ k with state := update k.state 0 .RUNNING }, some program, k₂,
              ⟨?_, ?_, ?_, root, alone, empty, owned⟩, ran, rfl⟩
            · rw [view]
              exact intact
            · rw [view]
              exact clean
            · simp
        · cases started
      · cases started
    rw [started, Option.bind_some] at ran
    exact System.Reach.of_exec ok labels init ran

end Xv6.Proc
