import Xv6.Exec.Failure
import Xv6.Proc.Phases
import Xv6.Syscall.Args

/-!
# What a successful `exec` starts from

`exec` installs the new size before the old threads are reclaimed, and `dealloc_thread` moves the size or the
list of empty stacks of the highest master it then finds. So the address space is a fresh one when no
thread leads to the caller along its creators, the caller has no empty stacks and the page directories in
use are not free.
-/

namespace Xv6.Exec

open Function (update)
open Bytes (Byte)
open Proc Regions Vm Steps

variable {s s' : Host} {k k' k₁ : Kernel} {cur w : Slot} {path : List Byte} {ip : Option File}
  {argv : List (List Byte)} {file : File} {m m' : Memory} {pgdir d : Nat} {outcome : Outcome}

/-! ### The pages of the image -/

theorem loadHeader_page {ph : Proghdr} {sz sz' : Nat} (user : sz < KERNBASE)
    (page : m.page pgdir = fill (fun _ => none) 0 (pages sz) (some true))
    (ran : loadHeader pgdir file ph sz m = .ok (some sz', m')) :
    sz' < KERNBASE ∧ m'.page pgdir = fill (fun _ => none) 0 (pages sz') (some true) := by
  unfold loadHeader at ran
  split at ran
  · cases ran
    exact ⟨user, page⟩
  split at ran
  · cases ran
  split at ran
  · cases ran
  obtain ⟨⟨sz₁, m₁⟩, alloc, ran⟩ := bind_ok ran
  simp only at ran
  split at ran
  · cases ran
  next success =>
    split at ran
    · cases ran
    obtain ⟨loaded, _, ran⟩ := bind_ok ran
    cases loaded <;> cases ran
    rcases allocuvm_page alloc with ⟨rfl, order, user₁, page₁⟩ | ⟨rfl, _, rfl⟩ | ⟨failed, _⟩
    · refine ⟨user₁, ?_⟩
      rw [page₁, Function.update_self, page]
      exact fill_fill (Nat.zero_le _) (Nat.div_le_div_right (by omega))
    · exact ⟨user, page⟩
    · exact absurd failed success

theorem headerLoop_page : ∀ {rounds off sz sz' : Nat} {m : Memory}, sz < KERNBASE →
    m.page pgdir = fill (fun _ => none) 0 (pages sz) (some true) →
    headerLoop pgdir file rounds off sz m = .ok (some sz', m') →
    sz' < KERNBASE ∧ m'.page pgdir = fill (fun _ => none) 0 (pages sz') (some true) := by
  intro rounds
  induction rounds with
  | zero =>
    intro off sz sz' m user page ran
    cases ran
    exact ⟨user, page⟩
  | succ rounds ih =>
    intro off sz sz' m user page ran
    simp only [headerLoop] at ran
    split at ran
    · cases ran
    · obtain ⟨⟨loaded, m₁⟩, header, ran⟩ := bind_ok ran
      cases loaded with
      | none => cases ran
      | some sz₁ =>
        obtain ⟨user₁, page₁⟩ := loadHeader_page user page header
        exact ih user₁ page₁ ran

/-- A loaded program fills the memory from address 0 on, in a page directory that was free. -/
theorem load_image {image : Image} (ran : load m file = .ok (some image, m')) :
    image.pgdir ∈ m.free ∧ image.sz < KERNBASE ∧
      m'.page image.pgdir = fill (fun _ => none) 0 (pages image.sz) (some true) := by
  unfold load at ran
  split at ran
  · cases ran
  simp only at ran
  split at ran
  · cases ran
  obtain ⟨⟨pgdir, m₁⟩, made, ran⟩ := bind_ok ran
  simp only at ran
  split at ran
  · cases ran
  next success =>
    obtain ⟨free, empty⟩ := setupkvm_page made success
    obtain ⟨⟨loaded, m₂⟩, headers, ran⟩ := bind_ok ran
    cases loaded with
    | none =>
      obtain ⟨m₃, _, ran⟩ := bind_ok ran
      cases ran
    | some sz =>
      cases ran
      refine ⟨free, headerLoop_page (by decide) ?_ headers⟩
      rw [empty, Function.update_self]
      exact fill_empty.symm

theorem makeStack_image {sz top sp : Nat} (user : sz < KERNBASE)
    (ran : makeStack m pgdir (PGROUNDUP sz) argv = .ok (some (top, sp), m')) :
    top = PGROUNDUP sz + 2 * PGSIZE ∧ top < KERNBASE ∧
      m'.page pgdir = Space.stackPages (m.page pgdir) (pages sz) := by
  unfold makeStack at ran
  rw [PGROUNDUP_eq] at ran ⊢
  obtain ⟨⟨top, m₁⟩, alloc, ran⟩ := bind_ok ran
  simp only at ran
  split at ran
  · obtain ⟨_, _, ran⟩ := bind_ok ran
    cases ran
  next success =>
    obtain ⟨m₂, guard, ran⟩ := bind_ok ran
    have small : pages sz * PGSIZE + 2 * PGSIZE < 2 ^ 32 := by
      simp only [pages, PGSIZE, KERNBASE] at user ⊢
      omega
    obtain ⟨rfl, below, page⟩ := stack_page small alloc success guard
    obtain ⟨pushed, _, ran⟩ := bind_ok ran
    cases pushed with
    | none =>
      obtain ⟨_, _, ran⟩ := bind_ok ran
      cases ran
    | some sp' =>
      cases ran
      refine ⟨rfl, below, ?_⟩
      rw [page, Function.update_self]

/-- Image and stack together have every page below the end of the stack, and no other. -/
theorem stackPages_image {sz i : Nat} :
    Space.stackPages (fill (fun _ => none) 0 (pages sz) (some true)) (pages sz) i ≠ none ↔
      i * PGSIZE < PGROUNDUP sz + 2 * PGSIZE := by
  have bound : i * PGSIZE < PGROUNDUP sz + 2 * PGSIZE ↔ i < pages sz + 2 := by
    rw [PGROUNDUP_eq]
    simp only [PGSIZE]
    omega
  rw [bound]
  rcases Nat.lt_or_ge i (pages sz) with low | high
  · rw [Space.stackPages_outside (.inl low), fill_inside (Nat.zero_le _) low]
    exact iff_of_true (by rintro ⟨⟩) (by omega)
  rcases Nat.lt_or_ge i (pages sz + 2) with inside | above
  · refine iff_of_true ?_ inside
    by_cases first : i = pages sz
    · rw [first, Space.stackPages, Function.update_self]
      rintro ⟨⟩
    · rw [Space.stackPages, Function.update_of_ne first, fill_inside high inside]
      rintro ⟨⟩
  · rw [Space.stackPages_outside (.inr above), fill_outside (.inr high)]
    exact iff_of_false (not_not.mpr rfl) (by omega)

/-! ### A process apart from the others -/

/-- A main thread `cur` that no other thread leads to, and that shares its page directory `d` with
nobody. -/
structure Apart (k : Kernel) (cur : Slot) (d : Nat) : Prop where
  alive : k.phase cur = .waiting ∨ k.phase cur = .running
  root : k.master cur = none
  alone : ∀ w, w ≠ cur → ¬Chain.On k.master w cur
  owner : ∀ w, w ≠ cur → k.phase w ≠ .unused ∨ k.master w ≠ none → k.pgdir w ≠ d

/-- `cur` is still apart, and its memory is as it was. -/
structure Spared (cur : Slot) (d : Nat) (k k' : Kernel) : Prop where
  apart : Apart k' cur d
  pgdir : k'.pgdir cur = k.pgdir cur
  sz : k'.sz cur = k.sz cur
  emptystackcnt : k'.emptystackcnt cur = k.emptystackcnt cur
  page : k'.mem.page d = k.mem.page d

namespace Spared

theorem refl (apart : Apart k cur d) : Spared cur d k k := ⟨apart, rfl, rfl, rfl, rfl⟩

theorem trans (first : Spared cur d k k₁) (second : Spared cur d k₁ k') : Spared cur d k k' :=
  ⟨second.apart, second.pgdir.trans first.pgdir, second.sz.trans first.sz,
    second.emptystackcnt.trans first.emptystackcnt, second.page.trans first.page⟩

theorem idle (apart : Apart k cur d) (live : ∀ p, k'.phase p ≠ .unused → k.phase p ≠ .unused)
    (alive : k'.phase cur = .waiting ∨ k'.phase cur = .running) (master : k'.master = k.master)
    (pgdir : k'.pgdir = k.pgdir) (sz : k'.sz = k.sz) (cnt : k'.emptystackcnt = k.emptystackcnt)
    (mem : k'.mem = k.mem) : Spared cur d k k' where
  apart :=
    { alive
      root := by rw [master, apart.root]
      alone := fun w other => by
        rw [master]
        exact apart.alone w other
      owner := fun w other used => by
        rw [pgdir]
        refine apart.owner w other (used.imp (live w) fun creator => ?_)
        rwa [master] at creator }
  pgdir := congrFun pgdir cur
  sz := congrFun sz cur
  emptystackcnt := congrFun cnt cur
  page := by rw [mem]

end Spared

/-- A way that does not begin at `x` is not changed where a pointer is cleared. -/
theorem on_of_cleared {f : Slot → Option Slot} {x y z : Slot} (on : Chain.On (update f x none) y z) : Chain.On f y z := by
  induction on with
  | here => exact .here
  | @step y v z next _ ih =>
    refine .step ?_ ih
    by_cases same : y = x
    · rw [same, Function.update_self] at next
      cases next
    · rwa [Function.update_of_ne same] at next

/-- `dealloc_thread` of a thread that does not lead to `cur`. -/
theorem deallocThread_spared {r : Int} (apart : Apart k cur d) (ran : deallocThread k w = .ok (r, k')) :
    Spared cur d k k' := by
  unfold deallocThread at ran
  split at ran
  · cases ran
    exact .refl apart
  next worker =>
    have other : w ≠ cur := by
      rintro rfl
      exact worker apart.root
    obtain ⟨h, highest, ran⟩ := bind_ok ran
    obtain ⟨⟨r', mem⟩, freed, ran⟩ := bind_ok ran
    obtain ⟨k₁, locked, ran⟩ := bind_ok ran
    obtain rfl := acquireMem_eq locked
    obtain ⟨k₂, given, ran⟩ := bind_ok ran
    cases ran
    -- the size and the stacks that change are those of the highest master, which is not `cur`
    obtain ⟨n, ends⟩ := getHighestMaster_ends highest
    have apart' : h ≠ cur := by
      rintro rfl
      exact apart.alone w other ends.on_last
    have elsewhere : mem.page d = k.mem.page d := by
      rw [(deallocuvm_page freed).2, Function.update_of_ne (apart.owner w other (.inr worker)).symm, page_kfree]
    have sizes : k₂.sz cur = k.sz cur ∧ k₂.emptystackcnt cur = k.emptystackcnt cur := by
      unfold giveBackStack at given
      split at given
      · split at given
        · cases given
          refine ⟨rfl, ?_⟩
          simp [clearThread, apart'.symm, other.symm]
        · cases given
      · cases given
        refine ⟨?_, ?_⟩ <;> simp [clearThread, apart'.symm, other.symm]
    obtain ⟨lists, cnt, sz, same⟩ := giveBackStack_frame given
    have master : k₂.master = update k.master w none := by
      rw [same]
      rfl
    have pgdir : k₂.pgdir = k.pgdir := by
      rw [same]
      rfl
    have phase : k₂.phase = update k.phase w .unused := by
      rw [same]
      exact phase_setState k w .UNUSED
    have mem₂ : k₂.mem = mem := by rw [same]
    refine ⟨⟨?_, ?_, fun v apart₁ on => ?_, fun v apart₁ used => ?_⟩, congrFun pgdir cur, sizes.1, sizes.2, ?_⟩
    · change k₂.phase cur = _ ∨ k₂.phase cur = _
      rw [phase, Function.update_of_ne other.symm]
      exact apart.alive
    · change k₂.master cur = none
      rw [master, Function.update_of_ne other.symm]
      exact apart.root
    · change Chain.On k₂.master v cur at on
      rw [master] at on
      exact apart.alone v apart₁ (on_of_cleared on)
    · change k₂.phase v ≠ _ ∨ k₂.master v ≠ none at used
      change k₂.pgdir v ≠ d
      rw [phase, master] at used
      rw [pgdir]
      refine apart.owner v apart₁ ?_
      by_cases here : v = w
      · exact .inr (here ▸ worker)
      · rwa [Function.update_of_ne here, Function.update_of_ne here] at used
    · change k₂.mem.page d = _
      rw [mem₂, elsewhere]

/-- The loop of `exit`. -/
theorem reapLoop_spared : ∀ {rounds : Nat} {q : Option Slot} {found found' : Bool} {k k' : Kernel}, Apart k cur d →
    reapLoop false rounds q found k = .ok (found', k') → Spared cur d k k' := by
  intro rounds
  induction rounds with
  | zero =>
    intro q found found' k k' apart ran
    cases q <;> cases ran
    exact .refl apart
  | succ rounds ih =>
    intro q found found' k k' apart ran
    cases q with
    | none =>
      cases ran
      exact .refl apart
    | some p =>
      simp only [reapLoop, Bool.false_eq_true, if_false] at ran
      split at ran
      · obtain ⟨⟨r, k₁⟩, dealloc, ran⟩ := bind_ok ran
        have first := deallocThread_spared apart dealloc
        exact first.trans (ih first.apart ran)
      · have phase := phase_killThread k p
        have first : Spared cur d k (killThread k p) :=
          .idle apart (fun q used => by rwa [phase] at used) (by rw [phase]; exact apart.alive) rfl rfl rfl rfl rfl
        exact first.trans (ih first.apart ran)

theorem sleep_spared {chan : Chan} {context : Context} {p : Slot} (apart : Apart k cur d) (used : k.phase p ≠ .unused) :
    Spared cur d k (sleep k p chan context) := by
  have phase := phase_sleep k p chan context
  refine .idle apart (fun q live => ?_) ?_ rfl rfl rfl rfl rfl
  · rw [phase] at live
    by_cases here : q = p
    · exact here ▸ used
    · rwa [Function.update_of_ne here] at live
  · rw [phase]
    by_cases here : cur = p
    · rw [here, Function.update_self]
      exact .inl rfl
    · rw [Function.update_of_ne here]
      exact apart.alive

theorem joinPass_spared {thread : Nat} {found : Bool} {p : Slot} (apart : Apart k cur d) (used : k.phase p ≠ .unused)
    (ran : joinPass k p thread found = .ok (outcome, k')) : Spared cur d k k' := by
  have locked : Apart { k with ptableLock := true } cur d := ⟨apart.alive, apart.root, apart.alone, apart.owner⟩
  rcases joinPass_frame ran with ⟨w, r, k₁, -, -, -, dealloc, -, rfl⟩ | ⟨-, rfl⟩ | ⟨found', -, rfl⟩
  · have spared := deallocThread_spared locked dealloc
    have apart₁ := spared.apart
    exact ⟨⟨apart₁.alive, apart₁.root, apart₁.alone, apart₁.owner⟩, spared.pgdir, spared.sz, spared.emptystackcnt,
      spared.page⟩
  · exact .idle apart (fun _ used => used) apart.alive rfl rfl rfl rfl rfl
  · exact sleep_spared apart used

/-- `wait` frees the page directory of an exited child, which is not `cur`. -/
theorem waitPass_spared {p : Slot} (apart : Apart k cur d) (used : k.phase p ≠ .unused)
    (ran : waitPass k p = .ok (outcome, k')) : Spared cur d k k' := by
  rcases waitPass_frame ran with ⟨c, mem, -, zombie, freed, -, rfl⟩ | ⟨-, rfl⟩ | ⟨-, rfl⟩
  · have exited := zombie_iff.mpr zombie
    have other : cur ≠ c := by
      rintro rfl
      rcases apart.alive with is | is <;> rw [exited] at is <;> cases is
    have busy : k.phase c ≠ .unused := by
      rw [exited]
      nofun
    have phase := phase_setState k c .UNUSED
    refine ⟨⟨?_, apart.root, apart.alone, fun v apart₁ live => apart.owner v apart₁ ?_⟩, rfl, rfl, ?_, ?_⟩
    · change ({ k with state := update k.state c .UNUSED } : Kernel).phase cur = _ ∨
        ({ k with state := update k.state c .UNUSED } : Kernel).phase cur = _
      rw [phase, Function.update_of_ne other]
      exact apart.alive
    · refine live.imp_left fun live => ?_
      change ({ k with state := update k.state c .UNUSED } : Kernel).phase v ≠ _ at live
      rw [phase] at live
      by_cases here : v = c
      · exact here ▸ busy
      · rwa [Function.update_of_ne here] at live
    · exact Function.update_of_ne other ..
    · rw [freevm_page freed, Function.update_of_ne (apart.owner c other.symm (.inl busy)).symm, page_kfree]
  · exact .idle apart (fun _ used => used) apart.alive rfl rfl rfl rfl rfl
  · exact sleep_spared apart used

theorem zombie_spared {p : Slot} (apart : Apart k cur d) (other : p ≠ cur) (used : k.phase p ≠ .unused)
    (phase : k'.phase = update k.phase p .zombie) (master : k'.master = k.master) (pgdir : k'.pgdir = k.pgdir)
    (sz : k'.sz = k.sz) (cnt : k'.emptystackcnt = k.emptystackcnt) (mem : k'.mem = k.mem) : Spared cur d k k' := by
  refine .idle apart (fun q live => ?_) ?_ master pgdir sz cnt mem
  · rw [phase] at live
    by_cases here : q = p
    · exact here ▸ used
    · rwa [Function.update_of_ne here] at live
  · rw [phase, Function.update_of_ne other.symm]
    exact apart.alive

theorem exitTail_spared {p : Slot} (apart : Apart k cur d) (other : p ≠ cur) (used : k.phase p ≠ .unused)
    (ran : exitTail k p = .ok k') : Spared cur d k k' := by
  obtain ⟨phase, state, killed, same⟩ := exitTail_frame ran
  refine zombie_spared apart other used phase ?_ ?_ ?_ ?_ ?_
  all_goals rw [same]

theorem threadExit_spared {p : Slot} {retval : Nat} (apart : Apart k cur d) (other : p ≠ cur)
    (used : k.phase p ≠ .unused) (ran : threadExit k p retval = .ok k') : Spared cur d k k' := by
  obtain ⟨phase, state, same⟩ := threadExit_frame ran
  refine zombie_spared apart other used phase ?_ ?_ ?_ ?_ ?_
  all_goals rw [same]

/-! ### Later calls -/

/-- The calls in which threads exit and are reclaimed. -/
def Reclaims (cur : Slot) (k : Kernel) : Slot × Call → Prop
  | (p, .exit) | (p, .threadExit _) => p ≠ cur
  | (_, .wait) | (_, .threadJoin _) => True
  | (p, .resume) => p ≠ cur ∨ k.context p ≠ .exitReap
  | _ => False

/-- `k'` comes from `k` by such calls. -/
def Reclaimed (cur : Slot) : Kernel → Kernel → Prop :=
  Relation.ReflTransGen fun k k' => ∃ a, Reclaims cur k a ∧ Proc.step k a = some k'

theorem exitReap_spared {p : Slot} (apart : Apart k cur d) (running : k.phase p = .running)
    (ran : exitReap k p = .ok (outcome, k')) : Spared cur d k k' ∧ k'.phase p ≠ .unused := by
  obtain ⟨found, k₁, loop, rest⟩ := exitReap_frame ran
  have locked : Apart { k with ptableLock := true } cur d := ⟨apart.alive, apart.root, apart.alone, apart.owner⟩
  have reaped := reapLoop_spared locked loop
  have first : Spared cur d k k₁ := ⟨reaped.apart, reaped.pgdir, reaped.sz, reaped.emptystackcnt, reaped.page⟩
  -- the caller is running, so the loop has not reclaimed it
  have still : k₁.phase p ≠ .unused := by
    rcases (reapLoop_reaped loop).1 p with same | ⟨zombie, -⟩
    · rw [same]
      exact fun is => Phase.noConfusion (running.symm.trans is)
    · exact Phase.noConfusion (running.symm.trans zombie)
  rcases rest with ⟨-, rfl⟩ | ⟨-, rfl⟩
  · refine ⟨first.trans (sleep_spared first.apart still), ?_⟩
    rw [phase_sleep, Function.update_self]
    nofun
  · have apart₁ := first.apart
    exact ⟨⟨⟨apart₁.alive, apart₁.root, apart₁.alone, apart₁.owner⟩, first.pgdir, first.sz, first.emptystackcnt,
      first.page⟩, still⟩

theorem exitFinish_spared {p : Slot} {r : Outcome × Kernel} (other : p ≠ cur)
    (first : Spared cur d k r.2) (used : r.2.phase p ≠ .unused) (ran : exitFinish p r = .ok (outcome, k')) :
    Spared cur d k k' := by
  obtain ⟨outcome₁, k₁⟩ := r
  cases outcome₁ with
  | sleeps =>
    cases ran
    exact first
  | returns value =>
    obtain ⟨k₂, tail, ran⟩ := bind_ok ran
    cases ran
    exact first.trans (exitTail_spared first.apart other used tail)

theorem clearChan_spared (apart : Apart k cur d) (p : Slot) : Spared cur d k (clearChan k p) :=
  .idle apart (fun _ used => used) apart.alive rfl rfl rfl rfl rfl

/-- One call by `p`. -/
theorem call_spared {p : Slot} {act : Call} (apart : Apart k cur d) (running : k.phase p = .running)
    (reclaims : Reclaims cur k (p, act)) (ran : call k p act = .ok (outcome, k')) : Spared cur d k k' := by
  have used : k.phase p ≠ .unused := fun is => Phase.noConfusion (running.symm.trans is)
  have cleared := clearChan_spared apart p
  cases act with
  | fork | threadCreate | exec program | sbrk n => exact reclaims.elim
  | threadExit retval =>
    obtain ⟨k₁, exited, ran⟩ := bind_ok ran
    cases ran
    exact threadExit_spared apart reclaims used exited
  | threadJoin thread => exact joinPass_spared apart used ran
  | wait => exact waitPass_spared apart used ran
  | exit =>
    obtain ⟨⟨outcome₁, k₁⟩, started, ran⟩ := bind_ok ran
    rcases exitStart_frame started with ⟨-, -, rfl⟩ | ⟨-, reap⟩
    · exact exitFinish_spared reclaims (.idle apart (fun _ used => used) apart.alive rfl rfl rfl rfl rfl) used ran
    · obtain ⟨spared, used₁⟩ := exitReap_spared apart running reap
      exact exitFinish_spared reclaims spared used₁ ran
  | resume =>
    change resume k p = .ok (outcome, k') at ran
    unfold resume at ran
    split at ran
    · exact cleared.trans (joinPass_spared cleared.apart used ran)
    next inside =>
      have other : p ≠ cur := reclaims.resolve_right (not_not.mpr inside)
      obtain ⟨⟨outcome₁, k₁⟩, reap, ran⟩ := bind_ok ran
      obtain ⟨spared, used₁⟩ := exitReap_spared cleared.apart running reap
      exact exitFinish_spared other (cleared.trans spared) used₁ ran
    · exact cleared.trans (waitPass_spared cleared.apart used ran)
    · cases ran
      exact .refl apart

theorem takeOff_spared (apart : Apart k cur d) (p : Slot) (outcome : Outcome) : Spared cur d k (takeOff k p outcome) := by
  cases outcome with
  | sleeps => exact .refl apart
  | returns value =>
    have phase : ∀ q, (takeOff k p (.returns value)).phase q = k.phase q ∨
        (takeOff k p (.returns value)).phase q = .waiting ∧ k.phase q = .running := by
      intro q
      simp only [takeOff]
      split
      next on =>
        by_cases here : q = p
        · subst here
          have ready : update k.state q .RUNNABLE q = .RUNNABLE := Function.update_self ..
          exact .inr ⟨phase_of_state (s := .RUNNABLE) ready, running_iff.mpr on⟩
        · exact .inl (congrArg ProcState.phase (Function.update_of_ne here ..))
      · exact .inl rfl
    refine .idle apart (fun q used => ?_) ?_ rfl rfl rfl rfl rfl
    · rcases phase q with same | ⟨-, on⟩
      · rwa [same] at used
      · rw [on]
        rintro ⟨⟩
    · rcases phase cur with same | ⟨off, -⟩
      · rw [same]
        exact apart.alive
      · exact .inl off

theorem step_spared {a : Slot × Call} (apart : Apart k cur d) (reclaims : Reclaims cur k a)
    (stepped : Proc.step k a = some k') : Spared cur d k k' := by
  obtain ⟨p, act⟩ := a
  simp only [Proc.step] at stepped
  split at stepped
  next ready =>
    split at stepped
    next outcome k₁ called =>
      cases stepped
      have phase := phase_setState k p .RUNNING
      have waited : k.phase p = .waiting := phase_of_state ready.1
      have first : Spared cur d k { k with state := update k.state p .RUNNING } := by
        refine .idle apart (fun q used => ?_) ?_ rfl rfl rfl rfl rfl
        · by_cases here : q = p
          · rw [here, waited]
            rintro ⟨⟩
          · rwa [phase, Function.update_of_ne here] at used
        · rw [phase]
          by_cases here : cur = p
          · rw [here, Function.update_self]
            exact .inr rfl
          · rw [Function.update_of_ne here]
            exact apart.alive
      have running : ({ k with state := update k.state p .RUNNING } : Kernel).phase p = .running := by
        rw [phase, Function.update_self]
        rfl
      have second := call_spared first.apart running (by cases act <;> exact reclaims) called
      exact (first.trans second).trans (takeOff_spared second.apart p outcome)
    · cases stepped
  · cases stepped

theorem reclaimed_spared (apart : Apart k cur d) (later : Reclaimed cur k k') : Spared cur d k k' := by
  induction later with
  | refl => exact .refl apart
  | tail _ last ih =>
    obtain ⟨a, reclaims, stepped⟩ := last
    exact ih.trans (step_spared ih.apart reclaims stepped)

/-! ### The call -/

/-- What `exec` needs to start from a fresh address space. -/
structure Prepared (k : Kernel) (cur : Slot) : Prop where
  running : k.state cur = .RUNNING
  /-- no other thread leads to the caller along its creators -/
  alone : ∀ w, w ≠ cur → ¬Chain.On k.master w cur
  /-- and no thread stands behind a main thread on its list -/
  last : k.master cur = none → k.threads.next cur = none
  empty : k.emptystackcnt cur = 0
  /-- the page directories in use have not been freed -/
  owned : ∀ w, k.state w ≠ .UNUSED ∨ k.master w ≠ none → k.pgdir w ∉ k.mem.free

/-- The end of `exec` leaves the new memory of the caller alone. -/
theorem execCommit_spared {old : Nat} (ran : execCommit k cur old = .ok (outcome, k'))
    (running : k.phase cur = .running) (alone : ∀ w, w ≠ cur → ¬Chain.On k.master w cur)
    (last : k.master cur = none → k.threads.next cur = none)
    (owner : ∀ w, w ≠ cur → k.phase w ≠ .unused ∨ k.master w ≠ none → k.pgdir w ≠ d) (other : d ≠ old) :
    Spared cur d k k' := by
  by_cases root : k.master cur = none
  · obtain ⟨mem, freed, rfl⟩ := execCommit_alone root (last root) ran
    refine ⟨⟨.inr running, root, alone, owner⟩, rfl, rfl, rfl, ?_⟩
    rw [freevm_page freed, Function.update_of_ne other]
  · unfold execCommit at ran
    rw [if_pos root] at ran
    obtain ⟨k₁, promoted, ran⟩ := bind_ok ran
    obtain ⟨⟨outcome₁, k₂⟩, waited, ran⟩ := bind_ok ran
    obtain ⟨-, rfl⟩ := Prod.mk.inj (Except.ok.inj ran)
    obtain ⟨p, -, phase, killed, state, same⟩ := promote_frame promoted
    have master : k₁.master = update k.master cur none := by rw [same]
    have pgdir : k₁.pgdir = k.pgdir := by rw [same]
    -- the caller is a main thread now
    have apart : Apart k₁ cur d := by
      refine ⟨.inr (by rw [phase, running]), by rw [master, Function.update_self], fun w ne on => ?_, fun w ne used => ?_⟩
      · rw [master] at on
        exact alone w ne (on_of_cleared on)
      · rw [phase, master, Function.update_of_ne ne] at used
        rw [pgdir]
        exact owner w ne used
    have first : Spared cur d k k₁ := by
      refine ⟨apart, by rw [pgdir], ?_, ?_, ?_⟩
      all_goals rw [same]
    have used : k₁.phase cur ≠ .unused := by
      rw [phase, running]
      nofun
    exact first.trans (waitPass_spared apart used waited)

/-- The image that `exec` has installed, and the process apart with it. -/
theorem exec_spared (prepared : Prepared s.k cur) (ran : exec s cur path ip argv = .ok (outcome, s'))
    (success : outcome ≠ .returns (-1)) :
    ∃ file image mem, ip = some file ∧ load s.k.mem file = .ok (some image, mem) ∧ Apart s'.k cur image.pgdir ∧
      s'.k.pgdir cur = image.pgdir ∧ s'.k.sz cur = PGROUNDUP image.sz + 2 * PGSIZE ∧ s'.k.sz cur < KERNBASE ∧
      s'.k.emptystackcnt cur = 0 ∧ ∀ i, s'.k.mem.page image.pgdir i ≠ none ↔ i * PGSIZE < s'.k.sz cur := by
  unfold exec at ran
  split at ran
  · cases ran
    exact absurd rfl success
  obtain ⟨k, slept, ran⟩ := bind_ok ran
  obtain ⟨phase, state, same⟩ := sleepOtherThreads_frame slept
  have mem : k.mem = s.k.mem := by rw [same]
  cases ip with
  | none =>
    cases ran
    exact absurd rfl success
  | some file =>
    obtain ⟨⟨loaded, mem₁⟩, load_, ran⟩ := bind_ok ran
    rw [mem] at load_
    cases loaded with
    | none =>
      cases ran
      exact absurd rfl success
    | some image =>
      obtain ⟨free, user, page₁⟩ := load_image load_
      obtain ⟨⟨stack, mem₂⟩, made, ran⟩ := bind_ok ran
      cases stack with
      | none =>
        cases ran
        exact absurd rfl success
      | some top =>
        obtain ⟨sz, sp⟩ := top
        obtain ⟨rfl, below, page₂⟩ := makeStack_image user made
        obtain ⟨⟨outcome₁, k₁⟩, committed, ran⟩ := bind_ok ran
        obtain ⟨rfl, rfl⟩ := Prod.mk.inj (Except.ok.inj ran)
        have running : k.phase cur = .running := by
          rw [phase]
          exact running_iff.mpr prepared.running
        have master : k.master = s.k.master := by rw [same]
        have pgdir : k.pgdir = s.k.pgdir := by rw [same]
        have threads : k.threads = s.k.threads := by rw [same]
        have cnt : k.emptystackcnt = s.k.emptystackcnt := by rw [same]
        -- the new page directory was free, so no thread in use has it
        have fresh : ∀ w, k.phase w ≠ .unused ∨ k.master w ≠ none → k.pgdir w ≠ image.pgdir := by
          intro w used is
          rw [phase, master] at used
          refine prepared.owned w (used.imp_left fun live => mt unused_iff.mpr live) ?_
          rw [← pgdir, is]
          exact free
        have alone : ∀ w, w ≠ cur → ¬Chain.On k.master w cur := by
          rw [master]
          exact prepared.alone
        have last : k.master cur = none → k.threads.next cur = none := by
          rw [master, threads]
          exact prepared.last
        have owner : ∀ w, w ≠ cur → k.phase w ≠ .unused ∨ k.master w ≠ none →
            update k.pgdir cur image.pgdir w ≠ image.pgdir := by
          intro w ne used
          rw [Function.update_of_ne ne]
          exact fresh w used
        have other : image.pgdir ≠ k.pgdir cur := by
          refine (fresh cur (.inl ?_)).symm
          rw [running]
          nofun
        have spared := execCommit_spared committed running alone last owner other
        have size : k₁.sz cur = PGROUNDUP image.sz + 2 * PGSIZE := spared.sz.trans (Function.update_self ..)
        refine ⟨file, image, mem₁, rfl, load_, spared.apart, spared.pgdir.trans (Function.update_self ..), size, ?_, ?_,
          fun i => ?_⟩
        · exact size ▸ below
        · exact spared.emptystackcnt.trans ((congrFun cnt cur).trans prepared.empty)
        · change k₁.mem.page image.pgdir i ≠ none ↔ i * PGSIZE < k₁.sz cur
          rw [size, spared.page]
          change mem₂.page image.pgdir i ≠ none ↔ _
          rw [page₂, page₁]
          exact stackPages_image

/-! ### The next calls of the process -/

/-- `x` does not map a page twice. -/
abbrev NoRemap {α : Type} (x : Except Stop α) : Prop := Avoids (.panic .remap) (fun _ => True) x

theorem acquire_no_remap (k : Kernel) : NoRemap (acquire k) := by
  unfold acquire
  split
  · exact .throw nofun
  · exact .ok trivial

theorem allocproc_no_remap (k : Kernel) : NoRemap (allocproc k) := by
  refine (acquire_no_remap k).bind fun k₁ _ => ?_
  split <;> exact .ok trivial

theorem createLink_no_remap (k : Kernel) (cur np : Slot) : NoRemap (createLink k cur np) := by
  refine (acquire_no_remap k).bind fun k₁ _ => ?_
  have queued : NoRemap (queueThread (joinGroup k₁ cur np) np) := by
    unfold queueThread
    split
    · have node : NoRemap (allocmlfqnode (joinGroup k₁ cur np) np) := by
        unfold allocmlfqnode
        split
        · exact .throw nofun
        · exact .ok trivial
      refine node.bind fun ⟨m, k₂⟩ _ => ?_
      dsimp only
      split
      · exact .throw nofun
      · exact .ok trivial
    · exact .ok trivial
  exact queued.bind fun _ _ => .ok trivial

/-- Without empty stacks `thread_create` maps pages behind the end of memory, where there is none. -/
theorem createStack_no_remap {np : Slot} (root : k.master cur = none) (empty : k.emptystackcnt cur = 0)
    (mapped : ∀ i, k.mem.page (k.pgdir cur) i ≠ none → i * PGSIZE < k.sz cur) : NoRemap (createStack k cur np) := by
  have highest : getHighestMaster { k with nextpid := k.nextpid - 1 } cur = .ok cur := by
    simp [getHighestMaster, Chain.climb, root]
  have locked : NoRemap (acquireMem { k with nextpid := k.nextpid - 1 }) := by
    unfold acquireMem
    split
    · exact .throw Stop.noConfusion
    · exact .ok trivial
  refine (Avoids.bind_of_ok highest).mpr (locked.bind_eq fun k₁ taken => ?_)
  obtain rfl := acquireMem_eq taken
  have own : ∀ {k₂ : Kernel} {found}, takeStack k₂ cur cur = found → k₂.emptystackcnt cur = 0 →
      found = (k₂.sz cur, k₂) := by
    rintro k₂ _ rfl none_
    simp [takeStack, none_]
  generalize stack : takeStack _ cur cur = found
  obtain rfl := own stack empty
  dsimp only
  rw [Function.update_self]
  have missing : ∀ i, pages (k.sz cur) ≤ i → k.mem.page (k.pgdir cur) i = none := by
    intro i above
    by_contra found
    have := lt_pages.mpr (mapped i found)
    omega
  refine (allocuvm_no_remap missing).bind fun grown _ => ?_
  obtain ⟨sz, mem⟩ := grown
  dsimp only
  split
  · exact .ok trivial
  · have guard : NoRemap (clearpteu mem (k.pgdir cur) (uint32 (sz - 2 * PGSIZE))) := by
      unfold clearpteu
      split
      · exact .throw (by rintro ⟨⟩)
      · exact .ok trivial
    exact guard.bind fun _ _ => .ok trivial

theorem threadCreate_no_remap (apart : Apart k cur d) (empty : k.emptystackcnt cur = 0)
    (mapped : ∀ i, k.mem.page (k.pgdir cur) i ≠ none → i * PGSIZE < k.sz cur) :
    threadCreate k cur ≠ .error (.panic .remap) := by
  suffices avoids : NoRemap (threadCreate k cur) from fun failed => avoids.error_ne failed rfl
  refine (allocproc_no_remap k).bind_eq fun ⟨slot, k₁⟩ alloc => ?_
  cases slot with
  | none => exact .ok trivial
  | some np =>
    have image := allocproc_image alloc
    obtain ⟨-, ⟨failed, -⟩ | ⟨np', first, kstack, mem, ⟨failed, -⟩ | ⟨-, same⟩⟩⟩ := allocproc_frame alloc
    · cases failed
    · cases failed
    have root : k₁.master cur = none := by
      rw [same]
      exact apart.root
    have empty₁ : k₁.emptystackcnt cur = 0 := (congrFun (congrArg Proc.Image.emptystackcnt image) cur).trans empty
    have page : k₁.mem.page = k.mem.page := congrArg Proc.Image.page image
    have pgdir : k₁.pgdir = k.pgdir := by rw [same]
    have sz : k₁.sz = k.sz := congrArg Proc.Image.sz image
    have mapped₁ : ∀ i, k₁.mem.page (k₁.pgdir cur) i ≠ none → i * PGSIZE < k₁.sz cur := by
      rw [page, pgdir, sz]
      exact mapped
    refine (createStack_no_remap root empty₁ mapped₁).bind fun ⟨made, k₂⟩ _ => ?_
    cases made with
    | false => exact .ok trivial
    | true => exact createLink_no_remap k₂ cur np

/-- Memory on pages of the process. -/
def Points (k : Kernel) (cur : Slot) (p len : Nat) : Prop :=
  ∀ b, p ≤ b → b < p + len → k.mem.page (k.pgdir cur) (b / PGSIZE) ≠ none

/-- Memory on pages that end with the size passes the checks of `syscall.c`. -/
theorem checks_pass {c p len : Nat} (sz : k.sz cur = c * PGSIZE) (user : k.sz cur < KERNBASE)
    (mapped : ∀ i, k.mem.page (k.pgdir cur) i ≠ none → i * PGSIZE < k.sz cur) (some_ : 0 < len)
    (points : Points k cur p len) :
    (len = 4 → (Syscall.fetchint k cur p).passed = true) ∧
      ∀ esp n, (Syscall.argint k cur esp n).passed = true → (Syscall.argptr k cur esp n p len).passed = true := by
  have last := mapped _ (points (p + len - 1) (by omega) (by omega))
  have below : p + len ≤ k.sz cur := by
    rw [sz] at last ⊢
    simp only [PGSIZE] at last ⊢
    omega
  have small : ((p : Int) + (len : Nat) : Int) % 2 ^ 32 = p + len := by
    simp only [KERNBASE] at user
    omega
  constructor
  · rintro rfl
    unfold Syscall.fetchint
    rw [if_neg]
    have exact_ : uint32 ((p : Int) + 4) = p + 4 := by
      unfold uint32
      omega
    rw [exact_]
    omega
  · intro esp n fetched
    have exact_ : uint32 ((p : Int) + (len : Nat)) = p + len := by
      unfold uint32
      omega
    simp only [Syscall.argptr, Syscall.Check.andThen, fetched, if_true, Syscall.Check.test, exact_, decide_eq_true_eq]
    omega

/-! ### Fresh address spaces -/

/-- The address space of a process that has just begun to run `image`. -/
structure Fresh (k : Kernel) (cur : Slot) (image : Image) : Prop where
  pgdir : k.pgdir cur = image.pgdir
  sz : k.sz cur = PGROUNDUP image.sz + 2 * PGSIZE
  emptystackcnt : k.emptystackcnt cur = 0
  mapped : ∀ i, k.mem.page image.pgdir i ≠ none ↔ i * PGSIZE < k.sz cur
  /-- `thread_create` does not panic with "remap" -/
  create : threadCreate k cur ≠ .error (.panic .remap)
  word : ∀ p, Points k cur p 4 → (Syscall.fetchint k cur p).passed = true
  pointer : ∀ esp n p len, 0 < len → Points k cur p len → (Syscall.argint k cur esp n).passed = true →
    (Syscall.argptr k cur esp n p len).passed = true

/-- A successful `exec` of a caller prepared for it starts from a fresh address space, which later
reclamation of the old threads leaves alone. -/
theorem exec_fresh (prepared : Prepared s.k cur) (ran : exec s cur path ip argv = .ok (outcome, s'))
    (success : outcome ≠ .returns (-1)) (later : Reclaimed cur (takeOff s'.k cur outcome) k) :
    ∃ file image mem, ip = some file ∧ load s.k.mem file = .ok (some image, mem) ∧ Fresh k cur image := by
  obtain ⟨file, image, mem, found, loaded, apart, pgdir, sz, user, empty, mapped⟩ := exec_spared prepared ran success
  have first := takeOff_spared apart cur outcome
  have spared := first.trans (reclaimed_spared first.apart later)
  have pgdir' : k.pgdir cur = image.pgdir := spared.pgdir.trans pgdir
  have sz' : k.sz cur = PGROUNDUP image.sz + 2 * PGSIZE := spared.sz.trans sz
  have empty' : k.emptystackcnt cur = 0 := spared.emptystackcnt.trans empty
  have mapped' : ∀ i, k.mem.page image.pgdir i ≠ none ↔ i * PGSIZE < k.sz cur := by
    rw [spared.page, spared.sz]
    exact mapped
  have inside : ∀ i, k.mem.page (k.pgdir cur) i ≠ none → i * PGSIZE < k.sz cur := by
    rw [pgdir']
    exact fun i => (mapped' i).mp
  have aligned : k.sz cur = (pages image.sz + 2) * PGSIZE := by rw [sz', PGROUNDUP_eq, Nat.add_mul]
  have user' : k.sz cur < KERNBASE := spared.sz ▸ user
  refine ⟨file, image, mem, found, loaded, pgdir', sz', empty', mapped', ?_, fun p points => ?_,
    fun esp n p len some_ points => ?_⟩
  · exact threadCreate_no_remap spared.apart empty' inside
  · exact (checks_pass aligned user' inside (by decide) points).1 rfl
  · exact (checks_pass aligned user' inside some_ points).2 esp n

/-- A program of one segment of 5000 bytes that are all zero. -/
def smallProgram : File :=
  .ofBytes
    ([0x7f, 0x45, 0x4c, 0x46] ++ List.replicate 24 0 ++ [52, 0, 0, 0] ++ List.replicate 12 0 ++ [1, 0] ++
      List.replicate 6 0 ++ [1, 0, 0, 0] ++ List.replicate 16 0 ++ [0x88, 0x13, 0, 0] ++ List.replicate 8 0)

/-- What `exec` of this program leaves, if it returns 0. -/
def execSmall (k : Kernel) : Option Host :=
  match exec (.plain k) 0 [] (some smallProgram) [] with
  | .ok (.returns 0, s) => some s
  | _ => none

theorem exec_of_execSmall (found : execSmall k = some s) :
    exec (.plain k) 0 [] (some smallProgram) [] = .ok (.returns 0, s) := by
  unfold execSmall at found
  split at found
  next ran =>
    cases found
    exact ran
  · cases found

/-- The first process calls `exec` before it has any other thread. -/
theorem exec_fresh_first : ∃ m s', Smp.smp.Reach (fun _ _ => True) m ∧
    exec (.plain m.k) 0 [] (some smallProgram) [] = .ok (.returns 0, s') ∧
    ∃ image mem, load m.k.mem smallProgram = .ok (some image, mem) ∧ Fresh (takeOff s'.k 0 (.returns 0)) 0 image := by
  obtain ⟨m, reach, is⟩ := Smp.smp_of_run (fun _ _ => True) (List.range' 1000 400) [.dispatch 0]
    (P := fun m => (execSmall m.k).isSome ∧ m.k.state 0 = .RUNNING ∧ (∀ w, m.k.master w = none) ∧
      m.k.threads.next 0 = none ∧ m.k.emptystackcnt 0 = 0 ∧
      ∀ w, m.k.state w ≠ .UNUSED ∨ m.k.master w ≠ none → m.k.pgdir w ∉ m.k.mem.free) (by decide +kernel)
  obtain ⟨executed, running, masters, next, empty, owned⟩ := of_decide_eq_true is
  obtain ⟨s', executed⟩ := Option.isSome_iff_exists.mp executed
  have ran := exec_of_execSmall executed
  have alone : ∀ w, w ≠ 0 → ¬Chain.On m.k.master w 0 := by
    rintro w other (_ | ⟨creator, _⟩)
    · exact other rfl
    · cases (masters w).symm.trans creator
  obtain ⟨file, image, mem, same, loaded, fresh⟩ :=
    exec_fresh (s := .plain m.k) ⟨running, alone, fun _ => next, empty, owned⟩ ran nofun .refl
  cases same
  exact ⟨m, s', reach, ran, image, mem, loaded, fresh⟩

/-- Whether `thread_create` panics with "remap". -/
def remaps (k : Kernel) : Bool :=
  match threadCreate k 0 with
  | .error (.panic .remap) => true
  | _ => false

/-- The first process has a second thread when it calls `exec`. The stack of the old thread is then
an empty stack of the new image, and `thread_create` panics on it. -/
theorem exec_leaves_old_stack : ∃ m s', Smp.smp.Reach (fun _ _ => True) m ∧
    exec (.plain m.k) 0 [] (some smallProgram) [] = .ok (.returns 0, s') ∧ s'.k.emptystackcnt 0 = 1 ∧
    threadCreate s'.k 0 = .error (.panic .remap) := by
  obtain ⟨m, reach, is⟩ := Smp.smp_of_run (fun _ _ => True) (List.range' 1000 400)
    ([.dispatch 0, .call 0 .threadCreate] ++ List.replicate 5 (.advance 0))
    (P := fun m => (execSmall m.k).any fun s => s.k.emptystackcnt 0 = 1 ∧ remaps s.k = true) (by decide +kernel)
  cases found : execSmall m.k with
  | none =>
    rw [found] at is
    cases is
  | some s' =>
    rw [found] at is
    obtain ⟨one, panics⟩ := of_decide_eq_true is
    refine ⟨m, s', reach, exec_of_execSmall found, one, ?_⟩
    unfold remaps at panics
    split at panics
    next failed => exact failed
    · cases panics

end Xv6.Exec
