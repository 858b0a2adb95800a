import Xv6.Lib.Steps
import Xv6.Proc.Calls
import Xv6.Proc.Choice

/-!
# What a call does to the thread groups

A view of the process table: which slots are in use, by which process and page table, who is whose parent
and creator, and the thread lists. `Effect` lists every change a call can make to it, and results about
thread groups need no more than this list.
-/

namespace Xv6.Proc

open Function (update)
open Vm Steps

/-- `ident` is the pid and page directory of a slot in use. -/
@[ext] structure View where
  ident : Slot → Option (Int × Nat)
  parent : Slot → Option Slot
  master : Slot → Option Slot
  threads : Links Slot
  /-- `initproc` -/
  init : Slot

def Kernel.view (k : Kernel) : View :=
  { ident := fun p => if k.state p = .UNUSED then none else some (k.pid p, k.pgdir p)
    parent := k.parent
    master := k.master
    threads := k.threads
    init := k.initproc }

variable {k k' : Kernel} {cur np p w : Slot} {act : Call}

theorem ident_eq_none : k.view.ident p = none ↔ k.state p = .UNUSED := by
  simp [Kernel.view]

theorem ident_ne_none : k.view.ident p ≠ none ↔ k.state p ≠ .UNUSED := not_congr ident_eq_none

theorem view_eq (live : ∀ p, k'.state p = .UNUSED ↔ k.state p = .UNUSED) (pid : k'.pid = k.pid)
    (pgdir : k'.pgdir = k.pgdir) (parent : k'.parent = k.parent) (master : k'.master = k.master)
    (threads : k'.threads = k.threads) (init : k'.initproc = k.initproc) : k'.view = k.view := by
  ext1
  · funext p
    simp only [Kernel.view, live p, pid, pgdir]
  · exact parent
  · exact master
  · exact threads
  · exact init

theorem ident_update (k : Kernel) (p : Slot) {e : Option (Int × Nat)}
    (others : ∀ q, q ≠ p → k'.state q = k.state q ∧ k'.pid q = k.pid q ∧ k'.pgdir q = k.pgdir q)
    (here : k'.view.ident p = e) : k'.view.ident = update k.view.ident p e := by
  funext q
  by_cases same : q = p
  · rw [same, Function.update_self, here]
  · obtain ⟨state, pid, pgdir⟩ := others q same
    simp only [Function.update_of_ne same, Kernel.view, state, pid, pgdir]

namespace View

variable (v : View)

/-- `dealloc_thread`. -/
def reclaim (w : Slot) : View :=
  { v with
    ident := update v.ident w none
    parent := update v.parent w none
    master := update v.master w none
    threads := v.threads.unlink w }

/-- `wait` on an exited child. -/
def dispose (c : Slot) : View :=
  { v with ident := update v.ident c none, parent := update v.parent c none }

/-- A slot taken by `allocproc`. -/
def embryo (np : Slot) (id : Int × Nat) : View := { v with ident := update v.ident np (some id) }

def fork (cur np : Slot) (id : Int × Nat) : View :=
  { v.embryo np id with
    parent := update v.parent np (some cur)
    threads := (v.threads.setPrev (some np) none).setNext (some np) none }

/-- `thread_create`. -/
def create (cur np : Slot) : View :=
  { v with
    ident := update v.ident np (v.ident cur)
    master := update v.master np (some cur)
    threads := v.threads.insertAfter cur np }

/-- `exit` passes the children of `cur` to init. -/
def reparent (cur : Slot) : View :=
  { v with parent := fun p => if v.parent p = some cur then some v.init else v.parent p }

/-- `exec` gives `cur` a new page directory. -/
def load (cur : Slot) (id : Int × Nat) : View := { v with ident := update v.ident cur (some id) }

/-- A worker thread of the group of `p` becomes a process of its own. -/
def promote (worker p : Slot) : View :=
  { v with
    parent := update (update v.parent worker (v.parent p)) p (some worker)
    threads := v.threads.remove worker
    master := update v.master worker none }

end View

/-- The slot `allocproc` takes. -/
def View.firstUnused (v : View) : Option Slot :=
  (List.finRange NPROC).find? fun p => v.ident p = none

theorem View.firstUnused_ident {v : View} (first : v.firstUnused = some np) : v.ident np = none := by
  simpa using List.find?_some first

theorem view_firstUnused (k : Kernel) : k.view.firstUnused = Proc.firstUnused k := by
  simp only [View.firstUnused, Proc.firstUnused, ident_eq_none]

/-- What a call of `cur` can do. The list `ws` holds reclaimed worker threads: if the thread
list is intact, they stand behind `cur` in it. -/
inductive Effect (v : View) (cur : Slot) (act : Call) : View → Prop where
  | same : Effect v cur act v
  | fork (np : Slot) (id : Int × Nat) : v.firstUnused = some np → Effect v cur act (v.fork cur np id)
  | create (np : Slot) : act = .threadCreate → v.firstUnused = some np → Effect v cur act (v.create cur np)
  /-- a `thread_create` that has a slot and gets no stack -/
  | embryo (np : Slot) (id : Int × Nat) : v.firstUnused = some np → Effect v cur act (v.embryo np id)
  | reap (ws : List Slot) : (∀ xs ys, v.threads.Linked (xs ++ cur :: ys) → ws.Sublist ys) →
      Effect v cur act (ws.foldl View.reclaim v)
  | exit (ws : List Slot) :
      (∀ xs ys, v.threads.Linked (xs ++ cur :: ys) → ws.Sublist ys) →
      Effect v cur act ((ws.foldl View.reclaim v).reparent cur)
  | dispose (c : Slot) : v.parent c = some cur → Effect v cur act (v.dispose c)
  /-- `exec` by a main thread -/
  | exec (id : Int × Nat) (xs ys : List Slot) : v.master cur = none →
      v.threads.Linked (xs ++ cur :: ys) → Effect v cur act (ys.foldl View.reclaim (v.load cur id))
  /-- `exec` by a worker thread -/
  | promote (id : Int × Nat) (n : Nat) (p : Slot) : v.master cur ≠ none →
      Chain.Ends v.master n cur p → Effect v cur act ((v.load cur id).promote cur p)
  | promoteDispose (id : Int × Nat) (n : Nat) (p c : Slot) : v.master cur ≠ none →
      Chain.Ends v.master n cur p → ((v.load cur id).promote cur p).parent c = some cur →
      Effect v cur act (((v.load cur id).promote cur p).dispose c)

/-! ### Pieces that leave the view alone -/

theorem acquire_eq (ran : acquire k = .ok k') : k' = { k with ptableLock := true } := by
  unfold acquire at ran
  split at ran
  · cases ran
  · cases ran
    rfl

theorem acquireMem_eq (ran : acquireMem k = .ok k') : k' = { k with memlock := true } := by
  unfold acquireMem at ran
  split at ran
  · cases ran
  · cases ran
    rfl

theorem acquire_view (ran : acquire k = .ok k') : k'.view = k.view := by
  rw [acquire_eq ran]
  rfl

theorem acquireMem_view (ran : acquireMem k = .ok k') : k'.view = k.view := by
  rw [acquireMem_eq ran]
  rfl

theorem getHighestMaster_ends {h : Slot} (ran : getHighestMaster k p = .ok h) :
    ∃ n, Chain.Ends k.master n p h := by
  unfold getHighestMaster at ran
  split at ran
  next q found =>
    cases ran
    exact Chain.climb_sound found
  · cases ran

theorem getHighestMaster_iff {h : Slot} :
    getHighestMaster k p = .ok h ↔ ∃ n, Chain.Ends k.master n p h := by
  refine ⟨getHighestMaster_ends, fun ends => ?_⟩
  have found : Chain.climb k.master NPROC p = some h := by
    have := Chain.climb_card_iff.mpr ends
    rwa [Fintype.card_fin] at this
  unfold getHighestMaster
  rw [found]

@[simp] theorem view_wakeup1 (k : Kernel) (chan : Option Chan) : (wakeup1 k chan).view = k.view := by
  refine view_eq (fun p => ?_) rfl rfl rfl rfl rfl rfl
  simp only [wakeup1]
  split
  next asleep => simp [asleep.1]
  · rfl

@[simp] theorem view_killThread (k : Kernel) (p : Slot) : (killThread k p).view = k.view := by
  refine view_eq (fun q => ?_) rfl rfl rfl rfl rfl rfl
  simp only [killThread]
  split
  next asleep =>
    by_cases same : q = p
    · subst same
      simp [asleep]
    · rw [Function.update_of_ne same]
  · rfl

/-- A change of `state` between states in use. -/
theorem view_setState (used : k.state p ≠ .UNUSED) {s : ProcState} (now : s ≠ .UNUSED) :
    ({ k with state := update k.state p s } : Kernel).view = k.view := by
  refine view_eq (fun q => ?_) rfl rfl rfl rfl rfl rfl
  by_cases same : q = p
  · subst same
    simp [used, now]
  · simp [same]

theorem view_sleep (used : k.state p ≠ .UNUSED) (chan : Chan) (context : Context) :
    (sleep k p chan context).view = k.view :=
  view_setState (k := { k with chan := _, context := _ }) used (by decide)

theorem giveBackStack_view {h : Slot} {base : Nat} (ran : giveBackStack k h base = .ok k') :
    k'.view = k.view := by
  unfold giveBackStack at ran
  split at ran
  · split at ran
    · cases ran
      rfl
    · cases ran
  · cases ran
    rfl

theorem giveBackStack_state {h : Slot} {base : Nat} (ran : giveBackStack k h base = .ok k') :
    k'.state = k.state := by
  unfold giveBackStack at ran
  split at ran
  · split at ran
    · cases ran
      rfl
    · cases ran
  · cases ran
    rfl

/-! ### Reclaiming -/

/-- What is left of a slot after the threads `ws` have been reclaimed. -/
theorem View.reclaim_fields (v : View) (ws : List Slot) (p : Slot) :
    (ws.foldl View.reclaim v).ident p = (if p ∈ ws then none else v.ident p) ∧
      (ws.foldl View.reclaim v).parent p = (if p ∈ ws then none else v.parent p) ∧
      (ws.foldl View.reclaim v).master p = (if p ∈ ws then none else v.master p) := by
  induction ws generalizing v with
  | nil => simp
  | cons w ws ih =>
    simp only [List.foldl_cons, ih, List.mem_cons]
    by_cases later : p ∈ ws
    · simp [later]
    · by_cases here : p = w
      · simp [here, View.reclaim]
      · simp [here, later, View.reclaim]

@[simp] theorem View.reclaim_init (v : View) (ws : List Slot) :
    (ws.foldl View.reclaim v).init = v.init := by
  induction ws generalizing v with
  | nil => rfl
  | cons w ws ih => exact ih (v.reclaim w)

theorem view_clearThread (k : Kernel) (w : Slot) : (clearThread k w).view =
    { k.view.reclaim w with threads := k.threads } := by
  ext1
  · refine ident_update k w (fun q other => ?_) ?_
    · simp [clearThread, other]
    · simp [Kernel.view, clearThread]
  all_goals rfl

theorem deallocThread_view {r : Int} (ran : deallocThread k w = .ok (r, k')) :
    (k.master w = none ∧ k' = k) ∨
      (k.master w ≠ none ∧ k'.state = update k.state w .UNUSED ∧ k'.view = k.view.reclaim w) := by
  unfold deallocThread at ran
  split at ran
  next root =>
    cases ran
    exact .inl ⟨root, rfl⟩
  next worker =>
    obtain ⟨h, _, ran⟩ := bind_ok ran
    obtain ⟨⟨_, mem⟩, _, ran⟩ := bind_ok ran
    obtain ⟨k₁, locked, ran⟩ := bind_ok ran
    obtain ⟨k₂, given, ran⟩ := bind_ok ran
    cases ran
    refine .inr ⟨worker, ?_, ?_⟩
    · rw [acquireMem_eq locked] at given
      exact giveBackStack_state given
    have same : k₂.view = { k.view.reclaim w with threads := k.threads } :=
      ((giveBackStack_view given).trans (acquireMem_view locked)).trans (view_clearThread k w)
    have last : ∀ v : View, k₂.view = v →
        { k₂.view with threads := k₂.threads.unlink w } = { v with threads := v.threads.unlink w } := by
      rintro v rfl
      rfl
    exact last _ same

/-- The loop of `exit` reclaims exited worker threads; on an intact list they are behind its
starting point. -/
theorem reapLoop_view : ∀ {rounds : Nat} {q : Option Slot} {found found' : Bool} {k k' : Kernel},
    reapLoop false rounds q found k = .ok (found', k') →
    ∃ ws : List Slot, k'.view = ws.foldl View.reclaim k.view ∧
      (∀ w ∈ ws, k.state w = .ZOMBIE) ∧
      ∀ xs ys, k.threads.Linked (xs ++ ys) → q = ys.head? → ws.Sublist ys := by
  intro rounds
  induction rounds with
  | zero =>
    intro q found found' k k' ran
    cases q with
    | none =>
      cases ran
      exact ⟨[], rfl, by simp, fun _ _ _ _ => List.nil_sublist _⟩
    | some p => cases ran
  | succ rounds ih =>
    intro q found found' k k' ran
    cases q with
    | none =>
      cases ran
      exact ⟨[], rfl, by simp, fun _ _ _ _ => List.nil_sublist _⟩
    | some p =>
      simp only [reapLoop, Bool.false_eq_true, if_false] at ran
      -- from an intact list, the rest of the walk stays behind `p`
      have behind : ∀ {k₁ : Kernel} {ws : List Slot}, k₁.threads = k.threads →
          (∀ xs ys, k₁.threads.Linked (xs ++ ys) → k₁.threads.next p = ys.head? → ws.Sublist ys) →
          ∀ xs ys, k.threads.Linked (xs ++ ys) → some p = ys.head? → ws.Sublist ys := by
        intro k₁ ws same rest xs ys linked start
        obtain ⟨ys', rfl⟩ := List.head?_eq_some_iff.mp start.symm
        refine (rest (xs ++ [p]) ys' ?_ ?_).cons p
        · rwa [same, List.append_assoc]
        · rw [same]
          exact linked.at.2
      split at ran
      next zombie =>
        obtain ⟨⟨r, k₁⟩, dealloc, ran⟩ := bind_ok ran
        obtain ⟨ws, view, zombies, rest⟩ := ih ran
        rcases deallocThread_view dealloc with ⟨_, rfl⟩ | ⟨_, state, reclaimed⟩
        · exact ⟨ws, view, zombies, behind rfl rest⟩
        · have threads : k₁.threads = k.threads.unlink p := congrArg View.threads reclaimed
          refine ⟨p :: ws, by rw [view, reclaimed]; rfl, ?_, fun xs ys linked start => ?_⟩
          · intro w member
            rcases List.mem_cons.mp member with rfl | member
            · exact zombie
            · have still := zombies w member
              rw [state] at still
              by_cases here : w = p
              · rw [here]
                exact zombie
              · rwa [Function.update_of_ne here] at still
          obtain ⟨ys', rfl⟩ := List.head?_eq_some_iff.mp start.symm
          refine (rest xs ys' ?_ ?_).cons_cons p
          · rw [threads]
            exact linked.unlink
          · rw [threads]
            exact linked.unlink_next
      next =>
        obtain ⟨ws, view, zombies, rest⟩ := ih ran
        refine ⟨ws, by rw [view, view_killThread], ?_, behind rfl rest⟩
        intro w member
        have still := zombies w member
        simp only [killThread] at still
        split at still
        · by_cases here : w = p
          · subst here
            simp at still
          · rwa [Function.update_of_ne here] at still
        · exact still

/-- `dealloc_other_threads` reclaims all threads behind its starting point. -/
theorem reapLoop_force_view : ∀ {ys xs : List Slot} {rounds : Nat} {q : Option Slot}
    {found found' : Bool} {k k' : Kernel},
    reapLoop true rounds q found k = .ok (found', k') → k.threads.Linked (xs ++ ys) →
    q = ys.head? → (∀ w ∈ ys, k.state w ≠ .UNUSED ∧ k.master w ≠ none) →
    k'.view = ys.foldl View.reclaim k.view := by
  intro ys
  induction ys with
  | nil =>
    intro xs rounds q found found' k k' ran _ start _
    subst start
    cases rounds <;> cases ran <;> rfl
  | cons p ys ih =>
    intro xs rounds q found found' k k' ran linked start workers
    subst start
    cases rounds with
    | zero => cases ran
    | succ rounds =>
      obtain ⟨used, worker⟩ := workers p List.mem_cons_self
      simp only [reapLoop, if_true, List.head?_cons, Function.update_self] at ran
      obtain ⟨⟨r, k₁⟩, dealloc, ran⟩ := bind_ok ran
      have zombie := view_setState used (show ProcState.ZOMBIE ≠ .UNUSED by decide)
      rcases deallocThread_view dealloc with ⟨root, _⟩ | ⟨_, _, reclaimed⟩
      · exact absurd root worker
      · rw [zombie] at reclaimed
        have threads : k₁.threads = k.threads.unlink p := congrArg View.threads reclaimed
        have master : k₁.master = update k.master p none := congrArg View.master reclaimed
        have nodup : (p :: ys).Nodup := (List.nodup_append.mp linked.nodup).2.1
        have rest : k₁.threads.Linked (xs ++ ys) := threads ▸ linked.unlink
        rw [ih ran rest (threads ▸ linked.unlink_next) ?_, reclaimed]
        · rfl
        · intro w member
          have ne : w ≠ p := ne_of_mem_of_not_mem member (List.nodup_cons.mp nodup).1
          obtain ⟨used, worker⟩ := workers w (List.mem_cons_of_mem _ member)
          refine ⟨?_, by rwa [master, Function.update_of_ne ne]⟩
          rw [← ident_ne_none, reclaimed]
          simpa [View.reclaim, ne, ident_eq_none] using used

/-! ### The calls -/

@[simp] theorem view_release (k : Kernel) : (release k).view = k.view := rfl

theorem joinLoop_found {tid : Nat} : ∀ {rounds : Nat} {q : Option Slot} {found found' : Bool},
    joinLoop k tid rounds q found = .ok (some p, found') →
    ∀ xs ys, k.threads.Linked (xs ++ ys) → q = ys.head? → p ∈ ys := by
  intro rounds
  induction rounds with
  | zero =>
    intro q found found' ran
    cases q <;> cases ran
  | succ rounds ih =>
    intro q found found' ran xs ys linked start
    cases q with
    | none => cases ran
    | some r =>
      obtain ⟨ys', rfl⟩ := List.head?_eq_some_iff.mp start.symm
      have rest : k.threads.Linked ((xs ++ [r]) ++ ys') := by rwa [List.append_assoc]
      have next := linked.at.2
      simp only [joinLoop] at ran
      split at ran
      · split at ran
        · cases ran
          exact List.mem_cons_self
        · exact List.mem_cons_of_mem _ (ih ran _ _ rest next)
      · exact List.mem_cons_of_mem _ (ih ran _ _ rest next)

/-- A pass of `thread_join` reclaims a thread behind the caller, returns -1 or sleeps. -/
theorem joinPass_cases {thread : Nat} {found : Bool} {outcome : Outcome}
    (ran : joinPass k cur thread found = .ok (outcome, k')) :
    (∃ w r k₁, (∀ xs ys, k.threads.Linked (xs ++ cur :: ys) → w ∈ ys) ∧
      deallocThread { k with ptableLock := true } w = .ok (r, k₁) ∧
      k' = release { k₁ with retval := update k₁.retval w 0 }) ∨
      k' = release { k with ptableLock := true } ∨
      ∃ found', k' = sleep { k with ptableLock := true } cur (.proc cur) (.join thread found') := by
  unfold joinPass at ran
  obtain ⟨k₁, locked, ran⟩ := bind_ok ran
  obtain rfl := acquire_eq locked
  obtain ⟨⟨r, found'⟩, loop, ran⟩ := bind_ok ran
  cases r with
  | some w =>
    obtain ⟨⟨r, k₂⟩, dealloc, ran⟩ := bind_ok ran
    cases ran
    refine .inl ⟨w, r, k₂, fun xs ys linked => ?_, dealloc, rfl⟩
    exact joinLoop_found loop (xs ++ [cur]) ys (by rwa [List.append_assoc]) linked.at.2
  | none =>
    simp only at ran
    split at ran
    · cases ran
      exact .inr (.inl rfl)
    · cases ran
      exact .inr (.inr ⟨found', rfl⟩)

theorem joinPass_effect {thread : Nat} {found : Bool} {outcome : Outcome}
    (used : k.state cur ≠ .UNUSED) (ran : joinPass k cur thread found = .ok (outcome, k')) :
    Effect k.view cur act k'.view := by
  rcases joinPass_cases ran with ⟨w, r, k₁, behind, dealloc, rfl⟩ | rfl | ⟨found', rfl⟩
  · change Effect k.view cur act k₁.view
    rcases deallocThread_view dealloc with ⟨_, rfl⟩ | ⟨_, _, reclaimed⟩
    · exact .same
    · rw [reclaimed]
      exact .reap [w] fun xs ys linked => List.singleton_sublist.mpr (behind xs ys linked)
  · exact .same
  · rw [view_sleep (k := { k with ptableLock := true }) used]
    exact .same

theorem threadExit_view {retval : Nat} (used : k.state cur ≠ .UNUSED)
    (ran : threadExit k cur retval = .ok k') : k'.view = k.view := by
  unfold threadExit at ran
  obtain ⟨k₁, locked, ran⟩ := bind_ok ran
  cases ran
  have view : k₁.view = k.view := (acquire_view locked :)
  have woken : ∀ c c', (wakeup1 (wakeup1 k₁ c) c').view = k.view := fun c c' => by
    rw [view_wakeup1, view_wakeup1, view]
  refine (view_setState ?_ (by decide)).trans (woken _ _)
  rw [← ident_ne_none, woken]
  exact ident_ne_none.mpr used

theorem view_wakeParent (k : Kernel) (cur : Slot) : (wakeParent k cur).view = k.view := by
  unfold wakeParent
  split
  · rfl
  · exact view_wakeup1 ..

theorem wakeMaster_view (ran : wakeMaster k cur = .ok k') : k'.view = k.view := by
  unfold wakeMaster at ran
  split at ran
  · cases ran
    rfl
  · obtain ⟨h, _, ran⟩ := bind_ok ran
    cases ran
    rw [view_wakeup1]
    split <;> rfl

theorem view_reparent (k : Kernel) (cur : Slot) :
    (reparent k cur).view = k.view.reparent cur := by
  have woken : ∀ k' : Kernel, k'.view = k.view → ({ k' with
      parent := fun p => if k.parent p = some cur then some k.initproc else k.parent p } :
      Kernel).view = k.view.reparent cur := by
    intro k' same
    ext1
    · exact (congrArg View.ident same :)
    · rfl
    · exact (congrArg View.master same :)
    · exact (congrArg View.threads same :)
    · exact (congrArg View.init same :)
  apply woken
  split
  · exact view_wakeup1 ..
  · rfl

theorem exitTail_view (used : k.state cur ≠ .UNUSED) (ran : exitTail k cur = .ok k') :
    k'.view = k.view.reparent cur := by
  unfold exitTail at ran
  obtain ⟨k₁, locked, ran⟩ := bind_ok ran
  obtain ⟨k₂, woken, ran⟩ := bind_ok ran
  cases ran
  have view : k₂.view = k.view := by
    rw [wakeMaster_view woken, view_wakeParent, acquire_view locked]
  refine (view_setState ?_ (by decide)).trans ?_
  · rw [← ident_ne_none, view_reparent, view]
    exact ident_ne_none.mpr used
  · rw [view_reparent, view]

/-- What `exit` has done when its first part sleeps or ends. -/
theorem exitReap_view {outcome : Outcome} (running : k.state cur = .RUNNING)
    (ran : exitReap k cur = .ok (outcome, k')) :
    ∃ ws : List Slot, k'.view = ws.foldl View.reclaim k.view ∧ cur ∉ ws ∧
      ∀ xs ys, k.threads.Linked (xs ++ cur :: ys) → ws.Sublist ys := by
  unfold exitReap at ran
  obtain ⟨k₁, locked, ran⟩ := bind_ok ran
  obtain ⟨⟨found, k₂⟩, loop, ran⟩ := bind_ok ran
  obtain ⟨ws, view, zombies, behind⟩ := reapLoop_view loop
  rw [acquire_eq locked] at zombies behind
  rw [acquire_view locked] at view
  have out : cur ∉ ws := fun member => by
    have := zombies cur member
    rw [running] at this
    cases this
  have last : k'.view = k₂.view := by
    simp only at ran
    split at ran
    · cases ran
      refine view_sleep ?_ _ _
      rw [← ident_ne_none, view, (View.reclaim_fields _ _ _).1, if_neg out, ident_ne_none, running]
      decide
    · cases ran
      rfl
  exact ⟨ws, last.trans view, out, fun xs ys linked =>
    behind (xs ++ [cur]) ys (by rwa [List.append_assoc]) linked.at.2⟩

theorem exitFinish_effect {outcome outcome' : Outcome} {k₁ : Kernel} (used : k.state cur ≠ .UNUSED)
    (first : ∃ ws : List Slot, k₁.view = ws.foldl View.reclaim k.view ∧ cur ∉ ws ∧
      ∀ xs ys, k.threads.Linked (xs ++ cur :: ys) → ws.Sublist ys)
    (ran : exitFinish cur (outcome, k₁) = .ok (outcome', k')) : Effect k.view cur act k'.view := by
  obtain ⟨ws, view, out, behind⟩ := first
  cases outcome with
  | sleeps =>
    cases ran
    rw [view]
    exact .reap ws behind
  | returns value =>
    obtain ⟨k₂, tail, ran⟩ := bind_ok ran
    cases ran
    have used₁ : k₁.state cur ≠ .UNUSED := by
      rw [← ident_ne_none, view, (View.reclaim_fields _ _ _).1, if_neg out, ident_ne_none]
      exact used
    rw [exitTail_view used₁ tail, view]
    exact .exit ws behind

theorem exitStart_view {outcome : Outcome} (running : k.state cur = .RUNNING)
    (ran : exitStart k cur = .ok (outcome, k')) :
    ∃ ws : List Slot, k'.view = ws.foldl View.reclaim k.view ∧ cur ∉ ws ∧
      ∀ xs ys, k.threads.Linked (xs ++ cur :: ys) → ws.Sublist ys := by
  unfold exitStart at ran
  split at ran
  · cases ran
  · split at ran
    · obtain ⟨k₁, locked, ran⟩ := bind_ok ran
      cases ran
      exact ⟨[], (acquire_view locked :), by simp, fun _ _ _ => List.nil_sublist _⟩
    · exact exitReap_view running ran

theorem waitPass_view {outcome : Outcome} (used : k.state cur ≠ .UNUSED)
    (ran : waitPass k cur = .ok (outcome, k')) :
    k'.view = k.view ∨ ∃ c, k.parent c = some cur ∧ k'.view = k.view.dispose c := by
  unfold waitPass at ran
  obtain ⟨k₁, locked, ran⟩ := bind_ok ran
  have view := acquire_view locked
  have used₁ : k₁.state cur ≠ .UNUSED := by rwa [← ident_ne_none, view, ident_ne_none]
  split at ran
  next c found =>
    obtain ⟨mem, _, ran⟩ := bind_ok ran
    cases ran
    have child : k₁.parent c = some cur := by
      have := List.find?_some found
      simp only [decide_eq_true_eq] at this
      exact this.1
    refine .inr ⟨c, (congrArg (fun v => v.parent c) view).symm.trans child, ?_⟩
    rw [← view]
    ext1
    · refine ident_update k₁ c (fun q other => ?_) ?_
      · simp [release, other]
      · simp [Kernel.view, release]
    all_goals rfl
  next =>
    left
    split at ran
    · cases ran
      rw [view_release, view]
    · cases ran
      rw [view_sleep used₁, view]

/-! ### Creation -/

theorem view_claim (k : Kernel) (np : Slot) :
    (claim k np).view = k.view.embryo np (k.nextpid, k.pgdir np) := by
  ext1
  · refine ident_update k np (fun q other => ?_) ?_
    · simp [claim, other]
    · simp [Kernel.view, claim]
  all_goals rfl

/-- A slot whose state goes back to `UNUSED` before anything else uses it. -/
theorem view_setUnused (k : Kernel) (p : Slot) :
    ({ k with state := update k.state p .UNUSED } : Kernel).view =
      { k.view with ident := update k.view.ident p none } := by
  ext1
  · refine ident_update k p (fun q other => ?_) ?_
    · simp [other]
    · simp [Kernel.view]
  all_goals rfl

theorem View.unclaim {v : View} {id : Int × Nat} (unused : v.ident np = none) :
    ({ v.embryo np id with ident := update (v.embryo np id).ident np none } : View) = v := by
  ext1
  · simp only [View.embryo, Function.update_idem]
    rw [← unused, Function.update_eq_self]
  all_goals rfl

theorem allocproc_view {r : Option Slot} (ran : allocproc k = .ok (r, k')) :
    (r = none ∧ k'.view = k.view) ∨ ∃ np id, r = some np ∧ k.view.firstUnused = some np ∧
      k'.view = k.view.embryo np id ∧ k'.state np = .EMBRYO := by
  unfold allocproc at ran
  obtain ⟨k₁, locked, ran⟩ := bind_ok ran
  have view := acquire_view locked
  split at ran
  · cases ran
    exact .inl ⟨rfl, (view :)⟩
  next np found =>
    have first : k.view.firstUnused = some np := by
      rw [← view, view_firstUnused]
      exact found
    have claimed := view_claim k₁ np
    rw [view] at claimed
    have ran := Except.ok.inj ran
    unfold allocKstack at ran
    split at ran
    · cases ran
      refine .inl ⟨rfl, ?_⟩
      refine (view_setUnused (release (claim k₁ np)) np).trans ?_
      rw [view_release, claimed]
      exact View.unclaim (View.firstUnused_ident first)
    · cases ran
      exact .inr ⟨np, _, rfl, first, (claimed :), by simp [release, claim]⟩

theorem forkCopy_view {r : Int} (ran : forkCopy k cur np = .ok (r, k')) :
    k'.view = { k.view with ident := update k.view.ident np none } ∨
      ∃ id, k'.view = k.view.fork cur np id := by
  unfold forkCopy at ran
  obtain ⟨k₁, locked, ran⟩ := bind_ok ran
  have view := acquire_view locked
  obtain ⟨h, _, ran⟩ := bind_ok ran
  obtain ⟨⟨pgdir, mem⟩, _, ran⟩ := bind_ok ran
  rw [← view]
  simp only at ran
  split at ran
  · cases ran
    left
    ext1
    · refine ident_update k₁ np (fun q other => ?_) ?_
      · simp [dropChild, inheritStacks, other]
      · simp [Kernel.view, dropChild, inheritStacks]
    all_goals rfl
  · cases ran
    right
    refine ⟨(k₁.pid np, pgdir), ?_⟩
    ext1
    · refine ident_update k₁ np (fun q other => ?_) ?_
      · simp [startChild, release, inheritStacks, other]
      · simp [Kernel.view, startChild, release, inheritStacks]
    all_goals rfl

theorem fork_effect {r : Int} (ran : fork k cur = .ok (r, k')) : Effect k.view cur act k'.view := by
  unfold fork at ran
  obtain ⟨⟨slot, k₁⟩, alloc, ran⟩ := bind_ok ran
  rcases allocproc_view alloc with ⟨rfl, view⟩ | ⟨np, id, rfl, first, view, _⟩
  · cases ran
    rw [view]
    exact .same
  · rcases forkCopy_view ran with failed | ⟨id', forked⟩
    · rw [failed, view, View.unclaim (View.firstUnused_ident first)]
      exact .same
    · have whole : k₁.view.fork cur np id' = k.view.fork cur np id' := by
        rw [view]
        simp only [View.fork, View.embryo, Function.update_idem]
      rw [forked, whole]
      exact .fork np id' first

theorem takeStack_frame {h : Slot} {base : Nat} (taken : takeStack k cur h = (base, k')) :
    k'.view = k.view ∧ k'.state = k.state ∧ k'.pid = k.pid ∧ k'.pgdir = k.pgdir := by
  unfold takeStack at taken
  split at taken
  · cases taken
    exact ⟨rfl, rfl, rfl, rfl⟩
  · cases taken
    exact ⟨rfl, rfl, rfl, rfl⟩

theorem view_setThread {h : Slot} {sz : Nat} (used : k.state np ≠ .UNUSED) :
    (setThread k cur np h sz).view =
      { k.view with
        ident := update k.view.ident np (some (k.pid cur, k.pgdir cur))
        master := update k.view.master np (some cur) } := by
  have state : (setThread k cur np h sz).state = k.state := by
    unfold setThread
    split <;> rfl
  ext1
  · refine ident_update k np (fun q other => ?_) ?_
    · refine ⟨by rw [state], ?_⟩
      unfold setThread
      split <;> simp [other]
    · simp only [Kernel.view, state, if_neg used]
      unfold setThread
      split <;> simp
  all_goals
    unfold setThread
    split <;> rfl

/-- With a stack, the new slot has its master, pid and page directory; it is not yet linked. -/
theorem createStack_view {r : Bool} (embryo : k.state np = .EMBRYO)
    (ran : createStack k cur np = .ok (r, k')) :
    (r = false ∧ k'.view = k.view) ∨
      (r = true ∧ k'.state np = .EMBRYO ∧ k'.view =
        { k.view with
          ident := update k.view.ident np (some (k.pid cur, k.pgdir cur))
          master := update k.view.master np (some cur) }) := by
  unfold createStack at ran
  obtain ⟨h, _, ran⟩ := bind_ok ran
  obtain ⟨k₁, locked, ran⟩ := bind_ok ran
  rw [acquireMem_eq locked] at ran
  generalize taken : takeStack _ cur h = pair at ran
  obtain ⟨base, k₂⟩ := pair
  obtain ⟨view, state, pid, pgdir⟩ := takeStack_frame taken
  replace view : k₂.view = k.view := view
  replace state : k₂.state = k.state := state
  replace pid : k₂.pid = k.pid := pid
  replace pgdir : k₂.pgdir = k.pgdir := pgdir
  obtain ⟨⟨sz, mem⟩, _, ran⟩ := bind_ok ran
  simp only at ran
  split at ran
  · cases ran
    exact .inl ⟨rfl, (view :)⟩
  · obtain ⟨mem', _, ran⟩ := bind_ok ran
    cases ran
    have used : ({ k₂ with mem := mem' } : Kernel).state np ≠ .UNUSED := by
      change k₂.state np ≠ _
      rw [state, embryo]
      decide
    refine .inr ⟨rfl, ?_, ?_⟩
    · unfold setThread
      split
      all_goals
        change k₂.state np = _
        rw [state, embryo]
    · refine (view_setThread used).trans ?_
      rw [← view, ← pid, ← pgdir]
      rfl

theorem enqueue_view (ran : enqueue k p = .ok k') : k'.view = k.view := by
  unfold enqueue at ran
  obtain ⟨⟨m, k₁⟩, alloc, ran⟩ := bind_ok ran
  have same : k₁.view = k.view := by
    unfold allocmlfqnode at alloc
    split at alloc
    · cases alloc
    · cases alloc
      rfl
  simp only at ran
  split at ran
  · cases ran
  · cases ran
    exact (same :)

theorem createLink_view {r : Int} (used : k.state np ≠ .UNUSED)
    (ran : createLink k cur np = .ok (r, k')) :
    k'.view = { k.view with threads := k.threads.insertAfter cur np } := by
  unfold createLink at ran
  obtain ⟨k₁, locked, ran⟩ := bind_ok ran
  obtain ⟨k₂, queued, ran⟩ := bind_ok ran
  cases ran
  have joined : k₂.view = (joinGroup k₁ cur np).view := by
    unfold queueThread at queued
    split at queued
    · exact enqueue_view queued
    · cases queued
      rfl
  have linked : (joinGroup k₁ cur np).view = { k.view with threads := k.threads.insertAfter cur np } := by
    rw [acquire_eq locked]
    exact (congrArg (fun v : View => { v with threads := k.threads.insertAfter cur np })
      (view_setState used (show ProcState.RUNNABLE ≠ .UNUSED by decide)) :)
  exact (joined.trans linked :)

/-- `thread_create` gets no slot, gets no stack for its slot, or links the new thread. -/
theorem threadCreate_cases {r : Int} (used : k.state cur ≠ .UNUSED)
    (ran : threadCreate k cur = .ok (r, k')) :
    (allocproc k = .ok (none, k') ∧ k'.view = k.view) ∨
      ∃ np id k₁, allocproc k = .ok (some np, k₁) ∧ k.view.firstUnused = some np ∧
        k₁.view = k.view.embryo np id ∧
        (createStack k₁ cur np = .ok (false, k') ∧ k'.view = k.view.embryo np id ∨
          ∃ k₂, createStack k₁ cur np = .ok (true, k₂) ∧ createLink k₂ cur np = .ok (r, k') ∧
            k'.view = k.view.create cur np) := by
  unfold threadCreate at ran
  obtain ⟨⟨slot, k₁⟩, alloc, ran⟩ := bind_ok ran
  rcases allocproc_view alloc with ⟨rfl, view⟩ | ⟨np, id, rfl, first, view, embryo⟩
  · cases ran
    exact .inl ⟨alloc, view⟩
  refine .inr ⟨np, id, k₁, alloc, first, view, ?_⟩
  obtain ⟨⟨stack, k₂⟩, created, ran⟩ := bind_ok ran
  rcases createStack_view embryo created with ⟨rfl, view₂⟩ | ⟨rfl, embryo₂, view₂⟩
  · cases ran
    exact .inl ⟨created, view₂.trans view⟩
  · refine .inr ⟨k₂, created, ran, ?_⟩
    have linked := createLink_view (by rw [embryo₂]; decide) ran
    have ne : cur ≠ np := by
      rintro rfl
      exact used (ident_eq_none.mp (View.firstUnused_ident first))
    have ident : k.view.ident cur = some (k₁.pid cur, k₁.pgdir cur) := by
      have same : k₁.view.ident cur = k.view.ident cur := by
        rw [view]
        exact Function.update_of_ne ne _ _
      rw [← same]
      refine if_neg ?_
      rw [← ident_eq_none, same, ident_eq_none]
      exact used
    have threads : k₂.threads = k.threads := by
      have same := congrArg View.threads view₂
      rw [view] at same
      exact same
    rw [linked, view₂, threads, view]
    simp only [View.create, View.embryo, Function.update_idem, ident]
    rfl

theorem threadCreate_effect {r : Int} (used : k.state cur ≠ .UNUSED)
    (ran : threadCreate k cur = .ok (r, k')) : Effect k.view cur .threadCreate k'.view := by
  rcases threadCreate_cases used ran with ⟨_, view⟩ | ⟨np, id, k₁, _, first, _, split⟩
  · rw [view]
    exact .same
  · rcases split with ⟨_, view⟩ | ⟨k₂, _, _, view⟩
    · rw [view]
      exact .embryo np id first
    · rw [view]
      exact .create np rfl first

theorem view_setSize {h : Slot} {sz : Nat} : (setSize k cur h sz).view = k.view := by
  simp only [setSize]
  split <;> rfl

theorem growproc_view {n r : Int} (ran : growproc k cur n = .ok (r, k')) : k'.view = k.view := by
  unfold growproc at ran
  obtain ⟨k₁, locked, ran⟩ := bind_ok ran
  obtain ⟨h, _, ran⟩ := bind_ok ran
  obtain ⟨⟨sz, mem⟩, _, ran⟩ := bind_ok ran
  have view := acquireMem_view locked
  simp only at ran
  split at ran
  · cases ran
    exact (view :)
  · obtain ⟨_, rfl⟩ := Prod.mk.inj (Except.ok.inj ran)
    rw [← view]
    exact (view_setSize :)

/-! ### `exec` -/

theorem sleepLoop_view : ∀ {rounds : Nat} {q : Option Slot} {k k' : Kernel},
    sleepLoop cur rounds q k = .ok k' → k'.view = k.view := by
  intro rounds
  induction rounds with
  | zero =>
    intro q k k' ran
    cases q <;> cases ran
    rfl
  | succ rounds ih =>
    intro q k k' ran
    cases q with
    | none =>
      cases ran
      rfl
    | some p =>
      simp only [sleepLoop] at ran
      rw [ih ran]
      split
      next awake => exact view_setState (by rw [awake.2]; decide) (by decide)
      · rfl

theorem sleepOtherThreads_view (ran : sleepOtherThreads k cur = .ok k') : k'.view = k.view := by
  unfold sleepOtherThreads at ran
  obtain ⟨k₁, locked, ran⟩ := bind_ok ran
  obtain ⟨h, _, ran⟩ := bind_ok ran
  obtain ⟨k₂, slept, ran⟩ := bind_ok ran
  cases ran
  exact ((sleepLoop_view slept).trans (acquire_view locked) :)

theorem execLoad_view {program : Option Program} {r : Option Nat} (used : k.state cur ≠ .UNUSED)
    (ran : execLoad k cur program = .ok (r, k')) :
    (r = none ∧ k'.view = k.view) ∨ ∃ old id, r = some old ∧ k'.view = k.view.load cur id := by
  unfold execLoad at ran
  split at ran
  · cases ran
    exact .inl ⟨rfl, rfl⟩
  obtain ⟨⟨pgdir, mem⟩, _, ran⟩ := bind_ok ran
  simp only at ran
  split at ran
  · cases ran
    exact .inl ⟨rfl, rfl⟩
  obtain ⟨⟨loaded, mem⟩, _, ran⟩ := bind_ok ran
  simp only at ran
  split at ran
  · obtain ⟨mem, _, ran⟩ := bind_ok ran
    cases ran
    exact .inl ⟨rfl, rfl⟩
  next sz =>
    obtain ⟨⟨sz', mem⟩, _, ran⟩ := bind_ok ran
    simp only at ran
    split at ran
    · obtain ⟨mem, _, ran⟩ := bind_ok ran
      cases ran
      exact .inl ⟨rfl, rfl⟩
    obtain ⟨mem, _, ran⟩ := bind_ok ran
    split at ran
    · cases ran
      refine .inr ⟨_, (k.pid cur, pgdir), rfl, ?_⟩
      ext1
      · refine ident_update k cur (fun q other => ?_) ?_
        · simp [other]
        · simp [Kernel.view, used]
      all_goals rfl
    · obtain ⟨mem, _, ran⟩ := bind_ok ran
      cases ran
      exact .inl ⟨rfl, rfl⟩

theorem promote_view (ran : promote k cur = .ok k') :
    ∃ n p, Chain.Ends k.master n cur p ∧ k'.view = k.view.promote cur p := by
  unfold promote at ran
  obtain ⟨k₁, locked, ran⟩ := bind_ok ran
  obtain ⟨p, highest, ran⟩ := bind_ok ran
  cases ran
  obtain ⟨n, ends⟩ := getHighestMaster_ends highest
  rw [acquire_eq locked] at ends
  refine ⟨n, p, ends, ?_⟩
  rw [view_release, view_killThread, acquire_eq locked]
  rfl

/-- `exec` on an intact thread list. -/
theorem exec_effect {program : Option Program} {outcome : Outcome} (used : k.state cur ≠ .UNUSED)
    {xs ys : List Slot} (linked : k.threads.Linked (xs ++ cur :: ys))
    (workers : ∀ w ∈ ys, k.state w ≠ .UNUSED ∧ k.master w ≠ none)
    (ran : exec k cur program = .ok (outcome, k')) : Effect k.view cur act k'.view := by
  unfold exec at ran
  split at ran
  · cases ran
    exact .same
  obtain ⟨k₁, slept, ran⟩ := bind_ok ran
  have view₁ := sleepOtherThreads_view slept
  have used₁ : k₁.state cur ≠ .UNUSED := by rwa [← ident_ne_none, view₁, ident_ne_none]
  obtain ⟨⟨r, k₂⟩, load, ran⟩ := bind_ok ran
  rcases execLoad_view used₁ load with ⟨rfl, view₂⟩ | ⟨old, id, rfl, view₂⟩
  · cases ran
    rw [view₂, view₁]
    exact .same
  rw [view₁] at view₂
  have master : k₂.master = k.master := congrArg View.master view₂
  have threads : k₂.threads = k.threads := congrArg View.threads view₂
  have used₂ : ∀ q, k.state q ≠ .UNUSED → k₂.state q ≠ .UNUSED := by
    intro q used
    rw [← ident_ne_none, view₂]
    by_cases here : q = cur
    · simp [View.load, here]
    · simpa [View.load, here, ident_eq_none] using used
  simp only [execCommit] at ran
  split at ran
  next worker =>
    rw [master] at worker
    obtain ⟨k₃, promoted, ran⟩ := bind_ok ran
    obtain ⟨⟨waited, k₄⟩, wait, ran⟩ := bind_ok ran
    cases ran
    obtain ⟨n, p, ends, view₃⟩ := promote_view promoted
    rw [master] at ends
    rw [view₂] at view₃
    have used₃ : k₃.state cur ≠ .UNUSED := by
      rw [← ident_ne_none, view₃]
      simp [View.promote, View.load]
    rcases waitPass_view used₃ wait with same | ⟨c, child, disposed⟩
    · rw [same, view₃]
      exact .promote id n p worker ends
    · rw [disposed, view₃]
      refine .promoteDispose id n p c worker ends ?_
      rw [← view₃]
      exact child
  next main =>
    rw [master, not_not] at main
    obtain ⟨k₃, locked, ran⟩ := bind_ok ran
    obtain ⟨⟨found, k₄⟩, reaped, ran⟩ := bind_ok ran
    obtain ⟨mem, _, ran⟩ := bind_ok ran
    cases ran
    have start : k₃.threads.Linked ((xs ++ [cur]) ++ ys) := by
      rw [acquire_eq locked, List.append_assoc]
      exact threads ▸ linked
    have behind : k₃.threads.next cur = ys.head? := by
      rw [acquire_eq locked]
      exact threads ▸ linked.at.2
    have all := reapLoop_force_view reaped start behind ?_
    · rw [acquire_view locked, view₂] at all
      change Effect k.view cur act k₄.view
      rw [all]
      exact .exec id xs ys main linked
    · intro w member
      obtain ⟨used, worker⟩ := workers w member
      rw [acquire_eq locked]
      exact ⟨used₂ w used, master ▸ worker⟩

/-! ### Steps -/

/-- An intact thread list through `cur`, as `exec` needs it. -/
def Intact (v : View) (cur : Slot) : Prop :=
  ∃ xs ys, v.threads.Linked (xs ++ cur :: ys) ∧
    ∀ w ∈ ys, v.ident w ≠ none ∧ v.master w ≠ none

theorem resume_effect {outcome : Outcome} (running : k.state cur = .RUNNING)
    (ran : resume k cur = .ok (outcome, k')) : Effect k.view cur act k'.view := by
  have running' : (clearChan k cur).state cur = .RUNNING := running
  have used : (clearChan k cur).state cur ≠ .UNUSED := by
    rw [running']
    decide
  rw [show k.view = (clearChan k cur).view from rfl]
  unfold resume at ran
  split at ran
  · exact joinPass_effect used ran
  · obtain ⟨⟨first, k₁⟩, reaped, ran⟩ := bind_ok ran
    exact exitFinish_effect used (exitReap_view running' reaped) ran
  · rcases waitPass_view used ran with same | ⟨c, child, disposed⟩
    · rw [same]
      exact .same
    · rw [disposed]
      exact .dispose c child
  · cases ran
    exact .same

theorem call_effect {outcome : Outcome} (running : k.state cur = .RUNNING)
    (intact : ∀ program, act = .exec program → Intact k.view cur)
    (ran : call k cur act = .ok (outcome, k')) : Effect k.view cur act k'.view := by
  have used : k.state cur ≠ .UNUSED := by
    rw [running]
    decide
  cases act with
  | fork =>
    obtain ⟨⟨r, k₁⟩, forked, ran⟩ := bind_ok ran
    cases ran
    exact fork_effect forked
  | threadCreate =>
    obtain ⟨⟨r, k₁⟩, created, ran⟩ := bind_ok ran
    cases ran
    exact threadCreate_effect used created
  | threadExit retval =>
    obtain ⟨k₁, exited, ran⟩ := bind_ok ran
    cases ran
    rw [threadExit_view used exited]
    exact .same
  | threadJoin thread => exact joinPass_effect used ran
  | exit =>
    obtain ⟨⟨first, k₁⟩, started, ran⟩ := bind_ok ran
    exact exitFinish_effect used (exitStart_view running started) ran
  | wait =>
    rcases waitPass_view used ran with same | ⟨c, child, disposed⟩
    · rw [same]
      exact .same
    · rw [disposed]
      exact .dispose c child
  | exec program =>
    obtain ⟨xs, ys, linked, workers⟩ := intact program rfl
    exact exec_effect used linked
      (fun w member => (workers w member).imp_left ident_ne_none.mp) ran
  | sbrk n =>
    obtain ⟨⟨r, k₁⟩, grown, ran⟩ := bind_ok ran
    cases ran
    rw [growproc_view grown]
    exact .same
  | resume => exact resume_effect running ran

theorem takeOff_view (k : Kernel) (cur : Slot) (outcome : Outcome) :
    (takeOff k cur outcome).view = k.view := by
  cases outcome with
  | sleeps => rfl
  | returns value =>
    simp only [takeOff]
    split
    next running => exact view_setState (k := { k with context := _ }) (by simp [running]) (by decide)
    · rfl

theorem step_ready {a : Slot × Call} (stepped : step k a = some k') : k.state a.1 = .RUNNABLE := by
  simp only [step] at stepped
  split at stepped
  next ready => exact ready.1
  · cases stepped

/-- **What a step can do.** -/
theorem step_effect (intact : ∀ program, act = .exec program → Intact k.view cur)
    (stepped : step k (cur, act) = some k') : Effect k.view cur act k'.view := by
  have used : k.state cur ≠ .UNUSED := by
    rw [step_ready stepped]
    decide
  have view := view_setState used (show ProcState.RUNNING ≠ .UNUSED by decide)
  simp only [step] at stepped
  split at stepped
  · split at stepped
    next outcome k₁ ran =>
      cases stepped
      have effect := call_effect (Function.update_self ..) (by rwa [view]) ran
      rwa [view, ← takeOff_view k₁ cur outcome] at effect
    · cases stepped
  · cases stepped

theorem chosen_view (chosen : Chosen k k') : k'.view = k.view := by
  obtain ⟨_, _, _, _, _, rfl⟩ := chosen
  rfl

theorem view_firstImage (used : k.state p ≠ .UNUSED) (pgdir : Nat) (mem : Memory) :
    (firstImage k p pgdir mem).view = { k.view.load p (k.pid p, pgdir) with init := p } := by
  ext1
  · refine ident_update k p (fun q other => ?_) ?_
    · simp [firstImage, other]
    · simp [Kernel.view, firstImage, used]
  all_goals rfl

theorem userinitAt_view (used : k.state p ≠ .UNUSED) (booted : userinitAt k p = .ok k') :
    ∃ id, k'.view = { k.view.load p id with init := p } := by
  unfold userinitAt at booted
  obtain ⟨⟨pgdir, mem⟩, _, booted⟩ := bind_ok booted
  simp only at booted
  split at booted
  · cases booted
  obtain ⟨mem', _, booted⟩ := bind_ok booted
  obtain ⟨k₁, locked, booted⟩ := bind_ok booted
  obtain ⟨k₂, updated, booted⟩ := bind_ok booted
  cases booted
  have image : k₁.view = { k.view.load p (k.pid p, pgdir) with init := p } := by
    rw [acquire_view locked, view_firstImage used]
  have used₁ : k₁.state p ≠ .UNUSED := by
    rw [← ident_ne_none, image]
    simp [View.load]
  have ready : (firstReady k₁ p).view = k₁.view := view_setState used₁ (by decide)
  refine ⟨(k.pid p, pgdir), ?_⟩
  rw [← image, ← ready, ← chosen_view (updatevals_chosen updated)]
  rfl

theorem userinit_view {free : List Nat} (booted : userinit free = .ok k) :
    ∃ p id, k.view =
      { ident := update (fun _ => none) p (some id)
        parent := fun _ => none
        master := fun _ => none
        threads := { next := fun _ => none, prev := fun _ => none }
        init := p } := by
  unfold userinit at booted
  obtain ⟨⟨slot, k₁⟩, alloc, booted⟩ := bind_ok booted
  rcases allocproc_view alloc with ⟨rfl, _⟩ | ⟨p, id, rfl, _, view, embryo⟩
  · cases booted
  obtain ⟨id', loaded⟩ := userinitAt_view (by rw [embryo]; decide) booted
  refine ⟨p, id', ?_⟩
  rw [loaded, view]
  simp only [View.load, View.embryo, Function.update_idem]
  rfl

end Xv6.Proc
