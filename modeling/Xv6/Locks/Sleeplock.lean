import Xv6.Smp.Machine

/-!
# Who holds a sleep lock: `sleeplock.c`

Each stretch of `acquiresleep` or `releasesleep` under `lk->lk` is one step. The history keeps the thread that
was the last to acquire the lock and has not released it. The pid in the lock tells as much only among
threads with different pids, and `thread_create` gives a thread the pid of its creator.
-/

namespace Xv6.Locks

open Function (update)

/-- `struct sleeplock` without its spin lock. -/
structure Sleeplock where
  locked : Bool
  pid : Int

/-- The lock, the threads inside `acquiresleep`, and those of them that sleep. -/
structure Machine (T : Type) where
  lk : Sleeplock
  acquiring : T → Bool
  asleep : T → Bool

inductive Event (T : Type) where
  | acquiresleep (t : T)
  /-- the loop of `acquiresleep` goes on after `sleep` -/
  | resume (t : T)
  | releasesleep (t : T)
  /-- `kill` finds the thread in `sleep` -/
  | kill (t : T)

variable {T : Type} [DecidableEq T] (pid : T → Int)

namespace Machine

/-- From the test of the loop on: to `sleep`, or to the end. -/
def attempt (s : Machine T) (t : T) : Machine T :=
  if s.lk.locked then
    { s with acquiring := update s.acquiring t true, asleep := update s.asleep t true }
  else
    { s with lk := { locked := true, pid := pid t }, acquiring := update s.acquiring t false }

/-- `releasesleep`, with the `wakeup` of all that sleep on the lock. -/
def releasesleep (s : Machine T) : Machine T :=
  { s with lk := { locked := false, pid := 0 }, asleep := fun _ => false }

def step (s : Machine T) : Event T → Option (Machine T)
  | .acquiresleep t => if s.acquiring t then none else some (s.attempt pid t)
  | .resume t => if s.acquiring t ∧ s.asleep t = false then some (s.attempt pid t) else none
  | .releasesleep t => if s.acquiring t then none else some s.releasesleep
  | .kill t => some { s with asleep := update s.asleep t false }

/-- `holdingsleep(lk)`, called by thread `t`. -/
def holdingsleep (s : Machine T) (t : T) : Bool := s.lk.locked && s.lk.pid == pid t

end Machine

/-- The calls that ask for the lock of a buffer or an inode; `ref` is `ip->ref`. -/
inductive Use where
  | bwrite
  | brelse
  | iderw
  | iunlock (ref : Int)

/-- The check at the beginning of the call, with the text of its panic. -/
def Use.check (s : Machine T) (t : T) : Use → Except String Unit
  | bwrite => if s.holdingsleep pid t then .ok () else .error "bwrite"
  | brelse => if s.holdingsleep pid t then .ok () else .error "brelse"
  | iderw => if s.holdingsleep pid t then .ok () else .error "iderw: buf not locked"
  | iunlock ref => if s.holdingsleep pid t = false ∨ ref < 1 then .error "iunlock" else .ok ()

/-! ### The history -/

/-- The thread that was the last to acquire the lock and has not released it. -/
def record (owner : Option T) (after : Machine T) : Event T → Option T
  | .acquiresleep t | .resume t => if after.acquiring t then owner else some t
  | .releasesleep t => if owner = some t then none else owner
  | .kill _ => owner

/-- A lock that `initsleeplock` has set up, with its history. -/
def locks : System (Machine T × Option T) (Event T) where
  init s := s.1.lk = { locked := false, pid := 0 } ∧ (∀ t, s.1.acquiring t = false) ∧ s.2 = none
  step s e := (s.1.step pid e).map fun s' => (s', record s.2 s' e)

/-- The lock is released by the thread that holds it. -/
def Proper (s : Machine T × Option T) : Event T → Prop
  | .releasesleep t => s.2 = some t
  | _ => True

instance decidableProper (s : Machine T × Option T) (e : Event T) : Decidable (Proper s e) := by
  unfold Proper
  split <;> infer_instance

/-- The lock is held exactly while it has an owner, and keeps the owner's pid. -/
def Owned (lk : Sleeplock) : Option T → Prop
  | some t => lk.locked = true ∧ lk.pid = pid t
  | none => lk.locked = false

variable {pid} {s s' : Machine T} {owner : Option T} {t u : T}

theorem Owned.attempt (owned : Owned pid s.lk owner) (t : T) :
    Owned pid (s.attempt pid t).lk (if (s.attempt pid t).acquiring t then owner else some t) := by
  unfold Machine.attempt
  split
  · simpa only [Function.update_self, if_true] using owned
  · simp only [Function.update_self, Bool.false_eq_true, if_false]
    exact ⟨rfl, rfl⟩

theorem Owned.step {e : Event T} (owned : Owned pid s.lk owner) (proper : Proper (s, owner) e)
    (stepped : s.step pid e = some s') : Owned pid s'.lk (record owner s' e) := by
  cases e with
  | acquiresleep t | resume t =>
    simp only [Machine.step, Option.ite_none_left_eq_some, Option.ite_none_right_eq_some, Option.some.injEq] at stepped
    obtain ⟨-, rfl⟩ := stepped
    exact owned.attempt t
  | releasesleep t =>
    simp only [Machine.step, Option.ite_none_left_eq_some, Option.some.injEq] at stepped
    obtain ⟨-, rfl⟩ := stepped
    have released : record owner s.releasesleep (.releasesleep t) = none := if_pos proper
    rw [released]
    rfl
  | kill t =>
    cases stepped
    exact owned

theorem Owned.of_reach (reach : (locks pid).Reach Proper (s, owner)) : Owned pid s.lk owner := by
  refine System.Reach.invariant (P := fun s => Owned pid s.1.lk s.2) ?_ ?_ reach
  · rintro ⟨s, owner⟩ ⟨unlocked, -, rfl⟩
    exact congrArg Sleeplock.locked unlocked
  · rintro ⟨s, owner⟩ e ⟨s', owner'⟩ owned proper stepped
    obtain ⟨s₁, moved, same⟩ := Option.map_eq_some_iff.mp stepped
    cases same
    exact owned.step proper moved

omit [DecidableEq T] in
/-- `holdingsleep` tells the pid of the owner. -/
theorem Owned.holdingsleep_iff (owned : Owned pid s.lk owner) (t : T) :
    s.holdingsleep pid t = true ↔ ∃ u, owner = some u ∧ pid u = pid t := by
  cases owner with
  | none =>
    have unlocked : s.lk.locked = false := owned
    simp [Machine.holdingsleep, unlocked]
  | some u =>
    obtain ⟨locked, number⟩ := owned
    simp [Machine.holdingsleep, locked, number]

omit [DecidableEq T] in
/-- A check that `holdingsleep` does not pass panics. -/
theorem Use.check_error (use : Use) (out : s.holdingsleep pid t = false) : ∃ why, use.check pid s t = .error why := by
  cases use <;> exact ⟨_, by simp only [Use.check, out, Bool.false_eq_true, if_false, true_or, if_true]; rfl⟩

/-- Runs in which the lock is released by its holder: `holdingsleep` called by `t` tells whether `t`
holds the lock exactly when no other thread with the pid of `t` holds it, and exactly then each of
the checks stops a `t` that does not hold the lock. -/
theorem holdingsleep_exact_iff (reach : (locks pid).Reach Proper (s, owner)) (t : T) :
    ((s.holdingsleep pid t = true ↔ owner = some t) ↔ ∀ u, owner = some u → pid u = pid t → u = t) ∧
      ((∀ use : Use, owner ≠ some t → ∃ why, use.check pid s t = .error why) ↔
        ∀ u, owner = some u → pid u = pid t → u = t) := by
  have holding := (Owned.of_reach reach).holdingsleep_iff t
  refine ⟨⟨?_, ?_⟩, ⟨?_, ?_⟩⟩
  · intro exact_ u held same
    exact Option.some.inj (held.symm.trans (exact_.mp (holding.mpr ⟨u, held, same⟩)))
  · intro alone
    rw [holding]
    constructor
    · rintro ⟨u, held, same⟩
      rw [held, alone u held same]
    · intro held
      exact ⟨t, held, rfl⟩
  · -- the check of `bwrite` lets a thread with the owner's pid pass
    intro caught u held same
    by_contra other
    obtain ⟨why, panicked⟩ := caught .bwrite fun mine => other (Option.some.inj (held.symm.trans mine))
    simp [Use.check, holding.mpr ⟨u, held, same⟩] at panicked
  · intro alone use out
    refine use.check_error (Bool.eq_false_iff.mpr fun passed => ?_)
    obtain ⟨u, held, same⟩ := holding.mp passed
    exact out (alone u held same ▸ held)

/-- A lock that nobody has used. -/
def unused (T : Type) : Machine T where
  lk := { locked := false, pid := 0 }
  acquiring := fun _ => false
  asleep := fun _ => false

/-- One thread has the lock and another sleeps on it; their pids are different, and `holdingsleep`
tells them apart. -/
theorem holdingsleep_exact_iff_apart : ∃ s, (locks fun t : Fin 2 => (t.val : Int)).Reach Proper (s, some 0) ∧
    s.asleep 1 = true ∧ ∀ t, s.holdingsleep (fun t => (t.val : Int)) t = true ↔ some 0 = some t := by
  obtain ⟨⟨s, owner⟩, reach, seen⟩ := System.Reach.of_exec (S := locks fun t : Fin 2 => (t.val : Int)) Proper
    [.acquiresleep 0, .acquiresleep 1] (s := (unused (Fin 2), none)) ⟨rfl, fun _ => rfl, rfl⟩
    (P := fun s => s.2 = some 0 ∧ s.1.asleep 1 = true) (by decide +kernel)
  obtain ⟨rfl, waits⟩ := of_decide_eq_true seen
  refine ⟨s, reach, waits, fun t => (holdingsleep_exact_iff reach t).1.mpr fun u _ same => ?_⟩
  exact Fin.ext (Int.ofNat.inj same)

/-- The first process creates a thread. It takes a sleep lock, and `holdingsleep`, called by the
thread, returns 1: the check of `bwrite` lets the thread pass. -/
theorem holdingsleep_of_sibling : ∃ m, Smp.smp.Reach (fun _ _ => True) m ∧ m.k.state 0 = .RUNNING ∧ m.k.state 1 = .RUNNABLE ∧
    ∃ s, (locks m.k.pid).Reach Proper (s, some 0) ∧ s.holdingsleep m.k.pid 1 = true ∧
      Use.check m.k.pid s 1 .bwrite = .ok () := by
  obtain ⟨m, reach, is⟩ := Smp.smp_of_run (fun _ _ => True) (List.range' 1000 400)
    ([.dispatch 0, .call 0 .threadCreate] ++ List.replicate 5 (.advance 0))
    (P := fun m => m.k.state 0 = .RUNNING ∧ m.k.state 1 = .RUNNABLE ∧ m.k.pid 0 = m.k.pid 1) (by decide +kernel)
  obtain ⟨first, second, same⟩ := of_decide_eq_true is
  have before : (locks m.k.pid).Reach Proper (unused _, none) := .init ⟨rfl, fun _ => rfl, rfl⟩
  have taken : (locks m.k.pid).Reach Proper ((unused _).attempt m.k.pid 0, some 0) := by
    refine .step (a := .acquiresleep 0) before ?_ ?_
    · trivial
    · rfl
  have holding : ((unused _).attempt m.k.pid 0).holdingsleep m.k.pid 1 = true := by
    simp [Machine.attempt, Machine.holdingsleep, unused, same]
  exact ⟨m, reach, first, second, _, taken, holding, if_pos holding⟩

end Xv6.Locks
