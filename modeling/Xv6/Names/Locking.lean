import Xv6.Names.References

/-!
# Locked inodes

The sleeplocks of the inodes on top of the references. The lemmas come in two directions: a call on an
inode that is not locked succeeds, and what is known if a call has succeeded.
-/

namespace Xv6.Names

open Bytes Fs Dirs

variable {sb : Superblock} {fs fs₁ fs₂ : FileSystem} {k l : Fin NINODE} {i : Nat} {locks : Fin NINODE → Bool} {c c' : Cache}

/-! ### Results -/

/-- A call ends with `P`, or with an error that `bad` allows. -/
def Ends {α : Type} (bad : Stop → Prop) (P : α → Prop) : Except Stop α → Prop
  | .ok a => P a
  | .error e => bad e

namespace Ends

variable {α β : Type} {bad bad' : Stop → Prop} {P P' : α → Prop} {Q : β → Prop} {x : Except Stop α} {f : α → Except Stop β}

theorem bind_ok {a : α} (ran : x = .ok a) (next : Ends bad Q (f a)) : Ends bad Q (x >>= f) := by
  rw [ran]
  exact next

theorem imp (ends : Ends bad P x) (worse : ∀ e, bad e → bad' e) (weaken : ∀ a, P a → P' a) : Ends bad' P' x := by
  cases x with
  | error e => exact worse e ends
  | ok a => exact weaken a ends

theorem of_ok {a : α} (ends : Ends bad P x) (ran : x = .ok a) : P a := by
  rw [ran] at ends
  exact ends

theorem ok (ends : Ends bad P x) (never : ∀ e, ¬bad e) : ∃ a, x = .ok a ∧ P a := by
  cases x with
  | error e => exact absurd ends (never e)
  | ok a => exact ⟨a, rfl, ends⟩

end Ends

/-! ### Locks -/

theorem ilock_free (free : locks k = false) (busy : 0 < (fs.icache k).ref) (ran : Fs.ilock sb k fs = .ok fs₁) :
    ilock sb k ⟨fs, locks⟩ = .ok ⟨fs₁, Function.update locks k true⟩ := by
  unfold ilock
  dsimp only
  rw [if_neg (by omega), if_neg (by rw [free]; decide), ran]
  rfl

theorem iunlock_locked (free : locks k = false) (busy : 0 < (fs.icache k).ref) :
    iunlock k ⟨fs, Function.update locks k true⟩ = .ok ⟨fs, locks⟩ := by
  unfold iunlock
  dsimp only
  rw [if_neg (by rw [Function.update_self]; simp; omega), Function.update_idem, ← free, Function.update_eq_self]

theorem iput_free (free : locks k = false) (ran : Fs.iput sb k fs = .ok fs₁) :
    iput sb k ⟨fs, locks⟩ = .ok ⟨fs₁, locks⟩ := by
  unfold iput
  dsimp only
  rw [if_neg (by rw [free]; decide), ran]
  rfl

theorem iunlockput_locked (free : locks k = false) (busy : 0 < (fs.icache k).ref) (ran : Fs.iput sb k fs = .ok fs₁) :
    iunlockput sb k ⟨fs, Function.update locks k true⟩ = .ok ⟨fs₁, locks⟩ := by
  unfold iunlockput
  rw [iunlock_locked free busy]
  exact iput_free free ran

/-! ### Calls that have succeeded -/

/-- No inode is locked. -/
def unlocked : Fin NINODE → Bool := fun _ => false

theorem unlock_lock (free : locks k = false) : Function.update (Function.update locks k true) k false = locks := by
  rw [Function.update_idem, ← free, Function.update_eq_self]

theorem panics_ok {α : Type} {x : Except Panic α} {a : α} (ran : panics x = .ok a) : x = .ok a := by
  cases x with
  | error e => cases ran
  | ok b =>
    cases ran
    rfl

theorem ilock_inv (ran : ilock sb k c = .ok c') : c.locked k = false ∧ 0 < (c.icache k).ref ∧
    ∃ fs₁, Fs.ilock sb k c.toFileSystem = .ok fs₁ ∧ c' = ⟨fs₁, Function.update c.locked k true⟩ := by
  unfold ilock at ran
  split at ran
  · cases ran
  split at ran
  · cases ran
  next busy free =>
    obtain ⟨fs₁, lock, same⟩ := Steps.bind_ok ran
    cases same
    exact ⟨by simpa using free, by omega, fs₁, panics_ok lock, rfl⟩

theorem iunlock_inv (ran : iunlock k c = .ok c') : c.locked k = true ∧ 0 < (c.icache k).ref ∧
    c' = ⟨c.toFileSystem, Function.update c.locked k false⟩ := by
  unfold iunlock at ran
  split at ran
  · cases ran
  next held =>
    cases ran
    simp only [not_or, Bool.not_eq_false, not_lt] at held
    exact ⟨held.1, held.2, rfl⟩

theorem iput_inv (ran : iput sb k c = .ok c') : c.locked k = false ∧
    ∃ fs₁, Fs.iput sb k c.toFileSystem = .ok fs₁ ∧ c' = ⟨fs₁, c.locked⟩ := by
  unfold iput at ran
  split at ran
  · cases ran
  next free =>
    obtain ⟨fs₁, put, same⟩ := Steps.bind_ok ran
    cases same
    exact ⟨by simpa using free, fs₁, panics_ok put, rfl⟩

theorem iunlockput_inv (ran : iunlockput sb k c = .ok c') : c.locked k = true ∧ 0 < (c.icache k).ref ∧
    ∃ fs₁, Fs.iput sb k c.toFileSystem = .ok fs₁ ∧ c' = ⟨fs₁, Function.update c.locked k false⟩ := by
  obtain ⟨c₁, unlock, ran⟩ := Steps.bind_ok ran
  obtain ⟨held, busy, rfl⟩ := iunlock_inv unlock
  obtain ⟨_, fs₁, put, rfl⟩ := iput_inv ran
  exact ⟨held, busy, fs₁, put, rfl⟩

/-! ### The reference that is held -/

theorem Holding.inUse (holding : Holding sb fs i k fs₁) (typed : (dinode sb fs.disk i).type ≠ 0) :
    InUse sb (dinode sb fs.disk) i := by
  have inside := holding.moves.ordered.inum k holding.busy
  rw [holding.inum] at inside
  exact ⟨inside.1, inside.2, typed⟩

theorem Holding.lock (holding : Holding sb fs i k fs₁) (typed : (dinode sb fs.disk i).type ≠ 0) :
    ∃ fs₂, Fs.ilock sb k fs₁ = .ok fs₂ ∧ Locked sb fs₂ k ∧ Holding sb fs i k fs₂ ∧ InUse sb (dinode sb fs.disk) i ∧
      (fs₂.icache k).type = (dinode sb fs.disk i).type := by
  obtain ⟨fs₂, ran, locked, moves⟩ := ilock_moves holding.moves.ordered holding.busy
    (by rwa [holding.inum, holding.moves.disk])
  have both := holding.moves.trans (one_nonneg k) moves
  rw [add_zero] at both
  have inum : (fs₂.icache k).inum = i := by rw [moves.inum k holding.busy, holding.inum]
  have stored := locked.stored
  rw [inum, both.disk] at stored
  exact ⟨fs₂, ran, locked, ⟨both, inum, locked.busy⟩, holding.inUse typed, by rw [stored]⟩

theorem Holding.lock_ok (holding : Holding sb fs i k fs₁) (ran : ilock sb k ⟨fs₁, locks⟩ = .ok c) :
    locks k = false ∧ ∃ fs₂, c = ⟨fs₂, Function.update locks k true⟩ ∧ Locked sb fs₂ k ∧ Holding sb fs i k fs₂ ∧
      InUse sb (dinode sb fs.disk) i ∧ (fs₂.icache k).type = (dinode sb fs.disk i).type := by
  obtain ⟨free, busy, fs₂, lock, rfl⟩ := ilock_inv ran
  refine ⟨free, fs₂, rfl, ?_⟩
  by_cases untyped : (dinode sb fs.disk i).type = 0
  · have failed := ilock_untyped holding.moves.ordered busy (by rw [holding.inum, holding.moves.disk, untyped])
    rw [failed] at lock
    cases lock
  · obtain ⟨fs₃, lock', rest⟩ := holding.lock untyped
    rw [lock'] at lock
    cases lock
    exact rest

theorem Holding.put_ok (holding : Holding sb fs i k fs₁) (anchored : Anchored sb fs i)
    (ran : iput sb k ⟨fs₁, locks⟩ = .ok c) : ∃ fs₂, c = ⟨fs₂, locks⟩ ∧ Moves sb fs 0 fs₂ := by
  obtain ⟨_, fs₂, put, rfl⟩ := iput_inv ran
  obtain ⟨fs₃, put', moves⟩ := holding.put anchored
  rw [put'] at put
  cases put
  exact ⟨_, rfl, moves⟩

theorem Holding.unlockput_ok (holding : Holding sb fs i k fs₁) (anchored : Anchored sb fs i)
    (ran : iunlockput sb k ⟨fs₁, locks⟩ = .ok c) : ∃ fs₂, c = ⟨fs₂, Function.update locks k false⟩ ∧ Moves sb fs 0 fs₂ := by
  obtain ⟨_, _, fs₂, put, rfl⟩ := iunlockput_inv ran
  obtain ⟨fs₃, put', moves⟩ := holding.put anchored
  rw [put'] at put
  cases put
  exact ⟨_, rfl, moves⟩

end Xv6.Names
