import Mathlib.Algebra.BigOperators.Group.Finset.Piecewise
import Mathlib.Algebra.BigOperators.Fin
import Xv6.Dirs.Refinement
import Xv6.Names.Model

/-!
# References to inodes

What `iget`, `idup`, `ilock` and `iput` do to the references in the inode cache, as long as no inode is
freed. A change of references is a function on the entries; changes add up.
-/

namespace Xv6.Names

open Bytes Fs Dirs

variable {sb : Superblock} {fs fs₁ fs₂ : FileSystem} {k l : Fin NINODE} {i : Nat} {δ ε : Fin NINODE → Int}

/-- The references to inode `i` in memory. -/
def refs (fs : FileSystem) (i : Nat) : Int :=
  ∑ k, if 0 < (fs.icache k).ref ∧ (fs.icache k).inum = i then (fs.icache k).ref else 0

/-- The references change by `δ`, the inodes in use stay in their entries. -/
structure Shift (sb : Superblock) (fs : FileSystem) (δ : Fin NINODE → Int) (fs' : FileSystem) : Prop where
  ordered : Ordered sb fs'
  ref : ∀ m, (fs'.icache m).ref = (fs.icache m).ref + δ m
  inum : ∀ m, 0 < (fs.icache m).ref → (fs'.icache m).inum = (fs.icache m).inum
  valid : ∀ m, 0 < (fs.icache m).ref → (fs.icache m).valid = true → (fs'.icache m).valid = true

/-- The references change and the disk does not. -/
structure Moves (sb : Superblock) (fs : FileSystem) (δ : Fin NINODE → Int) (fs' : FileSystem) : Prop
    extends Shift sb fs δ fs' where
  state : fs'.toState = fs.toState

/-- One reference, in entry `k`. -/
def one (k : Fin NINODE) : Fin NINODE → Int := Pi.single k 1

theorem one_self (k : Fin NINODE) : one k k = 1 := Pi.single_eq_same ..

theorem one_of_ne (other : l ≠ k) : one k l = 0 := Pi.single_eq_of_ne other _

theorem one_nonneg (k m : Fin NINODE) : 0 ≤ one k m := by
  by_cases here : m = k
  · rw [here, one_self]
    decide
  · rw [one_of_ne here]

namespace Shift

theorem still (shift : Shift sb fs δ fs₁) (nonneg : ∀ m, 0 ≤ δ m) {m : Fin NINODE} (busy : 0 < (fs.icache m).ref) :
    0 < (fs₁.icache m).ref := by
  have := nonneg m
  rw [shift.ref]
  omega

theorem trans (first : Shift sb fs δ fs₁) (nonneg : ∀ m, 0 ≤ δ m) (second : Shift sb fs₁ ε fs₂) :
    Shift sb fs (δ + ε) fs₂ := by
  refine ⟨second.ordered, fun m => ?_, fun m busy => ?_, fun m busy valid => ?_⟩
  · rw [second.ref, first.ref, Pi.add_apply, add_assoc]
  · rw [second.inum m (first.still nonneg busy), first.inum m busy]
  · exact second.valid m (first.still nonneg busy) (first.valid m busy valid)

theorem refs_eq (shift : Shift sb fs 0 fs₁) (i : Nat) : refs fs₁ i = refs fs i := by
  refine Finset.sum_congr rfl fun m _ => ?_
  have same : (fs₁.icache m).ref = (fs.icache m).ref := by rw [shift.ref, Pi.zero_apply, add_zero]
  rw [same]
  by_cases busy : 0 < (fs.icache m).ref
  · rw [shift.inum m busy]
  · rw [if_neg (fun h => busy h.1), if_neg (fun h => busy h.1)]

end Shift

namespace Moves

theorem refl (ordered : Ordered sb fs) : Moves sb fs 0 fs :=
  ⟨⟨ordered, fun _ => (add_zero _).symm, fun _ _ => rfl, fun _ _ valid => valid⟩, rfl⟩

theorem disk (moves : Moves sb fs δ fs₁) : fs₁.disk = fs.disk := congrArg State.disk moves.state

theorem trans (first : Moves sb fs δ fs₁) (nonneg : ∀ m, 0 ≤ δ m) (second : Moves sb fs₁ ε fs₂) :
    Moves sb fs (δ + ε) fs₂ :=
  ⟨first.toShift.trans nonneg second.toShift, second.state.trans first.state⟩

end Moves

/-- A reference to inode `i` is held in entry `k`. -/
structure Holding (sb : Superblock) (fs : FileSystem) (i : Nat) (k : Fin NINODE) (fs' : FileSystem) : Prop where
  moves : Moves sb fs (one k) fs'
  inum : (fs'.icache k).inum = i
  busy : 0 < (fs'.icache k).ref

theorem Holding.refs_eq (holding : Holding sb fs i k fs₁) (j : Nat) :
    refs fs₁ j = refs fs j + if j = i then 1 else 0 := by
  have term : ∀ m, (if 0 < (fs₁.icache m).ref ∧ (fs₁.icache m).inum = j then (fs₁.icache m).ref else 0) =
      (if 0 < (fs.icache m).ref ∧ (fs.icache m).inum = j then (fs.icache m).ref else 0) +
        if m = k then if j = i then 1 else 0 else 0 := by
    intro m
    have ref := holding.moves.ref m
    have inum := holding.moves.inum m
    by_cases here : m = k
    · subst here
      have busy := holding.busy
      have own := holding.inum
      rw [one_self] at ref
      rw [if_pos rfl, own]
      by_cases same : j = i
      · subst same
        rw [if_pos ⟨busy, rfl⟩, if_pos rfl, ref]
        by_cases old : 0 < (fs.icache m).ref
        · rw [if_pos ⟨old, by rw [← inum old, own]⟩]
        · rw [if_neg (fun h => old h.1)]
          omega
      · rw [if_neg (fun h => same h.2.symm), if_neg same, add_zero, if_neg]
        rintro ⟨old, here⟩
        exact same (by rw [← here, ← inum old, own])
    · rw [one_of_ne here, add_zero] at ref
      rw [if_neg here, add_zero, ref]
      by_cases busy : 0 < (fs.icache m).ref
      · rw [inum busy]
      · rw [if_neg (fun h => busy h.1), if_neg (fun h => busy h.1)]
  rw [refs, Finset.sum_congr rfl fun m _ => term m, Finset.sum_add_distrib, Finset.sum_ite_eq' Finset.univ k]
  rw [if_pos (Finset.mem_univ k)]
  rfl

/-! ### The functions of the inode layer -/

theorem iget_holding (ordered : Ordered sb fs) (inside : 1 ≤ i ∧ i < sb.ninodes) (ran : Fs.iget i fs = .ok (k, fs₁)) :
    Holding sb fs i k fs₁ := by
  obtain ⟨ordered', state, busy, inum⟩ := iget_ok ordered inside ran
  refine ⟨⟨⟨ordered', fun m => ?_, fun m old => ?_, fun m old valid => ?_⟩, state⟩, inum, busy⟩
  · by_cases here : m = k
    · subst here
      cases iget_borrowed ran with
      | cached => rw [store_icache_self, one_self]
      | recycled idle => rw [store_icache_self, one_self, idle, zero_add]
    · rw [one_of_ne here, add_zero]
      cases iget_borrowed ran <;> rw [store_icache_ne _ here]
  · obtain ⟨ref, _, same⟩ := (iget_borrowed ran).own old
    rw [same]
  · obtain ⟨ref, _, same⟩ := (iget_borrowed ran).own old
    rw [same]
    exact valid

/-- `idup` of an inode that is in use. -/
theorem idup_holding (ordered : Ordered sb fs) (busy : 0 < (fs.icache k).ref) :
    Holding sb fs (fs.icache k).inum k (fs.store k { fs.icache k with ref := (fs.icache k).ref + 1 } fs.toState) := by
  have stored : Ordered sb (fs.store k { fs.icache k with ref := (fs.icache k).ref + 1 } fs.toState) := ordered.store
    ordered.image ordered.leakFree (fun _ _ _ => rfl) busy rfl fun _ valid => ordered.agrees k busy valid
  refine ⟨⟨⟨stored, fun m => ?_, fun m _ => ?_, fun m _ valid => ?_⟩, rfl⟩, by rw [store_icache_self], ?_⟩
  · by_cases here : m = k
    · rw [here, store_icache_self, one_self]
    · rw [store_icache_ne _ here, one_of_ne here, add_zero]
  · by_cases here : m = k
    · rw [here, store_icache_self]
    · rw [store_icache_ne _ here]
  · by_cases here : m = k
    · subst here
      rw [store_icache_self]
      exact valid
    · rwa [store_icache_ne _ here]
  · rw [store_icache_self]
    dsimp only
    omega

/-- `ilock` only loads. -/
theorem ilock_valid (ran : Fs.ilock sb k fs = .ok fs₁) (m : Fin NINODE) (valid : (fs.icache m).valid = true) :
    (fs₁.icache m).valid = true := by
  unfold Fs.ilock at ran
  dsimp only at ran
  split at ran
  · cases ran
  split at ran
  · cases ran
    exact valid
  split at ran
  · cases ran
  · cases ran
    by_cases here : m = k
    · rw [here, store_icache_self]
    · rwa [store_icache_ne _ here]

theorem ilock_moves (ordered : Ordered sb fs) (busy : 0 < (fs.icache k).ref)
    (typed : (dinode sb fs.disk (fs.icache k).inum).type ≠ 0) :
    ∃ fs₁, Fs.ilock sb k fs = .ok fs₁ ∧ Locked sb fs₁ k ∧ Moves sb fs 0 fs₁ := by
  obtain ⟨fs₁, ran, locked, state, entries⟩ := ilock_typed ordered busy typed
  refine ⟨fs₁, ran, locked, ⟨locked.toOrdered, fun m => ?_, fun m _ => (entries m).1, fun m _ valid => ?_⟩, state⟩
  · rw [(entries m).2, Pi.zero_apply, add_zero]
  · exact ilock_valid ran m valid

/-- `ilock` of an inode that is not allocated. -/
theorem ilock_untyped (ordered : Ordered sb fs) (busy : 0 < (fs.icache k).ref)
    (untyped : (dinode sb fs.disk (fs.icache k).inum).type = 0) : Fs.ilock sb k fs = .error .ilockNoType := by
  -- the entry is not valid, since it would have to agree with the disk
  have invalid : ¬(fs.icache k).valid = true := by
    intro valid
    obtain ⟨agrees, typed⟩ := ordered.agrees k busy valid
    rw [agrees] at untyped
    exact typed untyped
  unfold Fs.ilock
  dsimp only
  rw [if_neg (by omega), if_neg invalid, if_pos untyped]

/-- `iput` of an inode that is free already, or has a link or another reference. -/
theorem iput_moves (ordered : Ordered sb fs) (busy : 0 < (fs.icache k).ref)
    (kept : (dinode sb fs.disk (fs.icache k).inum).type = 0 ∨ (dinode sb fs.disk (fs.icache k).inum).nlink ≠ 0 ∨
      (fs.icache k).ref ≠ 1) :
    ∃ fs₁, Fs.iput sb k fs = .ok fs₁ ∧ Moves sb fs (-one k) fs₁ ∧ ∀ m, (fs₁.icache m).inum = (fs.icache m).inum := by
  have stays : ¬((fs.icache k).valid ∧ (fs.icache k).nlink = 0 ∧ (fs.icache k).ref = 1) := by
    rintro ⟨valid, unlinked, last⟩
    obtain ⟨agrees, typed⟩ := ordered.agrees k busy valid
    rw [agrees] at kept
    rcases kept with free | linked | other
    · exact typed free
    · exact linked unlinked
    · exact other last
  have ran : Fs.iput sb k fs = .ok (fs.store k { fs.icache k with ref := (fs.icache k).ref - 1 } fs.toState) := by
    unfold Fs.iput
    simp only
    rw [if_neg stays]
    rfl
  have stored : Ordered sb (fs.store k { fs.icache k with ref := (fs.icache k).ref - 1 } fs.toState) := ordered.store
    ordered.image ordered.leakFree (fun _ _ _ => rfl) busy rfl fun _ valid => ordered.agrees k busy valid
  have inum : ∀ m, ((fs.store k { fs.icache k with ref := (fs.icache k).ref - 1 } fs.toState).icache m).inum =
      (fs.icache m).inum := by
    intro m
    by_cases here : m = k
    · rw [here, store_icache_self]
    · rw [store_icache_ne _ here]
  refine ⟨_, ran, ⟨⟨stored, fun m => ?_, fun m _ => inum m, fun m _ valid => ?_⟩, rfl⟩, inum⟩
  · by_cases here : m = k
    · rw [here, store_icache_self, Pi.neg_apply, one_self]
      rfl
    · rw [store_icache_ne _ here, Pi.neg_apply, one_of_ne here, neg_zero, add_zero]
  · by_cases here : m = k
    · subst here
      rw [store_icache_self]
      exact valid
    · rwa [store_icache_ne _ here]

/-- The last `iput` of an inode without links frees it. -/
theorem iput_frees (valid : sb.Valid) (ordered : Ordered sb fs)
    (last : (fs.icache k).valid = true ∧ (fs.icache k).nlink = 0 ∧ (fs.icache k).ref = 1) :
    ∃ fs₁, Fs.iput sb k fs = .ok fs₁ ∧ Ordered sb fs₁ ∧ Released sb fs.disk fs₁.disk (fs.icache k).inum ∧
      (∀ m, (fs₁.icache m).ref = (fs.icache m).ref - one k m) ∧ ∀ m, (fs₁.icache m).inum = (fs.icache m).inum := by
  have busy : 0 < (fs.icache k).ref := by omega
  obtain ⟨stored, type⟩ := ordered.agrees k busy last.1
  obtain ⟨s, ran, after, released⟩ := Locked.free valid ⟨ordered, busy, stored, type, last.1⟩
  have put : Fs.iput sb k fs = .ok (fs.store k
      { fs.icache k with addrs := fun _ => 0, size := 0, type := 0, valid := false, ref := (fs.icache k).ref - 1 }
      (iupdate sb { fs.icache k with addrs := fun _ => 0, size := 0, type := 0 } s)) := by
    unfold Fs.iput
    simp only
    rw [if_pos last, ran]
    rfl
  refine ⟨_, put, after _ rfl (by dsimp only; omega), released, fun m => ?_, fun m => ?_⟩
  · by_cases here : m = k
    · rw [here, store_icache_self, one_self]
    · rw [store_icache_ne _ here, one_of_ne here, sub_zero]
  · by_cases here : m = k
    · rw [here, store_icache_self]
    · rw [store_icache_ne _ here]

/-! ### Giving references back -/

/-- Inode `i` is free, or has a link or a reference, so that giving up a reference of ours does not free it. -/
def Anchored (sb : Superblock) (fs : FileSystem) (i : Nat) : Prop :=
  (dinode sb fs.disk i).type = 0 ∨ (dinode sb fs.disk i).nlink ≠ 0 ∨ ∃ m, 0 < (fs.icache m).ref ∧ (fs.icache m).inum = i

theorem Anchored.moved (anchored : Anchored sb fs i) (moves : Moves sb fs δ fs₁) (nonneg : ∀ m, 0 ≤ δ m) :
    Anchored sb fs₁ i := by
  unfold Anchored
  rw [moves.disk]
  refine anchored.imp_right (Or.imp_right ?_)
  rintro ⟨m, used, same⟩
  exact ⟨m, moves.still nonneg used, by rw [moves.inum m used, same]⟩

theorem Anchored.kept (anchored : Anchored sb fs i) (shift : Shift sb fs δ fs₁) (nonneg : ∀ m, 0 ≤ δ m)
    (inode : dinode sb fs₁.disk i = dinode sb fs.disk i) (ours : 0 < δ k) (inum : (fs₁.icache k).inum = i)
    (busy : 0 < (fs₁.icache k).ref) :
    (dinode sb fs₁.disk (fs₁.icache k).inum).type = 0 ∨ (dinode sb fs₁.disk (fs₁.icache k).inum).nlink ≠ 0 ∨
      (fs₁.icache k).ref ≠ 1 := by
  rw [inum, inode]
  refine anchored.imp_right (Or.imp_right ?_)
  rintro ⟨m, used, same⟩
  have here : m = k :=
    shift.ordered.unique m k (shift.still nonneg used) busy (by rw [shift.inum m used, same, inum])
  subst here
  rw [shift.ref]
  omega

namespace Holding

theorem put (holding : Holding sb fs i k fs₁) (anchored : Anchored sb fs i) :
    ∃ fs₂, Fs.iput sb k fs₁ = .ok fs₂ ∧ Moves sb fs 0 fs₂ := by
  have kept := anchored.kept holding.moves.toShift (one_nonneg k) (by rw [holding.moves.disk]) (by rw [one_self]; decide)
    holding.inum holding.busy
  obtain ⟨fs₂, ran, moves, _⟩ := iput_moves holding.moves.ordered holding.busy kept
  have sum := holding.moves.trans (one_nonneg k) moves
  rw [add_neg_cancel] at sum
  exact ⟨fs₂, ran, sum⟩

/-- The reference is given back for one to another inode, perhaps the same. -/
theorem pass {j : Nat} (holding : Holding sb fs i k fs₁) (anchored : Anchored sb fs i) (next : Holding sb fs₁ j l fs₂) :
    ∃ fs₃, Fs.iput sb k fs₂ = .ok fs₃ ∧ Holding sb fs j l fs₃ := by
  have both := holding.moves.trans (one_nonneg k) next.moves
  have nonneg : ∀ m, 0 ≤ (one k + one l) m := fun m => Int.add_nonneg (one_nonneg k m) (one_nonneg l m)
  have ours : 0 < (one k + one l) k := by
    have := one_nonneg l k
    rw [Pi.add_apply, one_self]
    omega
  have inum : (fs₂.icache k).inum = i := by rw [next.moves.inum k holding.busy, holding.inum]
  have busy : 0 < (fs₂.icache k).ref := next.moves.still (one_nonneg l) holding.busy
  obtain ⟨fs₃, ran, moves, inums⟩ := iput_moves both.ordered busy (anchored.kept both.toShift nonneg (by rw [both.disk]) ours inum busy)
  have sum := both.trans nonneg moves
  rw [add_comm (one k), add_neg_cancel_right] at sum
  refine ⟨fs₃, ran, sum, by rw [inums, next.inum], ?_⟩
  -- the entry had a reference of its own before the one to `k` was dropped
  have first := holding.moves.ref l
  have second := next.moves.ref l
  have := next.busy
  rw [sum.ref, one_self]
  rw [one_self] at second
  by_cases here : l = k
  · subst here
    have := holding.busy
    rw [one_self] at first
    omega
  · rw [one_of_ne here] at first
    omega

end Holding

end Xv6.Names
