import Xv6.Proc.Effect

/-!
# Creator chains

`get_highest_master` follows `master` until it is null. The one assignment that can close a circle is that
of `thread_create`, when `allocproc` reuses a slot that an older thread still has as its creator.
-/

namespace Xv6.Proc

open Function (update)

/-- From every slot the creators lead to a process without one. -/
def View.ChainsEnd (v : View) : Prop := ∀ p, ∃ n h, Chain.Ends v.master n p h

variable {v v' : View} {cur : Slot} {c : Call}

theorem View.ChainsEnd.cleared (ends : v.ChainsEnd)
    (cleared : ∀ p, v'.master p = v.master p ∨ v'.master p = none) : v'.ChainsEnd := by
  intro p
  obtain ⟨n, h, chain⟩ := ends p
  exact chain.cut cleared

theorem View.reclaim_cleared (v : View) (ws : List Slot) (p : Slot) :
    (ws.foldl View.reclaim v).master p = v.master p ∨ (ws.foldl View.reclaim v).master p = none := by
  rw [(View.reclaim_fields v ws p).2.2]
  split
  · exact .inr rfl
  · exact .inl rfl

theorem View.promote_cleared (v : View) (w r p : Slot) :
    (v.promote w r).master p = v.master p ∨ (v.promote w r).master p = none := by
  by_cases here : p = w
  · exact .inr (by simp [View.promote, here])
  · exact .inl (by simp [View.promote, here])

/-- One step, unless it creates a thread in a slot on its own creator chain. -/
theorem Effect.chainsEnd (effect : Effect v cur c v') (ends : v.ChainsEnd)
    (off : c = .threadCreate → ∀ np, v.firstUnused = some np →
      np ∉ Chain.trail v.master NPROC cur) :
    v'.ChainsEnd := by
  cases effect with
  | same => exact ends
  | fork np id first => exact ends
  | create np created first =>
    intro p
    obtain ⟨n, h, chain⟩ := ends p
    obtain ⟨n', h', creator⟩ := ends cur
    refine chain.update_some creator fun on => off created np first ?_
    have short := creator.lt_card
    rw [Fintype.card_fin] at short
    exact creator.mem_trail on short
  | embryo np id first => exact ends
  | reap ws behind => exact ends.cleared (View.reclaim_cleared v ws)
  | exit ws behind => exact ends.cleared (View.reclaim_cleared v ws)
  | dispose c child => exact ends
  | exec id xs ys main linked => exact ends.cleared (View.reclaim_cleared (v.load cur id) ys)
  | promote id n p worker chain => exact ends.cleared (View.promote_cleared (v.load cur id) cur p)
  | promoteDispose id n p c worker chain child =>
    exact ends.cleared (View.promote_cleared (v.load cur id) cur p)

/-- No call of `exec`, and `thread_create` does not take a slot that is on the creator chain of
its caller. -/
def FreshSlot (k : Kernel) : Slot × Call → Prop
  | (_, .exec _) => False
  | (cur, .threadCreate) => ∀ np ∈ firstUnused k, np ∉ Chain.trail k.master NPROC cur
  | _ => True

instance (k : Kernel) (a : Slot × Call) : Decidable (FreshSlot k a) := by
  unfold FreshSlot
  split <;> infer_instance

/-- Following `master` from any live thread ends, and so does `get_highest_master`, in every
run in which `thread_create` takes no slot on the creator chain of its caller. -/
theorem master_chains_end (k : Kernel) (reach : calls.Reach FreshSlot k) :
    ∀ t, k.state t ≠ .UNUSED → ∃ n h, Chain.Ends k.master n t h ∧ k.master h = none ∧
      getHighestMaster k t = .ok h := by
  have ends : k.view.ChainsEnd := by
    refine reach.invariant (?_ : ∀ k, calls.init k → k.view.ChainsEnd) ?_
    · rintro k ⟨free, booted⟩ p
      obtain ⟨_, _, view⟩ := userinit_view booted
      rw [view]
      exact ⟨0, p, .here rfl⟩
    · rintro k ⟨cur, c⟩ k' ends fresh stepped
      have noExec : ∀ program, c = .exec program → Intact k.view cur := by
        rintro program rfl
        exact fresh.elim
      refine (step_effect noExec stepped).chainsEnd ends ?_
      rintro rfl np first
      rw [view_firstUnused] at first
      exact fresh np first
  intro t _
  obtain ⟨n, h, chain⟩ := ends t
  exact ⟨n, h, chain, chain.last, getHighestMaster_iff.mpr ⟨n, chain⟩⟩

/-- Page frames for the runs below. -/
def frames : List Nat := List.range' 1000 120

/-- A thread that creates a thread, exits and is joined. -/
def nested : List (Slot × Call) :=
  [(0, .threadCreate), (1, .threadCreate), (1, .threadExit 0), (0, .threadJoin 1)]

/-- The chain of the second thread ends in such a run. -/
theorem master_chains_end_nested : ∃ k, calls.Reach FreshSlot k ∧ k.state 2 ≠ .UNUSED ∧
    ∃ n h, Chain.Ends k.master n 2 h ∧ k.master h = none ∧ getHighestMaster k 2 = .ok h := by
  obtain ⟨k, reach, live⟩ := reach_of_run FreshSlot frames nested
    (P := fun k => k.state 2 ≠ .UNUSED) (by decide +kernel)
  have live := of_decide_eq_true live
  exact ⟨k, reach, live, master_chains_end k reach 2 live⟩

/-- When the second thread goes on to create one, that gets the slot of its own creator. The
two are then each other's master, and `get_highest_master` does not return. -/
theorem master_chain_circular : ∃ k, calls.Reach System.Any k ∧ k.state 2 = .RUNNABLE ∧
    k.master 2 = some 1 ∧ k.master 1 = some 2 ∧ getHighestMaster k 2 = .error .loop ∧
    ¬∃ n h, Chain.Ends k.master n 2 h := by
  obtain ⟨k, reach, found⟩ := reach_of_run System.Any frames
    (nested ++ [(2, .threadCreate)])
    (P := fun k => k.state 2 = .RUNNABLE ∧ k.master 2 = some 1 ∧ k.master 1 = some 2 ∧
      getHighestMaster k 2 = .error .loop) (by decide +kernel)
  obtain ⟨live, second, first, loops⟩ := of_decide_eq_true found
  refine ⟨k, reach, live, second, first, loops, ?_⟩
  rintro ⟨n, h, ends⟩
  rw [getHighestMaster_iff.mpr ⟨n, ends⟩] at loops
  cases loops

end Xv6.Proc
