import Xv6.Lib.Steps
import Xv6.Proc.Sched

/-!
# What choosing a process changes

`updatevals`, `choosebystride` and the functions around them write to the paths, the strides,
the chosen processes and the MLFQ. Everything else of the kernel is as before.
-/

namespace Xv6.Proc

open Steps

variable {k k' k'' : Kernel}

/-- Only the data of the scheduler differs. -/
def Chosen (k k' : Kernel) : Prop :=
  ∃ path stride highpr fixedmin mlfq, k' =
    { k with
      path := path
      defaultStride := stride
      defaultHighpr := highpr
      fixedmin := fixedmin
      mlfq := mlfq }

theorem Chosen.trans (first : Chosen k k') (second : Chosen k' k'') : Chosen k k'' := by
  obtain ⟨_, _, _, _, _, rfl⟩ := first
  obtain ⟨_, _, _, _, _, rfl⟩ := second
  exact ⟨_, _, _, _, _, rfl⟩

theorem chosen_mlfq (k : Kernel) (q : Mlfq) : Chosen k { k with mlfq := q } := ⟨_, _, _, _, _, rfl⟩

theorem chosen_setPath (k : Kernel) (p : Option Slot) (v : ℚ) : Chosen k (setPath k p v) :=
  ⟨_, _, _, _, _, rfl⟩

theorem mlfqLoop_frame : ∀ {rounds : Nat} {m r : Option Node} {k k' : Kernel},
    mlfqLoop rounds m k = .ok (r, k') → ∃ q, k' = { k with mlfq := q } := by
  intro rounds
  induction rounds with
  | zero =>
    intro m r k k' ran
    cases m <;> cases ran
    exact ⟨_, rfl⟩
  | succ rounds ih =>
    intro m r k k' ran
    cases m with
    | none =>
      cases ran
      exact ⟨_, rfl⟩
    | some m =>
      simp only [mlfqLoop] at ran
      split at ran
      · exact ih ran
      · split at ran
        · cases ran
        · split at ran
          · obtain ⟨q, rfl⟩ := ih ran
            exact ⟨q, rfl⟩
          · split at ran
            · cases ran
              exact ⟨_, rfl⟩
            · exact ih ran

theorem mlfqScan_frame {header : Node} {r : Option Node} (ran : mlfqScan k header = .ok (r, k')) :
    ∃ q, k' = { k with mlfq := q } := by
  unfold mlfqScan at ran
  obtain ⟨⟨m, k₁⟩, loop, ran⟩ := bind_ok ran
  obtain ⟨q, rfl⟩ := mlfqLoop_frame loop
  simp only at ran
  split at ran
  · cases ran
    exact ⟨_, rfl⟩
  · cases ran
    exact ⟨_, rfl⟩

theorem choosebymlfq_frame {r : Option Node} (ran : choosebymlfq k = .ok (r, k')) :
    ∃ q, k' = { k with mlfq := q } := by
  unfold choosebymlfq at ran
  split at ran
  · cases ran
    exact ⟨_, rfl⟩
  · split at ran
    · exact mlfqScan_frame ran
    · split at ran
      · cases ran
      · split at ran
        · cases ran
          exact ⟨_, rfl⟩
        · exact mlfqScan_frame ran

theorem chosen_storeScan (k : Kernel) (v : Scan) : Chosen k (storeScan k v) := by
  simp only [storeScan]
  split <;> exact ⟨_, _, _, _, _, rfl⟩

theorem updatevals_chosen (ran : updatevals k = .ok k') : Chosen k k' := by
  unfold updatevals at ran
  obtain ⟨v, _, ran⟩ := bind_ok ran
  obtain ⟨⟨m, k₁⟩, chosen, ran⟩ := bind_ok ran
  cases ran
  obtain ⟨q, rfl⟩ := choosebymlfq_frame chosen
  exact (chosen_storeScan k v).trans (chosen_mlfq _ _)

theorem choosebystride_chosen {r : Option Slot} (ran : choosebystride k = .ok (r, k')) :
    Chosen k k' := by
  unfold choosebystride at ran
  obtain ⟨k₁, updated, ran⟩ := bind_ok ran
  have first := (updatevals_chosen updated).trans (chosen_setPath k₁ k₁.defaultHighpr k₁.defaultPath)
  simp only at ran
  split at ran
  · cases ran
    exact first
  · split at ran
    · cases ran
    · cases ran
      exact first.trans (chosen_setPath _ _ _)

theorem getminpath_chosen {r : ℚ} (ran : getminpath k = .ok (r, k')) : Chosen k k' := by
  unfold getminpath at ran
  obtain ⟨⟨p, k₁⟩, chosen, ran⟩ := bind_ok ran
  have first := choosebystride_chosen chosen
  cases p with
  | none =>
    cases ran
    exact first
  | some p =>
    cases ran
    exact first

end Xv6.Proc
