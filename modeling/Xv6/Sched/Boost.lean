import Xv6.Lib.System
import Xv6.Proc.Phases
import Xv6.Smp.Dispatch

/-!
# When the priority boost comes

`scheduler` calls `priorityboost` when `slice_cnt` is 100. That counter is set back at the end of every
quantum, and no quantum is longer than four ticks, so the boost is never reached.
-/

namespace Xv6.Sched

open Function (update)
open Proc Steps Smp

/-- The counter and the lengths of the quanta. -/
def clock (q : Mlfq) : Nat × (Fin 3 → Nat) := (q.sliceCnt, q.slice)

def Timed (q : Mlfq) : Prop := q.sliceCnt < 4 ∧ ∀ i, q.slice i ≤ 4

variable {k k' : Kernel} {cur np p q : Slot} {s s' : Machine}

theorem Timed.congr {q q' : Mlfq} (timed : Timed q) (same : clock q' = clock q) : Timed q' := by
  obtain ⟨count, slice⟩ := Prod.mk.inj same
  exact ⟨count ▸ timed.1, fun i => congrFun slice i ▸ timed.2 i⟩

/-! ### The choice leaves the clock alone -/

theorem mlfqLoop_clock : ∀ {rounds : Nat} {m r : Option Node} {k k' : Kernel},
    mlfqLoop rounds m k = .ok (r, k') → clock k'.mlfq = clock k.mlfq := by
  intro rounds
  induction rounds with
  | zero =>
    intro m r k k' ran
    cases m <;> cases ran
    rfl
  | succ rounds ih =>
    intro m r k k' ran
    cases m with
    | none =>
      cases ran
      rfl
    | some m =>
      simp only [mlfqLoop] at ran
      split at ran
      · exact (ih ran :)
      · split at ran
        · cases ran
        · split at ran
          · exact (ih ran :)
          · split at ran
            · cases ran
              rfl
            · exact (ih ran :)

theorem choosebymlfq_clock {r : Option Node} (ran : choosebymlfq k = .ok (r, k')) :
    clock k'.mlfq = clock k.mlfq := by
  have scanned : ∀ {header}, mlfqScan k header = .ok (r, k') → clock k'.mlfq = clock k.mlfq := by
    intro header ran
    unfold mlfqScan at ran
    obtain ⟨⟨m, k₁⟩, loop, ran⟩ := bind_ok ran
    simp only at ran
    split at ran
    · cases ran
      exact (mlfqLoop_clock loop :)
    · cases ran
      exact (mlfqLoop_clock loop :)
  unfold choosebymlfq at ran
  split at ran
  · cases ran
    rfl
  · split at ran
    · exact scanned ran
    · split at ran
      · cases ran
      · split at ran
        · cases ran
          rfl
        · exact scanned ran

theorem updatevals_clock (ran : updatevals k = .ok k') : clock k'.mlfq = clock k.mlfq := by
  unfold updatevals at ran
  obtain ⟨v, _, ran⟩ := bind_ok ran
  obtain ⟨⟨m, k₁⟩, chose, ran⟩ := bind_ok ran
  cases ran
  have stored : clock (storeScan k v).mlfq = clock k.mlfq := by
    simp only [storeScan]
    split <;> rfl
  exact (choosebymlfq_clock chose).trans stored

theorem choosebystride_clock {r : Option Slot} (ran : choosebystride k = .ok (r, k')) :
    clock k'.mlfq = clock k.mlfq := by
  unfold choosebystride at ran
  obtain ⟨k₁, updated, ran⟩ := bind_ok ran
  simp only at ran
  split at ran
  · cases ran
    exact (updatevals_clock updated :)
  · split at ran
    · cases ran
    · cases ran
      exact (updatevals_clock updated :)

theorem getminpath_clock {r : ℚ} (ran : getminpath k = .ok (r, k')) : clock k'.mlfq = clock k.mlfq := by
  unfold getminpath at ran
  obtain ⟨⟨p, k₁⟩, chose, ran⟩ := bind_ok ran
  have same := choosebystride_clock chose
  cases p <;> cases ran <;> exact same

/-! ### System calls -/

theorem enqueue_clock (ran : enqueue k p = .ok k') : clock k'.mlfq = clock k.mlfq := by
  unfold enqueue at ran
  obtain ⟨⟨m, k₁⟩, alloc, ran⟩ := bind_ok ran
  unfold allocmlfqnode at alloc
  split at alloc
  · cases alloc
  · cases alloc
    simp only at ran
    split at ran
    · cases ran
    · cases ran
      rfl

theorem createLink_clock {r : Int} (ran : createLink k cur np = .ok (r, k')) : clock k'.mlfq = clock k.mlfq := by
  unfold createLink at ran
  obtain ⟨k₁, locked, ran⟩ := bind_ok ran
  obtain rfl := acquire_eq locked
  obtain ⟨k₂, queued, ran⟩ := bind_ok ran
  cases ran
  unfold queueThread at queued
  split at queued
  · exact (enqueue_clock queued :)
  · cases queued
    rfl

theorem shareLoop_clock : ∀ {rounds : Nat} {q : Option Slot} {k k' : Kernel}, shareLoop rounds q k = .ok k' →
    clock k'.mlfq = clock k.mlfq := by
  intro rounds
  induction rounds with
  | zero =>
    intro q k k' ran
    cases q <;> cases ran
    rfl
  | succ rounds ih =>
    intro q k k' ran
    cases q with
    | none =>
      cases ran
      rfl
    | some p =>
      simp only [shareLoop] at ran
      split at ran
      · split at ran
        · cases ran
        · exact (ih ran :)
      · exact (ih ran :)

theorem cpuShare_clock {n r : Int} (ran : cpuShare k cur n = .ok (r, k')) : clock k'.mlfq = clock k.mlfq := by
  unfold cpuShare at ran
  obtain ⟨k₁, locked, ran⟩ := bind_ok ran
  obtain rfl := acquire_eq locked
  split at ran
  · cases ran
    rfl
  · obtain ⟨p, _, ran⟩ := bind_ok ran
    obtain ⟨⟨path, k₂⟩, least, ran⟩ := bind_ok ran
    obtain ⟨k₃, looped, ran⟩ := bind_ok ran
    cases ran
    exact (shareLoop_clock looped).trans (getminpath_clock least :)

theorem enqueueLoop_clock : ∀ {rounds : Nat} {q : Option Slot} {k k' : Kernel}, enqueueLoop rounds q k = .ok k' →
    clock k'.mlfq = clock k.mlfq := by
  intro rounds
  induction rounds with
  | zero =>
    intro q k k' ran
    cases q <;> cases ran
    rfl
  | succ rounds ih =>
    intro q k k' ran
    cases q with
    | none =>
      cases ran
      rfl
    | some p =>
      obtain ⟨k₁, queued, ran⟩ := bind_ok ran
      exact (ih ran).trans (enqueue_clock queued :)

/-- What `initmlfq` stores. -/
theorem timed_init (q : Mlfq) : Timed q.init := by
  refine ⟨Nat.zero_lt_succ 3, fun i => ?_⟩
  simp only [Mlfq.init]
  split
  · decide
  · split <;> decide

theorem runMLFQ_timed {r : Int} (timed : Timed k.mlfq) (ran : runMLFQ k cur = .ok (r, k')) : Timed k'.mlfq := by
  unfold runMLFQ at ran
  obtain ⟨k₁, locked, ran⟩ := bind_ok ran
  obtain rfl := acquire_eq locked
  obtain ⟨k₂, ready, ran⟩ := bind_ok ran
  obtain ⟨k₃, started, ran⟩ := bind_ok ran
  obtain ⟨h, _, ran⟩ := bind_ok ran
  obtain ⟨k₄, looped, ran⟩ := bind_ok ran
  cases ran
  have first : Timed k₂.mlfq := by
    unfold ensureMlfq at ready
    split at ready
    · obtain ⟨⟨path, k₅⟩, least, ready⟩ := bind_ok ready
      cases ready
      exact (timed_init k.mlfq).congr (getminpath_clock least :)
    · cases ready
      exact timed
  have second : clock k₃.mlfq = clock k₂.mlfq := by
    unfold ensurePath at started
    split at started
    · obtain ⟨⟨path, k₅⟩, least, started⟩ := bind_ok started
      cases started
      exact (getminpath_clock least :)
    · cases started
      rfl
  exact first.congr ((enqueueLoop_clock looped).trans second)

theorem reapLoop_mlfq : ∀ {force : Bool} {rounds : Nat} {start : Option Slot} {found found' : Bool} {k k' : Kernel},
    reapLoop force rounds start found k = .ok (found', k') → k'.mlfq = k.mlfq := by
  intro force rounds
  induction rounds with
  | zero =>
    intro start found found' k k' ran
    cases start <;> cases ran
    rfl
  | succ rounds ih =>
    intro start found found' k k' ran
    cases start with
    | none =>
      cases ran
      rfl
    | some p =>
      have dealloc_mlfq : ∀ {k k' : Kernel} {r : Int}, deallocThread k p = .ok (r, k') → k'.mlfq = k.mlfq := by
        intro k k' r ran
        rcases deallocThread_frame ran with ⟨_, rfl⟩ | ⟨_, _, _, _, _, _, _, rfl⟩ <;> rfl
      cases force
      · simp only [reapLoop, Bool.false_eq_true, if_false] at ran
        split at ran
        · obtain ⟨⟨value, k₁⟩, dealloc, ran⟩ := bind_ok ran
          exact (ih ran).trans (dealloc_mlfq dealloc :)
        · exact (ih ran :)
      · simp only [reapLoop, if_true, Function.update_self] at ran
        obtain ⟨⟨value, k₁⟩, dealloc, ran⟩ := bind_ok ran
        exact (ih ran).trans (dealloc_mlfq dealloc :)

theorem joinPass_mlfq {thread : Nat} {found : Bool} {outcome : Outcome}
    (ran : joinPass k cur thread found = .ok (outcome, k')) : k'.mlfq = k.mlfq := by
  rcases joinPass_frame ran with ⟨_, _, k₁, _, _, _, dealloc, _, rfl⟩ | ⟨_, rfl⟩ | ⟨_, _, rfl⟩
  · rcases deallocThread_frame dealloc with ⟨_, rfl⟩ | ⟨_, _, _, _, _, _, _, rfl⟩ <;> rfl
  · rfl
  · rfl

theorem exitReap_mlfq {outcome : Outcome} (ran : exitReap k cur = .ok (outcome, k')) : k'.mlfq = k.mlfq := by
  obtain ⟨_, k₁, loop, ending⟩ := exitReap_frame ran
  have same : k₁.mlfq = k.mlfq := (reapLoop_mlfq loop :)
  rcases ending with ⟨_, rfl⟩ | ⟨_, rfl⟩ <;> exact same

theorem waitPass_mlfq {outcome : Outcome} (ran : waitPass k cur = .ok (outcome, k')) : k'.mlfq = k.mlfq := by
  rcases waitPass_frame ran with ⟨_, _, _, _, _, _, rfl⟩ | ⟨_, rfl⟩ | ⟨_, rfl⟩ <;> rfl

theorem enter_timed {act : Act} {r : Next × Kernel} (timed : Timed k.mlfq) (ran : enter k cur act = .ok r) :
    Timed r.2.mlfq := by
  have of_eq : ∀ {k₁ : Kernel}, k₁.mlfq = k.mlfq → Timed k₁.mlfq := fun same => same ▸ timed
  cases act with
  | fork | threadCreate =>
    obtain ⟨⟨slot, k₁⟩, alloc, ran⟩ := bind_ok ran
    cases ran
    obtain ⟨_, ⟨rfl, rfl, _⟩ | ⟨np, first, kstack, mem, ⟨rfl, rfl⟩ | ⟨rfl, rfl⟩⟩⟩ := allocproc_frame alloc <;>
      exact timed
  | threadExit retval =>
    obtain ⟨k₁, exited, ran⟩ := bind_ok ran
    cases ran
    obtain ⟨_, _, rfl⟩ := threadExit_frame exited
    exact timed
  | threadJoin thread =>
    obtain ⟨⟨outcome, k₁⟩, joined, ran⟩ := bind_ok ran
    cases ran
    have kept := of_eq (joinPass_mlfq joined)
    cases outcome <;> exact kept
  | exit =>
    obtain ⟨⟨outcome, k₁⟩, started, ran⟩ := bind_ok ran
    cases ran
    have kept : Timed k₁.mlfq := by
      rcases exitStart_frame started with ⟨_, _, rfl⟩ | ⟨_, reaping⟩
      · exact timed
      · exact of_eq (exitReap_mlfq reaping)
    cases outcome <;> exact kept
  | wait =>
    obtain ⟨⟨outcome, k₁⟩, waited, ran⟩ := bind_ok ran
    cases ran
    have kept := of_eq (waitPass_mlfq waited)
    cases outcome <;> exact kept
  | exec program =>
    simp only [enter] at ran
    split at ran
    · cases ran
      exact timed
    · obtain ⟨k₁, slept, ran⟩ := bind_ok ran
      cases ran
      obtain ⟨_, _, rfl⟩ := sleepOtherThreads_frame slept
      exact timed
  | sbrk n =>
    obtain ⟨⟨value, k₁⟩, grown, ran⟩ := bind_ok ran
    cases ran
    obtain ⟨_, _, _, rfl⟩ := growproc_frame grown
    exact timed
  | cpuShare n =>
    obtain ⟨⟨value, k₁⟩, shared, ran⟩ := bind_ok ran
    cases ran
    exact timed.congr (cpuShare_clock shared)
  | runMLFQ =>
    obtain ⟨⟨value, k₁⟩, queued, ran⟩ := bind_ok ran
    cases ran
    exact runMLFQ_timed timed queued
  | kill pid =>
    obtain ⟨⟨value, k₁⟩, killed, ran⟩ := bind_ok ran
    cases ran
    obtain ⟨_, _, _, rfl⟩ := kill_frame killed
    exact timed

theorem goOn_timed {point : Context} {r : Next × Kernel} (timed : Timed k.mlfq) (ran : goOn k cur point = .ok r) :
    Timed r.2.mlfq := by
  have of_eq : ∀ k₁ : Kernel, k₁.mlfq = k.mlfq → Timed k₁.mlfq := fun k₁ same => same ▸ timed
  cases point with
  | user | createPid | createTid | createCount =>
    cases ran
    exact timed
  | forkCopy np =>
    obtain ⟨⟨value, k₁⟩, copied, ran⟩ := bind_ok ran
    cases ran
    obtain ⟨_, _, _, _, _, ⟨_, rfl⟩ | ⟨_, _, rfl⟩⟩ := forkCopy_frame copied <;> exact timed
  | createStack np =>
    obtain ⟨⟨placed, k₁⟩, place, ran⟩ := bind_ok ran
    obtain ⟨_, _, _, _, ⟨rfl, rfl⟩ | ⟨rfl, _, rfl⟩⟩ := createPlace_frame place
    all_goals
      cases ran
      exact timed
  | createLink np =>
    obtain ⟨⟨value, k₁⟩, linked, ran⟩ := bind_ok ran
    cases ran
    exact timed.congr (createLink_clock linked)
  | join thread found =>
    obtain ⟨⟨outcome, k₁⟩, joined, ran⟩ := bind_ok ran
    cases ran
    have kept := of_eq k₁ (joinPass_mlfq joined :)
    cases outcome <;> exact kept
  | exitReap =>
    obtain ⟨⟨outcome, k₁⟩, reaping, ran⟩ := bind_ok ran
    cases ran
    have kept := of_eq k₁ (exitReap_mlfq reaping :)
    cases outcome <;> exact kept
  | exitTail =>
    obtain ⟨k₁, exited, ran⟩ := bind_ok ran
    cases ran
    obtain ⟨_, _, _, rfl⟩ := exitTail_frame exited
    exact timed
  | wait =>
    obtain ⟨⟨outcome, k₁⟩, waited, ran⟩ := bind_ok ran
    cases ran
    have kept := of_eq k₁ (waitPass_mlfq waited :)
    cases outcome <;> exact kept
  | execLoad program =>
    obtain ⟨⟨old, k₁⟩, loaded, ran⟩ := bind_ok ran
    obtain ⟨_, _, _, _, rfl⟩ := execLoad_frame loaded
    cases old <;> cases ran <;> exact timed
  | execCommit old =>
    simp only [goOn] at ran
    split at ran
    · obtain ⟨k₁, promoted, ran⟩ := bind_ok ran
      cases ran
      obtain ⟨_, _, _, _, _, rfl⟩ := promote_frame promoted
      exact timed
    · obtain ⟨k₁, ended, ran⟩ := bind_ok ran
      cases ran
      unfold endOthers at ended
      obtain ⟨k₂, locked, ended⟩ := bind_ok ended
      obtain rfl := acquire_eq locked
      obtain ⟨⟨_, k₃⟩, loop, ended⟩ := bind_ok ended
      cases ended
      exact of_eq k₃ (reapLoop_mlfq loop :)
  | execFree old =>
    obtain ⟨mem, _, ran⟩ := bind_ok ran
    cases ran
    exact timed

/-! ### Rounds of `scheduler` -/

/-- The round calls `priorityboost`. -/
def boosts (k : Kernel) : Bool :=
  match acquire k >>= choosebystride with
  | .ok (some p, k) =>
    match k.schedmode p, k.mnode p with
    | .mlfq, some m =>
      match endSlice (k.mlfq.tick m) m (k.state p = .RUNNABLE) with
      | .ok q => q.sliceCnt = 100
      | .error _ => false
    | _, _ => false
  | _ => false

theorem requeue_clock {q q' : Mlfq} {m : Node} (ran : requeue q m = .ok q') : clock q' = clock q := by
  have inserted : ∀ {q q' : Mlfq} {i : Fin 4} {m : Node}, q.insertBeforeHeader i m = .ok q' → clock q' = clock q := by
    intro q q' i m ran
    unfold Mlfq.insertBeforeHeader at ran
    split at ran
    · cases ran
    · cases ran
      rfl
  unfold requeue at ran
  split at ran
  · obtain ⟨q₁, lowered, ran⟩ := bind_ok ran
    cases ran
    unfold Mlfq.lowerlevel at lowered
    split at lowered
    · cases lowered
      rfl
    · obtain ⟨q₂, put, lowered⟩ := bind_ok lowered
      cases lowered
      exact (inserted put :)
  · exact (inserted ran :)

/-- The counter after a tick: back to 0, or below the length of the quantum. -/
theorem endSlice_timed {q q' : Mlfq} {m : Node} {runnable : Bool} (timed : Timed q)
    (ran : endSlice (q.tick m) m runnable = .ok q') : Timed q' := by
  unfold endSlice at ran
  split at ran
  · obtain ⟨q₁, requeued, ran⟩ := bind_ok ran
    cases ran
    exact ⟨Nat.zero_lt_succ 3, fun i => (Prod.mk.inj (requeue_clock requeued)).2 ▸ timed.2 i⟩
  next short =>
    cases ran
    refine ⟨?_, timed.2⟩
    have bound := timed.2 (q.level m)
    have below := not_or.mp short
    exact Nat.lt_of_lt_of_le (Nat.lt_of_not_le below.1) bound

theorem boosts_false (timed : Timed k.mlfq) : boosts k = false := by
  unfold boosts
  split
  next p k₁ ran =>
    obtain ⟨k₀, locked, chose⟩ := bind_ok ran
    obtain rfl := acquire_eq locked
    have after : Timed k₁.mlfq := timed.congr (choosebystride_clock chose :)
    split
    · split
      next q ended =>
        have := (endSlice_timed after ended).1
        simp only [decide_eq_false_iff_not]
        omega
      · rfl
    · rfl
  · rfl

theorem mlfqTick_timed (timed : Timed k.mlfq) (ran : mlfqTick k p = .ok k') : Timed k'.mlfq := by
  unfold mlfqTick at ran
  split at ran
  · cases ran
  · obtain ⟨q, ended, ran⟩ := bind_ok ran
    obtain ⟨q', boosted, ran⟩ := bind_ok ran
    cases ran
    have after := endSlice_timed timed ended
    unfold boostSlice at boosted
    rw [if_neg (by have := after.1; omega)] at boosted
    cases boosted
    exact after

theorem schedule_timed {r : Option Slot} (timed : Timed k.mlfq) (ran : schedule k = .ok (r, k')) : Timed k'.mlfq := by
  unfold schedule at ran
  obtain ⟨k₀, locked, ran⟩ := bind_ok ran
  obtain rfl := acquire_eq locked
  obtain ⟨⟨found, k₁⟩, chose, ran⟩ := bind_ok ran
  have after : Timed k₁.mlfq := timed.congr (choosebystride_clock chose :)
  cases found with
  | none =>
    cases ran
    exact after
  | some p =>
    obtain ⟨⟨q, k₂⟩, charged, ran⟩ := bind_ok ran
    cases ran
    unfold charge at charged
    split at charged
    · obtain ⟨⟨_, k₃⟩, turned, charged⟩ := bind_ok charged
      cases charged
      obtain ⟨_, _, rfl⟩ := takeTurn_frame turned
      exact after
    · obtain ⟨⟨_, k₃⟩, turned, charged⟩ := bind_ok charged
      cases charged
      obtain ⟨_, _, rfl⟩ := takeTurn_frame turned
      exact after
    · obtain ⟨k₃, ticked, charged⟩ := bind_ok charged
      cases charged
      exact (mlfqTick_timed after ticked :)

/-! ### Runs -/

theorem place_mlfq (s : Machine) (c : Nat) (p : Slot) (r : Next × Kernel) : (s.place c p r).k.mlfq = r.2.mlfq := by
  obtain ⟨next, k⟩ := r
  cases next <;> rfl

theorem step_timed {e : Smp.Event} (timed : Timed s.k.mlfq) (stepped : s.step e = some s') : Timed s'.k.mlfq := by
  cases Machine.moves stepped with
  | idle c _ ran => exact schedule_timed timed ran
  | switch c _ _ _ _ ran => exact schedule_timed timed ran
  | resume c _ _ _ _ went ran =>
    rw [place_mlfq]
    exact goOn_timed (schedule_timed timed ran) went
  | call c act _ _ ran =>
    rw [place_mlfq]
    exact enter_timed timed ran
  | advance c _ _ ran =>
    rw [place_mlfq]
    exact goOn_timed timed ran
  | yield c _ => exact timed
  | block c chan _ _ => exact timed
  | wakeup chan => exact timed

theorem userinit_timed {free : List Nat} (booted : userinit free = .ok k) : Timed k.mlfq := by
  unfold userinit at booted
  obtain ⟨⟨slot, k₁⟩, alloc, booted⟩ := bind_ok booted
  have zero : slot = none ∨ k₁.mlfq = (zeroed free).mlfq := by
    obtain ⟨_, ⟨rfl, _⟩ | ⟨np, found, kstack, mem, ⟨rfl, _⟩ | ⟨rfl, rfl⟩⟩⟩ := allocproc_frame alloc
    · exact .inl rfl
    · exact .inl rfl
    · exact .inr rfl
  cases slot with
  | none => cases booted
  | some p =>
    have start : Timed k₁.mlfq := by
      rw [zero.resolve_left (by rintro ⟨⟩)]
      exact ⟨Nat.zero_lt_succ 3, fun _ => Nat.zero_le 4⟩
    change userinitAt k₁ p = .ok k at booted
    unfold userinitAt at booted
    obtain ⟨⟨pgdir, mem⟩, _, booted⟩ := bind_ok booted
    simp only at booted
    split at booted
    · cases booted
    · obtain ⟨mem', _, booted⟩ := bind_ok booted
      obtain ⟨k₂, locked, booted⟩ := bind_ok booted
      obtain rfl := acquire_eq locked
      obtain ⟨k₃, updated, booted⟩ := bind_ok booted
      cases booted
      exact start.congr (updatevals_clock updated :)

/-- The round of `scheduler` is one of the MLFQ. -/
def mine (k : Kernel) : Bool :=
  match acquire k >>= choosebystride with
  | .ok (some p, k) => k.schedmode p = .mlfq
  | _ => false

/-- The dispatches of the MLFQ since the last `priorityboost` or `initmlfq`, and those since
`initmlfq`. -/
def tally (s : Machine) (since total : Nat) : Smp.Event → Nat × Nat
  | .dispatch _ =>
    if boosts s.k then (0, total + 1) else if mine s.k then (since + 1, total + 1) else (since, total)
  | .call _ .runMLFQ => if s.k.mlfq.headers 0 = none then (0, 0) else (since, total)
  | _ => (since, total)

/-- The machine with the two counts beside it. -/
def tallied : System (Machine × Nat × Nat) Smp.Event where
  init s := smp.init s.1 ∧ s.2 = (0, 0)
  step s e := (smp.step s.1 e).map fun t => (t, tally s.1 s.2.1 s.2.2 e)

/-- **The priority boost** is never executed. So the number of MLFQ dispatches since the last one
keeps to 100 exactly as long as there have been no more than 100 of them altogether. -/
theorem boost_period_iff {since total : Nat} (reach : tallied.Reach System.Any (s, since, total)) :
    boosts s.k = false ∧ (since ≤ 100 ↔ total ≤ 100) := by
  have inv : Timed s.k.mlfq ∧ since = total := by
    refine System.Reach.invariant (P := fun c : Machine × Nat × Nat => Timed c.1.k.mlfq ∧ c.2.1 = c.2.2) ?_ ?_ reach
    · rintro ⟨s, _⟩ ⟨⟨⟨free, booted⟩, _⟩, rfl⟩
      exact ⟨userinit_timed booted, rfl⟩
    · rintro ⟨s, since, total⟩ e c ⟨timed, same⟩ _ stepped
      obtain ⟨t, moved, rfl⟩ := Option.map_eq_some_iff.mp stepped
      refine ⟨step_timed timed moved, ?_⟩
      simp only at same
      subst same
      -- without a boost both counts go up together, and `initmlfq` clears both
      simp only [tally, boosts_false timed]
      split
      · split
        next is => cases is
        · split <;> rfl
      · split <;> rfl
      · rfl
  obtain ⟨timed, rfl⟩ := inv
  exact ⟨boosts_false timed, Iff.rfl⟩

/-- A run of the first process alone. -/
def solo (rounds : Nat) : List Smp.Event :=
  [.dispatch 0, .call 0 .runMLFQ] ++ (List.replicate rounds [Smp.Event.yield 0, .dispatch 0]).flatten

theorem tallied_of_run (rounds : Nat) {P : Machine × Nat × Nat → Bool}
    (ran : ((userinit (List.range' 1000 400)).toOption.bind fun k =>
      tallied.exec System.Any (solo rounds) ({ k, cpu := fun _ => none }, 0, 0)).any P = true) :
    ∃ s, tallied.Reach System.Any s ∧ P s = true := by
  cases booted : userinit (List.range' 1000 400) with
  | error why => simp [booted, Except.toOption] at ran
  | ok k =>
    simp only [booted, Except.toOption, Option.bind_some] at ran
    exact System.Reach.of_exec (S := tallied) System.Any (solo rounds) ⟨⟨⟨_, booted⟩, rfl⟩, rfl⟩ ran

theorem boost_period_iff_short : ∃ s since total, tallied.Reach System.Any (s, since, total) ∧ since = 3 ∧
    boosts s.k = false := by
  obtain ⟨⟨s, since, total⟩, reach, three⟩ :=
    tallied_of_run 3 (P := fun s => s.2.1 = 3) (by decide +kernel)
  exact ⟨s, since, total, reach, of_decide_eq_true three, (boost_period_iff reach).1⟩

/-- After 101 rounds of one thread no boost has come. -/
theorem boost_overdue : ∃ s since total, tallied.Reach System.Any (s, since, total) ∧ 100 < since := by
  obtain ⟨⟨s, since, total⟩, reach, many⟩ :=
    tallied_of_run 101 (P := fun s => 100 < s.2.1) (by decide +kernel)
  exact ⟨s, since, total, reach, of_decide_eq_true many⟩

end Xv6.Sched
