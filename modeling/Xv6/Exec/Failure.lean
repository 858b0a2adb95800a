import Xv6.Exec.Model
import Xv6.Proc.Layout
import Xv6.Smp.Machine
import Xv6.Vm.Frames

/-!
# What a failing `exec` leaves behind

A call of `exec` that returns -1 gives back every page it has taken. But `sleep_other_threads` has put the
ready threads of the group to sleep, on no channel that anybody will wake, and `originalbase` is assigned
before the last steps that can fail.
-/

namespace Xv6.Exec

open Function (update)
open Bytes (Byte)
open Proc Vm Steps

variable {s s' : Host} {k k' : Kernel} {cur : Slot} {path : List Byte} {ip : Option File} {argv : List (List Byte)}
  {file : File} {m m' : Memory} {pgdir : Nat}

/-! ### The pages -/

theorem loadHeader_moves {ph : Proghdr} {sz : Nat} {r : Option Nat} (user : sz < KERNBASE)
    (ran : loadHeader pgdir file ph sz m = .ok (r, m')) : Moves pgdir 0 m m' ∧ ∀ sz', r = some sz' → sz' < KERNBASE := by
  unfold loadHeader at ran
  split at ran
  · cases ran
    exact ⟨.refl .., fun _ same => Option.some.inj same ▸ user⟩
  split at ran
  · cases ran
    exact ⟨.refl .., nofun⟩
  split at ran
  · cases ran
    exact ⟨.refl .., nofun⟩
  obtain ⟨⟨sz₁, m₁⟩, alloc, ran⟩ := bind_ok ran
  have moved := allocuvm_moves alloc
  have small : sz₁ < KERNBASE := by
    rcases allocuvm_page alloc with ⟨rfl, _, below, _⟩ | ⟨rfl, _, _⟩ | ⟨rfl, _⟩
    · exact below
    · exact user
    · decide
  simp only at ran
  split at ran
  · cases ran
    exact ⟨moved, nofun⟩
  split at ran
  · cases ran
    exact ⟨moved, nofun⟩
  obtain ⟨loaded, _, ran⟩ := bind_ok ran
  cases loaded <;> cases ran
  · exact ⟨moved, nofun⟩
  · exact ⟨moved, fun _ same => Option.some.inj same ▸ small⟩

theorem headerLoop_moves : ∀ {rounds off sz : Nat} {r : Option Nat} {m : Memory}, sz < KERNBASE →
    headerLoop pgdir file rounds off sz m = .ok (r, m') → Moves pgdir 0 m m' ∧ ∀ sz', r = some sz' → sz' < KERNBASE := by
  intro rounds
  induction rounds with
  | zero =>
    intro off sz r m user ran
    cases ran
    exact ⟨.refl .., fun _ same => Option.some.inj same ▸ user⟩
  | succ rounds ih =>
    intro off sz r m user ran
    simp only [headerLoop] at ran
    split at ran
    · cases ran
      exact ⟨.refl .., nofun⟩
    · obtain ⟨⟨loaded, m₁⟩, header, ran⟩ := bind_ok ran
      obtain ⟨moved, small⟩ := loadHeader_moves user header
      cases loaded with
      | none =>
        cases ran
        exact ⟨moved, nofun⟩
      | some sz₁ =>
        obtain ⟨rest, bound⟩ := ih (small sz₁ rfl) ran
        exact ⟨moved.then_ rest, bound⟩

/-- What `load` takes is in the directory of the image, and nothing is taken without an image. -/
theorem load_pages {r : Option Image} (real : 0 ∉ m.free) (ran : load m file = .ok (r, m')) :
    match r with
    | none => (m'.free : Multiset Nat) = m.free
    | some image => m'.held image.pgdir = m.free ∧ image.sz < KERNBASE := by
  unfold load at ran
  split at ran
  · cases ran
    rfl
  simp only at ran
  split at ran
  · cases ran
    rfl
  obtain ⟨⟨pgdir, m₁⟩, made, ran⟩ := bind_ok ran
  obtain ⟨failed, success, -⟩ := setupkvm_free made
  simp only at ran
  split at ran
  next null =>
    cases ran
    exact failed real null
  next some_ =>
    obtain ⟨⟨loaded, m₂⟩, headers, ran⟩ := bind_ok ran
    obtain ⟨moved, small⟩ := headerLoop_moves (by decide) headers
    have held : m₂.held pgdir = m.free := by rw [moved.held, zero_add, success some_]
    cases loaded with
    | none =>
      obtain ⟨m₃, freed, ran⟩ := bind_ok ran
      cases ran
      exact (freevm_free freed).1.trans held
    | some sz =>
      cases ran
      exact ⟨held, small sz rfl⟩

theorem makeStack_pages {sz : Nat} (user : sz < KERNBASE)
    (ran : makeStack m pgdir (PGROUNDUP sz) argv = .ok (none, m')) : (m'.free : Multiset Nat) = m.held pgdir := by
  unfold makeStack at ran
  obtain ⟨⟨top, m₁⟩, alloc, ran⟩ := bind_ok ran
  have moved := allocuvm_moves alloc
  simp only at ran
  split at ran
  · obtain ⟨m₂, freed, ran⟩ := bind_ok ran
    cases ran
    rw [(freevm_free freed).1, moved.held, zero_add]
  next success =>
    obtain ⟨m₂, guard, ran⟩ := bind_ok ran
    have small : pages sz * PGSIZE + 2 * PGSIZE < 2 ^ 32 := by
      simp only [pages, PGSIZE, KERNBASE] at user ⊢
      omega
    rw [PGROUNDUP_eq] at alloc
    obtain ⟨rfl, below, -⟩ := stack_page small alloc success guard
    rw [uint32_base (by omega)] at guard
    have inside : pages sz < 512 * 1024 := by
      simp only [PGSIZE, KERNBASE] at below
      omega
    have guarded := moved.then_ (clearpteu_moves inside guard)
    obtain ⟨pushed, _, ran⟩ := bind_ok ran
    cases pushed with
    | none =>
      obtain ⟨m₃, freed, ran⟩ := bind_ok ran
      cases ran
      rw [(freevm_free freed).1, guarded.held, zero_add]
    | some sp => cases ran

/-! ### The other threads -/

theorem sleepLoop_succ {rounds : Nat} {q : Slot} (ran : sleepLoop cur (rounds + 1) (some q) k = .ok k') :
    ∃ k₁, sleepLoop cur rounds (k.threads.next q) k₁ = .ok k' ∧ k₁.threads = k.threads ∧
      (∀ p, p ≠ q → k₁.state p = k.state p) ∧
      (q ≠ cur ∧ k.state q = .RUNNABLE ∧ k₁.state q = .SLEEPING ∨
        ¬(q ≠ cur ∧ k.state q = .RUNNABLE) ∧ k₁.state q = k.state q) := by
  simp only [sleepLoop] at ran
  refine ⟨_, ran, ?_⟩
  split
  next ready =>
    exact ⟨rfl, fun p other => Function.update_of_ne other _ _, .inl ⟨ready.1, ready.2, Function.update_self ..⟩⟩
  next busy => exact ⟨rfl, fun _ _ => rfl, .inr ⟨busy, rfl⟩⟩

theorem sleepLoop_kept : ∀ {rounds : Nat} {q : Option Slot} {k k' : Kernel}, sleepLoop cur rounds q k = .ok k' →
    ∀ p, k'.state p = k.state p ∨ p ≠ cur ∧ k.state p = .RUNNABLE ∧ ∃ h, q = some h ∧ Chain.On k.threads.next h p := by
  intro rounds
  induction rounds with
  | zero =>
    intro q k k' ran p
    cases q <;> cases ran
    exact .inl rfl
  | succ rounds ih =>
    intro q k k' ran p
    cases q with
    | none =>
      cases ran
      exact .inl rfl
    | some q =>
      obtain ⟨k₁, rest, threads, away, here⟩ := sleepLoop_succ ran
      by_cases same : p = q
      · subst same
        rcases here with ⟨other, ready, -⟩ | ⟨-, kept⟩
        · exact .inr ⟨other, ready, p, rfl, .here⟩
        · rcases ih rest p with later | ⟨other, ready, _⟩
          · exact .inl (later.trans kept)
          · exact .inr ⟨other, kept ▸ ready, p, rfl, .here⟩
      · rw [← away p same]
        refine (ih rest p).imp_right fun ⟨other, ready, h, next, on⟩ => ⟨other, ready, q, rfl, .step next ?_⟩
        exact threads ▸ on

theorem sleepLoop_asleep : ∀ {rounds : Nat} {q p : Slot} {k k' : Kernel}, sleepLoop cur rounds (some q) k = .ok k' →
    Chain.On k.threads.next q p → p ≠ cur → k'.state p ≠ .RUNNABLE := by
  intro rounds
  induction rounds with
  | zero =>
    intro q p k k' ran
    cases ran
  | succ rounds ih =>
    intro q p k k' ran on other
    obtain ⟨k₁, rest, threads, away, here⟩ := sleepLoop_succ ran
    cases on with
    | here =>
      have dozing : k₁.state q ≠ .RUNNABLE := by
        rcases here with ⟨-, -, asleep⟩ | ⟨busy, kept⟩
        · rw [asleep]
          nofun
        · rw [kept]
          exact fun ready => busy ⟨other, ready⟩
      rcases sleepLoop_kept rest q with same | ⟨-, ready, -⟩
      · rw [same]
        exact dozing
      · exact absurd ready dozing
    | step next on =>
      rw [next] at rest
      exact ih rest (threads ▸ on) other

/-- The list of threads that `sleep_other_threads` goes through. -/
def Listed (k : Kernel) (cur p : Slot) : Prop :=
  ∃ h, getHighestMaster k cur = .ok h ∧ Chain.On k.threads.next h p

/-- `sleep_other_threads` changes no state exactly when no other thread on the list is ready. -/
theorem sleepOtherThreads_kept_iff (ran : sleepOtherThreads k cur = .ok k') :
    (∀ p, p ≠ cur → k'.state p = k.state p) ↔ ∀ p, p ≠ cur → Listed k cur p → k.state p ≠ .RUNNABLE := by
  unfold sleepOtherThreads at ran
  obtain ⟨k₁, locked, ran⟩ := bind_ok ran
  obtain rfl := acquire_eq locked
  obtain ⟨h, highest, ran⟩ := bind_ok ran
  obtain ⟨k₂, slept, ran⟩ := bind_ok ran
  cases ran
  have highest : getHighestMaster k cur = .ok h := highest
  constructor
  · rintro same p other ⟨h', highest', on⟩ runnable
    cases Except.ok.inj (highest'.symm.trans highest)
    exact sleepLoop_asleep slept on other ((same p other).trans runnable)
  · intro quiet p other
    rcases sleepLoop_kept slept p with same | ⟨_, runnable, q, first, on⟩
    · exact same
    · cases first
      exact absurd runnable (quiet p other ⟨h, highest, on⟩)

/-! ### The call -/

/-- The caller's memory, name and trap frame, the other threads and the pages are as before. -/
structure Unchanged (cur : Slot) (s s' : Host) : Prop where
  pgdir : s'.k.pgdir cur = s.k.pgdir cur
  sz : s'.k.sz cur = s.k.sz cur
  originalbase : s'.k.originalbase cur = s.k.originalbase cur
  name : s'.name cur = s.name cur
  tf : s'.tf cur = s.tf cur
  others : ∀ p, p ≠ cur → s'.k.state p = s.k.state p ∧ s'.k.chan p = s.k.chan p
  pages : s'.k.mem.free.Perm s.k.mem.free

/-- The ways in which `exec` returns -1. -/
inductive Failed (s : Host) (cur : Slot) (ip : Option File) : Host → Prop where
  | killed : s.k.killed cur = true → Failed s cur ip s
  | early {k mem} : s.k.killed cur = false → sleepOtherThreads s.k cur = .ok k →
      (∀ file image mem', ip = some file → load s.k.mem file ≠ .ok (some image, mem')) →
      (mem.free : Multiset Nat) = s.k.mem.free → Failed s cur ip { s with k := { k with mem } }
  | late {k file image mem' mem} : s.k.killed cur = false → sleepOtherThreads s.k cur = .ok k → ip = some file →
      load s.k.mem file = .ok (some image, mem') → (mem.free : Multiset Nat) = s.k.mem.free →
      Failed s cur ip
        { s with k := { k with originalbase := update k.originalbase cur (PGROUNDUP image.sz), mem } }

/-- `dealloc_other_threads` does not make `exec` fail. -/
theorem execCommit_outcome {old : Nat} {outcome : Outcome} (ran : execCommit k cur old = .ok (outcome, k')) :
    outcome ≠ .returns (-1) := by
  unfold execCommit at ran
  split at ran
  · obtain ⟨k₁, _, ran⟩ := bind_ok ran
    obtain ⟨⟨outcome₁, k₂⟩, _, ran⟩ := bind_ok ran
    cases outcome₁ <;> cases ran <;> simp
  · obtain ⟨k₁, _, ran⟩ := bind_ok ran
    obtain ⟨⟨_, k₂⟩, _, ran⟩ := bind_ok ran
    obtain ⟨mem, _, ran⟩ := bind_ok ran
    cases ran
    simp

theorem failed_of_exec (real : 0 ∉ s.k.mem.free) (ran : exec s cur path ip argv = .ok (.returns (-1), s')) :
    Failed s cur ip s' := by
  unfold exec at ran
  split at ran
  next dead =>
    cases ran
    exact .killed dead
  next alive =>
    have alive : s.k.killed cur = false := Bool.eq_false_iff.mpr alive
    obtain ⟨k, slept, ran⟩ := bind_ok ran
    have mem : k.mem = s.k.mem := by
      obtain ⟨state, same⟩ := sleepOtherThreads_eq slept
      rw [same]
    cases ip with
    | none =>
      cases ran
      have kept : ({ s with k := k } : Host) = { s with k := { k with mem := k.mem } } := rfl
      rw [kept]
      exact .early alive slept nofun (by rw [mem])
    | some file =>
      obtain ⟨⟨loaded, mem₁⟩, load_, ran⟩ := bind_ok ran
      rw [mem] at load_
      have taken := load_pages real load_
      cases loaded with
      | none =>
        cases ran
        refine .early alive slept (fun file' image mem' same ran => ?_) taken
        cases same
        rw [load_] at ran
        cases ran
      | some image =>
        obtain ⟨⟨stack, mem₂⟩, made, ran⟩ := bind_ok ran
        cases stack with
        | none =>
          cases ran
          exact .late alive slept rfl load_ ((makeStack_pages taken.2 made).trans taken.1)
        | some top =>
          obtain ⟨⟨outcome, k₁⟩, committed, ran⟩ := bind_ok ran
          obtain ⟨rfl, -⟩ := Prod.mk.inj (Except.ok.inj ran)
          exact absurd rfl (execCommit_outcome committed)

/-- A failing `exec` by a living caller changes nothing exactly when no other thread on the thread
list was ready, and it has failed before the stack or `originalbase` had its new value already. -/
theorem exec_unchanged_iff (real : 0 ∉ s.k.mem.free) (ran : exec s cur path ip argv = .ok (.returns (-1), s')) :
    Unchanged cur s s' ↔ s.k.killed cur = true ∨
      (∀ p, p ≠ cur → Listed s.k cur p → s.k.state p ≠ .RUNNABLE) ∧
      ∀ file image mem, ip = some file → load s.k.mem file = .ok (some image, mem) →
        s.k.originalbase cur = PGROUNDUP image.sz := by
  cases failed_of_exec real ran with
  | killed dead => exact iff_of_true ⟨rfl, rfl, rfl, rfl, rfl, fun _ _ => ⟨rfl, rfl⟩, .refl _⟩ (.inl dead)
  | @early k mem alive slept unloaded pages =>
    obtain ⟨state, same⟩ := sleepOtherThreads_eq slept
    have kept := sleepOtherThreads_kept_iff slept
    have chan : k.chan = s.k.chan := by rw [same]
    constructor
    · intro unchanged
      refine .inr ⟨kept.mp fun p other => (unchanged.others p other).1, fun file image mem' found ran => ?_⟩
      exact absurd ran (unloaded file image mem' found)
    · rintro (dead | ⟨quiet, -⟩)
      · rw [alive] at dead
        cases dead
      · refine ⟨?_, ?_, ?_, rfl, rfl, fun p other => ⟨kept.mpr quiet p other, congrFun chan p⟩, Multiset.coe_eq_coe.mp pages⟩
        all_goals rw [same]
  | @late k file image mem' mem alive slept found load_ pages =>
    obtain ⟨state, same⟩ := sleepOtherThreads_eq slept
    have kept := sleepOtherThreads_kept_iff slept
    have chan : k.chan = s.k.chan := by rw [same]
    constructor
    · intro unchanged
      refine .inr ⟨kept.mp fun p other => (unchanged.others p other).1, fun file' image' mem₁ found' ran => ?_⟩
      cases found.symm.trans found'
      cases load_.symm.trans ran
      exact unchanged.originalbase.symm.trans (Function.update_self ..)
    · rintro (dead | ⟨quiet, base⟩)
      · rw [alive] at dead
        cases dead
      · refine ⟨?_, ?_, ?_, rfl, rfl, fun p other => ⟨kept.mpr quiet p other, congrFun chan p⟩, Multiset.coe_eq_coe.mp pages⟩
        · rw [same]
        · rw [same]
        · exact (Function.update_self ..).trans (base file image mem' found load_).symm

/-- A process table with names and trap frames that do not matter. -/
def Host.plain (k : Kernel) : Host where
  k
  name := fun _ => []
  tf := fun _ => { eip := 0, esp := 0 }

/-- What `exec` of a missing file returns, and the host it leaves. -/
def execMissing (k : Kernel) : Option Host :=
  match exec (.plain k) 0 [] none [] with
  | .ok (.returns (-1), s) => some s
  | _ => none

theorem exec_of_execMissing (found : execMissing k = some s) : exec (.plain k) 0 [] none [] = .ok (.returns (-1), s) := by
  unfold execMissing at found
  split at found
  next ran =>
    cases found
    exact ran
  · cases found

/-- The first process calls `exec` on a missing file before it has any other thread. -/
theorem exec_unchanged_single : ∃ m s', Smp.smp.Reach (fun _ _ => True) m ∧
    exec (.plain m.k) 0 [] none [] = .ok (.returns (-1), s') ∧ Unchanged 0 (.plain m.k) s' := by
  obtain ⟨m, reach, is⟩ := Smp.smp_of_run (fun _ _ => True) (List.range' 1000 400) [.dispatch 0]
    (P := fun m => (execMissing m.k).isSome ∧ 0 ∉ m.k.mem.free ∧ (∀ p, p ≠ 0 → m.k.state p ≠ .RUNNABLE)) (by decide +kernel)
  obtain ⟨failed, real, alone⟩ := of_decide_eq_true is
  obtain ⟨s', failed⟩ := Option.isSome_iff_exists.mp failed
  have ran := exec_of_execMissing failed
  exact ⟨m, s', reach, ran, (exec_unchanged_iff real ran).mpr (.inr ⟨fun p other _ => alone p other, nofun⟩)⟩

/-- The first process has a second thread, which is ready. `exec` of a missing file returns -1, and
the thread is asleep, on no channel. -/
theorem exec_missing_sleeps_thread : ∃ m s', Smp.smp.Reach (fun _ _ => True) m ∧
    exec (.plain m.k) 0 [] none [] = .ok (.returns (-1), s') ∧ Listed m.k 0 1 ∧ m.k.state 1 = .RUNNABLE ∧
    s'.k.state 1 = .SLEEPING ∧ s'.k.chan 1 = none := by
  obtain ⟨m, reach, is⟩ := Smp.smp_of_run (fun _ _ => True) (List.range' 1000 400)
    ([.dispatch 0, .call 0 .threadCreate] ++ List.replicate 5 (.advance 0))
    (P := fun m => m.k.master 0 = none ∧ m.k.threads.next 0 = some 1 ∧ m.k.state 1 = .RUNNABLE ∧
      (execMissing m.k).any fun s => s.k.state 1 = .SLEEPING ∧ s.k.chan 1 = none) (by decide +kernel)
  obtain ⟨main, next, ready, failed⟩ := of_decide_eq_true is
  cases found : execMissing m.k with
  | none =>
    rw [found] at failed
    cases failed
  | some s' =>
    rw [found] at failed
    obtain ⟨asleep, nowhere⟩ := of_decide_eq_true failed
    have highest : getHighestMaster m.k 0 = .ok 0 := by simp [getHighestMaster, Chain.climb, main]
    exact ⟨m, s', reach, exec_of_execMissing found, ⟨0, highest, .step next .here⟩, ready, asleep, nowhere⟩

end Xv6.Exec
