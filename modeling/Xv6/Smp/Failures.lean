import Xv6.Proc.Activity
import Xv6.Smp.Machine
import Xv6.Vm.Resize

/-!
# Calls that fail for want of memory

`thread_create` takes a slot, a kernel stack and a recycled user stack before the step that can fail, and
gives none of them back. `sbrk` computes the old size from the error code of `growproc`.
-/

namespace Xv6.Smp

open Function (update)
open Proc Steps Vm

variable {k k' : Kernel} {cur master : Slot} {n : Int}

/-! ### `thread_create` -/

/-- What a `thread_create` that fails must leave: the free slots, the stacks and the size of the process,
its pages, and the free frames up to page tables. -/
structure Untouched (cur : Slot) (k k' : Kernel) : Prop where
  unused : ∀ p, k'.state p = .UNUSED ↔ k.state p = .UNUSED
  group : ∀ h, getHighestMaster k cur = .ok h →
    k'.emptystacks h = k.emptystacks h ∧ k'.emptystackcnt h = k.emptystackcnt h ∧ k'.sz h = k.sz h
  entry : k'.mem.entry = k.mem.entry
  free : (k'.mem.free : Multiset Nat) + dirTables (k'.mem.dirs (k.pgdir cur)) =
    k.mem.free + dirTables (k.mem.dirs (k.pgdir cur))

/-- What `allocproc` returns depends on the slots and on the free list; without a slot or a frame it leaves
both as they are. -/
theorem allocproc_cases (cur : Slot) {slot : Option Slot} (ran : allocproc k = .ok (slot, k')) :
    slot = none ∧ (firstUnused k = none ∨ k.mem.free = []) ∧ Untouched cur k k' ∨
      ∃ p, slot = some p ∧ firstUnused k = some p ∧ k.mem.free ≠ [] ∧ k'.state p = .EMBRYO := by
  unfold allocproc at ran
  obtain ⟨k₁, locked, ran⟩ := bind_ok ran
  unfold acquire at locked
  split at locked
  · cases locked
  cases locked
  have same : firstUnused { k with ptableLock := true } = firstUnused k := rfl
  rw [same] at ran
  cases first : firstUnused k with
  | none =>
    rw [first] at ran
    cases ran
    exact .inl ⟨rfl, .inl rfl, fun _ => Iff.rfl, fun _ _ => ⟨rfl, rfl, rfl⟩, rfl, rfl⟩
  | some p =>
    rw [first] at ran
    simp only [allocKstack, kalloc, release, claim] at ran
    have unused : k.state p = .UNUSED := by simpa using List.find?_some first
    cases free : k.mem.free with
    | nil =>
      rw [free] at ran
      cases ran
      refine .inl ⟨rfl, .inr rfl, fun q => ?_, fun _ _ => ⟨rfl, rfl, rfl⟩, rfl, rfl⟩
      by_cases here : q = p
      · subst here
        simp [unused]
      · simp [Function.update_of_ne here]
    | cons frame rest =>
      rw [free] at ran
      cases ran
      exact .inr ⟨p, rfl, rfl, by rintro ⟨⟩, Function.update_self ..⟩

/-- A `thread_create` that fails changes nothing exactly when it fails in `allocproc`. -/
theorem threadCreate_untouched_iff (ran : threadCreate k cur = .ok (-1, k')) :
    Untouched cur k k' ↔ firstUnused k = none ∨ k.mem.free = [] := by
  unfold threadCreate at ran
  obtain ⟨⟨slot, k₁⟩, allocated, ran⟩ := bind_ok ran
  rcases allocproc_cases cur allocated with ⟨rfl, full, untouched⟩ | ⟨np, rfl, found, left, embryo⟩
  · cases ran
    exact iff_of_true untouched full
  · obtain ⟨⟨made, k₂⟩, stack, ran⟩ := bind_ok ran
    have unused : k.state np = .UNUSED := by simpa using List.find?_some found
    refine iff_of_false (fun untouched => ?_) ?_
    · cases made with
      | false =>
        cases ran
        have taken := (untouched.unused np).mpr unused
        rw [createStack_state stack, embryo] at taken
        cases taken
      | true =>
        -- the rest of the call returns 0
        unfold createLink at ran
        obtain ⟨k₃, -, ran⟩ := bind_ok ran
        obtain ⟨k₄, -, ran⟩ := bind_ok ran
        cases ran
    · rintro (none | empty)
      · rw [found] at none
        cases none
      · exact left empty

/-- What a `thread_create` of the first process leaves if it fails. -/
def createFailed (k : Kernel) : Option Kernel :=
  match threadCreate k 0 with
  | .ok (-1, k') => some k'
  | _ => none

theorem threadCreate_of_createFailed (found : createFailed k = some k') : threadCreate k 0 = .ok (-1, k') := by
  unfold createFailed at found
  split at found
  next ran =>
    cases found
    exact ran
  · cases found

/-- No frame is left for the kernel stack. -/
theorem threadCreate_untouched_empty : ∃ m k', smp.Reach (fun _ _ => True) m ∧ threadCreate m.k 0 = .ok (-1, k') ∧
    Untouched 0 m.k k' := by
  obtain ⟨m, reach, is⟩ := smp_of_run (fun _ _ => True) (List.range' 1000 68) [.dispatch 0]
    (P := fun m => (createFailed m.k).isSome ∧ m.k.mem.free = []) (by decide +kernel)
  obtain ⟨failed, empty⟩ := of_decide_eq_true is
  obtain ⟨k', failed⟩ := Option.isSome_iff_exists.mp failed
  have ran := threadCreate_of_createFailed failed
  exact ⟨m, k', reach, ran, (threadCreate_untouched_iff ran).mpr (.inr empty)⟩

/-- One frame is left: it becomes the kernel stack, and there is none for the user stack. The slot and the
frame are lost. -/
theorem failed_create_keeps_slot : ∃ m k', smp.Reach (fun _ _ => True) m ∧ threadCreate m.k 0 = .ok (-1, k') ∧
    m.k.state 1 = .UNUSED ∧ k'.state 1 = .EMBRYO ∧ m.k.mem.free.length = 1 ∧ k'.mem.free = [] := by
  obtain ⟨m, reach, is⟩ := smp_of_run (fun _ _ => True) (List.range' 1000 69) [.dispatch 0]
    (P := fun m => m.k.state 1 = .UNUSED ∧ m.k.mem.free.length = 1 ∧
      (createFailed m.k).any fun k' => k'.state 1 = .EMBRYO ∧ k'.mem.free = []) (by decide +kernel)
  obtain ⟨unused, one, failed⟩ := of_decide_eq_true is
  cases found : createFailed m.k with
  | none =>
    rw [found] at failed
    cases failed
  | some k' =>
    rw [found] at failed
    obtain ⟨embryo, empty⟩ := of_decide_eq_true failed
    exact ⟨m, k', reach, threadCreate_of_createFailed found, unused, embryo, one, empty⟩

/-! ### `sbrk` -/

/-- `sys_sbrk` -/
def sysSbrk (k : Kernel) (cur : Slot) (n : Int) : Except Stop (Int × Kernel) := do
  let (r, k) ← growproc k cur n
  let addr := wrap32 (r - n)
  .ok (if addr < 0 then -1 else addr, k)

/-- The memory of a thread group that calls `sbrk`: all its pages are below the size. -/
structure Space (k : Kernel) (cur master : Slot) : Prop where
  highest : getHighestMaster k cur = .ok master
  unlocked : k.memlock = false
  user : k.sz master < KERNBASE
  linked : Ram.Linked k.mem
  below : ∀ i, pages (k.sz master) ≤ i → k.mem.entry (k.pgdir cur) i = none
  real : ∀ i pte, k.mem.entry (k.pgdir cur) i = some pte → pte.frame ≠ 0

/-- `sbrk` has returned the old size, and the memory has the new one. -/
structure Granted (cur master : Slot) (n r : Int) (k k' : Kernel) : Prop where
  value : r = k.sz master
  range : 0 ≤ (k.sz master : Int) + n ∧ (k.sz master : Int) + n < KERNBASE
  size : (k'.sz master : Int) = k.sz master + n
  kept : ∀ i, i < pages (k.sz master) → i < pages (k'.sz master) →
    k'.mem.entry (k.pgdir cur) i = k.mem.entry (k.pgdir cur) i
  added : ∀ i, pages (k.sz master) ≤ i → i < pages (k'.sz master) →
    ∃ frame, k'.mem.entry (k.pgdir cur) i = some ⟨frame, true, true⟩
  dropped : ∀ i, pages (k'.sz master) ≤ i → k'.mem.entry (k.pgdir cur) i = none

/-- `sbrk` has returned -1 and changed nothing but for page tables. -/
structure Refused (cur master : Slot) (r : Int) (k k' : Kernel) : Prop where
  value : r = -1
  size : k'.sz master = k.sz master
  entry : k'.mem.entry (k.pgdir cur) = k.mem.entry (k.pgdir cur)
  free : (k'.mem.free : Multiset Nat) + dirTables (k'.mem.dirs (k.pgdir cur)) =
    k.mem.free + dirTables (k.mem.dirs (k.pgdir cur))

/-- The contract of `sbrk`. -/
def Contract (k : Kernel) (cur master : Slot) (n : Int) : Prop :=
  ∃ r k', sysSbrk k cur n = .ok (r, k') ∧ (Granted cur master n r k k' ∨ Refused cur master r k k')

theorem wrap32_eq {x : Int} (low : -2 ^ 31 ≤ x) (high : x < 2 ^ 32) : wrap32 x = if x < 2 ^ 31 then x else x - 2 ^ 32 := by
  rw [wrap32, Int.bmod_def]
  split
  · split
    · omega
    · omega
  · split
    · omega
    · omega

namespace Space

theorem size_set (space : Space k cur master) (mem : Memory) (sz : Nat) :
    (releaseMem (setSize { k with memlock := true, mem } cur master sz)).sz master = sz := by
  unfold setSize releaseMem
  simp only
  split
  · exact Function.update_self ..
  next main =>
    have own : master = cur := by
      have highest := space.highest
      unfold getHighestMaster at highest
      have main : k.master cur = none := by simpa using main
      simp only [Chain.climb, main] at highest
      exact (Except.ok.inj highest).symm
    rw [own]
    exact Function.update_self ..

theorem resized_mem (master : Slot) (mem : Memory) (sz : Nat) :
    (releaseMem (setSize { k with memlock := true, mem } cur master sz)).mem = mem := by
  unfold setSize releaseMem
  simp only
  split
  · rfl
  · rfl

/-- Failure: `growproc` returns -1, from which `n` is taken too. -/
theorem sbrk_failed (space : Space k cur master) {mem : Memory} (ran : resize k.mem (k.pgdir cur) (k.sz master) n = .ok (0, mem))
    (change : n ≠ 0) : sysSbrk k cur n =
      .ok (if wrap32 (-1 - n) < 0 then -1 else wrap32 (-1 - n), { k with memlock := true, mem }) := by
  have locked : acquireMem k = .ok { k with memlock := true } := by
    rw [acquireMem, if_neg (by simp [space.unlocked])]
  have highest : getHighestMaster { k with memlock := true } cur = .ok master := space.highest
  rw [sysSbrk, growproc, ok_bind locked, ok_bind highest, ok_bind ran]
  simp only [change, ne_eq, not_false_eq_true, and_self, if_true]
  rfl

/-- Success: `growproc` returns the new size. -/
theorem sbrk_resized (space : Space k cur master) {mem : Memory} {sz : Nat}
    (ran : resize k.mem (k.pgdir cur) (k.sz master) n = .ok (sz, mem)) (success : n = 0 ∨ sz ≠ 0) : sysSbrk k cur n =
      .ok (if wrap32 (wrap32 sz - n) < 0 then -1 else wrap32 (wrap32 sz - n),
        releaseMem (setSize { k with memlock := true, mem } cur master sz)) := by
  have locked : acquireMem k = .ok { k with memlock := true } := by
    rw [acquireMem, if_neg (by simp [space.unlocked])]
  have highest : getHighestMaster { k with memlock := true } cur = .ok master := space.highest
  rw [sysSbrk, growproc, ok_bind locked, ok_bind highest, ok_bind ran]
  simp only
  rw [if_neg (by tauto)]
  simp only [bind, Except.bind]

theorem granted (space : Space k cur master) {mem : Memory} {sz : Nat}
    (ran : resize k.mem (k.pgdir cur) (k.sz master) n = .ok (sz, mem)) (success : n = 0 ∨ sz ≠ 0)
    (size : (sz : Int) = k.sz master + n) (user : sz < KERNBASE)
    (kept : ∀ i, i < pages (k.sz master) → i < pages sz → mem.entry (k.pgdir cur) i = k.mem.entry (k.pgdir cur) i)
    (added : ∀ i, pages (k.sz master) ≤ i → i < pages sz → ∃ frame, mem.entry (k.pgdir cur) i = some ⟨frame, true, true⟩)
    (dropped : ∀ i, pages sz ≤ i → mem.entry (k.pgdir cur) i = none) : Contract k cur master n := by
  have old := space.user
  have set_ := space.size_set mem sz
  have same : (releaseMem (setSize { k with memlock := true, mem } cur master sz)).mem = mem := resized_mem master mem sz
  refine ⟨k.sz master, releaseMem (setSize { k with memlock := true, mem } cur master sz),
    (space.sbrk_resized ran success).trans ?_, .inl ⟨rfl, by simp only [KERNBASE] at *; omega, ?_, ?_, ?_, ?_⟩⟩
  · have back : wrap32 (wrap32 sz - n) = k.sz master := by
      simp only [KERNBASE] at user old
      have inner : wrap32 sz = sz := by rw [wrap32_eq (by omega) (by omega), if_pos (by omega)]
      rw [inner, wrap32_eq (by omega) (by omega), if_pos (by omega)]
      omega
    rw [back, if_neg (by omega)]
  · rw [set_, size]
  · rw [set_, same]
    exact kept
  · rw [set_, same]
    exact added
  · rw [set_, same]
    exact dropped

/-- A negative address is reported as -1; this is right when nothing has changed. -/
theorem refused {mem : Memory} {v : Int} {k' : Kernel} (ran : sysSbrk k cur n =
    .ok (if v < 0 then -1 else v, k')) (negative : v < 0) (size : k'.sz master = k.sz master) (same : k'.mem = mem)
    (entry : mem.entry (k.pgdir cur) = k.mem.entry (k.pgdir cur)) (moved : Moves (k.pgdir cur) 0 k.mem mem) :
    Contract k cur master n := by
  subst same
  rw [if_pos negative] at ran
  exact ⟨-1, k', ran, .inr ⟨rfl, size, entry, moved.tables entry⟩⟩

theorem broken {v : Int} (ran : sysSbrk k cur n = .ok (v, k')) (wrong : v ≠ -1)
    (size : v = k.sz master → ¬(0 ≤ (k.sz master : Int) + n)) : ¬Contract k cur master n := by
  rintro ⟨r, k₁, returned, granted | refused⟩
  · rw [ran] at returned
    cases returned
    exact size granted.value granted.range.1
  · rw [ran] at returned
    cases returned
    exact wrong refused.value

theorem grow (space : Space k cur master) (positive : 0 < n) (int : n < 2 ^ 31) : Contract k cur master n := by
  have user := space.user
  have top : uint32 (k.sz master + n) = k.sz master + n.toNat := by
    simp only [uint32, KERNBASE] at user ⊢
    omega
  obtain ⟨sz, r', ran⟩ : ∃ sz r', (Ram.mk k.mem fun _ _ => 0).allocuvm (k.pgdir cur) (k.sz master) (k.sz master + n.toNat) = .ok (sz, r') :=
    Ram.allocuvm_returns space.linked fun i above _ => space.below i above
  have ran := Ram.tables_ok (Ram.allocuvm_mem ..) ran
  have moved := allocuvm_moves ran
  have resized : resize k.mem (k.pgdir cur) (k.sz master) n = .ok (sz, r'.mem) := by
    rw [resize, if_pos positive, top]
    exact ran
  have negative : wrap32 (-1 - n) < 0 := by
    rw [wrap32_eq (by omega) (by omega), if_pos (by omega)]
    omega
  have refuse : r'.mem.entry (k.pgdir cur) = k.mem.entry (k.pgdir cur) → sz = 0 → Contract k cur master n := by
    rintro same rfl
    exact refused (space.sbrk_failed resized (by omega)) negative rfl rfl same moved
  rcases allocuvm_entry ran with ⟨rfl, order, high, frame, entry, -⟩ | ⟨-, smaller, -⟩ | ⟨failed, ⟨-, same⟩ | entry⟩
  · refine space.granted resized (.inr (by omega)) (by omega) high (fun i old _ => ?_) (fun i above below => ⟨frame i, ?_⟩)
      fun i above => ?_
    · rw [entry, Function.update_self, Regions.patch_outside (.inl old)]
    · rw [entry, Function.update_self, Regions.patch_inside above below]
    · rw [entry, Function.update_self, Regions.patch_outside (.inr above)]
      exact space.below i ((Nat.div_le_div_right (by omega)).trans above)
  · omega
  · exact refuse (by rw [same]) failed
  · refine refuse ?_ failed
    rw [entry, Function.update_self]
    funext i
    by_cases inside : pages (k.sz master) ≤ i ∧ i < pages (k.sz master + n.toNat)
    · rw [Regions.fill_inside inside.1 inside.2, space.below i inside.1]
    · exact Regions.fill_outside (by omega)

/-- What `deallocuvm` leaves when the size goes down. -/
theorem shrink_resize (space : Space k cur master) (negative : n < 0) (enough : 0 ≤ (k.sz master : Int) + n) :
    ∃ mem, resize k.mem (k.pgdir cur) (k.sz master) n = .ok ((k.sz master + n).toNat, mem) ∧
      mem.entry (k.pgdir cur) =
        Regions.fill (k.mem.entry (k.pgdir cur)) (pages (k.sz master + n).toNat) (pages (k.sz master)) none := by
  have user := space.user
  have down : uint32 (k.sz master + n) = (k.sz master + n).toNat := by
    simp only [uint32, KERNBASE] at user ⊢
    omega
  have real : 0 ∉ (Ram.mk k.mem fun _ _ => 0).present (k.pgdir cur) (pages (k.sz master + n).toNat)
      (pages (k.sz master) - pages (k.sz master + n).toNat) := by
    intro mapped
    obtain ⟨i, pte, -, -, found, null⟩ := Ram.mem_present.mp mapped
    exact space.real i pte found null
  have smaller : (k.sz master + n).toNat < k.sz master := by omega
  obtain ⟨r', ran, shrunk⟩ := Ram.deallocuvm_shrunk smaller user.le real
  refine ⟨r'.mem, ?_, shrunk.entry⟩
  rw [resize, if_neg (by omega), if_pos negative, down]
  exact Ram.tables_ok (Ram.deallocuvm_mem ..) ran

/-- Below zero the sum wraps, and `deallocuvm` finds nothing to do. -/
theorem wrap_resize (space : Space k cur master) (int : -2 ^ 31 ≤ n) (under : (k.sz master : Int) + n < 0) :
    resize k.mem (k.pgdir cur) (k.sz master) n = .ok (k.sz master, k.mem) := by
  have user := space.user
  have high : k.sz master ≤ uint32 (k.sz master + n) := by
    simp only [uint32, KERNBASE] at user ⊢
    omega
  rw [resize, if_neg (by omega), if_pos (by omega), deallocuvm, if_pos high]

end Space

end Xv6.Smp
