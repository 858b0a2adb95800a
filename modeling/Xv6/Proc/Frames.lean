import Xv6.Proc.Effect

/-!
# What the sections of the process calls write

One lemma for each section: the kernel after it is the kernel before it with some fields replaced.
-/

namespace Xv6.Proc

open Function (update)
open Vm Steps

variable {k k' : Kernel} {cur np p w h : Slot} {outcome : Outcome}

/-! ### Creation -/

theorem allocproc_frame {r : Option Slot} (ran : allocproc k = .ok (r, k')) :
    k.ptableLock = false ∧
      (r = none ∧ k' = k ∧ firstUnused k = none ∨
        ∃ np, firstUnused k = some np ∧ ∃ kstack mem,
          (r = none ∧ k' =
            { k with
              pid := update k.pid np k.nextpid
              nextpid := k.nextpid + 1
              kstack := kstack
              mem := mem }) ∨
          r = some np ∧ k' =
            { k with
              state := update k.state np .EMBRYO
              pid := update k.pid np k.nextpid
              nextpid := k.nextpid + 1
              kstack := kstack
              mem := mem }) := by
  unfold allocproc acquire at ran
  split at ran
  · cases ran
  next free =>
    simp only [Bool.not_eq_true] at free
    refine ⟨free, ?_⟩
    have same : firstUnused { k with ptableLock := true } = firstUnused k := rfl
    simp only [bind, Except.bind, same] at ran
    split at ran
    next none =>
      cases ran
      refine .inl ⟨rfl, ?_, none⟩
      rw [release, ← free]
    next np first =>
      refine .inr ⟨np, first, ?_⟩
      have unused : k.state np = .UNUSED := by simpa using List.find?_some first
      have ran := Except.ok.inj ran
      unfold allocKstack at ran
      split at ran
      · cases ran
        refine ⟨update k.kstack np 0, k.mem, .inl ⟨rfl, ?_⟩⟩
        simp only [release, claim, Function.update_idem, ← free, ← unused, Function.update_eq_self]
      next stack mem _ =>
        cases ran
        refine ⟨update k.kstack np stack, mem, .inr ⟨rfl, ?_⟩⟩
        simp only [release, claim, ← free]

/-- `fork` after `allocproc`: without memory the slot goes back to `UNUSED`. -/
theorem forkCopy_frame {r : Int} (ran : forkCopy k cur np = .ok (r, k')) :
    ∃ sz lists cnt pgdir mem,
      (∃ kstack, k' =
        { k with
          ptableLock := true
          sz := sz
          emptystacks := lists
          emptystackcnt := cnt
          pgdir := update k.pgdir np pgdir
          mem := mem
          kstack := kstack
          state := update k.state np .UNUSED }) ∨
      ∃ pathlevel, r = k.pid np ∧ k' =
        { k with
          ptableLock := false
          sz := sz
          emptystacks := lists
          emptystackcnt := cnt
          pgdir := update k.pgdir np pgdir
          mem := mem
          parent := update k.parent np (some cur)
          state := update k.state np .RUNNABLE
          context := update k.context np .user
          turn := update k.turn np (some np)
          schedmode := update k.schedmode np .default
          pathlevel := update k.pathlevel np pathlevel
          tid := update k.tid np 0
          threads := (k.threads.setPrev (some np) none).setNext (some np) none } := by
  unfold forkCopy at ran
  obtain ⟨k₁, locked, ran⟩ := bind_ok ran
  obtain rfl := acquire_eq locked
  obtain ⟨h, _, ran⟩ := bind_ok ran
  obtain ⟨⟨pgdir, mem⟩, _, ran⟩ := bind_ok ran
  simp only at ran
  split at ran
  · cases ran
    exact ⟨_, _, _, _, _, .inl ⟨_, rfl⟩⟩
  · cases ran
    exact ⟨_, _, _, _, _, .inr ⟨_, rfl, rfl⟩⟩

theorem takeStack_fields {base : Nat} (taken : takeStack k cur h = (base, k')) :
    ∃ cnt, k' = { k with emptystackcnt := cnt } := by
  unfold takeStack at taken
  split at taken
  · cases taken
    exact ⟨_, rfl⟩
  · cases taken
    exact ⟨_, rfl⟩

theorem setThread_frame (k : Kernel) (cur np h : Slot) (sz : Nat) :
    ∃ sizes base, setThread k cur np h sz =
      { k with
        sz := sizes
        pgdir := update k.pgdir np (k.pgdir cur)
        master := update k.master np (some cur)
        originalbase := update k.originalbase np base
        pid := update k.pid np (k.pid cur)
        tid := update k.tid np k.nexttid
        nexttid := uint32 (k.nexttid + 1) } := by
  unfold setThread
  split
  · exact ⟨_, _, rfl⟩
  · exact ⟨_, _, rfl⟩

theorem createStack_frame {r : Bool} (ran : createStack k cur np = .ok (r, k')) :
    k.memlock = false ∧ ∃ sz cnt mem,
      (r = false ∧ k' =
        { k with
          nextpid := k.nextpid - 1
          memlock := true
          sz := sz
          emptystackcnt := cnt
          mem := mem }) ∨
      r = true ∧ ∃ base, k' =
        { k with
          nextpid := k.nextpid - 1
          sz := sz
          emptystackcnt := cnt
          mem := mem
          pgdir := update k.pgdir np (k.pgdir cur)
          master := update k.master np (some cur)
          originalbase := update k.originalbase np base
          pid := update k.pid np (k.pid cur)
          tid := update k.tid np k.nexttid
          nexttid := uint32 (k.nexttid + 1) } := by
  unfold createStack at ran
  obtain ⟨h, _, ran⟩ := bind_ok ran
  obtain ⟨k₁, locked, ran⟩ := bind_ok ran
  have free : k.memlock = false := by
    unfold acquireMem at locked
    split at locked
    · cases locked
    next free => simpa using free
  refine ⟨free, ?_⟩
  rw [acquireMem_eq locked] at ran
  generalize taken : takeStack _ cur h = pair at ran
  obtain ⟨base, k₂⟩ := pair
  obtain ⟨cnt, rfl⟩ := takeStack_fields taken
  obtain ⟨⟨sz, mem⟩, _, ran⟩ := bind_ok ran
  simp only at ran
  split at ran
  · cases ran
    exact ⟨_, _, _, .inl ⟨rfl, rfl⟩⟩
  · obtain ⟨mem', _, ran⟩ := bind_ok ran
    cases ran
    obtain ⟨sizes, base, fields⟩ := setThread_frame _ cur np h sz
    rw [fields]
    refine ⟨sizes, cnt, mem', .inr ⟨rfl, base, ?_⟩⟩
    rw [releaseMem, ← free]

theorem enqueue_frame (ran : enqueue k p = .ok k') :
    ∃ mlfq mnode, k' = { k with mlfq := mlfq, mnode := mnode } := by
  unfold enqueue at ran
  obtain ⟨⟨m, k₁⟩, alloc, ran⟩ := bind_ok ran
  unfold allocmlfqnode at alloc
  split at alloc
  · cases alloc
  · cases alloc
    simp only at ran
    split at ran
    · cases ran
    · cases ran
      exact ⟨_, _, rfl⟩

theorem createLink_frame {r : Int} (ran : createLink k cur np = .ok (r, k')) :
    ∃ mlfq mnode pathlevel, k' =
      { k with
        ptableLock := false
        threads := k.threads.insertAfter cur np
        state := update k.state np .RUNNABLE
        context := update k.context np .user
        schedmode := update k.schedmode np (k.schedmode cur)
        mlfq := mlfq
        mnode := mnode
        pathlevel := update k.pathlevel np pathlevel
        retval := update k.retval np 0 } := by
  unfold createLink at ran
  obtain ⟨k₁, locked, ran⟩ := bind_ok ran
  obtain rfl := acquire_eq locked
  obtain ⟨k₂, queued, ran⟩ := bind_ok ran
  cases ran
  unfold queueThread at queued
  split at queued
  · obtain ⟨mlfq, mnode, rfl⟩ := enqueue_frame queued
    exact ⟨_, _, _, rfl⟩
  · cases queued
    exact ⟨_, _, _, rfl⟩

/-! ### Memory -/

theorem growproc_frame {n r : Int} (ran : growproc k cur n = .ok (r, k')) :
    ∃ sz mem memlock, k' = { k with sz := sz, mem := mem, memlock := memlock } := by
  unfold growproc at ran
  obtain ⟨k₁, locked, ran⟩ := bind_ok ran
  obtain rfl := acquireMem_eq locked
  obtain ⟨h, _, ran⟩ := bind_ok ran
  obtain ⟨⟨sz, mem⟩, _, ran⟩ := bind_ok ran
  simp only at ran
  split at ran
  · cases ran
    exact ⟨_, _, _, rfl⟩
  · obtain ⟨_, rfl⟩ := Prod.mk.inj (Except.ok.inj ran)
    simp only [setSize]
    split
    · exact ⟨_, _, _, rfl⟩
    · exact ⟨_, _, _, rfl⟩

theorem execLoad_frame {program : Option Program} {r : Option Nat}
    (ran : execLoad k cur program = .ok (r, k')) :
    ∃ mem pgdir sz base, k' =
      { k with mem := mem, pgdir := pgdir, sz := sz, originalbase := base } := by
  unfold execLoad at ran
  split at ran
  · cases ran
    exact ⟨_, _, _, _, rfl⟩
  obtain ⟨⟨pgdir, mem⟩, _, ran⟩ := bind_ok ran
  simp only at ran
  split at ran
  · cases ran
    exact ⟨_, _, _, _, rfl⟩
  obtain ⟨⟨loaded, mem⟩, _, ran⟩ := bind_ok ran
  simp only at ran
  split at ran
  · obtain ⟨mem, _, ran⟩ := bind_ok ran
    cases ran
    exact ⟨_, _, _, _, rfl⟩
  obtain ⟨⟨sz', mem⟩, _, ran⟩ := bind_ok ran
  simp only at ran
  split at ran
  · obtain ⟨mem, _, ran⟩ := bind_ok ran
    cases ran
    exact ⟨_, _, _, _, rfl⟩
  obtain ⟨mem, _, ran⟩ := bind_ok ran
  split at ran
  · cases ran
    exact ⟨_, _, _, _, rfl⟩
  · obtain ⟨mem, _, ran⟩ := bind_ok ran
    cases ran
    exact ⟨_, _, _, _, rfl⟩

/-! ### Reclaiming -/

theorem giveBackStack_frame {base : Nat} (ran : giveBackStack k h base = .ok k') :
    ∃ lists cnt sz, k' = { k with emptystacks := lists, emptystackcnt := cnt, sz := sz } := by
  unfold giveBackStack at ran
  split at ran
  · split at ran
    · cases ran
      exact ⟨_, _, _, rfl⟩
    · cases ran
  · cases ran
    exact ⟨_, _, _, rfl⟩

/-- `dealloc_thread` clears the slot, except that of a main thread. -/
theorem deallocThread_frame {r : Int} (ran : deallocThread k w = .ok (r, k')) :
    (k.master w = none ∧ k' = k) ∨
      k.master w ≠ none ∧ ∃ mem memlock lists cnt sz base, k' =
        { clearThread k w with
          mem := mem
          memlock := memlock
          emptystacks := lists
          emptystackcnt := cnt
          sz := sz
          originalbase := base
          threads := k.threads.unlink w } := by
  unfold deallocThread at ran
  split at ran
  next root =>
    cases ran
    exact .inl ⟨root, rfl⟩
  next worker =>
    obtain ⟨h, _, ran⟩ := bind_ok ran
    obtain ⟨⟨_, mem⟩, _, ran⟩ := bind_ok ran
    obtain ⟨k₁, locked, ran⟩ := bind_ok ran
    obtain rfl := acquireMem_eq locked
    obtain ⟨k₂, given, ran⟩ := bind_ok ran
    cases ran
    obtain ⟨lists, cnt, sz, rfl⟩ := giveBackStack_frame given
    exact .inr ⟨worker, _, _, _, _, _, _, rfl⟩

/-! ### Exiting -/

theorem wakeParent_frame (k : Kernel) (cur : Slot) :
    ∃ state, wakeParent k cur = { k with state := state } := by
  unfold wakeParent
  split
  · exact ⟨_, rfl⟩
  · exact ⟨_, rfl⟩

theorem wakeMaster_frame (ran : wakeMaster k cur = .ok k') :
    ∃ state killed, k' = { k with state := state, killed := killed } := by
  unfold wakeMaster at ran
  split at ran
  · cases ran
    exact ⟨_, _, rfl⟩
  · obtain ⟨h, _, ran⟩ := bind_ok ran
    cases ran
    split
    · exact ⟨_, _, rfl⟩
    · exact ⟨_, _, rfl⟩

theorem reparent_frame (k : Kernel) (cur : Slot) :
    ∃ state, reparent k cur =
      { k with
        state := state
        parent := fun p => if k.parent p = some cur then some k.initproc else k.parent p } := by
  unfold reparent
  simp only
  split
  · exact ⟨_, rfl⟩
  · exact ⟨_, rfl⟩

end Xv6.Proc
