import Xv6.Proc.Calls
import Xv6.Proc.Choice

/-!
# The locks of the process calls

`ptable.lock` and `memlock` in the process calls. A section is a stretch of one call that begins with no
lock held; the call goes on with its next section from whatever state the other threads have left. It is
balanced when it gives back what it has taken and never takes a lock twice.
-/

namespace Xv6.Proc

open Function (update)
open Steps Vm

/-! ### Sections -/

/-- The sections of the calls; `fork` and `thread_create` begin with `allocproc`. -/
inductive Section where
  | allocproc
  | forkCopy (np : Slot)
  | growproc (n : Int)
  | createStack (np : Slot)
  | createLink (np : Slot)
  /-- one pass of `thread_join`, with the flag `found` -/
  | threadJoin (thread : Nat) (found : Bool)
  | cpuShare (n : Int)
  | runMLFQ
  | getlev
  | kill (pid : Int)
  /-- one pass of `wait` -/
  | wait

/-- The kernel a section leaves behind. -/
def Section.run (k : Kernel) (cur : Slot) : Section → Except Stop Kernel
  | .allocproc => Prod.snd <$> Proc.allocproc k
  | .forkCopy np => Prod.snd <$> Proc.forkCopy k cur np
  | .growproc n => Prod.snd <$> Proc.growproc k cur n
  | .createStack np => Prod.snd <$> Proc.createStack k cur np
  | .createLink np => Prod.snd <$> Proc.createLink k cur np
  | .threadJoin thread found => Prod.snd <$> joinPass k cur thread found
  | .cpuShare n => Prod.snd <$> Proc.cpuShare k cur n
  | .runMLFQ => Prod.snd <$> Proc.runMLFQ k cur
  | .getlev => Prod.snd <$> Proc.getlev k cur
  | .kill pid => Prod.snd <$> Proc.kill k pid
  | .wait => Prod.snd <$> waitPass k cur

/-- Neither lock is held. -/
def Unlocked (k : Kernel) : Prop := k.ptableLock = false ∧ k.memlock = false

/-- A section never waits for a lock it holds, and holds none at its end. -/
def Balanced (k : Kernel) (cur : Slot) (s : Section) : Prop :=
  s.run k cur ≠ .error .lock ∧ ∀ k', s.run k cur = .ok k' → Unlocked k'

/-- No copy, growth or new stack fails for want of memory or address space, nothing shrinks
to size 0, and `getlev` does not find the main thread. -/
def Section.Spared (k : Kernel) (cur : Slot) : Section → Prop
  | .forkCopy _ => ∀ hmaster mem, getHighestMaster k cur = .ok hmaster →
      copyuvm2 k.mem (k.pgdir cur) (k.sz hmaster) ≠ .ok (0, mem)
  | .growproc n => ∀ master mem, getHighestMaster k cur = .ok master → n ≠ 0 →
      resize k.mem (k.pgdir cur) (k.sz master) n ≠ .ok (0, mem)
  | .createStack _ => ∀ hmaster mem, getHighestMaster k cur = .ok hmaster →
      let base :=
        if k.emptystackcnt hmaster > 0 then k.emptystacks hmaster (k.emptystackcnt hmaster - 1)
        else k.sz hmaster
      allocuvm k.mem (k.pgdir cur) base (uint32 (base + 2 * PGSIZE)) ≠ .ok (0, mem)
  | .getlev => ∀ hmaster, getHighestMaster k cur ≠ .ok hmaster
  | _ => True

/-! ### Functions that take no lock -/

/-- `x` is not stopped by a lock. -/
abbrev Runs {α : Type} (x : Except Stop α) : Prop := Avoids Stop.lock (fun _ => True) x

theorem Runs.ok {α : Type} (a : α) : Runs (.ok a) := Avoids.ok trivial

theorem runs_bind {α β : Type} {x : Except Stop α} {f : α → Except Stop β} (first : Runs x)
    (next : ∀ a, Runs (f a)) : Runs (x >>= f) :=
  first.bind fun a _ => next a

theorem getHighestMaster_runs (k : Kernel) (p : Slot) : Runs (getHighestMaster k p) := by
  unfold getHighestMaster
  split
  · exact Runs.ok _
  · exact .throw Stop.noConfusion

theorem mapLoop_runs (pgdir : Nat) (writable user : Bool) (rounds a frame : Nat) (m : Memory) :
    Runs (mapLoop pgdir writable user rounds a frame m) := by
  induction rounds generalizing a frame m with
  | zero => exact Runs.ok _
  | succ rounds ih =>
    unfold mapLoop
    split
    · exact Runs.ok _
    · split
      · exact .throw Stop.noConfusion
      · exact ih _ _ _

theorem deallocLoop_runs (pgdir oldsz rounds a : Nat) (m : Memory) :
    Runs (deallocLoop pgdir oldsz rounds a m) := by
  induction rounds generalizing a m with
  | zero => exact Runs.ok _
  | succ rounds ih =>
    unfold deallocLoop
    split
    · split
      · exact ih _ _
      · split
        · exact ih _ _
        · split
          · exact .throw Stop.noConfusion
          · exact ih _ _
    · exact Runs.ok _

theorem deallocuvm_runs (m : Memory) (pgdir oldsz newsz : Nat) :
    Runs (deallocuvm m pgdir oldsz newsz) := by
  unfold deallocuvm
  split
  · exact Runs.ok _
  · exact runs_bind (deallocLoop_runs _ _ _ _ _) fun _ => Runs.ok _

theorem allocLoop_runs (pgdir oldsz newsz rounds a : Nat) (m : Memory) :
    Runs (allocLoop pgdir oldsz newsz rounds a m) := by
  induction rounds generalizing a m with
  | zero => exact Runs.ok _
  | succ rounds ih =>
    unfold allocLoop
    split
    · exact runs_bind (deallocuvm_runs _ _ _ _) fun _ => Runs.ok _
    · refine runs_bind (mapLoop_runs _ _ _ _ _ _ _) fun mapped => ?_
      dsimp only
      split
      · exact ih _ _
      · exact runs_bind (deallocuvm_runs _ _ _ _) fun _ => Runs.ok _

theorem allocuvm_runs (m : Memory) (pgdir oldsz newsz : Nat) :
    Runs (allocuvm m pgdir oldsz newsz) := by
  unfold allocuvm
  split
  · exact Runs.ok _
  · split
    · exact Runs.ok _
    · exact allocLoop_runs _ _ _ _ _ _

theorem resize_runs (m : Memory) (pgdir sz : Nat) (n : Int) : Runs (resize m pgdir sz n) := by
  unfold resize
  split
  · exact allocuvm_runs _ _ _ _
  · split
    · exact deallocuvm_runs _ _ _ _
    · exact Runs.ok _

theorem clearpteu_runs (m : Memory) (pgdir uva : Nat) : Runs (clearpteu m pgdir uva) := by
  unfold clearpteu
  split
  · exact .throw Stop.noConfusion
  · exact Runs.ok _

theorem freevm_runs (m : Memory) (pgdir : Nat) : Runs (freevm m pgdir) := by
  unfold freevm
  split
  · exact .throw Stop.noConfusion
  · exact runs_bind (deallocuvm_runs _ _ _ _) fun _ => Runs.ok _

theorem setupkvm_runs (m : Memory) : Runs (setupkvm m) := by
  unfold setupkvm
  split
  · exact Runs.ok _
  · dsimp only
    split
    · exact runs_bind (freevm_runs _ _) fun _ => Runs.ok _
    · exact Runs.ok _

theorem copyLoop_runs (pgdir d rounds i : Nat) (m : Memory) : Runs (copyLoop pgdir d rounds i m) := by
  induction rounds generalizing i m with
  | zero => exact Runs.ok _
  | succ rounds ih =>
    unfold copyLoop
    split
    · exact .throw Stop.noConfusion
    · split
      · exact ih _ _
      · split
        · exact Runs.ok _
        · refine runs_bind (mapLoop_runs _ _ _ _ _ _ _) fun mapped => ?_
          dsimp only
          split
          · exact ih _ _
          · exact Runs.ok _

theorem copyuvm2_runs (m : Memory) (pgdir sz : Nat) : Runs (copyuvm2 m pgdir sz) := by
  refine runs_bind (setupkvm_runs m) fun made => ?_
  dsimp only
  split
  · exact Runs.ok _
  · refine runs_bind (copyLoop_runs _ _ _ _ _) fun copied => ?_
    split
    · exact Runs.ok _
    · exact runs_bind (freevm_runs _ _) fun _ => Runs.ok _

/-! ### The scheduler's functions -/

theorem mlfqLoop_runs (rounds : Nat) (m : Option Node) (k : Kernel) : Runs (mlfqLoop rounds m k) := by
  induction rounds generalizing m k with
  | zero =>
    cases m with
    | none => exact Runs.ok _
    | some m => exact .throw Stop.noConfusion
  | succ rounds ih =>
    cases m with
    | none => exact Runs.ok _
    | some m =>
      unfold mlfqLoop
      split
      · exact ih _ _
      · split
        · exact .throw Stop.noConfusion
        · split
          · exact ih _ _
          · split
            · exact Runs.ok _
            · exact ih _ _

theorem mlfqScan_runs (k : Kernel) (header : Node) : Runs (mlfqScan k header) := by
  refine runs_bind (mlfqLoop_runs _ _ _) fun found => ?_
  dsimp only
  split <;> exact Runs.ok _

theorem choosebymlfq_runs (k : Kernel) : Runs (choosebymlfq k) := by
  unfold choosebymlfq
  split
  · exact Runs.ok _
  · split
    · exact mlfqScan_runs _ _
    · split
      · exact .throw Stop.noConfusion
      · split
        · exact Runs.ok _
        · exact mlfqScan_runs _ _

theorem scanProc_runs (k : Kernel) (v : Scan) (p : Slot) : Runs (scanProc k v p) := by
  unfold scanProc
  split
  · refine runs_bind (getHighestMaster_runs k p) fun hmaster => ?_
    split
    · split <;> exact Runs.ok _
    · dsimp only
      split <;> split <;> exact Runs.ok _
    · exact Runs.ok _
  · exact Runs.ok _

theorem updatevals_runs (k : Kernel) : Runs (updatevals k) :=
  runs_bind (Avoids.foldlM (scanProc_runs k) _ _ trivial) fun _ =>
    runs_bind (choosebymlfq_runs _) fun _ => Runs.ok _

theorem choosebystride_runs (k : Kernel) : Runs (choosebystride k) := by
  refine runs_bind (updatevals_runs k) fun k => ?_
  dsimp only
  split
  · exact Runs.ok _
  · split
    · exact .throw Stop.noConfusion
    · exact Runs.ok _

theorem getminpath_runs (k : Kernel) : Runs (getminpath k) := by
  refine runs_bind (choosebystride_runs k) fun chosen => ?_
  dsimp only
  split <;> exact Runs.ok _

/-! ### Functions that leave the locks as they are -/

/-- The locks are as before. -/
def SameLocks (k k' : Kernel) : Prop := k'.ptableLock = k.ptableLock ∧ k'.memlock = k.memlock

/-- `x`, run on `k`, takes no lock it holds and leaves both locks as they were. -/
abbrev Neutral (k : Kernel) (x : Except Stop Kernel) : Prop := Avoids Stop.lock (SameLocks k) x

variable {k k' k₁ : Kernel} {cur : Slot}

theorem SameLocks.refl (k : Kernel) : SameLocks k k := ⟨rfl, rfl⟩

theorem SameLocks.trans (first : SameLocks k k₁) (second : SameLocks k₁ k') : SameLocks k k' :=
  ⟨second.1.trans first.1, second.2.trans first.2⟩

theorem Chosen.sameLocks (chosen : Chosen k k') : SameLocks k k' := by
  obtain ⟨_, _, _, _, _, rfl⟩ := chosen
  exact .refl _

theorem getminpath_neutral (k : Kernel) :
    Avoids Stop.lock (fun r => SameLocks k r.2) (getminpath k) :=
  ⟨(getminpath_runs k).error_ne, fun ran => (getminpath_chosen ran).sameLocks⟩

theorem shareLoop_neutral (rounds : Nat) (p : Option Slot) (k : Kernel) :
    Neutral k (shareLoop rounds p k) := by
  induction rounds generalizing p k with
  | zero =>
    cases p with
    | none => exact .ok (SameLocks.refl k)
    | some p => exact .throw Stop.noConfusion
  | succ rounds ih =>
    cases p with
    | none => exact .ok (SameLocks.refl k)
    | some p =>
      unfold shareLoop
      split
      · split
        · exact .throw Stop.noConfusion
        · exact (ih _ _).mono fun _ same => same
      · exact (ih _ _).mono fun _ same => same

theorem enqueue_neutral (k : Kernel) (p : Slot) : Neutral k (enqueue k p) := by
  have taken : Avoids Stop.lock (fun r => SameLocks k r.2) (allocmlfqnode k p) := by
    unfold allocmlfqnode
    split
    · exact .throw Stop.noConfusion
    · exact .ok (SameLocks.refl k)
  refine taken.bind fun made same => ?_
  dsimp only
  split
  · exact .throw Stop.noConfusion
  · exact .ok same

theorem enqueueLoop_neutral (rounds : Nat) (p : Option Slot) (k : Kernel) :
    Neutral k (enqueueLoop rounds p k) := by
  induction rounds generalizing p k with
  | zero =>
    cases p with
    | none => exact .ok (SameLocks.refl k)
    | some p => exact .throw Stop.noConfusion
  | succ rounds ih =>
    cases p with
    | none => exact .ok (SameLocks.refl k)
    | some p =>
      refine (enqueue_neutral _ p).bind fun k₁ same => ?_
      exact (ih _ k₁).mono fun k' next => SameLocks.trans same next

theorem ensureMlfq_neutral (k : Kernel) : Neutral k (ensureMlfq k) := by
  unfold ensureMlfq initmlfq
  split
  · refine (getminpath_neutral _).bind fun r same => ?_
    exact .ok (SameLocks.trans ⟨rfl, rfl⟩ same)
  · exact .ok (SameLocks.refl k)

theorem ensurePath_neutral (k : Kernel) : Neutral k (ensurePath k) := by
  unfold ensurePath
  split
  · exact (getminpath_neutral k).bind fun _ same => .ok same
  · exact .ok (SameLocks.refl k)

theorem queueThread_neutral (k : Kernel) (np : Slot) : Neutral k (queueThread k np) := by
  unfold queueThread
  split
  · exact enqueue_neutral k np
  · exact .ok (SameLocks.refl k)

theorem giveBackStack_neutral (k : Kernel) (hmaster : Slot) (base : Nat) :
    Neutral k (giveBackStack k hmaster base) := by
  unfold giveBackStack
  split
  · split
    · exact .ok (SameLocks.refl k)
    · exact .throw Stop.noConfusion
  · exact .ok (SameLocks.refl k)

theorem acquire_unlocked (free : k.ptableLock = false) :
    acquire k = .ok { k with ptableLock := true } := by
  simp [acquire, free]

theorem acquireMem_unlocked (free : k.memlock = false) :
    acquireMem k = .ok { k with memlock := true } := by
  simp [acquireMem, free]

theorem acquire_avoids (free : k.ptableLock = false) :
    Avoids Stop.lock (fun k' => k' = { k with ptableLock := true }) (acquire k) := by
  rw [acquire_unlocked free]
  exact .ok rfl

theorem acquireMem_avoids (free : k.memlock = false) :
    Avoids Stop.lock (fun k' => k' = { k with memlock := true }) (acquireMem k) := by
  rw [acquireMem_unlocked free]
  exact .ok rfl

/-- `dealloc_thread` takes `memlock` under `ptable.lock`. -/
theorem deallocThread_neutral (free : k.memlock = false) (worker : Slot) :
    Avoids Stop.lock (fun r => SameLocks k r.2) (deallocThread k worker) := by
  unfold deallocThread
  split
  · exact .ok (SameLocks.refl k)
  · refine (getHighestMaster_runs k worker).bind fun hmaster _ => ?_
    refine Avoids.bind (deallocuvm_runs _ _ _ _) fun freed _ => ?_
    refine Avoids.bind (acquireMem_avoids free) fun k₁ locked => ?_
    refine Avoids.bind (giveBackStack_neutral k₁ hmaster _) fun k₂ same => ?_
    refine .ok ⟨same.1.trans ?_, free.symm⟩
    rw [locked]
    rfl

theorem joinLoop_runs (k : Kernel) (tid rounds : Nat) (q : Option Slot) (found : Bool) :
    Runs (joinLoop k tid rounds q found) := by
  induction rounds generalizing q found with
  | zero =>
    cases q with
    | none => exact Runs.ok _
    | some p => exact .throw Stop.noConfusion
  | succ rounds ih =>
    cases q with
    | none => exact Runs.ok _
    | some p =>
      unfold joinLoop
      split
      · split
        · exact Runs.ok _
        · exact ih _ _
      · exact ih _ _

/-! ### One lemma for each section -/

/-- A section is balanced when its code avoids `Stop.lock` and ends unlocked. -/
theorem balanced_iff {α : Type} {x : Except Stop (α × Kernel)} {s : Section}
    (code : s.run k cur = Prod.snd <$> x) :
    Balanced k cur s ↔ Avoids Stop.lock (fun r => Unlocked r.2) x := by
  unfold Balanced
  rw [code]
  exact Avoids.map_iff Prod.snd

theorem allocproc_balanced (free : Unlocked k) : Balanced k cur .allocproc := by
  refine (balanced_iff rfl).mpr ((acquire_avoids free.1).bind fun k₁ locked => ?_)
  subst locked
  split
  · exact .ok ⟨rfl, free.2⟩
  · simp only [allocKstack]
    split <;> exact .ok ⟨rfl, free.2⟩

theorem createLink_balanced (free : Unlocked k) (np : Slot) : Balanced k cur (.createLink np) := by
  refine (balanced_iff rfl).mpr ((acquire_avoids free.1).bind fun k₁ locked => ?_)
  subst locked
  refine (queueThread_neutral _ np).bind fun k₂ same => ?_
  exact .ok ⟨rfl, same.2.trans free.2⟩

theorem joinPass_balanced (free : Unlocked k) (thread : Nat) (found : Bool) :
    Balanced k cur (.threadJoin thread found) := by
  refine (balanced_iff rfl).mpr ((acquire_avoids free.1).bind fun k₁ locked => ?_)
  subst locked
  refine (joinLoop_runs _ _ _ _ _).bind fun seen _ => ?_
  split
  · refine (deallocThread_neutral (k := { k with ptableLock := true }) free.2 _).bind fun r same => ?_
    exact .ok ⟨rfl, same.2.trans free.2⟩
  · split <;> exact .ok ⟨rfl, free.2⟩

theorem cpuShare_balanced (free : Unlocked k) (n : Int) : Balanced k cur (.cpuShare n) := by
  refine (balanced_iff rfl).mpr ((acquire_avoids free.1).bind fun k₁ locked => ?_)
  subst locked
  split
  · exact .ok ⟨rfl, free.2⟩
  · refine (getHighestMaster_runs _ cur).bind fun p _ => ?_
    refine (getminpath_neutral _).bind fun r first => ?_
    refine (shareLoop_neutral _ _ _).bind fun k₂ second => ?_
    exact .ok ⟨rfl, (SameLocks.trans first second).2.trans free.2⟩

theorem runMLFQ_balanced (free : Unlocked k) : Balanced k cur .runMLFQ := by
  refine (balanced_iff rfl).mpr ((acquire_avoids free.1).bind fun k₁ locked => ?_)
  subst locked
  refine (ensureMlfq_neutral _).bind fun k₂ first => ?_
  refine (ensurePath_neutral k₂).bind fun k₃ second => ?_
  refine (getHighestMaster_runs k₃ cur).bind fun hmaster _ => ?_
  refine (enqueueLoop_neutral _ _ k₃).bind fun k₄ third => ?_
  exact .ok ⟨rfl, ((first.trans second).trans third).2.trans free.2⟩

theorem kill_balanced (free : Unlocked k) (pid : Int) : Balanced k cur (.kill pid) := by
  refine (balanced_iff rfl).mpr ((acquire_avoids free.1).bind fun k₁ locked => ?_)
  subst locked
  split
  · exact .ok ⟨rfl, free.2⟩
  · refine (getHighestMaster_runs _ _).bind fun hmaster _ => ?_
    exact .ok ⟨rfl, free.2⟩

theorem waitPass_balanced (free : Unlocked k) : Balanced k cur .wait := by
  refine (balanced_iff rfl).mpr ((acquire_avoids free.1).bind fun k₁ locked => ?_)
  subst locked
  split
  · refine (freevm_runs _ _).bind fun mem _ => ?_
    exact .ok ⟨rfl, free.2⟩
  · split <;> exact .ok ⟨rfl, free.2⟩

/-! ### Sections that fail with a lock held -/

/-- `fork` gives `ptable.lock` back exactly when `copyuvm2` does not fail. -/
theorem forkCopy_balanced_iff (free : Unlocked k) (np : Slot) :
    Balanced k cur (.forkCopy np) ↔ (Section.forkCopy np).Spared k cur := by
  rw [balanced_iff rfl, forkCopy, Avoids.bind_of_ok (acquire_unlocked free.1)]
  constructor
  · intro avoids hmaster mem climbed failed
    rw [Avoids.bind_of_ok (x := getHighestMaster { k with ptableLock := true } cur) climbed] at avoids
    have failed' : copyuvm2 k.mem (k.pgdir cur) (update k.sz cur (k.sz hmaster) cur) = .ok (0, mem) := by
      rwa [Function.update_self]
    exact Bool.noConfusion (((Avoids.bind_of_ok failed').mp avoids).result rfl).1
  · intro spared
    refine Avoids.bind_eq (getHighestMaster_runs _ cur) fun hmaster climbed => ?_
    refine Avoids.bind_eq (copyuvm2_runs _ _ _) fun ⟨pgdir, mem⟩ copied => ?_
    have found : pgdir ≠ 0 := by
      rintro rfl
      exact spared hmaster mem climbed (by simpa [inheritStacks] using copied)
    change Avoids _ _ (if pgdir = 0 then _ else _)
    rw [if_neg found]
    exact .ok ⟨rfl, free.2⟩

/-- `growproc` gives `memlock` back exactly when the new size is not 0. -/
theorem growproc_balanced_iff (free : Unlocked k) (n : Int) :
    Balanced k cur (.growproc n) ↔ (Section.growproc n).Spared k cur := by
  rw [balanced_iff rfl, growproc, Avoids.bind_of_ok (acquireMem_unlocked free.2)]
  constructor
  · intro avoids master mem climbed moved failed
    rw [Avoids.bind_of_ok (x := getHighestMaster { k with memlock := true } cur) climbed] at avoids
    have held := (Avoids.bind_of_ok failed).mp avoids
    change Avoids _ _ (if n ≠ 0 ∧ 0 = 0 then _ else _) at held
    rw [if_pos ⟨moved, rfl⟩] at held
    exact Bool.noConfusion (held.result rfl).2
  · intro spared
    refine Avoids.bind_eq (getHighestMaster_runs _ cur) fun master climbed => ?_
    refine Avoids.bind_eq (resize_runs _ _ _ _) fun ⟨sz, mem⟩ resized => ?_
    have sized : ¬(n ≠ 0 ∧ sz = 0) := by
      rintro ⟨moved, rfl⟩
      exact spared master mem climbed moved resized
    change Avoids _ _ (if n ≠ 0 ∧ sz = 0 then _ else _)
    rw [if_neg sized]
    refine .ok ⟨?_, rfl⟩
    simp only [releaseMem, setSize]
    split <;> exact free.1

theorem takeStack_locks {h : Slot} {base : Nat} (taken : takeStack k cur h = (base, k')) :
    base = (if k.emptystackcnt h > 0 then k.emptystacks h (k.emptystackcnt h - 1) else k.sz cur) ∧
      k'.mem = k.mem ∧ k'.pgdir = k.pgdir ∧ SameLocks k k' := by
  unfold takeStack at taken
  split at taken <;> cases taken <;> exact ⟨by simp_all, rfl, rfl, .refl _⟩

theorem setThread_locks (k : Kernel) (np hmaster : Slot) (sz : Nat) :
    SameLocks k (setThread k cur np hmaster sz) := by
  simp only [setThread]
  split <;> exact .refl _

/-- `thread_create` gives `memlock` back exactly when there is a stack for the new thread. -/
theorem createStack_balanced_iff (free : Unlocked k) (np : Slot) :
    Balanced k cur (.createStack np) ↔ (Section.createStack np).Spared k cur := by
  rw [balanced_iff rfl, createStack]
  constructor
  · intro avoids hmaster mem climbed base failed
    rw [Avoids.bind_of_ok (x := getHighestMaster { k with nextpid := k.nextpid - 1 } cur) climbed,
      Avoids.bind_of_ok (acquireMem_unlocked (k := { k with nextpid := k.nextpid - 1 }) free.2)] at avoids
    generalize taken : takeStack _ cur hmaster = pair at avoids
    obtain ⟨start, k₁⟩ := pair
    obtain ⟨from', mem', pgdir', same⟩ := takeStack_locks taken
    have start' : start = base := by simpa [Function.update_self] using from'
    have failed' : allocuvm k₁.mem (k₁.pgdir cur) start (uint32 (start + 2 * PGSIZE)) = .ok (0, mem) := by
      rw [mem', pgdir', start']
      exact failed
    have held := (Avoids.bind_of_ok failed').mp avoids
    exact absurd ((held.result rfl).2.symm.trans same.2) (by simp)
  · intro spared
    refine Avoids.bind_eq (getHighestMaster_runs _ cur) fun hmaster climbed => ?_
    rw [Avoids.bind_of_ok (acquireMem_unlocked (k := { k with nextpid := k.nextpid - 1 }) free.2)]
    generalize taken : takeStack _ cur hmaster = pair
    obtain ⟨start, k₁⟩ := pair
    obtain ⟨from', mem', pgdir', same⟩ := takeStack_locks taken
    refine Avoids.bind_eq (allocuvm_runs _ _ _ _) fun ⟨sz, mem⟩ grown => ?_
    have found : sz ≠ 0 := by
      rintro rfl
      refine spared hmaster mem climbed ?_
      rw [mem', pgdir', from'] at grown
      simpa [Function.update_self] using grown
    change Avoids _ _ (if sz = 0 then _ else _)
    rw [if_neg found]
    refine Avoids.bind_eq (clearpteu_runs _ _ _) fun mem _ => ?_
    exact .ok ⟨(setThread_locks _ np hmaster sz).1.trans (same.1.trans free.1), rfl⟩

/-- `getlev` is never balanced once it has found the main thread. -/
theorem getlev_balanced_iff (free : Unlocked k) :
    Balanced k cur .getlev ↔ Section.getlev.Spared k cur := by
  rw [balanced_iff rfl, getlev, Avoids.bind_of_ok (acquire_unlocked free.1)]
  constructor
  · intro avoids hmaster climbed
    rw [Avoids.bind_of_ok (x := getHighestMaster { k with ptableLock := true } cur) climbed] at avoids
    split at avoids
    · exact Bool.noConfusion (avoids.result rfl).1
    · exact avoids.error_ne rfl rfl
  · intro spared
    exact Avoids.bind_eq (getHighestMaster_runs _ cur) fun hmaster climbed =>
      absurd climbed (spared hmaster)

/-! ### Every section -/

/-- From a state with neither lock held, a section gives back what it takes and takes nothing
twice exactly when it is spared. -/
theorem section_balanced_iff (free : Unlocked k) (s : Section) :
    Balanced k cur s ↔ s.Spared k cur := by
  cases s with
  | allocproc => exact iff_of_true (allocproc_balanced free) trivial
  | forkCopy np => exact forkCopy_balanced_iff free np
  | growproc n => exact growproc_balanced_iff free n
  | createStack np => exact createStack_balanced_iff free np
  | createLink np => exact iff_of_true (createLink_balanced free np) trivial
  | threadJoin thread found => exact iff_of_true (joinPass_balanced free thread found) trivial
  | cpuShare n => exact iff_of_true (cpuShare_balanced free n) trivial
  | runMLFQ => exact iff_of_true (runMLFQ_balanced free) trivial
  | getlev => exact getlev_balanced_iff free
  | kill pid => exact iff_of_true (kill_balanced free pid) trivial
  | wait => exact iff_of_true (waitPass_balanced free) trivial

theorem exists_ok_of_any {α : Type} {x : Except Stop α} {P : α → Prop} [DecidablePred P]
    (ran : x.toOption.any (fun a => decide (P a)) = true) : ∃ a, x = .ok a ∧ P a := by
  cases x with
  | error e => simp [Except.toOption] at ran
  | ok a => exact ⟨a, rfl, by simpa [Except.toOption] using ran⟩

/-- One process in slot 0, and no memory left. -/
def lastFrame : Kernel :=
  { zeroed [] with
    state := fun p => if p = 0 then .RUNNING else .UNUSED
    pid := fun p => if p = 0 then 1 else 0
    sz := fun p => if p = 0 then PGSIZE else 0
    nextpid := 2 }

theorem section_balanced_iff_wait : Unlocked lastFrame ∧ Balanced lastFrame 0 .wait :=
  ⟨⟨rfl, rfl⟩, (section_balanced_iff ⟨rfl, rfl⟩ .wait).mpr trivial⟩

/-- In the default scheduling mode `getlev` returns with `ptable.lock`; without memory `fork`
does so too, and `growproc` and `thread_create` return with `memlock`. -/
theorem locks_kept :
    Unlocked lastFrame ∧
      (∃ r, getlev lastFrame 0 = .ok r ∧ r.1 = -1 ∧ r.2.ptableLock = true) ∧
      (∃ r, forkCopy lastFrame 0 1 = .ok r ∧ r.1 = -1 ∧ r.2.ptableLock = true) ∧
      (∃ r, growproc lastFrame 0 1 = .ok r ∧ r.1 = -1 ∧ r.2.memlock = true) ∧
      ∃ r, createStack lastFrame 0 1 = .ok r ∧ r.1 = false ∧ r.2.memlock = true :=
  ⟨⟨rfl, rfl⟩, exists_ok_of_any (by decide +kernel), exists_ok_of_any (by decide +kernel),
    exists_ok_of_any (by decide +kernel), exists_ok_of_any (by decide +kernel)⟩

end Xv6.Proc
