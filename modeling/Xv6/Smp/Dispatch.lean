import Xv6.Proc.Frames
import Xv6.Smp.Machine

/-!
# What a step of the machine does

A round of `scheduler` picks a `RUNNABLE` thread and changes nothing else but the data of the scheduler. The
other steps are sections of `Proc.Thread` followed by the bookkeeping of `place`.
-/

namespace Xv6.Smp

open Function (update)
open Proc Vm Steps

variable {k k' : Kernel} {p q : Slot}

/-! ### The choice -/

theorem turnLoop_runnable : ∀ {rounds : Nat} {start : Option Slot},
    turnLoop k p rounds start = .ok (some q) → k.state q = .RUNNABLE := by
  intro rounds
  induction rounds with
  | zero =>
    intro start ran
    cases ran
  | succ rounds ih =>
    intro start ran
    simp only [turnLoop] at ran
    split at ran
    next ready =>
      cases ran
      exact ready
    · split at ran
      · cases ran
      · exact ih ran

/-- The branches 0 and 1 of `scheduler` find a `RUNNABLE` thread. -/
theorem takeTurn_frame (ran : takeTurn k p = .ok (q, k')) :
    k.state q = .RUNNABLE ∧ ∃ turn, k' = { k with turn := turn } := by
  unfold takeTurn at ran
  obtain ⟨found, loop, ran⟩ := bind_ok ran
  cases found with
  | none => cases ran
  | some r =>
    cases ran
    exact ⟨turnLoop_runnable loop, _, rfl⟩

theorem mlfqLoop_runnable : ∀ {rounds : Nat} {start : Option Node} {m : Node} {k k' : Kernel},
    mlfqLoop rounds start k = .ok (some m, k') →
    ∃ p, k'.mlfq.self m = some p ∧ k'.state p = .RUNNABLE := by
  intro rounds
  induction rounds with
  | zero =>
    intro start m k k' ran
    cases start <;> cases ran
  | succ rounds ih =>
    intro start m k k' ran
    cases start with
    | none => cases ran
    | some n =>
      simp only [mlfqLoop] at ran
      split at ran
      · exact ih ran
      · split at ran
        · cases ran
        next p self =>
          split at ran
          · exact ih ran
          · split at ran
            next ready =>
              cases ran
              exact ⟨p, self, ready⟩
            · exact ih ran

/-- The node that `choosebymlfq` returns belongs to a `RUNNABLE` thread. -/
theorem choosebymlfq_runnable {m : Node} (ran : choosebymlfq k = .ok (some m, k')) :
    ∃ p, k'.mlfq.self m = some p ∧ k'.state p = .RUNNABLE := by
  have scanned : ∀ {header}, mlfqScan k header = .ok (some m, k') →
      ∃ p, k'.mlfq.self m = some p ∧ k'.state p = .RUNNABLE := by
    intro header ran
    unfold mlfqScan at ran
    obtain ⟨⟨n, k₁⟩, loop, ran⟩ := bind_ok ran
    simp only at ran
    split at ran
    · cases ran
      exact mlfqLoop_runnable loop
    · cases ran
      obtain ⟨p, self, ready⟩ := mlfqLoop_runnable loop
      exact ⟨p, self, ready⟩
  unfold choosebymlfq at ran
  split at ran
  · cases ran
  · split at ran
    · exact scanned ran
    · split at ran
      · cases ran
      next p self =>
        split at ran
        next ready =>
          cases ran
          exact ⟨p, self, ready⟩
        · exact scanned ran

/-- A thread of the process `h` is ready. -/
def HasReady (k : Kernel) (h : Slot) : Prop := ∃ x, k.state x = .RUNNABLE ∧ getHighestMaster k x = .ok h

/-- What `updatevals` has found is ready, and of the mode it has looked for. -/
structure Picked (k k' : Kernel) : Prop where
  default : ∀ h, k'.defaultHighpr = some h → k.schedmode h = .default ∧ HasReady k h
  share : ∀ h, k'.fixedmin = some h → k.schedmode h = .share ∧ HasReady k h
  mlfq : ∀ m, k'.mlfq.highpr = some m → ∃ p, k'.mlfq.self m = some p ∧ k.state p = .RUNNABLE

theorem scan_picked {v : Scan} (ran : (List.finRange NPROC).foldlM (scanProc k) Scan.start = .ok v) :
    (∀ h, v.highpr = some h → k.schedmode h = .default ∧ HasReady k h) ∧
      ∀ h, v.fixedmin = some h → k.schedmode h = .share ∧ HasReady k h := by
  refine foldlM_ok (P := fun v : Scan => (∀ h, v.highpr = some h → k.schedmode h = .default ∧ HasReady k h) ∧
    ∀ h, v.fixedmin = some h → k.schedmode h = .share ∧ HasReady k h) (fun v p v' picked round => ?_)
    ⟨fun _ found => (by cases found), fun _ found => (by cases found)⟩ ran
  unfold scanProc at round
  split at round
  next runnable =>
    obtain ⟨h, highest, round⟩ := bind_ok round
    have ready : HasReady k h := ⟨p, runnable, highest⟩
    split at round
    next mode =>
      split at round
      · cases round
        refine ⟨?_, picked.2⟩
        rintro _ ⟨⟩
        exact ⟨mode, ready⟩
      · cases round
        exact picked
    next mode =>
      -- the shares are counted only for main threads, and count for nothing here
      by_cases main : k.master p = none
      all_goals
        simp only [main, if_true, if_false] at round
        split at round
        · cases round
          refine ⟨picked.1, ?_⟩
          rintro _ ⟨⟩
          exact ⟨mode, ready⟩
        · cases round
          exact picked
    · cases round
      exact picked
  · cases round
    exact picked

theorem storeScan_found (k : Kernel) (v : Scan) :
    (storeScan k v).defaultHighpr = v.highpr ∧ (storeScan k v).fixedmin = v.fixedmin := by
  simp only [storeScan]
  split <;> exact ⟨rfl, rfl⟩

theorem updatevals_picked (ran : updatevals k = .ok k') : Picked k k' := by
  unfold updatevals at ran
  obtain ⟨v, scanned, ran⟩ := bind_ok ran
  obtain ⟨⟨m, k₁⟩, chosen, ran⟩ := bind_ok ran
  cases ran
  obtain ⟨default, share⟩ := scan_picked scanned
  obtain ⟨storedDefault, storedShare⟩ := storeScan_found k v
  have runnable : ∀ n, m = some n → ∃ p, k₁.mlfq.self n = some p ∧ k₁.state p = .RUNNABLE := by
    rintro n rfl
    exact choosebymlfq_runnable chosen
  obtain ⟨queue, rfl⟩ := choosebymlfq_frame chosen
  refine ⟨fun h found => default h ?_, fun h found => share h ?_, fun n found => ?_⟩
  · rw [← storedDefault]
    exact found
  · rw [← storedShare]
    exact found
  · obtain ⟨p, self, ready⟩ := runnable n found
    obtain ⟨_, _, _, _, _, stored⟩ := chosen_storeScan k v
    exact ⟨p, self, (congrFun (congrArg Kernel.state stored) p).symm.trans ready⟩

theorem getminproc_or (k : Kernel) (a b : Option Slot) : getminproc k a b = a ∨ getminproc k a b = b := by
  cases a with
  | none => exact .inr rfl
  | some a =>
    cases b with
    | none => exact .inl rfl
    | some b =>
      simp only [getminproc]
      split
      · exact .inr rfl
      · exact .inl rfl

/-- The process chosen by stride is of mode 0 or 1 and has a ready thread, or is `RUNNABLE` itself. -/
theorem choosebystride_picked (ran : choosebystride k = .ok (some p, k')) :
    k.schedmode p ≠ .mlfq ∧ HasReady k p ∨ k.state p = .RUNNABLE := by
  unfold choosebystride at ran
  obtain ⟨k₁, updated, ran⟩ := bind_ok ran
  have picked := updatevals_picked updated
  have fixed : k₁.fixedmin = some p → k.schedmode p ≠ .mlfq ∧ HasReady k p := fun found => by
    obtain ⟨mode, ready⟩ := picked.share p found
    exact ⟨by rw [mode]; decide, ready⟩
  have plain : k₁.defaultHighpr = some p → k.schedmode p ≠ .mlfq ∧ HasReady k p := fun found => by
    obtain ⟨mode, ready⟩ := picked.default p found
    exact ⟨by rw [mode]; decide, ready⟩
  simp only at ran
  split at ran
  · obtain ⟨found, _⟩ := Prod.mk.inj (Except.ok.inj ran)
    rcases getminproc_or (setPath k₁ k₁.defaultHighpr k₁.defaultPath) k₁.fixedmin k₁.defaultHighpr
      with same | same
    · exact .inl (fixed (same.symm.trans found))
    · exact .inl (plain (same.symm.trans found))
  next m highpr =>
    split at ran
    · cases ran
    next self isSelf =>
      obtain ⟨found, _⟩ := Prod.mk.inj (Except.ok.inj ran)
      obtain ⟨q, self', ready⟩ := picked.mlfq m highpr
      rcases getminproc_or (setPath (setPath k₁ k₁.defaultHighpr k₁.defaultPath) (some self) k₁.mlfq.path)
        k₁.fixedmin (getminproc (setPath (setPath k₁ k₁.defaultHighpr k₁.defaultPath) (some self)
          k₁.mlfq.path) (some self) k₁.defaultHighpr) with same | same
      · exact .inl (fixed (same.symm.trans found))
      · rcases getminproc_or (setPath (setPath k₁ k₁.defaultHighpr k₁.defaultPath) (some self)
          k₁.mlfq.path) (some self) k₁.defaultHighpr with same' | same'
        · right
          have isP : self = p := Option.some.inj (same'.symm.trans (same.symm.trans found))
          have isQ : self = q := Option.some.inj (isSelf.symm.trans self')
          rw [← isP, isQ, ready]
        · exact .inl (plain (same'.symm.trans (same.symm.trans found)))

/-! ### One round of `scheduler` -/

/-- Data that only the scheduler reads. -/
def Scheduled (k k' : Kernel) : Prop :=
  ∃ path stride highpr fixedmin mlfq turn level total, k' =
    { k with
      path := path
      defaultStride := stride
      defaultHighpr := highpr
      fixedmin := fixedmin
      mlfq := mlfq
      turn := turn
      pathlevel := level
      defaultPath := total }

theorem charge_frame (ran : charge k p = .ok (q, k')) (ready : k.schedmode p ≠ .mlfq ∨ k.state p = .RUNNABLE) :
    k.state q = .RUNNABLE ∧ Scheduled k k' := by
  unfold charge at ran
  split at ran
  · obtain ⟨⟨r, k₁⟩, turned, ran⟩ := bind_ok ran
    cases ran
    obtain ⟨runnable, _, rfl⟩ := takeTurn_frame turned
    exact ⟨runnable, _, _, _, _, _, _, _, _, rfl⟩
  · obtain ⟨⟨r, k₁⟩, turned, ran⟩ := bind_ok ran
    cases ran
    obtain ⟨runnable, _, rfl⟩ := takeTurn_frame turned
    exact ⟨runnable, _, _, _, _, _, _, _, _, rfl⟩
  next mode =>
    obtain ⟨k₁, ticked, ran⟩ := bind_ok ran
    cases ran
    refine ⟨ready.resolve_left fun other => other mode, ?_⟩
    unfold mlfqTick at ticked
    split at ticked
    · cases ticked
    · obtain ⟨_, _, ticked⟩ := bind_ok ticked
      obtain ⟨_, _, ticked⟩ := bind_ok ticked
      cases ticked
      exact ⟨_, _, _, _, _, _, _, _, rfl⟩

theorem unlocked (free : k.ptableLock = false) : { k with ptableLock := false } = k := by
  rw [← free]

/-- **A round of `scheduler`** switches to a `RUNNABLE` thread or finds none. -/
theorem schedule_frame {r : Option Slot} (ran : schedule k = .ok (r, k')) :
    k.ptableLock = false ∧ ∃ k₁, Scheduled k k₁ ∧
      (r = none ∧ k' = k₁ ∨
        ∃ q, r = some q ∧ k.state q = .RUNNABLE ∧
          k' = { k₁ with state := update k.state q .RUNNING }) := by
  unfold schedule acquire at ran
  split at ran
  · cases ran
  next free =>
    simp only [Bool.not_eq_true] at free
    refine ⟨free, ?_⟩
    obtain ⟨k₁, locked, ran⟩ := bind_ok ran
    cases locked
    obtain ⟨⟨found, k₂⟩, chosen, ran⟩ := bind_ok ran
    cases found with
    | none =>
      obtain ⟨_, _, _, _, _, rfl⟩ := choosebystride_chosen chosen
      cases ran
      rw [← unlocked free]
      exact ⟨_, ⟨_, _, _, _, _, _, _, _, rfl⟩, .inl ⟨rfl, rfl⟩⟩
    | some p =>
      obtain ⟨⟨q, k₃⟩, charged, rest⟩ := bind_ok ran
      have picked := choosebystride_picked chosen
      obtain ⟨_, _, _, _, _, rfl⟩ := choosebystride_chosen chosen
      obtain ⟨ready, _, _, _, _, _, _, _, _, rfl⟩ := charge_frame charged (picked.imp_left And.left)
      cases rest
      rw [← unlocked free]
      exact ⟨_, ⟨_, _, _, _, _, _, _, _, rfl⟩, .inr ⟨q, rfl, ready, rfl⟩⟩

/-! ### The steps -/

/-- What an event does, case by case. -/
inductive Machine.Moves (s : Machine) : Event → Machine → Prop where
  | idle (c : Nat) {k : Kernel} : Scheduled s.k k → schedule s.k = .ok (none, k) →
      Moves s (.dispatch c) { s with k := k }
  | switch (c : Nat) {q : Slot} {k : Kernel} : s.cpu c = none → Scheduled s.k k →
      s.k.state q = .RUNNABLE → inLoop (s.k.context q) = false →
      schedule s.k = .ok (some q, { k with state := update s.k.state q .RUNNING }) →
      Moves s (.dispatch c)
        { k := { k with state := update s.k.state q .RUNNING }, cpu := update s.cpu c (some q) }
  | resume (c : Nat) {q : Slot} {k : Kernel} {r : Next × Kernel} : s.cpu c = none →
      Scheduled s.k k → s.k.state q = .RUNNABLE → inLoop (s.k.context q) = true →
      goOn { k with state := update s.k.state q .RUNNING } q (s.k.context q) = .ok r →
      schedule s.k = .ok (some q, { k with state := update s.k.state q .RUNNING }) →
      Moves s (.dispatch c) (s.place c q r)
  | call (c : Nat) {p : Slot} (act : Act) {r : Next × Kernel} : s.cpu c = some p →
      MayCall s.k p act → enter s.k p act = .ok r → Moves s (.call c act) (s.place c p r)
  | advance (c : Nat) {p : Slot} {r : Next × Kernel} : s.cpu c = some p →
      s.k.context p ≠ .user → goOn s.k p (s.k.context p) = .ok r →
      Moves s (.advance c) (s.place c p r)
  | yield (c : Nat) {p : Slot} : s.cpu c = some p →
      Moves s (.yield c)
        { k := { s.k with state := update s.k.state p .RUNNABLE }, cpu := update s.cpu c none }
  | block (c : Nat) {p : Slot} (chan : Nat) : s.cpu c = some p → s.k.context p = .user →
      Moves s (.block c chan)
        { k :=
            { s.k with
              chan := update s.k.chan p (some (.other chan))
              state := update s.k.state p .SLEEPING }
          cpu := update s.cpu c none }
  | wakeup (chan : Nat) : Moves s (.wakeup chan) { s with k := wakeup1 s.k (some (.other chan)) }

theorem toOption_some {α : Type} {x : Except Stop α} {r : α} (ran : x.toOption = some r) :
    x = .ok r := by
  cases x with
  | error e => cases ran
  | ok a => exact congrArg Except.ok (Option.some.inj ran)

/-- A section that gives `ptable.lock` back has found it free. -/
theorem acquire_free (locked : acquire k = .ok k') : k.ptableLock = false ∧ k' = { k with ptableLock := true } := by
  unfold acquire at locked
  split at locked
  · cases locked
  next free =>
    cases locked
    exact ⟨by simpa using free, rfl⟩

theorem Machine.moves {s s' : Machine} {e : Event} (stepped : s.step e = some s') : s.Moves e s' := by
  cases e with
  | dispatch c =>
    simp only [Machine.step] at stepped
    split at stepped
    · cases stepped
    next idle =>
      split at stepped
      · cases stepped
      next k ran =>
        cases stepped
        obtain ⟨_, k₁, scheduled, ⟨_, rfl⟩ | ⟨_, none, _⟩⟩ := schedule_frame ran
        · exact .idle c scheduled ran
        · cases none
      next q k ran =>
        obtain ⟨_, k₁, scheduled, ⟨some, _⟩ | ⟨r, some, ready, rfl⟩⟩ := schedule_frame ran
        · cases some
        cases some
        have context : k₁.context = s.k.context := by
          obtain ⟨_, _, _, _, _, _, _, _, rfl⟩ := scheduled
          rfl
        unfold Machine.switchTo at stepped
        split at stepped
        next loops =>
          obtain ⟨r, resumed, rfl⟩ := Option.map_eq_some_iff.mp stepped
          refine .resume c idle scheduled ready ?_ ?_ ran
          · rw [← context]
            exact loops
          · rw [← context]
            exact toOption_some resumed
        next loops =>
          cases stepped
          refine .switch c idle scheduled ready ?_ ran
          rw [← context]
          simpa using loops
  | call c act =>
    obtain ⟨p, here, stepped⟩ := Option.bind_eq_some_iff.mp stepped
    split at stepped
    next may =>
      obtain ⟨r, entered, rfl⟩ := Option.map_eq_some_iff.mp stepped
      exact .call c act here may (toOption_some entered)
    · cases stepped
  | advance c =>
    obtain ⟨p, here, stepped⟩ := Option.bind_eq_some_iff.mp stepped
    split at stepped
    · cases stepped
    next inside =>
      obtain ⟨r, advanced, rfl⟩ := Option.map_eq_some_iff.mp stepped
      exact .advance c here inside (toOption_some advanced)
  | yield c =>
    obtain ⟨p, here, stepped⟩ := Option.bind_eq_some_iff.mp stepped
    obtain ⟨k₁, locked, stepped⟩ := bind_ok (toOption_some stepped)
    obtain ⟨free, rfl⟩ := acquire_free locked
    cases stepped
    rw [release, ← free]
    exact .yield c here
  | block c chan =>
    obtain ⟨p, here, stepped⟩ := Option.bind_eq_some_iff.mp stepped
    split at stepped
    next user =>
      obtain ⟨k₁, locked, stepped⟩ := bind_ok (toOption_some stepped)
      obtain ⟨free, rfl⟩ := acquire_free locked
      cases stepped
      simp only [sleep, release, ← free, ← user, Function.update_eq_self]
      exact .block c chan here user
    · cases stepped
  | wakeup chan =>
    obtain ⟨k₁, locked, stepped⟩ := bind_ok (toOption_some stepped)
    obtain ⟨free, rfl⟩ := acquire_free locked
    cases stepped
    simp only [wakeup1, release, ← free]
    exact .wakeup chan

/-! ### A place for a new thread -/

variable {cur np : Slot}

theorem placeThread_frame (k : Kernel) (cur np h : Slot) (sz : Nat) :
    ∃ sizes base, placeThread k cur np h sz =
      { k with
        sz := sizes
        pgdir := update k.pgdir np (k.pgdir cur)
        master := update k.master np (some cur)
        originalbase := update k.originalbase np base
        pid := update k.pid np (k.pid cur) } := by
  unfold placeThread
  split
  · exact ⟨_, _, rfl⟩
  · exact ⟨_, _, rfl⟩

/-- `thread_create` from `get_highest_master` on, without the number. -/
theorem createPlace_frame {r : Bool} (ran : createPlace k cur np = .ok (r, k')) :
    k.memlock = false ∧ ∃ sz cnt mem,
      (r = false ∧ k' = { k with memlock := true, sz := sz, emptystackcnt := cnt, mem := mem }) ∨
      r = true ∧ ∃ base, k' =
        { k with
          sz := sz
          emptystackcnt := cnt
          mem := mem
          pgdir := update k.pgdir np (k.pgdir cur)
          master := update k.master np (some cur)
          originalbase := update k.originalbase np base
          pid := update k.pid np (k.pid cur) } := by
  unfold createPlace at ran
  obtain ⟨h, _, ran⟩ := bind_ok ran
  obtain ⟨k₁, locked, ran⟩ := bind_ok ran
  have free : k.memlock = false := by
    unfold acquireMem at locked
    split at locked
    · cases locked
    next free => simpa using free
  refine ⟨free, ?_⟩
  rw [acquireMem_eq locked] at ran
  generalize taken : takeStack _ cur h = pair at ran
  obtain ⟨base, k₂⟩ := pair
  obtain ⟨cnt, rfl⟩ := takeStack_fields taken
  obtain ⟨⟨sz, mem⟩, _, ran⟩ := bind_ok ran
  simp only at ran
  split at ran
  · cases ran
    exact ⟨_, _, _, .inl ⟨rfl, rfl⟩⟩
  · obtain ⟨mem', _, rest⟩ := bind_ok ran
    cases rest
    obtain ⟨sizes, base, fields⟩ := placeThread_frame _ cur np h sz
    rw [fields]
    refine ⟨sizes, cnt, mem', .inr ⟨rfl, base, ?_⟩⟩
    rw [releaseMem, ← free]

end Xv6.Smp
