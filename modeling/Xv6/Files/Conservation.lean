import Xv6.Files.References

/-!
# Conservation of references

Between system calls the reference counts say how many references there are, as long as `exec` ends no
other thread: `dealloc_other_threads` gives back slots without closing their files.
-/

namespace Xv6.Files

open Function (update)
open Proc Vm Steps Refs

variable {m m' : Machine} {cur p : Slot} {request : Request}

/-- File and inode reference counts are the numbers of references, and an `UNUSED` slot has no
descriptor and no directory. -/
def Conserved (m : Machine) : Prop :=
  (∀ f, (m.file f).ref = (Finset.univ.filter fun x : Slot × Fin NOFILE => m.ofile x = some f).card) ∧
  (∀ p, m.k.state p = .UNUSED → (∀ fd, m.ofile (p, fd) = none) ∧ m.cwd p = none) ∧
  ∀ ip, (m.inode ip).ref = (Finset.univ.filter fun p => m.cwd p = some ip).card +
    (Finset.univ.filter fun f => 0 < (m.file f).ref ∧ (m.file f).type = .inode ip).card

/-- `exec` ends no thread. -/
def SparesThreads (m : Machine) : Slot × Request → Prop
  | (cur, .exec path program) =>
    ∀ m' ∈ m.step (cur, .exec path program), ∀ p, m.k.active p → m'.k.active p
  | _ => True

instance (m : Machine) : (a : Slot × Request) → Decidable (SparesThreads m a)
  | (cur, .exec path program) => by
    unfold SparesThreads
    infer_instance
  | (_, .call _) | (_, .open _) | (_, .close _) | (_, .dup _) | (_, .pipe) | (_, .chdir ..) | (_, .kill _) =>
    .isTrue trivial

/-! ### The invariant -/

structure Counted (m : Machine) : Prop where
  files : fileSurplus m = 0
  inodes : inodeSurplus m = 0
  closed : Closed m
  idle : ∀ p, m.k.active p = false → (∀ fd, m.ofile (p, fd) = none) ∧ m.cwd p = none

theorem Counted.conserved (counted : Counted m) : Conserved m := by
  have refs : ∀ f, (m.file f).ref = count m.ofile f := fun f =>
    sub_eq_zero.mp (congrFun counted.files f)
  refine ⟨refs, fun p unused => ?_, fun ip => ?_⟩
  · refine counted.idle p ?_
    rw [active_of_state unused]
    rfl
  · have surplus := congrFun counted.inodes ip
    simp only [inodeSurplus, Pi.sub_apply, Pi.zero_apply, sub_sub] at surplus
    rw [sub_eq_zero.mp surplus, count, count]
    -- an inode's file is open, for closed files have no type
    have isOpen : ∀ f, (m.file f).type.ip = some ip ↔
        0 < (m.file f).ref ∧ (m.file f).type = .inode ip := by
      intro f
      have typed : (m.file f).type.ip = some ip ↔ (m.file f).type = .inode ip := by
        cases (m.file f).type <;> simp [FileType.ip]
      rw [typed, iff_and_self]
      intro type
      have used : (m.file f).ref ≠ 0 := fun zero => by
        rw [counted.closed f zero] at type
        cases type
      have := count_nonneg m.ofile f
      rw [← refs f] at this
      omega
    simp only [isOpen]

theorem Counted.moves (counted : Counted m) (running : m.k.active cur)
    (moves : Moves (some cur) m m' 0 0) : Counted m' where
  files := by rw [moves.files, counted.files, add_zero]
  inodes := by rw [moves.inodes, counted.inodes, add_zero]
  closed := moves.closed counted.closed
  idle p inactive := by
    rw [active_congr moves.state] at inactive
    have other : some p ≠ some cur := fun same => by
      rw [Option.some.inj same, running] at inactive
      cases inactive
    obtain ⟨ofile, cwd⟩ := moves.others p other
    obtain ⟨descriptors, directory⟩ := counted.idle p inactive
    exact ⟨fun fd => (ofile fd).trans (descriptors fd), cwd.trans directory⟩

theorem Counted.setKernel {k : Kernel} (counted : Counted m) (stays : ∀ p, m.k.active p → k.active p) :
    Counted { m with k := k } :=
  { counted with
    idle := fun p inactive => counted.idle p (by
      by_contra active
      rw [stays p (by simpa using active)] at inactive
      cases inactive) }

theorem kill_active {k k' : Kernel} {pid r : Int} (ran : kill k pid = .ok (r, k')) :
    k'.active = k.active := by
  unfold kill at ran
  obtain ⟨k₁, locked, ran⟩ := bind_ok ran
  obtain rfl := acquire_eq locked
  split at ran
  · cases ran
    rfl
  · obtain ⟨h, _, ran⟩ := bind_ok ran
    cases ran
    exact active_killThread _ h

theorem serve_counted (counted : Counted m) (running : m.k.active cur)
    (ran : serve m cur request = .ok m') : Counted m' := by
  cases request with
  | «open» target =>
    obtain ⟨r, opened, ran⟩ := bind_ok ran
    cases ran
    exact counted.moves running (sysOpen_moves counted.closed opened)
  | close fd =>
    obtain ⟨r, closed, ran⟩ := bind_ok ran
    cases ran
    exact counted.moves running (sysClose_moves closed)
  | dup fd =>
    obtain ⟨r, dup, ran⟩ := bind_ok ran
    cases ran
    exact counted.moves running (sysDup_moves dup)
  | pipe =>
    obtain ⟨r, piped, ran⟩ := bind_ok ran
    cases ran
    exact counted.moves running (sysPipe_moves counted.closed piped)
  | chdir path directory =>
    obtain ⟨r, moved, ran⟩ := bind_ok ran
    cases ran
    exact counted.moves running (sysChdir_moves moved)
  | kill pid =>
    obtain ⟨⟨r, k⟩, killed, ran⟩ := bind_ok ran
    cases ran
    exact counted.setKernel fun p active => by rwa [kill_active killed]
  | call c =>
    cases ran
    exact counted
  | exec path program =>
    cases ran
    exact counted

theorem findProgram_moves {path : Path} {program r : Option Program}
    (ran : findProgram m cur path program = .ok (r, m')) : Moves (some cur) m m' 0 0 := by
  unfold findProgram at ran
  obtain ⟨⟨x, m₁⟩, named, ran⟩ := bind_ok ran
  have held := namex_moves named
  cases x with
  | none =>
    cases ran
    exact held.widen.congr rfl (by simp)
  | some ip =>
    cases ran
    exact (held.trans (iput_moves m₁ ip)).widen.congr (by simp) (by simp)

/-- A creation: the new slot is given the descriptors of `cur`. -/
theorem Counted.create {k : Kernel} (counted : Counted m) (running : m.k.active cur)
    (creates : Creates m.k k) (ran : (match born m.k k with
      | some np => copyFiles { m with k := k } cur np
      | none => .ok { m with k := k }) = .ok m') :
    Counted m' ∧ m'.k = { k with mem := m'.k.mem } ∧
      ∀ np, born m.k k = some np → ∀ fd, m'.ofile (np, fd) = m.ofile (cur, fd) := by
  have active := creates.active
  split at ran
  next np isBorn =>
    rw [isBorn] at active
    simp only at active
    have idle : m.k.active np = false := by
      obtain ⟨first, _⟩ := Option.filter_eq_some_iff.mp isBorn
      rw [active_of_state (firstUnused_state first)]
      rfl
    have ne : np ≠ cur := by
      rintro rfl
      rw [running] at idle
      cases idle
    obtain ⟨descriptors, directory⟩ := counted.idle np idle
    have stays : Counted { m with k := k } := counted.setKernel fun p was => by
      rw [active]
      by_cases same : p = np
      · simp [same]
      · rwa [Function.update_of_ne same]
    obtain ⟨moves, copies⟩ := copyFiles_moves (m := { m with k := k }) ne descriptors directory ran
    have ready : k.active np := by
      rw [active, Function.update_self]
    refine ⟨stays.moves ready moves, moves.kernel, fun np' isBorn' => ?_⟩
    · obtain rfl := Option.some.inj (isBorn.symm.trans isBorn')
      exact copies
  next none =>
    cases ran
    rw [none] at active
    refine ⟨counted.setKernel fun p was => by rwa [active], rfl, fun np isBorn => ?_⟩
    rw [none] at isBorn
    cases isBorn

theorem Counted.finish {k : Kernel} (counted : Counted m) (running : m.k.active cur)
    (ended : k.active = m.k.active ∨ k.active = update m.k.active cur false ∧ k.state cur = .ZOMBIE)
    (ran : (if k.state cur = .ZOMBIE then closeFiles { m with k := k } cur
      else .ok { m with k := k }) = .ok m') : Counted m' ∧ m'.k = { k with mem := m'.k.mem } := by
  split at ran
  next zombie =>
    have active : k.active = update m.k.active cur false := by
      refine ended.elim (fun same => ?_) And.left
      have idle : k.active cur = false := active_of_state zombie
      rw [same, running] at idle
      cases idle
    obtain ⟨moves, descriptors, directory⟩ := closeFiles_moves ran
    refine ⟨
      { files := by rw [moves.files, add_zero]; exact counted.files
        inodes := by rw [moves.inodes, add_zero]; exact counted.inodes
        closed := moves.closed counted.closed
        idle := fun p inactive => ?_ }, moves.kernel⟩
    by_cases same : p = cur
    · subst same
      exact ⟨descriptors, directory⟩
    · obtain ⟨ofile, cwd⟩ := moves.others p (by simpa using same)
      rw [active_congr moves.state] at inactive
      change k.active p = false at inactive
      rw [active, Function.update_of_ne same] at inactive
      obtain ⟨descriptors, directory⟩ := counted.idle p inactive
      exact ⟨fun fd => (ofile fd).trans (descriptors fd), cwd.trans directory⟩
  next alive =>
    cases ran
    refine ⟨counted.setKernel fun p was => ?_, rfl⟩
    rcases ended with same | ⟨_, zombie⟩
    · rwa [same]
    · exact absurd zombie alive

theorem toOption_eq_some {α : Type} {x : Except Stop α} {a : α} (ran : x.toOption = some a) :
    x = .ok a := by
  cases x with
  | error why => cases ran
  | ok b =>
    cases ran
    rfl

/-- A process call keeps the counts, and the files add nothing to what it does to the kernel
but pages of pipes. -/
theorem process_counted {c : Call} (counted : Counted m)
    (spares : ∀ program, c = .exec program → ∀ p, m.k.active p → m'.k.active p)
    (ran : process m cur c = some m') :
    Counted m' ∧ ∃ k, step m.k (cur, c) = some k ∧ m'.k = { k with mem := m'.k.mem } ∧
      (c = .fork → ∀ np, born m.k k = some np → ∀ fd, m'.ofile (np, fd) = m.ofile (cur, fd)) := by
  obtain ⟨k, stepped, ran⟩ := Option.bind_eq_some_iff.mp ran
  replace ran : settle { m with k := k } cur m.k c = .ok m' := toOption_eq_some ran
  have running : m.k.active cur := by
    rw [active_of_state (step_ready stepped)]
    rfl
  have activity := step_activity stepped
  -- calls that leave the files alone
  have alone : ∀ {m₁ : Machine}, (∀ p, m.k.active p → k.active p) → c ≠ .fork →
      m₁ = { m with k := k } → Counted m₁ ∧ ∃ k, step m.k (cur, c) = some k ∧
        m₁.k = { k with mem := m₁.k.mem } ∧
        (c = .fork → ∀ np, born m.k k = some np → ∀ fd, m₁.ofile (np, fd) = m.ofile (cur, fd)) := by
    rintro m₁ stays other rfl
    exact ⟨counted.setKernel stays, k, stepped, rfl, fun same => absurd same other⟩
  cases c with
  | fork =>
    obtain ⟨counted', kernel, copies⟩ := counted.create running activity ran
    exact ⟨counted', k, stepped, kernel, fun _ => copies⟩
  | threadCreate =>
    obtain ⟨counted', kernel, _⟩ := counted.create running activity ran
    exact ⟨counted', k, stepped, kernel, nofun⟩
  | threadExit retval =>
    obtain ⟨counted', kernel⟩ := counted.finish running activity ran
    exact ⟨counted', k, stepped, kernel, nofun⟩
  | exit =>
    obtain ⟨counted', kernel⟩ := counted.finish running activity ran
    exact ⟨counted', k, stepped, kernel, nofun⟩
  | resume =>
    obtain ⟨counted', kernel⟩ := counted.finish running activity ran
    exact ⟨counted', k, stepped, kernel, nofun⟩
  | threadJoin thread =>
    exact alone (fun p was => by rwa [(activity : k.active = _)]) nofun (Except.ok.inj ran).symm
  | wait =>
    exact alone (fun p was => by rwa [(activity : k.active = _)]) nofun (Except.ok.inj ran).symm
  | sbrk n =>
    exact alone (fun p was => by rwa [(activity : k.active = _)]) nofun (Except.ok.inj ran).symm
  | exec program =>
    cases ran
    exact alone (spares program rfl) nofun rfl

theorem InUser.running (ready : InUser m.k cur) : m.k.active cur := by
  rw [active_of_state ready.1]
  rfl

/-- A step is a process call with its files, an `exec` after it has found its program, or a call
on files. -/
theorem step_cases (stepped : m.step (cur, request) = some m') :
    (∃ c, request = .call c ∧ (∀ program, c ≠ .exec program) ∧ process m cur c = some m') ∨
    (∃ path program found m₁, request = .exec path program ∧ InUser m.k cur ∧
      findProgram m cur path program = .ok (found, m₁) ∧ process m₁ cur (.exec found) = some m') ∨
    InUser m.k cur ∧ serve m cur request = .ok m' := by
  have served : ((if InUser m.k cur then (serve m cur request).toOption else none) = some m') →
      InUser m.k cur ∧ serve m cur request = .ok m' := by
    intro ran
    split at ran
    next ready => exact ⟨ready, toOption_eq_some ran⟩
    · cases ran
  cases request with
  | call c =>
    left
    cases c with
    | exec program => cases stepped
    | _ => exact ⟨_, rfl, nofun, stepped⟩
  | exec path program =>
    simp only [Machine.step] at stepped
    split at stepped
    next ready =>
      obtain ⟨⟨found, m₁⟩, looked, ran⟩ := Option.bind_eq_some_iff.mp stepped
      exact .inr (.inl ⟨path, program, found, m₁, rfl, ready, toOption_eq_some looked, ran⟩)
    · cases stepped
  | «open» target => exact .inr (.inr (served stepped))
  | close fd => exact .inr (.inr (served stepped))
  | dup fd => exact .inr (.inr (served stepped))
  | pipe => exact .inr (.inr (served stepped))
  | chdir path directory => exact .inr (.inr (served stepped))
  | kill pid => exact .inr (.inr (served stepped))

/-- **One step.** -/
theorem step_counted (counted : Counted m) (spares : SparesThreads m (cur, request))
    (stepped : m.step (cur, request) = some m') : Counted m' := by
  rcases step_cases stepped with ⟨c, rfl, other, ran⟩ |
    ⟨path, program, found, m₁, rfl, ready, looked, ran⟩ | ⟨ready, ran⟩
  · exact (process_counted counted (fun program same => absurd same (other program)) ran).1
  · have moves := findProgram_moves looked
    refine (process_counted (counted.moves ready.running moves) (fun _ _ p was => ?_) ran).1
    rw [active_congr moves.state] at was
    exact spares m' stepped p was
  · exact serve_counted counted ready.running ran

theorem boot_counted {free : List Nat} {k : Kernel} (booted : userinit free = .ok k)
    (started : Machine.boot k = .ok m) : Counted m := by
  unfold Machine.boot at started
  obtain ⟨⟨ip, m₁⟩, named, started⟩ := bind_ok started
  cases started
  have held := namex_moves named
  have start : Counted (.idle k) :=
    { files := by
        have null : count (Machine.idle k).ofile = 0 := count_of_none fun _ => rfl
        rw [fileSurplus, null, sub_zero]
        rfl
      inodes := by
        have null : count (Machine.idle k).cwd = 0 := count_of_none fun _ => rfl
        have untyped : (count fun f => ((Machine.idle k).file f).type.ip) = 0 :=
          count_of_none fun _ => rfl
        rw [inodeSurplus, null, untyped, sub_zero, sub_zero]
        rfl
      closed := fun _ _ => rfl
      idle := fun _ _ => ⟨fun _ => rfl, rfl⟩ }
  refine start.moves (userinit_active booted)
    ((held.widen.trans (moves_cwd m₁ k.initproc ip)).congr (by simp) ?_)
  rw [held.cwd]
  simp [Machine.idle]

theorem files_of_run (ok : Machine → Slot × Request → Prop) [∀ m a, Decidable (ok m a)]
    (free : List Nat) (labels : List (Slot × Request)) {P : Machine → Bool}
    (ran : ((userinit free).toOption.bind fun k =>
      (Machine.boot k).toOption.bind (fileCalls.exec ok labels)).any P = true) :
    ∃ m, fileCalls.Reach ok m ∧ P m = true := by
  cases booted : userinit free with
  | error why => simp [booted, Except.toOption] at ran
  | ok k =>
    simp only [booted, Except.toOption, Option.bind_some] at ran
    cases started : Machine.boot k with
    | error why => simp [started] at ran
    | ok m₀ =>
      simp only [started, Option.bind_some] at ran
      exact System.Reach.of_exec (S := fileCalls) ok labels ⟨free, k, booted, started⟩ ran

/-- A relative path of no element leads to the working directory. -/
def here : Path := { absolute := false, found := [], ok := true }

end Xv6.Files
