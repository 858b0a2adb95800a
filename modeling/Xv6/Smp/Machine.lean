import Xv6.Lib.System
import Xv6.Proc.Calls

/-!
# The kernel on several processors

Any number of CPUs, each of which runs a thread or its scheduler. A step is one section of a call, and the
`context` of a thread says which section comes next. `thread_create` is cut finer than in `Proc.Thread`:
reading and writing `nexttid` are two steps outside any lock.
-/

namespace Xv6.Smp

open Function (update)
open Proc Vm

/-! ### The sections of `thread_create` -/

/-- `setThread` without the number of the thread. -/
def placeThread (k : Kernel) (cur np hmaster : Slot) (sz : Nat) : Kernel :=
  let k := if k.sz cur < sz then { k with sz := update (update k.sz cur sz) hmaster sz } else k
  { k with
    pgdir := update k.pgdir np (k.pgdir cur)
    master := update k.master np (some cur)
    sz := update k.sz np sz
    originalbase := update k.originalbase np (uint32 (sz - 2 * PGSIZE))
    pid := update k.pid np (k.pid cur) }

/-- `thread_create` from `get_highest_master` to the copies of the files; `false` goes to
`bad`. -/
def createPlace (k : Kernel) (cur np : Slot) : Except Stop (Bool × Kernel) := do
  let hmaster ← getHighestMaster k cur
  let k ← acquireMem k
  let (base, k) := takeStack { k with sz := update k.sz cur (k.sz hmaster) } cur hmaster
  let (sz, mem) ← allocuvm k.mem (k.pgdir cur) base (uint32 (base + 2 * PGSIZE))
  if sz = 0 then .ok (false, { k with mem := mem })
  else do
    let mem ← clearpteu mem (k.pgdir cur) (uint32 (sz - 2 * PGSIZE))
    .ok (true, releaseMem (placeThread { k with mem := mem } cur np hmaster sz))

/-- `--nextpid`. -/
def givePid (k : Kernel) : Kernel := { k with nextpid := k.nextpid - 1 }

/-- `*thread = nexttid++; np->tid = *thread`, with the value `tid` read from `nexttid`. -/
def storeTid (k : Kernel) (np : Slot) (tid : Nat) : Kernel :=
  { k with nexttid := uint32 (tid + 1), tid := update k.tid np tid }

/-! ### Sections -/

/-- After a section the thread goes on at some point, sleeps, or is gone. -/
inductive Next where
  | at (point : Context)
  | sleeps
  | ended

/-- A call returns to user mode or sleeps. -/
def returned : Outcome × Kernel → Next × Kernel
  | (.returns _, k) => (.at .user, k)
  | (.sleeps, k) => (.sleeps, k)

/-- The first part of `exit` is followed by the second. -/
def reaped : Outcome × Kernel → Next × Kernel
  | (.returns _, k) => (.at .exitTail, k)
  | (.sleeps, k) => (.sleeps, k)

/-- After `allocproc`. -/
def claimed (point : Slot → Context) : Option Slot × Kernel → Next × Kernel
  | (none, k) => (.at .user, k)
  | (some np, k) => (.at (point np), k)

inductive Act where
  | fork
  | threadCreate
  | threadExit (retval : Nat)
  | threadJoin (thread : Nat)
  | exit
  | wait
  | exec (program : Option Program)
  | sbrk (n : Int)
  | cpuShare (n : Int)
  | runMLFQ
  | kill (pid : Int)
  deriving DecidableEq

/-- The first section of a call. -/
def enter (k : Kernel) (cur : Slot) : Act → Except Stop (Next × Kernel)
  | .fork => do .ok (claimed .forkCopy (← allocproc k))
  | .threadCreate => do .ok (claimed .createPid (← allocproc k))
  | .threadExit retval => do .ok (.ended, ← threadExit k cur retval)
  | .threadJoin thread => do .ok (returned (← joinPass k cur thread false))
  | .exit => do .ok (reaped (← exitStart k cur))
  | .wait => do .ok (returned (← waitPass k cur))
  | .exec program =>
    if k.killed cur then .ok (.at .user, k)
    else do .ok (.at (.execLoad program), ← sleepOtherThreads k cur)
  | .sbrk n => do .ok (.at .user, (← growproc k cur n).2)
  | .cpuShare n => do .ok (.at .user, (← cpuShare k cur n).2)
  | .runMLFQ => do .ok (.at .user, (← runMLFQ k cur).2)
  | .kill pid => do .ok (.at .user, (← kill k pid).2)

/-- `dealloc_other_threads`, by a main thread, up to `release`. -/
def endOthers (k : Kernel) (cur : Slot) : Except Stop Kernel := do
  let k ← acquire k
  let (_, k) ← reapLoop true NPROC (k.threads.next cur) false k
  .ok (release k)

/-- The next section of a call. A thread woken in `sleep` clears its channel and goes around
its loop again. -/
def goOn (k : Kernel) (cur : Slot) : Context → Except Stop (Next × Kernel)
  | .user => .ok (.at .user, k)
  | .forkCopy np => do .ok (.at .user, (← forkCopy k cur np).2)
  | .createPid np => .ok (.at (.createStack np), givePid k)
  | .createStack np => do
    match ← createPlace k cur np with
    | (false, k) => .ok (.at .user, k)
    | (true, k) => .ok (.at (.createTid np), k)
  | .createTid np => .ok (.at (.createCount np k.nexttid), k)
  | .createCount np tid => .ok (.at (.createLink np), storeTid k np tid)
  | .createLink np => do .ok (.at .user, (← createLink k cur np).2)
  | .join thread found => do .ok (returned (← joinPass (clearChan k cur) cur thread found))
  | .exitReap => do .ok (reaped (← exitReap (clearChan k cur) cur))
  | .exitTail => do .ok (.ended, ← exitTail k cur)
  | .wait => do .ok (returned (← waitPass (clearChan k cur) cur))
  | .execLoad program => do
    match ← execLoad k cur program with
    | (none, k) => .ok (.at .user, k)
    | (some oldpgdir, k) => .ok (.at (.execCommit oldpgdir), k)
  | .execCommit oldpgdir =>
    -- a worker thread leaves its group and waits for it to end
    if k.master cur ≠ none then do .ok (.at .wait, ← promote k cur)
    else do .ok (.at (.execFree oldpgdir), ← endOthers k cur)
  | .execFree oldpgdir => do .ok (.at .user, { k with mem := ← freevm k.mem oldpgdir })

/-! ### The machine -/

/-- `cpu c` is `c->proc`. -/
structure Machine where
  k : Kernel
  cpu : Nat → Option Slot

inductive Event where
  /-- the scheduler of CPU `c` looks for a thread -/
  | dispatch (c : Nat)
  /-- the thread on CPU `c` makes a call -/
  | call (c : Nat) (act : Act)
  /-- the thread on CPU `c` goes on with its call -/
  | advance (c : Nat)
  /-- timer interrupt -/
  | yield (c : Nat)
  /-- the thread on CPU `c` goes to sleep elsewhere in the kernel -/
  | block (c : Nat) (chan : Nat)
  | wakeup (chan : Nat)
  deriving DecidableEq

/-- Where the thread `p` of CPU `c` is after a section. -/
def Machine.place (s : Machine) (c : Nat) (p : Slot) : Next × Kernel → Machine
  | (.at point, k) =>
    { k := { k with context := update k.context p point }, cpu := update s.cpu c (some p) }
  | (.sleeps, k) => { k := k, cpu := update s.cpu c none }
  | (.ended, k) => { k := k, cpu := update s.cpu c none }

/-- The loops that `sleep` is called in go on with `ptable.lock` held: the switch to such a
thread and its next pass are one section. -/
def inLoop : Context → Bool
  | .join .. | .exitReap | .wait => true
  | _ => false

/-- The scheduler of CPU `c` has switched to `q`. -/
def Machine.switchTo (s : Machine) (c : Nat) (q : Slot) (k : Kernel) : Option Machine :=
  if inLoop (k.context q) then (goOn k q (k.context q)).toOption.map (s.place c q)
  else some { k := k, cpu := update s.cpu c (some q) }

/-- `yield()`. -/
def Machine.preempt (s : Machine) (c : Nat) (p : Slot) : Except Stop Machine := do
  let k ← acquire s.k
  .ok
    { k := release { k with state := update k.state p .RUNNABLE }
      cpu := update s.cpu c none }

/-- `sleep(chan, lk)` for another lock than `ptable.lock`. -/
def Machine.block (s : Machine) (c : Nat) (p : Slot) (chan : Nat) : Except Stop Machine := do
  let k ← acquire s.k
  .ok { k := sleep k p (.other chan) .user, cpu := update s.cpu c none }

/-- `wakeup(chan)`. -/
def Machine.wakeup (s : Machine) (chan : Nat) : Except Stop Machine := do
  let k ← acquire s.k
  .ok { s with k := release (wakeup1 k (some (.other chan))) }

/-- A thread that has been killed makes no call but `exit`. -/
def MayCall (k : Kernel) (p : Slot) (act : Act) : Prop :=
  k.context p = .user ∧ (act = .exit ∨ k.killed p = false)

instance (k : Kernel) (p : Slot) (act : Act) : Decidable (MayCall k p act) := by
  unfold MayCall
  infer_instance

def Machine.step (s : Machine) : Event → Option Machine
  | .dispatch c =>
    match s.cpu c with
    | some _ => none
    | none =>
      match schedule s.k with
      | .error _ => none
      | .ok (none, k) => some { s with k := k }
      | .ok (some q, k) => s.switchTo c q k
  | .call c act =>
    (s.cpu c).bind fun p =>
      if MayCall s.k p act then (enter s.k p act).toOption.map (s.place c p) else none
  | .advance c =>
    (s.cpu c).bind fun p =>
      if s.k.context p = .user then none
      else (goOn s.k p (s.k.context p)).toOption.map (s.place c p)
  | .yield c => (s.cpu c).bind fun p => (s.preempt c p).toOption
  | .block c chan =>
    (s.cpu c).bind fun p => if s.k.context p = .user then (s.block c p chan).toOption else none
  | .wakeup chan => (s.wakeup chan).toOption

/-- The kernel as `userinit` leaves it, with all CPUs in their schedulers. -/
def smp : System Machine Event where
  init s := (∃ free, userinit free = .ok s.k) ∧ s.cpu = fun _ => none
  step s := s.step

theorem smp_of_run (ok : Machine → Event → Prop) [∀ s e, Decidable (ok s e)] (free : List Nat)
    (events : List Event) {P : Machine → Bool}
    (ran : ((userinit free).toOption.bind fun k =>
      smp.exec ok events { k, cpu := fun _ => none }).any P = true) :
    ∃ s, smp.Reach ok s ∧ P s = true := by
  cases booted : userinit free with
  | error why => simp [booted, Except.toOption] at ran
  | ok k =>
    simp only [booted, Except.toOption, Option.bind_some] at ran
    exact System.Reach.of_exec (S := smp) ok events ⟨⟨free, booted⟩, rfl⟩ ran

end Xv6.Smp
