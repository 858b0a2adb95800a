import Xv6.Proc.Sched

/-!
# Processes and threads

The process system calls of `proc.c` and the process part of `exec.c`, cut where the code
gives up `ptable.lock`: each function here is one section that no other section interrupts.
A call that goes to sleep leaves its `context` behind; `Outcome` tells whether it has
returned.
-/

namespace Xv6.Proc

open Function (update)
open Vm

/-- A call has returned a value, or has gone to sleep. -/
inductive Outcome where
  | returns (value : Int)
  | sleeps

/-! ### `growproc` -/

/-- The pages of `growproc`: 0 means failure, for `n ≠ 0`. -/
def resize (m : Memory) (pgdir sz : Nat) (n : Int) : Except Stop (Nat × Memory) :=
  if n > 0 then allocuvm m pgdir sz (uint32 (sz + n))
  else if n < 0 then deallocuvm m pgdir sz (uint32 (sz + n))
  else .ok (sz, m)

/-- `curproc->sz = sz; if(curproc->master) master->sz = sz;`. -/
def setSize (k : Kernel) (cur master : Slot) (sz : Nat) : Kernel :=
  let k := { k with sz := update k.sz cur sz }
  if k.master cur ≠ none then { k with sz := update k.sz master sz } else k

/-- `growproc(n)`; it fails without giving back `memlock`. -/
def growproc (k : Kernel) (cur : Slot) (n : Int) : Except Stop (Int × Kernel) := do
  let k ← acquireMem k
  let master ← getHighestMaster k cur
  let (sz, mem) ← resize k.mem (k.pgdir cur) (k.sz master) n
  let k := { k with mem := mem }
  if n ≠ 0 ∧ sz = 0 then .ok (-1, k) else .ok (wrap32 sz, releaseMem (setSize k cur master sz))

/-! ### `fork` -/

/-- `fork` brings `sz` up to date and copies the list of empty stacks. -/
def inheritStacks (k : Kernel) (cur np hmaster : Slot) : Kernel :=
  { k with
    sz := update k.sz cur (k.sz hmaster)
    emptystacks := update k.emptystacks np fun i =>
      if i < k.emptystackcnt hmaster then k.emptystacks hmaster i else k.emptystacks np i
    emptystackcnt := update k.emptystackcnt np (k.emptystackcnt hmaster) }

/-- `fork` without memory for the copy. -/
def dropChild (k : Kernel) (np : Slot) : Kernel :=
  { k with
    mem := kfree k.mem (k.kstack np)
    kstack := update k.kstack np 0
    state := update k.state np .UNUSED }

/-- The last assignments of `fork`. -/
def startChild (k : Kernel) (cur np : Slot) : Kernel :=
  { k with
    sz := update k.sz np (k.sz cur)
    parent := update k.parent np (some cur)
    state := update k.state np .RUNNABLE
    context := update k.context np .user
    turn := update k.turn np (some np)
    schedmode := update k.schedmode np .default
    pathlevel := update k.pathlevel np (getminpathlevel k)
    tid := update k.tid np 0
    threads := (k.threads.setPrev (some np) none).setNext (some np) none }

/-- `fork` after `allocproc`. When the copy fails it keeps `ptable.lock`. -/
def forkCopy (k : Kernel) (cur np : Slot) : Except Stop (Int × Kernel) := do
  let k ← acquire k
  let hmaster ← getHighestMaster k cur
  let k := inheritStacks k cur np hmaster
  let (pgdir, mem) ← copyuvm2 k.mem (k.pgdir cur) (k.sz cur)
  let k := { k with mem := mem, pgdir := update k.pgdir np pgdir }
  if pgdir = 0 then .ok (-1, dropChild k np) else .ok (k.pid np, release (startChild k cur np))

/-! ### `thread_create` -/

/-- The address from which `thread_create` takes two pages: a recycled stack if there is one,
else the end of memory. -/
def takeStack (k : Kernel) (cur hmaster : Slot) : Nat × Kernel :=
  if k.emptystackcnt hmaster > 0 then
    (k.emptystacks hmaster (k.emptystackcnt hmaster - 1),
      { k with emptystackcnt := update k.emptystackcnt hmaster (k.emptystackcnt hmaster - 1) })
  else (k.sz cur, k)

/-- `thread_create` with a stack that ends at `sz`: memory may have grown, and the slot gets
its master, stack, pid and tid. -/
def setThread (k : Kernel) (cur np hmaster : Slot) (sz : Nat) : Kernel :=
  let k := if k.sz cur < sz then { k with sz := update (update k.sz cur sz) hmaster sz } else k
  { k with
    pgdir := update k.pgdir np (k.pgdir cur)
    master := update k.master np (some cur)
    sz := update k.sz np sz
    originalbase := update k.originalbase np (uint32 (sz - 2 * PGSIZE))
    pid := update k.pid np (k.pid cur)
    tid := update k.tid np k.nexttid
    nexttid := uint32 (k.nexttid + 1) }

/-- `thread_create` after `allocproc` up to the list insertion; `false` goes to `bad`, with
`memlock` held. -/
def createStack (k : Kernel) (cur np : Slot) : Except Stop (Bool × Kernel) := do
  let k := { k with nextpid := k.nextpid - 1 }
  let hmaster ← getHighestMaster k cur
  let k ← acquireMem k
  let (base, k) := takeStack { k with sz := update k.sz cur (k.sz hmaster) } cur hmaster
  let (sz, mem) ← allocuvm k.mem (k.pgdir cur) base (uint32 (base + 2 * PGSIZE))
  if sz = 0 then .ok (false, { k with mem := mem })
  else do
    let mem ← clearpteu mem (k.pgdir cur) (uint32 (sz - 2 * PGSIZE))
    .ok (true, releaseMem (setThread { k with mem := mem } cur np hmaster sz))

/-- `thread_create` puts the new thread behind its creator and makes it ready. -/
def joinGroup (k : Kernel) (cur np : Slot) : Kernel :=
  { k with
    threads := k.threads.insertAfter cur np
    state := update k.state np .RUNNABLE
    context := update k.context np .user
    schedmode := update k.schedmode np (k.schedmode cur) }

/-- A new thread of an MLFQ process is put in the queue. -/
def queueThread (k : Kernel) (np : Slot) : Except Stop Kernel :=
  if k.schedmode np = .mlfq then enqueue k np else .ok k

/-- The end of `thread_create`. -/
def createLink (k : Kernel) (cur np : Slot) : Except Stop (Int × Kernel) := do
  let k ← acquire k
  let k ← queueThread (joinGroup k cur np) np
  .ok (0,
    release
      { k with
        pathlevel := update k.pathlevel np (getminpathlevel k)
        retval := update k.retval np 0 })

/-! ### Reclaiming threads -/

/-- `hmaster->emptystacks[hmaster->emptystackcnt++] = base` or `hmaster->sz -= 2 * PGSIZE`. -/
def giveBackStack (k : Kernel) (hmaster : Slot) (base : Nat) : Except Stop Kernel :=
  if uint32 (base + 2 * PGSIZE) < k.sz hmaster then
    if k.emptystackcnt hmaster < NPROC then
      .ok
        { k with
          emptystacks :=
            update k.emptystacks hmaster
              (update (k.emptystacks hmaster) (k.emptystackcnt hmaster) base)
          emptystackcnt := update k.emptystackcnt hmaster (k.emptystackcnt hmaster + 1) }
    else .error .bounds
  else .ok { k with sz := update k.sz hmaster (uint32 (k.sz hmaster - 2 * PGSIZE)) }

/-- The fields `dealloc_thread` clears. -/
def clearThread (k : Kernel) (worker : Slot) : Kernel :=
  { k with
    kstack := update k.kstack worker 0
    pid := update k.pid worker 0
    parent := update k.parent worker none
    master := update k.master worker none
    killed := update k.killed worker false
    state := update k.state worker .UNUSED
    emptystackcnt := update k.emptystackcnt worker 0
    turn := update k.turn worker none
    tid := update k.tid worker 0
    mnode := update k.mnode worker none
    fixedshare := update k.fixedshare worker 0 }

def deallocThread (k : Kernel) (worker : Slot) : Except Stop (Int × Kernel) :=
  if k.master worker = none then .ok (-1, k)
  else do
    let hmaster ← getHighestMaster k worker
    let base := k.originalbase worker
    let (_, mem) ←
      deallocuvm (kfree k.mem (k.kstack worker)) (k.pgdir worker) (uint32 (base + 2 * PGSIZE)) base
    let k ← acquireMem { clearThread k worker with mem := mem }
    let k ← giveBackStack k hmaster base
    let k := releaseMem { k with originalbase := update k.originalbase worker 0 }
    .ok (0, { k with threads := k.threads.unlink worker })

/-- `p->killed = 1`, and out of sleep. -/
def killThread (k : Kernel) (p : Slot) : Kernel :=
  { k with
    killed := update k.killed p true
    state := if k.state p = .SLEEPING then update k.state p .RUNNABLE else k.state }

/-- `kill(pid)`: the first slot with that pid, in whatever state, stands for its group. -/
def kill (k : Kernel) (pid : Int) : Except Stop (Int × Kernel) := do
  let k ← acquire k
  match (List.finRange NPROC).find? fun p => k.pid p = pid with
  | none => .ok (-1, release k)
  | some p => do
    let hmaster ← getHighestMaster k p
    .ok (0, release (killThread k hmaster))

/-- The loop over the thread list, from `q` on, of `exit` and of `dealloc_other_threads`,
which makes every thread a zombie first. The flag is `found`. -/
def reapLoop (force : Bool) : Nat → Option Slot → Bool → Kernel → Except Stop (Bool × Kernel)
  | _, none, found, k => .ok (found, k)
  | 0, some _, _, _ => .error .loop
  | rounds + 1, some p, found, k => do
    let k := if force then { k with state := update k.state p .ZOMBIE } else k
    if k.state p = .ZOMBIE then do
      let (_, k) ← deallocThread k p
      reapLoop force rounds (k.threads.next p) found k
    else reapLoop force rounds (k.threads.next p) true (killThread k p)

/-! ### `thread_exit` and `thread_join` -/

/-- `thread_exit(retval)`, once the files are closed. -/
def threadExit (k : Kernel) (cur : Slot) (retval : Nat) : Except Stop Kernel := do
  let k ← acquire { k with retval := update k.retval cur retval }
  let k := wakeup1 k ((k.master cur).map .proc)
  let k := wakeup1 k ((k.parent cur).map .proc)
  .ok (release { k with state := update k.state cur .ZOMBIE })

/-- What one pass of `thread_join` finds in the thread list, from `q` on: the exited thread,
or the flag `found`. -/
def joinLoop (k : Kernel) (tid : Nat) : Nat → Option Slot → Bool → Except Stop (Option Slot × Bool)
  | _, none, found => .ok (none, found)
  | 0, some _, _ => .error .loop
  | rounds + 1, some p, found =>
    if k.tid p = tid then
      if k.state p = .ZOMBIE then .ok (some p, true)
      else joinLoop k tid rounds (k.threads.next p) true
    else joinLoop k tid rounds (k.threads.next p) found

/-- One pass of `thread_join(thread, &retval)`. -/
def joinPass (k : Kernel) (cur : Slot) (thread : Nat) (found : Bool) :
    Except Stop (Outcome × Kernel) := do
  let k ← acquire k
  match ← joinLoop k thread NPROC (k.threads.next cur) found with
  | (some p, _) => do
    let (_, k) ← deallocThread k p
    .ok (.returns 0, release { k with retval := update k.retval p 0 })
  | (none, found) =>
    if found = false ∨ k.killed cur then .ok (.returns (-1), release k)
    else .ok (.sleeps, sleep k cur (.proc cur) (.join thread found))

/-! ### `exit` and `wait` -/

/-- One pass of the loop of `exit`: with worker threads left it sleeps, else it goes on. -/
def exitReap (k : Kernel) (cur : Slot) : Except Stop (Outcome × Kernel) := do
  let k ← acquire k
  let (found, k) ← reapLoop false NPROC (k.threads.next cur) false k
  if found then .ok (.sleeps, sleep k cur (.proc cur) .exitReap)
  else .ok (.returns 0, release k)

/-- The first part of `exit`. -/
def exitStart (k : Kernel) (cur : Slot) : Except Stop (Outcome × Kernel) :=
  if cur = k.initproc then .error (.panic .initExiting)
  else if k.master cur ≠ none then do
    let k ← acquire k
    .ok (.returns 0, release k)
  else exitReap k cur

/-- `exit`: the parent might be sleeping in `wait`. -/
def wakeParent (k : Kernel) (cur : Slot) : Kernel :=
  match k.parent cur with
  | none => k
  | some parent => wakeup1 k (some (.proc parent))

/-- `exit` by a worker thread takes the whole group down. -/
def wakeMaster (k : Kernel) (cur : Slot) : Except Stop Kernel :=
  if k.master cur = none then .ok k
  else do
    let hmaster ← getHighestMaster k cur
    let k := if k.killed cur then k else { k with killed := update k.killed hmaster true }
    .ok (wakeup1 k (some (.proc hmaster)))

/-- Pass abandoned children to init. -/
def reparent (k : Kernel) (cur : Slot) : Kernel :=
  let orphan p := k.parent p = some cur
  let k' :=
    if ∃ p, orphan p ∧ k.state p = .ZOMBIE then wakeup1 k (some (.proc k.initproc)) else k
  { k' with parent := fun p => if k.parent p = some cur then some k.initproc else k.parent p }

/-- The second part of `exit`, once the files are closed. -/
def exitTail (k : Kernel) (cur : Slot) : Except Stop Kernel := do
  let k ← acquire k
  let k ← wakeMaster (wakeParent k cur) cur
  let k := reparent k cur
  .ok (release { k with state := update k.state cur .ZOMBIE })

/-- The first exited child. -/
def zombieChild (k : Kernel) (cur : Slot) : Option Slot :=
  (List.finRange NPROC).find? fun p => k.parent p = some cur ∧ k.state p = .ZOMBIE

/-- One pass of `wait()`. -/
def waitPass (k : Kernel) (cur : Slot) : Except Stop (Outcome × Kernel) := do
  let k ← acquire k
  match zombieChild k cur with
  | some p => do
    let mem ← freevm (kfree k.mem (k.kstack p)) (k.pgdir p)
    .ok (.returns (k.pid p),
      release
        { k with
          mem := mem
          kstack := update k.kstack p 0
          pid := update k.pid p 0
          parent := update k.parent p none
          killed := update k.killed p false
          state := update k.state p .UNUSED
          emptystackcnt := update k.emptystackcnt p 0 })
  | none =>
    if (∀ p, k.parent p ≠ some cur) ∨ k.killed cur then .ok (.returns (-1), release k)
    else .ok (.sleeps, sleep k cur (.proc cur) .wait)

/-! ### `exec` -/

/-- The loop of `sleep_other_threads`, from `q` on. -/
def sleepLoop (self : Slot) : Nat → Option Slot → Kernel → Except Stop Kernel
  | _, none, k => .ok k
  | 0, some _, _ => .error .loop
  | rounds + 1, some p, k =>
    sleepLoop self rounds (k.threads.next p)
      (if p ≠ self ∧ k.state p = .RUNNABLE then { k with state := update k.state p .SLEEPING } else k)

def sleepOtherThreads (k : Kernel) (self : Slot) : Except Stop Kernel := do
  let k ← acquire k
  let p ← getHighestMaster k self
  let k ← sleepLoop self NPROC (some p) k
  .ok (release k)

/-- `sz = allocuvm(pgdir, sz, ph.vaddr + ph.memsz)` for each segment; 0 goes to `bad`. -/
def loadSegments (pgdir : Nat) : List Nat → Nat → Memory → Except Stop (Option Nat × Memory)
  | [], sz, m => .ok (some sz, m)
  | last :: rest, sz, m => do
    let (sz, m) ← allocuvm m pgdir sz last
    if sz = 0 then .ok (none, m) else loadSegments pgdir rest sz m

/-- `exec` from the program file to the commit; `none` is the return value -1, else the old
page directory. -/
def execLoad (k : Kernel) (cur : Slot) (program : Option Program) :
    Except Stop (Option Nat × Kernel) :=
  match program with
  | none => .ok (none, k)
  | some program => do
    let (pgdir, mem) ← setupkvm k.mem
    if pgdir = 0 then .ok (none, { k with mem := mem })
    else do
      let (loaded, mem) ← loadSegments pgdir program.segments 0 mem
      match loaded with
      | none => do
        let mem ← freevm mem pgdir
        .ok (none, { k with mem := mem })
      | some sz => do
        let base := PGROUNDUP sz
        let k := { k with originalbase := update k.originalbase cur base }
        let (sz, mem) ← allocuvm mem pgdir base (uint32 (base + 2 * PGSIZE))
        if sz = 0 then do
          let mem ← freevm mem pgdir
          .ok (none, { k with mem := mem })
        else do
          let mem ← clearpteu mem pgdir (uint32 (sz - 2 * PGSIZE))
          if program.argsFit then
            .ok (some (k.pgdir cur),
              { k with mem := mem, pgdir := update k.pgdir cur pgdir, sz := update k.sz cur sz })
          else do
            let mem ← freevm mem pgdir
            .ok (none, { k with mem := mem })

/-- A worker thread leaves its group and becomes the parent of the old main thread: the
first branch of `dealloc_other_threads`. -/
def promote (k : Kernel) (worker : Slot) : Except Stop Kernel := do
  let k ← acquire k
  let p ← getHighestMaster k worker
  let k :=
    { k with
      parent := update (update k.parent worker (k.parent p)) p (some worker)
      threads := k.threads.remove worker
      master := update k.master worker none }
  .ok (release (killThread k p))

/-- `dealloc_other_threads(curproc)` and the end of `exec`. -/
def execCommit (k : Kernel) (cur : Slot) (oldpgdir : Nat) : Except Stop (Outcome × Kernel) :=
  if k.master cur ≠ none then do
    let k ← promote k cur
    let (outcome, k) ← waitPass k cur
    .ok (match outcome with | .returns _ => .returns 0 | .sleeps => .sleeps, k)
  else do
    let k ← acquire k
    let (_, k) ← reapLoop true NPROC (k.threads.next cur) false k
    let mem ← freevm k.mem oldpgdir
    .ok (.returns 0, release { k with mem := mem })

end Xv6.Proc
