import Mathlib.Logic.Function.Basic
import Xv6.Lib.Bytes
import Xv6.Lib.Fifo
import Xv6.Lib.System

/-!
# Pipes: `pipe.c`

One pipe and any number of processes, each somewhere in `pipewrite`, `piperead` or `pipeclose`. A process
that wants `p->lock` takes no step until it is free. Each of `sleep`, `wakeup` and `kill` is one step, and
everything between them is cut at every turn of a loop, so that a `kill` can fall anywhere. The byte a
writer finds in user memory comes with the step, and the byte a reader stores is reported by it.
-/

namespace Xv6.Pipes

open Function (update)

open Bytes (Byte)

abbrev PIPESIZE : Nat := 512

instance : NeZero PIPESIZE := ⟨by decide⟩

/-- `struct pipe` without its lock. -/
structure Pipe where
  ring : Fifo Byte 32 PIPESIZE
  readopen : Bool
  writeopen : Bool

namespace Pipe

/-- The test of `piperead`. -/
abbrev Empty (p : Pipe) : Prop := p.ring.nread = p.ring.nwrite

/-- The test of `pipewrite`. -/
abbrev Full (p : Pipe) : Prop := p.ring.nwrite = p.ring.nread + BitVec.ofNat 32 PIPESIZE

/-- What `pipealloc` makes of a page of memory. -/
def alloc (data : Fin PIPESIZE → Byte) : Pipe :=
  { ring := { data, nread := 0, nwrite := 0 }, readopen := true, writeopen := true }

/-- `p->writeopen = 0` or `p->readopen = 0`. -/
def shut (p : Pipe) : Bool → Pipe
  | true => { p with writeopen := false }
  | false => { p with readopen := false }

end Pipe

/-- The addresses that processes sleep on. -/
inductive Chan where
  | nread
  | nwrite
deriving DecidableEq, Repr

/-- Where a process stands. Between `acquire` and `release` it holds `p->lock`. -/
inductive Point where
  | out
  /-- before `acquire` in `pipewrite` -/
  | write (n : Nat)
  /-- at the head of both loops, `i` bytes written -/
  | writeLoop (n i : Nat)
  /-- before `wakeup(&p->nread)` in the inner loop -/
  | writeFull (n i : Nat)
  | writeSleep (n i : Nat)
  /-- in `sleep`, before `acquire(lk)` -/
  | writeWait (n i : Nat)
  /-- before the last `wakeup(&p->nread)` -/
  | writeDone (n : Nat)
  /-- before `acquire` in `piperead` -/
  | read (n : Nat)
  | readTest (n : Nat)
  | readSleep (n : Nat)
  /-- in `sleep`, before `acquire(lk)` -/
  | readWait (n : Nat)
  | readCopy (n i : Nat)
  /-- before `wakeup(&p->nwrite)` -/
  | readDone (i : Nat)
  /-- before `acquire` in `pipeclose` -/
  | close (writable : Bool)
  | closeOpen (writable : Bool)
  | closeWake (writable : Bool)
  | closeLast
  /-- between `release` and `kfree` in `pipeclose` -/
  | closeFree
  /-- before `release`, to return `r` -/
  | leave (r : Int)
deriving DecidableEq, Repr

/-- The calls. -/
inductive Op where
  | pipewrite (n : Nat)
  | piperead (n : Nat)
  | pipeclose (writable : Bool)
deriving DecidableEq, Repr

def Op.entry : Op → Point
  | pipewrite n => .write n
  | piperead n => .read n
  | pipeclose writable => .close writable

/-- What a step moves between user memory and the ring. -/
inductive Moved where
  | nothing
  | deposited (b : Byte)
  | delivered (b : Byte)
deriving DecidableEq, Repr

/-- The pipe and its users. `asleep q` is the channel that `q` is `SLEEPING` on, if it is one of
the pipe's; `returned q` is what the last call of `q` returned, 0 for `pipeclose`. -/
structure Machine (P : Type) where
  pipe : Pipe
  lock : Option P
  asleep : P → Option Chan
  killed : P → Bool
  point : P → Point
  returned : P → Option Int
  freed : Bool

inductive Event (P : Type) where
  | call (q : P) (op : Op)
  /-- the next step of `q`; `b` is the byte at `addr[i]` -/
  | go (q : P) (b : Byte)
  | kill (q : P)
deriving DecidableEq, Repr

variable {P : Type} [DecidableEq P]

namespace Machine

variable (s : Machine P) (q : P)

/-- Go on at `p`. -/
def goto (p : Point) : Machine P := { s with point := update s.point q p }

/-- `acquire(&p->lock)`, which a process still in `sleep` comes to only after it is woken. -/
def acquire (p : Point) : Option (Machine P) :=
  if s.lock = none ∧ s.asleep q = none then some { s.goto q p with lock := some q } else none

/-- `release(&p->lock)` at the end of a call. -/
def release (r : Int) : Machine P :=
  { s.goto q .out with lock := none, returned := update s.returned q (some r) }

/-- `sleep(c, &p->lock)` up to `sched`. -/
def sleep (c : Chan) (p : Point) : Machine P :=
  { s.goto q p with lock := none, asleep := update s.asleep q (some c) }

def wakeup (c : Chan) : Machine P :=
  { s with asleep := fun r => if s.asleep r = some c then none else s.asleep r }

/-- `kill`, after it has found the process. -/
def kill : Machine P :=
  { s with killed := update s.killed q true, asleep := update s.asleep q none }

/-- The next step of process `q`, with the byte it moves; `none` if it has to wait. -/
def go (b : Byte) : Option (Machine P × Moved) :=
  match s.point q with
  | .out => none
  | .write n => (s.acquire q (.writeLoop n 0)).map (·, .nothing)
  | .writeLoop n i =>
    if i < n then
      if s.pipe.Full then
        if s.pipe.readopen = false ∨ s.killed q then
          some (s.goto q (.leave (-1)), .nothing)
        else
          some (s.goto q (.writeFull n i), .nothing)
      else
        some ({ s.goto q (.writeLoop n (i + 1)) with pipe := { s.pipe with ring := s.pipe.ring.push b } }, .deposited b)
    else
      some (s.goto q (.writeDone n), .nothing)
  | .writeFull n i => some ((s.wakeup .nread).goto q (.writeSleep n i), .nothing)
  | .writeSleep n i => some (s.sleep q .nwrite (.writeWait n i), .nothing)
  | .writeWait n i => (s.acquire q (.writeLoop n i)).map (·, .nothing)
  | .writeDone n => some ((s.wakeup .nread).goto q (.leave n), .nothing)
  | .read n => (s.acquire q (.readTest n)).map (·, .nothing)
  | .readTest n =>
    if s.pipe.Empty ∧ s.pipe.writeopen then
      if s.killed q then
        some (s.goto q (.leave (-1)), .nothing)
      else
        some (s.goto q (.readSleep n), .nothing)
    else
      some (s.goto q (.readCopy n 0), .nothing)
  | .readSleep n => some (s.sleep q .nread (.readWait n), .nothing)
  | .readWait n => (s.acquire q (.readTest n)).map (·, .nothing)
  | .readCopy n i =>
    if i < n ∧ ¬s.pipe.Empty then
      some ({ s.goto q (.readCopy n (i + 1)) with pipe := { s.pipe with ring := s.pipe.ring.pop } },
        .delivered s.pipe.ring.front)
    else
      some (s.goto q (.readDone i), .nothing)
  | .readDone i => some ((s.wakeup .nwrite).goto q (.leave i), .nothing)
  | .close writable => (s.acquire q (.closeOpen writable)).map (·, .nothing)
  | .closeOpen writable =>
    some ({ s.goto q (.closeWake writable) with pipe := s.pipe.shut writable }, .nothing)
  | .closeWake writable =>
    some ((s.wakeup (if writable then .nread else .nwrite)).goto q .closeLast, .nothing)
  | .closeLast =>
    if s.pipe.readopen = false ∧ s.pipe.writeopen = false then
      some ({ s.goto q .closeFree with lock := none }, .nothing)
    else
      some (s.release q 0, .nothing)
  | .closeFree => some ({ s.goto q .out with freed := true, returned := update s.returned q (some 0) }, .nothing)
  | .leave r => some (s.release q r, .nothing)

/-- One step of the system. Nothing happens to a pipe once its page is given back. -/
def step (s : Machine P) : Event P → Option (Machine P × Moved)
  | .call q op => if s.freed = false ∧ s.point q = .out then some (s.goto q op.entry, .nothing) else none
  | .go q b => if s.freed = false then s.go q b else none
  | .kill q => some (s.kill q, .nothing)

/-- A pipe that `pipealloc` has just made. -/
def Fresh (s : Machine P) : Prop :=
  (∃ data, s.pipe = .alloc data) ∧ s.lock = none ∧ (∀ q, s.asleep q = none) ∧ (∀ q, s.point q = .out) ∧ s.freed = false

end Machine

/-- The pipe that `pipealloc` makes of a page of zeros. -/
def newPipe (P : Type) : Machine P where
  pipe := .alloc fun _ => 0
  lock := none
  asleep := fun _ => none
  killed := fun _ => false
  point := fun _ => .out
  returned := fun _ => none
  freed := false

omit [DecidableEq P] in
theorem newPipe_fresh : (newPipe P).Fresh := ⟨⟨_, rfl⟩, rfl, fun _ => rfl, fun _ => rfl, rfl⟩

/-- The pipe as a transition system. -/
def pipe (P : Type) [DecidableEq P] : System (Machine P) (Event P) where
  init := Machine.Fresh
  step s e := (s.step e).map Prod.fst

/-! ### What a step does -/

namespace Point

/-- Where a process that waits for `p->lock` goes on. -/
def entry : Point → Option Point
  | write n => some (.writeLoop n 0)
  | writeWait n i => some (.writeLoop n i)
  | read n => some (.readTest n)
  | readWait n => some (.readTest n)
  | close writable => some (.closeOpen writable)
  | _ => none

/-- `p->lock` is held. -/
def inside : Point → Bool
  | writeLoop .. | writeFull .. | writeSleep .. | writeDone _ | readTest _ | readSleep _ | readCopy .. | readDone _ |
    closeOpen _ | closeWake _ | closeLast | leave _ => true
  | _ => false

/-- The `wakeup` that a process is about to call, and where it goes on. -/
def wakes : Point → Option (Chan × Point)
  | writeFull n i => some (.nread, .writeSleep n i)
  | writeDone n => some (.nread, .leave n)
  | readDone i => some (.nwrite, .leave i)
  | closeWake writable => some (if writable then .nread else .nwrite, .closeLast)
  | _ => none

/-- The `sleep` that a process is about to call, and where it goes on. -/
def sleeps : Point → Option (Chan × Point)
  | writeSleep n i => some (.nwrite, .writeWait n i)
  | readSleep n => some (.nread, .readWait n)
  | _ => none

end Point

/-- The tests under `p->lock`: process `q` goes on at the point given, nothing else changes. -/
inductive Branch (s : Machine P) (q : P) : Point → Prop where
  | abandon {n i} : s.point q = .writeLoop n i → i < n → s.pipe.Full →
      s.pipe.readopen = false ∨ s.killed q = true → Branch s q (.leave (-1))
  | full {n i} : s.point q = .writeLoop n i → s.pipe.Full → s.pipe.readopen = true → Branch s q (.writeFull n i)
  | written {n i} : s.point q = .writeLoop n i → Branch s q (.writeDone n)
  | abort {n} : s.point q = .readTest n → Branch s q (.leave (-1))
  | empty {n} : s.point q = .readTest n → s.pipe.Empty → s.pipe.writeopen = true → Branch s q (.readSleep n)
  | copy {n} : s.point q = .readTest n → Branch s q (.readCopy n 0)
  | copied {n i} : s.point q = .readCopy n i → Branch s q (.readDone i)

/-- Every step of a process. -/
inductive Went (s : Machine P) (q : P) (b : Byte) : Machine P → Moved → Prop where
  | acquired {p} : (s.point q).entry = some p → s.lock = none → s.asleep q = none →
      Went s q b { s.goto q p with lock := some q } .nothing
  | branched {p} : Branch s q p → Went s q b (s.goto q p) .nothing
  | deposited {n i} : s.point q = .writeLoop n i → ¬s.pipe.Full →
      Went s q b { s.goto q (.writeLoop n (i + 1)) with pipe := { s.pipe with ring := s.pipe.ring.push b } }
        (.deposited b)
  | delivered {n i} : s.point q = .readCopy n i → ¬s.pipe.Empty →
      Went s q b { s.goto q (.readCopy n (i + 1)) with pipe := { s.pipe with ring := s.pipe.ring.pop } }
        (.delivered s.pipe.ring.front)
  | woke {c p} : (s.point q).wakes = some (c, p) → Went s q b ((s.wakeup c).goto q p) .nothing
  | slept {c p} : (s.point q).sleeps = some (c, p) → Went s q b (s.sleep q c p) .nothing
  | shut {writable} : s.point q = .closeOpen writable →
      Went s q b { s.goto q (.closeWake writable) with pipe := s.pipe.shut writable } .nothing
  | last : s.point q = .closeLast → Went s q b { s.goto q .closeFree with lock := none } .nothing
  | freed : s.point q = .closeFree →
      Went s q b { s.goto q .out with freed := true, returned := update s.returned q (some 0) } .nothing
  | left {r} : s.point q = .closeLast ∨ s.point q = .leave r → Went s q b (s.release q r) .nothing

/-- Every step of the system. -/
inductive Stepped (s : Machine P) : Event P → Machine P → Moved → Prop where
  | call {q} {op : Op} : s.point q = .out → Stepped s (.call q op) (s.goto q op.entry) .nothing
  | go {q t m} {b : Byte} : Went s q b t m → Stepped s (.go q b) t m
  | kill (q : P) : Stepped s (.kill q) (s.kill q) .nothing

variable {s t : Machine P} {q : P} {b : Byte} {m : Moved}

theorem acquired_of_map {p : Point} (entry : (s.point q).entry = some p)
    (went : (s.acquire q p).map (·, Moved.nothing) = some (t, m)) : Went s q b t m := by
  obtain ⟨u, locked, same⟩ := Option.map_eq_some_iff.mp went
  cases same
  rw [Machine.acquire] at locked
  split at locked
  next ready =>
    cases locked
    exact .acquired entry ready.1 ready.2
  · cases locked

theorem went_of_go (went : s.go q b = some (t, m)) : Went s q b t m := by
  unfold Machine.go at went
  cases at_point : s.point q <;> simp only [at_point] at went
  case out => cases went
  case write | writeWait | read | readWait | close => exact acquired_of_map (by rw [at_point]; rfl) went
  case writeFull | writeDone | readDone | closeWake =>
    cases went
    exact .woke (by rw [at_point]; rfl)
  case writeSleep | readSleep =>
    cases went
    exact .slept (by rw [at_point]; rfl)
  case writeLoop n i =>
    split at went
    next more =>
      split at went
      next full =>
        split at went
        next quit =>
          cases went
          exact .branched (.abandon at_point more full quit)
        next stay =>
          cases went
          have isOpen : s.pipe.readopen = true := by
            rw [← Bool.not_eq_false]
            exact fun shut => stay (.inl shut)
          exact .branched (.full at_point full isOpen)
      next room =>
        cases went
        exact .deposited at_point room
    · cases went
      exact .branched (.written at_point)
  case readTest n =>
    split at went
    next nothing =>
      split at went
      · cases went
        exact .branched (.abort at_point)
      · cases went
        exact .branched (.empty at_point nothing.1 nothing.2)
    · cases went
      exact .branched (.copy at_point)
  case readCopy n i =>
    split at went
    next more =>
      cases went
      exact .delivered at_point more.2
    · cases went
      exact .branched (.copied at_point)
  case closeOpen writable =>
    cases went
    exact .shut at_point
  case closeLast =>
    split at went
    · cases went
      exact .last at_point
    · cases went
      exact .left (.inl at_point)
  case closeFree =>
    cases went
    exact .freed at_point
  case leave r =>
    cases went
    exact .left (.inr at_point)

theorem stepped_of_step {e : Event P} (stepped : s.step e = some (t, m)) : Stepped s e t m := by
  cases e with
  | call q op =>
    simp only [Machine.step] at stepped
    split at stepped
    next idle =>
      cases stepped
      exact .call idle.2
    · cases stepped
  | go q b =>
    simp only [Machine.step] at stepped
    split at stepped
    · exact .go (went_of_go stepped)
    · cases stepped
  | kill q =>
    cases stepped
    exact .kill q

end Xv6.Pipes
