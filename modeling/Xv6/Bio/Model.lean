import Mathlib.Data.List.FinRange
import Xv6.Lib.Ring
import Xv6.Lib.System
import Xv6.Param

/-!
# The buffer cache with its pointers: `bio.c`

The buffers of `bcache` field by field and the ring through `next` and `prev`, with any number of
processes. A step is one section under `bcache.lock`, the taking or giving back of a buffer's sleep lock,
or the interrupt that ends a disk transfer. `β` is what a block may contain.
-/

namespace Xv6.Bio

open Function (update)

instance : NeZero NBUF := ⟨by decide⟩

/-- `struct buf`; `valid` and `dirty` are the flags `B_VALID` and `B_DIRTY`. -/
structure Buffer (β : Type) where
  valid : Bool
  dirty : Bool
  dev : Nat
  blockno : Nat
  locked : Bool
  refcnt : Nat
  data : β

/-- `bcache`, with `head` as the head of the ring. -/
structure Bcache (β : Type) where
  buf : Fin NBUF → Buffer β
  ring : RingLinks (Fin NBUF)

variable {β : Type}

namespace Bcache

/-- Assign to the fields of buffer `i`. -/
def set (c : Bcache β) (i : Fin NBUF) (b : Buffer β) : Bcache β := { c with buf := update c.buf i b }

def binit (c : Bcache β) : Bcache β :=
  { c with ring := (List.finRange NBUF).foldl RingLinks.insertFront c.ring.clear }

/-- The first loop of `bget`. -/
def lookup (c : Bcache β) (dev blockno : Nat) : Option (Option (Fin NBUF)) :=
  RingLinks.search c.ring.next (fun i => (c.buf i).dev = dev ∧ (c.buf i).blockno = blockno) NBUF (c.ring.next none)

/-- The second loop of `bget`. -/
def victim (c : Bcache β) : Option (Option (Fin NBUF)) :=
  RingLinks.search c.ring.prev (fun i => (c.buf i).refcnt = 0 ∧ (c.buf i).dirty = false) NBUF (c.ring.prev none)

/-- `bget` up to `acquiresleep`; `none` is the panic "bget: no buffers", or a ring that does
not close. -/
def bget (c : Bcache β) (dev blockno : Nat) : Option (Fin NBUF × Bcache β) :=
  match c.lookup dev blockno with
  | none => none
  | some (some i) => some (i, c.set i { c.buf i with refcnt := (c.buf i).refcnt + 1 })
  | some none =>
    match c.victim with
    | some (some i) =>
      some (i, c.set i { c.buf i with dev := dev, blockno := blockno, valid := false, dirty := false, refcnt := 1 })
    | _ => none

/-- The section of `brelse` under `bcache.lock`. -/
def put (c : Bcache β) (i : Fin NBUF) : Bcache β :=
  let c := c.set i { c.buf i with refcnt := (c.buf i).refcnt - 1 }
  if (c.buf i).refcnt = 0 then { c with ring := (c.ring.unlink i).insertFront i } else c

end Bcache

/-! ### Processes -/

/-- Where a process stands in the buffer code. -/
inductive Pc where
  | out
  /-- `bget`, called by `bread` or not: waits for the lock of the buffer -/
  | locking (i : Fin NBUF) (reads : Bool)
  /-- `iderw`: waits for the disk -/
  | waiting (i : Fin NBUF)
  /-- `brelse`: has given back the lock of the buffer -/
  | releasing (i : Fin NBUF)
  deriving DecidableEq

/-- The cache, the disk by device and block number, and the buffers that each process has
locked. -/
structure Users (ι β : Type) where
  cache : Bcache β
  disk : Nat → Nat → β
  pc : ι → Pc
  held : ι → List (Fin NBUF)

inductive Event (β : Type) where
  | bget (dev blockno : Nat)
  | bread (dev blockno : Nat)
  /-- `acquiresleep` in `bget`, once the lock is free -/
  | lock
  /-- the interrupt of the disk -/
  | intr
  /-- the holder of a buffer changes its contents -/
  | modify (i : Fin NBUF) (data : β)
  /-- `b->flags |= B_DIRTY` in `log_write` -/
  | pin (i : Fin NBUF)
  | bwrite (i : Fin NBUF)
  | brelse (i : Fin NBUF)
  /-- the end of `brelse` -/
  | put

namespace Users

variable {ι : Type} [DecidableEq ι]

/-- The first section of `bget`, or of `bread`. -/
def get (s : Users ι β) (p : ι) (dev blockno : Nat) (reads : Bool) : Option (Users ι β) :=
  if s.pc p = .out then
    (s.cache.bget dev blockno).map fun (i, c) => { s with cache := c, pc := update s.pc p (.locking i reads) }
  else none

/-- `bread` goes on with `iderw` when the buffer has not been read. -/
def lock (s : Users ι β) (p : ι) : Option (Users ι β) :=
  match s.pc p with
  | .locking i reads =>
    if (s.cache.buf i).locked then none
    else
      some
        { s with
          cache := s.cache.set i { s.cache.buf i with locked := true }
          held := update s.held p (i :: s.held p)
          pc := update s.pc p (if reads ∧ (s.cache.buf i).valid = false then .waiting i else .out) }
  | _ => none

/-- `ideintr` for buffer `i`: a dirty buffer has been written, any other is read. -/
def ideintr (s : Users ι β) (i : Fin NBUF) : Users ι β :=
  let b := s.cache.buf i
  if b.dirty then
    { s with
      disk := update s.disk b.dev (update (s.disk b.dev) b.blockno b.data)
      cache := s.cache.set i { b with valid := true, dirty := false } }
  else { s with cache := s.cache.set i { b with valid := true, data := s.disk b.dev b.blockno } }

def intr (s : Users ι β) (p : ι) : Option (Users ι β) :=
  match s.pc p with
  | .waiting i => some { s.ideintr i with pc := update s.pc p .out }
  | _ => none

/-- A process assigns to the buffer `i`, which it has locked. -/
def assign (s : Users ι β) (p : ι) (i : Fin NBUF) (b : Buffer β) (pc : Pc) : Option (Users ι β) :=
  if s.pc p = .out ∧ i ∈ s.held p then some { s with cache := s.cache.set i b, pc := update s.pc p pc }
  else none

/-- `releasesleep` in `brelse`. -/
def unlock (s : Users ι β) (p : ι) (i : Fin NBUF) : Option (Users ι β) :=
  (s.assign p i { s.cache.buf i with locked := false } (.releasing i)).map fun t =>
    { t with held := update s.held p ((s.held p).erase i) }

def put (s : Users ι β) (p : ι) : Option (Users ι β) :=
  match s.pc p with
  | .releasing i => some { s with cache := s.cache.put i, pc := update s.pc p .out }
  | _ => none

def step (s : Users ι β) : ι × Event β → Option (Users ι β)
  | (p, .bget dev blockno) => s.get p dev blockno false
  | (p, .bread dev blockno) => s.get p dev blockno true
  | (p, .lock) => s.lock p
  | (p, .intr) => s.intr p
  | (p, .modify i data) => s.assign p i { s.cache.buf i with data := data } .out
  | (p, .pin i) => s.assign p i { s.cache.buf i with dirty := true } .out
  | (p, .bwrite i) => s.assign p i { s.cache.buf i with dirty := true } (.waiting i)
  | (p, .brelse i) => s.unlock p i
  | (p, .put) => s.put p

/-! ### What each step does -/

variable {s t : Users ι β} {p : ι} {i : Fin NBUF}

theorem get_ok {dev blockno : Nat} {reads : Bool} (got : s.get p dev blockno reads = some t) :
    s.pc p = .out ∧ ∃ i c, s.cache.bget dev blockno = some (i, c) ∧
      t = { s with cache := c, pc := update s.pc p (.locking i reads) } := by
  unfold get at got
  split at got
  next here =>
    obtain ⟨⟨i, c⟩, found, rfl⟩ := Option.map_eq_some_iff.mp got
    exact ⟨here, i, c, found, rfl⟩
  · cases got

theorem lock_ok (taken : s.lock p = some t) : ∃ i reads, s.pc p = .locking i reads ∧
    (s.cache.buf i).locked = false ∧
    t = { s with
      cache := s.cache.set i { s.cache.buf i with locked := true }
      held := update s.held p (i :: s.held p)
      pc := update s.pc p (if reads ∧ (s.cache.buf i).valid = false then .waiting i else .out) } := by
  unfold lock at taken
  split at taken
  next i reads here =>
    split at taken
    · cases taken
    next free => exact ⟨i, reads, here, by simpa using free, (Option.some.inj taken).symm⟩
  · cases taken

theorem intr_ok (done : s.intr p = some t) :
    ∃ i, s.pc p = .waiting i ∧ t = { s.ideintr i with pc := update s.pc p .out } := by
  unfold intr at done
  split at done
  next i here => exact ⟨i, here, (Option.some.inj done).symm⟩
  · cases done

theorem assign_ok {b : Buffer β} {point : Pc} (assigned : s.assign p i b point = some t) :
    s.pc p = .out ∧ i ∈ s.held p ∧ t = { s with cache := s.cache.set i b, pc := update s.pc p point } := by
  obtain ⟨⟨here, held⟩, same⟩ := Option.ite_none_right_eq_some.mp assigned
  exact ⟨here, held, (Option.some.inj same).symm⟩

theorem unlock_ok (unlocked : s.unlock p i = some t) : s.pc p = .out ∧ i ∈ s.held p ∧
    t = { s with
      cache := s.cache.set i { s.cache.buf i with locked := false }
      pc := update s.pc p (.releasing i)
      held := update s.held p ((s.held p).erase i) } := by
  obtain ⟨v, assigned, rfl⟩ := Option.map_eq_some_iff.mp unlocked
  obtain ⟨here, held, rfl⟩ := assign_ok assigned
  exact ⟨here, held, rfl⟩

theorem put_ok (released : s.put p = some t) : ∃ i, s.pc p = .releasing i ∧
    t = { s with cache := s.cache.put i, pc := update s.pc p .out } := by
  unfold put at released
  split at released
  next i here => exact ⟨i, here, (Option.some.inj released).symm⟩
  · cases released

end Users

/-- The buffers before `binit`: all of `bcache` is zero. -/
structure Zeroed (c : Bcache β) : Prop where
  buf : ∀ i, (c.buf i).valid = false ∧ (c.buf i).dirty = false ∧ (c.buf i).dev = 0 ∧ (c.buf i).blockno = 0 ∧
    (c.buf i).locked = false ∧ (c.buf i).refcnt = 0

/-- The cache after `binit`, over any disk, with nobody using it. -/
structure Users.Initial {ι : Type} (s : Users ι β) : Prop where
  cache : ∃ c, Zeroed c ∧ s.cache = c.binit
  pc : ∀ p, s.pc p = .out
  held : ∀ p, s.held p = []

end Xv6.Bio
