import Xv6.Bio.Model
import Xv6.Lib.Chain

/-!
# The disk driver: `ide.c`

A process in `iderw` puts its buffer at the end of `idequeue`, gives the controller a command if nothing else
is queued, and sleeps until the buffer is valid and clean. The controller ends each command with one
interrupt. A step is one section under `idelock`.
-/

namespace Xv6.Ide

open Bio
open Function (update)

/-- `FSSIZE`: the blocks of a disk. -/
def FSSIZE : Nat := 40000

/-- What `idestart` writes to the ports 0x1f2 to 0x1f6. -/
structure Registers where
  count : Nat
  low : Nat
  mid : Nat
  high : Nat
  device : Nat

/-- The disk and the sector that the controller finds in its registers. -/
def Registers.disk (r : Registers) : Nat := r.device / 16 % 2

def Registers.sector (r : Registers) : Nat :=
  r.low + 256 * r.mid + 65536 * r.high + 16777216 * (r.device % 16)

inductive Command (β : Type) where
  | read
  | write (data : β)

/-- Where a process stands in `iderw`, once it has called it. -/
inductive Stage where
  | entering
  | asleep
  | awake
  deriving DecidableEq

inductive Panic where
  /-- "iderw: buf not locked" -/
  | notLocked
  /-- "iderw: nothing to do" -/
  | nothing
  /-- "iderw: ide disk 1 not present" -/
  | noDisk
  /-- "incorrect blockno" -/
  | blockno
  /-- the walk along the queue does not end -/
  | loop
  /-- `idewait` waits for the command before -/
  | busy

/-- The processes and the cache, with what `ide.c` and the controller add. -/
structure Driver (ι β : Type) where
  users : Users ι β
  stage : ι → Stage
  qnext : Fin NBUF → Option (Fin NBUF)
  idequeue : Option (Fin NBUF)
  drive : Option (Registers × Command β)

variable {ι β : Type} [DecidableEq ι]

/-- `(b->flags & (B_VALID|B_DIRTY)) == B_VALID`. -/
def synced (b : Buffer β) : Bool := b.valid && !b.dirty

/-- A block is one sector. The parts of the last register have no bits in common. -/
def registers (b : Buffer β) : Registers where
  count := 1
  low := b.blockno % 256
  mid := b.blockno / 256 % 256
  high := b.blockno / 65536 % 256
  device := 0xe0 + 16 * (b.dev % 2) + b.blockno / 16777216 % 16

def command (b : Buffer β) : Registers × Command β :=
  (registers b, if b.dirty then .write b.data else .read)

namespace Driver

def idestart (s : Driver ι β) (i : Fin NBUF) : Except Panic (Driver ι β) :=
  if FSSIZE ≤ (s.users.cache.buf i).blockno then .error .blockno
  else
    match s.drive with
    | some _ => .error .busy
    | none => .ok { s with drive := some (command (s.users.cache.buf i)) }

/-- Append `b` to `idequeue`. -/
def enqueue (s : Driver ι β) (i : Fin NBUF) : Except Panic (Driver ι β) :=
  let qnext := update s.qnext i none
  match s.idequeue with
  | none => .ok { s with qnext := qnext, idequeue := some i }
  | some first =>
    match Chain.climb qnext NBUF first with
    | none => .error .loop
    | some last => .ok { s with qnext := update qnext last (some i) }

/-- `iderw` up to its first `sleep`. -/
def iderw (havedisk1 : Bool) (s : Driver ι β) (p : ι) (i : Fin NBUF) : Except Panic (Driver ι β) :=
  if (s.users.held p).contains i = false then .error .notLocked
  else if synced (s.users.cache.buf i) then .error .nothing
  else if (s.users.cache.buf i).dev ≠ 0 ∧ havedisk1 = false then .error .noDisk
  else do
    let s ← s.enqueue i
    let s ← if s.idequeue = some i then s.idestart i else .ok s
    .ok { s with stage := update s.stage p .asleep }

/-- `iderw` behind `sleep`: the test of the loop. -/
def recheck (s : Driver ι β) (p : ι) (i : Fin NBUF) : Driver ι β :=
  if synced (s.users.cache.buf i) then
    { s with users := { s.users with pc := update s.users.pc p .out }, stage := update s.stage p .entering }
  else { s with stage := update s.stage p .asleep }

def wakeup (s : Driver ι β) (i : Fin NBUF) : Driver ι β :=
  { s with stage := fun p => if s.stage p = .asleep ∧ s.users.pc p = .waiting i then .awake else s.stage p }

/-- What the controller does to the disks. -/
def perform (disk : Nat → Nat → β) : Registers × Command β → Nat → Nat → β
  | (_, .read) => disk
  | (r, .write data) => update disk r.disk (update (disk r.disk) r.sector data)

/-- `ideintr` at the end of the command `c`; `ok` is what `idewait(1)` reports. -/
def ideintr (s : Driver ι β) (c : Registers × Command β) (ok : Bool) : Except Panic (Driver ι β) :=
  let disk := perform s.users.disk c
  let s := { s with users := { s.users with disk := disk }, drive := none }
  match s.idequeue with
  | none => .ok s
  | some i =>
    let b := s.users.cache.buf i
    let data := if b.dirty = false ∧ ok then disk c.1.disk c.1.sector else b.data
    let cache := s.users.cache.set i { b with valid := true, dirty := false, data := data }
    let s := wakeup { s with idequeue := s.qnext i, users := { s.users with cache := cache } } i
    match s.idequeue with
    | none => .ok s
    | some j => s.idestart j

end Driver

inductive Event (ι β : Type) where
  /-- a step of the process in `bio.c` -/
  | call (p : ι) (e : Bio.Event β)
  | iderw (p : ι)
  | ideintr (ok : Bool)
  /-- `kill` wakes a process whatever it waits for -/
  | rouse (p : ι)
  /-- the process goes on after its `sleep` -/
  | wake (p : ι)

def step (havedisk1 : Bool) (s : Driver ι β) : Event ι β → Option (Driver ι β)
  | .call _ .intr => none
  | .call p e => (s.users.step (p, e)).map fun u => { s with users := u }
  | .iderw p =>
    match s.users.pc p, s.stage p with
    | .waiting i, .entering => (s.iderw havedisk1 p i).toOption
    | _, _ => none
  | .ideintr ok => s.drive.bind fun c => (s.ideintr c ok).toOption
  | .rouse p => if s.stage p = .asleep then some { s with stage := update s.stage p .awake } else none
  | .wake p =>
    match s.users.pc p, s.stage p with
    | .waiting i, .awake => some (s.recheck p i)
    | _, _ => none

/-- The buffer that a step puts into the queue. -/
def asked (s : Driver ι β) : Event ι β → Option (Fin NBUF)
  | .iderw p =>
    match s.users.pc p with
    | .waiting i => some i
    | _ => none
  | _ => none

/-- The buffer whose transfer a step ends. -/
def served (s : Driver ι β) : Event ι β → Option (Fin NBUF)
  | .ideintr _ => s.idequeue
  | _ => none

/-- The cache with its driver, and the buffers asked for and served so far. -/
structure Record (ι β : Type) where
  driver : Driver ι β
  asked : List (Fin NBUF)
  served : List (Fin NBUF)

def driver (ι β : Type) [DecidableEq ι] (havedisk1 : Bool) : System (Record ι β) (Event ι β) where
  init r := r.driver.users.Initial ∧ (∀ p, r.driver.stage p = .entering) ∧ r.driver.idequeue = none ∧
    r.driver.drive = none ∧ r.asked = [] ∧ r.served = []
  step r e := (step havedisk1 r.driver e).map fun t =>
    { driver := t, asked := r.asked ++ (asked r.driver e).toList, served := r.served ++ (served r.driver e).toList }

/-- The block is on a disk that is there. -/
def Present (havedisk1 : Bool) (dev blockno : Nat) : Prop :=
  dev < 2 ∧ blockno < FSSIZE ∧ (dev ≠ 0 → havedisk1 = true)

/-- Only such blocks are asked for, and the disk reports no error. -/
def Usual (havedisk1 : Bool) (_ : Record ι β) : Event ι β → Prop
  | .call _ (.bget dev blockno) | .call _ (.bread dev blockno) => Present havedisk1 dev blockno
  | .ideintr ok => ok = true
  | _ => True

instance {havedisk1 : Bool} {dev blockno : Nat} : Decidable (Present havedisk1 dev blockno) :=
  inferInstanceAs (Decidable (_ ∧ _))

instance {havedisk1 : Bool} (r : Record ι β) : (e : Event ι β) → Decidable (Usual havedisk1 r e)
  | .call _ (.bget dev blockno) | .call _ (.bread dev blockno) =>
    inferInstanceAs (Decidable (Present havedisk1 dev blockno))
  | .ideintr ok => inferInstanceAs (Decidable (ok = true))
  | .call _ .lock | .call _ .intr | .call _ (.modify ..) | .call _ (.pin _) | .call _ (.bwrite _)
  | .call _ (.brelse _) | .call _ .put | .iderw _ | .rouse _ | .wake _ => .isTrue trivial

end Xv6.Ide
