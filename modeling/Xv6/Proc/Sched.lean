import Xv6.Proc.Kernel

/-!
# Stride scheduling with an MLFQ

The scheduler of `proc.c`: the queue operations on MLFQ nodes, the choice of the entity with
the smallest path, `cpu_share`, `run_MLFQ` and one round of `scheduler`. All of it runs with
`ptable.lock` held.
-/

namespace Xv6.Proc

open Function (update)

/-! ### Queue operations -/

namespace Mlfq

/-- `insertafter(target, mover)`. -/
def insertafter (q : Mlfq) (target mover : Node) : Mlfq :=
  { q with links := q.links.insertAfter target mover }

/-- `insertBefore(target, mover)`. -/
def insertBefore (q : Mlfq) (target mover : Node) : Mlfq :=
  { q with links := q.links.insertBefore target mover }

def remove (q : Mlfq) (m : Node) : Mlfq := { q with links := q.links.remove m }

def delete (q : Mlfq) (m : Node) : Mlfq :=
  let q := q.remove m
  { q with
    state := update q.state m .unused
    level := update q.level m 0
    execTime := update q.execTime m 0
    self := update q.self m none }

/-- `insertBefore(headers[i], m)`. -/
def insertBeforeHeader (q : Mlfq) (i : Fin 4) (m : Node) : Except Stop Mlfq :=
  match q.headers i with
  | none => .error .null
  | some header => .ok (q.insertBefore header m)

def lowerlevel (q : Mlfq) (m : Node) : Except Stop Mlfq :=
  if q.level m = 2 then .ok q
  else do
    let q ← (q.remove m).insertBeforeHeader ((q.level m).succ + 1) m
    .ok { q with level := update q.level m (q.level m + 1) }

/-- `for(i=2; i>0; i--){ remove(headers[i]); insertBefore(headers[i+1], headers[i]); }`. -/
def moveHeader (q : Mlfq) (i : Fin 3) : Except Stop Mlfq :=
  match q.headers i.castSucc with
  | none => .error .null
  | some header => (q.remove header).insertBeforeHeader i.succ header

/-- The second loop of `priorityboost`, from `m` on. -/
def boostLoop : Nat → Option Node → Mlfq → Except Stop Mlfq
  | _, none, q => .ok q
  | 0, some _, _ => .error .loop
  | rounds + 1, some m, q =>
    if q.state m = .used ∧ q.level m ≠ 1 then
      boostLoop rounds (q.links.next m)
        { q with level := update q.level m 0, execTime := update q.execTime m 0 }
    else boostLoop rounds (q.links.next m) q

def priorityboost (q : Mlfq) : Except Stop Mlfq :=
  match q.headers 0 with
  | none => .ok q
  | some _ => do
    let q ← q.moveHeader 2
    let q ← q.moveHeader 1
    boostLoop (NPROC + 4) (q.headers 0) q

/-- The slab entry of header `i`. -/
def headerNode (i : Fin 4) : Node := Fin.natAdd NPROC i

/-- `initmlfq` without its last line. -/
def init (q : Mlfq) : Mlfq :=
  { q with
    headers := fun i => some (headerNode i)
    state := fun m => if NPROC ≤ m.val then .header else q.state m
    links :=
      { next := fun m =>
          if m = headerNode 0 then some (headerNode 1) else if m = headerNode 1 then some (headerNode 2)
          else if m = headerNode 2 then some (headerNode 3) else q.links.next m
        prev := fun m =>
          if m = headerNode 1 then some (headerNode 0) else if m = headerNode 2 then some (headerNode 1)
          else if m = headerNode 3 then some (headerNode 2) else q.links.prev m }
    allottime := fun i => if i = 0 then 5 else if i = 1 then 10 else 1000
    slice := fun i => if i = 0 then 1 else if i = 1 then 2 else 4
    highpr := none
    path := 0
    stride := 5
    sliceCnt := 0
    tickCnt := 0 }

end Mlfq

/-- The first slab entry that is not in use. -/
def freeNode (k : Kernel) : Option Node :=
  (List.finRange (NPROC + 4)).find? fun m => k.mlfq.state m = .unused

/-- Without a free entry the code goes on with the address behind the slab. -/
def allocmlfqnode (k : Kernel) (p : Slot) : Except Stop (Node × Kernel) :=
  match freeNode k with
  | none => .error .bounds
  | some m =>
    .ok (m,
      { k with
        mnode := update k.mnode p (some m)
        mlfq :=
          { k.mlfq with
            self := update k.mlfq.self m (some p)
            links := (k.mlfq.links.setNext (some m) none).setPrev (some m) none
            level := update k.mlfq.level m 0
            execTime := update k.mlfq.execTime m 0
            state := update k.mlfq.state m .used } })

/-- `insertafter(headers[0], allocmlfqnode(p))`. -/
def enqueue (k : Kernel) (p : Slot) : Except Stop Kernel := do
  let (m, k) ← allocmlfqnode k p
  match k.mlfq.headers 0 with
  | none => .error .null
  | some header => .ok { k with mlfq := k.mlfq.insertafter header m }

/-! ### Choosing -/

/-- The loop of `choosebymlfq`, from `m` on. -/
def mlfqLoop : Nat → Option Node → Kernel → Except Stop (Option Node × Kernel)
  | _, none, k => .ok (none, k)
  | 0, some _, _ => .error .loop
  | rounds + 1, some m, k =>
    if k.mlfq.state m ≠ .used then mlfqLoop rounds (k.mlfq.links.next m) k
    else
      match k.mlfq.self m with
      | none => .error .null
      | some p =>
        if k.state p ≠ .RUNNABLE ∧ k.state p ≠ .SLEEPING then
          mlfqLoop rounds (k.mlfq.links.next m) { k with mlfq := k.mlfq.delete m }
        else if k.state p = .RUNNABLE then .ok (some m, k)
        else mlfqLoop rounds (k.mlfq.links.next m) k

/-- `choosebymlfq` when the current node is not to be kept. -/
def mlfqScan (k : Kernel) (header : Node) : Except Stop (Option Node × Kernel) := do
  let (m, k) ← mlfqLoop (NPROC + 4) (some header) k
  match k.mlfq.links.next header with
  | some _ => .ok (m, k)
  | none => .ok (m, { k with mlfq := { k.mlfq with headers := update k.mlfq.headers 0 none } })

def choosebymlfq (k : Kernel) : Except Stop (Option Node × Kernel) :=
  match k.mlfq.headers 0 with
  | none => .ok (none, k)
  | some header =>
    match k.mlfq.highpr with
    | none => mlfqScan k header
    | some m =>
      match k.mlfq.self m with
      | none => .error .null
      | some p => if k.state p = .RUNNABLE then .ok (some m, k) else mlfqScan k header

def getminproc (k : Kernel) : Option Slot → Option Slot → Option Slot
  | none, b => b
  | some a, none => some a
  | some a, some b => if k.path a > k.path b then some b else some a

/-- The local variables of the loop in `updatevals`. -/
structure Scan where
  min : ℚ
  min2 : ℚ
  totalfixedshare : Int
  mlfqcnt : Nat
  highpr : Option Slot
  fixedmin : Option Slot

def Scan.start : Scan :=
  { min := -1, min2 := -1, totalfixedshare := 0, mlfqcnt := 0, highpr := none, fixedmin := none }

/-- The body of the loop in `updatevals`. -/
def scanProc (k : Kernel) (v : Scan) (p : Slot) : Except Stop Scan :=
  if k.state p = .RUNNABLE then do
    let hmaster ← getHighestMaster k p
    match k.schedmode hmaster with
    | .default =>
      if v.min2 = -1 ∨ k.pathlevel hmaster < v.min2 then
        .ok { v with min2 := k.pathlevel hmaster, highpr := some hmaster }
      else .ok v
    | .share =>
      let v :=
        if k.master p = none then
          { v with totalfixedshare := wrap32 (v.totalfixedshare + k.fixedshare p) }
        else v
      if v.min = -1 ∨ k.path hmaster < v.min then
        .ok { v with fixedmin := some hmaster, min := k.path hmaster }
      else .ok v
    | .mlfq => .ok { v with mlfqcnt := v.mlfqcnt + 1 }
  else .ok v

/-- `p->path = v`, when `p` is not null. -/
def setPath (k : Kernel) (p : Option Slot) (v : ℚ) : Kernel :=
  { k with path := fun q => if p = some q then v else k.path q }

/-- The assignments of `updatevals` after its loop, up to the choice in the queue. -/
def storeScan (k : Kernel) (v : Scan) : Kernel :=
  let k := { k with defaultHighpr := v.highpr, fixedmin := v.fixedmin }
  let k := setPath k k.defaultHighpr k.defaultPath
  if v.mlfqcnt ≠ 0 then
    let path :=
      if k.mlfq.path = -1 then
        match getminproc k k.fixedmin k.defaultHighpr with
        | none => 0
        | some p => k.path p
      else k.mlfq.path
    { k with
      mlfq := { k.mlfq with path := path }
      defaultStride := 100 / ((80 - v.totalfixedshare : Int) : ℚ) }
  else
    { k with
      mlfq := { k.mlfq with path := -1 }
      defaultStride := 100 / ((100 - v.totalfixedshare : Int) : ℚ) }

def updatevals (k : Kernel) : Except Stop Kernel := do
  let v ← (List.finRange NPROC).foldlM (scanProc k) Scan.start
  let (m, k) ← choosebymlfq (storeScan k v)
  .ok { k with mlfq := { k.mlfq with highpr := m } }

def choosebystride (k : Kernel) : Except Stop (Option Slot × Kernel) := do
  let k ← updatevals k
  let k := setPath k k.defaultHighpr k.defaultPath
  match k.mlfq.highpr with
  | none => .ok (getminproc k k.fixedmin k.defaultHighpr, k)
  | some m =>
    match k.mlfq.self m with
    | none => .error .null
    | some self =>
      let k := setPath k (some self) k.mlfq.path
      .ok (getminproc k k.fixedmin (getminproc k (some self) k.defaultHighpr), k)

def getminpath (k : Kernel) : Except Stop (ℚ × Kernel) := do
  let (p, k) ← choosebystride k
  match p with
  | none => .ok (0, k)
  | some p => .ok (k.path p, k)

def getminpathlevel (k : Kernel) : Int :=
  match k.defaultHighpr with
  | none => 0
  | some p => k.pathlevel p

/-! ### System calls -/

/-- The total that `cpu_share` admits against. -/
def shareTotal (k : Kernel) : Int :=
  (List.finRange NPROC).foldl
    (fun total p =>
      if k.schedmode p = .share ∧ (k.state p = .RUNNABLE ∨ k.state p = .SLEEPING) ∧
          k.master p = none then wrap32 (total + k.fixedshare p)
      else total) 0

/-- The loop of `cpu_share` over the thread list, from `p` on. -/
def shareLoop : Nat → Option Slot → Kernel → Except Stop Kernel
  | _, none, k => .ok k
  | 0, some _, _ => .error .loop
  | rounds + 1, some p, k =>
    if k.schedmode p = .mlfq then
      match k.mnode p with
      | none => .error .null
      | some m =>
        shareLoop rounds (k.threads.next p)
          { k with mlfq := k.mlfq.delete m, schedmode := update k.schedmode p .share }
    else shareLoop rounds (k.threads.next p) { k with schedmode := update k.schedmode p .share }

/-- `cpu_share(n)`. -/
def cpuShare (k : Kernel) (cur : Slot) (n : Int) : Except Stop (Int × Kernel) := do
  let k ← acquire k
  if n ≤ 0 ∨ wrap32 (shareTotal k + n) > 20 then .ok (-1, release k)
  else do
    let p ← getHighestMaster k cur
    let (path, k) ← getminpath { k with fixedshare := update k.fixedshare p n }
    let k ← shareLoop NPROC (some p) { k with path := update k.path p path }
    .ok (0, release k)

def initmlfq (k : Kernel) : Except Stop Kernel := do
  let (path, k) ← getminpath { k with mlfq := k.mlfq.init }
  .ok { k with mlfq := { k.mlfq with path := path } }

/-- The loop of `run_MLFQ` over the thread list, from `p` on. -/
def enqueueLoop : Nat → Option Slot → Kernel → Except Stop Kernel
  | _, none, k => .ok k
  | 0, some _, _ => .error .loop
  | rounds + 1, some p, k => do
    let k ← enqueue { k with schedmode := update k.schedmode p .mlfq } p
    enqueueLoop rounds (k.threads.next p) k

/-- `if(!headers[0]) initmlfq();`. -/
def ensureMlfq (k : Kernel) : Except Stop Kernel :=
  if k.mlfq.headers 0 = none then initmlfq k else .ok k

/-- `if(mlfqvmp.path == -1) mlfqvmp.path = getminpath();`. -/
def ensurePath (k : Kernel) : Except Stop Kernel :=
  if k.mlfq.path = -1 then do
    let (path, k) ← getminpath k
    .ok { k with mlfq := { k.mlfq with path := path } }
  else .ok k

/-- `run_MLFQ()`. -/
def runMLFQ (k : Kernel) (cur : Slot) : Except Stop (Int × Kernel) := do
  let k ← acquire k
  let k ← ensureMlfq k
  let k ← ensurePath k
  let hmaster ← getHighestMaster k cur
  let k ← enqueueLoop NPROC (some hmaster) k
  .ok (0, release k)

/-- `getlev()`; it never gives `ptable.lock` back. -/
def getlev (k : Kernel) (cur : Slot) : Except Stop (Int × Kernel) := do
  let k ← acquire k
  let hmaster ← getHighestMaster k cur
  if k.schedmode hmaster ≠ .mlfq then .ok (-1, k)
  else do
    let k ← acquire k
    match k.mnode cur with
    | none => .error .null
    | some m => .ok ((k.mlfq.level m).val, k)

/-! ### One round of `scheduler` -/

/-- The search for a thread of `p` to run, at `q`; `none` is `found = 0`. -/
def turnLoop (k : Kernel) (p : Slot) : Nat → Option Slot → Except Stop (Option Slot)
  | 0, _ => .error .loop
  | rounds + 1, q =>
    let q := q.getD p
    if k.state q = .RUNNABLE then .ok (some q)
    else if k.threads.next q = k.turn p then .ok none
    else turnLoop k p rounds (k.threads.next q)

/-- The branches of `scheduler` for `schedmode` 0 and 1 up to their own accounting. A round
that finds no thread is followed by the same round again. -/
def takeTurn (k : Kernel) (p : Slot) : Except Stop (Slot × Kernel) := do
  match ← turnLoop k p (2 * NPROC + 1) (k.turn p) with
  | none => .error .loop
  | some q => .ok (q, { k with turn := update k.turn p (some ((k.threads.next q).getD p)) })

/-- Down a level, or to the tail of the same one. -/
def requeue (q : Mlfq) (m : Node) : Except Stop Mlfq :=
  if q.execTime m ≥ q.allottime (q.level m) then do
    let q ← q.lowerlevel m
    .ok { q with execTime := update q.execTime m 0 }
  else (q.remove m).insertBeforeHeader (q.level m).succ m

/-- The end of a time slice. -/
def endSlice (q : Mlfq) (m : Node) (runnable : Bool) : Except Stop Mlfq :=
  if q.sliceCnt ≥ q.slice (q.level m) ∨ runnable = false then do
    let q ← requeue q m
    .ok { q with sliceCnt := 0, highpr := none }
  else .ok q

def boostSlice (q : Mlfq) : Except Stop Mlfq :=
  if q.sliceCnt = 100 then Mlfq.priorityboost { q with sliceCnt := 0 } else .ok q

/-- The counters of a tick. -/
def Mlfq.tick (q : Mlfq) (m : Node) : Mlfq :=
  { q with
    path := q.path + q.stride
    sliceCnt := q.sliceCnt + 1
    execTime := update q.execTime m (q.execTime m + 1)
    tickCnt := q.tickCnt + 1 }

/-- The branch of `scheduler` for `schedmode` 2. -/
def mlfqTick (k : Kernel) (p : Slot) : Except Stop Kernel :=
  match k.mnode p with
  | none => .error .null
  | some m => do
    let q ← endSlice (k.mlfq.tick m) m (k.state p = .RUNNABLE)
    let q ← boostSlice q
    .ok { k with mlfq := q }

/-- The branches of `scheduler`: the thread to run on the account of `p`. -/
def charge (k : Kernel) (p : Slot) : Except Stop (Slot × Kernel) :=
  match k.schedmode p with
  | .default => do
    let (q, k) ← takeTurn k p
    .ok (q,
      { k with
        defaultPath := k.defaultPath + k.defaultStride
        pathlevel := update k.pathlevel p (k.pathlevel p + 1) })
  | .share => do
    let (q, k) ← takeTurn k p
    .ok (q, { k with path := update k.path p (k.path p + 100 / (k.fixedshare p : ℚ)) })
  | .mlfq => do
    let k ← mlfqTick k p
    .ok (p, k)

/-- One round of `scheduler`: the thread switched to, if there is one. -/
def schedule (k : Kernel) : Except Stop (Option Slot × Kernel) := do
  let k ← acquire k
  match ← choosebystride k with
  | (none, k) => .ok (none, release k)
  | (some p, k) => do
    let (q, k) ← charge k p
    .ok (some q, release { k with state := update k.state q .RUNNING })

end Xv6.Proc
