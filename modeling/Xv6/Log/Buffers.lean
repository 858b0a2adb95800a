import Xv6.Bio.Cache
import Xv6.Log.Reservation

/-!
# Buffers under delayed commit

`log_write` pins a buffer, and only the installation of a commit makes it clean again, so up to `LOGSIZE - 1`
of the `NBUF = LOGSIZE` buffers are pinned, and a few readers take the rest. `bget` finds a buffer as long
as the header and the buffers in use together are fewer than `NBUF`.
-/

namespace Xv6.Log

open Function (update)
open Bio

variable {ι : Type}

/-! ### The system -/

/-- What `commit()` does with buffers. -/
inductive BufOp where
  | bread (b : Nat)
  | bwrite (b : Nat)
  | brelse (b : Nat)

/-- The buffer operations of one step of `commit()`, for a log that starts at block `start`:
a round of `write_log`, a round of `install_trans` or `write_head`. -/
def script (start : Nat) (lh : List Nat) : Pc → List BufOp
  | .writeLog tail _ =>
    match lh[tail]? with
    | none => []
    | some block =>
      [.bread (start + tail + 1), .bread block, .bwrite (start + tail + 1), .brelse block,
        .brelse (start + tail + 1)]
  | .install tail _ =>
    match lh[tail]? with
    | none => []
    | some block =>
      [.bread (start + tail + 1), .bread block, .bwrite block, .brelse (start + tail + 1),
        .brelse block]
  | .writeHead _ | .clearHead => [.bread start, .bwrite start, .brelse start]
  | _ => []

structure Buffered (ι : Type) where
  log : Tracked ι
  cache : Cache
  /-- the blocks whose buffers a process has locked -/
  held : ι → List Nat
  /-- `bget`: about to lock the buffer of the block -/
  locking : ι → Option Nat
  /-- the operations of `script` already done -/
  done : ι → Nat
  /-- "bget: no buffers" -/
  noBuffers : Bool

/-- Next event of a process. -/
inductive Event where
  /-- a step of the logging calls -/
  | log (act : Act)
  | bread (b : Nat)
  | brelse (b : Nat)
  /-- `acquiresleep` in `bget` -/
  | lock
  /-- the next buffer operation of `commit()` -/
  | commit
  deriving DecidableEq

/-- The buffers that `fs.c` holds at one time: a plain read goes from block to block; inside an
operation `itrunc` goes down three levels and frees a block at the last. -/
def maxHeld : Pc → Nat
  | .idle => 1
  | .inOp => 4
  | _ => 0

section Steps

variable [DecidableEq ι]

/-- The first half of `bget`. -/
def startBread (s : Buffered ι) (p : ι) (b : Nat) : Buffered ι :=
  match s.cache.bget b with
  | none => { s with noBuffers := true }
  | some c => { s with cache := c, locking := update s.locking p (some b) }

def release (s : Buffered ι) (p : ι) (b : Nat) : Buffered ι :=
  { s with cache := s.cache.brelse b, held := update s.held p ((s.held p).erase b) }

/-- The lock of the buffer, once nobody holds it. -/
def lockBuf (s : Buffered ι) (p : ι) : Option (Buffered ι) := do
  let b ← s.locking p
  let i ← s.cache.find b
  if (s.cache.buf i).locked then none
  else
    some
      { s with
        cache := s.cache.lock i
        held := update s.held p (b :: s.held p)
        locking := update s.locking p none }

def bufStep (s : Buffered ι) (p : ι) : BufOp → Buffered ι
  | .bread b => startBread s p b
  | .bwrite b => { s with cache := s.cache.bwrite b }
  | .brelse b => release s p b

/-- Operations begin and end without buffers, and `log_write` gets one that is locked. -/
def holdsFor (held : List Nat) : Act → Prop
  | .logWrite b => b ∈ held
  | .run => True
  | _ => held = []

instance (held : List Nat) (act : Act) : Decidable (holdsFor held act) := by
  unfold holdsFor
  cases act <;> infer_instance

/-- The buffer that a logging step pins. -/
def pinning (cache : Cache) : Pc → Cache
  | .logWrite b => cache.pin b
  | _ => cache

def logStep (s : Buffered ι) (p : ι) (act : Act) : Option (Buffered ι) :=
  ((reserving ι LOGSIZE).step s.log (p, act)).map fun t =>
    { s with
      log := t
      cache := pinning s.cache (s.log.log.pc p)
      done := update s.done p 0 }

def bufferedStep (start : Nat) (s : Buffered ι) : ι × Event → Option (Buffered ι)
  | (p, event) =>
    let ops := script start s.log.log.lh (s.log.log.pc p)
    if s.noBuffers then none
    else match event with
      | .lock => lockBuf s p
      | .log act =>
        if s.locking p = none ∧ s.done p = ops.length ∧ holdsFor (s.held p) act then logStep s p act
        else none
      | .bread b =>
        if s.locking p = none ∧ (s.held p).length < maxHeld (s.log.log.pc p) then
          some (startBread s p b)
        else none
      | .brelse b =>
        if s.locking p = none ∧ b ∈ s.held p ∧ maxHeld (s.log.log.pc p) ≠ 0 then
          some (release s p b)
        else none
      | .commit =>
        if s.locking p = none then
          ops[s.done p]?.map fun op => { bufStep s p op with done := update s.done p (s.done p + 1) }
        else none

end Steps

/-- After `initlog` the log is empty and nobody uses the cache. -/
structure Buffered.Initial (s : Buffered ι) : Prop where
  log : s.log = { log := initial ι, passed := fun _ => [] }
  unused : ∀ i, (s.cache.buf i).refcnt = 0 ∧ (s.cache.buf i).dirty = false ∧
    (s.cache.buf i).locked = false
  held : ∀ p, s.held p = []
  locking : ∀ p, s.locking p = none
  done : ∀ p, s.done p = 0
  running : s.noBuffers = false

/-- Processes over a log that starts at block `start`. -/
def buffered (ι : Type) [DecidableEq ι] (start : Nat) : System (Buffered ι) (ι × Event) where
  init := Buffered.Initial
  step := bufferedStep start

/-! ### The conditions -/

/-- The block that a step looks up in the cache. -/
def wanted (start : Nat) (s : Buffered ι) : ι × Event → Option Nat
  | (_, .bread b) => some b
  | (p, .commit) =>
    match (script start s.log.log.lh (s.log.log.pc p))[s.done p]? with
    | some (.bread b) => some b
    | _ => none
  | _ => none

/-- Commits one at a time, operations within their reservation. -/
def Orderly (s : Buffered ι) : ι × Event → Prop
  | (p, .log act) => Disciplined s.log (p, act)
  | _ => True

/-- A block that is not cached is looked up only while the header and the buffers in use leave
a buffer. -/
def LeavesBuffer (start : Nat) (s : Buffered ι) (label : ι × Event) : Prop :=
  ∀ b ∈ wanted start s label, s.cache.find b = none →
    s.log.log.lh.length + s.cache.inUse.card < NBUF

def Roomy (start : Nat) (s : Buffered ι) (label : ι × Event) : Prop :=
  Orderly s label ∧ LeavesBuffer start s label

/-! ### The invariant -/

/-- What a process inside `install_trans` has written is clean; the write is the third
operation of a round. -/
def Installed (cache : Cache) (lh : List Nat) (done : Nat) : Pc → Prop
  | .install tail _ => ∀ b ∈ lh.take (if done < 3 then tail else tail + 1), cache.Clean b
  | .reset _ => ∀ b ∈ lh, cache.Clean b
  | _ => True

structure Kept [Fintype ι] (s : Buffered ι) : Prop where
  inv : Inv s.log.log
  pinned : s.cache.Pinned s.log.log.lh
  installed : ∀ p, Installed s.cache s.log.log.lh (s.done p) (s.log.log.pc p)
  running : s.noBuffers = false

theorem Installed.of_noDirtier {c c' : Cache} {lh : List Nat} {done : Nat} {pc : Pc}
    (installed : Installed c lh done pc) (less : c.NoDirtier c') : Installed c' lh done pc := by
  cases pc with
  | install tail logged => exact fun b member => (installed b member).of_noDirtier less
  | reset logged => exact fun b member => (installed b member).of_noDirtier less
  | _ => trivial

theorem Installed.of_outside {c : Cache} {lh : List Nat} {done : Nat} {pc : Pc}
    (outside : pc.inCommit = false) : Installed c lh done pc := by
  cases pc with
  | install tail logged => cases outside
  | reset logged => cases outside
  | _ => trivial

/-! ### Steps of the log -/

section

variable [DecidableEq ι] {size : Nat} {u v : State ι} {p : ι} {act : Act}

theorem installed_commitStep {c : Cache} (start : Nat) (stepped : commitStep u p (u.pc p) = some v)
    (installed : Installed c u.lh (script start u.lh (u.pc p)).length (u.pc p)) :
    Installed c v.lh 0 (v.pc p) := by
  cases here : u.pc p with
  | commitTest | writeLog tail logged =>
    rw [here] at stepped
    cases stepped
    rw [pc_setPc]
    split_ifs <;> trivial
  | writeHead logged =>
    rw [here] at stepped
    cases stepped
    simp [Installed]
  | install tail logged =>
    rw [here] at stepped installed
    cases stepped
    rw [pc_setPc]
    split_ifs with more
    · simpa [Installed, script, more] using installed
    · have all : u.lh.take tail = u.lh := List.take_of_length_le (not_lt.mp more)
      have none_ : u.lh[tail]? = none := List.getElem?_eq_none (not_lt.mp more)
      simpa [Installed, script, none_, all] using installed
  | reset logged | clearHead =>
    rw [here] at stepped
    cases stepped
    rw [pc_setPc]
    trivial
  | _ =>
    rw [here] at stepped
    cases stepped

end

variable [DecidableEq ι] [Fintype ι] {s s' : Buffered ι} {p : ι} {start : Nat}

omit [Fintype ι] in
theorem pinning_of_ne {c : Cache} {pc : Pc} (other : ∀ b, pc ≠ .logWrite b) : pinning c pc = c := by
  cases pc with
  | logWrite b => exact absurd rfl (other b)
  | _ => rfl

theorem pinned_stepBy {act : Act} {v : State ι} (kept : Kept s)
    (stepped : stepBy LOGSIZE s.log.log p act = some v) :
    (pinning s.cache (s.log.log.pc p)).Pinned v.lh := by
  have pinned := kept.pinned
  cases (stepBy_kind stepped).2 with
  | opens _ closed _ lh _ _ =>
    have other : ∀ b, s.log.log.pc p ≠ .logWrite b := fun b here => by
      rw [here] at closed
      cases closed
    rw [pinning_of_ne other, lh]
    exact pinned
  | test b _ here test =>
    have lh : v.lh = s.log.log.lh := by
      rw [test, logWriteTest]
      split_ifs <;> rfl
    rw [pinning_of_ne (by simp [here]), lh]
    exact pinned
  | record b here written =>
    have lh : v.lh = if b ∈ s.log.log.lh then s.log.log.lh else s.log.log.lh ++ [b] := by
      rw [written]
      rfl
    rw [here, lh]
    split_ifs with old
    · exact pinned.pin old
    · exact (pinned.mono fun c member => List.mem_append_left _ member).pin (by simp)
  | other _ outside _ lh =>
    rw [pinning_of_ne outside]
    rcases lh with lh | ⟨⟨logged, here⟩, lh⟩
    · rw [lh]
      exact pinned
    · rw [lh]
      have written := kept.installed p
      rw [here] at written
      exact pinned.reset written

/-- A process inside `commit()` other than the stepping one sees neither the header nor the
buffers change. -/
theorem stepBy_undisturbed {act : Act} {v : State ι} {q : ι} (kept : Kept s) (other : q ≠ p)
    (inside : (s.log.log.pc q).inCommit = true) (stepped : stepBy LOGSIZE s.log.log p act = some v) :
    v.lh = s.log.log.lh ∧ pinning s.cache (s.log.log.pc p) = s.cache := by
  refine ⟨kept.inv.lh_kept other inside stepped, pinning_of_ne fun b here => ?_⟩
  exact absurd inside (kept.inv.not_inCommit (by rw [here]; rfl) q)

theorem kept_log {act : Act} (kept : Kept s) (orderly : Disciplined s.log (p, act))
    (ended : s.done p = (script start s.log.log.lh (s.log.log.pc p)).length)
    (stepped : logStep s p act = some s') : Kept s' := by
  obtain ⟨t, moved, rfl⟩ := Option.map_eq_some_iff.mp stepped
  obtain ⟨v, ran, rfl⟩ := Option.map_eq_some_iff.mp moved
  have others := (stepBy_kind ran).1
  refine ⟨inv_step kept.inv orderly.1 ran, pinned_stepBy kept ran, fun q => ?_, kept.running⟩
  change Installed (pinning s.cache (s.log.log.pc p)) v.lh (update s.done p 0 q) (v.pc q)
  cases inside : (v.pc q).inCommit with
  | false => exact .of_outside inside
  | true =>
    by_cases same : q = p
    · subst same
      rw [Function.update_self]
      rcases stepBy_inCommit ran inside with at_test | stepped
      · rw [at_test]
        trivial
      · have inCommit : ∀ b, s.log.log.pc q ≠ .logWrite b := fun b here => by
          rw [here] at stepped
          cases stepped
        rw [pinning_of_ne inCommit]
        refine installed_commitStep start stepped ?_
        rw [← ended]
        exact kept.installed q
    · have here := (others q same).eq_of_inCommit inside
      obtain ⟨lh, cache⟩ := stepBy_undisturbed kept same (here ▸ inside) ran
      rw [Function.update_of_ne same, ← here, lh, cache]
      exact kept.installed q

/-! ### Steps of the cache -/

omit [DecidableEq ι] in
theorem Kept.buffers (kept : Kept s) (log : s'.log = s.log) (less : s.cache.NoDirtier s'.cache)
    (done : s'.done = s.done) (running : s'.noBuffers = false) : Kept s' where
  inv := by
    rw [log]
    exact kept.inv
  pinned := by
    rw [log]
    exact kept.pinned.of_noDirtier less
  installed q := by
    rw [log, done]
    exact (kept.installed q).of_noDirtier less
  running := running

theorem kept_startBread (kept : Kept s) {b : Nat}
    (leaves : s.cache.find b = none → s.log.log.lh.length + s.cache.inUse.card < NBUF) :
    Kept (startBread s p b) := by
  unfold startBread
  split
  next failed => exact absurd failed (Cache.bget_ne_none kept.pinned leaves)
  next c got => exact kept.buffers rfl (Cache.noDirtier_bget got) rfl kept.running

theorem kept_release (kept : Kept s) (b : Nat) : Kept (release s p b) :=
  kept.buffers rfl (Cache.noDirtier_brelse b) rfl kept.running

theorem kept_lockBuf (kept : Kept s) (stepped : lockBuf s p = some s') : Kept s' := by
  obtain ⟨b, _, stepped⟩ := Option.bind_eq_some_iff.mp stepped
  obtain ⟨i, _, stepped⟩ := Option.bind_eq_some_iff.mp stepped
  split at stepped
  · cases stepped
  · cases stepped
    exact kept.buffers rfl (Cache.noDirtier_lock i) rfl kept.running

theorem kept_bufStep (kept : Kept s) {op : BufOp}
    (leaves : ∀ b, op = .bread b → s.cache.find b = none →
      s.log.log.lh.length + s.cache.inUse.card < NBUF) : Kept (bufStep s p op) := by
  cases op with
  | bread b => exact kept_startBread kept (leaves b rfl)
  | bwrite b => exact kept.buffers rfl (Cache.noDirtier_bwrite b) rfl kept.running
  | brelse b => exact kept_release kept b

omit [Fintype ι] in
theorem bufStep_frame (s : Buffered ι) (p : ι) (op : BufOp) :
    (bufStep s p op).log = s.log ∧ (bufStep s p op).done = s.done := by
  cases op with
  | bread b =>
    simp only [bufStep, startBread]
    split <;> exact ⟨rfl, rfl⟩
  | bwrite b => exact ⟨rfl, rfl⟩
  | brelse b => exact ⟨rfl, rfl⟩

/-- The third operation of a round of `install_trans` writes the block. -/
theorem installed_bufStep {op : BufOp} (kept : Kept (bufStep s p op))
    (next : (script start s.log.log.lh (s.log.log.pc p))[s.done p]? = some op) :
    Installed (bufStep s p op).cache s.log.log.lh (s.done p + 1) (s.log.log.pc p) := by
  have before := kept.installed p
  rw [(bufStep_frame s p op).1, (bufStep_frame s p op).2] at before
  cases here : s.log.log.pc p with
  | install tail logged =>
    rw [here] at before next
    simp only [script] at next
    split at next
    · cases next
    next block at_tail =>
      by_cases third : s.done p = 2
      · rw [third] at next
        cases next
        intro b member
        rw [third] at member before
        simp only [Nat.reduceAdd, Nat.lt_irrefl, if_false, List.take_add_one, at_tail,
          Option.toList_some, List.mem_append, List.mem_singleton] at member
        rcases member with earlier | rfl
        · exact before b earlier
        · exact Cache.clean_bwrite s.cache b
      · have bound : (s.done p + 1 < 3) = (s.done p < 3) := by
          rw [eq_iff_iff]
          omega
        simpa only [Installed, bound] using before
  | reset logged =>
    rw [here] at next
    simp [script] at next
  | _ => trivial

theorem kept_step {label : ι × Event} (kept : Kept s) (roomy : Roomy start s label)
    (stepped : bufferedStep start s label = some s') : Kept s' := by
  obtain ⟨p, event⟩ := label
  obtain ⟨orderly, leaves⟩ := roomy
  unfold bufferedStep at stepped
  rw [kept.running] at stepped
  simp only [Bool.false_eq_true, if_false] at stepped
  cases event with
  | lock => exact kept_lockBuf kept stepped
  | log act =>
    simp only at stepped
    split at stepped
    next ready => exact kept_log kept orderly ready.2.1 stepped
    · cases stepped
  | bread b =>
    simp only at stepped
    split at stepped
    · cases stepped
      exact kept_startBread kept (leaves b rfl)
    · cases stepped
  | brelse b =>
    simp only at stepped
    split at stepped
    · cases stepped
      exact kept_release kept b
    · cases stepped
  | commit =>
    simp only at stepped
    split at stepped
    · obtain ⟨op, next, rfl⟩ := Option.map_eq_some_iff.mp stepped
      have after : Kept (bufStep s p op) := by
        refine kept_bufStep kept fun b isRead => leaves b ?_
        simp [wanted, next, isRead]
      obtain ⟨log, done⟩ := bufStep_frame s p op
      refine ⟨after.inv, after.pinned, fun q => ?_, after.running⟩
      change Installed (bufStep s p op).cache (bufStep s p op).log.log.lh (update s.done p (s.done p + 1) q)
        ((bufStep s p op).log.log.pc q)
      by_cases same : q = p
      · subst same
        rw [Function.update_self, log]
        exact installed_bufStep after next
      · have other := after.installed q
        rw [Function.update_of_ne same, ← done]
        exact other
    · cases stepped

omit [DecidableEq ι] in
theorem kept_initial (fresh : s.Initial) : Kept s where
  inv := by
    rw [fresh.log]
    exact inv_initial
  pinned i dirty := by
    rw [(fresh.unused i).2.1] at dirty
    cases dirty
  installed q := by
    rw [fresh.log]
    trivial
  running := fresh.running

/-- **Availability of buffers.** In every run of processes that read, log and commit, with
operations within their reservation and commits one at a time, in which a block that is not
cached is looked up only while the log header and the buffers in use are together fewer than
`NBUF`, `bget` never runs out of buffers. -/
theorem bget_finds_buffer (ι : Type) [Fintype ι] [DecidableEq ι] (start : Nat) (s : Buffered ι)
    (reach : (buffered ι start).Reach (Roomy start) s) : s.noBuffers = false := by
  have kept : Kept s :=
    reach.invariant (fun _ => kept_initial) fun _ _ _ kept roomy stepped => kept_step kept roomy stepped
  exact kept.running

/-! ### Two processes -/

instance (s : Buffered ι) (label : ι × Event) : Decidable (Orderly s label) := by
  obtain ⟨p, event⟩ := label
  unfold Orderly
  cases event <;> infer_instance

omit [DecidableEq ι] [Fintype ι] in
instance (start : Nat) (s : Buffered ι) (label : ι × Event) : Decidable (LeavesBuffer start s label) := by
  unfold LeavesBuffer
  cases wanted start s label with
  | none => exact .isTrue (by simp)
  | some b =>
    exact decidable_of_iff
      (s.cache.find b = none → s.log.log.lh.length + s.cache.inUse.card < NBUF) (by simp)

instance (start : Nat) (s : Buffered ι) (label : ι × Event) : Decidable (Roomy start s label) :=
  inferInstanceAs (Decidable (_ ∧ _))

/-- The log after `initlog` over the cache after `binit`. -/
def binit (ι : Type) : Buffered ι :=
  { log := { log := initial ι, passed := fun _ => [] }
    cache :=
      { buf := fun _ => { blockno := none, refcnt := 0, dirty := false, locked := false }
        order := (List.finRange NBUF).reverse
        listed := by simp
        distinct := by simp }
    held := fun _ => []
    locking := fun _ => none
    done := fun _ => 0
    noBuffers := false }

omit [DecidableEq ι] [Fintype ι] in
theorem initial_binit : (binit ι).Initial :=
  ⟨rfl, fun _ => ⟨rfl, rfl, rfl⟩, fun _ => rfl, fun _ => rfl, fun _ => rfl, rfl⟩

/-- Process `p` begins an operation and writes `blocks` blocks from `first` on, each read,
logged and released. -/
def writes (p : Fin 2) (first blocks : Nat) : List (Fin 2 × Event) :=
  (p, .log .beginOp) :: (List.range' first blocks).flatMap fun b =>
    [(p, .bread b), (p, .lock), (p, .log (.logWrite b)), (p, .log .run), (p, .brelse b)]

/-- An operation that has ended leaves its blocks pinned, and a reader still gets a buffer. -/
theorem bget_finds_buffer_pinned : ∃ s, (buffered (Fin 2) 2).Reach (Roomy 2) s ∧
    s.log.log.lh = [100, 101, 102] ∧ s.log.log.outstanding = 0 ∧ s.held 1 = [1000] ∧
    s.noBuffers = false := by
  obtain ⟨s, reach, found⟩ := System.Reach.of_exec (S := buffered (Fin 2) 2) (Roomy 2)
    (writes 0 100 3 ++ [(0, .log .endOp), (1, .bread 1000), (1, .lock)]) initial_binit
    (P := fun s => s.log.log.lh = [100, 101, 102] ∧ s.log.log.outstanding = 0 ∧ s.held 1 = [1000])
    (by decide +kernel)
  obtain ⟨lh, ended, held⟩ := of_decide_eq_true found
  exact ⟨s, reach, lh, ended, held, bget_finds_buffer (Fin 2) 2 s reach⟩

/-- Two operations of twenty blocks each, uncommitted, and nineteen blocks of a third; then a
process that only reads. -/
def crowd : List (Fin 2 × Event) :=
  writes 0 100 20 ++ (0, .log .endOp) :: writes 0 120 20 ++ (0, .log .endOp) :: writes 0 140 19 ++
    [(1, .bread 1000), (0, .bread 159)]

/-- With one reader holding a buffer, the twentieth block of the third operation finds none. -/
theorem bget_no_buffers : ∃ s, (buffered (Fin 2) 2).Reach Orderly s ∧ s.noBuffers = true := by
  obtain ⟨s, reach, found⟩ := System.Reach.of_exec (S := buffered (Fin 2) 2) Orderly crowd
    initial_binit (P := fun s => s.noBuffers) (by decide +kernel)
  exact ⟨s, reach, found⟩

end Xv6.Log
