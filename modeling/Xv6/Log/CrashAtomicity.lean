import Xv6.Lib.System
import Xv6.Log.Commit

/-!
# Crash atomicity of a commit

Before the header write the disk is *settled* at the old contents. From then on it is *committed*: installing
the slots any number of times, from any point, ends in a disk settled at the new contents. Recovery keeps
both situations until it clears the header, which is why it may itself be stopped and restarted.
-/

namespace Xv6.Log

open Bytes

@[simp] theorem disk_bwrite (m : Machine) (b : Nat) (data : Block) :
    (bwrite m b data).disk = Function.update m.disk b data := rfl

theorem bread_bwrite (m : Machine) (a b : Nat) (data : Block) :
    bread (bwrite m b data) a = if a = b then data else bread m a := by
  by_cases same : a = b
  · subst same
    simp [bread, bwrite]
  · simp [bread, bwrite, same]

/-! ### The header block -/

theorem headCount_fillHead (buf : Block) (lh : List Nat) (fits : lh.length ≤ LOGSIZE) :
    headCount (fillHead buf lh) = lh.length := by
  have small : lh.length ≤ 60 := fits
  rw [headCount, fillHead, Buf.word_setWords _ _ _ _ (by omega), if_neg (by omega),
    Buf.word_setWord_same _ _ _ (by omega), Nat.mod_eq_of_lt (by omega)]

/-- `read_head` reads back what `write_head` wrote. -/
theorem readHead_fillHead (buf : Block) (lh : List Nat) (fits : lh.length ≤ LOGSIZE)
    (words : ∀ b ∈ lh, b < 2 ^ 32) : readHead (fillHead buf lh) = lh := by
  have small : lh.length ≤ 60 := fits
  apply List.ext_getElem
  · simp [readHead, headCount_fillHead buf lh fits]
  · intro i _ inside
    simp only [readHead, List.getElem_map, List.getElem_range, fillHead]
    rw [Buf.word_setWords _ _ _ _ (by omega), if_pos (by omega), Nat.add_sub_cancel_left,
      List.getD_eq_getElem _ _ inside, Nat.mod_eq_of_lt (words _ (List.getElem_mem inside))]

/-! ### Transactions and the two situations of the disk -/

/-- A header that `commit()` can find in memory: `log_write` records each block once and
stops below `LOGSIZE` and below the size of the log, block numbers are 32-bit, and file
system blocks lie outside the log. -/
structure Transaction (lg : Area) (lh : List Nat) : Prop where
  distinct : lh.Nodup
  positive : 0 < lh.length
  below : lh.length < lg.size
  fits : lh.length ≤ LOGSIZE
  words : ∀ b ∈ lh, b < 2 ^ 32
  home : ∀ b ∈ lh, ¬lg.Contains b

/-- No transaction is pending and the blocks outside the log are those of `target`. -/
structure Settled (lg : Area) (target disk : Nat → Block) : Prop where
  empty : headCount (disk lg.start) = 0
  outside : ∀ b, ¬lg.Contains b → disk b = target b

/-- Header and slots hold the transaction `lh` with contents `new`; of the home blocks
some may already be installed. -/
structure Committed (lg : Area) (lh : List Nat) (old new disk : Nat → Block) : Prop where
  header : readHead (disk lg.start) = lh
  slots : ∀ i (inside : i < lh.length), disk (lg.start + i + 1) = new lh[i]
  others : ∀ b, ¬lg.Contains b → b ∉ lh → disk b = old b

/-- The old disk with the home blocks of the transaction replaced. -/
def installed (lh : List Nat) (old new : Nat → Block) (b : Nat) : Block :=
  if b ∈ lh then new b else old b

variable {lg : Area} {lh : List Nat} {old new : Nat → Block}

theorem Transaction.start_contained (t : Transaction lg lh) : lg.Contains lg.start :=
  ⟨Nat.le_refl _, by have := t.below; omega⟩

theorem Transaction.slot_contained (t : Transaction lg lh) {i : Nat} (inside : i < lh.length) :
    lg.Contains (lg.start + i + 1) :=
  ⟨by omega, by have := t.below; omega⟩

/-! ### Installing -/

/-- A machine in the middle of `install_trans`: the first `k` home blocks hold their new
contents and everything `Committed` says still holds, on the disk and through the cache. -/
structure Installing (lg : Area) (lh : List Nat) (old new : Nat → Block) (k : Nat) (m : Machine) :
    Prop where
  header : m.lh = lh
  committed : Committed lg lh old new m.disk
  cached : ∀ i (inside : i < lh.length), bread m (lg.start + i + 1) = new lh[i]
  done : ∀ i (inside : i < lh.length), i < k → m.disk lh[i] = new lh[i]

private theorem install_round (t : Transaction lg lh) (k : Nat) (inside : k < lh.length)
    (m : Machine) (inv : Installing lg lh old new k m) :
    Installing lg lh old new (k + 1) (installAt lg k m) := by
  have target : m.lh.getD k 0 = lh[k] := by rw [inv.header, List.getD_eq_getElem _ _ inside]
  have member : lh[k] ∈ lh := List.getElem_mem inside
  have away : ∀ b, lg.Contains b → b ≠ lh[k] := by
    intro b contained equal
    exact t.home _ member (equal ▸ contained)
  unfold installAt
  rw [target, inv.cached k inside]
  refine ⟨inv.header, ⟨?_, ?_, ?_⟩, ?_, ?_⟩
  · rw [disk_bwrite, Function.update_of_ne (away _ t.start_contained)]
    exact inv.committed.header
  · intro i hi
    rw [disk_bwrite, Function.update_of_ne (away _ (t.slot_contained hi))]
    exact inv.committed.slots i hi
  · intro b outside other
    have ne : b ≠ lh[k] := fun equal => other (equal ▸ member)
    rw [disk_bwrite, Function.update_of_ne ne]
    exact inv.committed.others b outside other
  · intro i hi
    rw [bread_bwrite, if_neg (away _ (t.slot_contained hi))]
    exact inv.cached i hi
  · intro i hi before
    by_cases same : lh[i] = lh[k]
    · rw [disk_bwrite, same, Function.update_self]
    · have ne : i ≠ k := by rintro rfl; exact same rfl
      rw [disk_bwrite, Function.update_of_ne same]
      exact inv.done i hi (by omega)

theorem install_prefix (t : Transaction lg lh) (m : Machine) (inv : Installing lg lh old new 0 m)
    (k : Nat) (bound : k ≤ lh.length) :
    Installing lg lh old new k (Steps.run (installTrans lg k) m) :=
  Steps.run_range_inv (installAt lg) (Installing lg lh old new) lh.length m inv
    (fun i inside s => install_round t i inside s) k bound

/-- Clearing the header after all rounds settles the disk at the new contents. -/
theorem clear_settles (t : Transaction lg lh) (m : Machine)
    (inv : Installing lg lh old new lh.length m) :
    Settled lg (installed lh old new) (writeHead lg (clearCount m)).disk := by
  constructor
  · simp only [writeHead, disk_bwrite, Function.update_self]
    exact headCount_fillHead _ [] (Nat.zero_le _)
  · intro b outside
    have ne : b ≠ lg.start := by rintro rfl; exact outside t.start_contained
    simp only [writeHead, disk_bwrite, Function.update_of_ne ne, clearCount, installed]
    split
    next member =>
      obtain ⟨i, inside, rfl⟩ := List.getElem_of_mem member
      exact inv.done i inside inside
    next other => exact inv.committed.others b outside other

/-! ### Recovery -/

theorem boot_installing {disk : Nat → Block} (c : Committed lg lh old new disk) :
    Installing lg lh old new 0 (boot lg disk) :=
  ⟨c.header, c, c.slots, fun _ _ before => absurd before (Nat.not_lt_zero _)⟩

private theorem run_take_append {σ : Type} (first second : List (σ → σ)) (k : Nat) (s : σ) :
    Steps.run ((first ++ second).take k) s =
      Steps.run (second.take (k - first.length)) (Steps.run (first.take k) s) := by
  rw [List.take_append, Steps.run_append]

private theorem length_installTrans (lg : Area) (n : Nat) : (installTrans lg n).length = n := by
  simp [installTrans]

private theorem take_installTrans (lg : Area) (n k : Nat) :
    (installTrans lg n).take k = installTrans lg (min k n) :=
  Steps.take_range_map (installAt lg) n k

/-- The common tail of `commit()` and `recover_from_log()`, cut anywhere: either the
transaction is still described by the log, or it is completely installed. -/
private theorem install_tail (t : Transaction lg lh) (m : Machine)
    (inv : Installing lg lh old new 0 m) (k : Nat) :
    (k ≤ lh.length + 1 ∧ Committed lg lh old new (Steps.run
        ((installTrans lg lh.length ++ [clearCount, writeHead lg]).take k) m).disk) ∨
    (lh.length + 2 ≤ k ∧ Settled lg (installed lh old new) (Steps.run
        ((installTrans lg lh.length ++ [clearCount, writeHead lg]).take k) m).disk) := by
  have loop := install_prefix t m inv (min k lh.length) (Nat.min_le_right _ _)
  rw [run_take_append, length_installTrans, take_installTrans]
  rcases Nat.lt_or_ge k (lh.length + 1) with inside | past
  · left
    rw [show k - lh.length = 0 by omega]
    exact ⟨by omega, loop.committed⟩
  · rw [Nat.min_eq_right (by omega)] at loop ⊢
    rcases Nat.lt_or_ge k (lh.length + 2) with cleared | complete
    · left
      rw [show k - lh.length = 1 by omega]
      exact ⟨by omega, loop.committed⟩
    · right
      rw [List.take_of_length_le (by simp only [List.length_cons, List.length_nil]; omega)]
      exact ⟨complete, clear_settles t _ loop⟩

theorem crashDuringRecovery_committed (t : Transaction lg lh) {disk : Nat → Block}
    (c : Committed lg lh old new disk) (k : Nat) :
    Committed lg lh old new (crashDuringRecovery lg disk k) ∨
      Settled lg (installed lh old new) (crashDuringRecovery lg disk k) := by
  have tail := install_tail t (boot lg disk) (boot_installing c) k
  unfold crashDuringRecovery recoverFromLog
  rw [show (boot lg disk).lh = lh from c.header]
  exact tail.imp (fun h => h.2) (fun h => h.2)

theorem recovered_committed (t : Transaction lg lh) {disk : Nat → Block}
    (c : Committed lg lh old new disk) : Settled lg (installed lh old new) (recovered lg disk) := by
  have tail := install_tail t (boot lg disk) (boot_installing c) (lh.length + 2)
  unfold recovered recoverFromLog
  rw [show (boot lg disk).lh = lh from c.header]
  rw [List.take_of_length_le (by simp [length_installTrans])] at tail
  rcases tail with ⟨short, _⟩ | ⟨_, settled⟩
  · omega
  · exact settled

private theorem crashDuringRecovery_empty (lg : Area) (disk : Nat → Block) (k : Nat)
    (empty : headCount (disk lg.start) = 0) :
    crashDuringRecovery lg disk k = disk ∨
      crashDuringRecovery lg disk k =
        Function.update disk lg.start (fillHead (disk lg.start) []) := by
  have nothing : (boot lg disk).lh = [] := by simp [boot, readHead, empty]
  unfold crashDuringRecovery recoverFromLog
  rw [nothing]
  rcases k with _ | _ | k
  · exact .inl rfl
  · exact .inl rfl
  · right
    rw [List.take_of_length_le (by simp [length_installTrans])]
    simp [Steps.run, installTrans, writeHead, clearCount, bread, boot]

theorem crashDuringRecovery_settled {target disk : Nat → Block} (positive : 0 < lg.size)
    (s : Settled lg target disk) (k : Nat) : Settled lg target (crashDuringRecovery lg disk k) := by
  rcases crashDuringRecovery_empty lg disk k s.empty with same | rewritten
  · rw [same]
    exact s
  · rw [rewritten]
    constructor
    · rw [Function.update_self]
      exact headCount_fillHead _ [] (Nat.zero_le _)
    · intro b outside
      have ne : b ≠ lg.start := by rintro rfl; exact outside ⟨Nat.le_refl _, by omega⟩
      rw [Function.update_of_ne ne]
      exact s.outside b outside

theorem recovered_eq (lg : Area) (disk : Nat → Block) :
    recovered lg disk = crashDuringRecovery lg disk (recoverFromLog lg (boot lg disk).lh.length).length := by
  rw [recovered, crashDuringRecovery, List.take_length]

theorem Recovers.settled {target disk final : Nat → Block} (positive : 0 < lg.size)
    (runs : Recovers lg disk final) (s : Settled lg target disk) : Settled lg target final := by
  induction runs with
  | finish disk =>
    rw [recovered_eq]
    exact crashDuringRecovery_settled positive s _
  | again k _ ih => exact ih (crashDuringRecovery_settled positive s k)

theorem Recovers.committed (t : Transaction lg lh) {disk final : Nat → Block}
    (runs : Recovers lg disk final) (c : Committed lg lh old new disk) :
    Settled lg (installed lh old new) final := by
  induction runs with
  | finish disk => exact recovered_committed t c
  | again k rest ih =>
    rcases crashDuringRecovery_committed t c k with still | done
    · exact ih still
    · exact rest.settled (by have := t.below; omega) done

/-! ### Logging -/

/-- A machine in the middle of `write_log`: `k` slots are written, the header is the
empty one it was, and nothing outside the log has changed. -/
structure Logging (lg : Area) (lh : List Nat) (old new : Nat → Block) (k : Nat) (m : Machine) :
    Prop where
  header : m.lh = lh
  settled : Settled lg old m.disk
  pinned : ∀ b ∈ lh, bread m b = new b
  slots : ∀ i (inside : i < lh.length), i < k →
    m.disk (lg.start + i + 1) = new lh[i] ∧ bread m (lg.start + i + 1) = new lh[i]

private theorem log_round (t : Transaction lg lh) (k : Nat) (inside : k < lh.length) (m : Machine)
    (inv : Logging lg lh old new k m) : Logging lg lh old new (k + 1) (writeLogAt lg k m) := by
  have source : m.lh.getD k 0 = lh[k] := by rw [inv.header, List.getD_eq_getElem _ _ inside]
  have contained := t.slot_contained inside
  unfold writeLogAt
  rw [source, inv.pinned _ (List.getElem_mem inside)]
  refine ⟨inv.header, ⟨?_, ?_⟩, ?_, ?_⟩
  · rw [disk_bwrite, Function.update_of_ne (by omega)]
    exact inv.settled.empty
  · intro b outside
    have ne : b ≠ lg.start + k + 1 := by rintro rfl; exact outside contained
    rw [disk_bwrite, Function.update_of_ne ne]
    exact inv.settled.outside b outside
  · intro b member
    have ne : b ≠ lg.start + k + 1 := by rintro rfl; exact t.home _ member contained
    rw [bread_bwrite, if_neg ne]
    exact inv.pinned b member
  · intro i hi before
    by_cases same : i = k
    · subst same
      rw [disk_bwrite, Function.update_self, bread_bwrite, if_pos rfl]
      exact ⟨rfl, rfl⟩
    · rw [disk_bwrite, Function.update_of_ne (by omega), bread_bwrite, if_neg (by omega)]
      exact inv.slots i hi (by omega)

theorem log_prefix (t : Transaction lg lh) (m : Machine) (inv : Logging lg lh old new 0 m)
    (k : Nat) (bound : k ≤ lh.length) :
    Logging lg lh old new k (Steps.run (writeLog lg k) m) :=
  Steps.run_range_inv (writeLogAt lg) (Logging lg lh old new) lh.length m inv
    (fun i inside s => log_round t i inside s) k bound

/-- The header write is the commit point. -/
theorem writeHead_commits (t : Transaction lg lh) (m : Machine)
    (inv : Logging lg lh old new lh.length m) :
    Installing lg lh old new 0 (writeHead lg m) := by
  unfold writeHead
  rw [inv.header]
  refine ⟨inv.header, ⟨?_, ?_, ?_⟩, ?_, fun _ _ before => absurd before (Nat.not_lt_zero _)⟩
  · rw [disk_bwrite, Function.update_self]
    exact readHead_fillHead _ _ t.fits t.words
  · intro i inside
    rw [disk_bwrite, Function.update_of_ne (by omega)]
    exact (inv.slots i inside inside).1
  · intro b outside _
    have ne : b ≠ lg.start := by rintro rfl; exact outside t.start_contained
    rw [disk_bwrite, Function.update_of_ne ne]
    exact inv.settled.outside b outside
  · intro i inside
    rw [bread_bwrite, if_neg (by omega)]
    exact (inv.slots i inside inside).2

/-! ### The commit as a whole -/

theorem logging_start (m : Machine) (empty : headCount (m.disk lg.start) = 0) :
    Logging lg m.lh m.disk (bread m) 0 m :=
  ⟨rfl, ⟨empty, fun _ _ => rfl⟩, fun _ _ => rfl, fun _ _ before => absurd before (Nat.not_lt_zero _)⟩

private theorem commit_eq (n : Nat) (positive : 0 < n) :
    commit lg n = writeLog lg n ++ (writeHead lg :: (installTrans lg n ++ [clearCount, writeHead lg])) := by
  simp [commit, positive]

/-- The disk after any number of steps of `commit()`: settled at the old contents while
only slots have been written, committed or settled at the new contents afterwards. -/
theorem crashDuringCommit_cases (m : Machine) (t : Transaction lg m.lh)
    (empty : headCount (m.disk lg.start) = 0) (k : Nat) :
    (k ≤ m.lh.length ∧ Settled lg m.disk (crashDuringCommit lg m k)) ∨
    (m.lh.length < k ∧ Committed lg m.lh m.disk (bread m) (crashDuringCommit lg m k)) ∨
    (m.lh.length < k ∧
      Settled lg (installed m.lh m.disk (bread m)) (crashDuringCommit lg m k)) := by
  have loop := log_prefix t m (logging_start m empty)
  unfold crashDuringCommit
  rw [commit_eq _ t.positive, run_take_append, writeLog, List.length_map, List.length_range,
    Steps.take_range_map]
  rcases Nat.lt_or_ge m.lh.length k with past | inside
  · right
    have point := writeHead_commits t _ (loop _ (Nat.le_refl _))
    rw [Nat.min_eq_right (by omega), show k - m.lh.length = (k - m.lh.length - 1) + 1 by omega,
      List.take_succ_cons, Steps.run_cons]
    exact (install_tail t _ point (k - m.lh.length - 1)).imp
      (fun h => ⟨past, h.2⟩) (fun h => ⟨past, h.2⟩)
  · left
    rw [Nat.min_eq_left inside, show k - m.lh.length = 0 by omega]
    exact ⟨inside, (loop k inside).settled⟩

/-- A completed `commit()` leaves the disk settled at the new contents. -/
theorem commit_complete (m : Machine) (t : Transaction lg m.lh)
    (empty : headCount (m.disk lg.start) = 0) :
    Settled lg (installed m.lh m.disk (bread m)) (Steps.run (commit lg m.lh.length) m).disk := by
  have loop := log_prefix t m (logging_start m empty) _ (Nat.le_refl _)
  have tail := install_tail t _ (writeHead_commits t _ loop) (m.lh.length + 2)
  rw [List.take_of_length_le (by simp [length_installTrans])] at tail
  rw [commit_eq _ t.positive, Steps.run_append, Steps.run_cons]
  rcases tail with ⟨short, _⟩ | ⟨_, settled⟩
  · omega
  · exact settled

/-- **Crash atomicity.** Stop `commit()` after any number `k` of its steps and recover,
recovery itself being stopped and restarted any number of times. The home blocks then
hold the old contents if the header write (step `n + 1`) was not reached and the cached
contents if it was, all other blocks outside the log are untouched and the header counts
no block. A commit that runs to its end installs the cached contents. -/
theorem commit_crash_atomic (lg : Area) (m : Machine) (t : Transaction lg m.lh)
    (empty : headCount (m.disk lg.start) = 0) :
    (∀ k final, Recovers lg (crashDuringCommit lg m k) final →
      (∀ b ∈ m.lh, final b = if k ≤ m.lh.length then m.disk b else bread m b) ∧
      (∀ b, ¬lg.Contains b → b ∉ m.lh → final b = m.disk b) ∧
      headCount (final lg.start) = 0) ∧
    (∀ b ∈ m.lh, (Steps.run (commit lg m.lh.length) m).disk b = bread m b) := by
  constructor
  · intro k final runs
    rcases crashDuringCommit_cases m t empty k with ⟨early, settled⟩ | late
    · have done := runs.settled (by have := t.below; omega) settled
      refine ⟨?_, fun b outside _ => done.outside b outside, done.empty⟩
      intro b member
      rw [if_pos early]
      exact done.outside b (t.home b member)
    · have done : m.lh.length < k ∧ Settled lg (installed m.lh m.disk (bread m)) final := by
        rcases late with ⟨past, c⟩ | ⟨past, s⟩
        · exact ⟨past, runs.committed t c⟩
        · exact ⟨past, runs.settled (by have := t.below; omega) s⟩
      refine ⟨?_, ?_, done.2.empty⟩
      · intro b member
        rw [done.2.outside b (t.home b member), installed, if_pos member, if_neg (by omega)]
      · intro b outside other
        rw [done.2.outside b outside, installed, if_neg other]
  · intro b member
    rw [(commit_complete m t empty).outside b (t.home b member), installed, if_pos member]

/-- A log of four blocks at block 2, and a machine with one cached block to commit. -/
def sampleArea : Area := { start := 2, size := 4 }

def sampleMachine : Machine :=
  { disk := fun _ => Buf.zero 512
    cache := fun b => if b = 10 then some ((Buf.zero 512).setByte 0 7) else none
    lh := [10] }

theorem sampleTransaction : Transaction sampleArea sampleMachine.lh where
  distinct := by decide
  positive := by decide
  below := by decide
  fits := by decide
  words := by decide
  home := by
    intro b member
    obtain rfl : b = 10 := by simpa [sampleMachine] using member
    simp [Area.Contains, sampleArea]

/-- Stopped right after the header write, the sample commit is completed by recovery. -/
theorem commit_crash_atomic_sample :
    recovered sampleArea (crashDuringCommit sampleArea sampleMachine 2) 10 =
      (Buf.zero 512).setByte 0 7 := by
  have empty : headCount (sampleMachine.disk sampleArea.start) = 0 := Buf.word_zero 0
  have after := (commit_crash_atomic sampleArea sampleMachine sampleTransaction empty).1 2 _ (.finish _)
  simpa [sampleMachine, bread] using after.1 10 (by simp [sampleMachine])

/-! ### Many commits -/

/-- The disk, and what the transactions so far have left outside the log. -/
structure Ledger where
  disk : Nat → Block
  contents : Nat → Block

/-- A `commit()` with any cached blocks. -/
inductive Round where
  | finished (cache : Nat → Option Block) (lh : List Nat)
  /-- stopped after `k` steps; recovery is stopped after each of `ks` before it gets to its end -/
  | crashed (cache : Nat → Option Block) (lh : List Nat) (k : Nat) (ks : List Nat)

def Round.header : Round → List Nat
  | finished _ lh | crashed _ lh _ _ => lh

def restart (lg : Area) (disk : Nat → Block) (ks : List Nat) : Nat → Block :=
  recovered lg (ks.foldl (crashDuringRecovery lg) disk)

def ledger (lg : Area) : System Ledger Round where
  init s := headCount (s.disk lg.start) = 0 ∧ s.contents = s.disk
  step s
    | .finished cache lh =>
      let m : Machine := { disk := s.disk, cache, lh }
      some { disk := (Steps.run (commit lg lh.length) m).disk, contents := installed lh s.contents (bread m) }
    | .crashed cache lh k ks =>
      let m : Machine := { disk := s.disk, cache, lh }
      some
        { disk := restart lg (crashDuringCommit lg m k) ks
          -- the transaction counts from the header write on
          contents := if k ≤ lh.length then s.contents else installed lh s.contents (bread m) }

theorem recovers_restart (lg : Area) (disk : Nat → Block) (ks : List Nat) : Recovers lg disk (restart lg disk ks) := by
  induction ks generalizing disk with
  | nil => exact .finish disk
  | cons k ks ih => exact .again k (ih _)

theorem Settled.installed {target disk final : Nat → Block} (after : Settled lg (installed lh disk new) final)
    (before : Settled lg target disk) : Settled lg (installed lh target new) final := by
  refine ⟨after.empty, fun b outside => ?_⟩
  rw [after.outside b outside, Log.installed, Log.installed, before.outside b outside]

/-- **Durability.** However many commits are finished or stopped, the blocks outside the log are those that the
transactions with a written header have left, in their order. -/
theorem log_durable {s : Ledger} (reach : (ledger lg).Reach (fun _ r => Transaction lg r.header) s) :
    Settled lg s.contents s.disk := by
  refine reach.invariant (P := fun s => Settled lg s.contents s.disk) ?_ fun s r s' settled t stepped => ?_
  · rintro s ⟨empty, same⟩
    exact ⟨empty, fun b _ => by rw [same]⟩
  · cases r with
    | finished cache lh =>
      cases stepped
      exact (commit_complete { disk := s.disk, cache, lh } t settled.empty).installed settled
    | crashed cache lh k ks =>
      cases stepped
      have positive : 0 < lg.size := Nat.zero_lt_of_lt t.below
      have runs := recovers_restart lg (crashDuringCommit lg { disk := s.disk, cache, lh } k) ks
      rcases crashDuringCommit_cases { disk := s.disk, cache, lh } t settled.empty k with
        ⟨early, still⟩ | ⟨late, committed⟩ | ⟨late, done⟩
      · have final := runs.settled positive still
        rw [if_pos early]
        exact ⟨final.empty, fun b outside => (final.outside b outside).trans (settled.outside b outside)⟩
      · rw [if_neg (Nat.not_le.mpr late)]
        exact (runs.committed t committed).installed settled
      · rw [if_neg (Nat.not_le.mpr late)]
        exact (runs.settled positive done).installed settled

/-- The sample commit, stopped after the header write; recovery is stopped once, too. -/
theorem log_durable_sample : ∃ s, (ledger sampleArea).Reach (fun _ r => Transaction sampleArea r.header) s ∧
    s.disk 10 = (Buf.zero 512).setByte 0 7 := by
  have start : (ledger sampleArea).Reach (fun _ r => Transaction sampleArea r.header)
      { disk := sampleMachine.disk, contents := sampleMachine.disk } := .init ⟨Buf.word_zero 0, rfl⟩
  let crash : Round := .crashed sampleMachine.cache [10] 2 [1]
  have crashed := start.step (a := crash) sampleTransaction rfl
  refine ⟨_, crashed, ?_⟩
  rw [(log_durable crashed).outside 10 (sampleTransaction.home 10 (by simp [sampleMachine]))]
  simp [installed, sampleMachine, bread]

end Xv6.Log
