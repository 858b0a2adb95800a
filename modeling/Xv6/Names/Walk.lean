import Xv6.Names.Locking
import Xv6.Names.Paths

/-!
# Path resolution

`namex` holds one reference, to the inode it has reached, and while it looks up the next part also the lock
of that inode. The inode that is dropped survives because it has a link or is referenced by somebody else.
-/

namespace Xv6.Names

open Bytes Fs Dirs

/-! ### Directory trees -/

/-- Directory `i` has an entry for inode `j`. -/
def Child (sb : Superblock) (disk : Nat → Block) (i j : Nat) : Prop :=
  InUse sb (dinode sb disk) i ∧ (dinode sb disk i).type = T_DIR ∧
    ∃ name, some (name, j) ∈ slots (contents sb (dinode sb disk) disk i)

/-- The directories are files of entries, and the entries refer to inodes of the table. -/
structure Listed (sb : Superblock) (disk : Nat → Block) : Prop where
  root : ROOTINO < sb.ninodes
  aligned : ∀ i, InUse sb (dinode sb disk) i → (dinode sb disk i).type = T_DIR →
    (dinode sb disk i).size % direntSize = 0
  entries : ∀ i j, Child sb disk i j → 1 ≤ j ∧ j < sb.ninodes

/-- The entries refer to allocated inodes. -/
structure Tree (sb : Superblock) (disk : Nat → Block) : Prop extends Listed sb disk where
  rootUsed : InUse sb (dinode sb disk) ROOTINO
  used : ∀ i j, Child sb disk i j → InUse sb (dinode sb disk) j

/-- The root and the inodes that directories refer to have links or references, if they are allocated. -/
structure Linked (sb : Superblock) (fs : FileSystem) : Prop where
  root : Anchored sb fs ROOTINO
  entries : ∀ i j, Child sb fs.disk i j → Anchored sb fs j

/-- What `dirlookup` finds in directory `i`. -/
def lookup (sb : Superblock) (disk : Nat → Block) (i : Nat) (part : List Byte) : Option Nat :=
  Slots.toMap (slots (contents sb (dinode sb disk) disk i)) part

/-- The inode that the parts lead to from inode `i`. -/
def resolve (sb : Superblock) (disk : Nat → Block) : List (List Byte) → Nat → Option Nat
  | [], i => some i
  | part :: rest, i =>
    if (dinode sb disk i).type = T_DIR then (lookup sb disk i part).bind (resolve sb disk rest) else none

/-- The directory that all parts but the last lead to, and the last part. -/
def resolveParent (sb : Superblock) (disk : Nat → Block) (ps : List (List Byte)) (i : Nat) : Option (Nat × List Byte) := do
  let last ← ps.getLast?
  let dir ← resolve sb disk ps.dropLast i
  if (dinode sb disk dir).type = T_DIR then some (dir, last) else none

/-- Where a path starts. -/
def start (path : List Byte) (cwd : Nat) : Nat := if path.head? = some slash then ROOTINO else cwd

variable {sb : Superblock} {disk : Nat → Block} {devsw : Devsw} {fs fs₁ fs₂ : FileSystem} {k l : Fin NINODE} {i j : Nat}
  {part name : List Byte} {locks : Fin NINODE → Bool}

theorem lookup_child (used : InUse sb (dinode sb disk) i) (dir : (dinode sb disk i).type = T_DIR)
    (found : lookup sb disk i part = some j) : Child sb disk i j := by
  obtain ⟨⟨o, j'⟩, find, rfl⟩ := Option.map_eq_some_iff.mp found
  exact ⟨used, dir, part, List.mem_of_getElem? (Slots.getElem?_of_find find)⟩

/-- Where the loop of `namex` goes. -/
def walk (sb : Superblock) (disk : Nat → Block) (parent : Bool) : List (List Byte) → Nat → Option Nat
  | [], i => if parent then none else some i
  | part :: rest, i =>
    if (dinode sb disk i).type = T_DIR then
      if parent ∧ rest = [] then some i else (lookup sb disk i part).bind (walk sb disk parent rest)
    else none

theorem walk_eq_resolve (ps : List (List Byte)) (i : Nat) : walk sb disk false ps i = resolve sb disk ps i := by
  induction ps generalizing i with
  | nil => rfl
  | cons part rest ih =>
    simp only [walk, resolve, Bool.false_eq_true, false_and, if_false]
    congr 1
    exact congrArg _ (funext ih)

theorem resolveParent_cons_cons (next : List Byte) (rest : List (List Byte)) (i : Nat) :
    resolveParent sb disk (part :: next :: rest) i =
      if (dinode sb disk i).type = T_DIR then
        (lookup sb disk i part).bind (resolveParent sb disk (next :: rest))
      else none := by
  unfold resolveParent
  rw [List.getLast?_cons_cons, List.dropLast_cons_cons, resolve]
  cases last : (next :: rest).getLast? with
  | none => simp at last
  | some _ =>
    split
    · cases lookup sb disk i part <;> rfl
    · rfl

theorem resolveParent_of_resolve {ps : List (List Byte)} (last : ps.getLast? = some part)
    (found : resolve sb disk ps.dropLast i = some j) (dir : (dinode sb disk j).type = T_DIR) :
    resolveParent sb disk ps i = some (j, part) := by
  unfold resolveParent
  rw [last, found]
  exact if_pos dir

theorem getLast?_of_resolveParent {ps : List (List Byte)} {last : List Byte}
    (found : resolveParent sb disk ps i = some (j, last)) : ps.getLast? = some last := by
  unfold resolveParent at found
  cases part : ps.getLast? with
  | none =>
    rw [part] at found
    cases found
  | some part' =>
    rw [part] at found
    cases dir : resolve sb disk ps.dropLast i with
    | none =>
      rw [dir] at found
      cases found
    | some d =>
      rw [dir] at found
      change (if (dinode sb disk d).type = T_DIR then some (d, part') else none) = _ at found
      split at found
      · cases found
        rfl
      · cases found

theorem walk_eq_resolveParent (ps : List (List Byte)) (i : Nat) :
    walk sb disk true ps i = (resolveParent sb disk ps i).map Prod.fst := by
  induction ps generalizing i with
  | nil => rfl
  | cons part rest ih =>
    cases rest with
    | nil =>
      change (if (dinode sb disk i).type = T_DIR then some i else none) =
        Option.map Prod.fst (if (dinode sb disk i).type = T_DIR then some (i, part) else none)
      split <;> rfl
    | cons next rest =>
      have tail : ¬((true : Bool) = true ∧ next :: rest = []) := by simp
      rw [resolveParent_cons_cons, walk, if_neg tail]
      split
      · cases lookup sb disk i part with
        | none => rfl
        | some j => exact ih j
      · rfl

/-! ### Looking up a part -/

/-- `iget` finds no entry. -/
def Full (fs : FileSystem) (e : Stop) : Prop := e = .below (.panic .igetNoInodes) ∧ ∀ m, (fs.icache m).ref ≠ 0

/-- Two entries of the inode cache are not in use. -/
def TwoFree (fs : FileSystem) : Prop := ∃ a b, a ≠ b ∧ (fs.icache a).ref = 0 ∧ (fs.icache b).ref = 0

theorem Holding.free (holding : Holding sb fs i k fs₁) (free : TwoFree fs) : ∃ m, (fs₁.icache m).ref = 0 := by
  obtain ⟨a, b, distinct, idleA, idleB⟩ := free
  by_cases here : a = k
  · refine ⟨b, ?_⟩
    rw [holding.moves.ref, one_of_ne (by rintro rfl; exact distinct here), idleB, add_zero]
  · exact ⟨a, by rw [holding.moves.ref, one_of_ne here, idleA, add_zero]⟩

theorem isDir_of_locked (locked : Locked sb fs k) (dir : (fs.icache k).type = T_DIR)
    (aligned : (fs.icache k).size % direntSize = 0) : IsDir sb (fs.icache k) fs.toState := by
  refine ⟨locked.inum k locked.busy, dir, locked.held.1.fits, ?_, aligned⟩
  rw [table_eq _ locked.stored]
  exact locked.image

/-- `dirlookup` in a locked directory. -/
theorem dirlookup_ends (devsw : Devsw) (isDir : IsDir sb (fs.icache k) fs.toState) (locked : Locked sb fs k) (name : Str)
    (inside : ∀ j, lookup sb fs.disk (fs.icache k).inum (key name) = some j → 1 ≤ j ∧ j < sb.ninodes)
    (locks : Fin NINODE → Bool) :
    Ends (Full fs)
      (fun result => match lookup sb fs.disk (fs.icache k).inum (key name) with
        | none => result = (none, ⟨fs, locks⟩)
        | some j => ∃ l o fs₁, result = (some (l, o), ⟨fs₁, locks⟩) ∧ Holding sb fs j l fs₁)
      (dirlookup devsw sb k name ⟨fs, locks⟩) := by
  have listing : Dirs.entries sb k fs = slots (contents sb (dinode sb fs.disk) fs.disk (fs.icache k).inum) := by
    rw [Dirs.entries, listing, heldContents, table_eq _ locked.stored]
  unfold dirlookup
  rw [dirlookup_eq isDir, listing]
  cases found : Slots.find (key name) (slots (contents sb (dinode sb fs.disk) fs.disk (fs.icache k).inum)) with
  | none =>
    have absent : lookup sb fs.disk (fs.icache k).inum (key name) = none := by rw [lookup, Slots.toMap, found]; rfl
    rw [absent]
    rfl
  | some entry =>
    obtain ⟨o, j⟩ := entry
    have present : lookup sb fs.disk (fs.icache k).inum (key name) = some j := by rw [lookup, Slots.toMap, found]; rfl
    have known := inside j present
    rw [present]
    dsimp only
    cases got : Fs.iget j fs with
    | error e =>
      obtain ⟨rfl, full⟩ := iget_full got
      exact ⟨rfl, fun m idle => full ⟨m, .inr idle⟩⟩
    | ok result =>
      exact ⟨result.1, _, result.2, rfl, iget_holding locked.toOrdered known got⟩

/-- `isdirempty` looks for an entry behind the first two. -/
theorem isdiremptyLoop_eq {dp : Inode} {s : State} (dir : IsDir sb dp s) (devsw : Devsw) : ∀ {rounds i : Nat},
    dp.size / direntSize < i + rounds →
    isdiremptyLoop devsw sb rounds (direntSize * i) dp s =
      .ok (((slots (listing sb dp s)).drop i).all Option.isNone, dp, s) := by
  intro rounds
  induction rounds with
  | zero =>
    intro i high
    rw [List.drop_eq_nil_of_le (by rw [dir.count]; omega)]
    rfl
  | succ rounds ih =>
    intro i high
    have aligned := dir.aligned
    rw [isdiremptyLoop]
    by_cases more : i < dp.size / direntSize
    · have below : direntSize * i < dp.size := by
        simp only [direntSize] at *
        omega
      have step : direntSize * i + direntSize = direntSize * (i + 1) := by
        simp only [direntSize]
        omega
      rw [if_pos below, dir.readi_entry devsw more, drop_slots (by rwa [dir.length])]
      simp only [panics, Names.below, lift, Except.mapError, bind, Except.bind, Dirent.binding, ne_eq, not_true_eq_false,
        if_false]
      by_cases empty : (dirent (entryBytes (listing sb dp s) i)).inum = 0
      · rw [if_neg (not_not.mpr empty), if_pos empty, step, ih (by omega)]
        rfl
      · rw [if_pos empty, if_neg empty]
        rfl
    · have all : dp.size ≤ direntSize * i := by
        simp only [direntSize] at *
        omega
      rw [if_neg (by omega), List.drop_eq_nil_of_le (by rw [dir.count]; omega)]
      rfl

theorem isdirempty_eq (devsw : Devsw) (isDir : IsDir sb (fs.icache k) fs.toState) :
    isdirempty devsw sb k ⟨fs, locks⟩ = .ok (((Dirs.entries sb k fs).drop 2).all Option.isNone, ⟨fs, locks⟩) := by
  unfold isdirempty
  dsimp only
  rw [Nat.mul_comm 2, isdiremptyLoop_eq isDir devsw (by omega)]
  exact congrArg (fun fs' => Except.ok (_, (⟨fs', locks⟩ : Cache))) (store_self fs k)

/-! ### The walk -/

/-- The walk has led to inode `target`, which is returned with a reference, or it has failed and no reference is
left. -/
def Arrived (sb : Superblock) (fs : FileSystem) (target : Option Nat) (ip : Option (Fin NINODE)) (c : Cache) : Prop :=
  c.locked = unlocked ∧
    match target with
    | none => ip = none ∧ Moves sb fs 0 c.toFileSystem
    | some i => ∃ k, ip = some k ∧ Holding sb fs i k c.toFileSystem ∧ Anchored sb fs i

theorem Holding.isDir (holding : Holding sb fs i k fs₁) (locked : Locked sb fs₁ k) (listed : Listed sb fs.disk)
    (used : InUse sb (dinode sb fs.disk) i) (dir : (dinode sb fs.disk i).type = T_DIR) :
    IsDir sb (fs₁.icache k) fs₁.toState := by
  have stored := locked.stored
  rw [holding.inum, holding.moves.disk] at stored
  have size := listed.aligned i used dir
  rw [stored] at dir size
  exact isDir_of_locked locked dir size

/-- `dirlookup` in a directory of the tree. -/
theorem Holding.look (devsw : Devsw) (holding : Holding sb fs i k fs₁) (locked : Locked sb fs₁ k) (listed : Listed sb fs.disk)
    (used : InUse sb (dinode sb fs.disk) i) (dir : (dinode sb fs.disk i).type = T_DIR) (name : Str)
    (locks : Fin NINODE → Bool) :
    Ends (Full fs₁)
      (fun result => match lookup sb fs.disk i (key name) with
        | none => result = (none, ⟨fs₁, locks⟩)
        | some j => ∃ l o fs₂, result = (some (l, o), ⟨fs₂, locks⟩) ∧ Holding sb fs₁ j l fs₂)
      (dirlookup devsw sb k name ⟨fs₁, locks⟩) := by
  have disk := holding.moves.disk
  have looked := dirlookup_ends devsw (holding.isDir locked listed used dir) locked name
    (by
      rw [holding.inum, disk]
      intro j here
      exact listed.entries i j (lookup_child used dir here))
    locks
  rwa [holding.inum, disk] at looked

theorem namexLoop_done {path : List Byte} {name : Str} {parent : Bool} (scanned : skipelem path name = none) {c : Cache} :
    namexLoop devsw sb parent path name k c =
      if parent then do
        let c ← iput sb k c
        .ok (none, name, c)
      else .ok (some k, name, c) := by
  rw [namexLoop]
  split
  · rfl
  next some_ =>
    rw [some_] at scanned
    cases scanned

section Step

variable {path rest : List Byte} {name name' : Str} {parent : Bool} (scanned : skipelem path name = some (rest, name'))
  (busy : 0 < (fs.icache k).ref)

include scanned busy

theorem namexLoop_stuck {e : Panic} (failed : Fs.ilock sb k fs = .error e) :
    namexLoop devsw sb parent path name k ⟨fs, unlocked⟩ = .error (.below (.panic e)) := by
  have stuck : ilock sb k ⟨fs, unlocked⟩ = .error (.below (.panic e)) := by
    unfold ilock
    dsimp only
    rw [if_neg (by omega), if_neg (by simp [unlocked]), failed]
    rfl
  rw [namexLoop]
  split
  next none_ =>
    rw [none_] at scanned
    cases scanned
  next =>
    rw [stuck]
    rfl

variable (lock : Fs.ilock sb k fs = .ok fs₁)

include lock

/-- `namex` has locked the directory. -/
theorem namexLoop_enter (dir : (fs₁.icache k).type = T_DIR) :
    namexLoop devsw sb parent path name k ⟨fs, unlocked⟩ =
      (if parent = true ∧ rest = [] then do
        let c ← iunlock k ⟨fs₁, Function.update unlocked k true⟩
        .ok (some k, name', c)
      else do
        let (next, c) ← dirlookup devsw sb k name' ⟨fs₁, Function.update unlocked k true⟩
        match next with
        | none => do
          let c ← iunlockput sb k c
          .ok (none, name', c)
        | some (next, _) => do
          let c ← iunlockput sb k c
          namexLoop devsw sb parent rest name' next c) := by
  rw [namexLoop]
  split
  next none_ =>
    rw [none_] at scanned
    cases scanned
  next rest' name'' same =>
    rw [same] at scanned
    cases scanned
    rw [ilock_free rfl busy lock]
    exact if_neg (not_not.mpr dir)

theorem namexLoop_file (file : (fs₁.icache k).type ≠ T_DIR) (still : 0 < (fs₁.icache k).ref) (put : Fs.iput sb k fs₁ = .ok fs₂) :
    namexLoop devsw sb parent path name k ⟨fs, unlocked⟩ = .ok (none, name', ⟨fs₂, unlocked⟩) := by
  rw [namexLoop]
  split
  next none_ =>
    rw [none_] at scanned
    cases scanned
  next rest' name'' same =>
    rw [same] at scanned
    cases scanned
    rw [ilock_free rfl busy lock]
    refine (if_pos file).trans ?_
    rw [iunlockput_locked rfl still put]
    rfl

/-- `namex` stops in the directory that the last part is in. -/
theorem namexLoop_last (dir : (fs₁.icache k).type = T_DIR) (last : rest = []) (still : 0 < (fs₁.icache k).ref) :
    namexLoop devsw sb true path name k ⟨fs, unlocked⟩ = .ok (some k, name', ⟨fs₁, unlocked⟩) := by
  rw [namexLoop_enter scanned busy lock dir, if_pos ⟨rfl, last⟩, iunlock_locked rfl still]
  rfl

theorem namexLoop_failed {e : Stop} (dir : (fs₁.icache k).type = T_DIR) (more : ¬(parent = true ∧ rest = []))
    (failed : dirlookup devsw sb k name' ⟨fs₁, Function.update unlocked k true⟩ = .error e) :
    namexLoop devsw sb parent path name k ⟨fs, unlocked⟩ = .error e := by
  rw [namexLoop_enter scanned busy lock dir, if_neg more, failed]
  rfl

theorem namexLoop_missing (dir : (fs₁.icache k).type = T_DIR) (more : ¬(parent = true ∧ rest = []))
    (missing : dirlookup devsw sb k name' ⟨fs₁, Function.update unlocked k true⟩ =
      .ok (none, ⟨fs₁, Function.update unlocked k true⟩))
    (still : 0 < (fs₁.icache k).ref) (put : Fs.iput sb k fs₁ = .ok fs₂) :
    namexLoop devsw sb parent path name k ⟨fs, unlocked⟩ = .ok (none, name', ⟨fs₂, unlocked⟩) := by
  rw [namexLoop_enter scanned busy lock dir, if_neg more, missing]
  change iunlockput sb k ⟨fs₁, Function.update unlocked k true⟩ >>= _ = _
  rw [iunlockput_locked rfl still put]
  rfl

theorem namexLoop_next {o : Nat} {fs₃ : FileSystem} (dir : (fs₁.icache k).type = T_DIR) (more : ¬(parent = true ∧ rest = []))
    (found : dirlookup devsw sb k name' ⟨fs₁, Function.update unlocked k true⟩ =
      .ok (some (l, o), ⟨fs₂, Function.update unlocked k true⟩))
    (still : 0 < (fs₂.icache k).ref) (put : Fs.iput sb k fs₂ = .ok fs₃) :
    namexLoop devsw sb parent path name k ⟨fs, unlocked⟩ = namexLoop devsw sb parent rest name' l ⟨fs₃, unlocked⟩ := by
  rw [namexLoop_enter scanned busy lock dir, if_neg more, found]
  change iunlockput sb k ⟨fs₂, Function.update unlocked k true⟩ >>= _ = _
  rw [iunlockput_locked rfl still put]
  rfl

end Step

/-- Inode `i`, or one that an entry refers to, is not allocated. -/
def Dangling (sb : Superblock) (disk : Nat → Block) (i : Nat) : Prop :=
  (dinode sb disk i).type = 0 ∨ ∃ d j, Child sb disk d j ∧ (dinode sb disk j).type = 0

/-- The panics of a walk from inode `i`. -/
def Fault (sb : Superblock) (fs : FileSystem) (i : Nat) (e : Stop) : Prop :=
  e = .below (.panic .igetNoInodes) ∧ ¬TwoFree fs ∨ e = .below (.panic .ilockNoType) ∧ Dangling sb fs.disk i

theorem Fault.child {e : Stop} (fault : Fault sb fs j e) (child : Child sb fs.disk i j) : Fault sb fs i e := by
  refine fault.imp_right (And.imp_right ?_)
  rintro (free | dangling)
  · exact .inr ⟨i, j, child, free⟩
  · exact .inr dangling

theorem namexLoop_ends {path : List Byte} {name : Str} {parent : Bool} (devsw : Devsw) (listed : Listed sb fs.disk)
    (linked : Linked sb fs) (terminated : 0 ∉ path) (holding : Holding sb fs i k fs₁) (anchored : Anchored sb fs i) :
    Ends (Fault sb fs i)
      (fun result => Arrived sb fs (walk sb fs.disk parent (parts path) i) result.1 result.2.2 ∧
        (parent = true → result.1 ≠ none → some (key result.2.1) = (parts path).getLast?))
      (namexLoop devsw sb parent path name k ⟨fs₁, unlocked⟩) := by
  induction length : path.length using Nat.strong_induction_on generalizing path name k i fs₁ with
  | _ n ih =>
    cases scanned : skipelem path name with
    | none =>
      -- all parts are consumed
      rw [skipelem_none scanned]
      cases parent with
      | true =>
        obtain ⟨fs₂, put, moves⟩ := holding.put anchored
        rw [namexLoop_done scanned, if_pos rfl]
        exact Ends.bind_ok (iput_free rfl put) ⟨⟨rfl, rfl, moves⟩, fun _ some_ => absurd rfl some_⟩
      | false =>
        rw [namexLoop_done scanned, if_neg Bool.false_ne_true]
        exact ⟨⟨rfl, k, rfl, holding, anchored⟩, nofun⟩
    | some result =>
      obtain ⟨rest, name'⟩ := result
      have skipped := skipelem_some terminated scanned
      rw [skipped.parts]
      by_cases typed : (dinode sb fs.disk i).type = 0
      · have failed : Fs.ilock sb k fs₁ = .error .ilockNoType := by
          refine ilock_untyped holding.moves.ordered holding.busy ?_
          rw [holding.inum, holding.moves.disk, typed]
        rw [namexLoop_stuck scanned holding.busy failed]
        exact .inr ⟨rfl, .inl typed⟩
      obtain ⟨fs₂, lock, locked, holding₂, used, type⟩ := holding.lock typed
      obtain ⟨fs₃, put, moves⟩ := holding₂.put anchored
      rw [walk]
      by_cases dir : (dinode sb fs.disk i).type = T_DIR
      · rw [if_pos dir]
        by_cases stop : parent = true ∧ rest = []
        · obtain ⟨rfl, rfl⟩ := stop
          rw [if_pos ⟨rfl, rfl⟩, namexLoop_last scanned holding.busy lock (type.trans dir) rfl locked.busy]
          exact ⟨⟨rfl, k, rfl, holding₂, anchored⟩, fun _ _ => rfl⟩
        have last := parts_ne_nil skipped.start
        rw [if_neg (by rw [last]; exact stop)]
        have looked := holding₂.look devsw locked listed used dir name' (Function.update unlocked k true)
        cases found : dirlookup devsw sb k name' ⟨fs₂, Function.update unlocked k true⟩ with
        | error e =>
          rw [found] at looked
          rw [namexLoop_failed scanned holding.busy lock (type.trans dir) stop found]
          refine .inl ⟨looked.1, fun free => ?_⟩
          obtain ⟨m, idle⟩ := holding₂.free free
          exact looked.2 m idle
        | ok entry =>
          have entry := looked.of_ok found
          cases here : lookup sb fs.disk i (key name') with
          | none =>
            rw [here] at entry
            subst entry
            rw [namexLoop_missing scanned holding.busy lock (type.trans dir) stop found locked.busy put]
            exact ⟨⟨rfl, rfl, moves⟩, fun _ some_ => absurd rfl some_⟩
          | some j =>
            rw [here] at entry
            obtain ⟨l, o, fs₄, rfl, next⟩ := entry
            have child := lookup_child used dir here
            obtain ⟨fs₅, put₅, holding₅⟩ := holding₂.pass anchored next
            rw [namexLoop_next scanned holding.busy lock (type.trans dir) stop found
              (next.moves.still (one_nonneg l) locked.busy) put₅]
            refine (ih rest.length (length ▸ skipelem_shorter scanned) skipped.terminated holding₅
              (linked.entries i j child) rfl).imp (fun e fault => fault.child child) ?_
            rintro result ⟨arrived, named⟩
            refine ⟨arrived, fun isParent some_ => ?_⟩
            obtain ⟨first, others, nonempty⟩ := List.exists_cons_of_ne_nil (l := parts rest)
              fun none_ => stop ⟨isParent, last.mp none_⟩
            rw [named isParent some_, nonempty, List.getLast?_cons_cons]
      · rw [if_neg dir, namexLoop_file scanned holding.busy lock (type ▸ dir) locked.busy put]
        exact ⟨⟨rfl, rfl, moves⟩, fun _ some_ => absurd rfl some_⟩

/-- `namex`, from the root or the current directory. -/
theorem namex_ends {cwd : Fin NINODE} (devsw : Devsw) (ordered : Ordered sb fs) (listed : Listed sb fs.disk)
    (linked : Linked sb fs) (busy : 0 < (fs.icache cwd).ref) (path : Path) (parent : Bool) (name : Str) :
    Ends (Fault sb fs (start path.bytes (fs.icache cwd).inum))
      (fun result => Arrived sb fs
          (walk sb fs.disk parent (parts path.bytes) (start path.bytes (fs.icache cwd).inum)) result.1 result.2.2 ∧
        (parent = true → result.1 ≠ none → some (key result.2.1) = (parts path.bytes).getLast?))
      (namex devsw sb cwd path.bytes parent name ⟨fs, unlocked⟩) := by
  unfold namex start
  by_cases absolute : path.bytes.head? = some slash
  · rw [if_pos absolute, if_pos absolute]
    cases got : Fs.iget ROOTINO fs with
    | error e =>
      obtain ⟨rfl, full⟩ := iget_full got
      have failed : iget ROOTINO ⟨fs, unlocked⟩ = .error (.below (.panic .igetNoInodes)) := by
        unfold iget
        rw [got]
        rfl
      rw [failed]
      refine .inl ⟨rfl, ?_⟩
      rintro ⟨a, _, _, idle, _⟩
      exact full ⟨a, .inr idle⟩
    | ok result =>
      obtain ⟨k, fs₁⟩ := result
      have holding := iget_holding ordered ⟨le_refl _, listed.root⟩ got
      have ran : iget ROOTINO ⟨fs, unlocked⟩ = .ok (k, ⟨fs₁, unlocked⟩) := by
        unfold iget
        rw [got]
        rfl
      exact Ends.bind_ok ran (namexLoop_ends devsw listed linked path.terminated holding linked.root)
  · rw [if_neg absolute, if_neg absolute]
    exact Ends.bind_ok rfl (namexLoop_ends devsw listed linked path.terminated (idup_holding ordered busy)
      (.inr (.inr ⟨cwd, busy, rfl⟩)))

end Xv6.Names
