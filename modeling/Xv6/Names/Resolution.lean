import Xv6.Names.Walk

/-!
# `namei` and `nameiparent`

A path leads to the inode that the lookups of its parts lead to. The walk needs two entries of the inode
cache, and relies on the directories that it leaves being kept by a link or by somebody's reference.
-/

namespace Xv6.Names

open Bytes Fs Dirs

variable {sb : Superblock} {fs fs₁ fs₂ : FileSystem} {k l : Fin NINODE} {i j : Nat}

/-- Only the reference to the result is new, and nothing else has changed. -/
structure Resolved (fs : FileSystem) (target : Option Nat) (ip : Option (Fin NINODE)) (c : Cache) : Prop where
  result : ip.map (fun k => (c.icache k).inum) = target
  held : ∀ k, ip = some k → 0 < (c.icache k).ref
  refs : ∀ j, refs c.toFileSystem j = refs fs j + if target = some j then 1 else 0
  unlocked : c.locked = unlocked
  state : c.toState = fs.toState

theorem Arrived.resolved {target : Option Nat} {ip : Option (Fin NINODE)} {c : Cache} (arrived : Arrived sb fs target ip c) :
    Resolved fs target ip c := by
  obtain ⟨unlocked, arrived⟩ := arrived
  cases target with
  | none =>
    obtain ⟨rfl, moves⟩ := arrived
    exact ⟨rfl, nofun, fun j => by rw [moves.refs_eq]; simp, unlocked, moves.state⟩
  | some i =>
    obtain ⟨k, rfl, holding, _⟩ := arrived
    refine ⟨congrArg some holding.inum, ?_, fun j => ?_, unlocked, holding.moves.state⟩
    · rintro _ ⟨⟩
      exact holding.busy
    · rw [holding.refs_eq]
      simp only [Option.some.injEq, eq_comm]

theorem Tree.no_fault (tree : Tree sb fs.disk) (free : TwoFree fs) (used : InUse sb (dinode sb fs.disk) i) (path : List Byte)
    (e : Stop) : ¬Fault sb fs (start path i) e := by
  rintro (⟨_, full⟩ | ⟨_, untyped | ⟨d, j, child, untyped⟩⟩)
  · exact full free
  · unfold start at untyped
    split at untyped
    · exact tree.rootUsed.2.2 untyped
    · exact used.2.2 untyped
  · exact (tree.used d j child).2.2 untyped

section Chain

/-- The entries of directory `i`: directory `i + 1`, up to directory `n`, is its entry "a". -/
def chain (n i : Nat) : List (Nat × List Byte) :=
  [(i, [0x2e]), (max 1 (i - 1), [0x2e, 0x2e])] ++ if i < n then [(i + 1, [0x61])] else []

def chainTable (n : Nat) (links : Nat → BitVec 16) (i : Nat) : Dinode :=
  { Dinode.blank with type := T_DIR, nlink := links i, size := (listOf (chain n i)).length }

def chainDisk (n : Nat) (links : Nat → BitVec 16) : Nat → Block :=
  rowDisk n (chainTable n links) fun b => (Buf.zero 512).move 0 512 fun p => (listOf (chain n (b - 97))).getD p 0

/-- The directories of the chain are in memory as `held` says: in an entry with 0 there is none. -/
def chainSystem (n : Nat) (links : Nat → BitVec 16) (held : Fin NINODE → Nat) : FileSystem :=
  { disk := chainDisk n links, logged := []
    icache := fun k => { Dinode.blank with inum := held k, ref := if held k = 0 then 0 else 1, valid := false } }

variable {n : Nat} {links : Nat → BitVec 16} {held : Fin NINODE → Nat}

theorem length_chain (n i : Nat) : (chain n i).length ≤ 3 := by
  unfold chain
  split <;> simp

theorem chain_row (small : n < 200) (links : Nat → BitVec 16) : Row n (chainTable n links) := by
  refine ⟨small, fun _ => by simp [chainTable, T_DIR], fun i => ?_⟩
  have length := length_chain n i
  rw [chainTable, length_listOf]
  simp only [direntSize, BSIZE]
  omega

theorem chainDisk_dinode (small : n < 200) (inside : 1 ≤ i ∧ i ≤ n) :
    dinode mkfsSuperblock (chainDisk n links) i =
      { chainTable n links i with addrs := fun k => if k = 0 then 97 + i else 0 } := by
  rw [chainDisk, (chain_row small links).dinode_eq _ (show i < 200 by omega), rowTable, if_pos inside]

theorem chainDisk_type (small : n < 200) (inside : 1 ≤ i ∧ i ≤ n) :
    (dinode mkfsSuperblock (chainDisk n links) i).type = T_DIR := by
  rw [chainDisk_dinode small inside, chainTable]

theorem chainDisk_inUse (small : n < 200) (i : Nat) :
    InUse mkfsSuperblock (dinode mkfsSuperblock (chainDisk n links)) i ↔ 1 ≤ i ∧ i ≤ n := by
  rw [← (chain_row small links).inUse_iff i]
  refine and_congr_right fun _ => and_congr_right fun inside => ?_
  rw [chainDisk, (chain_row small links).dinode_eq _ inside]

theorem chainDisk_slots (small : n < 200) (inside : 1 ≤ i ∧ i ≤ n) :
    slots (contents mkfsSuperblock (dinode mkfsSuperblock (chainDisk n links)) (chainDisk n links) i) =
      (chain n i).map fun e => some (key (literal e.2), e.1) := by
  have row := chain_row small links
  have short : (listOf (chain n i)).length ≤ 512 := row.short i
  have bytes : contents mkfsSuperblock (dinode mkfsSuperblock (chainDisk n links)) (chainDisk n links) i =
      listOf (chain n i) := by
    rw [chainDisk, row.contents_eq _ inside]
    apply List.ext_getElem
    · simp [chainTable]
    · intro p low high
      rw [List.getElem_map, List.getElem_range, Buf.get_move _ _ _ _ _ (by omega), if_pos (by omega)]
      rw [Nat.add_sub_cancel_left, Nat.sub_zero, List.getD_eq_getElem _ _ high]
  rw [bytes, slots_listOf]
  intro e member
  unfold chain at member
  split at member <;> simp at member
  · rcases member with rfl | rfl | rfl <;> dsimp only <;> omega
  · rcases member with rfl | rfl <;> dsimp only <;> omega

theorem chainDisk_tree (small : n < 200) (some_ : 1 ≤ n) : Tree mkfsSuperblock (chainDisk n links) := by
  have used : ∀ i j, Child mkfsSuperblock (chainDisk n links) i j →
      InUse mkfsSuperblock (dinode mkfsSuperblock (chainDisk n links)) j := by
    rintro i j ⟨used, _, name, member⟩
    have inside := (chainDisk_inUse small i).mp used
    rw [chainDisk_slots small inside] at member
    refine (chainDisk_inUse small j).mpr ?_
    unfold chain at member
    split at member <;> simp at member
    · rcases member with ⟨_, rfl⟩ | ⟨_, rfl⟩ | ⟨_, rfl⟩ <;> omega
    · rcases member with ⟨_, rfl⟩ | ⟨_, rfl⟩ <;> omega
  refine ⟨⟨by decide, fun i used _ => ?_, fun i j child => ?_⟩, (chainDisk_inUse small _).mpr ⟨le_refl _, some_⟩, used⟩
  · rw [chainDisk_dinode small ((chainDisk_inUse small i).mp used), chainTable]
    dsimp only
    rw [length_listOf, Nat.mul_mod_right]
  · exact ⟨(used i j child).1, (used i j child).2.1⟩

theorem chainDisk_down (small : n < 200) (inside : 1 ≤ i ∧ i < n) :
    lookup mkfsSuperblock (chainDisk n links) i [0x61] = some (i + 1) := by
  rw [lookup, chainDisk_slots small ⟨inside.1, by omega⟩, chain, if_pos inside.2]
  rfl

theorem chainDisk_up (small : n < 200) (inside : 1 ≤ i ∧ i ≤ n) :
    lookup mkfsSuperblock (chainDisk n links) i [0x2e, 0x2e] = some (max 1 (i - 1)) := by
  rw [lookup, chainDisk_slots small inside, chain]
  rfl

theorem chainSystem_ordered (small : n < 200) (inside : ∀ k, held k ≤ n)
    (distinct : ∀ k l, held k ≠ 0 → held k = held l → k = l) : Ordered mkfsSuperblock (chainSystem n links held) := by
  have busy : ∀ k, 0 < ((chainSystem n links held).icache k).ref → held k ≠ 0 := by
    intro k used none_
    simp only [chainSystem, if_pos none_] at used
    exact absurd used (by decide)
  refine ⟨(chain_row small links).image _, (chain_row small links).leakFree _, fun k used => ?_, fun k l used _ same => ?_, nofun⟩
  · have := inside k
    have := busy k used
    exact ⟨by change 1 ≤ held k; omega, by change held k < 200; omega⟩
  · exact distinct k l (busy k used) same

theorem chainSystem_linked (small : n < 200) (some_ : 1 ≤ n) (linked : ∀ i, links i ≠ 0) :
    Linked mkfsSuperblock (chainSystem n links held) := by
  have anchored : ∀ i, 1 ≤ i ∧ i ≤ n → Anchored mkfsSuperblock (chainSystem n links held) i := by
    intro i inside
    refine .inr (.inl ?_)
    rw [chainSystem, chainDisk_dinode small inside]
    exact linked i
  refine ⟨anchored ROOTINO ⟨le_refl _, some_⟩, fun i j child => anchored j ?_⟩
  exact (chainDisk_inUse small j).mp ((chainDisk_tree small some_).used i j child)

theorem chainDisk_resolve_down (small : n < 200) (inside : 1 ≤ i ∧ i < n) (rest : List (List Byte)) :
    resolve mkfsSuperblock (chainDisk n links) ([0x61] :: rest) i = resolve mkfsSuperblock (chainDisk n links) rest (i + 1) := by
  rw [resolve, if_pos (chainDisk_type small ⟨inside.1, by omega⟩), chainDisk_down small inside]
  rfl

theorem chainDisk_resolve_up (small : n < 200) (inside : 1 ≤ i ∧ i ≤ n) (rest : List (List Byte)) :
    resolve mkfsSuperblock (chainDisk n links) ([0x2e, 0x2e] :: rest) i =
      resolve mkfsSuperblock (chainDisk n links) rest (max 1 (i - 1)) := by
  rw [resolve, if_pos (chainDisk_type small inside), chainDisk_up small inside]
  rfl

end Chain

/-- Directory 1 is the current directory. -/
def pairSystem : FileSystem := chainSystem 2 (fun _ => 1) fun k => if k = 0 then 1 else 0

theorem pairSystem_ordered : Ordered mkfsSuperblock pairSystem :=
  chainSystem_ordered (by decide) (by decide) (by decide)

def pairPath : Path := ⟨[0x2f, 0x61, 0x2f, 0x2f, 0x2e, 0x2e, 0x2f, 0x61, 0x2f], by decide⟩

/-- From directory `i` to its entry, if there is a free entry in the inode cache. -/
theorem Holding.step {path rest : List Byte} {name name' : Str} (devsw : Devsw) (listed : Listed sb fs.disk)
    (holding : Holding sb fs i k fs₁) (dir : (dinode sb fs.disk i).type = T_DIR) (anchored : Anchored sb fs i)
    (free : ∃ m, (fs₁.icache m).ref = 0) (scanned : skipelem path name = some (rest, name'))
    (found : lookup sb fs.disk i (key name') = some j) :
    ∃ l fs₂, Holding sb fs j l fs₂ ∧ namexLoop devsw sb false path name k ⟨fs₁, unlocked⟩ =
      namexLoop devsw sb false rest name' l ⟨fs₂, unlocked⟩ := by
  obtain ⟨fs₂, lock, locked, holding₂, used, type⟩ := holding.lock (by rw [dir]; decide)
  have looked := holding₂.look devsw locked listed used dir name' (Function.update unlocked k true)
  have room : ∀ e, ¬Full fs₂ e := by
    obtain ⟨m, idle⟩ := free
    rintro e ⟨_, full⟩
    exact full m (by rw [holding₂.moves.ref, ← holding.moves.ref, idle])
  obtain ⟨result, ran, entry⟩ := looked.ok room
  rw [found] at entry
  obtain ⟨l, o, fs₃, rfl, next⟩ := entry
  obtain ⟨fs₄, put, holding₄⟩ := holding₂.pass anchored next
  exact ⟨l, fs₄, holding₄, namexLoop_next scanned holding.busy lock (type.trans dir) (by simp) ran
    (next.moves.still (one_nonneg l) locked.busy) put⟩

/-- Directory 1 and, in all entries but the last, directories that are not on the way. -/
def tightHeld (k : Fin NINODE) : Nat := if k = 0 then 1 else if k = 49 then 0 else k + 10

def tightSystem : FileSystem := chainSystem 60 (fun _ => 1) tightHeld

theorem tightSystem_ordered : Ordered mkfsSuperblock tightSystem :=
  chainSystem_ordered (by decide) (by decide) (by decide +kernel)

theorem tightSystem_tree : Tree mkfsSuperblock tightSystem.disk := chainDisk_tree (by decide) (by decide)

/-- The walk from "a" to "a/a" needs an entry that there is not. -/
theorem tightSystem_panics (name : Str) : namei noDevices mkfsSuperblock 0 [0x61, 0x2f, 0x61] name ⟨tightSystem, unlocked⟩ =
    .error (.below (.panic .igetNoInodes)) := by
  have dir : ∀ i, 1 ≤ i ∧ i ≤ 60 → (dinode mkfsSuperblock tightSystem.disk i).type = T_DIR := fun i inside =>
    chainDisk_type (by decide) inside
  have busy : ∀ m, m ≠ 49 → (tightSystem.icache m).ref = 1 := by decide +kernel
  have elsewhere : ∀ m, (tightSystem.icache m).inum ≠ 2 ∧ (tightSystem.icache m).inum ≠ 3 := by decide +kernel
  have start := idup_holding tightSystem_ordered (show 0 < (tightSystem.icache 0).ref by decide)
  obtain ⟨name₁, scanned₁⟩ : ∃ name', skipelem [0x61, 0x2f, 0x61] name = some ([0x61], name') := ⟨_, rfl⟩
  obtain ⟨name₂, scanned₂⟩ : ∃ name', skipelem [0x61] name₁ = some ([], name') := ⟨_, rfl⟩
  have key₁ : key name₁ = [0x61] := (List.cons.inj (skipelem_some (by decide) scanned₁).parts).1.symm
  have key₂ : key name₂ = [0x61] := (List.cons.inj (skipelem_some (by decide) scanned₂).parts).1.symm
  obtain ⟨l, fs₂, holding, walked⟩ := start.step (j := 2) noDevices tightSystem_tree.toListed (dir 1 (by decide))
    (.inr (.inr ⟨0, by decide, rfl⟩)) ⟨49, by decide +kernel⟩ scanned₁ (by rw [key₁]; exact chainDisk_down (by decide) (by decide))
  obtain ⟨fs₃, lock, locked, holding₃, used, type⟩ := holding.lock (by rw [dir 2 (by decide)]; decide)
  -- the last entry is taken by directory 2
  have last : l = 49 := by
    by_contra other
    have inum := holding.moves.inum l (by rw [busy l other]; decide)
    rw [holding.inum] at inum
    exact (elsewhere l).1 inum.symm
  have looked := holding₃.look noDevices locked tightSystem_tree.toListed used (dir 2 (by decide)) name₂
    (Function.update unlocked l true)
  have failed : dirlookup noDevices mkfsSuperblock l name₂ ⟨fs₃, Function.update unlocked l true⟩ =
      .error (.below (.panic .igetNoInodes)) := by
    cases ran : dirlookup noDevices mkfsSuperblock l name₂ ⟨fs₃, Function.update unlocked l true⟩ with
    | error e =>
      rw [ran] at looked
      rw [looked.1]
    | ok result =>
      rw [ran, key₂, show lookup mkfsSuperblock tightSystem.disk 2 [0x61] = some 3 from
        chainDisk_down (by decide) (by decide)] at looked
      obtain ⟨m, _, fs₄, _, next⟩ := looked
      have inum := next.inum
      by_cases here : m = l
      · rw [here, next.moves.inum l holding₃.busy, holding₃.inum] at inum
        exact absurd inum (by decide)
      · have used : 0 < (tightSystem.icache m).ref := by rw [busy m (last ▸ here)]; decide
        have still : 0 < (fs₃.icache m).ref := by rwa [holding₃.moves.ref, one_of_ne here, add_zero]
        rw [next.moves.inum m still, holding₃.moves.inum m used] at inum
        exact absurd inum (elsewhere m).2
  have ran : namex noDevices mkfsSuperblock 0 [0x61, 0x2f, 0x61] false name ⟨tightSystem, unlocked⟩ =
      .error (.below (.panic .igetNoInodes)) :=
    walked.trans (namexLoop_failed scanned₂ holding.busy lock (type.trans (dir 2 (by decide))) (by simp) failed)
  rw [namei, ran]
  rfl

/-- Directory 2 is in memory, and directory 1 has no links. -/
def looseSystem : FileSystem := chainSystem 2 (fun i => if i = 1 then 0 else 1) fun k => if k = 0 then 2 else 0

theorem looseSystem_ordered : Ordered mkfsSuperblock looseSystem :=
  chainSystem_ordered (by decide) (by decide) (by decide)

theorem looseSystem_tree : Tree mkfsSuperblock looseSystem.disk := chainDisk_tree (by decide) (by decide)

theorem looseSystem_free : TwoFree looseSystem := ⟨1, 2, by decide, rfl, rfl⟩

theorem looseSystem_inode (inside : 1 ≤ i ∧ i ≤ 2) : InUse mkfsSuperblock (dinode mkfsSuperblock looseSystem.disk) i ∧
    dinode mkfsSuperblock looseSystem.disk i =
      { Dinode.blank with
        type := T_DIR, nlink := if i = 1 then 0 else 1, size := (listOf (chain 2 i)).length
        addrs := fun k => if k = 0 then 97 + i else 0 } :=
  ⟨(chainDisk_inUse (by decide) i).mpr inside, chainDisk_dinode (by decide) inside⟩

/-- The root is locked. -/
structure AtRoot (k : Fin NINODE) (fs : FileSystem) : Prop where
  holding : Holding mkfsSuperblock looseSystem 1 k fs
  locked : Locked mkfsSuperblock fs k
  type : (fs.icache k).type = T_DIR
  only : (fs.icache k).ref = 1

theorem looseSystem_root : ∃ k fs₁ fs₂, iget ROOTINO ⟨looseSystem, unlocked⟩ = .ok (k, ⟨fs₁, unlocked⟩) ∧
    0 < (fs₁.icache k).ref ∧ Fs.ilock mkfsSuperblock k fs₁ = .ok fs₂ ∧ AtRoot k fs₂ := by
  obtain ⟨k, fs₁, got, _⟩ := iget_room (show Room looseSystem ROOTINO from ⟨1, .inr rfl⟩)
  have holding := iget_holding looseSystem_ordered (by decide) got
  have dir : (dinode mkfsSuperblock looseSystem.disk 1).type = T_DIR := chainDisk_type (by decide) (by decide)
  obtain ⟨fs₂, lock, locked, holding₂, _, type⟩ := holding.lock (by rw [dir]; decide)
  have unused : (looseSystem.icache k).ref = 0 := by
    by_contra used
    have zero : k = 0 := by
      by_contra other
      exact used (by simp [looseSystem, chainSystem, other])
    subst zero
    have inum := holding.moves.inum 0 (by decide)
    rw [holding.inum] at inum
    exact absurd inum (by decide)
  refine ⟨k, fs₁, fs₂, ?_, holding.busy, lock, holding₂, locked, ?_, ?_⟩
  · rw [iget, got]
    rfl
  · rw [type, dir]
  · rw [holding₂.moves.ref, unused, one_self, zero_add]

theorem AtRoot.frees {δ : Fin NINODE → Int} (root : AtRoot k fs) (moves : Moves mkfsSuperblock fs δ fs₁) (alone : δ k = 0) :
    ∃ fs₂, Fs.iput mkfsSuperblock k fs₁ = .ok fs₂ ∧ Ordered mkfsSuperblock fs₂ ∧
      Released mkfsSuperblock looseSystem.disk fs₂.disk 1 ∧
      (∀ m, (fs₂.icache m).ref = (fs₁.icache m).ref - one k m) ∧ ∀ m, (fs₂.icache m).inum = (fs₁.icache m).inum := by
  have inum : (fs₁.icache k).inum = 1 := by rw [moves.inum k root.locked.busy, root.holding.inum]
  have disk : fs₁.disk = looseSystem.disk := moves.disk.trans root.holding.moves.disk
  have ref : (fs₁.icache k).ref = 1 := by rw [moves.ref, alone, root.only, add_zero]
  have valid := moves.valid k root.locked.busy root.locked.valid
  have links : (fs₁.icache k).nlink = 0 := by
    have stored := (moves.ordered.agrees k (by omega) valid).1
    rw [inum, disk, looseSystem, chainSystem, chainDisk_dinode (by decide) (by decide)] at stored
    rw [← stored]
    rfl
  have frees := iput_frees mkfsSuperblock_valid moves.ordered ⟨valid, links, ref⟩
  rwa [inum, disk] at frees

/-- The walk has left the root for directory 2. -/
structure Left (l : Fin NINODE) (fs : FileSystem) : Prop where
  ordered : Ordered mkfsSuperblock fs
  released : Released mkfsSuperblock looseSystem.disk fs.disk 1
  inum : (fs.icache l).inum = 2
  busy : 0 < (fs.icache l).ref
  free : ∃ m, (fs.icache m).ref = 0

section Loose

variable {path rest : List Byte} {name name' : Str} (scanned : skipelem path name = some (rest, name'))

include scanned

theorem looseSystem_leaves (absolute : path.head? = some slash) (part : key name' = [0x61]) :
    ∃ l fs, Left l fs ∧ namex noDevices mkfsSuperblock 0 path false name ⟨looseSystem, unlocked⟩ =
      namexLoop noDevices mkfsSuperblock false rest name' l ⟨fs, unlocked⟩ := by
  obtain ⟨k, fs₁, fs₂, got, busy, lock, root⟩ := looseSystem_root
  obtain ⟨used, entry₁⟩ := looseSystem_inode (i := 1) (by decide)
  have dir : (dinode mkfsSuperblock looseSystem.disk 1).type = T_DIR := by rw [entry₁]
  obtain ⟨m, idle⟩ := root.holding.free looseSystem_free
  have looked := root.holding.look noDevices root.locked looseSystem_tree.toListed used dir name' (Function.update unlocked k true)
  have down : lookup mkfsSuperblock looseSystem.disk 1 (key name') = some 2 := by
    rw [part]
    exact chainDisk_down (by decide) (by decide)
  rw [down] at looked
  obtain ⟨_, found, l, o, fs₃, rfl, next⟩ := looked.ok fun _ full => full.2 m idle
  have other : k ≠ l := by
    rintro rfl
    have inum := next.inum
    rw [next.moves.inum k root.locked.busy, root.holding.inum] at inum
    exact absurd inum (by decide)
  have still : (fs₃.icache k).ref = 1 := by rw [next.moves.ref, one_of_ne other, root.only, add_zero]
  obtain ⟨fs₄, put, ordered, released, refs, inums⟩ := root.frees next.moves (one_of_ne other)
  refine ⟨l, fs₄, ⟨ordered, released, by rw [inums, next.inum], ?_, k, ?_⟩, ?_⟩
  · rw [refs, one_of_ne (Ne.symm other), sub_zero]
    exact next.busy
  · rw [refs, still, one_self, sub_self]
  · rw [namex, if_pos absolute, got]
    exact namexLoop_next scanned busy lock root.type (by simp) found (by omega) put

theorem Left.back (left : Left l fs) (part : key name' = [0x2e, 0x2e]) :
    ∃ m fs', 0 < (fs'.icache m).ref ∧ Fs.ilock mkfsSuperblock m fs' = .error .ilockNoType ∧
      namexLoop noDevices mkfsSuperblock false path name l ⟨fs, unlocked⟩ =
        namexLoop noDevices mkfsSuperblock false rest name' m ⟨fs', unlocked⟩ := by
  obtain ⟨used, entry₂⟩ := looseSystem_inode (i := 2) (by decide)
  have same : dinode mkfsSuperblock fs.disk 2 = dinode mkfsSuperblock looseSystem.disk 2 :=
    left.released.inodes 2 (by decide) (by decide)
  obtain ⟨fs₁, lock, locked, moves⟩ := ilock_moves left.ordered left.busy (by rw [left.inum, same]; exact used.2.2)
  have disk := moves.disk
  have inum₁ : (fs₁.icache l).inum = 2 := by rw [moves.inum l left.busy, left.inum]
  have stored := locked.stored
  rw [disk, inum₁, same, entry₂] at stored
  have dir : (fs₁.icache l).type = T_DIR := congrArg Dinode.type stored.symm
  have size : (fs₁.icache l).size % direntSize = 0 := by
    rw [← congrArg Dinode.size stored, length_listOf, Nat.mul_mod_right]
  have up : lookup mkfsSuperblock fs₁.disk (fs₁.icache l).inum (key name') = some 1 := by
    rw [part, lookup, disk, inum₁, left.released.contents_eq looseSystem_ordered.image (by decide) used]
    · exact chainDisk_up (by decide) (by decide)
    · rw [entry₂]
      decide
  obtain ⟨a, idle⟩ := left.free
  obtain ⟨result, found, entry⟩ := (dirlookup_ends noDevices (isDir_of_locked locked dir size) locked name'
    (by rw [up]; rintro _ ⟨⟩; decide) (Function.update unlocked l true)).ok fun _ full => full.2 a (by rw [moves.ref, idle]; rfl)
  rw [up] at entry
  obtain ⟨m, o, fs₂, rfl, next⟩ := entry
  have other : m ≠ l := by
    rintro rfl
    have inum := next.inum
    rw [next.moves.inum m locked.busy, inum₁] at inum
    exact absurd inum (by decide)
  have still : 0 < (fs₂.icache l).ref := by
    rw [next.moves.ref, one_of_ne (Ne.symm other), add_zero]
    exact locked.busy
  obtain ⟨fs₃, put, moves₃, inums⟩ := iput_moves next.moves.ordered still (.inr (.inl (by
    rw [next.moves.inum l locked.busy, inum₁, next.moves.disk, disk, same, entry₂]
    decide)))
  have busy : 0 < (fs₃.icache m).ref := by
    rw [moves₃.ref, Pi.neg_apply, one_of_ne other, neg_zero, add_zero]
    exact next.busy
  have gone : (dinode mkfsSuperblock fs₃.disk (fs₃.icache m).inum).type = 0 := by
    rw [inums, next.inum, moves₃.disk, next.moves.disk, disk, left.released.type]
  exact ⟨m, fs₃, busy, ilock_untyped moves₃.ordered busy gone,
    namexLoop_next scanned left.busy lock dir (by simp) found still put⟩

end Loose

/-- The walk frees the root when it leaves it, and cannot come back. -/
theorem looseSystem_panics (name : Str) :
    namei noDevices mkfsSuperblock 0 [0x2f, 0x61, 0x2f, 0x2e, 0x2e, 0x2f, 0x61] name ⟨looseSystem, unlocked⟩ =
      .error (.below (.panic .ilockNoType)) := by
  obtain ⟨name₁, scanned₁⟩ : ∃ name', skipelem [0x2f, 0x61, 0x2f, 0x2e, 0x2e, 0x2f, 0x61] name =
    some ([0x2e, 0x2e, 0x2f, 0x61], name') := ⟨_, rfl⟩
  obtain ⟨name₂, scanned₂⟩ : ∃ name', skipelem [0x2e, 0x2e, 0x2f, 0x61] name₁ = some ([0x61], name') := ⟨_, rfl⟩
  obtain ⟨name₃, scanned₃⟩ : ∃ name', skipelem [0x61] name₂ = some ([], name') := ⟨_, rfl⟩
  have key₁ : key name₁ = [0x61] := (List.cons.inj (skipelem_some (by decide) scanned₁).parts).1.symm
  have key₂ : key name₂ = [0x2e, 0x2e] := (List.cons.inj (skipelem_some (by decide) scanned₂).parts).1.symm
  obtain ⟨l, fs₁, left, out⟩ := looseSystem_leaves scanned₁ rfl key₁
  obtain ⟨m, fs₂, busy, failed, back⟩ := left.back scanned₂ key₂
  rw [namei, out, back, namexLoop_stuck scanned₃ busy failed]
  rfl

end Xv6.Names
