import Xv6.Names.Resolution

/-!
# Calls that fail

If `link`, `unlink`, `mkdir` or `mknod` returns -1, the references and locks it took have been given back
and the inodes are as they were; `sys_link` takes back the link that it has counted.
-/

namespace Xv6.Names

open Bytes Fs Dirs

variable {sb : Superblock} {devsw : Devsw} {fs fs₁ fs₂ : FileSystem} {k l cwd : Fin NINODE} {d i j : Nat}
  {locks : Fin NINODE → Bool} {c : Cache} {name name' : Str} {δ : Fin NINODE → Int} {r : Int}

/-! ### A directory that is locked -/

theorem Locked.moved (locked : Locked sb fs k) (shift : Shift sb fs δ fs₁) (nonneg : ∀ m, 0 ≤ δ m) : Locked sb fs₁ k := by
  have busy := shift.still nonneg locked.busy
  have valid := shift.valid k locked.busy locked.valid
  obtain ⟨stored, type⟩ := shift.ordered.agrees k busy valid
  exact ⟨shift.ordered, busy, stored, type, valid⟩

theorem Holding.moved (holding : Holding sb fs i k fs₁) (moves : Moves sb fs₁ 0 fs₂) : Holding sb fs i k fs₂ := by
  have both := holding.moves.trans (one_nonneg k) moves
  rw [add_zero] at both
  exact ⟨both, by rw [moves.inum k holding.busy, holding.inum], moves.still (fun _ => le_refl 0) holding.busy⟩

/-- Directory `d` is locked in entry `k`. -/
structure Entered (sb : Superblock) (fs : FileSystem) (d : Nat) (k : Fin NINODE) (fs' : FileSystem) : Prop where
  holding : Holding sb fs d k fs'
  locked : Locked sb fs' k
  used : InUse sb (dinode sb fs.disk) d
  dir : (dinode sb fs.disk d).type = T_DIR
  anchored : Anchored sb fs d

namespace Entered

theorem moved (entered : Entered sb fs d k fs₁) (moves : Moves sb fs₁ 0 fs₂) : Entered sb fs d k fs₂ :=
  ⟨entered.holding.moved moves, Locked.moved entered.locked moves.toShift fun _ => le_refl 0, entered.used, entered.dir,
    entered.anchored⟩

theorem leave (entered : Entered sb fs d k fs₁) (ran : iunlockput sb k ⟨fs₁, Function.update unlocked k true⟩ = .ok c) :
    ∃ fs₂, c = ⟨fs₂, unlocked⟩ ∧ Moves sb fs 0 fs₂ := by
  obtain ⟨fs₂, rfl, moves⟩ := entered.holding.unlockput_ok entered.anchored ran
  exact ⟨fs₂, by rw [unlock_lock rfl], moves⟩

theorem pass (entered : Entered sb fs d k fs₁) (next : Holding sb fs₁ j l fs₂)
    (ran : iunlockput sb k ⟨fs₂, Function.update unlocked k true⟩ = .ok c) :
    ∃ fs₃, c = ⟨fs₃, unlocked⟩ ∧ Holding sb fs j l fs₃ := by
  obtain ⟨_, _, fs₃, put, rfl⟩ := iunlockput_inv ran
  obtain ⟨fs₄, put', holding⟩ := entered.holding.pass entered.anchored next
  rw [put'] at put
  cases put
  exact ⟨_, by rw [unlock_lock rfl], holding⟩

/-- What `dirlookup` has found. -/
theorem look {found : Option (Fin NINODE × Nat)} (entered : Entered sb fs d k fs₁) (listed : Listed sb fs.disk)
    (linked : Linked sb fs) (ran : dirlookup devsw sb k name ⟨fs₁, locks⟩ = .ok (found, c)) :
    found = none ∧ c = ⟨fs₁, locks⟩ ∨
      ∃ l o j fs₂, found = some (l, o) ∧ c = ⟨fs₂, locks⟩ ∧ Holding sb fs₁ j l fs₂ ∧ Anchored sb fs j := by
  have entry := (entered.holding.look devsw entered.locked listed entered.used entered.dir name locks).of_ok ran
  cases here : lookup sb fs.disk d (key name) with
  | none =>
    rw [here] at entry
    cases entry
    exact .inl ⟨rfl, rfl⟩
  | some j =>
    rw [here] at entry
    obtain ⟨l, o, fs₂, same, next⟩ := entry
    cases same
    exact .inr ⟨l, o, j, fs₂, rfl, rfl, next, linked.entries d j (lookup_child entered.used entered.dir here)⟩

/-- `dirlink` fails if the name is there already. -/
theorem dirlink_failed {inum : Nat} (entered : Entered sb fs d k fs₁) (listed : Listed sb fs.disk) (linked : Linked sb fs)
    (ran : dirlink devsw sb k name inum ⟨fs₁, locks⟩ = .ok (r, c)) (failed : r < 0) :
    ∃ fs₂, c = ⟨fs₂, locks⟩ ∧ Moves sb fs₁ 0 fs₂ := by
  obtain ⟨⟨found, c₁⟩, looked, ran⟩ := Steps.bind_ok ran
  rcases entered.look listed linked looked with ⟨rfl, rfl⟩ | ⟨l, o, j, fs₂, rfl, rfl, next, anchored⟩
  · -- an entry is written and 0 is returned
    obtain ⟨_, _, ran⟩ := Steps.bind_ok ran
    obtain ⟨_, _, ran⟩ := Steps.bind_ok ran
    dsimp only at ran
    split at ran
    · cases ran
    · cases ran
      exact absurd failed (lt_irrefl 0)
  · obtain ⟨c₂, put, same⟩ := Steps.bind_ok ran
    obtain ⟨fs₃, rfl, moves⟩ := next.put_ok (anchored.moved entered.holding.moves (one_nonneg k)) put
    cases same
    exact ⟨fs₃, rfl, moves⟩

end Entered

theorem Holding.enter (holding : Holding sb fs d k fs₁) (anchored : Anchored sb fs d)
    (dir : (dinode sb fs.disk d).type = T_DIR) (ran : ilock sb k ⟨fs₁, unlocked⟩ = .ok c) :
    ∃ fs₂, c = ⟨fs₂, Function.update unlocked k true⟩ ∧ Entered sb fs d k fs₂ := by
  obtain ⟨_, fs₂, rfl, locked, holding₂, used, _⟩ := holding.lock_ok ran
  exact ⟨fs₂, rfl, holding₂, locked, used, dir, anchored⟩

/-! ### Resolved paths -/

theorem walk_dir {parts : List (List Byte)} (walked : walk sb fs.disk true parts i = some d) :
    (dinode sb fs.disk d).type = T_DIR := by
  induction parts generalizing i with
  | nil => cases walked
  | cons part rest ih =>
    rw [walk] at walked
    split at walked
    next dir =>
      split at walked
      · cases walked
        exact dir
      · obtain ⟨j, _, walked⟩ := Option.bind_eq_some_iff.mp walked
        exact ih walked
    · cases walked

/-- Once the entry may be removed, `sys_unlink` does not fail. -/
theorem unlinkCommit_ok {off : Nat} {c₀ : Cache} (ran : unlinkCommit devsw sb k l off c₀ = .ok (r, c)) : r = 0 := by
  obtain ⟨⟨w, d, s⟩, _, ran⟩ := Steps.bind_ok ran
  dsimp only at ran
  split at ran
  · cases ran
  · obtain ⟨_, _, ran⟩ := Steps.bind_ok ran
    obtain ⟨_, _, ran⟩ := Steps.bind_ok ran
    cases ran
    rfl

section Resolve

variable (ordered : Ordered sb fs) (listed : Listed sb fs.disk) (linked : Linked sb fs) (busy : 0 < (fs.icache cwd).ref)

include ordered listed linked busy

theorem namei_ok {path : Path} {ip : Option (Fin NINODE)}
    (ran : namei devsw sb cwd path.bytes name ⟨fs, unlocked⟩ = .ok (ip, c)) : ∃ fs₁, c = ⟨fs₁, unlocked⟩ ∧
      (ip = none ∧ Moves sb fs 0 fs₁ ∨ ∃ i k, ip = some k ∧ Holding sb fs i k fs₁ ∧ Anchored sb fs i) := by
  obtain ⟨⟨ip', name', c'⟩, ran, same⟩ := Steps.bind_ok ran
  cases same
  obtain ⟨⟨unlocked, arrived⟩, _⟩ := (namex_ends devsw ordered listed linked busy path false name).of_ok ran
  refine ⟨c.toFileSystem, by rw [← unlocked], ?_⟩
  cases walked : walk sb fs.disk false (parts path.bytes) (start path.bytes (fs.icache cwd).inum) with
  | none =>
    rw [walked] at arrived
    exact .inl arrived
  | some i =>
    rw [walked] at arrived
    obtain ⟨k, same, holding, anchored⟩ := arrived
    exact .inr ⟨i, k, same, holding, anchored⟩

theorem nameiparent_ok {path : Path} {dp : Option (Fin NINODE)}
    (ran : nameiparent devsw sb cwd path.bytes name ⟨fs, unlocked⟩ = .ok (dp, name', c)) : ∃ fs₁, c = ⟨fs₁, unlocked⟩ ∧
      (dp = none ∧ Moves sb fs 0 fs₁ ∨
        ∃ d k, dp = some k ∧ Holding sb fs d k fs₁ ∧ Anchored sb fs d ∧ (dinode sb fs.disk d).type = T_DIR) := by
  obtain ⟨⟨unlocked, arrived⟩, _⟩ := (namex_ends devsw ordered listed linked busy path true name).of_ok ran
  refine ⟨c.toFileSystem, by rw [← unlocked], ?_⟩
  cases walked : walk sb fs.disk true (parts path.bytes) (start path.bytes (fs.icache cwd).inum) with
  | none =>
    rw [walked] at arrived
    exact .inl arrived
  | some d =>
    rw [walked] at arrived
    obtain ⟨k, same, holding, anchored⟩ := arrived
    exact .inr ⟨d, k, same, holding, anchored, walk_dir walked⟩

/-! ### `unlink` -/

theorem sysUnlink_failed {path : Option Path}
    (ran : sysUnlink devsw sb cwd name (path.map Path.bytes) ⟨fs, unlocked⟩ = .ok (-1, c)) :
    ∃ fs', c = ⟨fs', unlocked⟩ ∧ Moves sb fs 0 fs' := by
  cases path with
  | none =>
    cases ran
    exact ⟨fs, rfl, .refl ordered⟩
  | some path =>
    obtain ⟨⟨dp, name', c₁⟩, walked, ran⟩ := Steps.bind_ok ran
    obtain ⟨fs₁, rfl, ⟨rfl, moves⟩ | ⟨d, k, rfl, holding, anchored, dir⟩⟩ := nameiparent_ok ordered listed linked busy walked
    · cases ran
      exact ⟨fs₁, rfl, moves⟩
    obtain ⟨c₂, lock, ran⟩ := Steps.bind_ok ran
    obtain ⟨fs₂, rfl, entered⟩ := holding.enter anchored dir lock
    -- the label `bad`
    have bad : ∀ {fs₃ : FileSystem}, Moves sb fs₂ 0 fs₃ →
        unlinkBad sb k ⟨fs₃, Function.update unlocked k true⟩ = .ok (-1, c) →
        ∃ fs', c = ⟨fs', unlocked⟩ ∧ Moves sb fs 0 fs' := by
      intro fs₃ moves ran
      obtain ⟨c₃, put, same⟩ := Steps.bind_ok ran
      cases same
      exact (entered.moved moves).leave put
    have same := Moves.refl entered.locked.toOrdered
    dsimp only at ran
    split at ran
    · exact bad same ran
    obtain ⟨⟨found, c₃⟩, looked, ran⟩ := Steps.bind_ok ran
    rcases entered.look listed linked looked with ⟨rfl, rfl⟩ | ⟨l, o, j, fs₃, rfl, rfl, next, anchoredJ⟩
    · exact bad same ran
    obtain ⟨c₄, lock, ran⟩ := Steps.bind_ok ran
    obtain ⟨free, fs₄, rfl, locked, next₄, used, type⟩ := next.lock_ok lock
    dsimp only at ran
    split at ran
    · cases ran
    split at ran
    next isDirectory =>
      obtain ⟨⟨empty, c₅⟩, tested, ran⟩ := Steps.bind_ok ran
      rw [type] at isDirectory
      have listed₂ : Listed sb fs₂.disk := by rwa [entered.holding.moves.disk]
      rw [isdirempty_eq devsw (next₄.isDir locked listed₂ used isDirectory)] at tested
      cases tested
      dsimp only at ran
      split at ran
      · exact absurd (unlinkCommit_ok ran) (by decide)
      · obtain ⟨c₆, put, ran⟩ := Steps.bind_ok ran
        obtain ⟨fs₅, rfl, moves⟩ := next₄.unlockput_ok (anchoredJ.moved entered.holding.moves (one_nonneg k)) put
        rw [unlock_lock free] at ran
        exact bad moves ran
    · exact absurd (unlinkCommit_ok ran) (by decide)

/-! ### `mkdir` and `mknod` -/

theorem create_failed {path : Path} {type major minor : BitVec 16}
    (ran : create devsw sb cwd name path.bytes type major minor ⟨fs, unlocked⟩ = .ok (none, c)) :
    ∃ fs', c = ⟨fs', unlocked⟩ ∧ Moves sb fs 0 fs' := by
  obtain ⟨⟨dp, name', c₁⟩, walked, ran⟩ := Steps.bind_ok ran
  obtain ⟨fs₁, rfl, ⟨rfl, moves⟩ | ⟨d, k, rfl, holding, anchored, dir⟩⟩ := nameiparent_ok ordered listed linked busy walked
  · cases ran
    exact ⟨fs₁, rfl, moves⟩
  obtain ⟨c₂, lock, ran⟩ := Steps.bind_ok ran
  obtain ⟨fs₂, rfl, entered⟩ := holding.enter anchored dir lock
  obtain ⟨⟨found, c₃⟩, looked, ran⟩ := Steps.bind_ok ran
  rcases entered.look listed linked looked with ⟨rfl, rfl⟩ | ⟨l, o, j, fs₃, rfl, rfl, next, anchoredJ⟩
  · -- a new inode is returned
    obtain ⟨_, _, ran⟩ := Steps.bind_ok ran
    cases ran
  obtain ⟨c₄, put, ran⟩ := Steps.bind_ok ran
  obtain ⟨fs₄, rfl, next₅⟩ := entered.pass next put
  obtain ⟨c₅, lock, ran⟩ := Steps.bind_ok ran
  obtain ⟨_, fs₆, rfl, locked, next₆, _, _⟩ := next₅.lock_ok lock
  dsimp only at ran
  split at ran
  · cases ran
  · obtain ⟨c₆, put, ran⟩ := Steps.bind_ok ran
    obtain ⟨fs₇, rfl, moves⟩ := next₆.unlockput_ok anchoredJ put
    cases ran
    exact ⟨fs₇, by rw [unlock_lock rfl], moves⟩

omit ordered listed linked busy in
theorem made_failed {result : Option (Fin NINODE) × Cache} (ran : made sb result = .ok (-1, c)) : result = (none, c) := by
  obtain ⟨_ | ip, c'⟩ := result
  · cases ran
    rfl
  · obtain ⟨_, _, ran⟩ := Steps.bind_ok ran
    cases ran

theorem sysMkdir_failed {path : Option Path}
    (ran : sysMkdir devsw sb cwd name (path.map Path.bytes) ⟨fs, unlocked⟩ = .ok (-1, c)) :
    ∃ fs', c = ⟨fs', unlocked⟩ ∧ Moves sb fs 0 fs' := by
  cases path with
  | none =>
    cases ran
    exact ⟨fs, rfl, .refl ordered⟩
  | some path =>
    obtain ⟨result, created, ran⟩ := Steps.bind_ok ran
    cases made_failed ran
    exact create_failed ordered listed linked busy created

theorem sysMknod_failed {path : Option Path} {major minor : Option Int}
    (ran : sysMknod devsw sb cwd name (path.map Path.bytes) major minor ⟨fs, unlocked⟩ = .ok (-1, c)) :
    ∃ fs', c = ⟨fs', unlocked⟩ ∧ Moves sb fs 0 fs' := by
  cases path with
  | none =>
    cases ran
    exact ⟨fs, rfl, .refl ordered⟩
  | some path =>
    cases major with
    | none =>
      cases ran
      exact ⟨fs, rfl, .refl ordered⟩
    | some major =>
      cases minor with
      | none =>
        cases ran
        exact ⟨fs, rfl, .refl ordered⟩
      | some minor =>
        obtain ⟨result, created, ran⟩ := Steps.bind_ok ran
        cases made_failed ran
        exact create_failed ordered listed linked busy created

end Resolve

/-! ### `link` -/

/-- Inode `i` has `n` links, and nothing else has changed. -/
structure Relinked (sb : Superblock) (d e : Nat → Block) (i : Nat) (n : BitVec 16) : Prop where
  inodes : ∀ j < sb.ninodes, dinode sb e j = if j = i then { dinode sb d i with nlink := n } else dinode sb d j
  addr : ∀ m, shape.IsNode m → (trees sb (dinode sb e) e).addr m = (trees sb (dinode sb d) d).addr m
  data : ∀ a, sb.nmeta ≤ a → e a = d a
  bits : ∀ b < sb.size, marked sb e b = marked sb d b

namespace Relinked

variable {disk disk₁ disk₂ : Nat → Block} {n m : BitVec 16}

theorem trans (first : Relinked sb disk disk₁ i n) (second : Relinked sb disk₁ disk₂ i m) (inside : i < sb.ninodes) :
    Relinked sb disk disk₂ i m := by
  refine ⟨fun j small => ?_, fun a node => (second.addr a node).trans (first.addr a node),
    fun a high => (second.data a high).trans (first.data a high), fun b small => (second.bits b small).trans (first.bits b small)⟩
  rw [second.inodes j small, first.inodes i inside, first.inodes j small, if_pos rfl]
  split <;> rfl

theorem type_eq (relinked : Relinked sb disk disk₁ i n) (inside : j < sb.ninodes) :
    (dinode sb disk₁ j).type = (dinode sb disk j).type ∧ (dinode sb disk₁ j).size = (dinode sb disk j).size := by
  rw [relinked.inodes j inside]
  split
  next here => exact ⟨by rw [here], by rw [here]⟩
  · exact ⟨rfl, rfl⟩

theorem inUse_iff (relinked : Relinked sb disk disk₁ i n) : InUse sb (dinode sb disk₁) j ↔ InUse sb (dinode sb disk) j :=
  and_congr_right fun _ => and_congr_right fun inside => by rw [(relinked.type_eq inside).1]

theorem contents_eq (relinked : Relinked sb disk disk₁ i n) (image : Image sb (dinode sb disk) disk)
    (used : InUse sb (dinode sb disk) j) (file : (dinode sb disk j).type ≠ T_DEV) :
    contents sb (dinode sb disk₁) disk₁ j = contents sb (dinode sb disk) disk j :=
  contents_congr (relinked.type_eq used.2.1).2 (image.filled j used file) relinked.addr
    fun b owned => relinked.data b (image.inData b owned).1

theorem child_iff (relinked : Relinked sb disk disk₁ i n) (image : Image sb (dinode sb disk) disk) :
    Child sb disk₁ d j ↔ Child sb disk d j := by
  unfold Child
  rw [relinked.inUse_iff]
  refine and_congr_right fun used => ?_
  rw [(relinked.type_eq used.2.1).1]
  refine and_congr_right fun dir => ?_
  rw [relinked.contents_eq image used (by rw [dir]; decide)]

theorem listed (relinked : Relinked sb disk disk₁ i n) (image : Image sb (dinode sb disk) disk) (listed : Listed sb disk) :
    Listed sb disk₁ := by
  refine ⟨listed.root, fun j used dir => ?_, fun j l child => listed.entries j l ((relinked.child_iff image).mp child)⟩
  have used' := relinked.inUse_iff.mp used
  rw [(relinked.type_eq used.2.1).1] at dir
  rw [(relinked.type_eq used.2.1).2]
  exact listed.aligned j used' dir

end Relinked

theorem relink (locks : Fin NINODE → Bool) (valid : sb.Valid) (locked : Locked sb fs k) (n : BitVec 16) (change : Inode → Inode)
    (same : change (fs.icache k) = { fs.icache k with nlink := n }) :
    ∃ fs', update sb k change ⟨fs, locks⟩ = ⟨fs', locks⟩ ∧ Shift sb fs 0 fs' ∧
      Relinked sb fs.disk fs'.disk (fs.icache k).inum n := by
  have entry : ∀ (ip : Inode) (s : State), ip.inum = (fs.icache k).inum → ip.ref = (fs.icache k).ref →
      ip.valid = (fs.icache k).valid → ∀ m, ((fs.store k ip s).icache m).ref = (fs.icache m).ref + (0 : Fin NINODE → Int) m ∧
        ((fs.store k ip s).icache m).inum = (fs.icache m).inum ∧ ((fs.store k ip s).icache m).valid = (fs.icache m).valid := by
    intro ip s inum ref valid m
    by_cases here : m = k
    · subst here
      rw [store_icache_self]
      exact ⟨ref.trans (add_zero _).symm, inum, valid⟩
    · rw [store_icache_ne _ here]
      exact ⟨(add_zero _).symm, rfl, rfl⟩
  refine ⟨_, rfl, ?_, ?_⟩
  · dsimp only [Cache.put]
    rw [same]
    have entries := entry { fs.icache k with nlink := n } (iupdate sb { fs.icache k with nlink := n } fs.toState) rfl rfl rfl
    refine ⟨Locked.update valid locked rfl rfl rfl rfl, fun m => (entries m).1, fun m _ => (entries m).2.1, ?_⟩
    intro m _ old
    rw [(entries m).2.2, old]
  · obtain ⟨changed, _, addr⟩ := Locked.stored_back valid locked
      (show ({ fs.icache k with nlink := n } : Inode).inum = _ from rfl) rfl rfl rfl
    dsimp only [Cache.put, store_disk]
    rw [same]
    refine ⟨fun j small => ?_, addr, changed.data, changed.bits⟩
    rw [changed.inodes j small, locked.stored]

/-- The label `bad` of `sys_link` takes the new link back. -/
theorem linkBad_ok {fs₃ fs₄ : FileSystem} (valid : sb.Valid) (holding : Holding sb fs i k fs₂) (locked : Locked sb fs₂ k)
    (anchored : Anchored sb fs i) (shift : Shift sb fs₂ 0 fs₃)
    (relinked : Relinked sb fs.disk fs₃.disk i ((dinode sb fs.disk i).nlink + 1)) (moves : Moves sb fs₃ 0 fs₄)
    (ran : linkBad sb k ⟨fs₄, unlocked⟩ = .ok (r, c)) :
    ∃ fs', c = ⟨fs', unlocked⟩ ∧ Shift sb fs 0 fs' ∧ Relinked sb fs.disk fs'.disk i (dinode sb fs.disk i).nlink := by
  have inside : i < sb.ninodes := by
    have range := locked.inum k locked.busy
    rw [holding.inum] at range
    exact range.2
  have zero : ∀ m : Fin NINODE, 0 ≤ (0 : Fin NINODE → Int) m := fun _ => le_refl 0
  obtain ⟨c₅, lock, ran⟩ := Steps.bind_ok ran
  obtain ⟨_, busy, fs₅, loaded, rfl⟩ := ilock_inv lock
  -- the inode is still the same
  have shift₄ : Shift sb fs (one k) fs₄ := by
    have sum := (holding.moves.toShift.trans (one_nonneg k) shift).trans (by simpa using one_nonneg k) moves.toShift
    rwa [add_zero, add_zero] at sum
  have inum₂ := holding.inum
  have inum₄ : (fs₄.icache k).inum = i := by
    rw [moves.inum k (shift.still zero holding.busy), shift.inum k holding.busy, inum₂]
  have typed : (dinode sb fs₄.disk (fs₄.icache k).inum).type ≠ 0 := by
    have stored := locked.stored
    rw [inum₂, holding.moves.disk] at stored
    rw [inum₄, moves.disk, (relinked.type_eq inside).1, stored]
    exact locked.type
  obtain ⟨_, loaded', locked₅, moves₅⟩ := ilock_moves shift₄.ordered busy typed
  rw [loaded'] at loaded
  cases loaded
  have inum₅ : (fs₅.icache k).inum = i := by rw [moves₅.inum k busy, inum₄]
  have links : (fs₅.icache k).nlink = (dinode sb fs.disk i).nlink + 1 := by
    have stored := congrArg Dinode.nlink locked₅.stored
    rw [inum₅, moves₅.disk, moves.disk, relinked.inodes i inside, if_pos rfl] at stored
    exact stored.symm
  have back : (fs₅.icache k).nlink - 1 = (dinode sb fs.disk i).nlink := by rw [links, BitVec.add_sub_cancel]
  obtain ⟨fs₆, updated, shift₆, relinked₆⟩ := relink (Function.update unlocked k true) valid locked₅
    (dinode sb fs.disk i).nlink (fun ip => { ip with nlink := ip.nlink - 1 }) (by dsimp only; rw [back])
  dsimp only at ran
  rw [updated] at ran
  obtain ⟨c₇, put, ran⟩ := Steps.bind_ok ran
  cases ran
  obtain ⟨_, busy₆, fs₇, dropped, rfl⟩ := iunlockput_inv put
  -- and so is the reference to it
  rw [inum₅, moves₅.disk, moves.disk] at relinked₆
  have whole := relinked.trans relinked₆ inside
  have shift₅ : Shift sb fs (one k) fs₆ := by
    have sum := (shift₄.trans (one_nonneg k) moves₅.toShift).trans (by simpa using one_nonneg k) shift₆
    rwa [add_zero, add_zero] at sum
  have inum₆ : (fs₆.icache k).inum = i := by rw [shift₆.inum k locked₅.busy, inum₅]
  have inode : dinode sb fs₆.disk i = dinode sb fs.disk i := by rw [whole.inodes i inside, if_pos rfl]
  obtain ⟨_, dropped', moves₇, _⟩ := iput_moves shift₅.ordered busy₆
    (anchored.kept shift₅ (one_nonneg k) inode (by rw [one_self]; decide) inum₆ busy₆)
  rw [dropped'] at dropped
  cases dropped
  have total := shift₅.trans (one_nonneg k) moves₇.toShift
  rw [add_neg_cancel] at total
  refine ⟨fs₇, by rw [unlock_lock rfl], total, ?_⟩
  rw [moves₇.disk]
  exact whole

theorem Anchored.relinked {n : BitVec 16} (anchored : Anchored sb fs j) (shift : Shift sb fs (one k) fs₁)
    (relinked : Relinked sb fs.disk fs₁.disk i n) (inum : (fs₁.icache k).inum = i) (busy : 0 < (fs₁.icache k).ref)
    (inside : j < sb.ninodes) : Anchored sb fs₁ j := by
  by_cases here : j = i
  · exact .inr (.inr ⟨k, busy, inum.trans here.symm⟩)
  · have same := relinked.inodes j inside
    rw [if_neg here] at same
    unfold Anchored
    rw [same]
    refine anchored.imp_right (Or.imp_right ?_)
    rintro ⟨m, used, number⟩
    exact ⟨m, shift.still (one_nonneg k) used, by rw [shift.inum m used, number]⟩

theorem sysLink_failed {old new : Option Path} (valid : sb.Valid) (ordered : Ordered sb fs) (listed : Listed sb fs.disk)
    (linked : Linked sb fs) (busy : 0 < (fs.icache cwd).ref)
    (ran : sysLink devsw sb cwd name (old.map Path.bytes) (new.map Path.bytes) ⟨fs, unlocked⟩ = .ok (-1, c)) :
    ∃ fs', c = ⟨fs', unlocked⟩ ∧ Shift sb fs 0 fs' ∧
      (fs'.disk = fs.disk ∨ ∃ i < sb.ninodes, Relinked sb fs.disk fs'.disk i (dinode sb fs.disk i).nlink) := by
  have kept : ∀ {fs'}, Moves sb fs 0 fs' → ∃ fs₁, (⟨fs', unlocked⟩ : Cache) = ⟨fs₁, unlocked⟩ ∧ Shift sb fs 0 fs₁ ∧
      (fs₁.disk = fs.disk ∨ ∃ i < sb.ninodes, Relinked sb fs.disk fs₁.disk i (dinode sb fs.disk i).nlink) :=
    fun moves => ⟨_, rfl, moves.toShift, .inl moves.disk⟩
  cases old with
  | none =>
    cases ran
    exact kept (.refl ordered)
  | some old =>
    cases new with
    | none =>
      cases ran
      exact kept (.refl ordered)
    | some new =>
      obtain ⟨⟨ip, c₁⟩, walked, ran⟩ := Steps.bind_ok ran
      obtain ⟨fs₁, rfl, ⟨rfl, moves⟩ | ⟨i, k, rfl, holding, anchored⟩⟩ := namei_ok ordered listed linked busy walked
      · cases ran
        exact kept moves
      obtain ⟨c₂, lock, ran⟩ := Steps.bind_ok ran
      obtain ⟨_, fs₂, rfl, locked, holding₂, used, type⟩ := holding.lock_ok lock
      dsimp only at ran
      split at ran
      · obtain ⟨c₃, put, ran⟩ := Steps.bind_ok ran
        obtain ⟨fs₃, rfl, moves⟩ := holding₂.unlockput_ok anchored put
        cases ran
        rw [unlock_lock rfl]
        exact kept moves
      -- the new link is counted
      have disk := holding₂.moves.disk
      have links : (fs₂.icache k).nlink = (dinode sb fs.disk i).nlink := by
        have stored := congrArg Dinode.nlink locked.stored
        rw [holding₂.inum, disk] at stored
        exact stored.symm
      obtain ⟨fs₃, updated, shift, relinked⟩ := relink (Function.update unlocked k true) valid locked
        ((dinode sb fs.disk i).nlink + 1) (fun ip => { ip with nlink := ip.nlink + 1 }) (by dsimp only; rw [links])
      rw [holding₂.inum, disk] at relinked
      rw [updated] at ran
      obtain ⟨c₃, unlock, ran⟩ := Steps.bind_ok ran
      obtain ⟨_, busy₃, rfl⟩ := iunlock_inv unlock
      rw [unlock_lock rfl] at ran
      have shift₃ : Shift sb fs (one k) fs₃ := by
        have sum := holding₂.moves.toShift.trans (one_nonneg k) shift
        rwa [add_zero] at sum
      have inum₃ : (fs₃.icache k).inum = i := by rw [shift.inum k holding₂.busy, holding₂.inum]
      have listed₃ := relinked.listed ordered.image listed
      have linked₃ : Linked sb fs₃ := by
        refine ⟨linked.root.relinked shift₃ relinked inum₃ busy₃ listed.root, fun d j child => ?_⟩
        have child' := (relinked.child_iff ordered.image).mp child
        exact (linked.entries d j child').relinked shift₃ relinked inum₃ busy₃ (listed.entries d j child').2
      -- from here on the label `bad` is the only way to return -1
      have bad : ∀ {fs₄ : FileSystem}, Moves sb fs₃ 0 fs₄ → linkBad sb k ⟨fs₄, unlocked⟩ = .ok (-1, c) →
          ∃ fs', c = ⟨fs', unlocked⟩ ∧ Shift sb fs 0 fs' ∧
            (fs'.disk = fs.disk ∨ ∃ i < sb.ninodes, Relinked sb fs.disk fs'.disk i (dinode sb fs.disk i).nlink) := by
        intro fs₄ moves ran
        obtain ⟨fs', same, total, whole⟩ := linkBad_ok valid holding₂ locked anchored shift relinked moves ran
        exact ⟨fs', same, total, .inr ⟨i, used.2.1, whole⟩⟩
      obtain ⟨⟨dp, name', c₄⟩, walked, ran⟩ := Steps.bind_ok ran
      obtain ⟨fs₄, rfl, ⟨rfl, moves⟩ | ⟨d, kd, rfl, holdingD, anchoredD, dir⟩⟩ := nameiparent_ok shift₃.ordered listed₃ linked₃
        (shift₃.still (one_nonneg k) busy) walked
      · exact bad moves ran
      obtain ⟨c₅, lock, ran⟩ := Steps.bind_ok ran
      obtain ⟨fs₅, rfl, entered⟩ := holdingD.enter anchoredD dir lock
      obtain ⟨⟨r, c₆⟩, wrote, ran⟩ := Steps.bind_ok ran
      dsimp only at ran
      split at ran
      next failed =>
        obtain ⟨fs₆, rfl, moves⟩ := entered.dirlink_failed listed₃ linked₃ wrote failed
        obtain ⟨c₇, put, ran⟩ := Steps.bind_ok ran
        obtain ⟨fs₇, rfl, moves⟩ := (entered.moved moves).leave put
        exact bad moves ran
      · obtain ⟨_, _, ran⟩ := Steps.bind_ok ran
        obtain ⟨_, _, ran⟩ := Steps.bind_ok ran
        cases ran

/-! ### Failed calls -/

/-- Inodes, files, bitmap and references are the same. -/
structure Unchanged (sb : Superblock) (fs fs' : FileSystem) : Prop where
  inodes : ∀ i < sb.ninodes, dinode sb fs'.disk i = dinode sb fs.disk i
  entries : ∀ i, InUse sb (dinode sb fs.disk) i → (dinode sb fs.disk i).type = T_DIR →
    slots (contents sb (dinode sb fs'.disk) fs'.disk i) = slots (contents sb (dinode sb fs.disk) fs.disk i)
  bitmap : ∀ b < sb.size, marked sb fs'.disk b = marked sb fs.disk b
  refs : ∀ i, refs fs' i = refs fs i

theorem Moves.unchanged (moves : Moves sb fs 0 fs₁) : Unchanged sb fs fs₁ := by
  have disk := moves.disk
  exact ⟨fun _ _ => by rw [disk], fun _ _ _ => by rw [disk], fun _ _ => by rw [disk], moves.refs_eq⟩

theorem Relinked.unchanged (relinked : Relinked sb fs.disk fs₁.disk i (dinode sb fs.disk i).nlink) (ordered : Ordered sb fs)
    (shift : Shift sb fs 0 fs₁) : Unchanged sb fs fs₁ := by
  refine ⟨fun j inside => ?_, fun j used dir => ?_, relinked.bits, shift.refs_eq⟩
  · rw [relinked.inodes j inside]
    split
    next here => rw [here]
    · rfl
  · rw [relinked.contents_eq ordered.image used (by rw [dir]; decide)]

end Xv6.Names
