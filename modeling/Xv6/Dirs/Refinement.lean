import Xv6.Dirs.Operations
import Xv6.Lib.System

/-!
# Directories are finite maps

On a directory that holds no key twice, `dirlookup`, `dirlink` and removals are the operations of a finite
map from keys to inode numbers. An operation has to find room in the inode cache, and blocks if the
directory grows. And `dirlink` has to find another inode than the directory itself when the key is there.
-/

namespace Xv6.Dirs

open Bytes Fs Steps
open Function (update)

variable {devsw : Devsw} {sb : Superblock} {k : Fin NINODE} {fs fs' : FileSystem} {name : Str} {inum : Nat}

/-- The table of the directory in the entry `k` of the inode cache. -/
def entries (sb : Superblock) (k : Fin NINODE) (fs : FileSystem) : List (Option (List Byte × Nat)) :=
  slots (listing sb (fs.icache k) fs.toState)

/-- The map of the directory. -/
def bindings (sb : Superblock) (k : Fin NINODE) (fs : FileSystem) : List Byte → Option Nat :=
  Slots.toMap (entries sb k fs)

/-- A directory in order, referenced and locked, that holds no key twice. -/
structure Directory (sb : Superblock) (k : Fin NINODE) (fs : FileSystem) : Prop where
  dir : IsDir sb (fs.icache k) fs.toState
  busy : 0 < (fs.icache k).ref
  unique : Slots.Unique (entries sb k fs)

theorem lift_ok {α : Type} {x : Except Panic α} {a : α} (ran : x = .ok a) : lift x = .ok a := by
  rw [ran]
  rfl

theorem Directory.borrow (directory : Directory sb k fs) (state : fs'.toState = fs.toState) {ref : Int} (busy : 0 < ref)
    (inode : fs'.icache k = { fs.icache k with ref }) : Directory sb k fs' ∧ entries sb k fs' = entries sb k fs := by
  have same : entries sb k fs' = entries sb k fs := by
    rw [entries, inode, state]
    rfl
  refine ⟨⟨?_, by rw [inode]; exact busy, same ▸ directory.unique⟩, same⟩
  have dir := directory.dir
  rw [inode, state]
  exact ⟨dir.inum, dir.type, dir.fits, dir.image, dir.aligned⟩

theorem Directory.write {dp : Inode} {s : State} {j : Nat} {src : List Byte} (directory : Directory sb k fs)
    (wrote : Wrote sb (fs.icache k) fs.toState j src dp s) (unique : Slots.Unique (Slots.put (entries sb k fs) j (dirent src).binding)) :
    Directory sb k (fs.store k dp s) ∧ entries sb k (fs.store k dp s) = Slots.put (entries sb k fs) j (dirent src).binding := by
  have same : entries sb k (fs.store k dp s) = Slots.put (entries sb k fs) j (dirent src).binding := by
    rw [entries, store_icache_self]
    exact wrote.slots
  refine ⟨⟨?_, ?_, same ▸ unique⟩, same⟩
  · rw [store_icache_self]
    exact wrote.dir
  · rw [store_icache_self, wrote.ref]
    exact directory.busy

/-! ### Lookup -/

theorem dirlookup_eq (dir : IsDir sb (fs.icache k) fs.toState) : dirlookup devsw sb k name fs =
    match Slots.find (key name) (entries sb k fs) with
    | none => .ok (none, fs)
    | some (j, inum) => (lift (iget inum fs)).map fun (ip, fs) => (some (ip, direntSize * j), fs) := by
  have loop := lookupLoop_eq dir devsw name (Nat.zero_le _)
    (show (fs.icache k).size / direntSize < 0 + ((fs.icache k).size / direntSize + 1) by omega)
  rw [Nat.mul_zero, List.drop_zero] at loop
  unfold dirlookup
  rw [if_neg (not_not.mpr dir.type), ok_bind loop]
  dsimp only
  rw [store_self]
  change _ = match Slots.find (key name) (slots (listing sb (fs.icache k) fs.toState)) with
    | none => _
    | some (j, inum) => _
  cases Slots.find (key name) (slots (listing sb (fs.icache k) fs.toState)) with
  | none => rfl
  | some found =>
    dsimp only [Option.map_some]
    rw [Nat.zero_add]
    cases lift (iget found.2 fs) <;> rfl

theorem dirlookup_none (directory : Directory sb k fs) (absent : bindings sb k fs (key name) = none) :
    dirlookup devsw sb k name fs = .ok (none, fs) := by
  rw [dirlookup_eq directory.dir, Option.map_eq_none_iff.mp absent]

theorem dirlookup_some (devsw : Devsw) (directory : Directory sb k fs) (bound : bindings sb k fs (key name) = some inum)
    (room : Room fs inum) :
    ∃ j ip fs', (entries sb k fs)[j]? = some (some (key name, inum)) ∧ Borrowed fs inum ip fs' ∧
      dirlookup devsw sb k name fs = .ok (some (ip, direntSize * j), fs') := by
  obtain ⟨⟨j, inum'⟩, found, rfl⟩ := Option.map_eq_some_iff.mp bound
  obtain ⟨ip, fs', got, borrowed⟩ := iget_room room
  refine ⟨j, ip, fs', Slots.getElem?_of_find found, borrowed, ?_⟩
  rw [dirlookup_eq directory.dir, found]
  dsimp only
  rw [lift_ok got]
  rfl

/-! ### The operations -/

/-- `dirlookup` finds exactly the inode that is bound and the offset of its entry. -/
def Finds (devsw : Devsw) (sb : Superblock) (k : Fin NINODE) (fs : FileSystem) (name : Str) : Prop :=
  match bindings sb k fs (key name) with
  | none => dirlookup devsw sb k name fs = .ok (none, fs)
  | some inum => ∃ j ip fs', (entries sb k fs)[j]? = some (some (key name, inum)) ∧
      dirlookup devsw sb k name fs = .ok (some (ip, direntSize * j), fs') ∧
      (fs'.icache ip).inum = inum ∧ 0 < (fs'.icache ip).ref ∧ fs'.toState = fs.toState ∧
      entries sb k fs' = entries sb k fs

/-- `dirlink` returns -1 and changes nothing if the key is bound, else it binds it, in the first empty
entry; the directory grows if there is none. -/
def Links (devsw : Devsw) (sb : Superblock) (k : Fin NINODE) (fs : FileSystem) (name : Str) (inum : Nat) : Prop :=
  match bindings sb k fs (key name) with
  | some _ => ∃ fs', dirlink devsw sb k name inum fs = .ok (-1, fs') ∧ fs'.toState = fs.toState ∧
      (∀ m, (fs'.icache m).ref = (fs.icache m).ref) ∧ ∀ m, 0 < (fs.icache m).ref → fs'.icache m = fs.icache m
  | none => ∃ fs', dirlink devsw sb k name inum fs = .ok (0, fs') ∧
      bindings sb k fs' = update (bindings sb k fs) (key name) (some inum) ∧
      entries sb k fs' = Slots.put (entries sb k fs) (Slots.hole (entries sb k fs)) (some (key name, inum)) ∧
      (fs'.icache k).size = if none ∈ entries sb k fs then (fs.icache k).size else (fs.icache k).size + direntSize

/-- The names that `sys_unlink` refuses. -/
def Dots (name : Str) : Prop := key name = [0x2e] ∨ key name = [0x2e, 0x2e]

instance (name : Str) : Decidable (Dots name) := by
  unfold Dots
  infer_instance

/-- The removal clears the entry of the key, if there is one. -/
def Unlinks (devsw : Devsw) (sb : Superblock) (k : Fin NINODE) (fs : FileSystem) (name : Str) : Prop :=
  if Dots name then unlinkEntry devsw sb k name fs = .ok (none, fs)
  else
    match bindings sb k fs (key name) with
    | none => unlinkEntry devsw sb k name fs = .ok (none, fs)
    | some inum => ∃ j ip fs', (entries sb k fs)[j]? = some (some (key name, inum)) ∧
        unlinkEntry devsw sb k name fs = .ok (some ip, fs') ∧
        bindings sb k fs' = update (bindings sb k fs) (key name) none ∧
        entries sb k fs' = Slots.put (entries sb k fs) j none ∧ (fs'.icache k).size = (fs.icache k).size

theorem finds (directory : Directory sb k fs) (room : ∀ inum, bindings sb k fs (key name) = some inum → Room fs inum) :
    Finds devsw sb k fs name := by
  unfold Finds
  split
  next absent => exact dirlookup_none directory absent
  next inum bound =>
    obtain ⟨j, ip, fs', is, borrowed, ran⟩ := dirlookup_some devsw directory bound (room inum bound)
    obtain ⟨ref, busy, inode⟩ := borrowed.own directory.busy
    exact ⟨j, ip, fs', is, ran, borrowed.inode.1, borrowed.inode.2, borrowed.toState,
      (directory.borrow borrowed.toState busy inode).2⟩

theorem dirlink_none (devsw : Devsw) (valid : sb.Valid) (directory : Directory sb k fs) (absent : bindings sb k fs (key name) = none)
    (some_ : 1 ≤ inum) (small : inum < 65536)
    (grow : none ∈ entries sb k fs ∨
      (fs.icache k).size + direntSize ≤ MAXFILE * BSIZE ∧ 4 ≤ (freeBlocks sb fs.disk).card) :
    ∃ fs', dirlink devsw sb k name inum fs = .ok (0, fs') ∧ Directory sb k fs' ∧
      bindings sb k fs' = update (bindings sb k fs) (key name) (some inum) ∧
      entries sb k fs' = Slots.put (entries sb k fs) (Slots.hole (entries sb k fs)) (some (key name, inum)) ∧
      (fs'.icache k).size = if none ∈ entries sb k fs then (fs.icache k).size else (fs.icache k).size + direntSize := by
  have dir := directory.dir
  have count : (entries sb k fs).length = (fs.icache k).size / direntSize := dir.count
  have loop := emptyLoop_eq dir devsw (Nat.zero_le _)
    (show (fs.icache k).size / direntSize < 0 + ((fs.icache k).size / direntSize + 1) by omega)
  rw [Nat.mul_zero, List.drop_zero, Nat.zero_add] at loop
  change _ = Except.ok (direntSize * Slots.hole (entries sb k fs), _, _) at loop
  have inside : Slots.hole (entries sb k fs) ≤ (fs.icache k).size / direntSize := count ▸ Slots.hole_le
  have free : Slots.hole (entries sb k fs) < (fs.icache k).size / direntSize ↔ none ∈ entries sb k fs := by
    rw [← count, Slots.hole_lt_iff]
  have entry := binding_bytes name some_ small
  obtain ⟨dp, s, ran, wrote⟩ := writei_entry valid dir devsw
    (Dirent.bytes { inum, name := strncpy DIRSIZ name }) inside (by simp [Dirent.bytes])
    (grow.imp_left free.mpr)
  have unique := directory.unique.put_hole (v := inum) absent
  obtain ⟨directory', same⟩ := directory.write wrote (by rw [entry]; exact unique)
  rw [entry] at same
  refine ⟨fs.store k dp s, ?_, directory', ?_, same, ?_⟩
  · unfold dirlink
    rw [ok_bind (dirlookup_none directory absent)]
    dsimp only
    rw [ok_bind loop]
    dsimp only
    rw [ok_bind (lift_ok ran)]
    exact if_neg (not_not.mpr rfl)
  · rw [bindings, same]
    exact directory.unique.toMap_put_hole absent
  · rw [store_icache_self, wrote.size]
    simp only [free]

theorem dirlink_some (devsw : Devsw) (inum : Nat) {bound : Nat} (directory : Directory sb k fs) (present : bindings sb k fs (key name) = some bound)
    (room : Room fs bound) (other : bound ≠ (fs.icache k).inum) :
    ∃ fs', dirlink devsw sb k name inum fs = .ok (-1, fs') ∧ fs'.toState = fs.toState ∧
      (∀ m, (fs'.icache m).ref = (fs.icache m).ref) ∧ ∀ m, 0 < (fs.icache m).ref → fs'.icache m = fs.icache m := by
  obtain ⟨j, ip, fs₁, is, borrowed, ran⟩ := dirlookup_some devsw directory present room
  obtain ⟨fs', put, kept⟩ := borrowed.iput sb
  refine ⟨fs', ?_, kept⟩
  unfold dirlink
  rw [ok_bind ran]
  dsimp only
  rw [if_neg (borrowed.ne directory.busy other.symm), ok_bind (lift_ok put)]

/-- A key that is bound to the directory itself: `iput` waits for the lock of the caller. -/
theorem dirlink_own (directory : Directory sb k fs) (present : bindings sb k fs (key name) = some (fs.icache k).inum)
    {fs₁ : FileSystem} (got : iget (fs.icache k).inum fs = .ok (k, fs₁)) :
    dirlink devsw sb k name inum fs = .error .asleep := by
  obtain ⟨⟨j, inum'⟩, found, same⟩ := Option.map_eq_some_iff.mp present
  dsimp only at same
  have ran : dirlookup devsw sb k name fs = .ok (some (k, direntSize * j), fs₁) := by
    rw [dirlookup_eq directory.dir, found]
    dsimp only
    rw [same, lift_ok got]
    rfl
  unfold dirlink
  rw [ok_bind ran]
  exact if_pos rfl

theorem unlinkEntry_some (devsw : Devsw) (valid : sb.Valid) (directory : Directory sb k fs) (plain : ¬Dots name)
    (present : bindings sb k fs (key name) = some inum) (room : Room fs inum) :
    ∃ j ip fs', (entries sb k fs)[j]? = some (some (key name, inum)) ∧
      unlinkEntry devsw sb k name fs = .ok (some ip, fs') ∧ Directory sb k fs' ∧
      bindings sb k fs' = update (bindings sb k fs) (key name) none ∧
      entries sb k fs' = Slots.put (entries sb k fs) j none ∧ (fs'.icache k).size = (fs.icache k).size := by
  obtain ⟨j, ip, fs₁, is, borrowed, ran⟩ := dirlookup_some devsw directory present room
  obtain ⟨ref, busy, inode⟩ := borrowed.own directory.busy
  obtain ⟨directory₁, same₁⟩ := directory.borrow borrowed.toState busy inode
  have inside : j < (entries sb k fs).length := (List.getElem?_eq_some_iff.mp is).1
  have count : (entries sb k fs₁).length = (fs₁.icache k).size / direntSize := directory₁.dir.count
  have within : j < (fs₁.icache k).size / direntSize := by rwa [← count, same₁]
  obtain ⟨dp, s, wrote_, wrote⟩ := writei_entry valid directory₁.dir devsw (List.replicate direntSize 0)
    (Nat.le_of_lt within) List.length_replicate (.inl within)
  have unique : Slots.Unique (Slots.put (entries sb k fs₁) j none) := directory₁.unique.clear (by rw [same₁]; omega)
  obtain ⟨directory', same'⟩ := directory₁.write wrote (by rw [binding_zero]; exact unique)
  rw [binding_zero, same₁] at same'
  refine ⟨j, ip, fs₁.store k dp s, is, ?_, directory', ?_, same', ?_⟩
  · unfold unlinkEntry
    rw [if_neg]
    · rw [ok_bind ran]
      dsimp only
      rw [ok_bind (lift_ok wrote_)]
      exact if_neg (not_not.mpr rfl)
    · rw [namecmp_eq_zero_iff, namecmp_eq_zero_iff]
      exact plain
  · rw [bindings, same']
    exact directory.unique.toMap_clear is
  · rw [store_icache_self, wrote.size, if_pos within, inode]

theorem unlinkEntry_none (directory : Directory sb k fs) (absent : Dots name ∨ bindings sb k fs (key name) = none) :
    unlinkEntry devsw sb k name fs = .ok (none, fs) := by
  unfold unlinkEntry
  split
  · rfl
  next plain =>
    rw [namecmp_eq_zero_iff, namecmp_eq_zero_iff] at plain
    rw [dirlookup_none directory (absent.resolve_left plain)]
    rfl

/-! ### Runs -/

inductive Event where
  | lookup (name : Str)
  | link (name : Str) (inum : Nat)
  | unlink (name : Str)
  /-- something else happens in the file system -/
  | others (fs : FileSystem)

def step (devsw : Devsw) (sb : Superblock) (k : Fin NINODE) (fs : FileSystem) : Event → Option FileSystem
  | .lookup name => (dirlookup devsw sb k name fs).toOption.map Prod.snd
  | .link name inum => (dirlink devsw sb k name inum fs).toOption.map Prod.snd
  | .unlink name => (unlinkEntry devsw sb k name fs).toOption.map Prod.snd
  | .others fs' => some fs'

/-- Runs on the directory in the entry `k` of the inode cache. -/
def directory (devsw : Devsw) (sb : Superblock) (k : Fin NINODE) : System FileSystem Event where
  init := Directory sb k
  step := step devsw sb k

/-- The rest of the file system leaves the locked directory alone. -/
structure Leaves (sb : Superblock) (k : Fin NINODE) (fs fs' : FileSystem) : Prop where
  inode : ∃ ref, 0 < ref ∧ fs'.icache k = { fs.icache k with ref }
  image : Image sb (table sb (fs'.icache k) fs'.disk) fs'.disk
  contents : listing sb (fs'.icache k) fs'.toState = listing sb (fs.icache k) fs.toState

/-- What an operation needs. -/
def Meets (sb : Superblock) (k : Fin NINODE) (fs : FileSystem) : Event → Prop
  | .lookup name | .unlink name => ∀ inum, bindings sb k fs (key name) = some inum → Room fs inum
  | .link name inum => 1 ≤ inum ∧ inum < 65536 ∧
      (∀ bound, bindings sb k fs (key name) = some bound → Room fs bound ∧ bound ≠ (fs.icache k).inum) ∧
      (bindings sb k fs (key name) = none → none ∈ entries sb k fs ∨
        (fs.icache k).size + direntSize ≤ MAXFILE * BSIZE ∧ 4 ≤ (freeBlocks sb fs.disk).card)
  | .others fs' => Leaves sb k fs fs'

theorem links (valid : sb.Valid) (directory : Directory sb k fs) (meets : Meets sb k fs (.link name inum)) :
    Links devsw sb k fs name inum := by
  obtain ⟨some_, small, present, grow⟩ := meets
  unfold Links
  split
  next bound is => exact dirlink_some devsw inum directory is (present bound is).1 (present bound is).2
  next absent =>
    obtain ⟨fs', ran, -, rest⟩ := dirlink_none devsw valid directory absent some_ small (grow absent)
    exact ⟨fs', ran, rest⟩

theorem unlinks (valid : sb.Valid) (directory : Directory sb k fs) (meets : Meets sb k fs (.unlink name)) :
    Unlinks devsw sb k fs name := by
  unfold Unlinks
  split
  next dots => exact unlinkEntry_none directory (.inl dots)
  next plain =>
    split
    next absent => exact unlinkEntry_none directory (.inr absent)
    next inum bound =>
      obtain ⟨j, ip, fs', is, ran, -, rest⟩ := unlinkEntry_some devsw valid directory plain bound (meets inum bound)
      exact ⟨j, ip, fs', is, ran, rest⟩

theorem Directory.step {e : Event} (valid : sb.Valid) (dir : Directory sb k fs) (meets : Meets sb k fs e)
    (stepped : Dirs.step devsw sb k fs e = some fs') : Directory sb k fs' := by
  cases e with
  | lookup name =>
    cases bound : bindings sb k fs (key name) with
    | none =>
      simp only [Dirs.step, dirlookup_none dir bound] at stepped
      cases stepped
      exact dir
    | some inum =>
      obtain ⟨j, ip, fs₁, -, borrowed, ran⟩ := dirlookup_some devsw dir bound (meets inum bound)
      simp only [Dirs.step, ran] at stepped
      cases stepped
      obtain ⟨ref, busy, inode⟩ := borrowed.own dir.busy
      exact (dir.borrow borrowed.toState busy inode).1
  | link name inum =>
    obtain ⟨some_, small, present, grow⟩ := meets
    cases bound : bindings sb k fs (key name) with
    | none =>
      obtain ⟨fs₁, ran, dir₁, -⟩ := dirlink_none devsw valid dir bound some_ small (grow bound)
      simp only [Dirs.step, ran] at stepped
      cases stepped
      exact dir₁
    | some bound' =>
      obtain ⟨fs₁, ran, state, -, kept⟩ := dirlink_some devsw inum dir bound
        (present bound' bound).1 (present bound' bound).2
      simp only [Dirs.step, ran] at stepped
      cases stepped
      exact (dir.borrow state dir.busy (kept k dir.busy)).1
  | unlink name =>
    by_cases dots : Dots name
    · simp only [Dirs.step, unlinkEntry_none dir (.inl dots)] at stepped
      cases stepped
      exact dir
    cases bound : bindings sb k fs (key name) with
    | none =>
      simp only [Dirs.step, unlinkEntry_none dir (.inr bound)] at stepped
      cases stepped
      exact dir
    | some inum =>
      obtain ⟨j, ip, fs₁, -, ran, dir₁, -⟩ := unlinkEntry_some devsw valid dir dots bound (meets inum bound)
      simp only [Dirs.step, ran] at stepped
      cases stepped
      exact dir₁
  | others fs₁ =>
    cases stepped
    obtain ⟨⟨ref, busy, inode⟩, image, contents⟩ := meets
    have is := dir.dir
    refine ⟨⟨?_, ?_, ?_, image, ?_⟩, by rw [inode]; exact busy, ?_⟩
    · rw [inode]
      exact is.inum
    · rw [inode]
      exact is.type
    · rw [inode]
      exact is.fits
    · rw [inode]
      exact is.aligned
    · rw [entries, contents]
      exact dir.unique

/-- **Directories refine finite maps.** In every run whose operations find what they need, no key is
held twice, the size is a number of entries, and the next operation, if it finds what it needs, is
that of the map. -/
theorem directory_refines_map (valid : sb.Valid) (reach : (directory devsw sb k).Reach (Meets sb k) fs) :
    Slots.Unique (entries sb k fs) ∧ (fs.icache k).size % direntSize = 0 ∧
      (∀ name, Meets sb k fs (.lookup name) → Finds devsw sb k fs name) ∧
      (∀ name inum, Meets sb k fs (.link name inum) → Links devsw sb k fs name inum) ∧
      ∀ name, Meets sb k fs (.unlink name) → Unlinks devsw sb k fs name := by
  have dir : Directory sb k fs := by
    refine reach.invariant (P := Directory sb k) (fun _ start => start) fun fs e fs' dir meets stepped => ?_
    exact dir.step valid meets stepped
  exact ⟨dir.unique, dir.dir.aligned, fun name meets => finds dir meets, fun name inum meets => links valid dir meets,
    fun name meets => unlinks valid dir meets⟩

/-! ### A directory that holds only itself -/

/-- The name ".". -/
def dot : Str := literal [0x2e]

/-- The inode 1, one entry long. -/
def dotInode : Inode := { oneTable T_DIR 16 1 with inum := 1, ref := 1, valid := true }

/-- Its file binds "." to the inode 1. -/
def dotBytes (_ : Nat) : Block := (Buf.zero 512).move 0 16 fun i => (Dirent.bytes { inum := 1, name := strncpy DIRSIZ dot }).getD i 0

def dotSystem : FileSystem where
  disk := oneDisk T_DIR 16 dotBytes
  logged := []
  icache k := if k = 0 then dotInode else { dotInode with ref := 0 }

theorem dotSystem_table :
    table mkfsSuperblock (dotSystem.icache 0) dotSystem.disk = dinode mkfsSuperblock (oneDisk T_DIR 16 dotBytes) :=
  table_eq (s := dotSystem.toState) (dotSystem.icache 0) (dinode_oneDisk dotBytes (by decide) (by decide) (by decide))

theorem dotSystem_byteAt {p : Nat} (inside : p < 16) :
    byteAt (trees mkfsSuperblock (dinode mkfsSuperblock (oneDisk T_DIR 16 dotBytes)) (oneDisk T_DIR 16 dotBytes))
      (oneDisk T_DIR 16 dotBytes) 1 p = (Dirent.bytes { inum := 1, name := strncpy DIRSIZ dot }).getD p 0 := by
  have first : p / BSIZE = 0 := Nat.div_eq_of_lt (by simp only [BSIZE]; omega)
  rw [byteAt, first, oneDisk_addr dotBytes (by decide) (by decide), oneDisk, assemble_data mkfsSuperblock_valid (by decide), Nat.mod_eq_of_lt (by simp only [BSIZE]; omega),
    dotBytes, Buf.get_move _ _ _ _ _ (by omega), if_pos (by omega), Nat.sub_zero]

theorem dotSystem_listing :
    listing mkfsSuperblock (dotSystem.icache 0) dotSystem.toState = Dirent.bytes { inum := 1, name := strncpy DIRSIZ dot } := by
  have size : (dinode mkfsSuperblock (oneDisk T_DIR 16 dotBytes) 1).size = 16 := by
    rw [dinode_oneDisk dotBytes (by decide) (by decide) (by decide)]
    rfl
  rw [listing, heldContents, dotSystem_table]
  change contents mkfsSuperblock (dinode mkfsSuperblock (oneDisk T_DIR 16 dotBytes)) (oneDisk T_DIR 16 dotBytes) 1 = _
  rw [contents, size, List.map_congr_left fun p inside => dotSystem_byteAt (List.mem_range.mp inside)]
  decide

theorem dotSystem_entries : entries mkfsSuperblock 0 dotSystem = [some ([0x2e], 1)] := by
  rw [entries, dotSystem_listing]
  decide

theorem dotSystem_directory : Directory mkfsSuperblock 0 dotSystem := by
  refine ⟨⟨by decide, by decide, ?_, ?_, by decide⟩, by decide, ?_⟩
  · exact oneTable_fits (by decide) (by decide) 1
  · rw [dotSystem_table]
    exact oneDisk_image T_DIR 16 dotBytes (by decide) (by decide)
  · rw [dotSystem_entries]
    intro i j key v w here there
    have low := (List.getElem?_eq_some_iff.mp here).1
    have high := (List.getElem?_eq_some_iff.mp there).1
    simp only [List.length_singleton] at low high
    omega

theorem dotSystem_dot : bindings mkfsSuperblock 0 dotSystem (key dot) = some 1 := by
  rw [bindings, dotSystem_entries]
  decide

/-- The theorem at the directory that holds only itself: a new name takes a new entry, and after that
another name is still not found. -/
theorem directory_refines_map_dot : ∃ fs, dirlink noDevices mkfsSuperblock 0 (literal [0x61]) 2 dotSystem = .ok (0, fs) ∧
    entries mkfsSuperblock 0 fs = [some ([0x2e], 1), some ([0x61], 2)] ∧
    dirlookup noDevices mkfsSuperblock 0 (literal [0x62]) fs = .ok (none, fs) := by
  have start : (directory noDevices mkfsSuperblock 0).Reach (Meets mkfsSuperblock 0) dotSystem := .init dotSystem_directory
  have absent : bindings mkfsSuperblock 0 dotSystem (key (literal [0x61])) = none := by
    rw [bindings, dotSystem_entries]
    decide
  have meets : Meets mkfsSuperblock 0 dotSystem (.link (literal [0x61]) 2) := by
    refine ⟨by decide, by decide, fun bound is => ?_, fun _ => .inr ⟨by decide, oneDisk_free dotBytes (by decide) (by decide)⟩⟩
    rw [absent] at is
    cases is
  have links := (directory_refines_map mkfsSuperblock_valid start).2.2.2.1 _ _ meets
  unfold Links at links
  rw [absent] at links
  obtain ⟨fs, ran, -, same, -⟩ := links
  rw [dotSystem_entries] at same
  have next : (directory noDevices mkfsSuperblock 0).Reach (Meets mkfsSuperblock 0) fs :=
    start.step meets (by simp only [directory, step, ran]; rfl)
  have absent' : bindings mkfsSuperblock 0 fs (key (literal [0x62])) = none := by
    rw [bindings, same]
    decide
  have finds := (directory_refines_map mkfsSuperblock_valid next).2.2.1 (literal [0x62]) fun inum is => by
    rw [absent'] at is
    cases is
  unfold Finds at finds
  rw [absent'] at finds
  exact ⟨fs, ran, same, finds⟩

/-- "." is bound, but `dirlink` does not return -1: it waits for the lock that its own caller holds. -/
theorem dirlink_dot_asleep : bindings mkfsSuperblock 0 dotSystem (key dot) = some 1 ∧ Directory mkfsSuperblock 0 dotSystem ∧
    dirlink noDevices mkfsSuperblock 0 dot 2 dotSystem = .error .asleep := by
  have got : iget 1 dotSystem = .ok (0, dotSystem.store 0 { dotSystem.icache 0 with ref := 2 } dotSystem.toState) := rfl
  exact ⟨dotSystem_dot, dotSystem_directory, dirlink_own dotSystem_directory dotSystem_dot got⟩

end Xv6.Dirs
