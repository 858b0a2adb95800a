import Xv6.Dirs.Operations
import Xv6.Mkfs.Append

/-!
# The finished image

`main` appends to the root its first two entries and for every input file an entry, rounds the size of the
root up to whole blocks and writes the bitmap. The image is well formed unless the entries fill their
last block: the rounding `(off / BSIZE + 1) * BSIZE` then adds a block that is not there.
-/

namespace Xv6.Mkfs

open Bytes Fs Forest Steps
open Dirs (Dirent DIRSIZ Str literal strncpy direntSize)

variable {s s' : State} {k k' : Fs.State}

/-! ### `main` as a run -/

/-- An input file that can be opened and has no slash in its name. -/
def Arg.Good (arg : Arg) : Prop := 0x2f ∉ arg.name ∧ arg.reads.isSome

instance (arg : Arg) : Decidable arg.Good := inferInstanceAs (Decidable (_ ∧ _))

/-- What `main` does for one input file, as inode `inum`. -/
def fileEvents (inum : Nat) (arg : Arg) : List Event :=
  .alloc T_FILE :: .append ROOTINO (Dirent.bytes { inum, name := strncpy DIRSIZ (literal arg.target) }) ::
    (arg.reads.getD []).map fun buf => .append inum buf.val

def filesEvents : Nat → List Arg → List Event
  | _, [] => []
  | inum, arg :: argv => fileEvents inum arg ++ filesEvents (inum + 1) argv

/-- All that `main` does before it finishes. -/
def script (argv : List Arg) : List Event :=
  .alloc T_DIR :: .append ROOTINO (Dirent.bytes { inum := ROOTINO, name := strncpy DIRSIZ (literal [0x2e]) }) ::
    .append ROOTINO (Dirent.bytes { inum := ROOTINO, name := strncpy DIRSIZ (literal [0x2e, 0x2e]) }) :: filesEvents 2 argv

theorem run_append (s : State) (es fs : List Event) : run s (es ++ fs) = run s es >>= fun s => run s fs := by
  rw [run, List.foldlM_append]
  rfl

theorem allowed_append {n : Nat} {es fs : List Event} (first : Allowed n es) (second : Allowed (n + allocated es) fs) :
    Allowed n (es ++ fs) := by
  induction es generalizing n with
  | nil => exact second
  | cons e es ih =>
    cases e with
    | alloc type =>
      refine ⟨first.1, first.2.1, ih first.2.2 ?_⟩
      rwa [Nat.add_assoc, Nat.add_comm 1]
    | append inum p => exact ⟨first.1, ih first.2 second⟩

theorem allocated_append (es fs : List Event) : allocated (es ++ fs) = allocated es + allocated fs := by
  induction es with
  | nil => exact (Nat.zero_add _).symm
  | cons e es ih =>
    rw [List.cons_append, allocated_cons e (es ++ fs), allocated_cons e es, ih, Nat.add_assoc]

theorem appends_allowed (n inum : Nat) (used : 1 ≤ inum ∧ inum < n) (reads : List Chunk) :
    Allowed n (reads.map fun buf => .append inum buf.val) ∧ allocated (reads.map fun buf => .append inum buf.val) = 0 := by
  induction reads with
  | nil => exact ⟨trivial, rfl⟩
  | cons buf reads ih => exact ⟨⟨used, ih.1⟩, ih.2⟩

theorem fileEvents_allowed {n : Nat} (some_ : 2 ≤ n) (few : n < NINODES) (arg : Arg) :
    Allowed n (fileEvents n arg) ∧ allocated (fileEvents n arg) = 1 := by
  obtain ⟨allowed, none⟩ := appends_allowed (n + 1) n ⟨by omega, by omega⟩ (arg.reads.getD [])
  exact ⟨⟨few, .inr rfl, ⟨by decide, by change 1 < n + 1; omega⟩, allowed⟩, by
    change allocated (List.map _ _) + 1 = 1
    rw [none]⟩

theorem filesEvents_allowed (argv : List Arg) : ∀ {n : Nat}, 2 ≤ n → n + argv.length ≤ NINODES →
    Allowed n (filesEvents n argv) ∧ allocated (filesEvents n argv) = argv.length := by
  induction argv with
  | nil => exact fun _ _ => ⟨trivial, rfl⟩
  | cons arg argv ih =>
    intro n some_ few
    simp only [List.length_cons] at few
    obtain ⟨first, one⟩ := fileEvents_allowed some_ (by omega) arg
    obtain ⟨rest, count⟩ := ih (n := n + 1) (by omega) (by omega)
    refine ⟨allowed_append first (by rwa [one]), ?_⟩
    rw [filesEvents, allocated_append, one, count, List.length_cons, Nat.add_comm]

theorem ialloc_inum {type : BitVec 16} {inum : Nat} (ran : ialloc type s = .ok (inum, s')) : inum = s.freeinode := by
  obtain ⟨s₁, -, rest⟩ := bind_ok ran
  cases rest
  rfl

theorem addFile_eq {arg : Arg} (good : arg.Good) (s : State) : addFile ROOTINO s arg = run s (fileEvents s.freeinode arg) := by
  obtain ⟨reads, is⟩ := Option.isSome_iff_exists.mp good.2
  have chunks : ∀ (s : State) (inum : Nat), reads.foldlM (fun s buf => iappend inum buf.val s) s =
      (reads.map fun buf => Event.append inum buf.val).foldlM step s := by
    intro s inum
    rw [List.foldlM_map]
    rfl
  rw [addFile, if_neg good.1, is, fileEvents, is, Option.getD_some, run, List.foldlM_cons, step]
  dsimp only
  cases ran : ialloc T_FILE s with
  | error e => rfl
  | ok found =>
    obtain ⟨inum, s₁⟩ := found
    obtain rfl := ialloc_inum ran
    change (iappend ROOTINO _ s₁ >>= fun s₂ => reads.foldlM (fun t buf => iappend s.freeinode buf.val t) s₂) =
      List.foldlM step s₁ (_ :: reads.map fun buf => .append s.freeinode buf.val)
    rw [List.foldlM_cons]
    simp only [chunks]
    rfl

theorem addFile_good {arg : Arg} (ran : addFile ROOTINO s arg = .ok s') : arg.Good := by
  unfold addFile at ran
  split at ran
  · cases ran
  next plain =>
    split at ran
    · cases ran
    next reads is => exact ⟨plain, by rw [is]; rfl⟩

theorem addFiles_iff (s' : State) (argv : List Arg) : ∀ {s : State} {k : Fs.State}, Sound s k → 2 ≤ s.freeinode →
    s.freeinode + argv.length ≤ NINODES → (argv.foldlM (addFile ROOTINO) s = .ok s' ↔
      (∀ arg ∈ argv, arg.Good) ∧ run s (filesEvents s.freeinode argv) = .ok s') := by
  induction argv with
  | nil =>
    intro s k _ _ _
    exact ⟨fun ran => ⟨fun _ h => absurd h (List.not_mem_nil), ran⟩, fun h => h.2⟩
  | cons arg argv ih =>
    intro s k sound some_ few
    simp only [List.length_cons] at few
    obtain ⟨allowed, one⟩ := fileEvents_allowed some_ (by omega) arg
    rw [List.foldlM_cons, filesEvents, run_append]
    by_cases good : arg.Good
    · rw [addFile_eq good s]
      cases ran : run s (fileEvents s.freeinode arg) with
      | error e => exact iff_of_false (by rintro ⟨⟩) (by rintro ⟨-, ⟨⟩⟩)
      | ok s₁ =>
        obtain ⟨k₁, grows⟩ := run_grows _ sound allowed ran
        have next : s₁.freeinode = s.freeinode + 1 := by rw [grows.freeinode, one]
        have rest := ih grows.sound (by omega) (by omega)
        rw [next] at rest
        rw [ok_bind rfl, ok_bind rfl, rest, List.forall_mem_cons]
        exact ⟨fun h => ⟨⟨good, h.1⟩, h.2⟩, fun h => ⟨h.1.2, h.2⟩⟩
    · refine iff_of_false (fun ran => ?_) fun h => good (h.1 arg (List.mem_cons_self))
      obtain ⟨s₁, first, -⟩ := bind_ok ran
      exact good (addFile_good first)

theorem script_allowed {argv : List Arg} (few : argv.length + 2 ≤ NINODES) : Allowed 1 (script argv) := by
  refine ⟨by decide, .inl rfl, ⟨by decide, by decide⟩, ⟨by decide, by decide⟩, ?_⟩
  exact (filesEvents_allowed argv (Nat.le_refl 2) (by omega)).1

/-- `build` is the run of the script. -/
theorem build_iff {argv : List Arg} (few : argv.length + 2 ≤ NINODES) :
    build argv = .ok s ↔ (∀ arg ∈ argv, arg.Good) ∧ run fresh (script argv) = .ok s := by
  have first : fresh.freeinode = 1 := by rw [fresh_eq]
  obtain ⟨s₁, k₁, ran₁, grows₁, -⟩ := alloc_grows fresh_sound T_DIR (by rw [first]; decide) (.inl rfl)
  have stepped : step fresh (.alloc T_DIR) = .ok s₁ := by rw [step, ok_bind ran₁]
  have ran : ialloc T_DIR fresh = .ok (ROOTINO, s₁) := by rw [ran₁, first]; rfl
  have next₁ : s₁.freeinode = 2 := by rw [grows₁.freeinode, first]; rfl
  have used : 1 ≤ ROOTINO ∧ ROOTINO < s₁.freeinode := by rw [next₁]; decide
  rw [build, ok_bind ran, script, run, List.foldlM_cons, ok_bind stepped, List.foldlM_cons]
  dsimp only
  rw [if_neg (not_not.mpr rfl)]
  change (iappend ROOTINO _ s₁ >>= _) = _ ↔ _ ∧ (iappend ROOTINO _ s₁ >>= _) = _
  cases ran₂ : iappend ROOTINO (Dirent.bytes { inum := ROOTINO, name := strncpy DIRSIZ (literal [0x2e]) }) s₁ with
  | error e => exact iff_of_false (by rintro ⟨⟩) (by rintro ⟨-, ⟨⟩⟩)
  | ok s₂ =>
    obtain ⟨k₂, grows₂⟩ := iappend_appends grows₁.sound used ran₂
    rw [ok_bind rfl, ok_bind rfl, List.foldlM_cons]
    change (iappend ROOTINO _ s₂ >>= _) = _ ↔ _ ∧ (iappend ROOTINO _ s₂ >>= _) = _
    cases ran₃ : iappend ROOTINO (Dirent.bytes { inum := ROOTINO, name := strncpy DIRSIZ (literal [0x2e, 0x2e]) }) s₂ with
    | error e => exact iff_of_false (by rintro ⟨⟩) (by rintro ⟨-, ⟨⟩⟩)
    | ok s₃ =>
      obtain ⟨k₃, grows₃⟩ := iappend_appends grows₂.sound (by rw [grows₂.freeinode]; exact used) ran₃
      have next₃ : s₃.freeinode = 2 := by rw [grows₃.freeinode, grows₂.freeinode, next₁]
      have files := addFiles_iff s argv grows₃.sound (by omega) (by omega)
      rwa [next₃] at files

/-! ### The size of the root -/

theorem length_entry (inum : Nat) (name : Str) : (Dirent.bytes { inum, name := strncpy DIRSIZ name }).length = direntSize := by
  simp [Dirent.bytes, Dirs.length_strncpy, DIRSIZ, direntSize]

theorem appended_append (i : Nat) (es fs : List Event) : appended i (es ++ fs) = appended i es ++ appended i fs := by
  induction es with
  | nil => rfl
  | cons e es ih => rw [List.cons_append, appended_cons i e (es ++ fs), appended_cons i e es, ih, List.append_assoc]

theorem length_root_files (argv : List Arg) : ∀ {n : Nat}, 2 ≤ n →
    (appended ROOTINO (filesEvents n argv)).length = direntSize * argv.length := by
  induction argv with
  | nil => exact fun _ => rfl
  | cons arg argv ih =>
    intro n some_
    have reads : ∀ reads : List Chunk, appended ROOTINO (reads.map fun buf => .append n buf.val) = [] := by
      intro reads
      induction reads with
      | nil => rfl
      | cons buf reads ih =>
        rw [List.map_cons, appended, if_neg, ih]
        change n ≠ 1
        omega
    rw [filesEvents, appended_append, List.length_append, ih (by omega), fileEvents]
    simp only [appended, ↓reduceIte, reads, List.append_nil, length_entry, List.length_cons, direntSize]
    omega

theorem length_root (argv : List Arg) : (appended ROOTINO (script argv)).length = direntSize * (argv.length + 2) := by
  simp only [script, appended, ↓reduceIte, List.length_append, length_entry, length_root_files argv (Nat.le_refl 2),
    direntSize]
  omega

/-! ### The bitmap -/

theorem bit_foldl_markUsed {n : Nat} (small : n ≤ BPB) (j : Nat) :
    ((List.range n).foldl markUsed (Buf.zero 512)).bit j = decide (j < n) := by
  induction n with
  | zero => simp [Buf.bit]
  | succ n ih =>
    rw [List.range_succ, List.foldl_append, List.foldl_cons, List.foldl_nil, bit_markUsed _ _ _ (by omega), ih (by omega),
      ← Bool.decide_or, decide_eq_decide]
    omega

/-- The bitmap that is written at the end is the one of the disk for the kernel. -/
theorem Sim.bitmap_eq (sim : Sim s k) (small : s.freeblock < BSIZE * 8) :
    Function.update s.image sb.bmapstart ((List.range s.freeblock).foldl markUsed (Buf.zero 512)) = k.disk := by
  rw [sim.disk]
  funext a
  by_cases isBitmap : IsBitmap a
  · rw [kernelDisk, if_pos isBitmap]
    apply Buf.ext_bit
    intro i inside
    rw [Buf.bit_ofBits _ inside]
    by_cases first : a = sb.bmapstart
    · rw [first, Function.update_self, bit_foldl_markUsed (Nat.le_of_lt small), Nat.sub_self, Nat.zero_mul, Nat.zero_add]
    · -- the other blocks of the bitmap are for blocks behind `freeblock`
      have behind : ¬(a - sb.bmapstart) * BPB + i < s.freeblock := by
        have := isBitmap.1
        simp only [BPB, BSIZE] at *
        omega
      rw [Function.update_of_ne first, sim.bitmap a isBitmap, decide_eq_false behind]
      simp [Buf.bit]
  · have ne : a ≠ sb.bmapstart := by
      rintro rfl
      exact isBitmap (by decide)
    rw [Function.update_of_ne ne, kernelDisk_of_not isBitmap]

/-! ### Finishing -/

/-- The root with its size rounded up. -/
def rounded (din : Dinode) : Dinode := { din with size := (din.size / BSIZE + 1) * BSIZE }

theorem finish_eq (sound : Sound s k) (some_ : ROOTINO < s.freeinode) : ∃ s₁ k', Sim s₁ k' ∧ s₁.freeblock = s.freeblock ∧
    InodeChange sb k.disk k'.disk ROOTINO (rounded (dinode sb k.disk ROOTINO)) ∧ finish s = balloc s₁.freeblock s₁ := by
  have used : 1 ≤ ROOTINO ∧ ROOTINO < s.freeinode := ⟨Nat.le_refl 1, some_⟩
  have inside := sound.lt_ninodes used
  have bounded := sound.bounded ROOTINO inside
  have fits : (rounded (dinode sb k.disk ROOTINO)).Fits := by
    refine ⟨?_, (getDinode_fits _ _).addrs⟩
    change ((dinode sb k.disk ROOTINO).size / BSIZE + 1) * BSIZE < 2 ^ 32
    simp only [reach, NDIRECT, NINDIRECT, BSIZE] at *
    omega
  obtain ⟨s₁, ran, sim, free, -⟩ :=
    sound.sim.winode { locked k ROOTINO with toDinode := rounded (dinode sb k.disk ROOTINO) } inside
  refine ⟨s₁, _, sim, free, iupdate_change sb_valid _ inside fits k, ?_⟩
  have wrote : winode ROOTINO (rounded (dinode sb k.disk ROOTINO)) s = .ok s₁ := ran
  rw [finish, ok_bind (sound.sim.rinode inside)]
  change (winode ROOTINO (rounded (dinode sb k.disk ROOTINO)) s >>= _) = _
  rw [ok_bind wrote]

/-- The image at the end. -/
structure Finished (s : State) (k : Fs.State) (s' : State) (k' : Fs.State) : Prop where
  small : s.freeblock < BSIZE * 8
  image : s'.image = k'.disk
  freeblock : s'.freeblock = s.freeblock
  change : InodeChange sb k.disk k'.disk ROOTINO (rounded (dinode sb k.disk ROOTINO))

theorem finish_ok (sound : Sound s k) (some_ : ROOTINO < s.freeinode) (ran : finish s = .ok s') :
    ∃ k', Finished s k s' k' := by
  obtain ⟨s₁, k', sim, free, change, eq⟩ := finish_eq sound some_
  rw [eq, balloc] at ran
  split at ran
  next small =>
    cases ran
    exact ⟨k', free ▸ small, sim.bitmap_eq small, free, change⟩
  · cases ran

theorem finish_of_small (sound : Sound s k) (some_ : ROOTINO < s.freeinode) (small : s.freeblock < BSIZE * 8) :
    ∃ s', finish s = .ok s' := by
  obtain ⟨s₁, k', -, free, -, eq⟩ := finish_eq sound some_
  exact ⟨_, eq.trans (if_pos (free ▸ small))⟩

/-! ### Well-formed images -/

/-- The block trees of an image. -/
abbrev imageTrees (s : State) : Store Root Nat := trees sb (dinode sb s.image) s.image

/-- The number of blocks that an inode's size asks for. -/
def blocksOf (s : State) (i : Nat) : Nat := ((dinode sb s.image i).size + BSIZE - 1) / BSIZE

/-- What a fresh image should be. -/
structure WellFormed (s : State) : Prop where
  /-- every inode has exactly the blocks of its size -/
  blocks : ∀ i, 1 ≤ i → i < NINODES → ∀ bn < MAXFILE, (imageTrees s).addr (leaf i bn) ≠ 0 ↔ bn < blocksOf s i
  /-- and the indirect block if there is one of its blocks -/
  index : ∀ i, 1 ≤ i → i < NINODES → ((imageTrees s).addr ((i, 10), []) ≠ 0 ↔ NDIRECT < blocksOf s i) ∧
    (imageTrees s).addr ((i, 11), []) = 0 ∧ (imageTrees s).addr ((i, 12), []) = 0
  /-- the blocks used are between `nmeta` and `freeblock` -/
  range : ∀ b, (imageTrees s).Owned shape b → nmeta ≤ b ∧ b < s.freeblock
  /-- each of them is used once -/
  once : (imageTrees s).Separated shape
  /-- the bitmap marks the blocks below `freeblock` -/
  bitmap : ∀ b < FSSIZE, marked sb s.image b = true ↔ b < s.freeblock
  /-- a lookup in the root changes nothing -/
  lookup : ∀ (k : Fs.State) (dp : Inode), k.disk = s.image → dp.inum = ROOTINO → dp.toDinode = dinode sb s.image ROOTINO →
    ∀ devsw name, ∃ found, Dirs.lookupLoop devsw sb name (dp.size / direntSize + 1) 0 dp k = .ok (found, dp, k)

theorem Sound.tight_all (sound : Sound s k) {i : Nat} (low : 1 ≤ i) (inside : i < NINODES) :
    Tight (trees sb (dinode sb k.disk) k.disk) i (dinode sb k.disk i).size := by
  by_cases used : i < s.freeinode
  · exact sound.tight i low used
  · have blank := sound.unused i inside fun h => used h.2
    rw [blank]
    refine tight_zero fun j => if_neg fun inUse => ?_
    exact inUse.2.2 (by rw [blank]; rfl)

namespace Finished

theorem addr (finished : Finished s k s' k') (sound : Sound s k) : Safe sb (dinode sb k'.disk) k'.disk ∧
    ∀ n, shape.IsNode n → (trees sb (dinode sb k'.disk) k'.disk).addr n = (trees sb (dinode sb k.disk) k.disk).addr n := by
  refine sound.safe.of_roots finished.change.superblock finished.change.bits finished.change.data ?_
  rintro ⟨i, j⟩
  by_cases inside : 1 ≤ i ∧ i < sb.ninodes
  · have entry := finished.change.inodes i inside.2
    by_cases root : i = ROOTINO
    · rw [if_pos root] at entry
      exact trees_root_congr (by rw [entry, root]; rfl) (by rw [entry, root]; rfl)
    · rw [if_neg root] at entry
      exact trees_root_congr (by rw [entry]) (by rw [entry])
  · rw [trees_root_outside inside, trees_root_outside inside]

theorem size_root (finished : Finished s k s' k') :
    (dinode sb k'.disk ROOTINO).size = ((dinode sb k.disk ROOTINO).size / BSIZE + 1) * BSIZE := by
  rw [finished.change.inodes ROOTINO (by decide), if_pos rfl]
  rfl

/-- Every inode has exactly the blocks of its size, if the root does not end with its last block. -/
theorem tight (finished : Finished s k s' k') (sound : Sound s k) (partly : (dinode sb k.disk ROOTINO).size % BSIZE ≠ 0)
    {i : Nat} (low : 1 ≤ i) (inside : i < NINODES) : Tight (trees sb (dinode sb k'.disk) k'.disk) i (dinode sb k'.disk i).size := by
  have old := (sound.tight_all low inside).congr fun n node _ => (finished.addr sound).2 n node
  by_cases root : i = ROOTINO
  · subst root
    rw [finished.size_root]
    refine ⟨fun bn bound => ?_, ?_, old.double, old.triple⟩
    · rw [old.leaf bn bound]
      simp only [BSIZE] at *
      omega
    · rw [old.index]
      simp only [BSIZE, NDIRECT] at *
      omega
  · rw [finished.change.inodes i inside, if_neg root]
    exact old

theorem filled (finished : Finished s k s' k') (sound : Sound s k) (partly : (dinode sb k.disk ROOTINO).size % BSIZE ≠ 0)
    {i : Nat} (low : 1 ≤ i) (inside : i < NINODES) : Filled (trees sb (dinode sb k'.disk) k'.disk) i (dinode sb k'.disk i) := by
  have bounded : (dinode sb k'.disk i).size ≤ MAXFILE * BSIZE := by
    have old := sound.bounded i inside
    by_cases root : i = ROOTINO
    · subst root
      rw [finished.size_root]
      simp only [reach, MAXFILE, NDIRECT, NINDIRECT, BSIZE] at *
      omega
    · rw [finished.change.inodes i inside, if_neg root]
      exact old.trans (by decide)
  refine ⟨bounded, fun p small => ?_⟩
  have block : p / BSIZE < MAXFILE := div_BSIZE_lt (Nat.lt_of_lt_of_le small bounded)
  exact ((finished.tight sound partly low inside).leaf _ block).mpr (Nat.lt_of_le_of_lt (Nat.div_mul_le_self p BSIZE) small)

theorem wellFormed (finished : Finished s k s' k') (sound : Sound s k) (isDir : (dinode sb k.disk ROOTINO).type = T_DIR)
    (partly : (dinode sb k.disk ROOTINO).size % BSIZE ≠ 0) : WellFormed s' := by
  have safe := (finished.addr sound).1
  have bits : ∀ b < FSSIZE, marked sb k'.disk b = true ↔ b < s.freeblock := fun b inside => by
    rw [finished.change.bits b inside, sound.sim.marked inside, decide_eq_true_eq]
  have ceil : ∀ i bn, bn * BSIZE < (dinode sb k'.disk i).size ↔ bn < ((dinode sb k'.disk i).size + BSIZE - 1) / BSIZE := by
    intro i bn
    simp only [BSIZE]
    omega
  constructor
  · intro i low inside bn bound
    rw [imageTrees, blocksOf, finished.image, (finished.tight sound partly low inside).leaf bn bound, ceil]
  · intro i low inside
    have tight := finished.tight sound partly low inside
    rw [imageTrees, blocksOf, finished.image, tight.index, ceil]
    exact ⟨Iff.rfl, tight.double, tight.triple⟩
  · intro b owned
    rw [imageTrees, finished.image] at owned
    have isData := safe.inData b owned
    rw [finished.freeblock]
    exact ⟨isData.1, (bits b isData.2).mp (safe.used b owned)⟩
  · rw [imageTrees, finished.image]
    exact safe.separated
  · intro b inside
    rw [finished.image, finished.freeblock]
    exact bits b inside
  · intro k₂ dp disk inum entry devsw name
    rw [finished.image] at disk entry
    have stored : dinode sb k₂.disk dp.inum = dp.toDinode := by rw [disk, inum, entry]
    have dir : Dirs.IsDir sb dp k₂ := by
      refine ⟨by rw [inum]; decide, ?_, ?_, ?_, ?_⟩
      · rw [entry, finished.change.inodes ROOTINO (by decide), if_pos rfl]
        exact isDir
      · rw [entry]
        exact getDinode_fits _ _
      · rw [table_eq dp stored, disk]
        exact ⟨safe, fun i used _ => finished.filled sound partly used.1 used.2.1⟩
      · rw [entry, finished.size_root]
        simp only [BSIZE, direntSize]
        omega
    have loop := Dirs.lookupLoop_eq dir devsw name (Nat.zero_le _)
      (show dp.size / direntSize < 0 + (dp.size / direntSize + 1) by omega)
    rw [Nat.mul_zero] at loop
    exact ⟨_, loop⟩

theorem not_wellFormed (finished : Finished s k s' k') (sound : Sound s k) (whole : (dinode sb k.disk ROOTINO).size % BSIZE = 0) :
    ¬WellFormed s' := by
  intro formed
  have inside : ROOTINO < NINODES := by decide
  have bounded := sound.bounded ROOTINO inside
  have bound : (dinode sb k.disk ROOTINO).size / BSIZE < MAXFILE := by
    simp only [reach, MAXFILE, NDIRECT, NINDIRECT, BSIZE] at *
    omega
  have blocks := formed.blocks ROOTINO (Nat.le_refl 1) inside _ bound
  have old := (sound.tight_all (show 1 ≤ ROOTINO from Nat.le_refl 1) inside).leaf _ bound
  rw [imageTrees, blocksOf, finished.image, (finished.addr sound).2 _ (leaf_isNode _ bound), finished.size_root, old] at blocks
  simp only [BSIZE] at *
  omega

end Finished

/-- `mkfs` finishes if the files are short enough and the blocks have their bits in one block. -/
theorem main_ok (argv : List Arg) (few : argv.length + 2 ≤ NINODES) (good : ∀ arg ∈ argv, arg.Good)
    (small : ∀ i < NINODES, (appended i (script argv)).length ≤ reach * BSIZE)
    (enough : nmeta + ∑ i ∈ Finset.range NINODES, need (appended i (script argv)).length < BSIZE * 8) : ∃ s, main argv = .ok s := by
  have first : fresh.freeinode = 1 := by rw [fresh_eq]
  have nothing : ∀ i < NINODES, bytesOf { disk := kernelDisk fresh, logged := [] } i = [] := fun i inside =>
    fresh_sound.bytes_unused inside (by rw [first]; omega)
  have allowed : Allowed fresh.freeinode (script argv) := by
    rw [first]
    exact script_allowed few
  have same : ∀ i < NINODES, bytesOf { disk := kernelDisk fresh, logged := [] } i ++ appended i (script argv) =
      appended i (script argv) := fun i inside => by rw [nothing i inside, List.nil_append]
  have sum : ∑ i ∈ Finset.range NINODES, need (bytesOf { disk := kernelDisk fresh, logged := [] } i ++
      appended i (script argv)).length = ∑ i ∈ Finset.range NINODES, need (appended i (script argv)).length :=
    Finset.sum_congr rfl fun i member => by rw [same i (Finset.mem_range.mp member)]
  obtain ⟨s, ran⟩ := run_ok (script argv) fresh_sound allowed (fun i inside => by rw [same i inside]; exact small i inside)
    (by rw [sum]; exact (Nat.le_of_lt enough).trans (by decide))
  obtain ⟨k, grows⟩ := run_grows _ fresh_sound allowed ran
  have some_ : ROOTINO < s.freeinode := by
    have root : 1 ≤ allocated (script argv) := Nat.le_add_left 1 _
    rw [grows.freeinode, first]
    change 1 < 1 + _
    omega
  have free : s.freeblock < BSIZE * 8 := by
    have sizes : ∑ i ∈ Finset.range NINODES, need (dinode sb k.disk i).size =
        ∑ i ∈ Finset.range NINODES, need (appended i (script argv)).length := by
      refine Finset.sum_congr rfl fun i member => ?_
      have inside := Finset.mem_range.mp member
      rw [← same i inside, ← grows.bytes i inside, length_contents]
    rw [grows.sound.count, sizes]
    exact enough
  obtain ⟨s', finished⟩ := finish_of_small grows.sound some_ free
  exact ⟨s', by rw [main, ok_bind ((build_iff few).mpr ⟨good, ran⟩), finished]⟩

/-- What `main` leaves: the root is a directory with two entries and one for each input file. -/
theorem main_finished {argv : List Arg} (few : argv.length + 2 ≤ NINODES) (ran : main argv = .ok s) :
    ∃ s₁ k k', Sound s₁ k ∧ Finished s₁ k s k' ∧ (dinode sb k.disk ROOTINO).type = T_DIR ∧
      (dinode sb k.disk ROOTINO).size = direntSize * (argv.length + 2) := by
  obtain ⟨s₁, built, finished⟩ := bind_ok ran
  have first : fresh.freeinode = 1 := by rw [fresh_eq]
  obtain ⟨-, scripted⟩ := (build_iff few).mp built
  -- the first step allocates the root, the others keep its type
  obtain ⟨s₀, k₀, ran₀, grows₀, isDir⟩ := alloc_grows fresh_sound T_DIR (by rw [first]; decide) (.inl rfl)
  have stepped : step fresh (.alloc T_DIR) = .ok s₀ := by rw [step, ok_bind ran₀]
  have next : s₀.freeinode = 2 := by rw [grows₀.freeinode, first]; rfl
  rw [script, run, List.foldlM_cons, ok_bind stepped] at scripted
  have allowed := (script_allowed few).2.2
  obtain ⟨k, grows⟩ := run_grows _ grows₀.sound (by rw [next]; exact allowed) scripted
  have some_ : ROOTINO < s₁.freeinode := by
    rw [grows.freeinode, next]
    change 1 < 2 + _
    omega
  have type : (dinode sb k.disk ROOTINO).type = T_DIR := by
    rw [first] at isDir
    rw [grows.types ROOTINO (Nat.le_refl 1) (by rw [next]; decide)]
    exact isDir
  have size : (dinode sb k.disk ROOTINO).size = direntSize * (argv.length + 2) := by
    have bytes := grows.bytes ROOTINO (by decide)
    have none : bytesOf k₀ ROOTINO = [] := by
      rw [grows₀.bytes ROOTINO (by decide), fresh_sound.bytes_unused (by decide) (by rw [first]; decide)]
      rfl
    rw [none, List.nil_append] at bytes
    rw [← length_root argv, show appended ROOTINO (script argv) = _ from bytes.symm, length_contents]
  obtain ⟨k', finished⟩ := finish_ok grows.sound some_ finished
  exact ⟨s₁, k, k', grows.sound, finished, type, size⟩

/-- **A fresh image is well formed**, exactly if the entries of the root do not fill their last block:
for every list of input files up to the limit of inodes for which `mkfs` finishes. -/
theorem image_wellFormed_iff {argv : List Arg} (few : argv.length + 2 ≤ NINODES) (ran : main argv = .ok s) :
    WellFormed s ↔ direntSize * (argv.length + 2) % BSIZE ≠ 0 := by
  obtain ⟨s₁, k, k', sound, finished, type, size⟩ := main_finished few ran
  rw [← size]
  constructor
  · intro formed whole
    exact finished.not_wellFormed sound whole formed
  · exact finished.wellFormed sound type

/-- The image without input files. -/
theorem image_wellFormed_iff_empty : ∃ s, main [] = .ok s ∧ WellFormed s := by
  obtain ⟨s, ran⟩ := main_ok [] (by decide) (List.forall_mem_nil _) (by decide +kernel) (by decide +kernel)
  exact ⟨s, ran, (image_wellFormed_iff (by decide) ran).mpr (by decide)⟩

/-- Thirty empty files. -/
def thirtyFiles : List Arg := (List.range 30).map fun i => { name := [BitVec.ofNat 8 (0x61 + i)], reads := some [] }

/-- With thirty input files the entries fill one block, and the size of the root says two. -/
theorem thirtyFiles_not_wellFormed : ∃ s, main thirtyFiles = .ok s ∧ ¬WellFormed s := by
  obtain ⟨s, ran⟩ := main_ok thirtyFiles (by decide) (by decide) (by decide +kernel) (by decide +kernel)
  obtain ⟨s₁, k, k', sound, finished, -, size⟩ := main_finished (by decide) ran
  exact ⟨s, ran, finished.not_wellFormed sound (by rw [size]; decide)⟩

end Xv6.Mkfs
