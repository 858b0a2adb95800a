import Mathlib.Algebra.BigOperators.Group.Finset.Basic
import Mathlib.Algebra.Order.BigOperators.Group.Finset
import Xv6.Mkfs.Simulation

/-!
# The files that `mkfs` appends to

`ialloc` and `iappend` keep the block trees safe and give every file exactly the blocks of its bytes, so the
kernel reads from each inode what was appended to it, unless a file grew beyond the single indirect block.
-/

namespace Xv6.Mkfs

open Bytes Fs Forest Steps

variable {s s' : State} {k k' : Fs.State}

/-! ### Inodes -/

namespace Sim

theorem inode_block (sim : Sim s k) {i : Nat} (inside : i < NINODES) : k.disk (sb.IBLOCK i) = s.image (sb.IBLOCK i) := by
  rw [sim.disk, kernelDisk_of_not (not_isBitmap_inode inside)]

theorem inode_rsect (sim : Sim s k) {i : Nat} (inside : i < NINODES) :
    Mkfs.rsect (sb.IBLOCK i) s = .ok (s.image (sb.IBLOCK i)) := by
  have bounds := sb_valid.iblock_bounds (show i < sb.ninodes from inside)
  refine sim.rsect ?_
  rw [sb_bmapstart] at bounds
  rw [FSSIZE_eq]
  omega

theorem rinode (sim : Sim s k) {i : Nat} (inside : i < NINODES) : Mkfs.rinode i s = .ok (dinode sb k.disk i) := by
  rw [Mkfs.rinode, ok_bind (sim.inode_rsect inside), dinode, sim.inode_block inside]

/-- `winode` is `iupdate`. -/
theorem winode (sim : Sim s k) (ip : Inode) (inside : ip.inum < NINODES) :
    ∃ s', Mkfs.winode ip.inum ip.toDinode s = .ok s' ∧ Sim s' (iupdate sb ip k) ∧
      s'.freeblock = s.freeblock ∧ s'.freeinode = s.freeinode := by
  have bounds := sb_valid.iblock_bounds (show ip.inum < sb.ninodes from inside)
  have low := sim.low
  rw [sb_bmapstart] at bounds
  rw [nmeta_eq] at low
  rw [Mkfs.winode, ok_bind (sim.inode_rsect inside), ← sim.inode_block inside]
  exact ⟨_, rfl, sim.wsect (not_isBitmap_inode inside) (by omega) _, rfl, rfl⟩

end Sim

/-! ### The image during a run -/

/-- The image while `mkfs` runs, with the disk for the kernel. -/
structure Sound (s : State) (k : Fs.State) : Prop where
  sim : Sim s k
  few : 1 ≤ s.freeinode ∧ s.freeinode ≤ NINODES
  unused : ∀ i < NINODES, ¬(1 ≤ i ∧ i < s.freeinode) → dinode sb k.disk i = Dinode.blank
  typed : ∀ i, 1 ≤ i → i < s.freeinode → (dinode sb k.disk i).type = T_DIR ∨ (dinode sb k.disk i).type = T_FILE
  safe : Safe sb (dinode sb k.disk) k.disk
  leakFree : LeakFree sb (dinode sb k.disk) k.disk
  tight : ∀ i, 1 ≤ i → i < s.freeinode → Tight (trees sb (dinode sb k.disk) k.disk) i (dinode sb k.disk i).size
  bounded : ∀ i < NINODES, (dinode sb k.disk i).size ≤ reach * BSIZE
  count : s.freeblock = nmeta + ∑ i ∈ Finset.range NINODES, need (dinode sb k.disk i).size

/-- The bytes of an inode. -/
abbrev bytesOf (k : Fs.State) (i : Nat) : List Byte := contents sb (dinode sb k.disk) k.disk i

/-- Inode `i`, locked. -/
def locked (k : Fs.State) (i : Nat) : Inode := { dinode sb k.disk i with inum := i, ref := 1, valid := true }

theorem table_locked (k : Fs.State) (i : Nat) : table sb (locked k i) k.disk = dinode sb k.disk := table_eq _ rfl

theorem view_locked (k : Fs.State) (i : Nat) : view sb (locked k i) k = trees sb (dinode sb k.disk) k.disk := by
  rw [view, table_locked]

namespace Sound

variable {inum : Nat} {p : List Byte}

theorem lt_ninodes (sound : Sound s k) (used : 1 ≤ inum ∧ inum < s.freeinode) : inum < NINODES :=
  Nat.lt_of_lt_of_le used.2 sound.few.2

theorem notDev (sound : Sound s k) (used : 1 ≤ inum ∧ inum < s.freeinode) :
    (dinode sb k.disk inum).type ≠ 0 ∧ (dinode sb k.disk inum).type ≠ T_DEV := by
  rcases sound.typed inum used.1 used.2 with h | h <;> rw [h] <;> decide

theorem inUse (sound : Sound s k) (used : 1 ≤ inum ∧ inum < s.freeinode) : InUse sb (dinode sb k.disk) inum :=
  ⟨used.1, sound.lt_ninodes used, (sound.notDev used).1⟩

theorem held (sound : Sound s k) (used : 1 ≤ inum ∧ inum < s.freeinode) : Held sb (locked k inum) k :=
  ⟨⟨used.1, sound.lt_ninodes used⟩, (sound.notDev used).1, getDinode_fits _ _, by
    rw [table_locked]
    exact sound.safe⟩

theorem filled (sound : Sound s k) (used : 1 ≤ inum ∧ inum < s.freeinode) :
    Filled (trees sb (dinode sb k.disk) k.disk) inum (dinode sb k.disk inum) := by
  have bounded : (dinode sb k.disk inum).size ≤ MAXFILE * BSIZE := (sound.bounded inum (sound.lt_ninodes used)).trans (by decide)
  refine ⟨bounded, fun p inside => ?_⟩
  have small : p / BSIZE < MAXFILE := div_BSIZE_lt (Nat.lt_of_lt_of_le inside bounded)
  exact ((sound.tight inum used.1 used.2).leaf _ small).mpr (Nat.lt_of_le_of_lt (Nat.div_mul_le_self p BSIZE) inside)

theorem image (sound : Sound s k) : Image sb (dinode sb k.disk) k.disk := by
  refine ⟨sound.safe, fun i used _ => sound.filled ⟨used.1, ?_⟩⟩
  by_contra behind
  exact used.2.2 (by rw [sound.unused i used.2.1 (by omega)]; rfl)

end Sound

/-! ### Appending -/

/-- The state after an append. -/
structure Appends (s : State) (k : Fs.State) (inum : Nat) (p : List Byte) (s' : State) (k' : Fs.State) : Prop where
  sound : Sound s' k'
  freeinode : s'.freeinode = s.freeinode
  own : bytesOf k' inum = bytesOf k inum ++ p
  other : ∀ i, 1 ≤ i → i < s.freeinode → i ≠ inum → bytesOf k' i = bytesOf k i
  types : ∀ i, 1 ≤ i → i < s.freeinode → (dinode sb k'.disk i).type = (dinode sb k.disk i).type

theorem sum_need {f g : Nat → Nat} {inum : Nat} (inside : inum < NINODES) (same : ∀ i < NINODES, i ≠ inum → g i = f i) :
    ∑ i ∈ Finset.range NINODES, need (g i) + need (f inum) = ∑ i ∈ Finset.range NINODES, need (f i) + need (g inum) := by
  have member := Finset.mem_range.mpr inside
  rw [← Finset.add_sum_erase _ (fun i => need (g i)) member, ← Finset.add_sum_erase _ (fun i => need (f i)) member]
  have rest : ∑ i ∈ (Finset.range NINODES).erase inum, need (g i) = ∑ i ∈ (Finset.range NINODES).erase inum, need (f i) := by
    refine Finset.sum_congr rfl fun i h => ?_
    obtain ⟨ne, h⟩ := Finset.mem_erase.mp h
    rw [same i (Finset.mem_range.mp h) ne]
  rw [rest]
  omega

variable {inum : Nat} {p : List Byte}

theorem overwrite_end (c p : List Byte) : ByteArrays.overwrite c c.length p = c ++ p := by
  rw [ByteArrays.overwrite, List.take_length, List.drop_eq_nil_of_le (Nat.le_add_right _ _), List.append_nil]

/-- The loop has appended something: the state is what the kernel's `writei` would leave. -/
theorem Sound.append (sound : Sound s k) (used : 1 ≤ inum ∧ inum < s.freeinode) (more : 0 < p.length) {size : Nat}
    (old : size = (dinode sb k.disk inum).size) (small : size + p.length ≤ reach * BSIZE) {din : Dinode} {k₁ : Fs.State}
    (looped : writeLoop sb (locked k inum) size p k = .ok ({ locked k inum with toDinode := din }, k₁))
    (tight : Tight (view sb { locked k inum with toDinode := din } k₁) inum (size + p.length))
    (free : s'.freeblock = s.freeblock + (need (size + p.length) - need size)) (inodes : s'.freeinode = s.freeinode)
    (sim : Sim s' (iupdate sb { locked k inum with toDinode := { din with size := size + p.length } } k₁)) :
    Appends s k inum p s' (iupdate sb { locked k inum with toDinode := { din with size := size + p.length } } k₁) := by
  have held := sound.held used
  have bounded : size + p.length ≤ MAXFILE * BSIZE := small.trans (by decide)
  have limit : MAXFILE * BSIZE < 2 ^ 32 := by decide
  have isSize : (locked k inum).size = size := old.symm
  obtain ⟨es, wrote⟩ := writeLoop_ok sb_valid p held bounded looped
  have kept := wrote.ran.kept sb_valid held
  have written := wrote.written_grow sb_valid held bounded (by rw [isSize]; omega)
  have accepted : ¬WriteRejected (locked k inum).size size p.length := by
    simp only [WriteRejected, not_or, Nat.not_lt, Nat.not_le, isSize]
    omega
  have ran : writei noDevices sb (locked k inum) size p k = .ok ((p.length : Int),
      { locked k inum with toDinode := { din with size := size + p.length } },
      iupdate sb { locked k inum with toDinode := { din with size := size + p.length } } k₁) := by
    have grown : din.size = (locked k inum).size := congrArg (fun ip : Inode => ip.size) kept.inode
    rw [writei_accepted noDevices (sound.notDev used).2 accepted, ok_bind looped]
    exact if_pos ⟨more, by rw [grown, isSize]; omega⟩
  have stored := written.refines (by rw [table_locked]; exact sound.image)
    (by rw [view_locked]; exact sound.filled used) accepted ran
  obtain ⟨-, addr⟩ := iupdate_spec sb_valid kept.held
    { locked k inum with toDinode := { din with size := size + p.length } } rfl written.held.fits fun _ => rfl
  generalize newInode : ({ locked k inum with toDinode := { din with size := size + p.length } } : Inode) = ip' at *
  generalize newState : iupdate sb ip' k₁ = k' at *
  have inum' : ip'.inum = inum := by rw [← newInode]; rfl
  have entry : dinode sb k'.disk inum = ip'.toDinode := written.stored rfl
  have size' : ip'.size = size + p.length := by rw [← newInode]
  have table' : table sb ip' k'.disk = dinode sb k'.disk := table_eq ip' (by rw [inum']; exact entry)
  have others : ∀ i < NINODES, i ≠ inum → dinode sb k'.disk i = dinode sb k.disk i := fun i inside ne =>
    written.inodes i inside ne
  have types : ∀ i, 1 ≤ i → i < s.freeinode → (dinode sb k'.disk i).type = (dinode sb k.disk i).type := by
    intro i low high
    by_cases own : i = inum
    · rw [own, entry]
      exact stored.type
    · rw [others i (sound.lt_ninodes ⟨low, high⟩) own]
  refine ⟨⟨sim, by rw [inodes]; exact sound.few, ?_, ?_, table' ▸ written.held.safe, ?_, ?_, ?_, ?_⟩, inodes, ?_, ?_, types⟩
  · intro i inside outside
    rw [inodes] at outside
    have ne : i ≠ inum := by
      rintro rfl
      exact outside used
    rw [others i inside ne, sound.unused i inside outside]
  · intro i low high
    rw [inodes] at high
    rw [types i low high]
    exact sound.typed i low high
  · rw [← table']
    exact written.leakFree (by rw [table_locked]; exact sound.leakFree)
  · intro i low high
    rw [inodes] at high
    by_cases own : i = inum
    · subst own
      rw [entry, size', ← table']
      exact tight.congr fun n node _ => addr n node
    · rw [others i (sound.lt_ninodes ⟨low, high⟩) own, ← table']
      refine (sound.tight i low high).congr fun n node root => ?_
      -- only positions of the inode appended to were given a block
      have notGrown : n ∉ grown es := by
        intro member
        obtain ⟨q, -, -, same, -⟩ := wrote.added n member
        exact own (root.symm.trans (congrArg Prod.fst same))
      rw [← view_locked k inum, ← wrote.ran.addr_of_not_grown sb_valid held node notGrown]
      exact addr n node
  · intro i inside
    by_cases own : i = inum
    · rw [own, entry, size']
      exact small
    · rw [others i inside own]
      exact sound.bounded i inside
  · have sum := sum_need (f := fun i => (dinode sb k.disk i).size) (g := fun i => (dinode sb k'.disk i).size)
      (sound.lt_ninodes used) fun i inside ne => congrArg Dinode.size (others i inside ne)
    have mono : need size ≤ need (size + p.length) := need_mono (Nat.le_add_right _ _)
    have count := sound.count
    simp only [entry, size', ← old] at sum
    omega
  · have same : bytesOf k' inum = heldContents sb ip' k' inum := by rw [heldContents, table']
    have before : heldContents sb (locked k inum) k inum = bytesOf k inum := by rw [heldContents, table_locked]
    have length : (bytesOf k inum).length = size := by rw [length_contents, old]
    have contents := stored.contents
    rw [show (locked k inum).inum = inum from rfl, before] at contents
    rw [same, contents, ← length, overwrite_end]
  · intro i low high ne
    have kept := stored.others i ne (by rw [table_locked]; exact sound.inUse ⟨low, high⟩)
      (by rw [table_locked]; exact (sound.notDev ⟨low, high⟩).2)
    rwa [heldContents, heldContents, table', table_locked] at kept

theorem Sound.of_disk (sound : Sound s k) (sim : Sim s' k') (disk : k'.disk = k.disk) (free : s'.freeblock = s.freeblock)
    (inodes : s'.freeinode = s.freeinode) : Sound s' k' := by
  refine ⟨sim, by rw [inodes]; exact sound.few, ?_, ?_, ?_, ?_, ?_, ?_, ?_⟩
  · rw [disk, inodes]
    exact sound.unused
  · rw [disk, inodes]
    exact sound.typed
  · rw [disk]
    exact sound.safe
  · rw [disk]
    exact sound.leakFree
  · rw [disk, inodes]
    exact sound.tight
  · rw [disk]
    exact sound.bounded
  · rw [disk, free]
    exact sound.count

/-- The blocks that an append needs are there, and the indirect block reaches. -/
def Fits (s : State) (size n : Nat) : Prop :=
  size + n ≤ reach * BSIZE ∧ s.freeblock + (need (size + n) - need size) ≤ FSSIZE

theorem iappend_ok (sound : Sound s k) (used : 1 ≤ inum ∧ inum < s.freeinode)
    (fits : Fits s (dinode sb k.disk inum).size p.length) : ∃ s' k', iappend inum p s = .ok s' ∧ Appends s k inum p s' k' := by
  have inside := sound.lt_ninodes used
  have held := sound.held used
  have tight : Tight (view sb (locked k inum) k) inum (dinode sb k.disk inum).size := by
    rw [view_locked]
    exact sound.tight inum used.1 used.2
  obtain ⟨din, s₁, k₁, looped, looped', sim₁, tight₁, free, inodes⟩ :=
    iappendLoop_ok p sound.sim held tight fits.1 fits.2
  obtain ⟨s', ran, sim', free', inodes'⟩ :=
    sim₁.winode { locked k inum with toDinode := { din with size := (dinode sb k.disk inum).size + p.length } } inside
  have appended : iappend inum p s = .ok s' := by
    rw [iappend, ok_bind (sound.sim.rinode inside)]
    change (iappendLoop (locked k inum).toDinode (dinode sb k.disk inum).size p s >>= _) = _
    rw [ok_bind looped]
    exact ran
  by_cases more : 0 < p.length
  · exact ⟨s', _, appended, sound.append used more rfl fits.1 looped' tight₁ (free'.trans free) (inodes'.trans inodes) sim'⟩
  · -- nothing to append: the dinode is written back as it was
    have none : p = [] := List.eq_nil_of_length_eq_zero (by omega)
    subst none
    rw [iappendLoop, dif_pos List.length_nil] at looped
    rw [writeLoop, dif_pos List.length_nil] at looped'
    cases looped
    cases looped'
    have disk : (iupdate sb (locked k inum) k).disk = k.disk := by
      change Function.update k.disk _ (putDinode (k.disk (sb.IBLOCK inum)) (inum % IPB)
        (getDinode (k.disk (sb.IBLOCK inum)) (inum % IPB))) = k.disk
      rw [putDinode_getDinode _ _ (show inum % IPB < 8 from Nat.mod_lt inum (by decide))]
      exact Function.update_eq_self _ _
    refine ⟨s', _, appended, sound.of_disk sim' disk free' inodes', inodes', ?_, fun i _ _ _ => ?_, fun i _ _ => ?_⟩
    · rw [List.append_nil]
      exact congrArg (fun d => contents sb (dinode sb d) d inum) disk
    · exact congrArg (fun d => contents sb (dinode sb d) d i) disk
    · exact congrArg (fun d => (dinode sb d i).type) disk

theorem iappend_error (sound : Sound s k) (used : 1 ≤ inum ∧ inum < s.freeinode)
    (fails : ¬Fits s (dinode sb k.disk inum).size p.length) : iappend inum p s = .error
      (if FSSIZE < s.freeblock + (need (min ((dinode sb k.disk inum).size + p.length) (reach * BSIZE)) -
        need (dinode sb k.disk inum).size) then .read else .outOfBounds) := by
  have inside := sound.lt_ninodes used
  have tight : Tight (view sb (locked k inum) k) inum (dinode sb k.disk inum).size := by
    rw [view_locked]
    exact sound.tight inum used.1 used.2
  have failed := iappendLoop_error p sound.sim (sound.held used) tight (sound.bounded inum inside) fails
  rw [iappend, ok_bind (sound.sim.rinode inside)]
  change (iappendLoop (locked k inum).toDinode (dinode sb k.disk inum).size p s >>= _) = _
  rw [failed]
  rfl

/-- If `iappend` returns, it appended. -/
theorem iappend_appends (sound : Sound s k) (used : 1 ≤ inum ∧ inum < s.freeinode) (ran : iappend inum p s = .ok s') :
    ∃ k', Appends s k inum p s' k' := by
  by_cases fits : Fits s (dinode sb k.disk inum).size p.length
  · obtain ⟨s₁, k', ran', appends⟩ := iappend_ok sound used fits
    rw [ran] at ran'
    cases ran'
    exact ⟨k', appends⟩
  · rw [iappend_error sound used fits] at ran
    cases ran

/-! ### New inodes -/

theorem tight_zero {f : Store Root Nat} {i : Nat} (empty : ∀ j, f.root (i, j) = 0) : Tight f i 0 := by
  have none : ∀ path j, f.addr ((i, j), path) = 0 := fun path j => by rw [Store.addr, empty, follow_zero]
  exact ⟨fun bn _ => iff_of_false (not_not.mpr (none _ _)) (Nat.not_lt_zero _),
    iff_of_false (not_not.mpr (none _ _)) (Nat.not_lt_zero _), none _ _, none _ _⟩

theorem ialloc_ok (sound : Sound s k) (type : BitVec 16) (room : s.freeinode < NINODES) (kind : type = T_DIR ∨ type = T_FILE) :
    ∃ s' k', ialloc type s = .ok (s.freeinode, s') ∧ Sound s' k' ∧ s'.freeinode = s.freeinode + 1 ∧
      bytesOf k' s.freeinode = [] ∧ (∀ i, 1 ≤ i → i < s.freeinode → bytesOf k' i = bytesOf k i) ∧
      (dinode sb k'.disk s.freeinode).type = type ∧
      ∀ i, 1 ≤ i → i < s.freeinode → (dinode sb k'.disk i).type = (dinode sb k.disk i).type := by
  have sim₀ : Sim { s with freeinode := s.freeinode + 1 } k :=
    ⟨sound.sim.sectors, sound.sim.low, sound.sim.high, sound.sim.blank, sound.sim.bitmap, sound.sim.disk⟩
  have fits : ({ Dinode.blank with type, nlink := 1 } : Dinode).Fits :=
    ⟨Nat.two_pow_pos 32, fun _ => Nat.two_pow_pos 32⟩
  obtain ⟨s', ran, sim, free, inodes⟩ := sim₀.winode
    { Dinode.blank with type, nlink := 1, inum := s.freeinode, ref := 1, valid := true } room
  have change := iupdate_change sb_valid
    { Dinode.blank with type, nlink := 1, inum := s.freeinode, ref := 1, valid := true } room fits k
  generalize iupdate sb { Dinode.blank with type, nlink := 1, inum := s.freeinode, ref := 1, valid := true } k = k' at sim change
  have entry : dinode sb k'.disk s.freeinode = { Dinode.blank with type, nlink := 1 } := by
    rw [change.inodes _ room, if_pos rfl]
  have others : ∀ i < NINODES, i ≠ s.freeinode → dinode sb k'.disk i = dinode sb k.disk i := fun i inside ne => by
    rw [change.inodes i inside, if_neg ne]
  have unused := sound.unused s.freeinode room (by omega)
  -- the new inode has no blocks, and had none before
  have roots : ∀ r, (trees sb (dinode sb k'.disk) k'.disk).root r = (trees sb (dinode sb k.disk) k.disk).root r := by
    rintro ⟨i, j⟩
    by_cases inside : 1 ≤ i ∧ i < sb.ninodes
    · by_cases new : i = s.freeinode
      · subst new
        simp only [trees, entry, unused]
        split_ifs <;> rfl
      · exact trees_root_congr (by rw [others i inside.2 new]) (by rw [others i inside.2 new])
    · rw [trees_root_outside inside, trees_root_outside inside]
  obtain ⟨safe, addr⟩ := sound.safe.of_roots change.superblock change.bits change.data roots
  have inodes' : s'.freeinode = s.freeinode + 1 := inodes
  have few := sound.few
  have tight : ∀ i, 1 ≤ i → i < s'.freeinode → Tight (trees sb (dinode sb k'.disk) k'.disk) i (dinode sb k'.disk i).size := by
    intro i low high
    by_cases new : i = s.freeinode
    · subst new
      rw [entry]
      refine tight_zero fun j => ?_
      simp only [trees, entry]
      split_ifs <;> rfl
    · rw [others i (by omega) new]
      exact (sound.tight i low (by omega)).congr fun n node _ => addr n node
  have contents : ∀ i, 1 ≤ i → i < s.freeinode → bytesOf k' i = bytesOf k i := by
    intro i low high
    refine contents_congr (by rw [others i (by omega) (by omega)]) (sound.filled ⟨low, high⟩) addr fun b owned => ?_
    exact change.data b (sound.safe.inData b owned).1
  refine ⟨s', k', ?_, ⟨sim, by omega, ?_, ?_, safe, ?_, tight, ?_, ?_⟩, inodes', ?_, contents, by rw [entry],
    fun i low high => by rw [others i (by omega) (by omega)]⟩
  · rw [ialloc]
    dsimp only
    rw [ok_bind ran]
  · intro i inside outside
    rw [others i inside (by omega), sound.unused i inside (by omega)]
  · intro i low high
    by_cases new : i = s.freeinode
    · rw [new, entry]
      exact kind
    · rw [others i (by omega) new]
      exact sound.typed i low (by omega)
  · exact sound.leakFree.transfer change.bits addr
  · intro i inside
    by_cases new : i = s.freeinode
    · rw [new, entry]
      exact Nat.zero_le _
    · rw [others i inside new]
      exact sound.bounded i inside
  · have same : ∀ i ∈ Finset.range NINODES, need (dinode sb k'.disk i).size = need (dinode sb k.disk i).size := by
      intro i member
      by_cases new : i = s.freeinode
      · rw [new, entry, unused]
      · rw [others i (Finset.mem_range.mp member) new]
    rw [Finset.sum_congr rfl same, free]
    exact sound.count
  · rw [bytesOf, Fs.contents, entry]
    rfl

/-! ### The empty image -/

theorem fresh_eq : fresh =
    { image := Function.update (fun _ => Buf.zero 512) 1 (superblockBlock sb), sectors := FSSIZE, freeinode := 1, freeblock := nmeta } := by
  have zeroes : ∀ n, (List.range n).foldl (fun s i => wsect i (Buf.zero 512) s)
      { image := fun _ => Buf.zero 512, sectors := 0, freeinode := 1, freeblock := nmeta } =
      { image := fun _ => Buf.zero 512, sectors := n, freeinode := 1, freeblock := nmeta } := by
    intro n
    induction n with
    | zero => rfl
    | succ n ih =>
      rw [List.range_succ, List.foldl_append, ih]
      simp [wsect]
  unfold fresh
  dsimp only
  rw [zeroes]
  rfl

theorem fresh_sound : Sound fresh { disk := kernelDisk fresh, logged := [] } := by
  have image : ∀ a, a ≠ 1 → fresh.image a = Buf.zero 512 := fun a ne => by
    rw [fresh_eq]
    dsimp only
    rw [Function.update_of_ne ne]
  have blank : ∀ i < NINODES, dinode sb (kernelDisk fresh) i = Dinode.blank := by
    intro i inside
    have bounds := sb_valid.iblock_bounds (show i < sb.ninodes from inside)
    rw [dinode, kernelDisk_of_not (not_isBitmap_inode inside), image _ (by omega), getDinode_zero]
  have unused : ∀ i, ¬InUse sb (dinode sb (kernelDisk fresh)) i := by
    rintro i ⟨-, inside, typed⟩
    exact typed (by rw [blank i inside]; rfl)
  have empty : ∀ n, (trees sb (dinode sb (kernelDisk fresh)) (kernelDisk fresh)).addr n = 0 := fun n => by
    rw [Store.addr, show (trees sb _ (kernelDisk fresh)).root n.1 = 0 from if_neg (unused _), follow_zero]
  have free : fresh.freeblock = nmeta := by rw [fresh_eq]
  have first : fresh.freeinode = 1 := by rw [fresh_eq]
  refine ⟨⟨by rw [fresh_eq], Nat.le_of_eq free.symm, by rw [free]; decide, ?_, ?_, rfl⟩, by rw [first]; decide, ?_, ?_, ?_, ?_, ?_, ?_, ?_⟩
  · intro a high _
    rw [free, nmeta_eq] at high
    exact image a (by omega)
  · intro a isBitmap
    have := isBitmap.1
    rw [sb_bmapstart] at this
    exact image a (by omega)
  · exact fun i inside _ => blank i inside
  · intro i low high
    omega
  · refine ⟨?_, ?_, ?_, ?_, ?_⟩
    · refine readsb_superblockBlock ?_ (by decide)
      change kernelDisk fresh 1 = superblockBlock sb
      rw [kernelDisk_of_not (by decide), fresh_eq]
      rfl
    · intro b low
      have low : b < nmeta := low
      rw [marked_kernelDisk _ (by rw [nmeta_eq] at low; rw [FSSIZE_eq]; omega), free, decide_eq_true_eq]
      exact low
    · intro n m _ _ live
      exact absurd (empty n) live
    · rintro b ⟨n, -, here, live⟩
      exact absurd (here.symm.trans (empty n)) live
    · rintro b ⟨n, -, here, live⟩
      exact absurd (here.symm.trans (empty n)) live
  · intro b isData used
    rw [marked_kernelDisk _ isData.2, free, decide_eq_true_eq] at used
    exact absurd isData.1 (Nat.not_le.mpr used)
  · intro i low high
    omega
  · intro i inside
    rw [blank i inside]
    exact Nat.zero_le _
  · have zero : ∀ i ∈ Finset.range NINODES, need (dinode sb (kernelDisk fresh) i).size = 0 := fun i member => by
      rw [blank i (Finset.mem_range.mp member)]
      rfl
    rw [Finset.sum_eq_zero zero, free]
    rfl

/-! ### Runs -/

/-- What `main` does to the image before it finishes. -/
inductive Event where
  | alloc (type : BitVec 16)
  | append (inum : Nat) (p : List Byte)

def step (s : State) : Event → Except Stop State
  | .alloc type => do
    let (_, s) ← ialloc type s
    .ok s
  | .append inum p => iappend inum p s

def run (s : State) (es : List Event) : Except Stop State := es.foldlM step s

/-- Files and directories are allocated as long as there are inodes, and only allocated inodes are
appended to; `n` is the next inode. -/
def Allowed : Nat → List Event → Prop
  | _, [] => True
  | n, .alloc type :: es => n < NINODES ∧ (type = T_DIR ∨ type = T_FILE) ∧ Allowed (n + 1) es
  | n, .append inum _ :: es => (1 ≤ inum ∧ inum < n) ∧ Allowed n es

/-- The bytes appended to an inode. -/
def appended (inum : Nat) : List Event → List Byte
  | [] => []
  | .alloc _ :: es => appended inum es
  | .append i p :: es => if i = inum then p ++ appended inum es else appended inum es

/-- The inodes allocated. -/
def allocated : List Event → Nat
  | [] => 0
  | .alloc _ :: es => allocated es + 1
  | .append _ _ :: es => allocated es

theorem Allowed.cons {n : Nat} {e : Event} {es : List Event} (allowed : Allowed n (e :: es)) :
    Allowed n [e] ∧ Allowed (n + allocated [e]) es := by
  cases e with
  | alloc type => exact ⟨⟨allowed.1, allowed.2.1, trivial⟩, allowed.2.2⟩
  | append inum p => exact ⟨⟨allowed.1, trivial⟩, allowed.2⟩

theorem appended_cons (i : Nat) (e : Event) (es : List Event) : appended i (e :: es) = appended i [e] ++ appended i es := by
  cases e with
  | alloc type => rfl
  | append inum p =>
    simp only [appended]
    split <;> simp

theorem allocated_cons (e : Event) (es : List Event) : allocated (e :: es) = allocated [e] + allocated es := by
  cases e with
  | alloc type => exact Nat.add_comm _ _
  | append inum p => exact (Nat.zero_add _).symm

theorem Sound.bytes_unused (sound : Sound s k) {i : Nat} (inside : i < NINODES) (unused : ¬(1 ≤ i ∧ i < s.freeinode)) :
    bytesOf k i = [] := by
  rw [bytesOf, contents, sound.unused i inside unused]
  rfl

/-- What the steps `es` leave. -/
structure Grows (s : State) (k : Fs.State) (es : List Event) (s' : State) (k' : Fs.State) : Prop where
  sound : Sound s' k'
  freeinode : s'.freeinode = s.freeinode + allocated es
  bytes : ∀ i < NINODES, bytesOf k' i = bytesOf k i ++ appended i es
  types : ∀ i, 1 ≤ i → i < s.freeinode → (dinode sb k'.disk i).type = (dinode sb k.disk i).type

theorem Appends.grows (appends : Appends s k inum p s' k') (sound : Sound s k) : Grows s k [.append inum p] s' k' := by
  refine ⟨appends.sound, appends.freeinode, fun i inside => ?_, appends.types⟩
  simp only [appended, List.append_nil]
  by_cases own : inum = i
  · rw [if_pos own, ← own]
    exact appends.own
  · rw [if_neg own, List.append_nil]
    by_cases used : 1 ≤ i ∧ i < s.freeinode
    · exact appends.other i used.1 used.2 (Ne.symm own)
    · rw [sound.bytes_unused inside used, appends.sound.bytes_unused inside (by rw [appends.freeinode]; exact used)]

theorem alloc_grows (sound : Sound s k) (type : BitVec 16) (room : s.freeinode < NINODES) (kind : type = T_DIR ∨ type = T_FILE) :
    ∃ s' k', ialloc type s = .ok (s.freeinode, s') ∧ Grows s k [.alloc type] s' k' ∧
      (dinode sb k'.disk s.freeinode).type = type := by
  obtain ⟨s', k', ran, sound', inodes, new, others, isType, types⟩ := ialloc_ok sound type room kind
  refine ⟨s', k', ran, ⟨sound', inodes, fun i inside => ?_, types⟩, isType⟩
  rw [show appended i [.alloc type] = [] from rfl, List.append_nil]
  by_cases used : 1 ≤ i ∧ i < s.freeinode
  · exact others i used.1 used.2
  · rw [sound.bytes_unused inside used]
    by_cases isNew : i = s.freeinode
    · rw [isNew, new]
    · exact sound'.bytes_unused inside (by omega)

theorem step_grows (sound : Sound s k) {e : Event} (allowed : Allowed s.freeinode [e]) (ran : step s e = .ok s') :
    ∃ k', Grows s k [e] s' k' := by
  cases e with
  | alloc type =>
    obtain ⟨s₁, k', ran', grows, -⟩ := alloc_grows sound type allowed.1 allowed.2.1
    simp only [step] at ran
    rw [ok_bind ran'] at ran
    cases ran
    exact ⟨k', grows⟩
  | append inum p =>
    obtain ⟨k', appends⟩ := iappend_appends sound allowed.1 ran
    exact ⟨k', appends.grows sound⟩

theorem run_grows (es : List Event) :
    ∀ {s s' : State} {k : Fs.State}, Sound s k → Allowed s.freeinode es → run s es = .ok s' → ∃ k', Grows s k es s' k' := by
  induction es with
  | nil =>
    intro s s' k sound _ ran
    cases ran
    exact ⟨k, sound, rfl, fun i _ => (List.append_nil _).symm, fun _ _ _ => rfl⟩
  | cons e es ih =>
    intro s s' k sound allowed ran
    obtain ⟨s₁, stepped, rest⟩ := bind_ok ran
    obtain ⟨k₁, first⟩ := step_grows sound allowed.cons.1 stepped
    obtain ⟨k', second⟩ := ih first.sound (by rw [first.freeinode]; exact allowed.cons.2) rest
    refine ⟨k', second.sound, ?_, fun i inside => ?_, fun i low high => ?_⟩
    · rw [second.freeinode, first.freeinode, allocated_cons e es, Nat.add_assoc]
    · rw [second.bytes i inside, first.bytes i inside, appended_cons i e es, List.append_assoc]
    · rw [second.types i low (by rw [first.freeinode]; omega), first.types i low high]

/-- A run with enough blocks, whose files all end below the single indirect block. -/
theorem run_ok (es : List Event) :
    ∀ {s : State} {k : Fs.State}, Sound s k → Allowed s.freeinode es →
      (∀ i < NINODES, (bytesOf k i ++ appended i es).length ≤ reach * BSIZE) →
      nmeta + ∑ i ∈ Finset.range NINODES, need (bytesOf k i ++ appended i es).length ≤ FSSIZE → ∃ s', run s es = .ok s' := by
  induction es with
  | nil => exact fun _ _ _ _ => ⟨_, rfl⟩
  | cons e es ih =>
    intro s k sound allowed small enough
    obtain ⟨s₁, stepped⟩ : ∃ s₁, step s e = .ok s₁ := by
      cases e with
      | alloc type =>
        obtain ⟨s₁, -, ran, -, -⟩ := alloc_grows sound type allowed.1 allowed.2.1
        exact ⟨s₁, by simp only [step]; rw [ok_bind ran]⟩
      | append inum p =>
        have used := allowed.1
        have inside := sound.lt_ninodes used
        have lengths : ∀ i, (bytesOf k i).length = (dinode sb k.disk i).size := fun i => length_contents
        have fits : Fits s (dinode sb k.disk inum).size p.length := by
          have own := small inum inside
          simp only [appended, ↓reduceIte, List.length_append, lengths] at own
          refine ⟨by omega, ?_⟩
          -- the blocks of this append are among those of the run
          have sum := sum_need (f := fun i => (dinode sb k.disk i).size)
            (g := fun i => (dinode sb k.disk i).size + if i = inum then p.length else 0) inside
            fun i _ ne => by rw [if_neg ne, Nat.add_zero]
          have less : ∑ i ∈ Finset.range NINODES, need ((dinode sb k.disk i).size + if i = inum then p.length else 0) ≤
              ∑ i ∈ Finset.range NINODES, need (bytesOf k i ++ appended i (.append inum p :: es)).length := by
            refine Finset.sum_le_sum fun i _ => need_mono ?_
            rw [List.length_append, lengths]
            simp only [appended, eq_comm (a := i)]
            split <;> simp
          have count := sound.count
          have mono : need (dinode sb k.disk inum).size ≤ need ((dinode sb k.disk inum).size + p.length) :=
            need_mono (Nat.le_add_right _ _)
          simp only [↓reduceIte] at sum
          omega
        obtain ⟨s₁, -, ran, -⟩ := iappend_ok sound used fits
        exact ⟨s₁, ran⟩
    obtain ⟨k₁, first⟩ := step_grows sound allowed.cons.1 stepped
    have same : ∀ i < NINODES, bytesOf k₁ i ++ appended i es = bytesOf k i ++ appended i (e :: es) := fun i inside => by
      rw [first.bytes i inside, appended_cons i e es, List.append_assoc]
    obtain ⟨s', ran⟩ := ih first.sound (by rw [first.freeinode]; exact allowed.cons.2)
      (fun i inside => by rw [same i inside]; exact small i inside)
      (by rwa [Finset.sum_congr rfl fun i member => by rw [same i (Finset.mem_range.mp member)]])
    exact ⟨s', by rw [run, List.foldlM_cons, ok_bind stepped]; exact ran⟩

/-! ### Reading the image -/

/-- The kernel reads `bytes` from inode `i` of the image, whatever the bitmap says. -/
def Agrees (s : State) (i : Nat) (bytes : List Byte) : Prop :=
  ∀ k : Fs.State, (∀ a, ¬IsBitmap a → k.disk a = s.image a) →
    ∀ ip : Inode, ip.inum = i → ip.toDinode = dinode sb k.disk i →
      ip.size = bytes.length ∧ ∀ devsw off n, off < 2 ^ 32 → n < 2 ^ 32 →
        (ByteArrays.read bytes off n = none → readi devsw sb ip off n k = .ok ((-1, []), ip, k)) ∧
        ∀ r, ByteArrays.read bytes off n = some r → readi devsw sb ip off n k = .ok (((r.length : Nat), r), ip, k)

theorem Sound.agrees (sound : Sound s k) {i : Nat} (used : 1 ≤ i ∧ i < s.freeinode) : Agrees s i (bytesOf k i) := by
  intro k₂ same ip inum entry
  have data : ∀ a, nmeta ≤ a → k₂.disk a = k.disk a := fun a high => by
    rw [same a (not_isBitmap_data high), sound.sim.data high]
  have inodes : ∀ j < NINODES, dinode sb k₂.disk j = dinode sb k.disk j := fun j inside => by
    rw [dinode, same _ (not_isBitmap_inode inside), dinode, sound.sim.inode_block inside]
  have inside := sound.lt_ninodes used
  have roots : ∀ r, (trees sb (dinode sb k₂.disk) k₂.disk).root r = (trees sb (dinode sb k.disk) k.disk).root r := by
    rintro ⟨j, l⟩
    by_cases bound : 1 ≤ j ∧ j < sb.ninodes
    · exact trees_root_congr (by rw [inodes j bound.2]) (by rw [inodes j bound.2])
    · rw [trees_root_outside bound, trees_root_outside bound]
  have addr : ∀ n, shape.IsNode n →
      (trees sb (dinode sb k₂.disk) k₂.disk).addr n = (trees sb (dinode sb k.disk) k.disk).addr n := by
    refine addr_congr roots fun n j node _ _ live => ?_
    change (k₂.disk _).word j = (k.disk _).word j
    rw [data _ (sound.safe.inData _ ⟨n, node, rfl, live⟩).1]
  have own : ip.toDinode = dinode sb k.disk i := by rw [entry, inodes i inside]
  have table : table sb ip k₂.disk = dinode sb k₂.disk := table_eq ip (by rw [inum, entry])
  have filled := sound.filled used
  have contents : heldContents sb ip k₂ ip.inum = bytesOf k i := by
    rw [heldContents, table, inum]
    exact contents_congr (by rw [inodes i inside]) filled addr fun b owned => data b (sound.safe.inData b owned).1
  have filled₂ : Filled (view sb ip k₂) ip.inum ip.toDinode := by
    refine ⟨by rw [own]; exact filled.bounded, fun p small => ?_⟩
    rw [own] at small
    rw [view, table, inum, addr _ (leaf_isNode i (div_BSIZE_lt (Nat.lt_of_lt_of_le small filled.bounded)))]
    exact filled.live p small
  have root : ∀ j, (view sb ip k₂).root (ip.inum, j) = ip.addrs j := fun j => by
    have inUse := sound.inUse used
    rw [view, table, inum, roots, own]
    simp only [trees, if_pos inUse]
  have notDev : ip.type ≠ T_DEV := by
    rw [own]
    exact (sound.notDev used).2
  refine ⟨by rw [own, length_contents], fun devsw off n offWord lenWord => ?_⟩
  obtain ⟨rejected, read⟩ := readi_refines devsw root notDev filled₂ offWord lenWord
  rw [contents] at rejected read
  exact ⟨rejected, fun r is => (read r is).2⟩

/-- **`mkfs` and the kernel agree on files**, exactly if no file reaches behind the single indirect
block: for every sequence of `ialloc` and `iappend` with enough blocks in the image, `iappend` stays
inside its arrays and the kernel reads from every inode the bytes that were appended to it, if and
only if every inode gets at most `NDIRECT + NINDIRECT` blocks of bytes. -/
theorem files_agree_iff {es : List Event} (allowed : Allowed 1 es)
    (enough : nmeta + ∑ i ∈ Finset.range NINODES, need (appended i es).length ≤ FSSIZE) :
    (∃ s, run fresh es = .ok s ∧ ∀ i, 1 ≤ i → i ≤ allocated es → Agrees s i (appended i es)) ↔
      ∀ i < NINODES, (appended i es).length ≤ (NDIRECT + NINDIRECT) * BSIZE := by
  have first : fresh.freeinode = 1 := by rw [fresh_eq]
  have nothing : ∀ i < NINODES, bytesOf { disk := kernelDisk fresh, logged := [] } i = [] := fun i inside =>
    fresh_sound.bytes_unused inside (by rw [first]; omega)
  have allowed' : Allowed fresh.freeinode es := by rwa [first]
  constructor
  · rintro ⟨s, ran, -⟩ i inside
    obtain ⟨k, grows⟩ := run_grows es fresh_sound allowed' ran
    have bytes := grows.bytes i inside
    rw [nothing i inside, List.nil_append] at bytes
    rw [← bytes, length_contents]
    exact grows.sound.bounded i inside
  · intro small
    obtain ⟨s, ran⟩ := run_ok es fresh_sound allowed'
      (fun i inside => by rw [nothing i inside, List.nil_append]; exact small i inside)
      (by rwa [Finset.sum_congr rfl fun i member => by rw [nothing i (Finset.mem_range.mp member), List.nil_append]])
    obtain ⟨k, grows⟩ := run_grows es fresh_sound allowed' ran
    refine ⟨s, ran, fun i low high => ?_⟩
    have used : 1 ≤ i ∧ i < s.freeinode := ⟨low, by rw [grows.freeinode, first]; omega⟩
    have inside := grows.sound.lt_ninodes used
    have bytes := grows.bytes i inside
    rw [nothing i inside, List.nil_append] at bytes
    rw [← bytes]
    exact grows.sound.agrees used

/-- The theorem at a file of two bytes. -/
theorem files_agree_iff_two : ∃ s, run fresh [.alloc T_FILE, .append 1 [72, 105]] = .ok s ∧
    ∀ i, 1 ≤ i → i ≤ 1 → Agrees s i (appended i [.alloc T_FILE, .append 1 [72, 105]]) := by
  have allowed : Allowed 1 [.alloc T_FILE, .append 1 [72, 105]] := ⟨by decide, .inr rfl, ⟨by decide, by decide⟩, trivial⟩
  refine (files_agree_iff allowed (by decide +kernel)).mpr fun i _ => ?_
  have short : (appended i [.alloc T_FILE, .append 1 [72, 105]]).length ≤ 2 := by
    simp only [appended]
    split <;> simp
  exact short.trans (by decide)

/-- One byte too many for the single indirect block. -/
def tooLong : List Byte := List.replicate (reach * BSIZE + 1) 0

/-- `iappend` of a file that the kernel could hold, and for which there are blocks. -/
theorem iappend_outOfBounds : tooLong.length ≤ MAXFILE * BSIZE ∧ nmeta + need tooLong.length ≤ FSSIZE ∧
    run fresh [.alloc T_FILE, .append 1 tooLong] = .error .outOfBounds := by
  have first : fresh.freeinode = 1 := by rw [fresh_eq]
  have length : tooLong.length = reach * BSIZE + 1 := List.length_replicate
  obtain ⟨s, k, ran, grows, -⟩ := alloc_grows fresh_sound T_FILE (by rw [first]; decide) (.inr rfl)
  rw [first] at ran
  have next : s.freeinode = 2 := by rw [grows.freeinode, first]; rfl
  have sizes : ∀ i < NINODES, (dinode sb k.disk i).size = 0 := by
    intro i inside
    have bytes := grows.bytes i inside
    rw [fresh_sound.bytes_unused inside (by rw [first]; omega)] at bytes
    have size := congrArg List.length bytes
    rwa [length_contents] at size
  have free : s.freeblock = nmeta := by
    rw [grows.sound.count, Finset.sum_eq_zero fun i member => by rw [sizes i (Finset.mem_range.mp member)]; rfl]
    rfl
  have size := sizes 1 (by decide)
  have failed : iappend 1 tooLong s = .error .outOfBounds := by
    rw [iappend_error grows.sound ⟨Nat.le_refl 1, by rw [next]; decide⟩, size, free, length, if_neg (by decide)]
    rw [size, length]
    exact fun fits => absurd fits.1 (by decide)
  refine ⟨by rw [length]; decide, by rw [length]; decide, ?_⟩
  have stepped : step fresh (.alloc T_FILE) = .ok s := by
    rw [step, ok_bind ran]
  rw [run, List.foldlM_cons, ok_bind stepped, List.foldlM_cons, step, failed]
  rfl

end Xv6.Mkfs
