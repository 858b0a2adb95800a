import Xv6.Mkfs.Model
import Xv6.Fs.Refinement

/-!
# `iappend` is `writei` at the end of the file

The image with the bitmap that says which blocks are in use is a disk for the kernel. On it `freeblock++` is
`balloc`, and a round of `iappend` is a round of the loop of `writei`, as long as the block is below the
single indirect block.
-/

namespace Xv6.Mkfs

open Bytes Fs Forest Steps

theorem sb_valid : sb.Valid := sb_eq ▸ mkfsSuperblock_valid

theorem nmeta_eq : nmeta = 98 := rfl

theorem FSSIZE_eq : FSSIZE = 40000 := rfl

theorem sb_bmapstart : sb.bmapstart = 88 := rfl

/-! ### The disk for the kernel -/

/-- The blocks of the bitmap. -/
def IsBitmap (a : Nat) : Prop := sb.bmapstart ≤ a ∧ a < nmeta

instance (a : Nat) : Decidable (IsBitmap a) := inferInstanceAs (Decidable (_ ∧ _))

/-- The image with the bits of the blocks below `freeblock` set. -/
def kernelDisk (s : State) (a : Nat) : Block :=
  if IsBitmap a then Buf.ofBits 512 fun i => decide ((a - sb.bmapstart) * BPB + i < s.freeblock) else s.image a

theorem kernelDisk_of_not {s : State} {a : Nat} (outside : ¬IsBitmap a) : kernelDisk s a = s.image a := if_neg outside

theorem not_isBitmap_data {a : Nat} (high : nmeta ≤ a) : ¬IsBitmap a := fun h => by
  have := h.2
  omega

theorem not_isBitmap_inode {i : Nat} (inside : i < NINODES) : ¬IsBitmap (sb.IBLOCK i) := fun h => by
  have := sb_valid.iblock_bounds (show i < sb.ninodes from inside)
  have := h.1
  omega

theorem marked_kernelDisk (s : State) {b : Nat} (inside : b < FSSIZE) :
    marked sb (kernelDisk s) b = decide (b < s.freeblock) := by
  have bounds := sb_valid.bblock_bounds (show b < sb.size from inside)
  have bit : b % BPB < 8 * 512 := Nat.mod_lt b (by decide)
  rw [marked, kernelDisk, if_pos (show IsBitmap _ from bounds), Buf.bit_ofBits _ bit]
  congr 2
  simp only [Superblock.BBLOCK, BPB, BSIZE] at *
  omega

/-- A run of `mkfs` and the disk for the kernel beside it. -/
structure Sim (s : State) (k : Fs.State) : Prop where
  sectors : s.sectors = FSSIZE
  low : nmeta ≤ s.freeblock
  high : s.freeblock ≤ FSSIZE
  blank : ∀ a, s.freeblock ≤ a → a < FSSIZE → s.image a = Buf.zero 512
  bitmap : ∀ a, IsBitmap a → s.image a = Buf.zero 512
  disk : k.disk = kernelDisk s

variable {s s' : State} {k k' : Fs.State}

namespace Sim

theorem marked (sim : Sim s k) {b : Nat} (inside : b < FSSIZE) : Fs.marked sb k.disk b = decide (b < s.freeblock) := by
  rw [sim.disk, marked_kernelDisk s inside]

theorem data (sim : Sim s k) {a : Nat} (high : nmeta ≤ a) : k.disk a = s.image a := by
  rw [sim.disk, kernelDisk_of_not (not_isBitmap_data high)]

theorem rsect (sim : Sim s k) {a : Nat} (inside : a < FSSIZE) : Mkfs.rsect a s = .ok (s.image a) :=
  if_pos (sim.sectors ▸ inside)

theorem wsect (sim : Sim s k) {a : Nat} (outside : ¬IsBitmap a) (used : a < s.freeblock) (buf : Block) :
    Sim (Mkfs.wsect a buf s) (logWrite k a buf) where
  sectors := by
    have := sim.high
    have sectors := sim.sectors
    change max s.sectors (a + 1) = FSSIZE
    omega
  low := sim.low
  high := sim.high
  blank b free inside := by
    change s.freeblock ≤ b at free
    have ne : b ≠ a := by
      rintro rfl
      exact absurd used (by omega)
    exact (Function.update_of_ne ne _ _).trans (sim.blank b free inside)
  bitmap b isBitmap := by
    have ne : b ≠ a := by
      rintro rfl
      exact outside isBitmap
    exact (Function.update_of_ne ne _ _).trans (sim.bitmap b isBitmap)
  disk := by
    funext b
    change Function.update k.disk a buf b = kernelDisk (Mkfs.wsect a buf s) b
    by_cases here : b = a
    · subst here
      rw [Function.update_self, kernelDisk_of_not outside]
      change buf = Function.update s.image b buf b
      rw [Function.update_self]
    · rw [Function.update_of_ne here, sim.disk]
      unfold kernelDisk
      split
      · rfl
      · exact (Function.update_of_ne here _ _).symm

theorem bump_disk (sim : Sim s k) (room : s.freeblock < FSSIZE) :
    (allocate sb k s.freeblock).disk = kernelDisk { s with freeblock := s.freeblock + 1 } := by
  have bounds := sb_valid.bblock_bounds (show s.freeblock < sb.size from room)
  have low := sim.low
  funext a
  change Function.update (Function.update k.disk (sb.BBLOCK s.freeblock) _) s.freeblock (Buf.zero 512) a = _
  by_cases new : a = s.freeblock
  · -- the new block was blank before
    rw [new, Function.update_self, kernelDisk_of_not (not_isBitmap_data low)]
    exact (sim.blank _ (Nat.le_refl _) room).symm
  rw [Function.update_of_ne new]
  by_cases block : a = sb.BBLOCK s.freeblock
  · rw [block, Function.update_self, kernelDisk, if_pos (show IsBitmap _ from bounds)]
    apply Buf.ext_bit
    intro i inside
    rw [bit_markUsed _ _ _ (Nat.mod_lt _ (by decide)), sim.disk, kernelDisk, if_pos (show IsBitmap _ from bounds),
      Buf.bit_ofBits _ inside, Buf.bit_ofBits _ inside, ← Bool.decide_or, decide_eq_decide]
    simp only [Superblock.BBLOCK, BPB, BSIZE] at *
    omega
  · rw [Function.update_of_ne block, sim.disk]
    unfold kernelDisk
    split
    next isBitmap =>
      apply Buf.ext_bit
      intro i inside
      rw [Buf.bit_ofBits _ inside, Buf.bit_ofBits _ inside, decide_eq_decide]
      -- the bit of the new block is in another block of the bitmap
      have := isBitmap.1
      simp only [Superblock.BBLOCK, BPB, BSIZE] at *
      omega
    · rfl

/-- `freeblock++` is `balloc`. -/
theorem balloc (sim : Sim s k) (room : s.freeblock < FSSIZE) :
    ∃ k', Fs.balloc sb k = .ok (s.freeblock, k') ∧ Sim { s with freeblock := s.freeblock + 1 } k' := by
  cases ran : Fs.balloc sb k with
  | error e =>
    have full := (balloc_error ran).2 s.freeblock room
    rw [sim.marked room, decide_eq_true_eq] at full
    omega
  | ok found =>
    obtain ⟨b, k'⟩ := found
    obtain ⟨inside, clear, lowest, rfl⟩ := balloc_ok ran
    have isNew : b = s.freeblock := by
      rw [sim.marked inside, decide_eq_false_iff_not] at clear
      by_contra ne
      have used := lowest s.freeblock (by omega)
      rw [sim.marked room, decide_eq_true_eq] at used
      omega
    subst isNew
    refine ⟨_, rfl, sim.sectors, ?_, room, ?_, sim.bitmap, sim.bump_disk room⟩
    · have := sim.low
      change nmeta ≤ s.freeblock + 1
      omega
    · intro a free
      exact sim.blank a (by change s.freeblock + 1 ≤ a at free; omega)

end Sim

/-! ### Files without blocks behind their end -/

/-- The blocks that `iappend` can reach: those below the single indirect block. -/
def reach : Nat := NDIRECT + NINDIRECT

/-- The blocks of a file of `size` bytes, with the indirect block. -/
def need (size : Nat) : Nat :=
  (size + BSIZE - 1) / BSIZE + if NDIRECT < (size + BSIZE - 1) / BSIZE then 1 else 0

/-- Inode `i` has blocks exactly for its first `off` bytes. -/
structure Tight (f : Store Root Nat) (i off : Nat) : Prop where
  leaf : ∀ bn < MAXFILE, f.addr (leaf i bn) ≠ 0 ↔ bn * BSIZE < off
  index : f.addr ((i, 10), []) ≠ 0 ↔ NDIRECT * BSIZE < off
  double : f.addr ((i, 11), []) = 0
  triple : f.addr ((i, 12), []) = 0

variable {f g : Store Root Nat} {i off : Nat}

theorem leafOf_direct {bn : Nat} (direct : bn < NDIRECT) : leafOf bn = (⟨bn, direct_lt direct⟩, []) :=
  dif_pos direct

theorem leafOf_indirect {bn : Nat} (high : ¬bn < NDIRECT) (low : bn - NDIRECT < NINDIRECT) :
    leafOf bn = (10, [bn - NDIRECT]) := by
  rw [leafOf, dif_neg high]
  exact if_pos low

/-- The root of a block that `iappend` can reach. -/
theorem leafOf_root {bn : Nat} (small : bn < reach) :
    (leafOf bn).1 = 10 ∧ 10 ≤ bn ∨ (leafOf bn).1.val = bn ∧ bn < 10 := by
  by_cases direct : bn < NDIRECT
  · rw [leafOf_direct direct]
    exact .inr ⟨rfl, direct⟩
  · rw [leafOf_indirect direct (Nat.sub_lt_left_of_lt_add (Nat.le_of_not_lt direct) small)]
    exact .inl ⟨rfl, Nat.le_of_not_lt direct⟩

theorem root_isNode (r : Root) : shape.IsNode (r, []) := ⟨Nat.zero_le _, by simp⟩

theorem Tight.congr (tight : Tight f i off) (same : ∀ n, shape.IsNode n → n.1.1 = i → g.addr n = f.addr n) :
    Tight g i off where
  leaf bn inside := by rw [same _ (leaf_isNode i inside) rfl, tight.leaf bn inside]
  index := by rw [same _ (root_isNode _) rfl, tight.index]
  double := by rw [same _ (root_isNode _) rfl, tight.double]
  triple := by rw [same _ (root_isNode _) rfl, tight.triple]

variable {ip ip' : Inode} {x m : Nat}

/-- `bmap` of the block at `off` gives the file its next bytes. -/
theorem Tight.bmap (held : Held sb ip k) (tight : Tight (view sb ip k) ip.inum off) (small : off / BSIZE < reach)
    (mapped : Fs.bmap sb ip (off / BSIZE) k = .ok (x, ip', k')) (some_ : 0 < m) (within : off % BSIZE + m ≤ BSIZE) :
    Tight (view sb ip' k') ip.inum (off + m) := by
  have inside : off / BSIZE < MAXFILE := Nat.lt_of_lt_of_le small (by decide)
  obtain ⟨es, ran, -, -, below, here, live⟩ := bmap_ok sb_valid held inside mapped
  have kept : ∀ n, shape.IsNode n → n ∉ grown es → (view sb ip' k').addr n = (view sb ip k).addr n :=
    fun n node other => ran.addr_of_not_grown sb_valid held node other
  have other : ∀ j : Fin (NDIRECT + 3), j ≠ (leafOf (off / BSIZE)).1 →
      (view sb ip' k').addr ((ip.inum, j), []) = (view sb ip k).addr ((ip.inum, j), []) := by
    intro j ne
    refine kept _ (root_isNode _) fun member => ne ?_
    exact (Prod.mk.inj (below _ member).1).2
  refine ⟨?_, ?_, ?_, ?_⟩
  · intro bn bound
    by_cases own : bn = off / BSIZE
    · subst own
      rw [here]
      refine iff_of_true live ?_
      simp only [BSIZE] at *
      omega
    · rw [kept _ (leaf_isNode _ bound), tight.leaf bn bound]
      · simp only [BSIZE] at *
        omega
      · -- a leaf above another leaf is that leaf
        intro member
        obtain ⟨same, isPrefix⟩ := below _ member
        have lengths : (Fs.leaf ip.inum bn).2.length = (Fs.leaf ip.inum (off / BSIZE)).2.length := by
          have rootSame : (leafOf bn).1 = (leafOf (off / BSIZE)).1 := (Prod.mk.inj same).2
          change (leafOf bn).2.length = (leafOf (off / BSIZE)).2.length
          rw [leafOf_length bound, leafOf_length inside, rootSame]
        have equal : Fs.leaf ip.inum bn = Fs.leaf ip.inum (off / BSIZE) :=
          Prod.ext same (isPrefix.eq_of_length lengths)
        exact own (leaf_injective bound inside equal).2
  · rcases leafOf_root small with ⟨root, indirect⟩ | ⟨root, direct⟩
    · have eq : Fs.leaf ip.inum (off / BSIZE) = ((ip.inum, 10), (leafOf (off / BSIZE)).2) := by rw [Fs.leaf, root]
      rw [eq] at here
      refine iff_of_true (live_above List.nil_prefix (by rw [here]; exact live)) ?_
      simp only [BSIZE, NDIRECT] at *
      omega
    · rw [other 10 (fun h => ?_), tight.index]
      · simp only [BSIZE, NDIRECT] at *
        omega
      · rw [← h] at root
        change 10 = off / BSIZE at root
        omega
  · rw [other 11 (fun h => ?_), tight.double]
    rcases leafOf_root small with ⟨root, -⟩ | ⟨root, direct⟩
    · exact absurd (h.trans root) (by decide)
    · rw [← h] at root
      change 11 = off / BSIZE at root
      omega
  · rw [other 12 (fun h => ?_), tight.triple]
    rcases leafOf_root small with ⟨root, -⟩ | ⟨root, direct⟩
    · exact absurd (h.trans root) (by decide)
    · rw [← h] at root
      change 12 = off / BSIZE at root
      omega

/-! ### The address of a block -/

/-- The blocks that the byte at `off` needs and the bytes before it do not. -/
def extra (off : Nat) : Nat := (if off % BSIZE = 0 then 1 else 0) + if off = NDIRECT * BSIZE then 1 else 0

theorem extra_of_ne (other : off ≠ NDIRECT * BSIZE) : extra off = if off % BSIZE = 0 then 1 else 0 := by
  rw [extra, if_neg other]
  rfl

theorem need_add (some_ : 0 < m) (within : off % BSIZE + m ≤ BSIZE) : need (off + m) = need off + extra off := by
  unfold need extra
  split_ifs <;> simp only [BSIZE, NDIRECT] at * <;> omega

theorem need_mono {a b : Nat} (le : a ≤ b) : need a ≤ need b := by
  unfold need
  split_ifs <;> simp only [BSIZE, NDIRECT] at * <;> omega

namespace Sim

theorem rootAddr (sim : Sim s k) (ip : Inode) (j : Fin (NDIRECT + 3)) (room : ip.addrs j = 0 → s.freeblock < FSSIZE) :
    ∃ k', rootEntry sb ip j k = .ok ((Mkfs.rootAddr ip.toDinode j s).1.addrs j,
        { ip with toDinode := (Mkfs.rootAddr ip.toDinode j s).1 }, k') ∧
      Sim (Mkfs.rootAddr ip.toDinode j s).2 k' := by
  unfold rootEntry Mkfs.rootAddr
  dsimp only
  split
  next empty =>
    obtain ⟨k', ran, sim'⟩ := sim.balloc (room empty)
    refine ⟨k', ?_, sim'⟩
    rw [ok_bind ran]
    simp only [Function.update_self]
  next live => exact ⟨k, rfl, sim⟩

theorem indexAddr (sim : Sim s k) {a i : Nat} (high : nmeta ≤ a) (used : a < s.freeblock) (small : i < NINDIRECT)
    (room : (s.image a).word i = 0 → s.freeblock < FSSIZE) :
    ∃ x s' k', Mkfs.indexAddr a i s = .ok (x, s') ∧ indexEntry sb a i k = .ok (x, k') ∧ Sim s' k' ∧
      s'.freeblock = s.freeblock + (if (s.image a).word i = 0 then 1 else 0) ∧ s'.freeinode = s.freeinode := by
  have inside : a < FSSIZE := Nat.lt_of_lt_of_le used sim.high
  unfold Mkfs.indexAddr indexEntry
  rw [ok_bind (sim.rsect inside), if_pos small]
  dsimp only
  rw [sim.data high]
  split
  next empty =>
    obtain ⟨k', ran, sim'⟩ := sim.balloc (room empty)
    have entry : ((s.image a).setWord i s.freeblock).word i = s.freeblock := by
      have := room empty
      simp only [NINDIRECT, BSIZE, FSSIZE] at *
      rw [Buf.word_setWord_same _ _ _ (by omega), Nat.mod_eq_of_lt (by omega)]
    refine ⟨_, _, _, rfl, ?_, sim'.wsect (not_isBitmap_data high) (Nat.lt_succ_of_lt used) _, rfl, rfl⟩
    rw [ok_bind ran, entry, sim'.data high]
  next live => exact ⟨_, s, k, rfl, rfl, sim, rfl, rfl⟩

end Sim

theorem rootAddr_of_zero {din : Dinode} {j : Fin (NDIRECT + 3)} (empty : din.addrs j = 0) :
    rootAddr din j s =
      ({ din with addrs := Function.update din.addrs j s.freeblock }, { s with freeblock := s.freeblock + 1 }) :=
  if_pos empty

theorem rootAddr_of_live {din : Dinode} {j : Fin (NDIRECT + 3)} (live : din.addrs j ≠ 0) : rootAddr din j s = (din, s) :=
  if_neg live

section Round

variable (sim : Sim s k) (held : Held sb ip k) (tight : Tight (view sb ip k) ip.inum off)
include held tight

/-- A direct block is missing exactly if `off` is at its start. -/
theorem direct_zero_iff (direct : off / BSIZE < NDIRECT) :
    ip.addrs ⟨off / BSIZE, direct_lt direct⟩ = 0 ↔ off % BSIZE = 0 := by
  have leaf := tight.leaf (off / BSIZE) (Nat.lt_of_lt_of_le direct (by decide))
  have addr : (view sb ip k).addr (Fs.leaf ip.inum (off / BSIZE)) = ip.addrs ⟨off / BSIZE, direct_lt direct⟩ := by
    rw [Fs.leaf, leafOf_direct direct]
    exact held.root _
  rw [addr] at leaf
  rw [← not_iff_not, ← ne_eq, leaf]
  simp only [BSIZE]
  omega

theorem index_zero_iff (indirect : ¬off / BSIZE < NDIRECT) : ip.addrs 10 = 0 ↔ off = NDIRECT * BSIZE := by
  have index := tight.index
  have addr : (view sb ip k).addr ((ip.inum, 10), []) = ip.addrs 10 := held.root _
  rw [addr] at index
  rw [← not_iff_not, ← ne_eq, index]
  simp only [BSIZE, NDIRECT] at *
  omega

include sim

theorem entry_zero_iff (indirect : ¬off / BSIZE < NDIRECT) (small : off / BSIZE < reach) (live : ip.addrs 10 ≠ 0) :
    nmeta ≤ ip.addrs 10 ∧ ip.addrs 10 < s.freeblock ∧
      ((s.image (ip.addrs 10)).word (off / BSIZE - NDIRECT) = 0 ↔ off % BSIZE = 0) := by
  have root : (view sb ip k).addr ((ip.inum, 10), []) = ip.addrs 10 := held.root _
  have owned : (view sb ip k).Owned shape (ip.addrs 10) := ⟨_, root_isNode _, root, live⟩
  have isData := held.safe.inData _ owned
  have used := held.safe.used _ owned
  rw [sim.marked isData.2, decide_eq_true_eq] at used
  refine ⟨isData.1, used, ?_⟩
  have leaf := tight.leaf (off / BSIZE) (Nat.lt_of_lt_of_le small (by decide))
  have width : off / BSIZE - NDIRECT < NINDIRECT := Nat.sub_lt_left_of_lt_add (Nat.le_of_not_lt indirect) small
  have addr : (view sb ip k).addr (Fs.leaf ip.inum (off / BSIZE)) =
      (s.image (ip.addrs 10)).word (off / BSIZE - NDIRECT) := by
    rw [Fs.leaf, leafOf_indirect indirect width]
    change (view sb ip k).addr ((ip.inum, 10), [] ++ [off / BSIZE - NDIRECT]) = _
    rw [Store.addr_concat, root, if_neg live, ← sim.data isData.1]
    rfl
  rw [addr] at leaf
  rw [← not_iff_not, ← ne_eq, leaf]
  simp only [BSIZE]
  omega

/-- `blockAddr` is `bmap`. -/
theorem blockAddr_bmap (small : off / BSIZE < reach) (room : s.freeblock + extra off ≤ FSSIZE) :
    ∃ x din s' k', blockAddr ip.toDinode (off / BSIZE) s = .ok (x, din, s') ∧
      Fs.bmap sb ip (off / BSIZE) k = .ok (x, { ip with toDinode := din }, k') ∧ Sim s' k' ∧
      s'.freeblock = s.freeblock + extra off ∧ s'.freeinode = s.freeinode := by
  have inside : off / BSIZE < MAXFILE := Nat.lt_of_lt_of_le small (by decide)
  rw [bmap_eq sb ip inside]
  unfold blockAddr bmapWalk
  by_cases direct : off / BSIZE < NDIRECT
  · have notFirst : off ≠ NDIRECT * BSIZE := by
      rintro rfl
      exact absurd direct (by decide)
    have zero := direct_zero_iff held tight direct
    rw [extra_of_ne notFirst] at room ⊢
    rw [dif_pos direct, leafOf_direct direct]
    obtain ⟨k', ran, sim'⟩ := sim.rootAddr ip ⟨off / BSIZE, direct_lt direct⟩ fun empty => by
      rw [if_pos (zero.mp empty)] at room
      omega
    refine ⟨_, _, (rootAddr ip.toDinode ⟨off / BSIZE, direct_lt direct⟩ s).2, k', rfl, ?_, sim', ?_⟩
    · rw [ok_bind ran]
      rfl
    · by_cases empty : ip.addrs ⟨off / BSIZE, direct_lt direct⟩ = 0
      · rw [rootAddr_of_zero empty, if_pos (zero.mp empty)]
        exact ⟨rfl, rfl⟩
      · rw [rootAddr_of_live empty, if_neg (fun h => empty (zero.mpr h))]
        exact ⟨rfl, rfl⟩
  · have width : off / BSIZE - NDIRECT < NINDIRECT := Nat.sub_lt_left_of_lt_add (Nat.le_of_not_lt direct) small
    have first := index_zero_iff held tight direct
    rw [dif_neg direct, leafOf_indirect direct width]
    by_cases empty : ip.addrs 10 = 0
    · -- the indirect block is new, and so is its entry
      have start := first.mp empty
      have two : extra off = 2 := by rw [start]; decide
      rw [two] at room ⊢
      obtain ⟨k₁, ran, sim₁⟩ := sim.rootAddr ip 10 fun _ => by omega
      rw [rootAddr_of_zero empty] at ran sim₁ ⊢
      dsimp only at ran ⊢
      rw [Function.update_self] at ran ⊢
      have blank : (s.image s.freeblock).word (off / BSIZE - NDIRECT) = 0 := by
        rw [sim.blank _ (Nat.le_refl _) (by omega), Buf.word_zero]
      obtain ⟨x, s', k', ran₁, ran₂, sim', free, inodes⟩ := sim₁.indexAddr sim.low (Nat.lt_succ_self _) width fun _ => by
        change s.freeblock + 1 < FSSIZE
        omega
      rw [if_pos blank] at free
      refine ⟨x, { ip.toDinode with addrs := Function.update ip.addrs 10 s.freeblock }, s', k', ?_, ?_, sim', free, inodes⟩
      · rw [ok_bind ran₁]
      · rw [ok_bind ran]
        dsimp only [indexWalk]
        rw [ok_bind ran₂]
        rfl
    · have later : off ≠ NDIRECT * BSIZE := fun h => empty (first.mpr h)
      obtain ⟨high, used, zero⟩ := entry_zero_iff sim held tight direct small empty
      rw [extra_of_ne later] at room ⊢
      obtain ⟨k₁, ran, sim₁⟩ := sim.rootAddr ip 10 fun h => absurd h empty
      rw [rootAddr_of_live empty] at ran sim₁ ⊢
      obtain ⟨x, s', k', ran₁, ran₂, sim', free, inodes⟩ := sim₁.indexAddr high used width fun h => by
        rw [if_pos (zero.mp h)] at room
        change s.freeblock < FSSIZE
        omega
      simp only [zero] at free
      refine ⟨x, ip.toDinode, s', k', ?_, ?_, sim', free, inodes⟩
      · dsimp only
        rw [ok_bind ran₁]
      · rw [ok_bind ran]
        dsimp only [indexWalk]
        rw [ok_bind ran₂]
        rfl

/-! ### The loop -/

/-- A round of `iappend` is a round of the loop of `writei`. -/
theorem round_ok {p : List Byte} (more : p.length ≠ 0) (small : off / BSIZE < reach) (room : s.freeblock + extra off ≤ FSSIZE) :
    ∃ din s' k', iappendLoop ip.toDinode off p s = iappendLoop din (off + chunk off p.length) (p.drop (chunk off p.length)) s' ∧
      writeLoop sb ip off p k =
        writeLoop sb { ip with toDinode := din } (off + chunk off p.length) (p.drop (chunk off p.length)) k' ∧
      Sim s' k' ∧ Held sb { ip with toDinode := din } k' ∧
      Tight (view sb { ip with toDinode := din } k') ip.inum (off + chunk off p.length) ∧
      s'.freeblock = s.freeblock + extra off ∧ s'.freeinode = s.freeinode := by
  have inside : off / BSIZE < MAXFILE := Nat.lt_of_lt_of_le small (by decide)
  obtain ⟨pos, -, within⟩ := chunk_spec off more
  obtain ⟨x, din, s₁, k₁, ran, mapped, sim₁, free, inodes⟩ := blockAddr_bmap sim held tight small room
  obtain ⟨es, ran', -, -, -, here, live⟩ := bmap_ok sb_valid held inside mapped
  have held₁ := (ran'.kept sb_valid held).held
  have isLeaf := leaf_isLeaf ip.inum inside
  have tight₁ := tight.bmap held small mapped pos within
  -- the block is a block of the file, so it is in use
  have owned : (view sb { ip with toDinode := din } k₁).Owned shape x := ⟨_, isLeaf.1, here, live⟩
  have isData := held₁.safe.inData _ owned
  have used := held₁.safe.used _ owned
  rw [sim₁.marked isData.2, decide_eq_true_eq] at used
  have position : off - off / BSIZE * BSIZE = off % BSIZE := by
    simp only [BSIZE]
    omega
  refine ⟨din, _, _, ?_, ?_, sim₁.wsect (not_isBitmap_data isData.1) used ((s₁.image x).move (off % BSIZE) (chunk off p.length) fun k => p.getD k 0),
    ?_, ?_, free, inodes⟩
  · conv_lhs => rw [iappendLoop]
    rw [dif_neg more]
    dsimp only
    rw [if_pos inside, ok_bind ran]
    dsimp only
    rw [ok_bind (sim₁.rsect isData.2), n1_eq, position]
  · conv_lhs => rw [writeLoop]
    rw [dif_neg more, ok_bind mapped]
    dsimp only
    rw [sim₁.data isData.1]
  · subst here
    exact overwrite_held sb_valid held₁ isLeaf live _
  · subst here
    exact tight₁.congr fun n node _ => overwrite_addr sb_valid held₁ isLeaf live _ node

omit held tight in
/-- An entry of the indirect block that gets a block behind the end of the image. -/
theorem indexAddr_full {a i : Nat} (inside : a < FSSIZE) (small : i < NINDIRECT) (empty : (s.image a).word i = 0)
    (full : s.freeblock = FSSIZE) : ∃ x s', indexAddr a i s = .ok (x, s') ∧ s'.sectors ≤ x := by
  have entry : ((s.image a).setWord i s.freeblock).word i = FSSIZE := by
    simp only [NINDIRECT, BSIZE] at small
    rw [full, Buf.word_setWord_same _ _ _ (by omega)]
    rfl
  rw [indexAddr, ok_bind (sim.rsect inside), if_pos small, if_pos empty]
  refine ⟨_, _, rfl, ?_⟩
  have sectors := sim.sectors
  rw [entry]
  change max s.sectors (a + 1) ≤ FSSIZE
  omega

theorem blockAddr_full (small : off / BSIZE < reach) (full : FSSIZE < s.freeblock + extra off) :
    blockAddr ip.toDinode (off / BSIZE) s = .error .read ∨
      ∃ x din s', blockAddr ip.toDinode (off / BSIZE) s = .ok (x, din, s') ∧ s'.sectors ≤ x := by
  have high := sim.high
  by_cases direct : off / BSIZE < NDIRECT
  · have notFirst : off ≠ NDIRECT * BSIZE := by
      rintro rfl
      exact absurd direct (by decide)
    rw [extra_of_ne notFirst] at full
    have start : off % BSIZE = 0 := by
      by_contra later
      rw [if_neg later] at full
      omega
    have empty := (direct_zero_iff held tight direct).mpr start
    rw [if_pos start] at full
    right
    rw [blockAddr, dif_pos direct]
    dsimp only
    rw [rootAddr_of_zero empty]
    refine ⟨_, _, _, rfl, ?_⟩
    dsimp only
    rw [Function.update_self, sim.sectors]
    omega
  · have width : off / BSIZE - NDIRECT < NINDIRECT := Nat.sub_lt_left_of_lt_add (Nat.le_of_not_lt direct) small
    have first := index_zero_iff held tight direct
    rw [blockAddr, dif_neg direct]
    by_cases empty : ip.addrs 10 = 0
    · have two : extra off = 2 := by rw [first.mp empty]; decide
      rw [two] at full
      rw [rootAddr_of_zero empty]
      dsimp only
      rw [Function.update_self]
      by_cases room : s.freeblock < FSSIZE
      · -- one block is left, for the indirect block
        obtain ⟨k₁, -, sim₁⟩ := sim.balloc room
        have blank : (s.image s.freeblock).word (off / BSIZE - NDIRECT) = 0 := by
          rw [sim.blank _ (Nat.le_refl _) room, Buf.word_zero]
        obtain ⟨x, s', ran, outside⟩ := indexAddr_full sim₁ room width blank (by change s.freeblock + 1 = FSSIZE; omega)
        right
        rw [ok_bind ran]
        exact ⟨_, _, _, rfl, outside⟩
      · left
        rw [indexAddr, rsect, if_neg (by rw [sim.sectors]; exact room)]
        rfl
    · obtain ⟨-, used, zero⟩ := entry_zero_iff sim held tight direct small empty
      rw [extra_of_ne fun h => empty (first.mpr h)] at full
      have start : off % BSIZE = 0 := by
        by_contra later
        rw [if_neg later] at full
        omega
      rw [if_pos start] at full
      obtain ⟨x, s', ran, outside⟩ := indexAddr_full sim (Nat.lt_of_lt_of_le used high) width (zero.mpr start) (by omega)
      rw [rootAddr_of_live empty]
      right
      dsimp only
      rw [ok_bind ran]
      exact ⟨_, _, _, rfl, outside⟩

theorem round_read {p : List Byte} (more : p.length ≠ 0) (small : off / BSIZE < reach)
    (full : FSSIZE < s.freeblock + extra off) : iappendLoop ip.toDinode off p s = .error .read := by
  have inside : off / BSIZE < MAXFILE := Nat.lt_of_lt_of_le small (by decide)
  rw [iappendLoop, dif_neg more]
  dsimp only
  rw [if_pos inside]
  rcases blockAddr_full sim held tight small full with failed | ⟨x, din, s', ran, outside⟩
  · rw [failed]
    rfl
  · rw [ok_bind ran]
    dsimp only
    rw [rsect, if_neg (Nat.not_lt.mpr outside)]
    rfl

/-- The round behind the indirect block: the index is outside of `indirect`. -/
theorem round_outOfBounds {p : List Byte} (more : p.length ≠ 0) (behind : off = reach * BSIZE) :
    iappendLoop ip.toDinode off p s = .error .outOfBounds := by
  have live : (view sb ip k).addr ((ip.inum, 10), []) ≠ 0 := tight.index.mpr (by rw [behind]; decide)
  have root : (view sb ip k).addr ((ip.inum, 10), []) = ip.addrs 10 := held.root _
  have isData := held.inData (root_isNode _) live
  rw [root] at live isData
  rw [iappendLoop, dif_neg more, behind]
  dsimp only
  rw [if_pos (by decide), blockAddr, dif_neg (by decide), rootAddr_of_live live]
  dsimp only
  rw [indexAddr, ok_bind (sim.rsect isData.2), if_neg (by decide)]
  rfl

end Round

/-- `iappend` is `writei` as long as there are blocks and the indirect block reaches. -/
theorem iappendLoop_ok (p : List Byte) :
    ∀ {off : Nat} {ip : Inode} {s : State} {k : Fs.State}, Sim s k → Held sb ip k → Tight (view sb ip k) ip.inum off →
      off + p.length ≤ reach * BSIZE → s.freeblock + (need (off + p.length) - need off) ≤ FSSIZE →
      ∃ din s' k', iappendLoop ip.toDinode off p s = .ok (din, off + p.length, s') ∧
        writeLoop sb ip off p k = .ok ({ ip with toDinode := din }, k') ∧ Sim s' k' ∧
        Tight (view sb { ip with toDinode := din } k') ip.inum (off + p.length) ∧
        s'.freeblock = s.freeblock + (need (off + p.length) - need off) ∧ s'.freeinode = s.freeinode := by
  induction h : p.length using Nat.strong_induction_on generalizing p with
  | _ len ih =>
    intro off ip s k sim held tight small room
    subst h
    by_cases more : p.length = 0
    · refine ⟨ip.toDinode, s, k, ?_, ?_, sim, ?_, ?_, rfl⟩
      · rw [iappendLoop, dif_pos more, more, Nat.add_zero]
      · rw [writeLoop, dif_pos more]
      · rw [more]
        exact tight
      · rw [more, Nat.add_zero, Nat.sub_self, Nat.add_zero]
    · obtain ⟨pos, fewer, within⟩ := chunk_spec off more
      have count := need_add pos within
      have mono : need (off + chunk off p.length) ≤ need (off + p.length) := need_mono (by omega)
      obtain ⟨din, s₁, k₁, ran, ran', sim₁, held₁, tight₁, free, inodes⟩ :=
        round_ok sim held tight more (Nat.div_lt_of_lt_mul (by rw [Nat.mul_comm]; omega)) (by omega)
      have short : (p.drop (chunk off p.length)).length = p.length - chunk off p.length := List.length_drop
      have whole : off + chunk off p.length + (p.length - chunk off p.length) = off + p.length := by omega
      obtain ⟨din', s', k', ran₁, ran₁', sim', tight', free', inodes'⟩ :=
        ih _ (by omega) (p.drop (chunk off p.length)) short sim₁ held₁ tight₁ (by omega) (by rw [whole]; omega)
      rw [whole] at ran₁ tight' free'
      exact ⟨din', s', k', ran.trans ran₁, ran'.trans ran₁', sim', tight', by omega, inodes'.trans inodes⟩

theorem iappendLoop_error (p : List Byte) :
    ∀ {off : Nat} {ip : Inode} {s : State} {k : Fs.State}, Sim s k → Held sb ip k → Tight (view sb ip k) ip.inum off →
      off ≤ reach * BSIZE →
      ¬(off + p.length ≤ reach * BSIZE ∧ s.freeblock + (need (off + p.length) - need off) ≤ FSSIZE) →
      iappendLoop ip.toDinode off p s = .error
        (if FSSIZE < s.freeblock + (need (min (off + p.length) (reach * BSIZE)) - need off) then .read else .outOfBounds) := by
  induction h : p.length using Nat.strong_induction_on generalizing p with
  | _ len ih =>
    intro off ip s k sim held tight start fails
    subst h
    have high := sim.high
    have more : p.length ≠ 0 := by
      intro none
      rw [none, Nat.add_zero, Nat.sub_self] at fails
      exact fails ⟨start, high⟩
    by_cases behind : off = reach * BSIZE
    · rw [round_outOfBounds sim held tight more behind, if_neg]
      rw [behind, Nat.min_eq_right (by omega), Nat.sub_self]
      omega
    · obtain ⟨pos, fewer, within⟩ := chunk_spec off more
      have count := need_add pos within
      have small : off / BSIZE < reach := Nat.div_lt_of_lt_mul (by rw [Nat.mul_comm]; omega)
      have whole : off + chunk off p.length ≤ reach * BSIZE := by
        simp only [BSIZE, reach, NDIRECT, NINDIRECT] at *
        omega
      have mono : need (off + chunk off p.length) ≤ need (off + p.length) := need_mono (by omega)
      have mono' : need (off + chunk off p.length) ≤ need (min (off + p.length) (reach * BSIZE)) := need_mono (by omega)
      by_cases room : s.freeblock + extra off ≤ FSSIZE
      · obtain ⟨din, s₁, k₁, ran, -, sim₁, held₁, tight₁, free, -⟩ := round_ok sim held tight more small room
        have short : (p.drop (chunk off p.length)).length = p.length - chunk off p.length := List.length_drop
        have rest : off + chunk off p.length + (p.length - chunk off p.length) = off + p.length := by omega
        have failed := ih _ (by omega) (p.drop (chunk off p.length)) short sim₁ held₁ tight₁ whole (by rw [rest]; omega)
        have same : s₁.freeblock + (need (min (off + p.length) (reach * BSIZE)) - need (off + chunk off p.length)) =
            s.freeblock + (need (min (off + p.length) (reach * BSIZE)) - need off) := by omega
        rw [ran, failed, rest, same]
      · rw [round_read sim held tight more small (by omega), if_pos (by omega)]

end Xv6.Mkfs
