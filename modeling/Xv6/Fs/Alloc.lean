import Xv6.Fs.Model

/-!
# The block allocator

`balloc` takes the lowest block whose bit is clear, sets the bit and zeroes the block;
`bfree` clears a bit that is set. Both are described by what they do to the bits, the
dinodes and the data blocks.
-/

namespace Xv6.Fs

open Bytes

/-! ### Bits of a bitmap block -/

theorem isFree_eq (bp : Block) (bi : Nat) : isFree bp bi = !bp.bit bi := by
  rw [Bool.eq_iff_iff]
  simp only [isFree, beq_iff_eq, Buf.and_mask_eq_zero _ _ (Nat.mod_lt bi (by omega)), Buf.bit,
    Bool.not_eq_true']

private theorem bit_setByte (bp : Block) (bi j : Nat) (v : Byte) (inside : bi < BPB) :
    (bp.setByte (bi / 8) v).bit j = if j / 8 = bi / 8 then v.getLsbD (j % 8) else bp.bit j := by
  simp only [BPB, BSIZE] at inside
  rw [Buf.bit, Buf.get_setByte _ _ _ _ (by omega)]
  split <;> rfl

theorem bit_markUsed (bp : Block) (bi j : Nat) (inside : bi < BPB) :
    (markUsed bp bi).bit j = (decide (j = bi) || bp.bit j) := by
  rw [markUsed, bit_setByte _ _ _ _ inside]
  split
  next sameByte =>
    rw [Buf.getLsbD_or_mask _ _ _ (Nat.mod_lt bi (by omega)), Buf.bit, sameByte]
    congr 1
    rw [decide_eq_decide]
    omega
  next other =>
    have ne : j ≠ bi := by rintro rfl; exact other rfl
    simp [ne]

theorem bit_markFree (bp : Block) (bi j : Nat) (inside : bi < BPB) :
    (markFree bp bi).bit j = (!decide (j = bi) && bp.bit j) := by
  rw [markFree, bit_setByte _ _ _ _ inside]
  split
  next sameByte =>
    rw [Buf.getLsbD_and_not_mask _ _ _ (Nat.mod_lt bi (by omega)) (Nat.mod_lt j (by omega)), Buf.bit,
      sameByte]
    congr 2
    rw [decide_eq_decide]
    omega
  next other =>
    have ne : j ≠ bi := by rintro rfl; exact other rfl
    simp [ne]

/-! ### Writes to the bitmap and to inode blocks -/

variable {sb : Superblock}

/-- The metadata of `e` is that of `d` except for the bit of block `b`, which is `v`; data
blocks are the same. -/
structure BitChange (sb : Superblock) (d e : Nat → Block) (b : Nat) (v : Bool) : Prop where
  superblock : e 1 = d 1
  inodes : ∀ i < sb.ninodes, dinode sb e i = dinode sb d i
  bits : ∀ c < sb.size, marked sb e c = if c = b then v else marked sb d c
  data : ∀ a, sb.nmeta ≤ a → e a = d a

private theorem bitChange (valid : sb.Valid) (d : Nat → Block) {b : Nat} (inside : b < sb.size)
    (v : Bool) (bp : Block)
    (bits : ∀ j < BPB, bp.bit j = if j = b % BPB then v else (d (sb.BBLOCK b)).bit j) :
    BitChange sb d (Function.update d (sb.BBLOCK b) bp) b v where
  superblock := by
    have := valid.bblock_bounds inside
    have := valid.bmapstart_lt
    rw [Function.update_of_ne (by omega)]
  inodes i hi := by
    have := valid.bblock_bounds inside
    have := valid.iblock_bounds hi
    rw [dinode, Function.update_of_ne (by omega), dinode]
  bits c hc := by
    by_cases same : sb.BBLOCK c = sb.BBLOCK b
    · rw [marked, same, Function.update_self, bits _ (Nat.mod_lt c (by decide)), marked, same]
      have iff : c % BPB = b % BPB ↔ c = b := by
        simp only [Superblock.BBLOCK, BPB, BSIZE] at same ⊢
        omega
      by_cases equal : c = b
      · rw [if_pos equal, if_pos (iff.mpr equal)]
      · rw [if_neg equal, if_neg (fun h => equal (iff.mp h))]
    · have ne : c ≠ b := by rintro rfl; exact same rfl
      rw [marked, Function.update_of_ne same, if_neg ne, marked]
  data a high := by
    have := valid.bblock_bounds inside
    rw [Function.update_of_ne (by omega)]

/-- Writing a dinode back changes only that dinode. -/
structure InodeChange (sb : Superblock) (d e : Nat → Block) (i : Nat) (din : Dinode) : Prop where
  superblock : e 1 = d 1
  inodes : ∀ j < sb.ninodes, dinode sb e j = if j = i then din else dinode sb d j
  bits : ∀ c < sb.size, marked sb e c = marked sb d c
  data : ∀ a, sb.nmeta ≤ a → e a = d a

theorem inodeChange (valid : sb.Valid) (d : Nat → Block) {i : Nat} (inside : i < sb.ninodes)
    (din : Dinode) (fits : din.Fits) :
    InodeChange sb d (Function.update d (sb.IBLOCK i)
      (putDinode (d (sb.IBLOCK i)) (i % IPB) din)) i din where
  superblock := by
    have := valid.iblock_bounds inside
    rw [Function.update_of_ne (by omega)]
  inodes j hj := by
    have slot : i % IPB < 8 := Nat.mod_lt i (by decide)
    by_cases same : sb.IBLOCK j = sb.IBLOCK i
    · rw [dinode, same, Function.update_self]
      by_cases equal : j = i
      · subst equal
        rw [if_pos rfl, getDinode_putDinode_same _ _ _ slot fits]
      · have ne : j % IPB ≠ i % IPB := by
          simp only [Superblock.IBLOCK, IPB, BSIZE] at same ⊢
          omega
        rw [if_neg equal, getDinode_putDinode_ne _ _ _ _ slot ne, dinode, same]
    · have ne : j ≠ i := by rintro rfl; exact same rfl
      rw [dinode, Function.update_of_ne same, if_neg ne, dinode]
  bits c hc := by
    have := valid.iblock_bounds inside
    have := valid.bblock_bounds hc
    rw [marked, Function.update_of_ne (by omega), marked]
  data a high := by
    have := valid.iblock_bounds inside
    have := valid.bmapstart_lt
    rw [Function.update_of_ne (by omega)]

/-! ### `balloc` -/

/-- A scan of `range n` by `findSome?` stops at the first hit. -/
private theorem findSome?_range {β : Type} {n : Nat} {f : Nat → Option β} {y : β}
    (found : (List.range n).findSome? f = some y) :
    ∃ k < n, f k = some y ∧ ∀ j < k, f j = none := by
  obtain ⟨before, k, after, split, hit, misses⟩ := List.findSome?_eq_some_iff.mp found
  have inside : k < n := List.mem_range.mp (by rw [split]; simp)
  refine ⟨k, inside, hit, ?_⟩
  intro j earlier
  apply misses
  have member : j ∈ before ++ k :: after := by
    rw [← split]
    exact List.mem_range.mpr (by omega)
  have sorted : (before ++ k :: after).Pairwise (· < ·) := by
    rw [← split]
    exact List.pairwise_lt_range
  rcases List.mem_append.mp member with early | late
  · exact early
  · rcases List.mem_cons.mp late with rfl | late
    · omega
    · have := (List.pairwise_cons.mp (List.pairwise_append.mp sorted).2.1).1 j late
      omega

private theorem bblock_add (sb : Superblock) (k bi : Nat) (inside : bi < BPB) :
    sb.BBLOCK (k * BPB + bi) = sb.BBLOCK (k * BPB) ∧ (k * BPB + bi) % BPB = bi := by
  simp only [Superblock.BBLOCK, BPB, BSIZE] at *
  omega

/-- The inner loop on bitmap block `k` looks at the bits of blocks `k * BPB ..`. -/
private theorem scan_test (sb : Superblock) (s : State) (k bi : Nat) (inside : bi < BPB) :
    (decide (k * BPB + bi < sb.size) && isFree (s.disk (sb.BBLOCK (k * BPB))) bi) = true ↔
      k * BPB + bi < sb.size ∧ marked sb s.disk (k * BPB + bi) = false := by
  obtain ⟨block, bit⟩ := bblock_add sb k bi inside
  rw [Bool.and_eq_true, decide_eq_true_eq, isFree_eq, marked, block, bit]
  simp

private theorem ballocScan_some {s : State} {k bi : Nat} (found : ballocScan sb s (k * BPB) = some bi) :
    bi < BPB ∧ k * BPB + bi < sb.size ∧ marked sb s.disk (k * BPB + bi) = false ∧
      ∀ j < bi, k * BPB + j < sb.size → marked sb s.disk (k * BPB + j) = true := by
  obtain ⟨test, inside, misses⟩ := List.find?_range_eq_some.mp found
  have bound := List.mem_range.mp inside
  obtain ⟨small, clear⟩ := (scan_test sb s k bi bound).mp test
  refine ⟨bound, small, clear, ?_⟩
  intro j earlier within
  have miss := misses j earlier
  by_contra unmarked
  have hit := (scan_test sb s k j (by omega)).mpr ⟨within, by simpa using unmarked⟩
  simp only [hit] at miss
  cases miss

private theorem ballocScan_none {s : State} {k : Nat} (found : ballocScan sb s (k * BPB) = none) :
    ∀ j < BPB, k * BPB + j < sb.size → marked sb s.disk (k * BPB + j) = true := by
  intro j bound within
  have miss := List.find?_eq_none.mp found j (List.mem_range.mpr bound)
  by_contra unmarked
  exact miss ((scan_test sb s k j bound).mpr ⟨within, by simpa using unmarked⟩)

/-- Every block is `j` bits into the range of some bitmap block. -/
private theorem split_block (c : Nat) : ∃ k j, j < BPB ∧ c = k * BPB + j ∧ k = c / BPB := by
  refine ⟨c / BPB, c % BPB, Nat.mod_lt c (by decide), ?_, rfl⟩
  rw [Nat.mul_comm]
  exact (Nat.div_add_mod c BPB).symm

/-- The state that `balloc` returns with block `b`. -/
def allocate (sb : Superblock) (s : State) (b : Nat) : State :=
  bzero (logWrite s (sb.BBLOCK b) (markUsed (s.disk (sb.BBLOCK b)) (b % BPB))) b

/-- `balloc` takes the lowest free block. -/
theorem balloc_ok {s s' : State} {b : Nat} (ran : balloc sb s = .ok (b, s')) :
    b < sb.size ∧ marked sb s.disk b = false ∧ (∀ c < b, marked sb s.disk c = true) ∧
      s' = allocate sb s b := by
  unfold balloc at ran
  split at ran
  · cases ran
  next base bi found =>
    obtain ⟨k, _, hit, misses⟩ := findSome?_range found
    obtain ⟨bi', scanned, pair⟩ := Option.map_eq_some_iff.mp hit
    obtain ⟨rfl, rfl⟩ := Prod.mk.inj pair
    obtain ⟨bound, small, clear, earlier⟩ := ballocScan_some scanned
    cases ran
    refine ⟨small, clear, ?_, ?_⟩
    · intro c below
      obtain ⟨j, i, hi, rfl, _⟩ := split_block c
      rcases Nat.lt_trichotomy j k with before | rfl | after
      · have none := misses j before
        rw [Option.map_eq_none_iff] at none
        exact ballocScan_none none i hi (by omega)
      · exact earlier i (by omega) (by omega)
      · have : k * BPB + BPB ≤ j * BPB := by
          rw [← Nat.succ_mul]
          exact Nat.mul_le_mul_right _ after
        omega
    · obtain ⟨block, bit⟩ := bblock_add sb k bi' bound
      rw [allocate, block, bit]

/-- `balloc` panics only when every block is marked. -/
theorem balloc_error {s : State} {e : Panic} (ran : balloc sb s = .error e) :
    e = .ballocOutOfBlocks ∧ ∀ c < sb.size, marked sb s.disk c = true := by
  unfold balloc at ran
  split at ran
  next found =>
    cases ran
    refine ⟨rfl, ?_⟩
    intro c small
    obtain ⟨k, j, hj, rfl, hk⟩ := split_block c
    have inside : k < (sb.size + BPB - 1) / BPB := by
      simp only [BPB, BSIZE] at *
      omega
    have miss := List.findSome?_eq_none_iff.mp found k (List.mem_range.mpr inside)
    rw [Option.map_eq_none_iff] at miss
    exact ballocScan_none miss j hj small
  · cases ran

/-- What allocating block `b` does to the views. -/
structure Allocated (sb : Superblock) (s s' : State) (b : Nat) : Prop where
  superblock : s'.disk 1 = s.disk 1
  inodes : ∀ i < sb.ninodes, dinode sb s'.disk i = dinode sb s.disk i
  bits : ∀ c < sb.size, marked sb s'.disk c = if c = b then true else marked sb s.disk c
  zeroed : s'.disk b = Buf.zero 512
  data : ∀ a, sb.nmeta ≤ a → a ≠ b → s'.disk a = s.disk a
  logged : s'.logged = s.logged ++ [sb.BBLOCK b, b]

theorem allocate_spec (valid : sb.Valid) (s : State) {b : Nat} (isData : sb.IsData b) :
    Allocated sb s (allocate sb s b) b := by
  have change := bitChange valid s.disk isData.2 true
    (markUsed (s.disk (sb.BBLOCK b)) (b % BPB)) (by
      intro j small
      rw [bit_markUsed _ _ _ (Nat.mod_lt b (by decide))]
      by_cases same : j = b % BPB <;> simp [same])
  have same := sameMeta_of_data valid (d := Function.update s.disk (sb.BBLOCK b)
    (markUsed (s.disk (sb.BBLOCK b)) (b % BPB))) isData.1 (Buf.zero 512)
  refine ⟨?_, ?_, ?_, Function.update_self .., ?_, ?_⟩
  · exact same.superblock.trans change.superblock
  · intro i hi
    exact (same.inodes i hi).trans (change.inodes i hi)
  · intro c hc
    exact (same.bits c hc).trans (change.bits c hc)
  · intro a high other
    exact (Function.update_of_ne other _ _).trans (change.data a high)
  · simp [allocate, bzero, logWrite]

/-! ### `bfree` -/

/-- What freeing block `b` does. -/
theorem bfree_spec (valid : sb.Valid) {s : State} (super : readsb s.disk = sb) {b : Nat}
    (inside : b < sb.size) (used : marked sb s.disk b = true) :
    ∃ s', bfree b s = .ok s' ∧ BitChange sb s.disk s'.disk b false := by
  have busy : isFree (s.disk (sb.BBLOCK b)) (b % BPB) = false := by
    rw [isFree_eq]
    simpa [marked] using used
  refine ⟨logWrite s (sb.BBLOCK b) (markFree (s.disk (sb.BBLOCK b)) (b % BPB)), ?_, ?_⟩
  · unfold bfree
    simp only [super, busy, Bool.false_eq_true, if_false]
  · refine bitChange valid s.disk inside false _ ?_
    intro j small
    rw [bit_markFree _ _ _ (Nat.mod_lt b (by decide))]
    by_cases same : j = b % BPB <;> simp [same]

end Xv6.Fs
