import Mathlib.Order.Interval.Finset.Nat
import Xv6.Fs.Logged

/-!
# Seven neighbouring blocks

How many positions of a block tree a short write can modify. Counting new positions twice, since each also
costs a bitmap block, there are at most nineteen, except across the start of the triple indirect region.
-/

namespace Xv6.Fs

open Bytes Forest

/-! ### Groups of leaves -/

/-- The position of the index block that refers to the blocks `10 + 128 * q ..`. -/
def group (q : Nat) : Fin (NDIRECT + 3) × List Nat :=
  if q = 0 then (10, []) else if q ≤ 128 then (11, [q - 1])
  else (12, [(q - 129) / 128, (q - 129) % 128])

theorem leafOf_group {bn : Nat} (indirect : 10 ≤ bn) (inside : bn < MAXFILE) :
    leafOf bn = ((group ((bn - 10) / 128)).1,
      (group ((bn - 10) / 128)).2 ++ [(bn - 10) % 128]) := by
  rcases leafOf_cases inside with ⟨i, small, h, e⟩ | ⟨i, small, h, e⟩ | ⟨i, hi, j, hj, h, e⟩ |
      ⟨i, hi, j, hj, k, hk, h, e⟩
  · omega
  · have q : (bn - 10) / 128 = 0 := by omega
    have r : (bn - 10) % 128 = i := by omega
    rw [e, q, r, group, if_pos rfl]
    rfl
  · have q : (bn - 10) / 128 = i + 1 := by omega
    have r : (bn - 10) % 128 = j := by omega
    rw [e, q, r, group, if_neg (by omega), if_pos (by omega)]
    rfl
  · have q : (bn - 10) / 128 = 129 + 128 * i + j := by omega
    have r : (bn - 10) % 128 = k := by omega
    have q1 : (129 + 128 * i + j - 129) / 128 = i := by omega
    have q2 : (129 + 128 * i + j - 129) % 128 = j := by omega
    rw [e, q, r, group, if_neg (by omega), if_neg (by omega), q1, q2]
    rfl

/-- The index positions above group `q`. -/
def spine (inum q : Nat) : Finset (Node Root) :=
  (group q).2.inits.toFinset.image fun path => ((inum, (group q).1), path)

theorem mem_spine {inum q : Nat} {n : Node Root} :
    n ∈ spine inum q ↔ n.1 = (inum, (group q).1) ∧ n.2 <+: (group q).2 := by
  simp only [spine, Finset.mem_image, List.mem_toFinset, List.mem_inits]
  constructor
  · rintro ⟨path, isPrefix, rfl⟩
    exact ⟨rfl, isPrefix⟩
  · rintro ⟨root, isPrefix⟩
    exact ⟨n.2, isPrefix, Prod.ext root.symm rfl⟩

theorem card_spine_le (inum q : Nat) : (spine inum q).card ≤ (group q).2.length + 1 := by
  calc (spine inum q).card ≤ (group q).2.inits.toFinset.card := Finset.card_image_le
    _ ≤ (group q).2.inits.length := List.toFinset_card_le _
    _ = (group q).2.length + 1 := List.length_inits _

theorem group_length_le (q : Nat) : (group q).2.length ≤ 2 := by
  unfold group
  split
  · decide
  · split
    · exact Nat.le_succ 1
    · exact Nat.le_refl 2

theorem group_length_le_one {q : Nat} (low : q ≤ 128) : (group q).2.length ≤ 1 := by
  unfold group
  split_ifs
  · decide
  · exact Nat.le_refl 1

/-! ### Counting positions -/

variable {f : Store Root Nat} {inum : Nat} {es : List Event} {first last e : Nat}

/-- What a chunk touches: leaves `first .. last`, missing positions above them, and next to
them a block `e` that exists. -/
structure Extent (f : Store Root Nat) (inum : Nat) (es : List Event) (first last e : Nat) :
    Prop where
  touched : ∀ n, n ∈ written es ↔ ∃ bn, first ≤ bn ∧ bn ≤ last ∧ n = leaf inum bn
  added : ∀ n ∈ grown es, f.addr n = 0 ∧ ∃ bn, first ≤ bn ∧ bn ≤ last ∧
    n.1 = (leaf inum bn).1 ∧ n.2 <+: (leaf inum bn).2
  nodup : (grown es).Nodup
  anchor : f.addr (leaf inum e) ≠ 0
  before : e ≤ first
  order : first ≤ last
  near : last ≤ e + 6
  inside : last < MAXFILE

/-- The group after the one of `e`. -/
def nextGroup (e : Nat) : Nat := if e < 10 then 0 else (e - 10) / 128 + 1

/-- The missing leaves that are touched. -/
def newLeaves (f : Store Root Nat) (inum first last : Nat) : Finset Nat :=
  (Finset.Icc first last).filter fun bn => f.addr (leaf inum bn) = 0

/-- The index block above `e`, if a missing leaf stands beside `e` under it. -/
def leftParent (f : Store Root Nat) (inum first last e : Nat) : Finset (Node Root) :=
  if 10 ≤ e ∧ ∃ bn ∈ newLeaves f inum first last, (bn - 10) / 128 = (e - 10) / 128 then
    {((inum, (group ((e - 10) / 128)).1), (group ((e - 10) / 128)).2)}
  else ∅

theorem leaf_group (inum : Nat) {bn : Nat} (indirect : 10 ≤ bn) (inside : bn < MAXFILE) :
    leaf inum bn = ((inum, (group ((bn - 10) / 128)).1),
      (group ((bn - 10) / 128)).2 ++ [(bn - 10) % 128]) := by
  rw [leaf, leafOf_group indirect inside]

theorem leaf_direct (inum : Nat) {bn : Nat} (direct : bn < 10) : (leaf inum bn).2 = [] := by
  have e : leafOf bn = (⟨bn, direct_lt direct⟩, []) := dif_pos direct
  rw [leaf, e]

/-- The first block of the triple indirect region. -/
def tripleStart : Nat := NDIRECT + NINDIRECT + NINDIRECT * NINDIRECT

theorem tripleStart_eq : tripleStart = 16522 := rfl

/-- The constellation in which twenty positions are counted: seven leaves across the start
of the triple indirect region, on both sides new ones, and no index block behind it. -/
structure Critical (f : Store Root Nat) (inum first last : Nat) : Prop where
  seven : last = first + 6
  left : first + 1 < tripleStart
  right : tripleStart ≤ last
  noTriple : f.addr ((inum, 12), []) = 0
  missing : ∀ bn, first < bn → bn ≤ last → f.addr (leaf inum bn) = 0

namespace Extent

variable (extent : Extent f inum es first last e)
include extent

/-- A touched leaf is below the group of `e` or below the next one. -/
theorem group_cases {bn : Nat} (low : first ≤ bn) (high : bn ≤ last) (indirect : 10 ≤ bn) :
    (10 ≤ e ∧ (bn - 10) / 128 = (e - 10) / 128) ∨ (bn - 10) / 128 = nextGroup e := by
  have := extent.before
  have := extent.near
  unfold nextGroup
  split <;> omega

theorem e_inside : e < MAXFILE := by
  have := extent.before
  have := extent.order
  have := extent.inside
  omega

/-- New positions are missing leaves, or missing index positions of the next group. -/
theorem grown_cases {n : Node Root} (new : n ∈ grown es) :
    (∃ bn ∈ newLeaves f inum first last, n = leaf inum bn) ∨
      (n ∈ (spine inum (nextGroup e)).filter (f.addr · = 0) ∧
        ∃ bn, first ≤ bn ∧ bn ≤ last ∧ 10 ≤ bn ∧ (bn - 10) / 128 = nextGroup e) := by
  obtain ⟨missing, bn, low, high, root, isPrefix⟩ := extent.added n new
  have whole : n.2 = (leaf inum bn).2 → ∃ bn ∈ newLeaves f inum first last, n = leaf inum bn := by
    intro same
    have equal : n = leaf inum bn := Prod.ext root same
    refine ⟨bn, Finset.mem_filter.mpr ⟨Finset.mem_Icc.mpr ⟨low, high⟩, ?_⟩, equal⟩
    rw [← equal]
    exact missing
  by_cases direct : bn < 10
  · left
    apply whole
    rw [leaf_direct inum direct] at isPrefix ⊢
    exact List.prefix_nil.mp isPrefix
  · have form := leaf_group inum (Nat.not_lt.mp direct) (Nat.lt_of_le_of_lt high extent.inside)
    rw [form] at root isPrefix whole
    simp only at root isPrefix whole
    rcases List.prefix_concat_iff.mp isPrefix with same | shorter
    · exact .inl (whole same)
    · right
      rcases extent.group_cases low high (Nat.not_lt.mp direct) with ⟨indirect, same⟩ | next
      · -- above `e`, which exists
        have formE := leaf_group inum indirect extent.e_inside
        have anchor := extent.anchor
        rw [formE] at anchor
        rw [same] at root shorter
        have live := live_above (shorter.trans (List.prefix_append _ _)) anchor
        rw [← root] at live
        exact absurd missing live
      · refine ⟨?_, bn, low, high, Nat.not_lt.mp direct, next⟩
        rw [Finset.mem_filter, mem_spine, ← next]
        exact ⟨⟨root, shorter⟩, missing⟩

/-- Modified positions are touched leaves, the index block above `e`, or index positions of
the next group. -/
theorem modified_cases {n : Node Root} (member : n ∈ modified es) :
    (∃ bn, first ≤ bn ∧ bn ≤ last ∧ n = leaf inum bn) ∨ n ∈ leftParent f inum first last e ∨
      (n ∈ spine inum (nextGroup e) ∧
        ∃ bn, first ≤ bn ∧ bn ≤ last ∧ 10 ≤ bn ∧ (bn - 10) / 128 = nextGroup e) := by
  rcases mem_modified.mp member with new | ⟨m, new, deep, rfl⟩ | old
  · rcases extent.grown_cases new with ⟨bn, isNew, rfl⟩ | ⟨isIndex, crossing⟩
    · obtain ⟨low, high⟩ := Finset.mem_Icc.mp (Finset.mem_filter.mp isNew).1
      exact .inl ⟨bn, low, high, rfl⟩
    · exact .inr (.inr ⟨(Finset.mem_filter.mp isIndex).1, crossing⟩)
  · right
    rcases extent.grown_cases new with ⟨bn, isNew, rfl⟩ | ⟨isIndex, crossing⟩
    · obtain ⟨low, high⟩ := Finset.mem_Icc.mp (Finset.mem_filter.mp isNew).1
      have indirect : 10 ≤ bn := by
        by_contra direct
        exact deep (leaf_direct inum (by omega))
      rw [leaf_group inum indirect (Nat.lt_of_le_of_lt high extent.inside), above, List.dropLast_concat]
      rcases extent.group_cases low high indirect with ⟨indirectE, same⟩ | next
      · left
        rw [leftParent, if_pos ⟨indirectE, bn, isNew, same⟩, Finset.mem_singleton, same]
      · right
        rw [mem_spine, next]
        exact ⟨⟨rfl, List.prefix_refl _⟩, bn, low, high, indirect, next⟩
    · right
      refine ⟨?_, crossing⟩
      obtain ⟨root, isPrefix⟩ := mem_spine.mp (Finset.mem_filter.mp isIndex).1
      exact mem_spine.mpr ⟨root, (List.dropLast_prefix _).trans isPrefix⟩
  · exact .inl ((extent.touched n).mp old)

theorem newLeaves_subset : newLeaves f inum first last ⊆ Finset.Ioc e (e + 6) := by
  intro bn member
  obtain ⟨range, missing⟩ := Finset.mem_filter.mp member
  obtain ⟨low, high⟩ := Finset.mem_Icc.mp range
  have := extent.before
  have := extent.near
  have ne : bn ≠ e := by
    rintro rfl
    exact extent.anchor missing
  exact Finset.mem_Ioc.mpr ⟨by omega, by omega⟩

theorem card_newLeaves_le : (newLeaves f inum first last).card ≤ 6 := by
  have := Finset.card_le_card extent.newLeaves_subset
  simpa using this

omit extent in
theorem card_leftParent_le (f : Store Root Nat) (inum first last e : Nat) :
    (leftParent f inum first last e).card ≤ 1 := by
  unfold leftParent
  split <;> simp

theorem card_grown_le : (grown es).length ≤ (newLeaves f inum first last).card +
    ((spine inum (nextGroup e)).filter (f.addr · = 0)).card := by
  have subset : (grown es).toFinset ⊆ (newLeaves f inum first last).image (leaf inum) ∪
      (spine inum (nextGroup e)).filter (f.addr · = 0) := by
    intro n member
    rcases extent.grown_cases (List.mem_toFinset.mp member) with ⟨bn, isNew, rfl⟩ | ⟨isIndex, _⟩
    · exact Finset.mem_union_left _ (Finset.mem_image_of_mem _ isNew)
    · exact Finset.mem_union_right _ isIndex
  rw [← List.toFinset_card_of_nodup extent.nodup]
  calc (grown es).toFinset.card ≤ _ := Finset.card_le_card subset
    _ ≤ _ := Finset.card_union_le _ _
    _ ≤ _ := Nat.add_le_add_right Finset.card_image_le _

theorem card_modified_le : (modified es).card ≤
    (last + 1 - first) + (leftParent f inum first last e).card + (spine inum (nextGroup e)).card := by
  have subset : modified es ⊆ (Finset.Icc first last).image (leaf inum) ∪
      leftParent f inum first last e ∪ spine inum (nextGroup e) := by
    intro n member
    rcases extent.modified_cases member with ⟨bn, low, high, rfl⟩ | left | ⟨isIndex, _⟩
    · exact Finset.mem_union_left _ (Finset.mem_union_left _
        (Finset.mem_image_of_mem _ (Finset.mem_Icc.mpr ⟨low, high⟩)))
    · exact Finset.mem_union_left _ (Finset.mem_union_right _ left)
    · exact Finset.mem_union_right _ isIndex
  calc (modified es).card ≤ _ := Finset.card_le_card subset
    _ ≤ _ := Finset.card_union_le _ _
    _ ≤ _ := Nat.add_le_add_right (Finset.card_union_le _ _) _
    _ ≤ _ := by
      have := Finset.card_image_le (s := Finset.Icc first last) (f := leaf inum)
      rw [Nat.card_Icc] at this
      omega

/-- At most two index positions of the next group are missing, unless it is the first one
of the triple indirect region and `addrs[12]` is empty. -/
theorem card_missing_le : ((spine inum (nextGroup e)).filter (f.addr · = 0)).card ≤ 2 ∨
    (nextGroup e = 129 ∧ f.addr ((inum, 12), []) = 0) := by
  by_cases low : nextGroup e ≤ 128
  · left
    have few := Finset.card_filter_le (spine inum (nextGroup e)) (f.addr · = 0)
    have := card_spine_le inum (nextGroup e)
    have := group_length_le_one low
    omega
  · have root : (group (nextGroup e)).1 = 12 := by
      unfold group
      rw [if_neg (by omega), if_neg low]
    have member : ((inum, 12), []) ∈ spine inum (nextGroup e) := by
      rw [mem_spine, root]
      exact ⟨rfl, List.nil_prefix⟩
    by_cases missing : f.addr ((inum, 12), []) = 0
    · by_cases firstTriple : nextGroup e = 129
      · exact .inr ⟨firstTriple, missing⟩
      · -- then `e` is in the triple indirect region itself
        exfalso
        have indirect : 10 ≤ e := by
          by_contra direct
          rw [nextGroup, if_pos (by omega)] at low
          omega
        rw [nextGroup, if_neg (by omega)] at low firstTriple
        have rootE : (group ((e - 10) / 128)).1 = 12 := by
          unfold group
          rw [if_neg (by omega), if_neg (by omega)]
        have anchor := extent.anchor
        rw [leaf_group inum indirect extent.e_inside, rootE] at anchor
        exact live_above List.nil_prefix anchor missing
    · left
      have subset : (spine inum (nextGroup e)).filter (f.addr · = 0) ⊆
          (spine inum (nextGroup e)).erase ((inum, 12), []) := by
        intro n h
        obtain ⟨inSpine, empty⟩ := Finset.mem_filter.mp h
        refine Finset.mem_erase.mpr ⟨?_, inSpine⟩
        rintro rfl
        exact missing empty
      have few := Finset.card_le_card subset
      rw [Finset.card_erase_of_mem member] at few
      have := card_spine_le inum (nextGroup e)
      have := group_length_le (nextGroup e)
      omega

theorem card_le_or_critical : (modified es).card + (grown es).length ≤ 19 ∨
    (Critical f inum first last ∧ (modified es).card ≤ 11 ∧ (grown es).length ≤ 9) := by
  have leaves := extent.card_newLeaves_le
  have left := card_leftParent_le f inum first last e
  have before := extent.before
  have near := extent.near
  have spine3 : (spine inum (nextGroup e)).card ≤ 3 := by
    have := card_spine_le inum (nextGroup e)
    have := group_length_le (nextGroup e)
    omega
  have missing3 : ((spine inum (nextGroup e)).filter (f.addr · = 0)).card ≤ 3 :=
    Nat.le_trans (Finset.card_filter_le _ _) spine3
  have grownLe := extent.card_grown_le
  have modifiedLe := extent.card_modified_le
  by_cases small : (modified es).card + (grown es).length ≤ 19
  · exact .inl small
  · right
    -- every bound is attained
    rcases extent.card_missing_le with two | ⟨tripleNext, rootMissing⟩
    · omega
    · have firstIs : first = e := by omega
      subst firstIs
      have lastIs : last = first + 6 := by omega
      have allMissing : newLeaves f inum first last = Finset.Ioc first (first + 6) := by
        apply Finset.eq_of_subset_of_card_le extent.newLeaves_subset
        rw [Nat.card_Ioc]
        omega
      have leftNonempty : (leftParent f inum first last first).card ≠ 0 := by omega
      have beside : 10 ≤ first ∧
          ∃ bn ∈ newLeaves f inum first last, (bn - 10) / 128 = (first - 10) / 128 := by
        by_contra none
        rw [leftParent, if_neg none] at leftNonempty
        exact leftNonempty rfl
      obtain ⟨indirect, bn, isNew, sameGroup⟩ := beside
      have bounds := Finset.mem_Ioc.mp (extent.newLeaves_subset isNew)
      rw [nextGroup, if_neg (by omega)] at tripleNext
      have crossing : tripleStart ≤ last := by
        by_contra low
        rw [tripleStart_eq] at low
        -- no touched leaf is in the next group, so no index position is new
        have noIndex : (grown es).toFinset ⊆
            (newLeaves f inum first last).image (leaf inum) := by
          intro n member
          rcases extent.grown_cases (List.mem_toFinset.mp member) with ⟨k, isNewK, rfl⟩ | ⟨_, k, hk⟩
          · exact Finset.mem_image_of_mem _ isNewK
          · rw [nextGroup, if_neg (by omega)] at hk
            omega
        have few := Finset.card_le_card noIndex
        rw [List.toFinset_card_of_nodup extent.nodup] at few
        have := Nat.le_trans few Finset.card_image_le
        omega
      refine ⟨⟨lastIs, by rw [tripleStart_eq]; omega, crossing, rootMissing, ?_⟩, by omega, by omega⟩
      intro k low high
      have member : k ∈ newLeaves f inum first last := by
        rw [allMissing, ← lastIs]
        exact Finset.mem_Ioc.mpr ⟨low, high⟩
      exact (Finset.mem_filter.mp member).2

end Extent

/-- In the critical constellation at least eleven blocks are modified and nine are new. -/
theorem Critical.counts (critical : Critical f inum first last) (inside : last < MAXFILE)
    (touched : ∀ bn, first ≤ bn → bn ≤ last → leaf inum bn ∈ written es)
    (added : ∀ bn n, first ≤ bn → bn ≤ last → n.1 = (leaf inum bn).1 →
      n.2 <+: (leaf inum bn).2 → f.addr n = 0 → n ∈ grown es)
    (nodup : (grown es).Nodup) : 11 ≤ (modified es).card ∧ 9 ≤ (grown es).length := by
  obtain ⟨seven, left, right, noTriple, missing⟩ := critical
  rw [tripleStart_eq] at left right
  -- the index blocks: the last one of the double region and those of the triple region
  have lastGroup : (last - 10) / 128 = 129 := by omega
  have lastLeaf := leaf_group inum (show 10 ≤ last by omega) inside
  rw [lastGroup] at lastLeaf
  have triple : ∀ n ∈ spine inum 129, n ∈ grown es := by
    rintro ⟨r, path⟩ member
    obtain ⟨root, isPrefix⟩ := mem_spine.mp member
    simp only at root isPrefix
    have root12 : r = (inum, 12) := root
    subst root12
    refine added last _ (by omega) (Nat.le_refl _) ?_ ?_ ?_
    · rw [lastLeaf]
      rfl
    · rw [lastLeaf]
      exact isPrefix.trans (List.prefix_append _ _)
    · have zero : f.root (inum, 12) = 0 := noTriple
      rw [Store.addr, zero, follow_zero]
  have leaves : ∀ bn ∈ Finset.Ioc first last, leaf inum bn ∈ grown es := by
    intro bn member
    obtain ⟨low, high⟩ := Finset.mem_Ioc.mp member
    exact added bn _ (by omega) high rfl (List.prefix_refl _) (missing bn low high)
  have isLeaf : ∀ bn ≤ last, (leaf inum bn).2.length = rootDepth (leaf inum bn).1.2 :=
    fun bn high => leafOf_length (by omega)
  have spineDeep : ∀ n ∈ spine inum 129, n.2.length < rootDepth n.1.2 := by
    intro n member
    obtain ⟨root, isPrefix⟩ := mem_spine.mp member
    have short := isPrefix.length_le
    have bound := group_length_le 129
    rw [root]
    exact Nat.lt_of_le_of_lt (Nat.le_trans short bound) (show 2 < rootDepth (group 129).1 by decide)
  have spineCard : (spine inum 129).card = 3 := by
    rw [spine, Finset.card_image_of_injective _ (fun p q h => (Prod.mk.inj h).2)]
    decide
  have inj : ∀ S : Finset Nat, (∀ bn ∈ S, bn ≤ last) → (S.image (leaf inum)).card = S.card := by
    intro S bound
    apply Finset.card_image_of_injOn
    intro a ha b hb same
    exact (leaf_injective (by have := bound a ha; omega) (by have := bound b hb; omega) same).2
  have apart : ∀ S : Finset Nat, (∀ bn ∈ S, bn ≤ last) →
      Disjoint (S.image (leaf inum)) (spine inum 129) := by
    intro S bound
    rw [Finset.disjoint_left]
    intro n isLeafN isIndex
    obtain ⟨bn, member, rfl⟩ := Finset.mem_image.mp isLeafN
    have := isLeaf bn (bound bn member)
    have := spineDeep _ isIndex
    omega
  constructor
  · -- seven leaves, three triple index blocks and the parent of the leaf after `first`
    have parentGroup : (first + 1 - 10) / 128 = 128 := by omega
    have nextLeaf := leaf_group inum (show 10 ≤ first + 1 by omega) (by omega)
    rw [parentGroup] at nextLeaf
    have parent : ((inum, (11 : Fin (NDIRECT + 3))), [127]) ∈ modified es := by
      refine mem_modified.mpr (.inr (.inl ⟨leaf inum (first + 1),
        leaves _ (Finset.mem_Ioc.mpr ⟨by omega, by omega⟩), ?_, ?_⟩))
      · rw [nextLeaf]
        simp
      · rw [nextLeaf, above, List.dropLast_concat]
        rfl
    have subset : insert ((inum, (11 : Fin (NDIRECT + 3))), [127])
        ((Finset.Icc first last).image (leaf inum) ∪ spine inum 129) ⊆ modified es := by
      intro n member
      rcases Finset.mem_insert.mp member with rfl | member
      · exact parent
      · rcases Finset.mem_union.mp member with isLeafN | isIndex
        · obtain ⟨bn, range, rfl⟩ := Finset.mem_image.mp isLeafN
          obtain ⟨low, high⟩ := Finset.mem_Icc.mp range
          exact mem_modified.mpr (.inr (.inr (touched bn low high)))
        · exact mem_modified.mpr (.inl (triple n isIndex))
    have outside : ((inum, (11 : Fin (NDIRECT + 3))), [127]) ∉
        (Finset.Icc first last).image (leaf inum) ∪ spine inum 129 := by
      intro member
      rcases Finset.mem_union.mp member with isLeafN | isIndex
      · obtain ⟨bn, range, same⟩ := Finset.mem_image.mp isLeafN
        have := isLeaf bn (Finset.mem_Icc.mp range).2
        rw [same] at this
        exact absurd this (show ¬1 = rootDepth 11 by decide)
      · have root := (mem_spine.mp isIndex).1
        exact absurd (congrArg Prod.snd root) (show ¬(11 : Fin (NDIRECT + 3)) = (group 129).1 by decide)
    have card := Finset.card_le_card subset
    have bound : ∀ bn ∈ Finset.Icc first last, bn ≤ last := fun bn h => (Finset.mem_Icc.mp h).2
    rw [Finset.card_insert_of_notMem outside, Finset.card_union_of_disjoint (apart _ bound),
      inj _ bound, spineCard, Nat.card_Icc] at card
    omega
  · have bound : ∀ bn ∈ Finset.Ioc first last, bn ≤ last := fun bn h => (Finset.mem_Ioc.mp h).2
    have subset : (Finset.Ioc first last).image (leaf inum) ∪ spine inum 129 ⊆
        (grown es).toFinset := by
      intro n member
      rw [List.mem_toFinset]
      rcases Finset.mem_union.mp member with isLeafN | isIndex
      · obtain ⟨bn, range, rfl⟩ := Finset.mem_image.mp isLeafN
        exact leaves bn range
      · exact triple n isIndex
    have card := Finset.card_le_card subset
    rw [Finset.card_union_of_disjoint (apart _ bound), inj _ bound, spineCard, Nat.card_Ioc,
      List.toFinset_card_of_nodup nodup] at card
    omega

end Xv6.Fs
