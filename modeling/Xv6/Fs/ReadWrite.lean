import Xv6.Fs.Growth

/-!
# Reading and writing file contents

What the loops of `readi` and `writei` do to the bytes of all files. One round of the write loop changes a
range of bytes within one block; rounds compose to any range.
-/

namespace Xv6.Fs

open Bytes Forest

variable {sb : Superblock} {ip ip' ip₁ : Inode} {s s' s₁ : State}

/-- Byte `p` of inode `i`. -/
def byteAt (f : Store Root Nat) (disk : Nat → Block) (i p : Nat) : Byte :=
  (disk (f.addr (leaf i (p / BSIZE)))).get (p % BSIZE)

theorem div_BSIZE_lt {p : Nat} (inside : p < MAXFILE * BSIZE) : p / BSIZE < MAXFILE :=
  Nat.div_lt_of_lt_mul (by rwa [Nat.mul_comm])

/-! ### The write loop -/

/-- `src` now stands at offset `off` of the file; every other byte that had a block is as
before. -/
structure Wrote (sb : Superblock) (ip : Inode) (s : State) (off : Nat) (src : List Byte)
    (es : List Event) (ip' : Inode) (s' : State) : Prop where
  ran : Ran sb ip s es ip' s'
  touched : ∀ n, n ∈ written es ↔
    ∃ p, off ≤ p ∧ p < off + src.length ∧ n = leaf ip.inum (p / BSIZE)
  added : ∀ n ∈ grown es, ∃ p, off ≤ p ∧ p < off + src.length ∧
    n.1 = (leaf ip.inum (p / BSIZE)).1 ∧ n.2 <+: (leaf ip.inum (p / BSIZE)).2
  bytes : ∀ p, off ≤ p → p < off + src.length →
    byteAt (view sb ip' s') s'.disk ip.inum p = src.getD (p - off) 0
  others : ∀ i p, p < MAXFILE * BSIZE → ¬(i = ip.inum ∧ off ≤ p ∧ p < off + src.length) →
    (view sb ip s).addr (leaf i (p / BSIZE)) ≠ 0 →
    byteAt (view sb ip' s') s'.disk i p = byteAt (view sb ip s) s.disk i p

theorem Wrote.nil (off : Nat) : Wrote sb ip s off [] [] ip s where
  ran := .nil
  touched n := by
    constructor
    · intro h
      cases h
    · rintro ⟨p, low, high, _⟩
      simp only [List.length_nil] at high
      omega
  added n h := by cases h
  bytes p low high := by
    simp only [List.length_nil] at high
    omega
  others _ _ _ _ _ := rfl

theorem Wrote.append (valid : sb.Valid) (held : Held sb ip s) {off : Nat} {one two : List Byte}
    {es fs : List Event} (inside : off + one.length + two.length ≤ MAXFILE * BSIZE)
    (first : Wrote sb ip s off one es ip₁ s₁)
    (second : Wrote sb ip₁ s₁ (off + one.length) two fs ip' s') :
    Wrote sb ip s off (one ++ two) (es ++ fs) ip' s' := by
  have inum : ip₁.inum = ip.inum := by rw [(first.ran.kept valid held).inode]
  have length : (one ++ two).length = one.length + two.length := List.length_append
  refine ⟨first.ran.trans second.ran, ?_, ?_, ?_, ?_⟩
  · intro n
    rw [written_append, List.mem_append, first.touched, second.touched, inum, length]
    constructor
    · rintro (⟨p, low, high, rfl⟩ | ⟨p, low, high, rfl⟩)
      · exact ⟨p, low, by omega, rfl⟩
      · exact ⟨p, by omega, by omega, rfl⟩
    · rintro ⟨p, low, high, rfl⟩
      by_cases early : p < off + one.length
      · exact .inl ⟨p, low, early, rfl⟩
      · exact .inr ⟨p, by omega, by omega, rfl⟩
  · intro n member
    rw [grown_append, List.mem_append] at member
    rw [length]
    rcases member with member | member
    · obtain ⟨p, low, high, below⟩ := first.added n member
      exact ⟨p, low, by omega, below⟩
    · obtain ⟨p, low, high, below⟩ := second.added n member
      rw [inum] at below
      exact ⟨p, by omega, by omega, below⟩
  · intro p low high
    rw [length] at high
    by_cases early : p < off + one.length
    · -- written by the first part, whose leaf is live, and left alone by the second
      have member := (first.touched _).mpr ⟨p, low, early, rfl⟩
      have live := (first.ran.written_live valid held member).2
      rw [second.others _ p (by omega) (by omega) live, first.bytes p low early]
      simp only [List.getD_eq_getElem?_getD]
      rw [List.getElem?_append_left (by omega)]
    · have there := second.bytes p (by omega) (by omega)
      rw [inum] at there
      rw [there]
      simp only [List.getD_eq_getElem?_getD]
      rw [List.getElem?_append_right (by omega)]
      congr 2
      omega
  · intro i p small outside live
    rw [length] at outside
    have live₁ : (view sb ip₁ s₁).addr (leaf i (p / BSIZE)) ≠ 0 := by
      rw [first.ran.addr_of_live valid held (leaf_isNode i (div_BSIZE_lt small)) live]
      exact live
    rw [second.others i p small (by rw [inum]; omega) live₁, first.others i p small (by omega) live]

theorem Wrote.round (valid : sb.Valid) (held : Held sb ip s) {off a m : Nat} (src : List Byte)
    (inside : off + m ≤ MAXFILE * BSIZE) (some_ : 0 < m) (room : off % BSIZE + m ≤ BSIZE)
    (enough : m ≤ src.length) (mapped : bmap sb ip (off / BSIZE) s = .ok (a, ip', s')) :
    ∃ es, (grown es).length ≤ 4 ∧ Wrote sb ip s off (src.take m) es ip'
      (logWrite s' a ((s'.disk a).move (off % BSIZE) m fun k => src.getD k 0)) := by
  have small : off / BSIZE < MAXFILE := div_BSIZE_lt (by omega)
  obtain ⟨es, ran, clean, few, below, here, live⟩ := bmap_ok valid held small mapped
  have kept := ran.kept valid held
  have inum : ip'.inum = ip.inum := by rw [kept.inode]
  have isLeaf := leaf_isLeaf ip.inum small
  have length : (src.take m).length = m := by rw [List.length_take]; omega
  have sameBlock : ∀ p, off ≤ p → p < off + m → p / BSIZE = off / BSIZE := by
    simp only [BSIZE] at *
    omega
  subst here
  generalize moved : (s'.disk ((view sb ip' s').addr (leaf ip.inum (off / BSIZE)))).move
    (off % BSIZE) m (fun k => src.getD k 0) = block
  have ran' := ran.data block isLeaf live
  have addr := fun k node => overwrite_addr valid kept.held isLeaf live block (m := k) node
  refine ⟨es ++ [.data (leaf ip.inum (off / BSIZE))], by simpa using few, ran', ?_, ?_, ?_, ?_⟩
  · intro n
    rw [written_append, clean, List.nil_append, written_data, List.mem_singleton, length]
    constructor
    · rintro rfl
      exact ⟨off, Nat.le_refl _, by omega, rfl⟩
    · rintro ⟨p, low, high, rfl⟩
      rw [sameBlock p low high]
  · intro n member
    rw [grown_append, grown_data, List.append_nil] at member
    rw [length]
    exact ⟨off, Nat.le_refl _, by omega, below n member⟩
  · intro p low high
    rw [length] at high
    unfold byteAt
    rw [sameBlock p low high, addr _ isLeaf.1]
    change (Function.update s'.disk _ _ _).get _ = _
    rw [Function.update_self, ← moved, Buf.get_move _ _ _ _ _ (show p % BSIZE < 512 from Nat.mod_lt p (by decide))]
    have same := sameBlock p low high
    have inRange : off % BSIZE ≤ p % BSIZE ∧ p % BSIZE < off % BSIZE + m := by
      simp only [BSIZE] at *
      omega
    have shift : p % BSIZE - off % BSIZE = p - off := by
      simp only [BSIZE] at *
      omega
    rw [if_pos inRange, shift]
    simp only [List.getD_eq_getElem?_getD]
    rw [List.getElem?_take_of_lt (by omega)]
  · intro i p inFile outside liveP
    rw [length] at outside
    have isLeafP := leaf_isLeaf i (div_BSIZE_lt inFile)
    have sameAddr := ran'.addr_of_live valid held isLeafP.1 liveP
    by_cases same : leaf i (p / BSIZE) = leaf ip.inum (off / BSIZE)
    · obtain ⟨rfl, sameBn⟩ := leaf_injective (div_BSIZE_lt inFile) small same
      have old := ran.addr_of_live valid held isLeafP.1 liveP
      have before := ran.leaf_block valid held isLeafP (by rw [clean]; simp) (by rw [old]; exact liveP)
      rw [if_neg liveP] at before
      have out : p < off ∨ off + m ≤ p := by omega
      have outRange : p % BSIZE < off % BSIZE ∨ off % BSIZE + m ≤ p % BSIZE := by
        simp only [BSIZE] at *
        omega
      unfold byteAt
      rw [addr _ isLeafP.1, same]
      change (Function.update s'.disk _ _ _).get _ = _
      rw [Function.update_self, ← moved, Buf.get_move_of_outside _ _ _ _ _ outRange, ← same, before]
    · have after := ran'.leaf_block valid held isLeafP
        (by rw [written_append, clean]; simpa using same) (by rw [sameAddr]; exact liveP)
      rw [if_neg liveP] at after
      unfold byteAt
      rw [after]

theorem chunk_spec (off : Nat) {n : Nat} (more : n ≠ 0) :
    0 < chunk off n ∧ chunk off n ≤ n ∧ off % BSIZE + chunk off n ≤ BSIZE := by
  have small := Nat.mod_lt off (show 0 < BSIZE by decide)
  unfold chunk
  omega

theorem writeLoop_ok (valid : sb.Valid) (src : List Byte) :
    ∀ {off : Nat} {ip : Inode} {s : State}, Held sb ip s →
      off + src.length ≤ MAXFILE * BSIZE → writeLoop sb ip off src s = .ok (ip', s') →
      ∃ es, Wrote sb ip s off src es ip' s' := by
  induction h : src.length using Nat.strong_induction_on generalizing src with
  | _ len ih =>
    intro off ip s held inside ran
    subst h
    rw [writeLoop] at ran
    split at ran
    next empty =>
      cases ran
      rw [List.length_eq_zero_iff.mp empty]
      exact ⟨[], .nil off⟩
    next more =>
      obtain ⟨pos, fewer, room⟩ := chunk_spec off more
      obtain ⟨⟨a, ip₁, s₁⟩, mapped, rest⟩ := Steps.bind_ok ran
      obtain ⟨es, _, first⟩ := Wrote.round valid held src (by omega) pos room fewer mapped
      have held₁ := (first.ran.kept valid held).held
      have short : (src.drop (chunk off src.length)).length = src.length - chunk off src.length :=
        List.length_drop
      have takes : (src.take (chunk off src.length)).length = chunk off src.length := by
        rw [List.length_take]
        omega
      obtain ⟨fs, second⟩ := ih _ (by omega) (src.drop (chunk off src.length)) rfl held₁
        (by omega) rest
      refine ⟨es ++ fs, ?_⟩
      rw [← List.take_append_drop (chunk off src.length) src]
      refine first.append valid held (by omega) ?_
      rw [takes]
      exact second

/-- The number of blocks that `n` bytes at `off` lie in. -/
def blocksTouched (off n : Nat) : Nat := (off % BSIZE + n + (BSIZE - 1)) / BSIZE

private theorem blocksTouched_next {off n : Nat} (more : BSIZE < off % BSIZE + n) :
    blocksTouched (off + (BSIZE - off % BSIZE)) (n - (BSIZE - off % BSIZE)) + 1 =
      blocksTouched off n := by
  simp only [blocksTouched, BSIZE] at *
  omega

theorem writeLoop_error (valid : sb.Valid) (src : List Byte) {e : Panic} :
    ∀ {off : Nat} {ip : Inode} {s : State}, Held sb ip s →
      off + src.length ≤ MAXFILE * BSIZE → writeLoop sb ip off src s = .error e →
      e = .ballocOutOfBlocks ∧ (freeBlocks sb s.disk).card < 4 * blocksTouched off src.length := by
  induction h : src.length using Nat.strong_induction_on generalizing src with
  | _ len ih =>
    intro off ip s held inside ran
    subst h
    rw [writeLoop] at ran
    split at ran
    next => cases ran
    next more =>
      obtain ⟨pos, fewer, room⟩ := chunk_spec off more
      have small : off / BSIZE < MAXFILE := div_BSIZE_lt (by omega)
      rcases Steps.bind_error ran with failed | ⟨⟨a, ip₁, s₁⟩, mapped, rest⟩
      · obtain ⟨rfl, few⟩ := bmap_error valid held small failed
        refine ⟨rfl, ?_⟩
        simp only [blocksTouched, BSIZE] at *
        omega
      · obtain ⟨es, bounded, first⟩ :=
          Wrote.round valid held src (by omega) pos room fewer mapped
        have held₁ := (first.ran.kept valid held).held
        have short : (src.drop (chunk off src.length)).length =
            src.length - chunk off src.length := List.length_drop
        have used := first.ran.card_freeBlocks valid held
        by_cases last : src.length ≤ BSIZE - off % BSIZE
        · -- the round was the last one, and the empty rest cannot fail
          have none : src.drop (chunk off src.length) = [] := by
            apply List.eq_nil_of_length_eq_zero
            rw [short, chunk]
            omega
          simp only [none] at rest
          rw [writeLoop, dif_pos List.length_nil] at rest
          cases rest
        · obtain ⟨rfl, few⟩ := ih _ (by omega) (src.drop (chunk off src.length)) rfl held₁
            (by omega) rest
          refine ⟨rfl, ?_⟩
          have full : chunk off src.length = BSIZE - off % BSIZE := by
            rw [chunk]
            omega
          have next := blocksTouched_next (show BSIZE < off % BSIZE + src.length by omega)
          rw [← full, ← short] at next
          omega

/-! ### The read loop -/

/-- `bmap` of a block that is there only looks it up. -/
theorem bmap_live (roots : ∀ k, (view sb ip s).root (ip.inum, k) = ip.addrs k) {bn : Nat} (inside : bn < MAXFILE)
    (live : (view sb ip s).addr (leaf ip.inum bn) ≠ 0) :
    bmap sb ip bn s = .ok ((view sb ip s).addr (leaf ip.inum bn), ip, s) := by
  have walk : ∀ (path : List Nat) (a : Nat), follow (view sb ip s).next a path ≠ 0 →
      indexWalk sb a path s = .ok (follow (view sb ip s).next a path, s) := by
    intro path
    induction path with
    | nil => exact fun _ _ => rfl
    | cons i path ih =>
      intro a reached
      rw [follow_cons] at reached ⊢
      by_cases zero : a = 0
      · rw [if_pos zero, follow_zero] at reached
        exact absurd rfl reached
      · rw [if_neg zero] at reached ⊢
        have entry : (s.disk a).word i ≠ 0 := by
          intro empty
          apply reached
          change follow _ ((s.disk a).word i) path = 0
          rw [empty, follow_zero]
        have found : indexEntry sb a i s = .ok ((s.disk a).word i, s) := by
          simp only [indexEntry, if_neg entry]
        rw [indexWalk, found]
        exact ih _ reached
  rw [bmap_eq sb ip inside]
  have addr : (view sb ip s).addr (leaf ip.inum bn) =
      follow (view sb ip s).next (ip.addrs (leafOf bn).1) (leafOf bn).2 := by
    rw [Store.addr, leaf, roots]
  rw [addr] at live ⊢
  have rootLive : ip.addrs (leafOf bn).1 ≠ 0 := by
    intro empty
    rw [empty, follow_zero] at live
    exact live rfl
  have found : rootEntry sb ip (leafOf bn).1 s = .ok (ip.addrs (leafOf bn).1, ip, s) := by
    simp only [rootEntry, if_neg rootLive]
  unfold bmapWalk
  rw [found]
  change (indexWalk sb (ip.addrs (leafOf bn).1) (leafOf bn).2 s >>= _) = _
  rw [walk _ _ live]
  rfl

theorem readLoop_eq (roots : ∀ k, (view sb ip s).root (ip.inum, k) = ip.addrs k) (n : Nat) :
    ∀ (off : Nat), off + n ≤ MAXFILE * BSIZE →
      (∀ p, off ≤ p → p < off + n → (view sb ip s).addr (leaf ip.inum (p / BSIZE)) ≠ 0) →
      readLoop sb ip off n s = .ok
        ((List.range n).map fun k => byteAt (view sb ip s) s.disk ip.inum (off + k), ip, s) := by
  induction n using Nat.strong_induction_on with
  | _ n ih =>
    intro off inside live
    rw [readLoop]
    split
    next empty =>
      subst empty
      rfl
    next more =>
      obtain ⟨pos, fewer, room⟩ := chunk_spec off more
      have small : off / BSIZE < MAXFILE := div_BSIZE_lt (by omega)
      rw [bmap_live roots small (live off (Nat.le_refl _) (by omega))]
      have rest := ih (n - chunk off n) (by omega) (off + chunk off n) (by omega)
        fun p low high => live p (by omega) (by omega)
      change (readLoop sb ip (off + chunk off n) (n - chunk off n) s >>= _) = _
      rw [rest]
      change Except.ok (_ ++ _, ip, s) = _
      congr 2
      have split : n = chunk off n + (n - chunk off n) := by omega
      conv_rhs => rw [split, List.range_add, List.map_append, List.map_map]
      congr 1
      · apply List.map_congr_left
        intro k member
        have bound := List.mem_range.mp member
        have block : (off + k) / BSIZE = off / BSIZE := by
          simp only [BSIZE] at *
          omega
        have position : (off + k) % BSIZE = off % BSIZE + k := by
          simp only [BSIZE] at *
          omega
        rw [byteAt, block, position]
      · apply List.map_congr_left
        intro k _
        simp only [Function.comp_apply, Nat.add_assoc]

end Xv6.Fs
