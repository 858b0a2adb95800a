import Mathlib.Data.Finset.Card
import Xv6.Fs.Alloc
import Xv6.Lib.Forest
import Xv6.Lib.Steps

/-!
# Block trees

The addresses of all inodes form a forest, to which `bmap` adds nodes one at a time: `Grow` is one such step,
`Ran` collects the steps of a whole walk, and `Held` is the ownership of blocks, which survives them.
-/

namespace Xv6.Fs

open Bytes Forest

/-! ### Positions -/

/-- An entry of the `addrs` of an inode. -/
abbrev Root := Nat × Fin (NDIRECT + 3)

def shape : Shape Root where
  depth r := rootDepth r.2
  width := NINDIRECT

/-- The position of the `bn`th block of a file. -/
def leafOf (bn : Nat) : Fin (NDIRECT + 3) × List Nat :=
  if direct : bn < NDIRECT then (⟨bn, direct_lt direct⟩, [])
  else
    let bn := bn - NDIRECT
    if bn < NINDIRECT then (10, [bn])
    else
      let bn := bn - NINDIRECT
      if bn < NINDIRECT * NINDIRECT then (11, [bn / NINDIRECT, bn % NINDIRECT])
      else
        let bn := bn - NINDIRECT * NINDIRECT
        (12, [bn / (NINDIRECT * NINDIRECT), bn % (NINDIRECT * NINDIRECT) / NINDIRECT,
          bn % NINDIRECT])

/-- The leaf of block `bn` of inode `inum`. -/
def leaf (inum bn : Nat) : Node Root := ((inum, (leafOf bn).1), (leafOf bn).2)

theorem MAXFILE_eq : MAXFILE = 2113674 := rfl

theorem bmap_eq (sb : Superblock) (ip : Inode) {bn : Nat} (inside : bn < MAXFILE) (s : State) :
    bmap sb ip bn s = bmapWalk sb ip (leafOf bn).1 (leafOf bn).2 s := by
  unfold bmap leafOf
  split
  · rfl
  · dsimp only
    split
    · rfl
    · split
      · rfl
      · rw [if_pos]
        simp only [MAXFILE_eq, NDIRECT, NINDIRECT, BSIZE] at *
        omega

/-- The four regions of a file: the root tells them apart, the indices the block within. -/
theorem leafOf_cases {bn : Nat} (inside : bn < MAXFILE) :
    (∃ i : Fin (NDIRECT + 3), i.val < 10 ∧ bn = i.val ∧ leafOf bn = (i, [])) ∨
    (∃ i < 128, bn = 10 + i ∧ leafOf bn = (10, [i])) ∨
    (∃ i < 128, ∃ j < 128, bn = 138 + 128 * i + j ∧ leafOf bn = (11, [i, j])) ∨
    ∃ i < 128, ∃ j < 128, ∃ k < 128,
      bn = 16522 + 16384 * i + 128 * j + k ∧ leafOf bn = (12, [i, j, k]) := by
  rw [MAXFILE_eq] at inside
  by_cases direct : bn < 10
  · exact .inl ⟨⟨bn, direct_lt direct⟩, direct, rfl, dif_pos direct⟩
  · right
    have e : leafOf bn = if bn - 10 < 128 then (10, [bn - 10]) else
        if bn - 10 - 128 < 16384 then (11, [(bn - 10 - 128) / 128, (bn - 10 - 128) % 128])
        else (12, [(bn - 10 - 128 - 16384) / 16384, (bn - 10 - 128 - 16384) % 16384 / 128,
          (bn - 10 - 128 - 16384) % 128]) := dif_neg direct
    by_cases single : bn - 10 < 128
    · rw [if_pos single] at e
      exact .inl ⟨_, single, by omega, e⟩
    · right
      rw [if_neg single] at e
      by_cases double : bn - 10 - 128 < 16384
      · rw [if_pos double] at e
        exact .inl ⟨_, by omega, _, by omega, by omega, e⟩
      · rw [if_neg double] at e
        exact .inr ⟨_, by omega, _, by omega, _, by omega, by omega, e⟩

theorem leafOf_injective {a b : Nat} (insideA : a < MAXFILE) (insideB : b < MAXFILE)
    (same : leafOf a = leafOf b) : a = b := by
  rcases leafOf_cases insideA with ⟨i, hi, ha, ea⟩ | ⟨i, _, ha, ea⟩ | ⟨i, _, j, _, ha, ea⟩ |
      ⟨i, _, j, _, k, _, ha, ea⟩ <;>
    rcases leafOf_cases insideB with ⟨i', hi', hb, eb⟩ | ⟨i', _, hb, eb⟩ | ⟨i', _, j', _, hb, eb⟩ |
      ⟨i', _, j', _, k', _, hb, eb⟩ <;>
    rw [ea, eb] at same <;> simp at same <;> omega

theorem leafOf_length {bn : Nat} (inside : bn < MAXFILE) :
    (leafOf bn).2.length = rootDepth (leafOf bn).1 := by
  rcases leafOf_cases inside with ⟨i, small, _, e⟩ | ⟨i, _, _, e⟩ | ⟨i, _, j, _, _, e⟩ |
      ⟨i, _, j, _, k, _, _, e⟩ <;> rw [e]
  · simp only [rootDepth, List.length_nil]
    omega
  all_goals rfl

theorem leafOf_index {bn : Nat} (inside : bn < MAXFILE) : ∀ i ∈ (leafOf bn).2, i < NINDIRECT := by
  change ∀ i ∈ (leafOf bn).2, i < 128
  rcases leafOf_cases inside with ⟨i, _, _, e⟩ | ⟨i, _, _, e⟩ | ⟨i, _, j, _, _, e⟩ |
      ⟨i, _, j, _, k, _, _, e⟩ <;>
    rw [e]
  · simp
  all_goals
    simp only [List.mem_cons, List.not_mem_nil, or_false]
    omega

theorem leaf_isNode (inum : Nat) {bn : Nat} (inside : bn < MAXFILE) : shape.IsNode (leaf inum bn) :=
  ⟨Nat.le_of_eq (leafOf_length inside), leafOf_index inside⟩

theorem leaf_full (inum : Nat) {bn : Nat} (inside : bn < MAXFILE) :
    shape.depth (leaf inum bn).1 ≤ (leaf inum bn).2.length :=
  Nat.le_of_eq (leafOf_length inside).symm

theorem leaf_injective {i j a b : Nat} (insideA : a < MAXFILE) (insideB : b < MAXFILE)
    (same : leaf i a = leaf j b) : i = j ∧ a = b := by
  obtain ⟨sameRoot, samePath⟩ := Prod.mk.inj same
  obtain ⟨sameInode, sameEntry⟩ := Prod.mk.inj sameRoot
  exact ⟨sameInode, leafOf_injective insideA insideB (Prod.ext sameEntry samePath)⟩

/-! ### The forest of a disk -/

/-- Inode `i` of an inode table is allocated. -/
def InUse (sb : Superblock) (tbl : Nat → Dinode) (i : Nat) : Prop :=
  1 ≤ i ∧ i < sb.ninodes ∧ (tbl i).type ≠ 0

instance (sb : Superblock) (tbl : Nat → Dinode) (i : Nat) : Decidable (InUse sb tbl i) :=
  inferInstanceAs (Decidable (_ ∧ _ ∧ _))

/-- The block trees of the allocated inodes. -/
def trees (sb : Superblock) (tbl : Nat → Dinode) (disk : Nat → Block) : Store Root Nat where
  root r := if InUse sb tbl r.1 then (tbl r.1).addrs r.2 else 0
  next a j := (disk a).word j

/-- The bitmap protects the block trees: metadata blocks are marked, no block stands at two
positions, and the blocks that stand at one are marked data blocks. -/
structure Safe (sb : Superblock) (tbl : Nat → Dinode) (disk : Nat → Block) : Prop where
  superblock : readsb disk = sb
  reserved : ∀ b < sb.nmeta, marked sb disk b = true
  separated : (trees sb tbl disk).Separated shape
  inData : ∀ b, (trees sb tbl disk).Owned shape b → sb.IsData b
  used : ∀ b, (trees sb tbl disk).Owned shape b → marked sb disk b = true

/-- Every marked data block stands at some position. -/
def LeakFree (sb : Superblock) (tbl : Nat → Dinode) (disk : Nat → Block) : Prop :=
  ∀ b, sb.IsData b → marked sb disk b = true → (trees sb tbl disk).Owned shape b

variable {sb : Superblock}

namespace Safe

variable {tbl : Nat → Dinode} {disk : Nat → Block}

theorem isData_of_clear (safe : Safe sb tbl disk) {b : Nat} (small : b < sb.size)
    (clear : marked sb disk b = false) : sb.IsData b := by
  refine ⟨?_, small⟩
  by_contra low
  rw [safe.reserved b (by omega)] at clear
  cases clear

theorem transfer (safe : Safe sb tbl disk) {tbl' : Nat → Dinode} {disk' : Nat → Block}
    (superblock : disk' 1 = disk 1) (bits : ∀ b < sb.size, marked sb disk' b = marked sb disk b)
    (addr : ∀ n, shape.IsNode n → (trees sb tbl' disk').addr n = (trees sb tbl disk).addr n) :
    Safe sb tbl' disk' := by
  have owned := fun b => owned_congr addr b
  refine ⟨?_, ?_, ?_, ?_, ?_⟩
  · rw [← safe.superblock, readsb, readsb, superblock]
  · intro b low
    rw [bits b (by unfold Superblock.nmeta at low; omega), safe.reserved b low]
  · intro n m hn hm live same
    rw [addr n hn] at live same
    rw [addr m hm] at same
    exact safe.separated n m hn hm live same
  · intro b h
    exact safe.inData b ((owned b).mp h)
  · intro b h
    have old := (owned b).mp h
    rw [bits b (safe.inData b old).2, safe.used b old]

end Safe

theorem LeakFree.transfer {tbl tbl' : Nat → Dinode} {disk disk' : Nat → Block}
    (leakFree : LeakFree sb tbl disk) (bits : ∀ b < sb.size, marked sb disk' b = marked sb disk b)
    (addr : ∀ n, shape.IsNode n → (trees sb tbl' disk').addr n = (trees sb tbl disk).addr n) :
    LeakFree sb tbl' disk' := by
  intro b isData used
  rw [bits b isData.2] at used
  exact (owned_congr addr b).mpr (leakFree b isData used)

theorem trees_root_congr {tbl tbl' : Nat → Dinode} {disk disk' : Nat → Block} {r : Root}
    (type : (tbl' r.1).type = (tbl r.1).type) (addrs : (tbl' r.1).addrs r.2 = (tbl r.1).addrs r.2) :
    (trees sb tbl' disk').root r = (trees sb tbl disk).root r := by
  have inUse : InUse sb tbl' r.1 ↔ InUse sb tbl r.1 := by rw [InUse, InUse, type]
  by_cases used : InUse sb tbl r.1
  · simp only [trees, if_pos used, if_pos (inUse.mpr used), addrs]
  · simp only [trees, if_neg used, if_neg (fun h => used (inUse.mp h))]

theorem trees_root_outside {tbl : Nat → Dinode} {disk : Nat → Block} {r : Root}
    (outside : ¬(1 ≤ r.1 ∧ r.1 < sb.ninodes)) : (trees sb tbl disk).root r = 0 :=
  if_neg fun h => outside ⟨h.1, h.2.1⟩

/-- The inode table of the disk with the in-memory `ip` in place of its dinode. -/
def table (sb : Superblock) (ip : Inode) (disk : Nat → Block) : Nat → Dinode :=
  Function.update (dinode sb disk) ip.inum ip.toDinode

theorem table_eq (ip : Inode) {s : State} (stored : dinode sb s.disk ip.inum = ip.toDinode) :
    table sb ip s.disk = dinode sb s.disk := by
  rw [table, ← stored, Function.update_eq_self]

/-- The block trees while `ip` is locked and changing. -/
def view (sb : Superblock) (ip : Inode) (s : State) : Store Root Nat :=
  trees sb (table sb ip s.disk) s.disk

/-- A locked inode whose blocks and everyone else's are in order. -/
structure Held (sb : Superblock) (ip : Inode) (s : State) : Prop where
  inum : 1 ≤ ip.inum ∧ ip.inum < sb.ninodes
  type : ip.type ≠ 0
  fits : ip.Fits
  safe : Safe sb (table sb ip s.disk) s.disk

variable {ip ip' : Inode} {s s' : State}

theorem Held.separated (held : Held sb ip s) : (view sb ip s).Separated shape :=
  held.safe.separated

theorem Held.inData (held : Held sb ip s) {n : Node Root} (node : shape.IsNode n)
    (live : (view sb ip s).addr n ≠ 0) : sb.IsData ((view sb ip s).addr n) :=
  held.safe.inData _ ⟨n, node, rfl, live⟩

theorem Held.root (held : Held sb ip s) (k : Fin (NDIRECT + 3)) :
    (view sb ip s).root (ip.inum, k) = ip.addrs k := by
  have inUse : InUse sb (table sb ip s.disk) ip.inum := by
    refine ⟨held.inum.1, held.inum.2, ?_⟩
    rw [table, Function.update_self]
    exact held.type
  simp only [view, trees, if_pos inUse]
  simp only [table, Function.update_self]

/-- Roots when the dinodes on disk stay and only `ip->addrs` changes. -/
theorem view_root (same : ip' = { ip with addrs := ip'.addrs })
    (inodes : ∀ i < sb.ninodes, dinode sb s'.disk i = dinode sb s.disk i) (r : Root)
    (unchanged : r.1 = ip.inum → ip'.addrs r.2 = ip.addrs r.2) :
    (view sb ip' s').root r = (view sb ip s).root r := by
  have inum : ip'.inum = ip.inum := by rw [same]
  have type : ip'.type = ip.type := by rw [same]
  by_cases inside : 1 ≤ r.1 ∧ r.1 < sb.ninodes
  · by_cases own : r.1 = ip.inum
    · apply trees_root_congr
      · simp only [table, inum, own, Function.update_self, type]
      · simp only [table, inum, own, Function.update_self, unchanged own]
    · apply trees_root_congr
      · simp only [table, inum, Function.update_of_ne own, inodes r.1 inside.2]
      · simp only [table, inum, Function.update_of_ne own, inodes r.1 inside.2]
  · rw [view, view, trees_root_outside inside, trees_root_outside inside]

/-! ### One allocation -/

/-- The index block that is written when an address is stored at `n`; none for an entry of
`addrs`. -/
def parentOf (f : Store Root Nat) (n : Node Root) : List Nat :=
  if n.2 = [] then [] else [f.addr (n.1, n.2.dropLast)]

/-- One block `b` is allocated, zeroed and put at position `n` of the trees. -/
structure Grow (sb : Superblock) (ip : Inode) (s : State) (n : Node Root) (b : Nat)
    (ip' : Inode) (s' : State) : Prop where
  isData : sb.IsData b
  clear : marked sb s.disk b = false
  lowest : ∀ c < b, marked sb s.disk c = true
  inode : ip' = { ip with addrs := ip'.addrs }
  fits : ip'.Fits
  grafted : Grafted shape (view sb ip s) (view sb ip' s') n b
  superblock : s'.disk 1 = s.disk 1
  inodes : ∀ i < sb.ninodes, dinode sb s'.disk i = dinode sb s.disk i
  bits : ∀ c < sb.size, marked sb s'.disk c = if c = b then true else marked sb s.disk c
  zeroed : s'.disk b = Buf.zero 512
  data : ∀ a, sb.nmeta ≤ a → a ≠ b → a ∉ parentOf (view sb ip s) n → s'.disk a = s.disk a
  logged : s'.logged = s.logged ++ [sb.BBLOCK b, b] ++ parentOf (view sb ip s) n

theorem pos_of_isData (valid : sb.Valid) {b : Nat} (isData : sb.IsData b) : b ≠ 0 := by
  have := valid.bmapstart_lt
  have := isData.1
  omega

theorem Grow.held (valid : sb.Valid) (held : Held sb ip s) {n : Node Root} {b : Nat}
    (grow : Grow sb ip s n b ip' s') : Held sb ip' s' := by
  have inum : ip'.inum = ip.inum := by rw [grow.inode]
  have type : ip'.type = ip.type := by rw [grow.inode]
  have nonzero := pos_of_isData valid grow.isData
  have owned := fun a => grow.grafted.owned_iff nonzero a
  have fresh : ¬(view sb ip s).Owned shape b := by
    intro h
    exact absurd grow.clear (by simp [held.safe.used b h])
  refine ⟨inum ▸ held.inum, type ▸ held.type, grow.fits, ?_, ?_, ?_, ?_, ?_⟩
  · rw [← held.safe.superblock, readsb, readsb, grow.superblock]
  · intro c low
    have ne : c ≠ b := by have := grow.isData.1; omega
    rw [grow.bits c (by unfold Superblock.nmeta at low; omega), if_neg ne,
      held.safe.reserved c low]
  · exact grow.grafted.separated held.separated fresh
  · intro a h
    rcases (owned a).mp h with old | rfl
    · exact held.safe.inData a old
    · exact grow.isData
  · intro a h
    rcases (owned a).mp h with old | rfl
    · rw [grow.bits a (held.safe.inData a old).2, held.safe.used a old, ite_self]
    · rw [grow.bits a grow.isData.2, if_pos rfl]

theorem Grow.leakFree (valid : sb.Valid) {n : Node Root} {b : Nat} (grow : Grow sb ip s n b ip' s')
    (leakFree : LeakFree sb (table sb ip s.disk) s.disk) :
    LeakFree sb (table sb ip' s'.disk) s'.disk := by
  intro a isData used
  rw [grow.bits a isData.2] at used
  apply (grow.grafted.owned_iff (pos_of_isData valid grow.isData) a).mpr
  by_cases new : a = b
  · exact .inr new
  · rw [if_neg new] at used
    exact .inl (leakFree a isData used)

private theorem Allocated.entries (held : Held sb ip s) {b : Nat}
    (clear : marked sb s.disk b = false) (allocated : Allocated sb s s' b) {a : Nat}
    (owned : (view sb ip s).Owned shape a) : a ≠ b ∧ s'.disk a = s.disk a := by
  have ne : a ≠ b := by
    rintro rfl
    rw [held.safe.used a owned] at clear
    cases clear
  exact ⟨ne, allocated.data a (held.safe.inData a owned).1 ne⟩

theorem rootEntry_ok (valid : sb.Valid) (held : Held sb ip s) {k : Fin (NDIRECT + 3)} {a : Nat}
    (ran : rootEntry sb ip k s = .ok (a, ip', s')) :
    (ip' = ip ∧ s' = s ∧ (view sb ip s).addr ((ip.inum, k), []) = a ∧ a ≠ 0) ∨
      Grow sb ip s ((ip.inum, k), []) a ip' s' := by
  have root := held.root k
  unfold rootEntry at ran
  dsimp only at ran
  split at ran
  next empty =>
    right
    obtain ⟨⟨b, t⟩, balloced, rest⟩ := Steps.bind_ok ran
    cases rest
    obtain ⟨small, clear, lowest, rfl⟩ := balloc_ok balloced
    have isData := held.safe.isData_of_clear small clear
    have spec := allocate_spec valid s isData
    refine ⟨isData, clear, lowest, rfl, ?_, ?_, spec.superblock, spec.inodes, spec.bits,
      spec.zeroed, ?_, ?_⟩
    · refine ⟨held.fits.size, ?_⟩
      intro j
      have := valid.words
      by_cases here : j = k
      · simp only [here, Function.update_self]
        omega
      · simp only [Function.update_of_ne here]
        exact held.fits.addrs j
    · refine graft_root (root.trans empty) ?_ ?_ ?_
      · intro q
        by_cases here : q = (ip.inum, k)
        · subst here
          rw [if_pos rfl]
          have inUse : InUse sb (table sb { ip with addrs := Function.update ip.addrs k b }
              (allocate sb s b).disk) ip.inum := by
            refine ⟨held.inum.1, held.inum.2, ?_⟩
            rw [table, Function.update_self]
            exact held.type
          simp only [view, trees, if_pos inUse]
          simp only [table, Function.update_self]
        · rw [if_neg here]
          refine view_root rfl spec.inodes q ?_
          intro own
          have other : q.2 ≠ k := fun h => here (Prod.ext own h)
          exact Function.update_of_ne other _ _
      · intro c i owned _
        change ((allocate sb s b).disk c).word i = (s.disk c).word i
        rw [(Allocated.entries held clear spec owned).2]
      · intro i _
        change ((allocate sb s b).disk b).word i = 0
        rw [spec.zeroed, Buf.word_zero]
    · intro c high other _
      exact spec.data c high other
    · rw [spec.logged]
      simp [parentOf]
  next live =>
    cases ran
    exact .inl ⟨rfl, rfl, root, live⟩

theorem indexEntry_ok (valid : sb.Valid) (held : Held sb ip s) {r : Root} {path : List Nat}
    {i a b : Nat} (isNode : shape.IsNode (r, path)) (deep : path.length < shape.depth r)
    (small : i < NINDIRECT) (at_ : (view sb ip s).addr (r, path) = a) (live : a ≠ 0)
    (ran : indexEntry sb a i s = .ok (b, s')) :
    (s' = s ∧ (view sb ip s).addr (r, path ++ [i]) = b ∧ b ≠ 0) ∨
      Grow sb ip s (r, path ++ [i]) b ip s' := by
  unfold indexEntry at ran
  dsimp only at ran
  have entry : (view sb ip s).addr (r, path ++ [i]) = (s.disk a).word i := by
    rw [Store.addr_concat, at_, if_neg live]
    rfl
  have parent : parentOf (view sb ip s) (r, path ++ [i]) = [a] := by
    simp [parentOf, at_]
  split at ran
  next empty =>
    right
    obtain ⟨⟨b', t⟩, balloced, rest⟩ := Steps.bind_ok ran
    obtain ⟨rfl, rfl⟩ : b' = b ∧ logWrite t a ((t.disk a).setWord i b') = s' := by
      simpa using rest
    obtain ⟨bound, clear, lowest, rfl⟩ := balloc_ok balloced
    have isData := held.safe.isData_of_clear bound clear
    have spec := allocate_spec valid s isData
    have owned : (view sb ip s).Owned shape a := ⟨_, isNode, at_, live⟩
    obtain ⟨ne, kept⟩ := Allocated.entries held clear spec owned
    have same := sameMeta_of_data valid (d := (allocate sb s b').disk)
      (held.safe.inData a owned).1 (((allocate sb s b').disk a).setWord i b')
    have inodes : ∀ j < sb.ninodes, dinode sb (logWrite (allocate sb s b') a
        (((allocate sb s b').disk a).setWord i b')).disk j = dinode sb s.disk j :=
      fun j hj => (same.inodes j hj).trans (spec.inodes j hj)
    have zeroed : (logWrite (allocate sb s b') a
        (((allocate sb s b').disk a).setWord i b')).disk b' = Buf.zero 512 :=
      (Function.update_of_ne (Ne.symm ne) _ _).trans spec.zeroed
    refine ⟨isData, clear, lowest, rfl, held.fits, ?_, same.superblock.trans spec.superblock,
      inodes, fun c hc => (same.bits c hc).trans (spec.bits c hc), zeroed, ?_, ?_⟩
    · refine graft_entry held.separated isNode deep small (by rw [at_]; exact live)
        (by rw [at_]; exact empty) (fun q => view_root rfl inodes q fun _ => rfl) ?_ ?_ ?_
      · intro c j ownedC _ different
        change (Function.update (allocate sb s b').disk a _ c).word j = (s.disk c).word j
        rw [at_] at different
        by_cases isParent : c = a
        · subst isParent
          rw [Function.update_self, Buf.word_setWord_ne _ _ _ _ (different.resolve_left (· rfl)),
            kept]
        · rw [Function.update_of_ne isParent, (Allocated.entries held clear spec ownedC).2]
      · rw [at_]
        change (Function.update (allocate sb s b').disk a _ a).word i = b'
        have room : 4 * i + 4 ≤ 512 := by
          simp only [NINDIRECT, BSIZE] at small
          omega
        have := valid.words
        rw [Function.update_self, Buf.word_setWord_same _ _ _ room, Nat.mod_eq_of_lt (by omega)]
      · intro j _
        change ((logWrite (allocate sb s b') a _).disk b').word j = 0
        rw [zeroed, Buf.word_zero]
    · intro c high other outside
      rw [parent, List.mem_singleton] at outside
      exact (Function.update_of_ne outside _ _).trans (spec.data c high other)
    · rw [parent]
      simp [logWrite, spec.logged]
  next present =>
    cases ran
    exact .inl ⟨rfl, entry, present⟩

end Xv6.Fs
