import Mathlib.Data.Finset.Basic
import Mathlib.Data.Finset.Card
import Xv6.Fs.Tree

/-!
# Growing files

`bmap` and the loop of `writei` are sequences of two kinds of steps: a block is allocated and put into the
trees, or the block of a leaf is overwritten. `Ran` records such a sequence, and what a whole call does is
proved by induction on it.
-/

namespace Xv6.Fs

open Bytes Forest

inductive Event where
  /-- block `b` was allocated for position `n` -/
  | grow (n : Node Root) (b : Nat)
  /-- the block at leaf `n` was overwritten -/
  | data (n : Node Root)

/-- The positions that were given a block. -/
def grown (es : List Event) : List (Node Root) :=
  es.filterMap fun | .grow n _ => some n | .data _ => none

/-- The leaves that were overwritten. -/
def written (es : List Event) : List (Node Root) :=
  es.filterMap fun | .grow _ _ => none | .data n => some n

@[simp] theorem grown_nil : grown [] = [] := rfl

@[simp] theorem written_nil : written [] = [] := rfl

@[simp] theorem grown_append (es fs : List Event) : grown (es ++ fs) = grown es ++ grown fs :=
  List.filterMap_append

@[simp] theorem written_append (es fs : List Event) :
    written (es ++ fs) = written es ++ written fs :=
  List.filterMap_append

@[simp] theorem grown_grow (n : Node Root) (b : Nat) : grown [.grow n b] = [n] := rfl

@[simp] theorem grown_data (n : Node Root) : grown [.data n] = [] := rfl

@[simp] theorem written_grow (n : Node Root) (b : Nat) : written [.grow n b] = [] := rfl

@[simp] theorem written_data (n : Node Root) : written [.data n] = [n] := rfl

/-- A leaf: a position with no index below it. -/
def IsLeaf (n : Node Root) : Prop := shape.IsNode n ∧ shape.depth n.1 ≤ n.2.length

theorem leaf_isLeaf (inum : Nat) {bn : Nat} (inside : bn < MAXFILE) : IsLeaf (leaf inum bn) :=
  ⟨leaf_isNode inum inside, leaf_full inum inside⟩

/-- The steps `es` lead from one inode and state to another. -/
inductive Ran (sb : Superblock) (ip : Inode) (s : State) : List Event → Inode → State → Prop where
  | nil : Ran sb ip s [] ip s
  | grow {es : List Event} {ip₁ ip₂ : Inode} {s₁ s₂ : State} {n : Node Root} {b : Nat} :
      Ran sb ip s es ip₁ s₁ → Grow sb ip₁ s₁ n b ip₂ s₂ → Ran sb ip s (es ++ [.grow n b]) ip₂ s₂
  | data {es : List Event} {ip₁ : Inode} {s₁ : State} {n : Node Root} (block : Block) :
      Ran sb ip s es ip₁ s₁ → IsLeaf n → (view sb ip₁ s₁).addr n ≠ 0 →
      Ran sb ip s (es ++ [.data n]) ip₁ (logWrite s₁ ((view sb ip₁ s₁).addr n) block)

variable {sb : Superblock} {ip ip' ip₁ : Inode} {s s' s₁ : State} {es es' : List Event}

theorem Ran.trans (first : Ran sb ip s es ip₁ s₁) (second : Ran sb ip₁ s₁ es' ip' s') :
    Ran sb ip s (es ++ es') ip' s' := by
  induction second with
  | nil => simpa using first
  | grow _ step ih =>
    rw [← List.append_assoc]
    exact ih.grow step
  | data block _ isLeaf live ih =>
    rw [← List.append_assoc]
    exact ih.data block isLeaf live

/-! ### Overwriting a leaf -/

section Overwrite

variable {n : Node Root}

private theorem overwrite_meta (valid : sb.Valid) (held : Held sb ip s) (isLeaf : IsLeaf n)
    (live : (view sb ip s).addr n ≠ 0) (block : Block) :
    SameMeta sb s.disk (logWrite s ((view sb ip s).addr n) block).disk :=
  sameMeta_of_data valid (held.safe.inData _ ⟨n, isLeaf.1, rfl, live⟩).1 block

theorem overwrite_addr (valid : sb.Valid) (held : Held sb ip s) (isLeaf : IsLeaf n)
    (live : (view sb ip s).addr n ≠ 0) (block : Block) {m : Node Root} (node : shape.IsNode m) :
    (view sb ip (logWrite s ((view sb ip s).addr n) block)).addr m = (view sb ip s).addr m := by
  have same := overwrite_meta valid held isLeaf live block
  refine addr_of_leaf_write held.separated (fun r => view_root rfl same.inodes r fun _ => rfl)
    isLeaf.1 isLeaf.2 ?_ m node
  intro a i _ _ other
  change (Function.update s.disk _ _ a).word i = (s.disk a).word i
  rw [Function.update_of_ne other]

theorem overwrite_held (valid : sb.Valid) (held : Held sb ip s) (isLeaf : IsLeaf n)
    (live : (view sb ip s).addr n ≠ 0) (block : Block) :
    Held sb ip (logWrite s ((view sb ip s).addr n) block) := by
  have same := overwrite_meta valid held isLeaf live block
  exact ⟨held.inum, held.type, held.fits, held.safe.transfer same.superblock same.bits
    fun m node => overwrite_addr valid held isLeaf live block node⟩

end Overwrite

/-! ### What a sequence of steps keeps -/

/-- What holds between the two ends of a sequence of steps. -/
structure Kept (sb : Superblock) (ip : Inode) (s : State) (ip' : Inode) (s' : State) : Prop where
  held : Held sb ip' s'
  inode : ip' = { ip with addrs := ip'.addrs }
  superblock : s'.disk 1 = s.disk 1
  inodes : ∀ i < sb.ninodes, dinode sb s'.disk i = dinode sb s.disk i
  leakFree : LeakFree sb (table sb ip s.disk) s.disk → LeakFree sb (table sb ip' s'.disk) s'.disk

theorem Ran.kept (valid : sb.Valid) (held : Held sb ip s) (ran : Ran sb ip s es ip' s') :
    Kept sb ip s ip' s' := by
  induction ran with
  | nil => exact ⟨held, rfl, rfl, fun _ _ => rfl, id⟩
  | grow _ step ih =>
    refine ⟨step.held valid ih.held, ?_, step.superblock.trans ih.superblock,
      fun i hi => (step.inodes i hi).trans (ih.inodes i hi),
      fun h => step.leakFree valid (ih.leakFree h)⟩
    rw [step.inode, ih.inode]
  | data block _ isLeaf live ih =>
    have same := overwrite_meta valid ih.held isLeaf live block
    exact ⟨overwrite_held valid ih.held isLeaf live block, ih.inode,
      same.superblock.trans ih.superblock, fun i hi => (same.inodes i hi).trans (ih.inodes i hi),
      fun h => (ih.leakFree h).transfer same.bits
        fun m node => overwrite_addr valid ih.held isLeaf live block node⟩

theorem Ran.addr_of_not_grown (valid : sb.Valid) (held : Held sb ip s)
    (ran : Ran sb ip s es ip' s') {m : Node Root} (node : shape.IsNode m) (old : m ∉ grown es) :
    (view sb ip' s').addr m = (view sb ip s).addr m := by
  induction ran with
  | nil => rfl
  | grow _ step ih =>
    simp only [grown_append, grown_grow, List.mem_append, List.mem_singleton, not_or] at old
    rw [step.grafted.elsewhere m node old.2, ih old.1]
  | data block before isLeaf live ih =>
    simp only [grown_append, grown_data, List.append_nil] at old
    rw [overwrite_addr valid (before.kept valid held).held isLeaf live block node, ih old]

theorem Ran.grown_spec (valid : sb.Valid) (held : Held sb ip s) (ran : Ran sb ip s es ip' s')
    {m : Node Root} (new : m ∈ grown es) :
    shape.IsNode m ∧ (view sb ip s).addr m = 0 ∧ (view sb ip' s').addr m ≠ 0 := by
  induction ran with
  | nil => cases new
  | @grow es ip₁ ip₂ s₁ s₂ n b before step ih =>
    simp only [grown_append, grown_grow, List.mem_append, List.mem_singleton] at new
    by_cases earlier : m ∈ grown es
    · obtain ⟨node, empty, live⟩ := ih earlier
      rw [step.grafted.addr_of_live node live]
      exact ⟨node, empty, live⟩
    · obtain rfl := new.resolve_left earlier
      have node := step.grafted.isNode
      rw [← before.addr_of_not_grown valid held node earlier, step.grafted.placed]
      exact ⟨node, step.grafted.empty, pos_of_isData valid step.isData⟩
  | data block before isLeaf live ih =>
    simp only [grown_append, grown_data, List.append_nil] at new
    obtain ⟨node, empty, placed⟩ := ih new
    rw [overwrite_addr valid (before.kept valid held).held isLeaf live block node]
    exact ⟨node, empty, placed⟩

theorem Ran.addr_of_live (valid : sb.Valid) (held : Held sb ip s) (ran : Ran sb ip s es ip' s')
    {m : Node Root} (node : shape.IsNode m) (live : (view sb ip s).addr m ≠ 0) :
    (view sb ip' s').addr m = (view sb ip s).addr m := by
  apply ran.addr_of_not_grown valid held node
  intro new
  exact live (ran.grown_spec valid held new).2.1

theorem Ran.grown_nodup (valid : sb.Valid) (held : Held sb ip s) (ran : Ran sb ip s es ip' s') :
    (grown es).Nodup := by
  induction ran with
  | nil => simp
  | grow before step ih =>
    simp only [grown_append, grown_grow]
    rw [List.nodup_append]
    refine ⟨ih, by simp, ?_⟩
    intro m new n last
    rw [List.mem_singleton] at last
    rintro rfl
    subst last
    exact (before.grown_spec valid held new).2.2 step.grafted.empty
  | data _ _ _ _ ih => simpa using ih

theorem Ran.written_live (valid : sb.Valid) (held : Held sb ip s) (ran : Ran sb ip s es ip' s')
    {m : Node Root} (member : m ∈ written es) : IsLeaf m ∧ (view sb ip' s').addr m ≠ 0 := by
  induction ran with
  | nil => cases member
  | grow _ step ih =>
    simp only [written_append, written_grow, List.append_nil] at member
    obtain ⟨isLeaf, live⟩ := ih member
    rw [step.grafted.addr_of_live isLeaf.1 live]
    exact ⟨isLeaf, live⟩
  | data block before isLeaf live ih =>
    simp only [written_append, written_data, List.mem_append, List.mem_singleton] at member
    have held₁ := (before.kept valid held).held
    rcases member with earlier | rfl
    · obtain ⟨isLeaf', live'⟩ := ih earlier
      rw [overwrite_addr valid held₁ isLeaf live block isLeaf'.1]
      exact ⟨isLeaf', live'⟩
    · rw [overwrite_addr valid held₁ isLeaf live block isLeaf.1]
      exact ⟨isLeaf, live⟩

/-! ### Contents of the leaves -/

private theorem leaf_not_parent (held : Held sb ip s) {n m : Node Root} {b : Nat}
    (step : Grow sb ip s n b ip' s') (isLeaf : IsLeaf m) (live : (view sb ip s).addr m ≠ 0) :
    (view sb ip s).addr m ∉ parentOf (view sb ip s) n := by
  obtain ⟨r, path⟩ := n
  rcases List.eq_nil_or_concat' path with rfl | ⟨path, i, rfl⟩
  · simp [parentOf]
  · obtain ⟨parent, deep, _⟩ := Shape.isNode_concat.mp step.grafted.isNode
    simp only [parentOf, List.append_eq_nil_iff, List.cons_ne_nil, and_false,
      if_false, List.dropLast_concat, List.mem_singleton]
    intro same
    have equal := held.separated m (r, path) isLeaf.1 parent live same
    subst equal
    exact absurd deep (Nat.not_lt.mpr isLeaf.2)

/-- A leaf that was not overwritten has its old contents, or zeros if it is new. -/
theorem Ran.leaf_block (valid : sb.Valid) (held : Held sb ip s) (ran : Ran sb ip s es ip' s')
    {m : Node Root} (isLeaf : IsLeaf m) (untouched : m ∉ written es)
    (live : (view sb ip' s').addr m ≠ 0) :
    s'.disk ((view sb ip' s').addr m) =
      if (view sb ip s).addr m = 0 then Buf.zero 512 else s.disk ((view sb ip s).addr m) := by
  induction ran with
  | nil => rw [if_neg live]
  | @grow es ip₁ ip₂ s₁ s₂ n b before step ih =>
    simp only [written_append, written_grow, List.append_nil] at untouched
    have held₁ := (before.kept valid held).held
    by_cases new : m = n
    · subst new
      rw [step.grafted.placed, step.zeroed, if_pos]
      by_contra old
      have := before.addr_of_live valid held isLeaf.1 old
      rw [step.grafted.empty] at this
      exact old this.symm
    · have same := step.grafted.elsewhere m isLeaf.1 new
      rw [same] at live ⊢
      rw [← ih untouched live]
      have ownedM : (view sb ip₁ s₁).Owned shape _ := ⟨m, isLeaf.1, rfl, live⟩
      apply step.data _ (held₁.safe.inData _ ownedM).1
      · intro equal
        have := held₁.safe.used _ ownedM
        rw [equal, step.clear] at this
        cases this
      · exact leaf_not_parent held₁ step isLeaf live
  | @data es ip₁ s₁ n block before isLeafN liveN ih =>
    simp only [written_append, written_data, List.mem_append, List.mem_singleton,
      not_or] at untouched
    have held₁ := (before.kept valid held).held
    rw [overwrite_addr valid held₁ isLeafN liveN block isLeaf.1] at live ⊢
    rw [← ih untouched.1 live]
    refine Function.update_of_ne ?_ _ _
    intro equal
    exact untouched.2 (held₁.separated m n isLeaf.1 isLeafN.1 live equal)

/-! ### The bitmap -/

/-- The unmarked blocks. -/
def freeBlocks (sb : Superblock) (disk : Nat → Block) : Finset Nat :=
  (Finset.range sb.size).filter fun b => marked sb disk b = false

theorem Grow.freeBlocks_eq {n : Node Root} {b : Nat} (step : Grow sb ip s n b ip' s') :
    freeBlocks sb s'.disk = (freeBlocks sb s.disk).erase b := by
  ext c
  simp only [freeBlocks, Finset.mem_filter, Finset.mem_range, Finset.mem_erase]
  by_cases small : c < sb.size
  · rw [step.bits c small]
    by_cases new : c = b <;> simp [new, small]
  · simp [small]

theorem Grow.mem_freeBlocks {n : Node Root} {b : Nat} (step : Grow sb ip s n b ip' s') :
    b ∈ freeBlocks sb s.disk := by
  simp only [freeBlocks, Finset.mem_filter, Finset.mem_range]
  exact ⟨step.isData.2, step.clear⟩

theorem Grow.card_freeBlocks {n : Node Root} {b : Nat} (step : Grow sb ip s n b ip' s') :
    (freeBlocks sb s'.disk).card + 1 = (freeBlocks sb s.disk).card := by
  rw [step.freeBlocks_eq]
  exact Finset.card_erase_add_one step.mem_freeBlocks

/-- Without free blocks `balloc` panics, and only then. -/
theorem balloc_error_free {e : Panic} (ran : balloc sb s = .error e) :
    e = .ballocOutOfBlocks ∧ (freeBlocks sb s.disk).card = 0 := by
  obtain ⟨rfl, full⟩ := balloc_error ran
  refine ⟨rfl, ?_⟩
  rw [Finset.card_eq_zero, freeBlocks, Finset.filter_eq_empty_iff]
  intro b small
  rw [full b (Finset.mem_range.mp small)]
  simp

theorem freeBlocks_overwrite (valid : sb.Valid) (held : Held sb ip s) {n : Node Root}
    (isLeaf : IsLeaf n) (live : (view sb ip s).addr n ≠ 0) (block : Block) :
    freeBlocks sb (logWrite s ((view sb ip s).addr n) block).disk = freeBlocks sb s.disk := by
  have same := overwrite_meta valid held isLeaf live block
  ext c
  simp only [freeBlocks, Finset.mem_filter, Finset.mem_range]
  refine and_congr_right fun small => ?_
  rw [same.bits c small]

theorem Ran.card_freeBlocks (valid : sb.Valid) (held : Held sb ip s) (ran : Ran sb ip s es ip' s') :
    (freeBlocks sb s'.disk).card + (grown es).length = (freeBlocks sb s.disk).card := by
  induction ran with
  | nil => rfl
  | grow _ step ih =>
    have := step.card_freeBlocks
    simp only [grown_append, grown_grow, List.length_append, List.length_singleton]
    omega
  | data block before isLeaf live ih =>
    rw [freeBlocks_overwrite valid (before.kept valid held).held isLeaf live block]
    simpa using ih

/-! ### `bmap` -/

theorem indexWalk_ok (valid : sb.Valid) {r : Root} (path : List Nat) :
    ∀ (walked : List Nat) {s s' : State} {a b : Nat}, Held sb ip s →
      shape.IsNode (r, walked ++ path) → (view sb ip s).addr (r, walked) = a → a ≠ 0 →
      indexWalk sb a path s = .ok (b, s') →
      ∃ es, Ran sb ip s es ip s' ∧ written es = [] ∧ (grown es).length ≤ path.length ∧
        (∀ n ∈ grown es, n.1 = r ∧ n.2 <+: walked ++ path) ∧
        (view sb ip s').addr (r, walked ++ path) = b ∧ b ≠ 0 := by
  induction path with
  | nil =>
    intro walked s s' a b _ _ here live ran
    cases ran
    exact ⟨[], .nil, rfl, Nat.le_refl _, by simp, by simpa using here, live⟩
  | cons i path ih =>
    intro walked s s' a b held node here live ran
    obtain ⟨⟨c, t⟩, entry, rest⟩ := Steps.bind_ok ran
    have split : walked ++ i :: path = walked ++ [i] ++ path := by simp
    have short := node.1
    have bounds := node.2
    simp only [List.length_append, List.length_cons] at short
    have isNode : shape.IsNode (r, walked) := node.of_isPrefix (List.prefix_append _ _)
    have deep : walked.length < shape.depth r := by omega
    rw [split] at node ⊢
    rcases indexEntry_ok valid held isNode deep (bounds i (by simp)) here live entry with
      ⟨rfl, there, next⟩ | step
    · obtain ⟨es, ran', clean, few, below⟩ := ih _ held node there next rest
      exact ⟨es, ran', clean, Nat.le_succ_of_le few, below⟩
    · obtain ⟨es, ran', clean, few, below, there, live'⟩ :=
        ih _ (step.held valid held) node step.grafted.placed (pos_of_isData valid step.isData) rest
      refine ⟨_, (Ran.nil.grow step).trans ran', by rw [written_append, clean]; rfl, ?_, ?_, there,
        live'⟩
      · rw [grown_append, List.length_append, List.length_cons, Nat.add_comm]
        exact Nat.succ_le_succ few
      intro n member
      simp only [List.nil_append, grown_append, grown_grow, List.mem_append,
        List.mem_singleton] at member
      rcases member with rfl | member
      · exact ⟨rfl, List.prefix_append _ _⟩
      · exact below n member

theorem indexWalk_error (valid : sb.Valid) {r : Root} {e : Panic} (path : List Nat) :
    ∀ (walked : List Nat) {s : State} {a : Nat}, Held sb ip s →
      shape.IsNode (r, walked ++ path) → (view sb ip s).addr (r, walked) = a → a ≠ 0 →
      indexWalk sb a path s = .error e →
      e = .ballocOutOfBlocks ∧ (freeBlocks sb s.disk).card < path.length := by
  induction path with
  | nil =>
    intro _ _ _ _ _ _ _ ran
    cases ran
  | cons i path ih =>
    intro walked s a held node here live ran
    have short := node.1
    have bounds := node.2
    simp only [List.length_append, List.length_cons] at short
    have isNode : shape.IsNode (r, walked) := node.of_isPrefix (List.prefix_append _ _)
    have deep : walked.length < shape.depth r := by omega
    rcases Steps.bind_error ran with failed | ⟨⟨c, t⟩, entry, rest⟩
    · unfold indexEntry at failed
      dsimp only at failed
      split at failed
      · rcases Steps.bind_error failed with out | ⟨_, _, impossible⟩
        · obtain ⟨rfl, none⟩ := balloc_error_free out
          exact ⟨rfl, by simp [none]⟩
        · cases impossible
      · cases failed
    · have split : walked ++ i :: path = walked ++ [i] ++ path := by simp
      rw [split] at node
      rcases indexEntry_ok valid held isNode deep (bounds i (by simp)) here live entry with
        ⟨rfl, there, next⟩ | step
      · obtain ⟨known, few⟩ := ih _ held node there next rest
        exact ⟨known, by simp only [List.length_cons]; omega⟩
      · obtain ⟨known, few⟩ := ih _ (step.held valid held) node step.grafted.placed
          (pos_of_isData valid step.isData) rest
        have := step.card_freeBlocks
        exact ⟨known, by simp only [List.length_cons]; omega⟩

private theorem leafOf_short {bn : Nat} (inside : bn < MAXFILE) : (leafOf bn).2.length ≤ 3 := by
  rw [leafOf_length inside]
  have : (leafOf bn).1.val < 13 := (leafOf bn).1.isLt
  unfold rootDepth
  omega

/-- What `bmap` does: it grows the tree along the path to block `bn` and returns the address
now standing there. -/
theorem bmap_ok (valid : sb.Valid) (held : Held sb ip s) {bn a : Nat} (inside : bn < MAXFILE)
    (ran : bmap sb ip bn s = .ok (a, ip', s')) :
    ∃ es, Ran sb ip s es ip' s' ∧ written es = [] ∧ (grown es).length ≤ 4 ∧
      (∀ n ∈ grown es, n.1 = (leaf ip.inum bn).1 ∧ n.2 <+: (leaf ip.inum bn).2) ∧
      (view sb ip' s').addr (leaf ip.inum bn) = a ∧ a ≠ 0 := by
  rw [bmap_eq sb ip inside] at ran
  obtain ⟨⟨c, ip₁, t⟩, entry, rest⟩ := Steps.bind_ok ran
  obtain ⟨⟨d, t'⟩, walk, rest⟩ := Steps.bind_ok rest
  cases rest
  have node := leaf_isNode ip.inum inside
  have short := leafOf_short inside
  rcases rootEntry_ok valid held entry with ⟨rfl, rfl, here, live⟩ | step
  · obtain ⟨es, ran', clean, few, below⟩ :=
      indexWalk_ok valid (leafOf bn).2 [] held node here live walk
    exact ⟨es, ran', clean, by omega, below⟩
  · obtain ⟨es, ran', clean, few, below, there, live⟩ := indexWalk_ok valid (leafOf bn).2 []
      (step.held valid held) node step.grafted.placed (pos_of_isData valid step.isData) walk
    refine ⟨_, (Ran.nil.grow step).trans ran', by rw [written_append, clean]; rfl, ?_, ?_, there,
      live⟩
    · rw [grown_append, List.length_append]
      exact Nat.add_le_add (by rfl) (Nat.le_trans few short)
    intro n member
    simp only [List.nil_append, grown_append, grown_grow, List.mem_append,
      List.mem_singleton] at member
    rcases member with rfl | member
    · exact ⟨rfl, List.nil_prefix⟩
    · exact below n member

theorem bmap_error (valid : sb.Valid) (held : Held sb ip s) {bn : Nat} (inside : bn < MAXFILE)
    {e : Panic} (ran : bmap sb ip bn s = .error e) :
    e = .ballocOutOfBlocks ∧ (freeBlocks sb s.disk).card < 4 := by
  rw [bmap_eq sb ip inside] at ran
  have node := leaf_isNode ip.inum inside
  have short := leafOf_short inside
  rcases Steps.bind_error ran with failed | ⟨⟨c, ip₁, t⟩, entry, rest⟩
  · unfold rootEntry at failed
    dsimp only at failed
    split at failed
    · rcases Steps.bind_error failed with out | ⟨_, _, impossible⟩
      · obtain ⟨rfl, none⟩ := balloc_error_free out
        exact ⟨rfl, by omega⟩
      · cases impossible
    · cases failed
  · rcases Steps.bind_error rest with walk | ⟨_, _, impossible⟩
    · rcases rootEntry_ok valid held entry with ⟨rfl, rfl, here, live⟩ | step
      · obtain ⟨known, few⟩ := indexWalk_error valid (leafOf bn).2 [] held node here live
          walk
        exact ⟨known, by omega⟩
      · obtain ⟨known, few⟩ := indexWalk_error valid (leafOf bn).2 []
          (step.held valid held) node step.grafted.placed (pos_of_isData valid step.isData) walk
        have := step.card_freeBlocks
        exact ⟨known, by omega⟩
    · cases impossible

end Xv6.Fs
