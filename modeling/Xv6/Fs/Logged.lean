import Xv6.Fs.Image

/-!
# What a write logs

The block numbers that one `writei` passes to `log_write`: the overwritten leaves, the new positions and
the index blocks above them, the bitmap blocks, and the inode's block if the file grew.
-/

namespace Xv6.Fs

open Bytes Forest

variable {sb : Superblock} {ip ip' : Inode} {s s' : State} {es : List Event}

/-- The position above. -/
def above (n : Node Root) : Node Root := (n.1, n.2.dropLast)

/-- The positions whose blocks are modified: new ones, those that refer to new ones, and
overwritten leaves. -/
def modified (es : List Event) : Finset (Node Root) :=
  (grown es).toFinset ∪ ((grown es).toFinset.filter (·.2 ≠ [])).image above ∪ (written es).toFinset

theorem mem_modified {n : Node Root} : n ∈ modified es ↔
    n ∈ grown es ∨ (∃ m ∈ grown es, m.2 ≠ [] ∧ above m = n) ∨ n ∈ written es := by
  simp [modified, and_assoc]

theorem parentOf_eq (f : Store Root Nat) (n : Node Root) :
    parentOf f n = if n.2 = [] then [] else [f.addr (above n)] := rfl

theorem Grow.above_live {n : Node Root} {b : Nat} (step : Grow sb ip s n b ip' s')
    (valid : sb.Valid) (deep : n.2 ≠ []) :
    shape.IsNode (above n) ∧ (view sb ip' s').addr (above n) ≠ 0 := by
  obtain ⟨r, path⟩ := n
  rcases List.eq_nil_or_concat' path with rfl | ⟨path, i, rfl⟩
  · exact absurd rfl deep
  · have isNode := step.grafted.isNode
    have parent := (Shape.isNode_concat.mp isNode).1
    have placed := step.grafted.placed
    rw [above, List.dropLast_concat]
    refine ⟨parent, ?_⟩
    intro zero
    rw [Store.addr_concat, if_pos zero] at placed
    exact pos_of_isData valid step.isData placed.symm

/-- The position above a new one that the step did not add keeps its address. -/
theorem Grow.above_old {n : Node Root} {b : Nat} (step : Grow sb ip s n b ip' s')
    (deep : n.2 ≠ []) (node : shape.IsNode (above n)) :
    (view sb ip' s').addr (above n) = (view sb ip s).addr (above n) := by
  apply step.grafted.elsewhere _ node
  intro equal
  have length := congrArg (fun m : Node Root => m.2.length) equal
  simp only [above, List.length_dropLast] at length
  have := List.length_pos_iff.mpr deep
  omega

/-- The blocks logged by a sequence of steps, in terms of where they stand at its end. -/
theorem Ran.logged (valid : sb.Valid) (held : Held sb ip s) (ran : Ran sb ip s es ip' s') :
    (∀ n ∈ modified es, shape.IsNode n ∧ (view sb ip' s').addr n ≠ 0) ∧
    ∃ l, s'.logged = s.logged ++ l ∧ ∀ x, x ∈ l ↔
      (∃ n ∈ grown es, x = sb.BBLOCK ((view sb ip' s').addr n)) ∨
      ∃ n ∈ modified es, x = (view sb ip' s').addr n := by
  induction ran with
  | nil => exact ⟨by simp [modified], [], by simp, by simp [modified]⟩
  | @grow es ip₁ ip₂ s₁ s₂ n b before step ih =>
    obtain ⟨live, l, logged, members⟩ := ih
    have kept : ∀ m ∈ modified es, (view sb ip₂ s₂).addr m = (view sb ip₁ s₁).addr m :=
      fun m h => step.grafted.addr_of_live (live m h).1 (live m h).2
    have modified_iff : ∀ m, m ∈ modified (es ++ [.grow n b]) ↔
        m ∈ modified es ∨ m = n ∨ (n.2 ≠ [] ∧ m = above n) := by
      intro m
      simp only [mem_modified, grown_append, written_append, grown_grow, written_grow,
        List.mem_append, List.mem_singleton, List.append_nil]
      constructor
      · rintro ((old | rfl) | ⟨k, old | rfl, deep, rfl⟩ | old)
        · exact .inl (.inl old)
        · exact .inr (.inl rfl)
        · exact .inl (.inr (.inl ⟨k, old, deep, rfl⟩))
        · exact .inr (.inr ⟨deep, rfl⟩)
        · exact .inl (.inr (.inr old))
      · rintro ((old | ⟨k, old, deep, rfl⟩ | old) | rfl | ⟨deep, rfl⟩)
        · exact .inl (.inl old)
        · exact .inr (.inl ⟨k, .inl old, deep, rfl⟩)
        · exact .inr (.inr old)
        · exact .inl (.inr rfl)
        · exact .inr (.inl ⟨n, .inr rfl, deep, rfl⟩)
    refine ⟨?_, l ++ ([sb.BBLOCK b, b] ++ parentOf (view sb ip₁ s₁) n), ?_, ?_⟩
    · intro m member
      rcases (modified_iff m).mp member with old | rfl | ⟨deep, rfl⟩
      · rw [kept m old]
        exact live m old
      · rw [step.grafted.placed]
        exact ⟨step.grafted.isNode, pos_of_isData valid step.isData⟩
      · exact step.above_live valid deep
    · rw [step.logged, logged]
      simp
    · intro x
      have parents : x ∈ parentOf (view sb ip₁ s₁) n ↔
          n.2 ≠ [] ∧ x = (view sb ip₂ s₂).addr (above n) := by
        rw [parentOf_eq]
        by_cases root : n.2 = []
        · simp [root]
        · rw [if_neg root, List.mem_singleton, step.above_old root (step.above_live valid root).1]
          simp [root]
      simp only [List.mem_append, List.mem_cons, List.not_mem_nil, or_false, members, parents,
        grown_append, grown_grow, modified_iff]
      constructor
      · rintro ((⟨m, old, rfl⟩ | ⟨m, old, rfl⟩) | (rfl | rfl) | ⟨deep, rfl⟩)
        · refine .inl ⟨m, .inl old, ?_⟩
          rw [kept m (mem_modified.mpr (.inl old))]
        · exact .inr ⟨m, .inl old, (kept m old).symm⟩
        · exact .inl ⟨n, .inr rfl, by rw [step.grafted.placed]⟩
        · exact .inr ⟨n, .inr (.inl rfl), step.grafted.placed.symm⟩
        · exact .inr ⟨above n, .inr (.inr ⟨deep, rfl⟩), rfl⟩
      · rintro (⟨m, old | rfl, rfl⟩ | ⟨m, old | rfl | ⟨deep, rfl⟩, rfl⟩)
        · refine .inl (.inl ⟨m, old, ?_⟩)
          rw [kept m (mem_modified.mpr (.inl old))]
        · exact .inr (.inl (.inl (by rw [step.grafted.placed])))
        · exact .inl (.inr ⟨m, old, kept m old⟩)
        · exact .inr (.inl (.inr step.grafted.placed))
        · exact .inr (.inr ⟨deep, rfl⟩)
  | @data es ip₁ s₁ n block before isLeaf liveN ih =>
    obtain ⟨live, l, logged, members⟩ := ih
    have held₁ := (before.kept valid held).held
    have kept : ∀ m, shape.IsNode m →
        (view sb ip₁ (logWrite s₁ ((view sb ip₁ s₁).addr n) block)).addr m =
          (view sb ip₁ s₁).addr m :=
      fun m node => overwrite_addr valid held₁ isLeaf liveN block node
    have modified_iff : ∀ m, m ∈ modified (es ++ [.data n]) ↔ m ∈ modified es ∨ m = n := by
      intro m
      simp only [mem_modified, grown_append, written_append, grown_data, written_data,
        List.mem_append, List.mem_singleton, List.append_nil, or_assoc]
    refine ⟨?_, l ++ [(view sb ip₁ s₁).addr n], ?_, ?_⟩
    · intro m member
      rcases (modified_iff m).mp member with old | rfl
      · rw [kept m (live m old).1]
        exact live m old
      · rw [kept m isLeaf.1]
        exact ⟨isLeaf.1, liveN⟩
    · simp [logWrite, logged]
    · intro x
      simp only [List.mem_append, List.mem_singleton, members, grown_append, grown_data,
        List.append_nil, modified_iff]
      constructor
      · rintro ((⟨m, old, rfl⟩ | ⟨m, old, rfl⟩) | rfl)
        · refine .inl ⟨m, old, ?_⟩
          rw [kept m (live m (mem_modified.mpr (.inl old))).1]
        · exact .inr ⟨m, .inl old, (kept m (live m old).1).symm⟩
        · exact .inr ⟨n, .inr rfl, (kept n isLeaf.1).symm⟩
      · rintro (⟨m, old, rfl⟩ | ⟨m, old | rfl, rfl⟩)
        · refine .inl (.inl ⟨m, old, ?_⟩)
          rw [kept m (live m (mem_modified.mpr (.inl old))).1]
        · exact .inl (.inr ⟨m, old, kept m (live m old).1⟩)
        · exact .inr (kept m isLeaf.1)

/-! ### Which blocks are taken -/

/-- The `k` lowest elements of a set. -/
def lowest (k : Nat) (free : Finset Nat) : Finset Nat :=
  free.filter fun b => (free.filter (· < b)).card < k

/-- A subset below everything else of `free` consists of its lowest elements. -/
theorem eq_lowest {free part : Finset Nat} (subset : part ⊆ free)
    (below : ∀ b ∈ part, ∀ c ∈ free, c ∉ part → b < c) : part = lowest part.card free := by
  ext b
  simp only [lowest, Finset.mem_filter]
  constructor
  · intro member
    refine ⟨subset member, ?_⟩
    have inside : free.filter (· < b) ⊆ part.erase b := by
      intro c h
      obtain ⟨isFree, small⟩ := Finset.mem_filter.mp h
      refine Finset.mem_erase.mpr ⟨by omega, ?_⟩
      by_contra outside
      have := below b member c isFree outside
      omega
    calc (free.filter (· < b)).card ≤ (part.erase b).card := Finset.card_le_card inside
      _ < part.card := Finset.card_erase_lt_of_mem member
  · rintro ⟨isFree, few⟩
    by_contra outside
    have inside : part ⊆ free.filter (· < b) := by
      intro c h
      exact Finset.mem_filter.mpr ⟨subset h, below c h b isFree outside⟩
    have := Finset.card_le_card inside
    omega

theorem Ran.taken (valid : sb.Valid) (held : Held sb ip s) (ran : Ran sb ip s es ip' s') :
    (grown es).toFinset.image (view sb ip' s').addr =
      lowest (grown es).length (freeBlocks sb s.disk) := by
  have grownLive := fun {m} (h : m ∈ grown es) => ran.grown_spec valid held h
  have held' := (ran.kept valid held).held
  -- by induction: the free blocks left are those above the ones taken
  have facts : (grown es).toFinset.image (view sb ip' s').addr ⊆ freeBlocks sb s.disk ∧
      freeBlocks sb s'.disk =
        freeBlocks sb s.disk \ (grown es).toFinset.image (view sb ip' s').addr ∧
      ∀ b ∈ (grown es).toFinset.image (view sb ip' s').addr,
        ∀ c ∈ freeBlocks sb s'.disk, b < c := by
    clear grownLive held'
    induction ran with
    | nil => simp
    | @grow es ip₁ ip₂ s₁ s₂ n b before step ih =>
      obtain ⟨subset, rest, below⟩ := ih
      have image : (grown (es ++ [.grow n b])).toFinset.image (view sb ip₂ s₂).addr =
          insert b ((grown es).toFinset.image (view sb ip₁ s₁).addr) := by
        ext c
        simp only [grown_append, grown_grow, List.toFinset_append, Finset.mem_image,
          Finset.mem_union, List.mem_toFinset, List.mem_singleton, Finset.mem_insert]
        constructor
        · rintro ⟨m, old | rfl, rfl⟩
          · obtain ⟨node, _, live⟩ := before.grown_spec valid held old
            exact .inr ⟨m, old, (step.grafted.addr_of_live node live).symm⟩
          · exact .inl step.grafted.placed
        · rintro (rfl | ⟨m, old, rfl⟩)
          · exact ⟨n, .inr rfl, step.grafted.placed⟩
          · obtain ⟨node, _, live⟩ := before.grown_spec valid held old
            exact ⟨m, .inl old, step.grafted.addr_of_live node live⟩
      have taken := step.mem_freeBlocks
      rw [image, step.freeBlocks_eq]
      refine ⟨?_, ?_, ?_⟩
      · rw [Finset.insert_subset_iff]
        refine ⟨?_, subset⟩
        rw [rest] at taken
        exact (Finset.mem_sdiff.mp taken).1
      · rw [rest, Finset.sdiff_insert]
      · intro c member d left
        obtain ⟨ne, isFree⟩ := Finset.mem_erase.mp left
        rcases Finset.mem_insert.mp member with rfl | old
        · by_contra low
          have small : d < c := by omega
          have clear := (Finset.mem_filter.mp isFree).2
          rw [step.lowest d small] at clear
          cases clear
        · exact below c old d isFree
    | @data es ip₁ s₁ n block before isLeaf live ih =>
      have held₁ := (before.kept valid held).held
      have image : (grown (es ++ [.data n])).toFinset.image
          (view sb ip₁ (logWrite s₁ ((view sb ip₁ s₁).addr n) block)).addr =
          (grown es).toFinset.image (view sb ip₁ s₁).addr := by
        rw [grown_append, grown_data, List.append_nil]
        apply Finset.image_congr
        intro m member
        have old := List.mem_toFinset.mp (Finset.mem_coe.mp member)
        exact overwrite_addr valid held₁ isLeaf live block (before.grown_spec valid held old).1
      rw [image, freeBlocks_overwrite valid held₁ isLeaf live block]
      exact ih
  obtain ⟨subset, rest, below⟩ := facts
  have card : ((grown es).toFinset.image (view sb ip' s').addr).card = (grown es).length := by
    rw [Finset.card_image_of_injOn, List.toFinset_card_of_nodup (ran.grown_nodup valid held)]
    intro m hm k hk same
    obtain ⟨nodeM, _, liveM⟩ := grownLive (List.mem_toFinset.mp (Finset.mem_coe.mp hm))
    obtain ⟨nodeK, _, _⟩ := grownLive (List.mem_toFinset.mp (Finset.mem_coe.mp hk))
    exact held'.separated m k nodeM nodeK liveM same
  rw [← card]
  apply eq_lowest subset
  intro b member c isFree outside
  apply below b member c
  rw [rest]
  exact Finset.mem_sdiff.mpr ⟨isFree, outside⟩

/-! ### Counting -/

/-- The distinct block numbers passed to `log_write` between two states. -/
def passed (s s' : State) : Finset Nat := (s'.logged.drop s.logged.length).toFinset

/-- The number of distinct blocks logged by a sequence of steps and an optional `iupdate`:
modified blocks, bitmap blocks and the inode's block lie in different areas. -/
theorem Ran.card_passed (valid : sb.Valid) (held : Held sb ip s) (ran : Ran sb ip s es ip' s')
    (grew : Bool) {t : State}
    (final : t.logged = s'.logged ++ if grew then [sb.IBLOCK ip.inum] else []) :
    (passed s t).card = (modified es).card +
      ((lowest (grown es).length (freeBlocks sb s.disk)).image sb.BBLOCK).card +
      if grew then 1 else 0 := by
  obtain ⟨live, l, logged, members⟩ := ran.logged valid held
  have held' := (ran.kept valid held).held
  have isData : ∀ n ∈ modified es, sb.IsData ((view sb ip' s').addr n) :=
    fun n h => held'.inData (live n h).1 (live n h).2
  have split : passed s t = (modified es).image (view sb ip' s').addr ∪
      ((lowest (grown es).length (freeBlocks sb s.disk)).image sb.BBLOCK ∪
        if grew then {sb.IBLOCK ip.inum} else ∅) := by
    rw [← ran.taken valid held]
    ext x
    rw [passed, final, logged, List.append_assoc, List.drop_left]
    simp only [List.mem_toFinset, List.mem_append, members, Finset.mem_union, Finset.mem_image]
    cases grew
    · simp only [Bool.false_eq_true, if_false, List.not_mem_nil, or_false, Finset.notMem_empty]
      constructor
      · rintro (⟨n, h, rfl⟩ | ⟨n, h, rfl⟩)
        · exact .inr ⟨_, ⟨n, h, rfl⟩, rfl⟩
        · exact .inl ⟨n, h, rfl⟩
      · rintro (⟨n, h, rfl⟩ | ⟨_, ⟨n, h, rfl⟩, rfl⟩)
        · exact .inr ⟨n, h, rfl⟩
        · exact .inl ⟨n, h, rfl⟩
    · simp only [if_true, List.mem_singleton, Finset.mem_singleton]
      constructor
      · rintro ((⟨n, h, rfl⟩ | ⟨n, h, rfl⟩) | rfl)
        · exact .inr (.inl ⟨_, ⟨n, h, rfl⟩, rfl⟩)
        · exact .inl ⟨n, h, rfl⟩
        · exact .inr (.inr rfl)
      · rintro (⟨n, h, rfl⟩ | ⟨_, ⟨n, h, rfl⟩, rfl⟩ | rfl)
        · exact .inl (.inr ⟨n, h, rfl⟩)
        · exact .inl (.inl ⟨n, h, rfl⟩)
        · exact .inr rfl
  have bitmap : ∀ x ∈ (lowest (grown es).length (freeBlocks sb s.disk)).image sb.BBLOCK,
      sb.bmapstart ≤ x ∧ x < sb.nmeta := by
    intro x member
    obtain ⟨b, low, rfl⟩ := Finset.mem_image.mp member
    have isFree := (Finset.mem_filter.mp low).1
    exact valid.bblock_bounds (Finset.mem_range.mp (Finset.mem_filter.mp isFree).1)
  have inode := valid.iblock_bounds held.inum.2
  rw [split, Finset.card_union_of_disjoint, Finset.card_union_of_disjoint,
    Finset.card_image_of_injOn]
  · cases grew <;> simp [Nat.add_assoc]
  · intro n hn m hm same
    exact held'.separated n m (live n hn).1 (live m hm).1 (live n hn).2 same
  · rw [Finset.disjoint_left]
    intro x isBitmap isInode
    have := bitmap x isBitmap
    cases grew
    · simp at isInode
    · simp only [if_true, Finset.mem_singleton] at isInode
      omega
  · rw [Finset.disjoint_left]
    intro x isBlock other
    obtain ⟨n, h, rfl⟩ := Finset.mem_image.mp isBlock
    have high := (isData n h).1
    rcases Finset.mem_union.mp other with isBitmap | isInode
    · have := bitmap _ isBitmap
      omega
    · have := valid.bmapstart_lt
      cases grew
      · simp at isInode
      · simp only [if_true, Finset.mem_singleton] at isInode
        omega

end Xv6.Fs
