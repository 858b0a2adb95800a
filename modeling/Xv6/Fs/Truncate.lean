import Xv6.Fs.Image

/-!
# Releasing blocks

`itrunc` frees the tree below each entry of `addrs`, children before parents. Each of the
thirteen rounds keeps the trees safe and free of leaks: the blocks of one tree lose their
mark and their positions at once.
-/

namespace Xv6.Fs

open Bytes Forest

variable {sb : Superblock} {ip ip' : Inode} {s s' t : State}

/-- The bits of `bs` were cleared and nothing else changed. -/
structure Freed (sb : Superblock) (s : State) (bs : List Nat) (s' : State) : Prop where
  superblock : s'.disk 1 = s.disk 1
  inodes : ∀ i < sb.ninodes, dinode sb s'.disk i = dinode sb s.disk i
  bits : ∀ c < sb.size, marked sb s'.disk c = (marked sb s.disk c && !decide (c ∈ bs))
  data : ∀ a, sb.nmeta ≤ a → s'.disk a = s.disk a

theorem Freed.nil : Freed sb s [] s :=
  ⟨rfl, fun _ _ => rfl, fun _ _ => by simp, fun _ _ => rfl⟩

theorem Freed.append {bs cs : List Nat} (first : Freed sb s bs t) (second : Freed sb t cs s') :
    Freed sb s (bs ++ cs) s' where
  superblock := second.superblock.trans first.superblock
  inodes i hi := (second.inodes i hi).trans (first.inodes i hi)
  bits c hc := by
    rw [second.bits c hc, first.bits c hc]
    simp [Bool.and_assoc]
  data a high := (second.data a high).trans (first.data a high)

theorem Freed.readsb_eq {bs : List Nat} (freed : Freed sb s bs t) (super : readsb s.disk = sb) :
    readsb t.disk = sb := by
  rw [← super, readsb, readsb, freed.superblock]

/-- The blocks `bs` can be freed one after the other. -/
structure Freeable (sb : Superblock) (s : State) (bs : List Nat) : Prop where
  nodup : bs.Nodup
  isData : ∀ b ∈ bs, sb.IsData b
  used : ∀ b ∈ bs, marked sb s.disk b = true

theorem Freeable.left {bs cs : List Nat} (able : Freeable sb s (bs ++ cs)) : Freeable sb s bs :=
  ⟨(List.nodup_append.mp able.nodup).1, fun b h => able.isData b (List.mem_append_left _ h),
    fun b h => able.used b (List.mem_append_left _ h)⟩

theorem Freeable.right {bs cs : List Nat} (able : Freeable sb s (bs ++ cs))
    (freed : Freed sb s bs t) : Freeable sb t cs := by
  obtain ⟨_, nodup, apart⟩ := List.nodup_append.mp able.nodup
  refine ⟨nodup, fun b h => able.isData b (List.mem_append_right _ h), ?_⟩
  intro b member
  have outside : b ∉ bs := fun h => apart b h b member rfl
  rw [freed.bits b (able.isData b (List.mem_append_right _ member)).2,
    able.used b (List.mem_append_right _ member)]
  simp [outside]

theorem bfree_freed (valid : sb.Valid) (super : readsb s.disk = sb) {b : Nat}
    (able : Freeable sb s [b]) : ∃ s', bfree b s = .ok s' ∧ Freed sb s [b] s' := by
  have isData := able.isData b (by simp)
  obtain ⟨s', ran, change⟩ := bfree_spec valid super isData.2 (able.used b (by simp))
  refine ⟨s', ran, change.superblock, change.inodes, ?_, change.data⟩
  intro c hc
  rw [change.bits c hc]
  by_cases same : c = b <;> simp [same]

/-- The entries of index blocks. -/
def entry (disk : Nat → Block) (a j : Nat) : Nat := (disk a).word j

/-- Freeing a tree clears the bits of its listing. The listing is that of a disk `d` with the
same data blocks, so that it stays put while the bitmap changes. -/
theorem freeTree_ok (valid : sb.Valid) (d : Nat → Block) (depth : Nat) :
    ∀ {a : Nat} {s : State}, a ≠ 0 → readsb s.disk = sb →
      (∀ c, sb.nmeta ≤ c → s.disk c = d c) →
      Freeable sb s (subtree (entry d) NINDIRECT depth a) →
      ∃ s', freeTree depth a s = .ok s' ∧
        Freed sb s (subtree (entry d) NINDIRECT depth a) s' := by
  induction depth with
  | zero =>
    intro a s live super _ able
    rw [subtree_depth_zero _ _ live] at able ⊢
    exact bfree_freed valid super able
  | succ depth ih =>
    intro a s live super same able
    rw [subtree_succ _ _ _ live] at able ⊢
    have isData : sb.IsData a := able.isData a (by simp)
    -- the loop over the entries, for any part of them
    have loop : ∀ (js : List Nat) (s : State), readsb s.disk = sb →
        (∀ c, sb.nmeta ≤ c → s.disk c = d c) →
        Freeable sb s (js.flatMap fun j => subtree (entry d) NINDIRECT depth (entry d a j)) →
        ∃ s', js.foldlM (fun s j => if (s.disk a).word j ≠ 0
            then freeTree depth ((s.disk a).word j) s else .ok s) s = .ok s' ∧
          Freed sb s (js.flatMap fun j => subtree (entry d) NINDIRECT depth (entry d a j)) s' := by
      intro js
      induction js with
      | nil =>
        intro s _ _ _
        exact ⟨s, rfl, .nil⟩
      | cons j js ihJs =>
        intro s super same able
        rw [List.flatMap_cons] at able ⊢
        have word : (s.disk a).word j = entry d a j := by rw [same a isData.1, entry]
        have first : ∃ t, (if (s.disk a).word j ≠ 0 then freeTree depth ((s.disk a).word j) s
            else .ok s) = .ok t ∧
            Freed sb s (subtree (entry d) NINDIRECT depth (entry d a j)) t := by
          rw [word]
          by_cases empty : entry d a j = 0
          · rw [if_neg (not_not.mpr empty), empty, subtree_of_zero]
            exact ⟨s, rfl, .nil⟩
          · rw [if_pos empty]
            exact ih empty super same able.left
        obtain ⟨t, ran, freed⟩ := first
        obtain ⟨s', rest, freed'⟩ := ihJs t (freed.readsb_eq super)
          (fun c high => (freed.data c high).trans (same c high)) (able.right freed)
        refine ⟨s', ?_, freed.append freed'⟩
        rw [List.foldlM_cons, ran]
        exact rest
    obtain ⟨t, ran, freed⟩ := loop (List.range NINDIRECT) s super same able.left
    obtain ⟨s', last, freed'⟩ := bfree_freed valid (freed.readsb_eq super) (able.right freed)
    refine ⟨s', ?_, freed.append freed'⟩
    rw [freeTree, ran]
    exact last

/-! ### `itrunc` -/

/-- Trees of the held inode were cut; the other inodes have theirs. -/
structure Pruned (sb : Superblock) (ip : Inode) (s : State) (ip' : Inode) (s' : State) : Prop where
  held : Held sb ip' s'
  inode : ip' = { ip with addrs := ip'.addrs }
  inodes : ∀ i < sb.ninodes, dinode sb s'.disk i = dinode sb s.disk i
  others : ∀ n, shape.IsNode n → n.1.1 ≠ ip.inum → (view sb ip' s').addr n = (view sb ip s).addr n
  leakFree : LeakFree sb (table sb ip s.disk) s.disk → LeakFree sb (table sb ip' s'.disk) s'.disk
  data : ∀ a, sb.nmeta ≤ a → s'.disk a = s.disk a

theorem Pruned.refl (held : Held sb ip s) : Pruned sb ip s ip s :=
  ⟨held, rfl, fun _ _ => rfl, fun _ _ _ => rfl, id, fun _ _ => rfl⟩

theorem Pruned.trans {ip₁ : Inode} {s₁ : State} (first : Pruned sb ip s ip₁ s₁)
    (second : Pruned sb ip₁ s₁ ip' s') : Pruned sb ip s ip' s' := by
  have inum : ip₁.inum = ip.inum := by rw [first.inode]
  refine ⟨second.held, ?_, fun i hi => (second.inodes i hi).trans (first.inodes i hi), ?_,
    second.leakFree ∘ first.leakFree, fun a high => (second.data a high).trans (first.data a high)⟩
  · rw [second.inode, first.inode]
  · intro n node other
    rw [second.others n node (by rw [inum]; exact other), first.others n node other]

/-- Freeing the tree behind one entry of `addrs` and clearing the entry. -/
theorem freeTree_pruned (valid : sb.Valid) (held : Held sb ip s) {k : Fin (NDIRECT + 3)}
    (live : ip.addrs k ≠ 0) :
    ∃ s', freeTree (rootDepth k) (ip.addrs k) s = .ok s' ∧
      Pruned sb ip s { ip with addrs := Function.update ip.addrs k 0 } s' := by
  have root := held.root k
  have listed : subtree (view sb ip s).next shape.width (shape.depth (ip.inum, k))
      ((view sb ip s).root (ip.inum, k)) =
      subtree (entry s.disk) NINDIRECT (rootDepth k) (ip.addrs k) := by rw [root]; rfl
  have ownedOf : ∀ b ∈ subtree (entry s.disk) NINDIRECT (rootDepth k) (ip.addrs k),
      (view sb ip s).Owned shape b := by
    intro b member
    obtain ⟨⟨path, isPath, here⟩, nonzero⟩ := mem_subtree.mp member
    refine ⟨((ip.inum, k), path), isPath, ?_, nonzero⟩
    rw [Store.addr, root]
    exact here
  have able : Freeable sb s (subtree (entry s.disk) NINDIRECT (rootDepth k) (ip.addrs k)) := by
    refine ⟨?_, fun b h => held.safe.inData b (ownedOf b h),
      fun b h => held.safe.used b (ownedOf b h)⟩
    rw [← listed]
    exact nodup_subtree held.separated (ip.inum, k)
  obtain ⟨s', ran, freed⟩ := freeTree_ok valid s.disk (rootDepth k) live held.safe.superblock
    (fun _ _ => rfl) able
  have inum := held.inum
  have roots : ∀ q, (view sb { ip with addrs := Function.update ip.addrs k 0 } s').root q =
      if q = (ip.inum, k) then 0 else (view sb ip s).root q := by
    intro q
    by_cases here : q = (ip.inum, k)
    · subst here
      rw [if_pos rfl]
      by_cases used : InUse sb (table sb { ip with addrs := Function.update ip.addrs k 0 } s'.disk)
          ip.inum
      · simp only [view, trees, if_pos used]
        simp only [table, Function.update_self]
      · simp only [view, trees, if_neg used]
    · rw [if_neg here]
      refine view_root rfl freed.inodes q ?_
      intro own
      have other : q.2 ≠ k := fun h => here (Prod.ext own h)
      exact Function.update_of_ne other _ _
  have addr := fun n node => prune_addr (n := n) roots (fun a i owned => by
    change (s'.disk a).word i = (s.disk a).word i
    rw [freed.data a (held.safe.inData a owned).1]) node
  have owned := fun a => (prune_owned held.separated addr a)
  refine ⟨s', ran, ⟨held.inum, held.type, ?_, ?_, ?_, ?_, ?_, ?_⟩, rfl, freed.inodes, ?_, ?_, freed.data⟩
  · refine ⟨held.fits.size, ?_⟩
    intro j
    by_cases here : j = k
    · simp [here]
    · simp only [Function.update_of_ne here]
      exact held.fits.addrs j
  · exact freed.readsb_eq held.safe.superblock
  · intro b low
    have outside : b ∉ subtree (entry s.disk) NINDIRECT (rootDepth k) (ip.addrs k) := by
      intro member
      have := (able.isData b member).1
      omega
    rw [freed.bits b (by unfold Superblock.nmeta at low; omega), held.safe.reserved b low]
    simp [outside]
  · exact prune_separated held.separated addr
  · intro b h
    exact held.safe.inData b ((owned b).mp h).1
  · intro b h
    obtain ⟨old, kept⟩ := (owned b).mp h
    rw [listed] at kept
    rw [freed.bits b (held.safe.inData b old).2, held.safe.used b old]
    simp [kept]
  · intro n node other
    rw [addr n node, if_neg (fun h => other (congrArg Prod.fst h))]
  · intro leakFree b isData used
    rw [freed.bits b isData.2, Bool.and_eq_true] at used
    refine (owned b).mpr ⟨leakFree b isData used.1, ?_⟩
    rw [listed]
    simpa using used.2

/-- One round of `itrunc`: the blocks behind one entry of `addrs`. -/
def freeRound : Inode × State → Fin (NDIRECT + 3) → Except Panic (Inode × State)
  | (ip, s), k =>
    if ip.addrs k ≠ 0 then do
      let s ← freeTree (rootDepth k) (ip.addrs k) s
      .ok ({ ip with addrs := Function.update ip.addrs k 0 }, s)
    else .ok (ip, s)

/-- The rounds: each clears its own entry and keeps the cleared ones clear. -/
theorem freeRounds_ok (valid : sb.Valid) : ∀ (ks : List (Fin (NDIRECT + 3))) (ip : Inode) (s : State), Held sb ip s →
    ∃ ip' s', ks.foldlM freeRound (ip, s) = .ok (ip', s') ∧ Pruned sb ip s ip' s' ∧
      ∀ j, (j ∈ ks ∨ ip.addrs j = 0) → ip'.addrs j = 0 := by
  intro ks
  induction ks with
  | nil =>
    intro ip s held
    exact ⟨ip, s, rfl, .refl held, fun j h => h.resolve_left (by simp)⟩
  | cons k ks ih =>
    intro ip s held
    by_cases empty : ip.addrs k = 0
    · obtain ⟨ip', s', ran, pruned, cleared⟩ := ih ip s held
      refine ⟨ip', s', ?_, pruned, ?_⟩
      · rw [List.foldlM_cons]
        simp only [freeRound, empty, ne_eq, not_true_eq_false, if_false]
        exact ran
      · rintro j (member | clear)
        · rcases List.mem_cons.mp member with rfl | member
          · exact cleared _ (.inr empty)
          · exact cleared j (.inl member)
        · exact cleared j (.inr clear)
    · obtain ⟨t, freed, first⟩ := freeTree_pruned valid held empty
      obtain ⟨ip', s', ran, second, cleared⟩ := ih _ t first.held
      refine ⟨ip', s', ?_, first.trans second, ?_⟩
      · rw [List.foldlM_cons]
        simp only [freeRound, ne_eq, empty, not_false_eq_true, if_true, freed]
        exact ran
      · rintro j (member | clear)
        · rcases List.mem_cons.mp member with rfl | member
          · exact cleared _ (.inr (Function.update_self ..))
          · exact cleared j (.inl member)
        · apply cleared j
          right
          by_cases here : j = k
          · rw [here]
            exact Function.update_self ..
          · exact (Function.update_of_ne here _ _).trans clear

/-- `itrunc` on a held inode never panics. It leaves no address and size zero, in memory and
on disk. -/
theorem itrunc_ok (valid : sb.Valid) (held : Held sb ip s) :
    ∃ s', itrunc sb ip s = .ok ({ ip with addrs := fun _ => 0, size := 0 }, s') ∧
      Held sb { ip with addrs := fun _ => 0, size := 0 } s' ∧
      (∀ i < sb.ninodes, i ≠ ip.inum → dinode sb s'.disk i = dinode sb s.disk i) ∧
      (∀ n, shape.IsNode n → n.1.1 ≠ ip.inum →
        (view sb { ip with addrs := fun _ => 0, size := 0 } s').addr n = (view sb ip s).addr n) ∧
      (LeakFree sb (table sb ip s.disk) s.disk →
        LeakFree sb (table sb { ip with addrs := fun _ => 0, size := 0 } s'.disk) s'.disk) ∧
      ∀ a, sb.nmeta ≤ a → s'.disk a = s.disk a := by
  obtain ⟨ip₁, s₁, ran, pruned, cleared⟩ := freeRounds_ok valid (List.finRange (NDIRECT + 3)) ip s held
  have zero : ip₁.addrs = fun _ => 0 := funext fun j => cleared j (.inl (List.mem_finRange j))
  have inode : ({ ip₁ with size := 0 } : Inode) = { ip with addrs := fun _ => 0, size := 0 } := by
    rw [pruned.inode, zero]
  have inum : ip₁.inum = ip.inum := by rw [pruned.inode]
  have fits : ({ ip₁ with size := 0 } : Inode).Fits := ⟨by simp, pruned.held.fits.addrs⟩
  obtain ⟨safe, addr⟩ := iupdate_spec valid pruned.held { ip₁ with size := 0 } rfl fits fun _ => rfl
  have change := iupdate_change valid { ip₁ with size := 0 } pruned.held.inum.2 fits s₁
  refine ⟨iupdate sb { ip₁ with size := 0 } s₁, ?_, ?_, ?_, ?_, ?_,
    fun a high => (change.data a high).trans (pruned.data a high)⟩
  · rw [← inode]
    exact Steps.ok_bind ran
  · rw [← inode]
    exact ⟨pruned.held.inum, pruned.held.type, fits, safe⟩
  · intro i hi other
    rw [change.inodes i hi, if_neg (by rw [inum]; exact other), pruned.inodes i hi]
  · intro n node other
    rw [← inode, addr n node, pruned.others n node other]
  · intro leakFree
    rw [← inode]
    exact (pruned.leakFree leakFree).transfer change.bits addr

end Xv6.Fs
