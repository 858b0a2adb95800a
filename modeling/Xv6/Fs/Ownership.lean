import Xv6.Fs.Disk
import Xv6.Fs.Truncate

/-!
# Block ownership

Complete operations keep the image in order: every data block that is marked stands at exactly one position
of one allocated inode's tree, and every block at such a position is marked.
-/

namespace Xv6.Fs

open Bytes Forest

variable {sb : Superblock} {ip ip' : Inode} {s s' : State} {fs fs' : FileSystem} {k : Fin NINODE}

/-! ### Images under a change of one inode -/

/-- Only inode `i` changed: the other files still have all their blocks. -/
theorem Image.change {d e : Nat → Block} {i : Nat} (image : Image sb (dinode sb d) d)
    (safe : Safe sb (dinode sb e) e)
    (inodes : ∀ j < sb.ninodes, j ≠ i → dinode sb e j = dinode sb d j)
    (addr : ∀ n, shape.IsNode n → n.1.1 ≠ i → (trees sb (dinode sb d) d).addr n ≠ 0 →
      (trees sb (dinode sb e) e).addr n = (trees sb (dinode sb d) d).addr n)
    (own : InUse sb (dinode sb e) i → (dinode sb e i).type ≠ T_DEV →
      Filled (trees sb (dinode sb e) e) i (dinode sb e i)) :
    Image sb (dinode sb e) e := by
  refine ⟨safe, ?_⟩
  intro j used notDev
  by_cases here : j = i
  · subst here
    exact own used notDev
  · have same := inodes j used.2.1 here
    have filled := image.filled j ⟨used.1, used.2.1, same ▸ used.2.2⟩ (same ▸ notDev)
    rw [same]
    refine ⟨filled.bounded, ?_⟩
    intro p inside
    have live := filled.live p inside
    have small : p / BSIZE < MAXFILE := div_BSIZE_lt (by have := filled.bounded; omega)
    rw [addr (leaf j (p / BSIZE)) (leaf_isNode j small) here live]
    exact live

theorem Image.held (image : Image sb (dinode sb s.disk) s.disk)
    (inum : 1 ≤ ip.inum ∧ ip.inum < sb.ninodes) (type : ip.type ≠ 0)
    (stored : dinode sb s.disk ip.inum = ip.toDinode) :
    Held sb ip s ∧ view sb ip s = trees sb (dinode sb s.disk) s.disk := by
  refine ⟨⟨inum, type, ?_, ?_⟩, ?_⟩
  · rw [← stored]
    exact getDinode_fits _ _
  · rw [table_eq _ stored]
    exact image.toSafe
  · rw [view, table_eq _ stored]

/-! ### The inode cache -/

/-- The image on disk and an inode cache that agrees with it. -/
structure Ordered (sb : Superblock) (fs : FileSystem) : Prop where
  image : Image sb (dinode sb fs.disk) fs.disk
  leakFree : LeakFree sb (dinode sb fs.disk) fs.disk
  inum : ∀ k, 0 < (fs.icache k).ref → 1 ≤ (fs.icache k).inum ∧ (fs.icache k).inum < sb.ninodes
  unique : ∀ k l, 0 < (fs.icache k).ref → 0 < (fs.icache l).ref →
    (fs.icache k).inum = (fs.icache l).inum → k = l
  agrees : ∀ k, 0 < (fs.icache k).ref → (fs.icache k).valid = true →
    dinode sb fs.disk (fs.icache k).inum = (fs.icache k).toDinode ∧ (fs.icache k).type ≠ 0

@[simp] theorem store_disk (fs : FileSystem) (k : Fin NINODE) (ip : Inode) (s : State) :
    (fs.store k ip s).disk = s.disk := rfl

@[simp] theorem store_icache_self (fs : FileSystem) (k : Fin NINODE) (ip : Inode) (s : State) :
    (fs.store k ip s).icache k = ip :=
  Function.update_self ..

theorem store_self (fs : FileSystem) (k : Fin NINODE) : fs.store k (fs.icache k) fs.toState = fs := by
  rw [FileSystem.store, Function.update_eq_self]

theorem store_icache_ne (fs : FileSystem) {k l : Fin NINODE} (other : l ≠ k) (ip : Inode)
    (s : State) : (fs.store k ip s).icache l = fs.icache l :=
  Function.update_of_ne other _ _

/-- An operation on the entry `k`: it may change its own inode, on disk and in the cache. -/
theorem Ordered.store (ordered : Ordered sb fs) (image : Image sb (dinode sb s'.disk) s'.disk)
    (leakFree : LeakFree sb (dinode sb s'.disk) s'.disk)
    (inodes : ∀ i < sb.ninodes, i ≠ (fs.icache k).inum → dinode sb s'.disk i = dinode sb fs.disk i)
    (busy : 0 < (fs.icache k).ref) (same : ip'.inum = (fs.icache k).inum)
    (own : 0 < ip'.ref → ip'.valid = true →
      dinode sb s'.disk ip'.inum = ip'.toDinode ∧ ip'.type ≠ 0) :
    Ordered sb (fs.store k ip' s') := by
  have other : ∀ l, l ≠ k → 0 < (fs.icache l).ref → (fs.icache l).inum ≠ (fs.icache k).inum :=
    fun l ne used equal => ne (ordered.unique l k used busy equal)
  refine ⟨image, leakFree, ?_, ?_, ?_⟩
  · intro l used
    by_cases here : l = k
    · subst here
      rw [store_icache_self, same]
      exact ordered.inum l busy
    · rw [store_icache_ne fs here] at used ⊢
      exact ordered.inum l used
  · intro l m usedL usedM equal
    by_cases hereL : l = k <;> by_cases hereM : m = k
    · rw [hereL, hereM]
    · subst hereL
      rw [store_icache_ne fs hereM] at usedM equal
      rw [store_icache_self, same] at equal
      exact absurd equal.symm (other m hereM usedM)
    · subst hereM
      rw [store_icache_ne fs hereL] at usedL equal
      rw [store_icache_self, same] at equal
      exact absurd equal (other l hereL usedL)
    · rw [store_icache_ne fs hereL] at usedL equal
      rw [store_icache_ne fs hereM] at usedM equal
      exact ordered.unique l m usedL usedM equal
  · intro l used valid
    by_cases here : l = k
    · subst here
      rw [store_icache_self] at used valid ⊢
      exact own used valid
    · rw [store_icache_ne fs here] at used valid ⊢
      obtain ⟨stored, type⟩ := ordered.agrees l used valid
      refine ⟨?_, type⟩
      rw [store_disk, inodes _ (ordered.inum l used).2 (other l here used), stored]

theorem Ordered.recycle (ordered : Ordered sb fs) (idle : ¬0 < (fs.icache k).ref)
    (fresh : 0 < ip'.ref → (1 ≤ ip'.inum ∧ ip'.inum < sb.ninodes) ∧ ip'.valid = false ∧
      ∀ l, 0 < (fs.icache l).ref → (fs.icache l).inum ≠ ip'.inum) :
    Ordered sb (fs.store k ip' fs.toState) := by
  have referenced : ∀ l, 0 < ((fs.store k ip' fs.toState).icache l).ref → l ≠ k →
      0 < (fs.icache l).ref := by
    intro l used ne
    rwa [store_icache_ne fs ne] at used
  refine ⟨ordered.image, ordered.leakFree, ?_, ?_, ?_⟩
  · intro l used
    by_cases here : l = k
    · subst here
      rw [store_icache_self] at used ⊢
      exact (fresh used).1
    · rw [store_icache_ne fs here]
      exact ordered.inum l (referenced l used here)
  · intro l m usedL usedM equal
    by_cases hereL : l = k <;> by_cases hereM : m = k
    · rw [hereL, hereM]
    · subst hereL
      have used := referenced m usedM hereM
      rw [store_icache_self] at usedL equal
      rw [store_icache_ne fs hereM] at equal
      exact absurd equal.symm ((fresh usedL).2.2 m used)
    · subst hereM
      have used := referenced l usedL hereL
      rw [store_icache_self] at usedM equal
      rw [store_icache_ne fs hereL] at equal
      exact absurd equal ((fresh usedM).2.2 l used)
    · have usedL' := referenced l usedL hereL
      have usedM' := referenced m usedM hereM
      rw [store_icache_ne fs hereL, store_icache_ne fs hereM] at equal
      exact ordered.unique l m usedL' usedM' equal
  · intro l used valid
    by_cases here : l = k
    · subst here
      rw [store_icache_self] at used valid
      rw [(fresh used).2.1] at valid
      cases valid
    · have used' := referenced l used here
      rw [store_icache_ne fs here] at valid ⊢
      exact ordered.agrees l used' valid

theorem iget_ok (ordered : Ordered sb fs) {inum : Nat} (inside : 1 ≤ inum ∧ inum < sb.ninodes)
    (ran : iget inum fs = .ok (k, fs')) :
    Ordered sb fs' ∧ fs'.toState = fs.toState ∧ 0 < (fs'.icache k).ref ∧
      (fs'.icache k).inum = inum := by
  unfold iget at ran
  split at ran
  next l found =>
    cases ran
    have test := List.find?_some found
    simp only [Bool.and_eq_true, decide_eq_true_eq, beq_iff_eq] at test
    obtain ⟨busy, here⟩ := test
    refine ⟨?_, rfl, ?_, ?_⟩
    · refine ordered.store ordered.image ordered.leakFree (fun _ _ _ => rfl) busy rfl ?_
      intro _ valid
      exact ordered.agrees k busy valid
    · rw [store_icache_self]
      show (0 : Int) < (fs.icache k).ref + 1
      omega
    · rw [store_icache_self]
      exact here
  next missing =>
    split at ran
    · cases ran
    next l found =>
      cases ran
      have test := List.find?_some found
      simp only [beq_iff_eq] at test
      refine ⟨?_, rfl, ?_, ?_⟩
      · refine ordered.recycle (by omega) ?_
        intro _
        refine ⟨inside, rfl, ?_⟩
        intro m used equal
        have miss := List.find?_eq_none.mp missing m (List.mem_finRange m)
        simp only [Bool.and_eq_true, decide_eq_true_eq, beq_iff_eq] at miss
        exact miss ⟨used, equal⟩
      · rw [store_icache_self]
        exact Int.one_pos
      · rw [store_icache_self]

/-- A locked entry is referenced, valid and agrees with the disk. -/
structure Locked (sb : Superblock) (fs : FileSystem) (k : Fin NINODE) : Prop
    extends Ordered sb fs where
  busy : 0 < (fs.icache k).ref
  stored : dinode sb fs.disk (fs.icache k).inum = (fs.icache k).toDinode
  type : (fs.icache k).type ≠ 0
  valid : (fs.icache k).valid = true

theorem ilock_ok (ordered : Ordered sb fs) (ran : ilock sb k fs = .ok fs') :
    Locked sb fs' k ∧ (fs'.icache k).inum = (fs.icache k).inum := by
  unfold ilock at ran
  dsimp only at ran
  split at ran
  · cases ran
  next referenced =>
    have busy : 0 < (fs.icache k).ref := by omega
    split at ran
    next valid =>
      cases ran
      obtain ⟨stored, type⟩ := ordered.agrees k busy valid
      exact ⟨⟨ordered, busy, stored, type, valid⟩, rfl⟩
    · split at ran
      · cases ran
      next typed =>
        cases ran
        refine ⟨⟨?_, ?_, ?_, ?_, ?_⟩, ?_⟩
        · exact ordered.store ordered.image ordered.leakFree (fun _ _ _ => rfl) busy rfl fun _ _ => ⟨rfl, typed⟩
        · rw [store_icache_self]
          exact busy
        · rw [store_icache_self, store_disk]
        · rw [store_icache_self]
          exact typed
        · rw [store_icache_self]
        · rw [store_icache_self]

/-- The cache entries belong to the same inodes and have the same references. -/
def SameEntries (fs fs' : FileSystem) : Prop :=
  ∀ l, (fs'.icache l).inum = (fs.icache l).inum ∧ (fs'.icache l).ref = (fs.icache l).ref

/-- `ilock` of a referenced inode that is allocated reads it from the disk if necessary and does nothing else. -/
theorem ilock_typed (ordered : Ordered sb fs) (busy : 0 < (fs.icache k).ref)
    (typed : (dinode sb fs.disk (fs.icache k).inum).type ≠ 0) :
    ∃ fs', ilock sb k fs = .ok fs' ∧ Locked sb fs' k ∧ fs'.toState = fs.toState ∧ SameEntries fs fs' := by
  have ran : ∃ fs', ilock sb k fs = .ok fs' ∧ fs'.toState = fs.toState ∧ SameEntries fs fs' := by
    unfold ilock
    dsimp only
    rw [if_neg (by omega)]
    by_cases valid : (fs.icache k).valid = true
    · rw [if_pos valid]
      exact ⟨fs, rfl, rfl, fun _ => ⟨rfl, rfl⟩⟩
    · rw [if_neg valid, if_neg typed]
      refine ⟨_, rfl, rfl, fun l => ?_⟩
      by_cases here : l = k
      · subst here
        rw [store_icache_self]
        exact ⟨rfl, rfl⟩
      · rw [store_icache_ne _ here]
        exact ⟨rfl, rfl⟩
  obtain ⟨fs', ran, state, entries⟩ := ran
  exact ⟨fs', ran, (ilock_ok ordered ran).1, state, entries⟩

theorem ilock_error {e : Panic} (ran : ilock sb k fs = .error e) : e = .ilock ∨ e = .ilockNoType := by
  unfold ilock at ran
  dsimp only at ran
  split at ran
  · cases ran
    exact .inl rfl
  · split at ran
    · cases ran
    · split at ran
      · cases ran
        exact .inr rfl
      · cases ran

theorem iget_error {e : Panic} {inum : Nat} (ran : iget inum fs = .error e) : e = .igetNoInodes := by
  unfold iget at ran
  split at ran
  · cases ran
  · split at ran
    · cases ran
      rfl
    · cases ran

/-! ### Operations on a locked inode -/

theorem Locked.held (locked : Locked sb fs k) :
    Held sb (fs.icache k) fs.toState ∧
      view sb (fs.icache k) fs.toState = trees sb (dinode sb fs.disk) fs.disk :=
  locked.image.held (s := fs.toState) (locked.inum k locked.busy) locked.type locked.stored

theorem Locked.filled (locked : Locked sb fs k) (notDev : (fs.icache k).type ≠ T_DEV) :
    Filled (view sb (fs.icache k) fs.toState) (fs.icache k).inum (fs.icache k).toDinode := by
  have inum := locked.inum k locked.busy
  have filled := locked.image.filled (fs.icache k).inum
    ⟨inum.1, inum.2, by rw [locked.stored]; exact locked.type⟩ (by rw [locked.stored]; exact notDev)
  rw [locked.held.2]
  rw [locked.stored] at filled
  exact filled

/-- `iupdate` of a changed inode whose roots are the old ones. -/
theorem Locked.stored_back (valid : sb.Valid) (locked : Locked sb fs k)
    (same : ip'.inum = (fs.icache k).inum) (type : ip'.type = (fs.icache k).type)
    (size : ip'.size = (fs.icache k).size) (addrs : ip'.addrs = (fs.icache k).addrs) :
    InodeChange sb fs.disk (iupdate sb ip' fs.toState).disk (fs.icache k).inum ip'.toDinode ∧
      Safe sb (dinode sb (iupdate sb ip' fs.toState).disk) (iupdate sb ip' fs.toState).disk ∧
      ∀ n, shape.IsNode n → (trees sb (dinode sb (iupdate sb ip' fs.toState).disk) (iupdate sb ip' fs.toState).disk).addr n =
        (trees sb (dinode sb fs.disk) fs.disk).addr n := by
  obtain ⟨held, view_eq⟩ := locked.held
  have fits : ip'.Fits := ⟨size ▸ held.fits.size, addrs ▸ held.fits.addrs⟩
  have change := iupdate_change valid ip' (same ▸ held.inum.2) fits fs.toState
  obtain ⟨safe, addr⟩ := iupdate_spec valid held ip' same fits fun j => by rw [type, addrs]
  have stored : dinode sb (iupdate sb ip' fs.toState).disk ip'.inum = ip'.toDinode := by
    rw [change.inodes _ (same ▸ held.inum.2), if_pos rfl]
  have eqView : view sb ip' (iupdate sb ip' fs.toState) =
      trees sb (dinode sb (iupdate sb ip' fs.toState).disk) (iupdate sb ip' fs.toState).disk := by
    rw [view, table_eq _ stored]
  rw [view_eq, eqView] at addr
  rw [table_eq _ stored] at safe
  exact ⟨same ▸ change, safe, addr⟩

/-- Storing back a changed inode whose roots are the old ones, after `iupdate`. -/
theorem Locked.update (valid : sb.Valid) (locked : Locked sb fs k)
    (same : ip'.inum = (fs.icache k).inum) (type : ip'.type = (fs.icache k).type)
    (size : ip'.size = (fs.icache k).size) (addrs : ip'.addrs = (fs.icache k).addrs) :
    Ordered sb (fs.store k ip' (iupdate sb ip' fs.toState)) := by
  obtain ⟨change, safe, addr⟩ := locked.stored_back valid same type size addrs
  have view_eq := locked.held.2
  have stored : dinode sb (iupdate sb ip' fs.toState).disk (fs.icache k).inum = ip'.toDinode := by
    rw [change.inodes _ locked.held.1.inum.2, if_pos rfl]
  have inodes : ∀ i < sb.ninodes, i ≠ (fs.icache k).inum →
      dinode sb (iupdate sb ip' fs.toState).disk i = dinode sb fs.disk i := by
    intro i hi other
    rw [change.inodes i hi, if_neg other]
  refine locked.store (locked.image.change safe inodes (fun n node _ _ => addr n node) ?_)
    (locked.leakFree.transfer change.bits addr) inodes locked.busy same
    fun _ _ => ⟨by rw [same]; exact stored, type ▸ locked.type⟩
  intro _ notDev
  rw [stored] at notDev ⊢
  rw [type] at notDev
  have filled := locked.filled notDev
  rw [view_eq] at filled
  refine ⟨size ▸ filled.bounded, ?_⟩
  intro p inside
  rw [size] at inside
  have small : p / BSIZE < MAXFILE := div_BSIZE_lt (by have := filled.bounded; omega)
  rw [addr _ (leaf_isNode _ small)]
  exact filled.live p inside

theorem Locked.write (valid : sb.Valid) (devsw : Devsw) (locked : Locked sb fs k) {off : Nat}
    {src : List Byte} (offWord : off < 2 ^ 32) (lenWord : src.length < 2 ^ 32) :
    match writei devsw sb (fs.icache k) off src fs.toState with
    | .error e => e = .ballocOutOfBlocks
    | .ok (_, ip', s') => Ordered sb (fs.store k ip' s') := by
  have unchanged : Ordered sb (fs.store k (fs.icache k) fs.toState) :=
    locked.store locked.image locked.leakFree (fun _ _ _ => rfl) locked.busy rfl
      fun _ _ => ⟨locked.stored, locked.type⟩
  by_cases dev : (fs.icache k).type = T_DEV
  · have ran : writei devsw sb (fs.icache k) off src fs.toState =
        .ok (devWrite devsw (fs.icache k).major src, fs.icache k, fs.toState) := by
      unfold writei
      rw [if_pos dev]
    rw [ran]
    exact unchanged
  by_cases rejected : WriteRejected (fs.icache k).size off src.length
  · rw [writei_rejected devsw dev offWord lenWord rejected]
    exact unchanged
  obtain ⟨held, view_eq⟩ := locked.held
  have filled := locked.filled dev
  rcases writei_spec valid devsw held dev filled rejected with ⟨ran, _⟩ | ⟨ip', s', ran, written⟩
  · rw [ran]
  · rw [ran]
    have inum : ip'.inum = (fs.icache k).inum := by rw [written.inode]
    have type : ip'.type = (fs.icache k).type := by rw [written.inode]
    have stored := written.stored locked.stored
    rw [← inum] at stored
    have eqView : view sb ip' s' = trees sb (dinode sb s'.disk) s'.disk := by
      rw [view, table_eq _ stored]
    have safe := written.held.safe
    have leakFree := written.leakFree
    rw [table_eq _ stored, table_eq _ locked.stored] at leakFree
    rw [table_eq _ stored] at safe
    refine locked.store (locked.image.change safe written.inodes ?_ ?_) (leakFree locked.leakFree)
      written.inodes locked.busy inum fun _ _ => ⟨stored, type ▸ locked.type⟩
    · intro n node _ live
      have addr := written.addr n node
      rw [view_eq, eqView] at addr
      exact addr live
    · intro _ _
      have after := written.filled filled rejected
      rw [eqView] at after
      rw [← inum, stored, inum]
      exact after

theorem Locked.read (devsw : Devsw) (locked : Locked sb fs k) {off n : Nat}
    (offWord : off < 2 ^ 32) (lenWord : n < 2 ^ 32) :
    ∃ result, readi devsw sb (fs.icache k) off n fs.toState =
      .ok (result, fs.icache k, fs.toState) := by
  by_cases dev : (fs.icache k).type = T_DEV
  · refine ⟨devRead devsw (fs.icache k).major n, ?_⟩
    unfold readi
    rw [if_pos dev]
  by_cases rejected : ReadRejected (fs.icache k).size off n
  · exact ⟨_, readi_rejected devsw dev offWord lenWord rejected⟩
  · exact ⟨_, readi_spec devsw locked.held.1.root dev (locked.filled dev) rejected⟩

/-! ### Freeing and creating inodes -/

/-- Inode `i` was freed; the other inodes have their dinodes and their blocks. -/
structure Released (sb : Superblock) (d e : Nat → Block) (i : Nat) : Prop where
  type : (dinode sb e i).type = 0
  inodes : ∀ j < sb.ninodes, j ≠ i → dinode sb e j = dinode sb d j
  addr : ∀ n, shape.IsNode n → n.1.1 ≠ i →
    (trees sb (dinode sb e) e).addr n = (trees sb (dinode sb d) d).addr n
  data : ∀ a, sb.nmeta ≤ a → e a = d a

/-- The last `iput` of an inode without links frees its blocks and its dinode. -/
theorem Locked.free (valid : sb.Valid) (locked : Locked sb fs k) :
    ∃ s, itrunc sb (fs.icache k) fs.toState =
        .ok ({ fs.icache k with addrs := fun _ => 0, size := 0 }, s) ∧
      (∀ ip', ip'.inum = (fs.icache k).inum → ip'.ref = 0 → Ordered sb (fs.store k ip'
        (iupdate sb { fs.icache k with addrs := fun _ => 0, size := 0, type := 0 } s))) ∧
      Released sb fs.disk (iupdate sb { fs.icache k with addrs := fun _ => 0, size := 0, type := 0 } s).disk
        (fs.icache k).inum := by
  obtain ⟨held, view_eq⟩ := locked.held
  obtain ⟨s, ran, held', inodes, others, noLeak, data⟩ := itrunc_ok valid held
  refine ⟨s, ran, ?_⟩
  have fits : ({ fs.icache k with addrs := fun _ => 0, size := 0, type := 0 } : Inode).Fits :=
    ⟨by simp, fun _ => by simp⟩
  have change := iupdate_change valid
    { fs.icache k with addrs := fun _ => 0, size := 0, type := 0 } held.inum.2 fits s
  obtain ⟨safe, addr⟩ := iupdate_spec valid held'
    { fs.icache k with addrs := fun _ => 0, size := 0, type := 0 } rfl fits fun _ => by simp
  have stored := change.inodes _ held.inum.2
  rw [if_pos rfl] at stored
  have eqView := table_eq { fs.icache k with addrs := fun _ => 0, size := 0, type := 0 }
    (s := iupdate sb { fs.icache k with addrs := fun _ => 0, size := 0, type := 0 } s) stored
  rw [eqView] at safe
  have kept : ∀ i < sb.ninodes, i ≠ (fs.icache k).inum → dinode sb (iupdate sb
      { fs.icache k with addrs := fun _ => 0, size := 0, type := 0 } s).disk i =
      dinode sb fs.disk i := by
    intro i hi other
    rw [change.inodes i hi, if_neg other, inodes i hi other]
  have leakFree : LeakFree sb _ _ := (noLeak (by
    rw [table_eq _ locked.stored]
    exact locked.leakFree)).transfer change.bits addr
  rw [eqView] at leakFree
  rw [view, eqView] at addr
  refine ⟨?_, by rw [stored], kept, ?_, fun a high => (change.data a high).trans (data a high)⟩
  · intro ip' same idle
    refine locked.store (locked.image.change safe kept ?_ ?_) leakFree kept locked.busy same ?_
    · intro n node other _
      rw [addr n node, others n node other, view_eq]
    · intro used _
      rw [InUse, stored] at used
      exact absurd rfl used.2.2
    · intro used _
      omega
  · intro n node other
    rw [addr n node, others n node other, view_eq]

theorem Ordered.fresh (ordered : Ordered sb fs) {inum : Nat} (inside : inum < sb.ninodes)
    (unused : (dinode sb fs.disk inum).type = 0) {din : Dinode} (size : din.size = 0)
    (addrs : ∀ j, din.addrs j = 0) (change : InodeChange sb fs.disk s'.disk inum din) :
    Ordered sb { fs with toState := s' } := by
  have stored := change.inodes inum inside
  rw [if_pos rfl] at stored
  have kept : ∀ j < sb.ninodes, j ≠ inum → dinode sb s'.disk j = dinode sb fs.disk j := by
    intro j hj other
    rw [change.inodes j hj, if_neg other]
  have roots : ∀ r, (trees sb (dinode sb s'.disk) s'.disk).root r =
      (trees sb (dinode sb fs.disk) fs.disk).root r := by
    intro r
    by_cases here : r.1 = inum
    · have before : ¬InUse sb (dinode sb fs.disk) r.1 := fun h => h.2.2 (here ▸ unused)
      simp only [trees, if_neg before]
      split
      · rw [here, stored, addrs]
      · rfl
    · by_cases inRange : 1 ≤ r.1 ∧ r.1 < sb.ninodes
      · have entry := kept r.1 inRange.2 here
        exact trees_root_congr (by rw [entry]) (by rw [entry])
      · rw [trees_root_outside inRange, trees_root_outside inRange]
  obtain ⟨safe, addr⟩ := ordered.image.toSafe.of_roots change.superblock change.bits change.data
    roots
  refine ⟨?_, ordered.leakFree.transfer change.bits addr, ordered.inum, ordered.unique, ?_⟩
  · refine ordered.image.change safe kept (fun n node _ _ => addr n node) ?_
    intro _ _
    rw [stored]
    exact ⟨by omega, fun p h => absurd h (by omega)⟩
  · intro l used isValid
    obtain ⟨agreed, typed⟩ := ordered.agrees l used isValid
    refine ⟨?_, typed⟩
    have other : (fs.icache l).inum ≠ inum := by
      intro equal
      rw [equal] at agreed
      rw [← agreed] at typed
      exact typed unused
    exact (kept _ (ordered.inum l used).2 other).trans agreed

theorem ialloc_ok (valid : sb.Valid) (ordered : Ordered sb fs) {type : BitVec 16} {inum : Nat}
    (ran : ialloc sb type fs.toState = .ok (inum, s')) :
    (1 ≤ inum ∧ inum < sb.ninodes) ∧ Ordered sb { fs with toState := s' } := by
  unfold ialloc at ran
  split at ran
  · cases ran
  next i found =>
    cases ran
    have inside := List.mem_range.mp (List.mem_of_find?_eq_some found)
    have test := List.find?_some found
    simp only [Bool.and_eq_true, decide_eq_true_eq, beq_iff_eq] at test
    have change := inodeChange valid fs.disk inside { Dinode.blank with type := type }
      ⟨by simp [Dinode.blank], fun _ => by simp [Dinode.blank]⟩
    exact ⟨⟨test.1, inside⟩, ordered.fresh inside test.2 rfl (fun _ => rfl) change⟩

theorem ialloc_error {e : Panic} {type : BitVec 16} (ran : ialloc sb type s = .error e) :
    e = .iallocNoInodes := by
  unfold ialloc at ran
  split at ran
  · cases ran
    rfl
  · cases ran

/-! ### Complete operations -/

/-- Inode numbers come from directory entries, offsets and lengths are 32-bit. -/
def Op.Legal (sb : Superblock) : Op → Prop
  | .lookup inum => 1 ≤ inum ∧ inum < sb.ninodes
  | .write _ off src => off < 2 ^ 32 ∧ src.length < 2 ^ 32
  | .read _ off n => off < 2 ^ 32 ∧ n < 2 ^ 32
  | _ => True

/-- The panics that stop an operation for want of blocks, inodes, cache entries or links. -/
def Panic.Refused (e : Panic) : Prop := e ≠ .freeingFreeBlock ∧ e ≠ .bmapOutOfRange

/-- An operation either keeps the file system in order or is refused. -/
def Outcome (sb : Superblock) : Except Panic FileSystem → Prop
  | .ok fs => Ordered sb fs
  | .error e => e.Refused

theorem Outcome.bind {α : Type} {x : Except Panic α} {f : α → Except Panic FileSystem}
    (failed : ∀ e, x = .error e → e.Refused) (rest : ∀ a, x = .ok a → Outcome sb (f a)) :
    Outcome sb (x >>= f) := by
  cases ran : x with
  | error e => exact failed e ran
  | ok a => exact rest a ran

theorem Outcome.bind_lock (ordered : Ordered sb fs) {f : FileSystem → Except Panic FileSystem}
    (rest : ∀ fs', Locked sb fs' k → Outcome sb (f fs')) : Outcome sb (ilock sb k fs >>= f) := by
  refine Outcome.bind ?_ fun fs' ran => rest fs' (ilock_ok ordered ran).1
  intro e ran
  rcases ilock_error ran with rfl | rfl <;> exact ⟨by decide, by decide⟩

theorem Outcome.bind_get {inum : Nat} {f : Fin NINODE × FileSystem → Except Panic FileSystem}
    (rest : ∀ k fs', iget inum fs = .ok (k, fs') → Outcome sb (f (k, fs'))) :
    Outcome sb (iget inum fs >>= f) := by
  refine Outcome.bind ?_ fun result ran => rest result.1 result.2 ran
  intro e ran
  rw [iget_error ran]
  exact ⟨by decide, by decide⟩

theorem iput_outcome (valid : sb.Valid) (ordered : Ordered sb fs) (k : Fin NINODE) :
    Outcome sb (iput sb k fs) := by
  unfold iput
  by_cases last : (fs.icache k).valid = true ∧ (fs.icache k).nlink = 0 ∧ (fs.icache k).ref = 1
  · have busy : 0 < (fs.icache k).ref := by omega
    obtain ⟨stored, type⟩ := ordered.agrees k busy last.1
    obtain ⟨s, ran, after, _⟩ := Locked.free valid ⟨ordered, busy, stored, type, last.1⟩
    simp only [if_pos last, ran]
    apply after
    · rfl
    · show (fs.icache k).ref - 1 = 0
      omega
  · simp only [if_neg last]
    by_cases busy : 0 < (fs.icache k).ref
    · refine ordered.store ordered.image ordered.leakFree (fun _ _ _ => rfl) busy rfl ?_
      intro _ isValid
      exact ordered.agrees k busy isValid
    · refine ordered.recycle busy ?_
      intro used
      change 0 < (fs.icache k).ref - 1 at used
      omega

theorem create_outcome (valid : sb.Valid) (devsw : Devsw) (ordered : Ordered sb fs)
    (type major minor : BitVec 16) : Outcome sb (Op.run devsw sb fs (.create type major minor)) := by
  change Outcome sb (ialloc sb type fs.toState >>= _)
  refine Outcome.bind ?_ ?_
  · intro e ran
    rw [ialloc_error ran]
    exact ⟨by decide, by decide⟩
  · rintro ⟨inum, s⟩ allocated
    obtain ⟨inside, ordered'⟩ := ialloc_ok valid ordered allocated
    refine Outcome.bind_get ?_
    intro k fs₁ got
    refine Outcome.bind_lock (iget_ok ordered' inside got).1 ?_
    intro fs₂ locked
    exact locked.update valid rfl rfl rfl rfl

theorem Op.run_outcome (valid : sb.Valid) (devsw : Devsw) (ordered : Ordered sb fs) {op : Op}
    (legal : op.Legal sb) : Outcome sb (op.run devsw sb fs) := by
  cases op with
  | lookup inum =>
    refine Outcome.bind_get ?_
    intro k fs' got
    exact (iget_ok ordered legal got).1
  | create type major minor => exact create_outcome valid devsw ordered type major minor
  | write k off src =>
    refine Outcome.bind_lock ordered ?_
    intro fs' locked
    have written := locked.write valid devsw legal.1 legal.2
    refine Outcome.bind ?_ ?_
    · intro e ran
      rw [ran] at written
      cases written
      exact ⟨by decide, by decide⟩
    · intro result ran
      rw [ran] at written
      exact written
  | read k off n =>
    refine Outcome.bind_lock ordered ?_
    intro fs' locked
    obtain ⟨result, ran⟩ := locked.read devsw legal.1 legal.2
    rw [ran]
    exact locked.store locked.image locked.leakFree (fun _ _ _ => rfl) locked.busy rfl
      fun _ _ => ⟨locked.stored, locked.type⟩
  | link k =>
    refine Outcome.bind_lock ordered ?_
    intro fs' locked
    exact locked.update valid rfl rfl rfl rfl
  | unlink k =>
    refine Outcome.bind_lock ordered ?_
    intro fs' locked
    dsimp only
    split
    · exact ⟨by decide, by decide⟩
    · exact locked.update valid rfl rfl rfl rfl
  | close k => exact iput_outcome valid ordered k

theorem runOps_outcome (valid : sb.Valid) (devsw : Devsw) (ops : List Op) :
    ∀ {fs : FileSystem}, Ordered sb fs → (∀ op ∈ ops, op.Legal sb) →
      Outcome sb (runOps devsw sb ops fs) := by
  induction ops with
  | nil => exact fun ordered _ => ordered
  | cons op ops ih =>
    intro fs ordered legal
    have first := Op.run_outcome valid devsw ordered (legal op (by simp))
    rw [runOps, List.foldlM_cons]
    cases ran : op.run devsw sb fs with
    | error e =>
      rw [ran] at first
      exact first
    | ok fs' =>
      rw [ran] at first
      exact ih first fun op member => legal op (by simp [member])

/-- A data block is marked exactly when it stands at exactly one position of the trees. -/
theorem Safe.marked_iff_unique {tbl : Nat → Dinode} {disk : Nat → Block} (valid : sb.Valid)
    (safe : Safe sb tbl disk) (leakFree : LeakFree sb tbl disk) {b : Nat} (isData : sb.IsData b) :
    marked sb disk b = true ↔ ∃! n, shape.IsNode n ∧ (trees sb tbl disk).addr n = b := by
  constructor
  · intro used
    obtain ⟨n, node, here, live⟩ := leakFree b isData used
    refine ⟨n, ⟨node, here⟩, ?_⟩
    rintro m ⟨node', there⟩
    exact safe.separated m n node' node (by rw [there]; exact live) (there.trans here.symm)
  · rintro ⟨n, ⟨node, here⟩, _⟩
    exact safe.used b ⟨n, node, here, pos_of_isData valid isData⟩

/-- Starting from a file system in order, any sequence of complete operations that does not
run out of blocks, inodes or cache entries ends in one: no block is shared or leaked, and
`bfree` never panics. -/
theorem block_ownership (valid : sb.Valid) (devsw : Devsw) (ops : List Op)
    (legal : ∀ op ∈ ops, op.Legal sb) (ordered : Ordered sb fs) :
    (∀ fs', runOps devsw sb ops fs = .ok fs' → Ordered sb fs' ∧ ∀ b, sb.IsData b →
      (marked sb fs'.disk b = true ↔
        ∃! n, shape.IsNode n ∧ (trees sb (dinode sb fs'.disk) fs'.disk).addr n = b)) ∧
    ∀ e, runOps devsw sb ops fs = .error e → e ≠ .freeingFreeBlock ∧ e ≠ .bmapOutOfRange := by
  have outcome := runOps_outcome valid devsw ops ordered legal
  constructor
  · intro fs' ran
    rw [ran] at outcome
    have after : Ordered sb fs' := outcome
    exact ⟨after, fun b isData => after.image.toSafe.marked_iff_unique valid after.leakFree isData⟩
  · intro e ran
    rw [ran] at outcome
    exact outcome

/-- The small image with an empty inode cache. -/
def smallSystem : FileSystem :=
  { disk := smallDisk, logged := []
    icache := fun _ => { Dinode.blank with inum := 0, ref := 0, valid := false } }

theorem smallSystem_ordered : Ordered mkfsSuperblock smallSystem := by
  have idle : ∀ k, ¬0 < (smallSystem.icache k).ref := fun _ => Int.lt_irrefl 0
  exact ⟨smallDisk_image, smallDisk_leakFree, fun k used => absurd used (idle k), fun k _ used => absurd used (idle k),
    fun k used => absurd used (idle k)⟩

/-- Overwriting and growing the file, then removing it. -/
theorem block_ownership_small :
    let final := runOps noDevices mkfsSuperblock
      [.lookup 1, .write 0 2 [72, 105], .unlink 0, .close 0] smallSystem
    (∀ fs', final = .ok fs' → Ordered mkfsSuperblock fs' ∧ ∀ b, mkfsSuperblock.IsData b →
      (marked mkfsSuperblock fs'.disk b = true ↔ ∃! n, shape.IsNode n ∧
        (trees mkfsSuperblock (dinode mkfsSuperblock fs'.disk) fs'.disk).addr n = b)) ∧
    ∀ e, final = .error e → e ≠ .freeingFreeBlock ∧ e ≠ .bmapOutOfRange := by
  have legal : ∀ op ∈ [Op.lookup 1, .write 0 2 [72, 105], .unlink 0, .close 0],
      op.Legal mkfsSuperblock := by
    intro op member
    simp only [List.mem_cons, List.not_mem_nil, or_false] at member
    rcases member with rfl | rfl | rfl | rfl
    · exact ⟨by decide, by decide⟩
    · exact ⟨by decide, by decide⟩
    · trivial
    · trivial
  exact block_ownership mkfsSuperblock_valid noDevices _ legal smallSystem_ordered

end Xv6.Fs
