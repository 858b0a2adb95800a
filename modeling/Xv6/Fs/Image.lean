import Xv6.Fs.ReadWrite

/-!
# File-system images

An image is safe block trees plus files without holes. `writei` and `readi` keep this, and the dinode on disk
follows the in-memory copy whenever the file grew.
-/

namespace Xv6.Fs

open Bytes Forest

/-- All blocks below the size of inode `i` are there. -/
structure Filled (f : Store Root Nat) (i : Nat) (d : Dinode) : Prop where
  bounded : d.size ≤ MAXFILE * BSIZE
  live : ∀ p < d.size, f.addr (leaf i (p / BSIZE)) ≠ 0

/-- Safe block trees, and no holes in files and directories. -/
structure Image (sb : Superblock) (tbl : Nat → Dinode) (disk : Nat → Block) : Prop
    extends Safe sb tbl disk where
  filled : ∀ i, InUse sb tbl i → (tbl i).type ≠ T_DEV → Filled (trees sb tbl disk) i (tbl i)

variable {sb : Superblock} {ip ip' : Inode} {s s' : State}

/-! ### Changes of metadata -/

/-- Changing inode and bitmap blocks does not move a block of the trees as long as the roots
stay. -/
theorem Safe.of_roots {tbl tbl' : Nat → Dinode} {disk disk' : Nat → Block}
    (safe : Safe sb tbl disk) (superblock : disk' 1 = disk 1)
    (bits : ∀ b < sb.size, marked sb disk' b = marked sb disk b)
    (data : ∀ a, sb.nmeta ≤ a → disk' a = disk a)
    (roots : ∀ r, (trees sb tbl' disk').root r = (trees sb tbl disk).root r) :
    Safe sb tbl' disk' ∧
      ∀ n, shape.IsNode n → (trees sb tbl' disk').addr n = (trees sb tbl disk).addr n := by
  have addr : ∀ n, shape.IsNode n → (trees sb tbl' disk').addr n = (trees sb tbl disk).addr n := by
    apply addr_congr roots
    intro n i node _ _ live
    change (disk' _).word i = (disk _).word i
    rw [data _ (safe.inData _ ⟨n, node, rfl, live⟩).1]
  exact ⟨safe.transfer superblock bits addr, addr⟩

theorem inUse_table (ip : Inode) (inum : 1 ≤ ip.inum ∧ ip.inum < sb.ninodes) (disk : Nat → Block) :
    InUse sb (table sb ip disk) ip.inum ↔ ip.type ≠ 0 := by
  rw [InUse, table, Function.update_self]
  exact ⟨fun h => h.2.2, fun h => ⟨inum.1, inum.2, h⟩⟩

/-- Writing the dinode of `ip'`, whose roots are those of `ip`, for it. -/
theorem roots_of_inodeChange (inum : 1 ≤ ip.inum ∧ ip.inum < sb.ninodes) (same : ip'.inum = ip.inum)
    (inodes : ∀ i < sb.ninodes, i ≠ ip.inum → dinode sb s'.disk i = dinode sb s.disk i)
    (own : ∀ k, (if ip'.type ≠ 0 then ip'.addrs k else 0) = if ip.type ≠ 0 then ip.addrs k else 0)
    (r : Root) : (view sb ip' s').root r = (view sb ip s).root r := by
  by_cases here : r.1 = ip.inum
  · have used := inUse_table ip inum s.disk
    have used' := inUse_table ip' (by rw [same]; exact inum) s'.disk
    rw [same] at used'
    have unfolded : ∀ (jp : Inode) (t : State), jp.inum = ip.inum →
        (InUse sb (table sb jp t.disk) ip.inum ↔ jp.type ≠ 0) →
        (view sb jp t).root r = if jp.type ≠ 0 then jp.addrs r.2 else 0 := by
      intro jp t sameInum iff
      by_cases typed : jp.type ≠ 0
      · rw [if_pos typed]
        simp only [view, trees, here, if_pos (iff.mpr typed)]
        rw [table, ← sameInum, Function.update_self]
      · rw [if_neg typed]
        simp only [view, trees, here, if_neg (fun h => typed (iff.mp h))]
    rw [unfolded ip' s' same used', unfolded ip s rfl used, own]
  · by_cases inside : 1 ≤ r.1 ∧ r.1 < sb.ninodes
    · have entry : table sb ip' s'.disk r.1 = table sb ip s.disk r.1 := by
        simp only [table, same, Function.update_of_ne here, inodes r.1 inside.2 here]
      exact trees_root_congr (by rw [entry]) (by rw [entry])
    · rw [view, view, trees_root_outside inside, trees_root_outside inside]

/-- `iupdate` as a change of one dinode. -/
theorem iupdate_change (valid : sb.Valid) (ip : Inode) (inside : ip.inum < sb.ninodes)
    (fits : ip.Fits) (s : State) : InodeChange sb s.disk (iupdate sb ip s).disk ip.inum ip.toDinode :=
  inodeChange valid s.disk inside ip.toDinode fits

/-- `iupdate` of an inode whose roots did not change. -/
theorem iupdate_spec (valid : sb.Valid) (held : Held sb ip s) (ip' : Inode) (same : ip'.inum = ip.inum)
    (fits : ip'.Fits)
    (own : ∀ k, (if ip'.type ≠ 0 then ip'.addrs k else 0) = if ip.type ≠ 0 then ip.addrs k else 0) :
    Safe sb (table sb ip' (iupdate sb ip' s).disk) (iupdate sb ip' s).disk ∧
      ∀ n, shape.IsNode n → (view sb ip' (iupdate sb ip' s)).addr n = (view sb ip s).addr n := by
  have change := iupdate_change valid ip' (same ▸ held.inum.2) fits s
  refine held.safe.of_roots change.superblock change.bits change.data
    (roots_of_inodeChange held.inum same ?_ own)
  intro i hi other
  rw [change.inodes i hi, if_neg (by rw [same]; exact other)]

/-! ### `writei` -/

/-- What a successful `writei` of `src` at `off` leaves. -/
structure Written (sb : Superblock) (ip : Inode) (s : State) (off : Nat) (src : List Byte)
    (ip' : Inode) (s' : State) : Prop where
  held : Held sb ip' s'
  inode : ip' = { ip with addrs := ip'.addrs, size := max ip.size (off + src.length) }
  inodes : ∀ i < sb.ninodes, i ≠ ip.inum → dinode sb s'.disk i = dinode sb s.disk i
  stored : dinode sb s.disk ip.inum = ip.toDinode → dinode sb s'.disk ip.inum = ip'.toDinode
  addr : ∀ n, shape.IsNode n → (view sb ip s).addr n ≠ 0 →
    (view sb ip' s').addr n = (view sb ip s).addr n
  leakFree : LeakFree sb (table sb ip s.disk) s.disk → LeakFree sb (table sb ip' s'.disk) s'.disk
  bytes : ∀ p, off ≤ p → p < off + src.length →
    (view sb ip' s').addr (leaf ip.inum (p / BSIZE)) ≠ 0 ∧
      byteAt (view sb ip' s') s'.disk ip.inum p = src.getD (p - off) 0
  others : ∀ i p, p < MAXFILE * BSIZE → ¬(i = ip.inum ∧ off ≤ p ∧ p < off + src.length) →
    (view sb ip s).addr (leaf i (p / BSIZE)) ≠ 0 →
    byteAt (view sb ip' s') s'.disk i p = byteAt (view sb ip s) s.disk i p

theorem live_above {f : Store Root Nat} {r : Root} {short long : List Nat}
    (above : short <+: long) (live : f.addr (r, long) ≠ 0) : f.addr (r, short) ≠ 0 := by
  obtain ⟨rest, rfl⟩ := above
  intro zero
  apply live
  rw [Store.addr, follow_append]
  change follow f.next (f.addr (r, short)) rest = 0
  rw [zero, follow_zero]

theorem Ran.inode_of_not_grown {es : List Event} (ran : Ran sb ip s es ip' s')
    (none : grown es = []) : ip' = ip := by
  induction ran with
  | nil => rfl
  | grow _ _ _ => simp at none
  | data _ _ _ _ ih => exact ih (by simpa using none)

theorem Wrote.grown_nil (valid : sb.Valid) (held : Held sb ip s) {off : Nat} {src : List Byte}
    {es : List Event} (wrote : Wrote sb ip s off src es ip' s')
    (filled : Filled (view sb ip s) ip.inum ip.toDinode) (within : off + src.length ≤ ip.size) :
    grown es = [] := by
  rw [List.eq_nil_iff_forall_not_mem]
  rintro ⟨r, path⟩ member
  obtain ⟨p, low, high, sameRoot, above⟩ := wrote.added _ member
  obtain ⟨_, empty, _⟩ := wrote.ran.grown_spec valid held member
  have live := filled.live p (by omega)
  simp only at sameRoot
  subst sameRoot
  exact live_above above live empty

theorem Wrote.written_grow (valid : sb.Valid) (held : Held sb ip s) {off : Nat} {src : List Byte}
    {es : List Event} {ip₁ : Inode} {s₁ : State} (wrote : Wrote sb ip s off src es ip₁ s₁)
    (inside : off + src.length ≤ MAXFILE * BSIZE) (grew : ip.size < off + src.length) :
    Written sb ip s off src { ip₁ with size := off + src.length }
      (iupdate sb { ip₁ with size := off + src.length } s₁) := by
  have kept := wrote.ran.kept valid held
  have inum : ip₁.inum = ip.inum := by rw [kept.inode]
  have fits : ({ ip₁ with size := off + src.length } : Inode).Fits := by
    refine ⟨?_, kept.held.fits.addrs⟩
    rw [MAXFILE_eq] at inside
    simp only [BSIZE] at *
    omega
  have change := iupdate_change valid { ip₁ with size := off + src.length } kept.held.inum.2 fits s₁
  obtain ⟨safe, addr⟩ := iupdate_spec valid kept.held { ip₁ with size := off + src.length } rfl fits
    fun _ => rfl
  -- the blocks of the trees are where they were after the loop, with the same bytes
  have bytes : ∀ i p, p < MAXFILE * BSIZE → (view sb ip₁ s₁).addr (leaf i (p / BSIZE)) ≠ 0 →
      byteAt (view sb { ip₁ with size := off + src.length }
        (iupdate sb { ip₁ with size := off + src.length } s₁))
        (iupdate sb { ip₁ with size := off + src.length } s₁).disk i p =
      byteAt (view sb ip₁ s₁) s₁.disk i p := by
    intro i p small live
    have node := leaf_isNode i (div_BSIZE_lt small)
    unfold byteAt
    rw [addr _ node, change.data _ (kept.held.inData node live).1]
  refine ⟨⟨kept.held.inum, kept.held.type, fits, safe⟩, ?_, ?_, ?_, ?_,
    fun h => (kept.leakFree h).transfer change.bits addr, ?_, ?_⟩
  · have larger : max ip.size (off + src.length) = off + src.length := by omega
    rw [larger, kept.inode]
  · intro i hi other
    rw [change.inodes i hi, if_neg (by rw [inum]; exact other), kept.inodes i hi]
  · intro _
    rw [change.inodes _ (inum ▸ kept.held.inum.2), if_pos inum.symm]
  · intro n node live
    rw [addr n node, wrote.ran.addr_of_live valid held node live]
  · intro p low high
    have live := (wrote.ran.written_live valid held ((wrote.touched _).mpr ⟨p, low, high, rfl⟩)).2
    rw [addr _ (leaf_isNode _ (div_BSIZE_lt (by omega))), bytes _ p (by omega) live]
    exact ⟨live, wrote.bytes p low high⟩
  · intro i p small outside live
    have live₁ := wrote.ran.addr_of_live valid held (leaf_isNode i (div_BSIZE_lt small)) live
    rw [bytes i p small (by rw [live₁]; exact live), wrote.others i p small outside live]

theorem Wrote.written_within (valid : sb.Valid) (held : Held sb ip s) {off : Nat} {src : List Byte}
    {es : List Event} (wrote : Wrote sb ip s off src es ip' s')
    (filled : Filled (view sb ip s) ip.inum ip.toDinode) (within : off + src.length ≤ ip.size) :
    Written sb ip s off src ip' s' := by
  have kept := wrote.ran.kept valid held
  have unchanged := wrote.ran.inode_of_not_grown (wrote.grown_nil valid held filled within)
  refine ⟨kept.held, ?_, fun i hi _ => kept.inodes i hi, ?_, ?_, kept.leakFree, ?_, wrote.others⟩
  · have larger : max ip.size (off + src.length) = ip.size := by omega
    rw [larger, unchanged]
  · intro stored
    rw [kept.inodes _ held.inum.2, stored, unchanged]
  · intro n node live
    exact wrote.ran.addr_of_live valid held node live
  · intro p low high
    have live := (wrote.ran.written_live valid held ((wrote.touched _).mpr ⟨p, low, high, rfl⟩)).2
    exact ⟨live, wrote.bytes p low high⟩

/-- The arguments on which `writei` returns -1. -/
def WriteRejected (size off n : Nat) : Prop :=
  size < off ∨ 2 ^ 32 ≤ off + n ∨ MAXFILE * BSIZE < off + n

instance (size off n : Nat) : Decidable (WriteRejected size off n) :=
  inferInstanceAs (Decidable (_ ∨ _ ∨ _))

theorem writei_rejected (devsw : Devsw) (notDev : ip.type ≠ T_DEV) {off : Nat} {src : List Byte}
    (offWord : off < 2 ^ 32) (lenWord : src.length < 2 ^ 32)
    (rejected : WriteRejected ip.size off src.length) :
    writei devsw sb ip off src s = .ok (-1, ip, s) := by
  unfold writei
  rw [if_neg notDev]
  by_cases early : ip.size < off ∨ (off + src.length) % 2 ^ 32 < off
  · rw [if_pos early]
  · rw [if_neg early, if_pos]
    rcases rejected with past | overflow | large
    · exact absurd (.inl past) early
    · exact absurd (.inr (by omega)) early
    · have limit : MAXFILE * BSIZE < 2 ^ 32 := by decide
      omega

theorem writei_accepted (devsw : Devsw) (notDev : ip.type ≠ T_DEV) {off : Nat} {src : List Byte}
    (accepted : ¬WriteRejected ip.size off src.length) :
    writei devsw sb ip off src s = (do
      let (ip, s) ← writeLoop sb ip off src s
      if 0 < src.length ∧ ip.size < off + src.length then
        .ok (src.length, { ip with size := off + src.length },
          iupdate sb { ip with size := off + src.length } s)
      else .ok (src.length, ip, s)) := by
  simp only [WriteRejected, not_or, Nat.not_lt, Nat.not_le] at accepted
  obtain ⟨within, noWrap, bounded⟩ := accepted
  unfold writei
  rw [if_neg notDev, if_neg (by rw [Nat.mod_eq_of_lt noWrap]; omega),
    if_neg (by rw [Nat.mod_eq_of_lt noWrap]; omega)]

/-- A `writei` that is not rejected writes all of `src` or runs out of blocks. -/
theorem writei_spec (valid : sb.Valid) (devsw : Devsw) (held : Held sb ip s)
    (notDev : ip.type ≠ T_DEV) (filled : Filled (view sb ip s) ip.inum ip.toDinode) {off : Nat}
    {src : List Byte} (accepted : ¬WriteRejected ip.size off src.length) :
    (writei devsw sb ip off src s = .error .ballocOutOfBlocks ∧
        (freeBlocks sb s.disk).card < 4 * blocksTouched off src.length) ∨
      ∃ ip' s', writei devsw sb ip off src s = .ok (src.length, ip', s') ∧
        Written sb ip s off src ip' s' := by
  rw [writei_accepted devsw notDev accepted]
  simp only [WriteRejected, not_or, Nat.not_lt, Nat.not_le] at accepted
  obtain ⟨within, _, bounded⟩ := accepted
  cases looped : writeLoop sb ip off src s with
  | error e =>
    obtain ⟨rfl, few⟩ := writeLoop_error valid src held bounded looped
    exact .inl ⟨rfl, few⟩
  | ok result =>
    obtain ⟨ip₁, s₁⟩ := result
    right
    obtain ⟨es, wrote⟩ := writeLoop_ok valid src held bounded looped
    have size : ip₁.size = ip.size := by rw [(wrote.ran.kept valid held).inode]
    change ∃ ip' s', (if 0 < src.length ∧ ip₁.size < off + src.length then _ else _) = _ ∧ _
    by_cases grew : ip.size < off + src.length
    · rw [if_pos ⟨by omega, by omega⟩]
      exact ⟨_, _, rfl, wrote.written_grow valid held bounded grew⟩
    · rw [if_neg (by omega)]
      exact ⟨_, _, rfl, wrote.written_within valid held filled (by omega)⟩

theorem Written.filled {off : Nat} {src : List Byte} (written : Written sb ip s off src ip' s')
    (filled : Filled (view sb ip s) ip.inum ip.toDinode)
    (accepted : ¬WriteRejected ip.size off src.length) :
    Filled (view sb ip' s') ip.inum ip'.toDinode := by
  simp only [WriteRejected, not_or, Nat.not_lt, Nat.not_le] at accepted
  obtain ⟨within, _, bounded⟩ := accepted
  have size : ip'.size = max ip.size (off + src.length) := by rw [written.inode]
  have old := filled.bounded
  refine ⟨by rw [size]; omega, ?_⟩
  intro p inside
  rw [size] at inside
  by_cases new : off ≤ p ∧ p < off + src.length
  · exact (written.bytes p new.1 new.2).1
  · have live := filled.live p (by omega)
    rw [written.addr _ (leaf_isNode _ (div_BSIZE_lt (by omega))) live]
    exact live

/-! ### `readi` -/

/-- The arguments on which `readi` returns -1. -/
def ReadRejected (size off n : Nat) : Prop := size < off ∨ 2 ^ 32 ≤ off + n

instance (size off n : Nat) : Decidable (ReadRejected size off n) :=
  inferInstanceAs (Decidable (_ ∨ _))

theorem readi_rejected (devsw : Devsw) (notDev : ip.type ≠ T_DEV) {off n : Nat}
    (offWord : off < 2 ^ 32) (lenWord : n < 2 ^ 32) (rejected : ReadRejected ip.size off n) :
    readi devsw sb ip off n s = .ok ((-1, []), ip, s) := by
  unfold readi
  rw [if_neg notDev, if_pos]
  rcases rejected with past | overflow
  · exact .inl past
  · right
    omega

theorem readi_spec (devsw : Devsw) (roots : ∀ k, (view sb ip s).root (ip.inum, k) = ip.addrs k)
    (notDev : ip.type ≠ T_DEV) (filled : Filled (view sb ip s) ip.inum ip.toDinode) {off n : Nat}
    (accepted : ¬ReadRejected ip.size off n) :
    readi devsw sb ip off n s = .ok (((min n (ip.size - off) : Nat),
      (List.range (min n (ip.size - off))).map
        fun k => byteAt (view sb ip s) s.disk ip.inum (off + k)), ip, s) := by
  simp only [ReadRejected, not_or, Nat.not_lt, Nat.not_le] at accepted
  obtain ⟨within, noWrap⟩ := accepted
  have count : (if ip.size < (off + n) % 2 ^ 32 then ip.size - off else n) =
      min n (ip.size - off) := by
    rw [Nat.mod_eq_of_lt noWrap]
    split <;> omega
  have bounded := filled.bounded
  unfold readi
  rw [if_neg notDev, if_neg (by rw [Nat.mod_eq_of_lt noWrap]; omega)]
  simp only [count]
  rw [readLoop_eq roots _ off (by omega) fun p low high => filled.live p (by omega)]
  rfl

end Xv6.Fs
