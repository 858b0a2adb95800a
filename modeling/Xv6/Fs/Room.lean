import Xv6.Fs.Image

/-!
# Room on the disk

A write needs a block for every position of the tree that has none yet. If that many blocks are free,
`balloc` does not panic, and what is left after a first part of the write is enough for the rest.
-/

namespace Xv6.Fs

open Bytes Forest

/-- Position `n` is on the way to block `bn` of inode `i`. -/
def OnPath (i bn : Nat) (n : Node Root) : Prop := n.1 = (leaf i bn).1 ∧ n.2 <+: (leaf i bn).2

/-- Position `n` is on the way to one of the `len` bytes at `off`. -/
def Reached (i off len : Nat) (n : Node Root) : Prop :=
  ∃ p, off ≤ p ∧ p < off + len ∧ OnPath i (p / BSIZE) n

/-- There is a free block for each of the positions `T` that has none. -/
def Room (sb : Superblock) (f : Store Root Nat) (disk : Nat → Block) (T : Node Root → Prop) : Prop :=
  ∃ missing : Finset (Node Root), (∀ n, T n → f.addr n = 0 → n ∈ missing) ∧
    missing.card ≤ (freeBlocks sb disk).card

variable {sb : Superblock} {ip ip' : Inode} {s s' : State} {T : Node Root → Prop} {es : List Event}

theorem Room.mono {f : Store Root Nat} {disk : Nat → Block} {U : Node Root → Prop}
    (room : Room sb f disk T) (fewer : ∀ n, U n → T n) : Room sb f disk U := by
  obtain ⟨missing, covers, enough⟩ := room
  exact ⟨missing, fun n inside => covers n (fewer n inside), enough⟩

theorem Room.congr {f g : Store Root Nat} {disk disk' : Nat → Block} (room : Room sb f disk T)
    (nodes : ∀ n, T n → shape.IsNode n) (addr : ∀ n, shape.IsNode n → g.addr n = f.addr n)
    (bits : freeBlocks sb disk' = freeBlocks sb disk) : Room sb g disk' T := by
  obtain ⟨missing, covers, enough⟩ := room
  refine ⟨missing, fun n inside empty => covers n inside ?_, bits ▸ enough⟩
  rw [← addr n (nodes n inside), empty]

/-- Steps that only grow positions of `T` leave room for the others. -/
theorem Room.ran (valid : sb.Valid) (held : Held sb ip s) (room : Room sb (view sb ip s) s.disk T)
    (nodes : ∀ n, T n → shape.IsNode n) (ran : Ran sb ip s es ip' s')
    (inside : ∀ n ∈ grown es, T n) : Room sb (view sb ip' s') s'.disk T := by
  obtain ⟨missing, covers, enough⟩ := room
  have used : (grown es).toFinset ⊆ missing := by
    intro n new
    rw [List.mem_toFinset] at new
    exact covers n (inside n new) (ran.grown_spec valid held new).2.1
  have count := ran.card_freeBlocks valid held
  have distinct := List.toFinset_card_of_nodup (ran.grown_nodup valid held)
  have left := Finset.card_sdiff_of_subset used
  refine ⟨missing \ (grown es).toFinset, ?_, by omega⟩
  intro n member empty
  rw [Finset.mem_sdiff, List.mem_toFinset]
  have old : n ∉ grown es := fun new => (ran.grown_spec valid held new).2.2 empty
  rw [ran.addr_of_not_grown valid held (nodes n member) old] at empty
  exact ⟨covers n member empty, old⟩

/-- Steps after which every position of `T` has its block had room for them. -/
theorem Ran.room (valid : sb.Valid) (held : Held sb ip s) (nodes : ∀ n, T n → shape.IsNode n)
    (ran : Ran sb ip s es ip' s') (live : ∀ n, T n → (view sb ip' s').addr n ≠ 0) :
    Room sb (view sb ip s) s.disk T := by
  have count := ran.card_freeBlocks valid held
  refine ⟨(grown es).toFinset, ?_, ?_⟩
  · intro n member empty
    rw [List.mem_toFinset]
    by_contra old
    apply live n member
    rw [ran.addr_of_not_grown valid held (nodes n member) old, empty]
  · rw [List.toFinset_card_of_nodup (ran.grown_nodup valid held)]
    omega

theorem OnPath.isNode {i bn : Nat} (inside : bn < MAXFILE) {n : Node Root} (on : OnPath i bn n) :
    shape.IsNode n := by
  obtain ⟨r, path⟩ := n
  obtain ⟨rfl, above⟩ := on
  exact (leaf_isNode i inside).of_isPrefix above

theorem Reached.isNode {i off len : Nat} (inside : off + len ≤ MAXFILE * BSIZE) {n : Node Root}
    (reached : Reached i off len n) : shape.IsNode n := by
  obtain ⟨p, _, below, on⟩ := reached
  exact on.isNode (div_BSIZE_lt (by omega))

/-! ### No panic while there is room -/

theorem balloc_room (room : Room sb (view sb ip s) s.disk T) {n : Node Root} (member : T n)
    (empty : (view sb ip s).addr n = 0) : ∃ b s', balloc sb s = .ok (b, s') := by
  obtain ⟨missing, covers, enough⟩ := room
  cases ran : balloc sb s with
  | ok result => exact ⟨result.1, result.2, rfl⟩
  | error e =>
    have none := (balloc_error_free ran).2
    have some_ := Finset.card_pos.mpr ⟨n, covers n member empty⟩
    omega

theorem indexWalk_room (valid : sb.Valid) {r : Root} (path : List Nat) :
    ∀ (walked : List Nat) {s : State} {a : Nat}, Held sb ip s →
      shape.IsNode (r, walked ++ path) → (view sb ip s).addr (r, walked) = a → a ≠ 0 →
      Room sb (view sb ip s) s.disk (fun n => n.1 = r ∧ n.2 <+: walked ++ path) →
      ∃ b s', indexWalk sb a path s = .ok (b, s') := by
  induction path with
  | nil => exact fun _ _ a _ _ _ _ _ => ⟨a, _, rfl⟩
  | cons i path ih =>
    intro walked s a held node here live room
    have split : walked ++ i :: path = walked ++ [i] ++ path := by simp
    have short := node.1
    have bounds := node.2
    simp only [List.length_append, List.length_cons] at short
    have isNode : shape.IsNode (r, walked) := node.of_isPrefix (List.prefix_append _ _)
    have deep : walked.length < shape.depth r := by omega
    have nodes : ∀ n : Node Root, n.1 = r ∧ n.2 <+: walked ++ i :: path → shape.IsNode n := by
      rintro ⟨_, path⟩ ⟨rfl, above⟩
      exact node.of_isPrefix above
    -- the entry is there, or a block is free for it
    have entry : ∃ c t, indexEntry sb a i s = .ok (c, t) := by
      unfold indexEntry
      dsimp only
      split
      next empty =>
        have missing : (view sb ip s).addr (r, walked ++ [i]) = 0 := by
          rw [Store.addr_concat, here, if_neg live]
          exact empty
        obtain ⟨b, t, ran⟩ := balloc_room room ⟨rfl, by rw [split]; exact List.prefix_append _ _⟩ missing
        rw [ran]
        exact ⟨_, _, rfl⟩
      next => exact ⟨_, _, rfl⟩
    obtain ⟨c, t, entry⟩ := entry
    rw [indexWalk, entry]
    rw [split] at node room nodes
    rcases indexEntry_ok valid held isNode deep (bounds i (by simp)) here live entry with
      ⟨rfl, there, next⟩ | step
    · exact ih _ held node there next room
    · refine ih _ (step.held valid held) node step.grafted.placed (pos_of_isData valid step.isData)
        (room.ran valid held nodes (Ran.nil.grow step) ?_)
      intro n new
      simp only [List.nil_append, grown_grow, List.mem_singleton] at new
      subst new
      exact ⟨rfl, List.prefix_append _ _⟩

theorem bmap_room (valid : sb.Valid) (held : Held sb ip s) {bn : Nat} (inside : bn < MAXFILE)
    (room : Room sb (view sb ip s) s.disk (OnPath ip.inum bn)) :
    ∃ a ip' s', bmap sb ip bn s = .ok (a, ip', s') := by
  have node := leaf_isNode ip.inum inside
  have entry : ∃ a ip₁ t, rootEntry sb ip (leafOf bn).1 s = .ok (a, ip₁, t) := by
    unfold rootEntry
    dsimp only
    split
    next empty =>
      have missing : (view sb ip s).addr ((leaf ip.inum bn).1, []) = 0 := by
        rw [Store.addr]
        exact (held.root _).trans empty
      have on : OnPath ip.inum bn ((leaf ip.inum bn).1, []) := ⟨rfl, List.nil_prefix⟩
      obtain ⟨b, t, ran⟩ := balloc_room room on missing
      rw [ran]
      exact ⟨_, _, _, rfl⟩
    next => exact ⟨_, _, _, rfl⟩
  obtain ⟨a, ip₁, t, entry⟩ := entry
  rw [bmap_eq sb ip inside, bmapWalk, entry]
  have walk : ∃ b t', indexWalk sb a (leafOf bn).2 t = .ok (b, t') := by
    rcases rootEntry_ok valid held entry with ⟨rfl, rfl, here, live⟩ | step
    · exact indexWalk_room valid _ [] held node here live room
    · refine indexWalk_room valid _ [] (step.held valid held) node step.grafted.placed
        (pos_of_isData valid step.isData) ?_
      refine room.ran valid held (fun n on => OnPath.isNode inside on) (Ran.nil.grow step) ?_
      intro n new
      simp only [List.nil_append, grown_grow, List.mem_singleton] at new
      subst new
      exact ⟨rfl, List.nil_prefix⟩
  obtain ⟨b, t', walk⟩ := walk
  refine ⟨b, ip₁, t', ?_⟩
  change (indexWalk sb a (leafOf bn).2 t >>= _) = _
  rw [walk]
  rfl

theorem writeLoop_room (valid : sb.Valid) (src : List Byte) :
    ∀ {off : Nat} {ip : Inode} {s : State}, Held sb ip s → off + src.length ≤ MAXFILE * BSIZE →
      Room sb (view sb ip s) s.disk (Reached ip.inum off src.length) →
      ∃ ip' s', writeLoop sb ip off src s = .ok (ip', s') := by
  induction h : src.length using Nat.strong_induction_on generalizing src with
  | _ len ih =>
    intro off ip s held inside room
    subst h
    rw [writeLoop]
    split
    next => exact ⟨_, _, rfl⟩
    next more =>
      obtain ⟨pos, fewer, fits⟩ := chunk_spec off more
      have small : off / BSIZE < MAXFILE := div_BSIZE_lt (by omega)
      obtain ⟨a, ip₁, s₁, mapped⟩ := bmap_room valid held small
        (room.mono fun n on => ⟨off, Nat.le_refl _, by omega, on⟩)
      obtain ⟨es, _, first⟩ := Wrote.round valid held src (by omega) pos fits fewer mapped
      have kept := first.ran.kept valid held
      have inum : ip₁.inum = ip.inum := by rw [kept.inode]
      have takes : (src.take (chunk off src.length)).length = chunk off src.length := by
        rw [List.length_take]
        omega
      have left := room.ran valid held (fun n reached => reached.isNode inside) first.ran
        (by
          intro n new
          obtain ⟨p, low, high, on⟩ := first.added n new
          exact ⟨p, low, by omega, on⟩)
      have short : (src.drop (chunk off src.length)).length = src.length - chunk off src.length :=
        List.length_drop
      rw [mapped]
      refine ih _ (by omega) (src.drop (chunk off src.length)) rfl kept.held (by omega)
        (left.mono ?_)
      rintro n ⟨p, low, high, on⟩
      rw [inum] at on
      exact ⟨p, by omega, by omega, on⟩

/-! ### `writei` -/

/-- What is left of the room after a successful `writei`, and that there was room. -/
theorem writei_room (valid : sb.Valid) (devsw : Devsw) (held : Held sb ip s)
    (notDev : ip.type ≠ T_DEV) {off : Nat} {src : List Byte}
    (accepted : ¬WriteRejected ip.size off src.length) :
    Room sb (view sb ip s) s.disk (Reached ip.inum off src.length) ↔
      ∃ r ip' s', writei devsw sb ip off src s = .ok (r, ip', s') := by
  rw [writei_accepted devsw notDev accepted]
  simp only [WriteRejected, not_or, Nat.not_lt, Nat.not_le] at accepted
  obtain ⟨_, _, bounded⟩ := accepted
  constructor
  · intro room
    obtain ⟨ip₁, s₁, looped⟩ := writeLoop_room valid src held bounded room
    rw [looped]
    change ∃ r ip' s', (if 0 < src.length ∧ ip₁.size < off + src.length then _ else _) = _
    split
    · exact ⟨_, _, _, rfl⟩
    · exact ⟨_, _, _, rfl⟩
  · rintro ⟨r, ip', s', ran⟩
    obtain ⟨⟨ip₁, s₁⟩, looped, _⟩ := Steps.bind_ok ran
    obtain ⟨es, wrote⟩ := writeLoop_ok valid src held bounded looped
    refine wrote.ran.room valid held (fun n reached => reached.isNode bounded) ?_
    rintro ⟨root, path⟩ ⟨p, low, high, sameRoot, above⟩
    have live := (wrote.ran.written_live valid held ((wrote.touched _).mpr ⟨p, low, high, rfl⟩)).2
    simp only at sameRoot above
    subst sameRoot
    exact live_above above live

theorem writei_room_left (valid : sb.Valid) (devsw : Devsw) (held : Held sb ip s)
    (notDev : ip.type ≠ T_DEV) {off len : Nat} {src : List Byte} {r : Int}
    (accepted : ¬WriteRejected ip.size off src.length) (longer : src.length ≤ len)
    (bounded : off + len ≤ MAXFILE * BSIZE)
    (room : Room sb (view sb ip s) s.disk (Reached ip.inum off len))
    (ran : writei devsw sb ip off src s = .ok (r, ip', s')) :
    Room sb (view sb ip' s') s'.disk (Reached ip.inum (off + src.length) (len - src.length)) := by
  rw [writei_accepted devsw notDev accepted] at ran
  obtain ⟨⟨ip₁, s₁⟩, looped, rest⟩ := Steps.bind_ok ran
  obtain ⟨es, wrote⟩ := writeLoop_ok valid src held (by omega) looped
  have nodes : ∀ n, Reached ip.inum off len n → shape.IsNode n := fun n reached => reached.isNode bounded
  have kept := wrote.ran.kept valid held
  have left : Room sb (view sb ip₁ s₁) s₁.disk (Reached ip.inum off len) := by
    refine room.ran valid held nodes wrote.ran ?_
    intro n new
    obtain ⟨p, low, high, on⟩ := wrote.added n new
    exact ⟨p, low, by omega, on⟩
  have after : Room sb (view sb ip' s') s'.disk (Reached ip.inum off len) := by
    simp only at rest
    split at rest
    · cases rest
      have fits : ({ ip₁ with size := off + src.length } : Inode).Fits := by
        refine ⟨?_, kept.held.fits.addrs⟩
        have limit : MAXFILE * BSIZE < 2 ^ 32 := by decide
        simp only
        omega
      have change := iupdate_change valid { ip₁ with size := off + src.length } kept.held.inum.2 fits s₁
      obtain ⟨_, addr⟩ := iupdate_spec valid kept.held { ip₁ with size := off + src.length } rfl fits
        fun _ => rfl
      refine left.congr nodes addr ?_
      ext b
      simp only [freeBlocks, Finset.mem_filter, Finset.mem_range]
      exact and_congr_right fun small => by rw [change.bits b small]
    · cases rest
      exact left
  refine after.mono ?_
  rintro n ⟨p, low, high, on⟩
  exact ⟨p, by omega, by omega, on⟩

end Xv6.Fs
