import Mathlib.Data.Finset.Card
import Mathlib.Data.Fintype.Card
import Mathlib.Data.List.FinRange
import Mathlib.Data.List.Nodup
import Xv6.Param

/-!
# The buffer cache: `bio.c`

The buffers of `bcache`, from the most to the least recently used, with what decides over their reuse.
There is one device. A block is cached at most once, and every buffer is on the list.
-/

namespace Xv6.Bio

open Function (update)

structure Buf where
  /-- `none` before the buffer is first used -/
  blockno : Option Nat
  refcnt : Nat
  dirty : Bool
  locked : Bool

/-- What `bget` may reuse. -/
def Buf.recyclable (b : Buf) : Bool := b.refcnt = 0 ∧ b.dirty = false

structure Cache where
  buf : Fin NBUF → Buf
  /-- the list from `head.next` on -/
  order : List (Fin NBUF)
  listed : ∀ i, i ∈ order
  distinct : ∀ i j b, (buf i).blockno = some b → (buf j).blockno = some b → i = j

namespace Cache

variable {c c' : Cache} {i : Fin NBUF} {b b' : Nat}

/-- The buffer of block `b`. -/
def find (c : Cache) (b : Nat) : Option (Fin NBUF) :=
  c.order.find? fun i => (c.buf i).blockno = some b

theorem blockno_of_find (found : c.find b = some i) : (c.buf i).blockno = some b := by
  simpa using List.find?_some found

theorem not_cached (absent : c.find b = none) (i : Fin NBUF) : (c.buf i).blockno ≠ some b := by
  simpa using List.find?_eq_none.mp absent i (c.listed i)

/-- Assign to the fields of buffer `i` other than its block. -/
def assign (c : Cache) (i : Fin NBUF) (refcnt : Nat) (dirty locked : Bool) : Cache where
  buf := update c.buf i { blockno := (c.buf i).blockno, refcnt, dirty, locked }
  order := c.order
  listed := c.listed
  distinct j k b' := by
    have same : ∀ j, (update c.buf i { blockno := (c.buf i).blockno, refcnt, dirty, locked } j).blockno =
        (c.buf j).blockno := by
      intro j
      by_cases at_i : j = i
      · subst at_i
        rw [Function.update_self]
      · rw [Function.update_of_ne at_i]
    rw [same, same]
    exact c.distinct j k b'

/-- Give buffer `i` to block `b`, which is not cached. -/
def recycle (c : Cache) (i : Fin NBUF) (b : Nat) (absent : c.find b = none) : Cache where
  buf := update c.buf i { blockno := some b, refcnt := 1, dirty := false, locked := false }
  order := c.order
  listed := c.listed
  distinct j k b' hj hk := by
    by_cases at_j : j = i <;> by_cases at_k : k = i
    · rw [at_j, at_k]
    · subst at_j
      rw [Function.update_self] at hj
      rw [Function.update_of_ne at_k] at hk
      cases hj
      exact absurd hk (not_cached absent k)
    · subst at_k
      rw [Function.update_self] at hk
      rw [Function.update_of_ne at_j] at hj
      cases hk
      exact absurd hj (not_cached absent j)
    · rw [Function.update_of_ne at_j] at hj
      rw [Function.update_of_ne at_k] at hk
      exact c.distinct j k b' hj hk

/-- Put buffer `i` at the head of the list. -/
def toFront (c : Cache) (i : Fin NBUF) : Cache where
  buf := c.buf
  order := i :: c.order.erase i
  listed j := by
    by_cases at_i : j = i
    · exact at_i ▸ List.mem_cons_self
    · exact List.mem_cons_of_mem _ ((List.mem_erase_of_ne at_i).mpr (c.listed j))
  distinct := c.distinct

/-- `bget` up to `acquiresleep`; `none` is the panic "bget: no buffers". -/
def bget (c : Cache) (b : Nat) : Option Cache :=
  match found : c.find b with
  | some i => some (c.assign i ((c.buf i).refcnt + 1) (c.buf i).dirty (c.buf i).locked)
  | none =>
    match c.order.reverse.find? fun i => (c.buf i).recyclable with
    | none => none
    | some i => some (c.recycle i b found)

/-- `acquiresleep(&b->lock)`, once the lock is free. -/
def lock (c : Cache) (i : Fin NBUF) : Cache := c.assign i (c.buf i).refcnt (c.buf i).dirty true

def brelse (c : Cache) (b : Nat) : Cache :=
  match c.find b with
  | none => c
  | some i =>
    let c := c.assign i ((c.buf i).refcnt - 1) (c.buf i).dirty false
    if (c.buf i).refcnt = 0 then c.toFront i else c

/-- `B_DIRTY` of the buffer of block `b`. -/
def setDirty (c : Cache) (b : Nat) (dirty : Bool) : Cache :=
  match c.find b with
  | none => c
  | some i => c.assign i (c.buf i).refcnt dirty (c.buf i).locked

/-- `bwrite`: the disk driver clears `B_DIRTY` when the block is written. -/
def bwrite (c : Cache) (b : Nat) : Cache := c.setDirty b false

/-- `b->flags |= B_DIRTY` in `log_write`. -/
def pin (c : Cache) (b : Nat) : Cache := c.setDirty b true

/-! ### Which blocks are dirty -/

/-- A dirty buffer holds one of the blocks of the log header. -/
def Pinned (c : Cache) (lh : List Nat) : Prop :=
  ∀ i, (c.buf i).dirty = true → ∃ b ∈ lh, (c.buf i).blockno = some b

/-- Block `b` is not in a dirty buffer. -/
def Clean (c : Cache) (b : Nat) : Prop := ∀ i, (c.buf i).blockno = some b → (c.buf i).dirty = false

/-- No more buffers are dirty than before. -/
def NoDirtier (c c' : Cache) : Prop :=
  ∀ i, (c'.buf i).dirty = true → (c.buf i).dirty = true ∧ (c'.buf i).blockno = (c.buf i).blockno

theorem NoDirtier.refl (c : Cache) : NoDirtier c c := fun _ dirty => ⟨dirty, rfl⟩

theorem Pinned.of_noDirtier {lh : List Nat} (pinned : c.Pinned lh) (less : NoDirtier c c') :
    c'.Pinned lh := by
  intro i dirty
  obtain ⟨was, same⟩ := less i dirty
  rw [same]
  exact pinned i was

theorem Clean.of_noDirtier (clean : c.Clean b) (less : NoDirtier c c') : c'.Clean b := by
  intro i cached
  by_contra dirty
  obtain ⟨was, same⟩ := less i (by simpa using dirty)
  rw [same] at cached
  simp [clean i cached] at was

theorem Pinned.mono {lh lh' : List Nat} (pinned : c.Pinned lh) (sub : ∀ b ∈ lh, b ∈ lh') :
    c.Pinned lh' := by
  intro i dirty
  obtain ⟨b, member, cached⟩ := pinned i dirty
  exact ⟨b, sub b member, cached⟩

theorem Pinned.reset {lh : List Nat} (pinned : c.Pinned lh) (written : ∀ b ∈ lh, c.Clean b) :
    c.Pinned [] := by
  intro i dirty
  obtain ⟨b, member, cached⟩ := pinned i dirty
  simp [written b member i cached] at dirty

theorem noDirtier_assign (i : Fin NBUF) (refcnt : Nat) (dirty locked : Bool)
    (less : dirty = true → (c.buf i).dirty = true) : NoDirtier c (c.assign i refcnt dirty locked) := by
  intro j dirty_j
  simp only [assign] at dirty_j ⊢
  by_cases at_i : j = i
  · subst at_i
    rw [Function.update_self] at dirty_j ⊢
    exact ⟨less dirty_j, rfl⟩
  · rw [Function.update_of_ne at_i] at dirty_j ⊢
    exact ⟨dirty_j, rfl⟩

theorem noDirtier_bget (got : c.bget b = some c') : NoDirtier c c' := by
  unfold bget at got
  split at got
  · cases got
    exact noDirtier_assign _ _ _ _ id
  · split at got
    · cases got
    next i _ =>
      cases got
      intro j dirty
      simp only [recycle] at dirty ⊢
      by_cases at_i : j = i
      · subst at_i
        simp at dirty
      · rw [Function.update_of_ne at_i] at dirty ⊢
        exact ⟨dirty, rfl⟩

theorem noDirtier_lock (i : Fin NBUF) : NoDirtier c (c.lock i) := noDirtier_assign _ _ _ _ id

theorem noDirtier_brelse (b : Nat) : NoDirtier c (c.brelse b) := by
  unfold brelse
  split
  · exact .refl c
  next i _ =>
    have less := noDirtier_assign (c := c) i ((c.buf i).refcnt - 1) (c.buf i).dirty false id
    dsimp only
    split
    · exact less
    · exact less

theorem noDirtier_bwrite (b : Nat) : NoDirtier c (c.bwrite b) := by
  unfold bwrite setDirty
  split
  · exact .refl c
  · exact noDirtier_assign _ _ _ _ (by simp)

theorem clean_bwrite (c : Cache) (b : Nat) : (c.bwrite b).Clean b := by
  intro i cached
  unfold bwrite setDirty at cached ⊢
  split at cached
  next absent => exact absurd cached (not_cached absent i)
  next j found =>
    simp only [assign] at cached ⊢
    by_cases at_j : i = j
    · subst at_j
      simp
    · rw [Function.update_of_ne at_j] at cached
      exact absurd (c.distinct i j b cached (blockno_of_find found)) at_j

theorem Pinned.pin {lh : List Nat} (pinned : c.Pinned lh) (member : b ∈ lh) : (c.pin b).Pinned lh := by
  unfold Cache.pin setDirty
  split
  · exact pinned
  next j found =>
    intro i dirty
    simp only [assign] at dirty ⊢
    by_cases at_j : i = j
    · subst at_j
      rw [Function.update_self]
      exact ⟨b, member, blockno_of_find found⟩
    · rw [Function.update_of_ne at_j] at dirty ⊢
      exact pinned i dirty

/-! ### Availability -/

/-- The buffers in use. -/
def inUse (c : Cache) : Finset (Fin NBUF) := Finset.univ.filter fun i => (c.buf i).refcnt ≠ 0

theorem Pinned.card_le {lh : List Nat} (pinned : c.Pinned lh) :
    (Finset.univ.filter fun i => (c.buf i).dirty = true).card ≤ lh.length := by
  have into : ∀ i ∈ Finset.univ.filter fun i => (c.buf i).dirty = true,
      ((c.buf i).blockno.getD 0) ∈ lh.toFinset := by
    intro i member
    obtain ⟨b, here, cached⟩ := pinned i (Finset.mem_filter.mp member).2
    simpa [cached] using here
  refine (Finset.card_le_card_of_injOn _ into ?_).trans lh.toFinset_card_le
  intro i hi j hj same
  obtain ⟨b, _, cached_i⟩ := pinned i (Finset.mem_filter.mp hi).2
  obtain ⟨b', _, cached_j⟩ := pinned j (Finset.mem_filter.mp hj).2
  simp only [cached_i, cached_j, Option.getD_some] at same
  exact c.distinct i j b cached_i (same ▸ cached_j)

/-- With fewer blocks in the log and buffers in use than there are buffers, `bget` succeeds. -/
theorem bget_ne_none {lh : List Nat} (pinned : c.Pinned lh)
    (room : c.find b = none → lh.length + c.inUse.card < NBUF) : c.bget b ≠ none := by
  intro failed
  unfold bget at failed
  split at failed
  · cases failed
  next uncached =>
    split at failed
    next absent =>
      have all : Finset.univ ⊆
          c.inUse ∪ Finset.univ.filter fun i => (c.buf i).dirty = true := by
        intro i _
        have busy := List.find?_eq_none.mp absent i (by simpa using c.listed i)
        simp only [Buf.recyclable, decide_eq_true_eq, not_and, Bool.not_eq_false] at busy
        by_cases free : (c.buf i).refcnt = 0
        · exact Finset.mem_union_right _ (by simpa using busy free)
        · exact Finset.mem_union_left _ (by simpa [inUse] using free)
      have total := (Finset.card_le_card all).trans (Finset.card_union_le _ _)
      rw [Finset.card_fin] at total
      have few := pinned.card_le
      have fits := room uncached
      omega
    · cases failed

end Cache

end Xv6.Bio
