import Mathlib.Algebra.Order.BigOperators.Group.Finset
import Xv6.Bio.Model
import Xv6.Lib.Refs

/-!
# What the buffer cache keeps

The ring holds every buffer once, a block is cached once, and `refcnt` counts the references. Along the ring
the unused buffers stand from the most to the least recently released one, so `bget`, which searches from
the back, recycles the oldest. The time of the last release is recorded beside the state, 0 for none.
-/

namespace Xv6.Bio

open Function (update)

variable {ι β : Type}

/-! ### Releases -/

/-- The cache, and when each buffer was last released. -/
structure Stamped (ι β : Type) where
  users : Users ι β
  clock : Nat
  stamp : Fin NBUF → Nat

/-- Every release gets a new time. -/
def stampedWith [DecidableEq ι] (s : Stamped ι β) (t : Users ι β) : Pc → Event β → Stamped ι β
  | .releasing i, .put => { users := t, clock := s.clock + 1, stamp := update s.stamp i (s.clock + 1) }
  | _, _ => { s with users := t }

def stamping (ι β : Type) [DecidableEq ι] : System (Stamped ι β) (ι × Event β) where
  init s := s.users.Initial ∧ s.clock = 0 ∧ ∀ i, s.stamp i = 0
  step s label := (s.users.step label).map fun t => stampedWith s t (s.users.pc label.1) label.2

/-- The reference of a process inside `bget` or `brelse`. -/
def Pc.target : Pc → List (Fin NBUF)
  | .locking i _ | .releasing i => [i]
  | _ => []

/-- The buffers that a process waits for, has locked, or is releasing. -/
def Users.uses (s : Users ι β) (p : ι) : List (Fin NBUF) := (s.pc p).target ++ s.held p

/-- Nobody has block `blockno` in the cache. -/
def Bcache.Absent (c : Bcache β) (dev blockno : Nat) : Prop :=
  ∀ i, ¬((c.buf i).dev = dev ∧ (c.buf i).blockno = blockno)

/-- What `bget` may recycle. -/
def Bcache.Free (c : Bcache β) (i : Fin NBUF) : Prop := (c.buf i).refcnt = 0 ∧ (c.buf i).dirty = false

structure Consistent [Fintype ι] (s : Stamped ι β) : Prop where
  /-- every buffer is on the ring once -/
  ring : ∃ l, s.users.cache.ring.Holds l ∧ ∀ i, l.count i = 1
  inverse : ∀ z, s.users.cache.ring.prev (s.users.cache.ring.next z) = z ∧
    s.users.cache.ring.next (s.users.cache.ring.prev z) = z
  /-- a block is cached once -/
  distinct : ∀ i j, (s.users.cache.buf i).dev ≠ 0 → (s.users.cache.buf i).dev = (s.users.cache.buf j).dev →
    (s.users.cache.buf i).blockno = (s.users.cache.buf j).blockno → i = j
  counted : ∀ i, (s.users.cache.buf i).refcnt = ∑ p, (s.users.uses p).count i
  /-- the buffer that `bget` recycles was released before every other one it might recycle -/
  oldest : ∀ dev blockno i c, s.users.cache.bget dev blockno = some (i, c) → s.users.cache.Absent dev blockno →
    s.users.cache.Free i ∧ ∀ j, s.users.cache.Free j → s.stamp i ≤ s.stamp j

/-! ### The invariant -/

/-- Along the ring, unused buffers were released one after the other. -/
def InOrder (c : Bcache β) (stamp : Fin NBUF → Nat) (l : List (Fin NBUF)) : Prop :=
  l.Pairwise fun i j => (c.buf i).refcnt = 0 → (c.buf j).refcnt = 0 → stamp j ≤ stamp i

structure Ordered [Fintype ι] (s : Stamped ι β) : Prop where
  ring : ∃ l, s.users.cache.ring.Holds l ∧ (∀ i, i ∈ l) ∧ InOrder s.users.cache s.stamp l
  past : ∀ i, s.stamp i ≤ s.clock
  distinct : ∀ i j, (s.users.cache.buf i).dev ≠ 0 → (s.users.cache.buf i).dev = (s.users.cache.buf j).dev →
    (s.users.cache.buf i).blockno = (s.users.cache.buf j).blockno → i = j
  counted : ∀ i, (s.users.cache.buf i).refcnt = ∑ p, (s.users.uses p).count i

theorem length_le_of_holds {r : RingLinks (Fin NBUF)} {l : List (Fin NBUF)} (holds : r.Holds l) :
    l.length ≤ NBUF := by
  simpa using holds.nodup.length_le_card

section Searches

variable {c : Bcache β} {l : List (Fin NBUF)} {dev blockno : Nat} {i : Fin NBUF} {c' : Bcache β}

/-- **`bget`** finds the buffer of the block, or recycles the last free buffer of the ring. -/
theorem bget_cases (holds : c.ring.Holds l) (all : ∀ i, i ∈ l) (got : c.bget dev blockno = some (i, c')) :
    ((c.buf i).dev = dev ∧ (c.buf i).blockno = blockno ∧
      c' = c.set i { c.buf i with refcnt := (c.buf i).refcnt + 1 }) ∨
    (c.Absent dev blockno ∧ c.Free i ∧
      (∃ front back, l = front ++ i :: back ∧ ∀ j ∈ back, ¬c.Free j) ∧
      c' = c.set i
        { c.buf i with dev := dev, blockno := blockno, valid := false, dirty := false, refcnt := 1 }) := by
  have found : c.lookup dev blockno = some (l.find? fun i => (c.buf i).dev = dev ∧ (c.buf i).blockno = blockno) :=
    holds.search_next (length_le_of_holds holds)
  have last : c.victim = some (l.reverse.find? fun i => (c.buf i).refcnt = 0 ∧ (c.buf i).dirty = false) :=
    holds.search_prev (length_le_of_holds holds)
  unfold Bcache.bget at got
  rw [found, last] at got
  split at got
  next absurd_ => cases absurd_
  next j hit =>
    cases got
    have key := List.find?_some (Option.some.inj hit)
    simp only [decide_eq_true_eq] at key
    exact .inl ⟨key.1, key.2, rfl⟩
  next miss =>
    have absent : c.Absent dev blockno := fun j => by
      simpa using List.find?_eq_none.mp (Option.some.inj miss) j (all j)
    split at got
    next j taken =>
      cases got
      obtain ⟨free, before, after, split, none⟩ := List.find?_eq_some_iff_append.mp (Option.some.inj taken)
      have free : c.Free i := by simpa [Bcache.Free] using free
      refine .inr ⟨absent, free, ⟨after.reverse, before.reverse, ?_, fun j member => ?_⟩, rfl⟩
      · rw [← List.reverse_reverse l, split]
        simp
      · have taken := none j (List.mem_reverse.mp member)
        exact fun isFree => by simp [isFree.1, isFree.2] at taken
    · cases got

end Searches

variable [DecidableEq ι] [Fintype ι] {s t : Stamped ι β} {u : Users ι β} {p : ι} {i : Fin NBUF}

omit [DecidableEq ι] in
theorem Ordered.consistent (ordered : Ordered s) : Consistent s where
  ring := by
    obtain ⟨l, holds, all, _⟩ := ordered.ring
    exact ⟨l, holds, fun i => List.count_eq_one_of_mem holds.nodup (all i)⟩
  inverse z := by
    obtain ⟨l, holds, all, _⟩ := ordered.ring
    exact holds.inverse fun a _ => all a
  distinct := ordered.distinct
  counted := ordered.counted
  oldest dev blockno i c got absent := by
    obtain ⟨l, holds, all, inOrder⟩ := ordered.ring
    rcases bget_cases holds all got with ⟨isDev, isBlock, _⟩ | ⟨_, free, ⟨front, back, split, none⟩, _⟩
    · exact (absent i ⟨isDev, isBlock⟩).elim
    · refine ⟨free, fun j isFree => ?_⟩
      have member := all j
      rw [split] at member
      rw [InOrder, split] at inOrder
      -- a free buffer is the recycled one or stands in front of it
      rcases List.mem_append.mp member with front | here
      · exact (List.pairwise_append.mp inOrder).2.2 j front i (by simp) isFree.1 free.1
      · rcases List.mem_cons.mp here with rfl | behind
        · exact le_rfl
        · exact absurd isFree (none j behind)

/-! ### Steps -/

/-- A process changes its references by `more` and `less`, and `refcnt` follows. -/
theorem counted_step {c : Bcache β} {held : ι → List (Fin NBUF)} {pc : ι → Pc}
    (counted : ∀ i, (s.users.cache.buf i).refcnt = ∑ p, (s.users.uses p).count i)
    (pcs : ∀ q, q ≠ p → pc q = s.users.pc q) (helds : ∀ q, q ≠ p → held q = s.users.held q)
    (own : ∀ i, (c.buf i).refcnt + (s.users.uses p).count i =
      (s.users.cache.buf i).refcnt + ((pc p).target ++ held p).count i) (i : Fin NBUF) :
    (c.buf i).refcnt = ∑ q, ((pc q).target ++ held q).count i := by
  have sums := Refs.sum_of_others (f := fun q => (s.users.uses q).count i)
    (g := fun q => ((pc q).target ++ held q).count i) (i := p) fun q other => by
      simp only [Users.uses, pcs q other, helds q other]
  have old := counted i
  have step := own i
  omega

/-- A step of `p` that leaves the ring, the blocks and `refcnt` alone. -/
theorem Ordered.keep (ordered : Ordered s) {c : Bcache β} {disk : Nat → Nat → β} {pc : ι → Pc}
    {held : ι → List (Fin NBUF)} (ring : c.ring = s.users.cache.ring)
    (fields : ∀ i, (c.buf i).refcnt = (s.users.cache.buf i).refcnt ∧ (c.buf i).dev = (s.users.cache.buf i).dev ∧
      (c.buf i).blockno = (s.users.cache.buf i).blockno)
    (pcs : ∀ q, q ≠ p → pc q = s.users.pc q) (helds : ∀ q, q ≠ p → held q = s.users.held q)
    (own : ∀ i, (s.users.uses p).count i = ((pc p).target ++ held p).count i) :
    Ordered { s with users := { cache := c, disk, pc, held } } where
  ring := by
    obtain ⟨l, holds, all, inOrder⟩ := ordered.ring
    refine ⟨l, by rw [ring]; exact holds, all, inOrder.imp fun {i j} before => ?_⟩
    rw [(fields i).1, (fields j).1]
    exact before
  past := ordered.past
  distinct i j := by
    rw [(fields i).2.1, (fields j).2.1, (fields i).2.2, (fields j).2.2]
    exact ordered.distinct i j
  counted := counted_step ordered.counted pcs helds fun i => by rw [(fields i).1, own i]

omit [DecidableEq ι] [Fintype ι] in
theorem set_fields {c : Bcache β} {b : Buffer β} (refcnt : b.refcnt = (c.buf i).refcnt)
    (dev : b.dev = (c.buf i).dev) (blockno : b.blockno = (c.buf i).blockno) (j : Fin NBUF) :
    ((c.set i b).buf j).refcnt = (c.buf j).refcnt ∧ ((c.set i b).buf j).dev = (c.buf j).dev ∧
      ((c.set i b).buf j).blockno = (c.buf j).blockno := by
  by_cases here : j = i
  · subst here
    simp [Bcache.set, refcnt, dev, blockno]
  · simp [Bcache.set, here]

omit [Fintype ι] in
theorem pc_other {pc : ι → Pc} {point : Pc} (q : ι) (other : q ≠ p) : update pc p point q = pc q :=
  Function.update_of_ne other _ _

theorem ordered_get (ordered : Ordered s) {dev blockno : Nat} {reads : Bool}
    (got : s.users.get p dev blockno reads = some u) : Ordered { s with users := u } := by
  obtain ⟨here, i, c, found, rfl⟩ := Users.get_ok got
  obtain ⟨l, holds, all, inOrder⟩ := ordered.ring
  have target : ∀ j, (s.users.uses p).count j = (s.users.held p).count j := fun j => by
    simp [Users.uses, here, Pc.target]
  have grown : ∀ j, ((update s.users.pc p (.locking i reads) p).target ++ s.users.held p).count j =
      (s.users.held p).count j + if i = j then 1 else 0 := fun j => by
    simp [Pc.target, List.count_cons]
  -- one more reference, and the buffer is in use
  have counted : ∀ {b : Buffer β}, b.refcnt = (s.users.cache.buf i).refcnt + 1 → ∀ j,
      ((s.users.cache.set i b).buf j).refcnt =
        ∑ q, ((update s.users.pc p (.locking i reads) q).target ++ s.users.held q).count j := by
    intro b more
    refine counted_step ordered.counted pc_other (fun _ _ => rfl) fun j => ?_
    rw [target, grown]
    by_cases same : j = i
    · subst same
      simp only [Bcache.set, Function.update_self, if_true, more]
      omega
    · simp only [Bcache.set, Function.update_of_ne same, if_neg (Ne.symm same)]
      rfl
  have still : ∀ {b : Buffer β}, b.refcnt ≠ 0 → InOrder (s.users.cache.set i b) s.stamp l := by
    intro b busy
    refine inOrder.imp fun {j k} before unusedJ unusedK => ?_
    have other : ∀ {j}, ((s.users.cache.set i b).buf j).refcnt = 0 → j ≠ i := by
      rintro j unused rfl
      exact busy (by simpa [Bcache.set] using unused)
    have neJ := other unusedJ
    have neK := other unusedK
    simp only [Bcache.set, Function.update_of_ne neJ, Function.update_of_ne neK] at unusedJ unusedK
    exact before unusedJ unusedK
  rcases bget_cases holds all found with ⟨_, _, rfl⟩ | ⟨absent, free, _, rfl⟩
  · refine ⟨⟨l, holds, all, still (Nat.succ_ne_zero _)⟩, ordered.past, fun j k => ?_, counted rfl⟩
    have keys : ∀ j, ((s.users.cache.set i { s.users.cache.buf i with
        refcnt := (s.users.cache.buf i).refcnt + 1 }).buf j).dev = (s.users.cache.buf j).dev ∧
        ((s.users.cache.set i { s.users.cache.buf i with
        refcnt := (s.users.cache.buf i).refcnt + 1 }).buf j).blockno = (s.users.cache.buf j).blockno := by
      intro j
      by_cases here : j = i
      · subst here
        simp [Bcache.set]
      · simp [Bcache.set, here]
    simp only [(keys j).1, (keys k).1, (keys j).2, (keys k).2]
    exact ordered.distinct j k
  · refine ⟨⟨l, holds, all, still Nat.one_ne_zero⟩, ordered.past, fun j k => ?_, counted (by rw [free.1])⟩
    by_cases atJ : j = i <;> by_cases atK : k = i
    · exact fun _ _ _ => atJ.trans atK.symm
    · subst atJ
      simp only [Bcache.set, Function.update_self, Function.update_of_ne atK]
      exact fun _ isDev isBlock => (absent k ⟨isDev.symm, isBlock.symm⟩).elim
    · subst atK
      simp only [Bcache.set, Function.update_self, Function.update_of_ne atJ]
      exact fun _ isDev isBlock => (absent j ⟨isDev, isBlock⟩).elim
    · simp only [Bcache.set, Function.update_of_ne atJ, Function.update_of_ne atK]
      exact ordered.distinct j k

theorem ordered_lock (ordered : Ordered s) (locked : s.users.lock p = some u) :
    Ordered { s with users := u } := by
  obtain ⟨i, reads, here, _, rfl⟩ := Users.lock_ok locked
  refine ordered.keep (p := p) rfl (set_fields rfl rfl rfl) pc_other
    (fun q other => Function.update_of_ne other _ _) fun j => ?_
  simp only [Function.update_self, Users.uses, here]
  split_ifs <;> simp [Pc.target]

theorem ordered_intr (ordered : Ordered s) (done : s.users.intr p = some u) :
    Ordered { s with users := u } := by
  obtain ⟨i, here, rfl⟩ := Users.intr_ok done
  have own : ∀ j, (s.users.uses p).count j =
      ((update s.users.pc p Pc.out p).target ++ s.users.held p).count j := fun j => by
    simp [Users.uses, here, Pc.target]
  unfold Users.ideintr
  dsimp only
  split
  · exact ordered.keep (p := p) rfl (set_fields rfl rfl rfl) pc_other (fun _ _ => rfl) own
  · exact ordered.keep (p := p) rfl (set_fields rfl rfl rfl) pc_other (fun _ _ => rfl) own

theorem ordered_assign (ordered : Ordered s) (point : Pc) (b : Buffer β) (target : point.target = [])
    (refcnt : b.refcnt = (s.users.cache.buf i).refcnt) (dev : b.dev = (s.users.cache.buf i).dev)
    (blockno : b.blockno = (s.users.cache.buf i).blockno) (assigned : s.users.assign p i b point = some u) :
    Ordered { s with users := u } := by
  obtain ⟨here, _, rfl⟩ := Users.assign_ok assigned
  refine ordered.keep (p := p) rfl (set_fields refcnt dev blockno) pc_other (fun _ _ => rfl) fun j => ?_
  rw [Function.update_self, Users.uses, here, target]
  rfl

theorem ordered_unlock (ordered : Ordered s) (unlocked : s.users.unlock p i = some u) :
    Ordered { s with users := u } := by
  obtain ⟨here, held, rfl⟩ := Users.unlock_ok unlocked
  refine ordered.keep (p := p) rfl (set_fields rfl rfl rfl) pc_other
    (fun q other => Function.update_of_ne other _ _) fun j => ?_
  simp only [Function.update_self, Users.uses, here, Pc.target, List.nil_append, List.singleton_append]
  exact (List.perm_cons_erase held).count_eq j

omit [DecidableEq ι] in
/-- A buffer that a process refers to is in use. -/
theorem refcnt_pos (counted : ∀ i, (s.users.cache.buf i).refcnt = ∑ p, (s.users.uses p).count i)
    (uses : i ∈ s.users.uses p) : 0 < (s.users.cache.buf i).refcnt := by
  rw [counted i]
  exact lt_of_lt_of_le (List.count_pos_iff.mpr uses)
    (Finset.single_le_sum (f := fun q => (s.users.uses q).count i) (fun _ _ => Nat.zero_le _)
      (Finset.mem_univ p))

/-- `brelse` moves the buffer to the front when it was the last reference. -/
theorem ordered_put (ordered : Ordered s) (here : s.users.pc p = .releasing i) :
    Ordered
      { users := { s.users with cache := s.users.cache.put i, pc := update s.users.pc p .out }
        clock := s.clock + 1
        stamp := update s.stamp i (s.clock + 1) } := by
  obtain ⟨l, holds, all, inOrder⟩ := ordered.ring
  have referred := refcnt_pos ordered.counted (p := p) (i := i) (by simp [Users.uses, here, Pc.target])
  have buf : ∀ j, (s.users.cache.put i).buf j =
      if j = i then { s.users.cache.buf i with refcnt := (s.users.cache.buf i).refcnt - 1 }
      else s.users.cache.buf j := by
    intro j
    unfold Bcache.put Bcache.set
    dsimp only
    split <;> exact Function.update_apply _ _ _ _
  have other : ∀ {j}, j ≠ i → (s.users.cache.put i).buf j = s.users.cache.buf j := fun ne => by
    rw [buf, if_neg ne]
  refine ⟨?_, fun j => ?_, fun j k => ?_, ?_⟩
  · by_cases last : (s.users.cache.buf i).refcnt - 1 = 0
    · have ring : (s.users.cache.put i).ring = (s.users.cache.ring.unlink i).insertFront i := by
        simp [Bcache.put, Bcache.set, last]
      have fresh : i ∉ l.erase i := fun again => (holds.nodup.mem_erase_iff.mp again).1 rfl
      refine ⟨i :: l.erase i, by rw [ring]; exact (holds.unlink (all i)).insertFront fresh, fun j => ?_, ?_⟩
      · by_cases same : j = i
        · simp [same]
        · exact List.mem_cons_of_mem _ (holds.nodup.mem_erase_iff.mpr ⟨same, all j⟩)
      · refine List.pairwise_cons.mpr ⟨fun j member _ _ => ?_, ?_⟩
        · have ne : j ≠ i := (holds.nodup.mem_erase_iff.mp member).1
          simp only [Function.update_self, Function.update_of_ne ne]
          exact (ordered.past j).trans (Nat.le_succ _)
        · refine (inOrder.sublist List.erase_sublist).imp_of_mem fun {j k} inJ inK before => ?_
          have neJ : j ≠ i := (holds.nodup.mem_erase_iff.mp inJ).1
          have neK : k ≠ i := (holds.nodup.mem_erase_iff.mp inK).1
          simp only [other neJ, other neK, Function.update_of_ne neJ, Function.update_of_ne neK]
          exact before
    · have ring : (s.users.cache.put i).ring = s.users.cache.ring := by
        simp [Bcache.put, Bcache.set, last]
      refine ⟨l, by rw [ring]; exact holds, all, inOrder.imp fun {j k} before unusedJ unusedK => ?_⟩
      have ne : ∀ {j}, ((s.users.cache.put i).buf j).refcnt = 0 → j ≠ i := by
        rintro j unused rfl
        rw [buf, if_pos rfl] at unused
        exact last unused
      have neJ := ne unusedJ
      have neK := ne unusedK
      simp only [other neJ, other neK] at unusedJ unusedK
      simpa only [Function.update_of_ne neJ, Function.update_of_ne neK] using before unusedJ unusedK
  · by_cases same : j = i
    · simp [same]
    · simp only [Function.update_of_ne same]
      exact (ordered.past j).trans (Nat.le_succ _)
  · have keys : ∀ j, ((s.users.cache.put i).buf j).dev = (s.users.cache.buf j).dev ∧
        ((s.users.cache.put i).buf j).blockno = (s.users.cache.buf j).blockno := by
      intro j
      rw [buf]
      split_ifs with same
      · rw [same]
        exact ⟨rfl, rfl⟩
      · exact ⟨rfl, rfl⟩
    simp only [(keys j).1, (keys k).1, (keys j).2, (keys k).2]
    exact ordered.distinct j k
  · refine counted_step ordered.counted pc_other (fun _ _ => rfl) fun j => ?_
    rw [buf, Users.uses, here]
    change _ = (s.users.cache.buf j).refcnt + ((update s.users.pc p .out p).target ++ s.users.held p).count j
    rw [Function.update_self]
    by_cases same : j = i
    · subst same
      simp only [if_true, Pc.target, List.singleton_append, List.nil_append, List.count_cons_self]
      omega
    · simp [Pc.target, same, Ne.symm same]

theorem ordered_step {label : ι × Event β} (ordered : Ordered s)
    (stepped : (stamping ι β).step s label = some t) : Ordered t := by
  obtain ⟨p, event⟩ := label
  obtain ⟨u, ran, rfl⟩ := Option.map_eq_some_iff.mp stepped
  have unstamped : event ≠ .put → stampedWith s u (s.users.pc p) event = { s with users := u } := by
    intro other
    unfold stampedWith
    split
    · exact absurd rfl other
    · rfl
  cases event with
  | bget dev blockno =>
    rw [unstamped nofun]
    exact ordered_get ordered ran
  | bread dev blockno =>
    rw [unstamped nofun]
    exact ordered_get ordered ran
  | lock =>
    rw [unstamped nofun]
    exact ordered_lock ordered ran
  | intr =>
    rw [unstamped nofun]
    exact ordered_intr ordered ran
  | modify i data =>
    rw [unstamped nofun]
    exact ordered_assign ordered .out { s.users.cache.buf i with data := data } rfl rfl rfl rfl ran
  | pin i =>
    rw [unstamped nofun]
    exact ordered_assign ordered .out { s.users.cache.buf i with dirty := true } rfl rfl rfl rfl ran
  | bwrite i =>
    rw [unstamped nofun]
    exact ordered_assign ordered (.waiting i) { s.users.cache.buf i with dirty := true } rfl rfl rfl rfl ran
  | brelse i =>
    rw [unstamped nofun]
    exact ordered_unlock ordered ran
  | put =>
    obtain ⟨i, here, rfl⟩ := Users.put_ok ran
    rw [here]
    exact ordered_put ordered here

omit [DecidableEq ι] [Fintype ι] in
/-- `binit` inserts the buffers one after the other. -/
theorem holds_binit (c : Bcache β) : c.binit.ring.Holds (List.finRange NBUF).reverse := by
  have insert : ∀ (xs l : List (Fin NBUF)) (r : RingLinks (Fin NBUF)), r.Holds l → (xs.reverse ++ l).Nodup →
      (xs.foldl RingLinks.insertFront r).Holds (xs.reverse ++ l) := by
    intro xs
    induction xs with
    | nil => exact fun l r holds _ => holds
    | cons x xs ih =>
      intro l r holds nodup
      rw [List.reverse_cons, List.append_assoc, List.singleton_append] at nodup ⊢
      exact ih (x :: l) _ (holds.insertFront (List.nodup_cons.mp (List.nodup_append.mp nodup).2.1).1) nodup
  have whole := insert (List.finRange NBUF) [] _ c.ring.holds_clear
    (by simpa using List.nodup_finRange NBUF)
  simpa [Bcache.binit] using whole

omit [DecidableEq ι] in
theorem ordered_init (fresh : s.users.Initial) (stamps : ∀ i, s.stamp i = 0) : Ordered s := by
  obtain ⟨c, zeroed, cache⟩ := fresh.cache
  have buf : ∀ i, s.users.cache.buf i = c.buf i := fun i => by rw [cache]; rfl
  refine ⟨⟨(List.finRange NBUF).reverse, by rw [cache]; exact holds_binit c, by simp, ?_⟩, fun i => ?_,
    fun i j used => ?_, fun i => ?_⟩
  · exact List.pairwise_of_forall fun i j _ _ => by rw [stamps i, stamps j]
  · rw [stamps]
    exact Nat.zero_le _
  · rw [buf, (zeroed.buf i).2.2.1] at used
    exact absurd rfl used
  · rw [buf, (zeroed.buf i).2.2.2.2.2]
    simp [Users.uses, fresh.pc, fresh.held, Pc.target]

/-- **The buffer cache** stays consistent whatever the processes do. -/
theorem buffer_cache_consistent (ι β : Type) [DecidableEq ι] [Fintype ι] (s : Stamped ι β)
    (reach : (stamping ι β).Reach System.Any s) : Consistent s := by
  refine (reach.invariant (P := Ordered) ?_ ?_).consistent
  · rintro s ⟨fresh, _, stamps⟩
    exact ordered_init fresh stamps
  · intro s label t ordered _ stepped
    exact ordered_step ordered stepped

/-- The cache after `binit`, over a disk of zeros. -/
def booted : Stamped (Fin 2) Nat :=
  { users :=
      { cache := Bcache.binit
          { buf := fun _ =>
              { valid := false, dirty := false, dev := 0, blockno := 0, locked := false, refcnt := 0, data := 0 }
            ring := { next := fun _ => none, prev := fun _ => none } }
        disk := fun _ _ => 0
        pc := fun _ => .out
        held := fun _ => [] }
    clock := 0
    stamp := fun _ => 0 }

/-- Two processes read block 5; the second gets the buffer when the first releases it. Meanwhile
block 6 has been read and released, so its buffer is the only one with a time of release. -/
theorem buffer_cache_consistent_shared : ∃ s, (stamping (Fin 2) Nat).Reach System.Any s ∧
    (s.users.cache.buf 0).blockno = 5 ∧ (s.users.cache.buf 0).refcnt = 2 ∧ s.stamp 1 = 1 ∧ Consistent s := by
  obtain ⟨s, reach, found⟩ := System.Reach.of_exec (S := stamping (Fin 2) Nat) System.Any (s := booted)
    [(0, .bread 1 5), (0, .lock), (0, .intr), (0, .bread 1 6), (0, .lock), (0, .intr), (0, .brelse 1), (0, .put),
      (1, .bread 1 5)]
    ⟨⟨⟨_, ⟨fun _ => ⟨rfl, rfl, rfl, rfl, rfl, rfl⟩⟩, rfl⟩, fun _ => rfl, fun _ => rfl⟩, rfl, fun _ => rfl⟩
    (P := fun s => (s.users.cache.buf 0).blockno = 5 ∧ (s.users.cache.buf 0).refcnt = 2 ∧ s.stamp 1 = 1)
    (by decide +kernel)
  obtain ⟨block, references, released⟩ := of_decide_eq_true found
  exact ⟨s, reach, block, references, released, buffer_cache_consistent (Fin 2) Nat s reach⟩

end Xv6.Bio
