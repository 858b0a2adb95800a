import Xv6.Proc.Groups

/-!
# Parents

When a thread that has forked is joined, its children keep the slot of a thread that is gone. And a worker
thread that calls `exec` makes the main thread it leaves its own child. Families number the processes. In a
run without these two events every process keeps a parent of the family that has forked it, or init.
-/

namespace Xv6.Proc

variable {v v' : View} {cur : Slot} {family origin : Slot → Nat} {act : Call} {n : Nat}

/-! ### Families -/

/-- The kernel, with the family of each thread, the family that has forked each process, and
the number of the next family. -/
structure Lineage where
  k : Kernel
  family : Slot → Nat
  origin : Slot → Nat
  next : Nat

/-- The slot comes into use. -/
def Brought (v v' : View) (p : Slot) : Prop := v.ident p = none ∧ v'.ident p ≠ none

instance (v v' : View) (p : Slot) : Decidable (Brought v v' p) := inferInstanceAs (Decidable (_ ∧ _))

/-- A new main thread starts family `next`, a new worker thread joins that of its creator. -/
def familyAfter (v v' : View) (cur : Slot) (family : Slot → Nat) (next : Nat) (p : Slot) : Nat :=
  if Brought v v' p then if v'.master p = none then next else family cur else family p

/-- A new process comes from the family of the forking thread. A worker thread that takes over
its group by `exec` takes over where the group comes from. -/
def originAfter (v v' : View) (cur : Slot) (family origin : Slot → Nat) (p : Slot) : Nat :=
  if Brought v v' p then family cur
  else if v.master p ≠ none ∧ v'.master p = none then
    match Chain.climb v.master NPROC p with
    | some h => origin h
    | none => origin p
  else origin p

/-- The process system calls, with families. -/
def lineage : System Lineage (Slot × Call) where
  init s := calls.init s.k ∧ s.family = (fun _ => 0) ∧ s.origin = (fun _ => 0) ∧ s.next = 1
  step s a := (step s.k a).map fun k =>
    { k := k
      family := familyAfter s.k.view k.view a.1 s.family s.next
      origin := originAfter s.k.view k.view a.1 s.family s.origin
      next := s.next + 1 }

/-- Every live main thread but init has a live parent: init, or a thread of the family that has
forked it. -/
def ParentsRelated (s : Lineage) : Prop :=
  ∀ p, s.k.state p ≠ .UNUSED → s.k.master p = none → p ≠ s.k.initproc →
    ∃ q, s.k.parent p = some q ∧ s.k.state q ≠ .UNUSED ∧
      (q = s.k.initproc ∨ s.family q = s.origin p)

/-! ### The conditions -/

/-- A thread is reclaimed that is still a parent. -/
def Abandons (v v' : View) : Prop :=
  ∃ w p, v.ident w ≠ none ∧ v'.ident w = none ∧ v'.ident p ≠ none ∧ v.parent p = some w

/-- A worker thread becomes a process of its own. -/
def Leaves (v v' : View) : Prop := ∃ t, v'.ident t ≠ none ∧ v.master t ≠ none ∧ v'.master t = none

instance (v v' : View) : Decidable (Abandons v v') := by
  unfold Abandons
  infer_instance

instance (v v' : View) : Decidable (Leaves v v') := by
  unfold Leaves
  infer_instance

/-- The call keeps the thread groups, reclaims no thread that is still a parent, and is not an
`exec` by which a worker thread leaves its group. -/
def KeepsParents (s : Lineage) (a : Slot × Call) : Prop :=
  KeepsGroups s.k a ∧ ∀ k' ∈ step s.k a, ¬Abandons s.k.view k'.view ∧ ¬Leaves s.k.view k'.view

instance (s : Lineage) (a : Slot × Call) : Decidable (KeepsParents s a) := by
  unfold KeepsParents
  infer_instance

/-! ### One step -/

structure Parented (v : View) (family origin : Slot → Nat) : Prop where
  init : v.ident v.init ≠ none ∧ v.master v.init = none ∧ v.parent v.init = none
  related : ∀ p, v.ident p ≠ none → v.master p = none → p ≠ v.init →
    ∃ q, v.parent p = some q ∧ v.ident q ≠ none ∧ (q = v.init ∨ family q = origin p)

/-- Threads behind `cur` in its list are worker threads. -/
theorem Integrity.behind_workers (intact : Integrity v) (used : v.ident cur ≠ none)
    {xs ys : List Slot} (linked : v.threads.Linked (xs ++ cur :: ys)) :
    ∀ w ∈ ys, v.master w ≠ none := by
  obtain ⟨xs', ys', linked', workers⟩ := intact.intact used
  have same : ys = ys' :=
    Links.Seg.unique (Links.seg_append.mp linked).2 (Links.seg_append.mp linked').2
  subst same
  exact fun w member => (workers w member).2

/-- A step that brings no slot into use, lets no worker thread leave and moves children only to
init. -/
theorem Parented.keep (parented : Parented v family origin)
    (used : ∀ p, v'.ident p ≠ none → v.ident p ≠ none) (init : v'.init = v.init)
    (stays : v'.ident v.init ≠ none ∧ v'.master v.init = none)
    (parent : ∀ p, v'.ident p ≠ none →
      v'.parent p = v.parent p ∨ v.parent p ≠ none ∧ v'.parent p = some v.init)
    (kept : ¬Abandons v v') (inside : ¬Leaves v v') :
    Parented v' (familyAfter v v' cur family n) (originAfter v v' cur family origin) := by
  have old : ∀ p, ¬Brought v v' p := fun p brought => used p brought.2 brought.1
  have ownFamily : ∀ p, familyAfter v v' cur family n p = family p := fun p => by
    rw [familyAfter, if_neg (old p)]
  refine ⟨?_, fun p live main other => ?_⟩
  · rw [init]
    refine ⟨stays.1, stays.2, ?_⟩
    rcases parent v.init stays.1 with same | ⟨some, _⟩
    · rw [same]
      exact parented.init.2.2
    · exact absurd parented.init.2.2 some
  · rw [init] at other ⊢
    have was : v.master p = none := by
      by_contra worker
      exact inside ⟨p, live, worker, main⟩
    have ownOrigin : originAfter v v' cur family origin p = origin p := by
      rw [originAfter, if_neg (old p), if_neg (fun left => left.1 was)]
    obtain ⟨q, isParent, liveQ, related⟩ := parented.related p (used p live) was other
    rw [ownOrigin]
    rcases parent p live with same | ⟨_, adopted⟩
    · refine ⟨q, same.trans isParent, fun gone => kept ⟨q, p, liveQ, gone, live, isParent⟩, ?_⟩
      rwa [ownFamily]
    · exact ⟨v.init, adopted, stays.1, .inl rfl⟩

theorem familyAfter_old {p : Slot} (used : v.ident p ≠ none) :
    familyAfter v v' cur family n p = family p :=
  if_neg fun brought => used brought.1

/-- A step that brings `np` into use and leaves the other slots as they are. -/
theorem Parented.bring {np : Slot} (parented : Parented v family origin) (unused : v.ident np = none)
    (others : ∀ p, p ≠ np → v'.ident p = v.ident p ∧ v'.master p = v.master p ∧
      v'.parent p = v.parent p)
    (init : v'.init = v.init)
    (child : v'.ident np ≠ none → v'.master np = none →
      v'.parent np = some cur ∧ v.ident cur ≠ none) :
    Parented v' (familyAfter v v' cur family n) (originAfter v v' cur family origin) := by
  have ne : ∀ {p}, v.ident p ≠ none → p ≠ np := fun used same => used (same ▸ unused)
  have live : ∀ {p}, v.ident p ≠ none → v'.ident p ≠ none := fun used => by
    rwa [(others _ (ne used)).1]
  refine ⟨?_, fun p used main other => ?_⟩
  · obtain ⟨used, main, root⟩ := parented.init
    obtain ⟨_, master, parent⟩ := others v.init (ne used)
    rw [init, master, parent]
    exact ⟨live used, main, root⟩
  · rw [init] at other ⊢
    by_cases new : p = np
    · subst new
      obtain ⟨isChild, usedCur⟩ := child used main
      refine ⟨cur, isChild, live usedCur, .inr ?_⟩
      rw [familyAfter_old usedCur, originAfter, if_pos ⟨unused, used⟩]
    · obtain ⟨ident, master, parent⟩ := others p new
      rw [ident] at used
      rw [master] at main
      obtain ⟨q, isParent, usedQ, related⟩ := parented.related p used main other
      refine ⟨q, parent.trans isParent, live usedQ, ?_⟩
      rw [familyAfter_old usedQ, originAfter, if_neg fun brought => used brought.1,
        if_neg fun left => left.1 main]
      exact related

/-- The slots `ws` are given back; children of the others move only to init. -/
theorem Parented.giveBack (ws : List Slot) (parented : Parented v family origin) (root : v.init ∉ ws)
    (ident : ∀ p, v'.ident p ≠ none ↔ p ∉ ws ∧ v.ident p ≠ none)
    (master : ∀ p, p ∉ ws → v'.master p = v.master p) (init : v'.init = v.init)
    (parent : ∀ p, p ∉ ws →
      v'.parent p = v.parent p ∨ v.parent p ≠ none ∧ v'.parent p = some v.init)
    (kept : ¬Abandons v v') (inside : ¬Leaves v v') :
    Parented v' (familyAfter v v' cur family n) (originAfter v v' cur family origin) :=
  parented.keep (fun p used => ((ident p).mp used).2) init
    ⟨(ident _).mpr ⟨root, parented.init.1⟩, (master _ root).trans parented.init.2.1⟩
    (fun p used => parent p ((ident p).mp used).1) kept inside

theorem View.reclaim_used (v : View) (ws : List Slot) (p : Slot) :
    (ws.foldl View.reclaim v).ident p ≠ none ↔ p ∉ ws ∧ v.ident p ≠ none := by
  rw [(View.reclaim_fields v ws p).1]
  split
  next member => simp [member]
  next out => simp [out]

theorem View.load_used_iff (used : v.ident cur ≠ none) (id : Int × Nat) (p : Slot) :
    (v.load cur id).ident p ≠ none ↔ v.ident p ≠ none := by
  by_cases same : p = cur
  · simpa [View.load, same] using used
  · simp [View.load, same]

/-- **One step.** -/
theorem Effect.parented (effect : Effect v cur act v') (used : v.ident cur ≠ none)
    (intact : Integrity v) (clean : Clean v) (parented : Parented v family origin)
    (placed : ¬Strands v v') (kept : ¬Abandons v v') (inside : ¬Leaves v v') :
    Parented v' (familyAfter v v' cur family n) (originAfter v v' cur family origin) := by
  -- what stands behind `cur` is a worker thread, and init is not
  have init_stays : ∀ {ws : List Slot},
      (∀ xs ys, v.threads.Linked (xs ++ cur :: ys) → ws.Sublist ys) → v.init ∉ ws := by
    intro ws behind member
    obtain ⟨xs, ys, linked, workers⟩ := intact.intact used
    exact (workers _ ((behind xs ys linked).subset member)).2 parented.init.2.1
  cases effect with
  | same =>
    exact parented.giveBack [] (by simp) (by simp) (fun _ _ => rfl) rfl
      (fun _ _ => .inl rfl) kept inside
  | fork np id first =>
    refine parented.bring (View.firstUnused_ident first) (fun p other => ?_) rfl fun _ _ => ?_
    · simp [View.fork, View.embryo, other]
    · exact ⟨by simp [View.fork], used⟩
  | create np _ first =>
    refine parented.bring (View.firstUnused_ident first) (fun p other => ?_) rfl fun _ main => ?_
    · simp [View.create, other]
    · simp [View.create] at main
  | embryo np id first =>
    have unused := View.firstUnused_ident first
    obtain ⟨master, parent⟩ := clean.unused np unused
    exact absurd ⟨np, unused, by simp [View.embryo], parent, master⟩ placed
  | reap ws behind =>
    refine parented.giveBack ws (init_stays behind) (View.reclaim_used v ws) (fun p out => ?_)
      (View.reclaim_init v ws) (fun p out => .inl ?_) kept inside
    · rw [(View.reclaim_fields v ws p).2.2, if_neg out]
    · rw [(View.reclaim_fields v ws p).2.1, if_neg out]
  | exit ws behind =>
    refine parented.giveBack ws (init_stays behind) (View.reclaim_used v ws) (fun p out => ?_)
      (View.reclaim_init v ws) (fun p out => ?_) kept inside
    · exact (View.reclaim_fields v ws p).2.2.trans (if_neg out)
    · have same : (ws.foldl View.reclaim v).parent p = v.parent p :=
        (View.reclaim_fields v ws p).2.1.trans (if_neg out)
      simp only [View.reparent, same, View.reclaim_init]
      split
      next child => exact .inr ⟨by rw [child]; simp, rfl⟩
      · exact .inl rfl
  | dispose c child =>
    have ne : v.init ≠ c := by
      intro same
      rw [← same, parented.init.2.2] at child
      cases child
    refine parented.giveBack [c] (by simpa using ne) (fun p => ?_) (fun _ _ => rfl) rfl
      (fun p out => .inl ?_) kept inside
    · by_cases same : p = c
      · simp [View.dispose, same]
      · simp [View.dispose, same]
    · simp [View.dispose, List.ne_of_not_mem_cons out]
  | exec id xs ys main linked =>
    refine parented.giveBack ys (fun member => ?_) (fun p => ?_) (fun p out => ?_)
      (View.reclaim_init _ ys) (fun p out => .inl ?_) kept inside
    · exact intact.behind_workers used linked _ member parented.init.2.1
    · rw [View.reclaim_used, View.load_used_iff used]
    · exact (View.reclaim_fields _ ys p).2.2.trans (if_neg out)
    · exact (View.reclaim_fields _ ys p).2.1.trans (if_neg out)
  | promote id m p worker ends =>
    exact absurd ⟨cur, by simp [View.promote, View.load], worker, by simp [View.promote]⟩ inside
  | promoteDispose id m p c worker ends child =>
    by_cases self : c = cur
    · -- the old main thread was a child of `cur`, which is gone
      subst self
      have other : p ≠ c := by
        rintro rfl
        exact worker ends.last
      have isParent : v.parent p = some c := by
        simpa [View.promote, View.load, Function.update_of_ne (Ne.symm other)] using child
      refine absurd ⟨c, p, used, by simp [View.dispose], ?_, isParent⟩ kept
      rw [View.dispose_ident other]
      exact (View.load_used_iff used id p).mpr (used_on intact clean used ends.on_last)
    · refine absurd ⟨cur, ?_, worker, by simp [View.dispose, View.promote]⟩ inside
      rw [View.dispose_ident (Ne.symm self)]
      simp [View.promote, View.load]

/-! ### Whole runs -/

theorem lineage_of_run (ok : Lineage → Slot × Call → Prop) [∀ s a, Decidable (ok s a)]
    (free : List Nat) (labels : List (Slot × Call)) {P : Lineage → Bool}
    (ran : ((userinit free).toOption.bind fun k =>
      lineage.exec ok labels { k, family := fun _ => 0, origin := fun _ => 0, next := 1 }).any P = true) :
    ∃ s, lineage.Reach ok s ∧ P s = true := by
  cases booted : userinit free with
  | error why => simp [booted, Except.toOption] at ran
  | ok k =>
    simp only [booted, Except.toOption, Option.bind_some] at ran
    exact System.Reach.of_exec (S := lineage) ok labels ⟨⟨free, booted⟩, rfl, rfl, rfl⟩ ran

end Xv6.Proc
