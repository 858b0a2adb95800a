import Xv6.Sched.Queue

/-!
# Merging the levels

`priorityboost` moves the headers 2 and 1, so that the nodes of the three levels follow one another between
the headers 0 and 1. The second loop resets the nodes, but passes over those of level 1.
-/

namespace Xv6.Sched

open Function (update)
open Proc Steps
open Mlfq (headerNode)

variable {q q' : Mlfq} {l : Levels} {m h t : Node} {xs ys zs : List Node}

/-! ### The headers -/

theorem moveHeader_linked {i : Fin 3} (linked : q.links.Linked (xs ++ h :: (ys ++ t :: zs)))
    (header : q.headers i.castSucc = some h) (next : q.headers i.succ = some t) :
    ∃ links, q.moveHeader i = .ok { q with links := links } ∧ links.Linked (xs ++ ys ++ h :: t :: zs) := by
  have fresh : h ∉ xs ++ (ys ++ t :: zs) := (List.nodup_cons.mp (List.nodup_middle.mp linked.nodup)).1
  have removed := linked.remove
  rw [← List.append_assoc] at removed fresh
  refine ⟨(q.links.remove h).insertBefore t h, ?_, removed.insertBefore fresh⟩
  have next' : (q.remove h).headers i.succ = some t := next
  simp only [Mlfq.moveHeader, header, Mlfq.insertBeforeHeader, next']
  rfl

/-- All nodes in front of the last three headers. -/
def merged (l : Levels) : List Node :=
  headerNode 0 :: (l 0 ++ l 1 ++ l 2) ++ [headerNode 1, headerNode 2, headerNode 3]

theorem moveHeaders (laid : Laid q l) : ∃ q₁ links, q.moveHeader 2 = .ok q₁ ∧
    q₁.moveHeader 1 = .ok { q with links := links } ∧ links.Linked (merged l) := by
  have split : layout l = (headerNode 0 :: (l 0 ++ headerNode 1 :: l 1)) ++ headerNode 2 :: (l 2 ++ headerNode 3 :: []) := by
    simp [layout]
  have linked := laid.linked
  rw [split] at linked
  obtain ⟨links₁, moved₁, linked₁⟩ := moveHeader_linked (i := 2) linked (laid.headers 2) (laid.headers 3)
  -- now header 1 has the nodes of the levels 1 and 2 behind it
  have split₁ : headerNode 0 :: (l 0 ++ headerNode 1 :: l 1) ++ l 2 ++ headerNode 2 :: headerNode 3 :: [] =
      (headerNode 0 :: l 0) ++ headerNode 1 :: (l 1 ++ l 2 ++ headerNode 2 :: [headerNode 3]) := by simp
  rw [split₁] at linked₁
  obtain ⟨links₂, moved₂, linked₂⟩ := moveHeader_linked (q := { q with links := links₁ }) (i := 1) linked₁
    (laid.headers 1) (laid.headers 2)
  refine ⟨_, links₂, moved₁, moved₂, ?_⟩
  simpa [merged] using linked₂

/-! ### The nodes -/

/-- The nodes that the second loop resets. -/
def reset (q : Mlfq) (ns : List Node) (m : Node) : Prop := m ∈ ns ∧ q.state m = .used ∧ q.level m ≠ 1

instance (q : Mlfq) (ns : List Node) (m : Node) : Decidable (reset q ns m) := by
  unfold reset
  infer_instance

/-- A node that is reset by the first round would be reset by a later one to the same values. -/
theorem reset_cons {n : Node} {ns : List Node} (hit : q.state n = .used ∧ q.level n ≠ 1) :
    (if reset { q with level := update q.level n 0, execTime := update q.execTime n 0 } ns m then 0 else update q.level n 0 m) =
        (if reset q (n :: ns) m then 0 else q.level m) ∧
      (if reset { q with level := update q.level n 0, execTime := update q.execTime n 0 } ns m then 0
        else update q.execTime n 0 m) = if reset q (n :: ns) m then 0 else q.execTime m := by
  by_cases here : m = n
  · subst here
    rw [if_pos (show reset q (m :: ns) m from ⟨List.mem_cons_self, hit⟩), if_pos (show reset q (m :: ns) m from ⟨List.mem_cons_self, hit⟩)]
    simp
  · have same : reset { q with level := update q.level n 0, execTime := update q.execTime n 0 } ns m ↔ reset q (n :: ns) m := by
      simp [reset, here]
    simp [same, here]

theorem boostLoop_eq : ∀ {rounds : Nat} {ns : List Node} {q : Mlfq} {x : Option Node}, ns.length ≤ rounds →
    q.links.Seg x ns none → Mlfq.boostLoop rounds ns.head? q = .ok
      { q with
        level := fun m => if reset q ns m then 0 else q.level m
        execTime := fun m => if reset q ns m then 0 else q.execTime m } := by
  intro rounds ns
  induction ns generalizing rounds with
  | nil =>
    intro q x _ _
    simp [reset, Mlfq.boostLoop]
  | cons n ns ih =>
    intro q x enough seg
    obtain ⟨rounds, rfl⟩ : ∃ r, rounds = r + 1 := ⟨rounds - 1, by simp at enough; omega⟩
    obtain ⟨_, next, rest⟩ := seg
    have enough : ns.length ≤ rounds := by simpa using enough
    have next : q.links.next n = ns.head? := by simpa using next
    rw [List.head?_cons, Mlfq.boostLoop, next]
    by_cases hit : q.state n = .used ∧ q.level n ≠ 1
    · have loop := ih (q := { q with level := update q.level n 0, execTime := update q.execTime n 0 }) enough rest
      rw [if_pos hit, loop]
      simp only [Except.ok.injEq, Mlfq.mk.injEq, true_and, and_true]
      exact ⟨funext fun m => (reset_cons hit).1, funext fun m => (reset_cons hit).2⟩
    · rw [if_neg hit, ih enough rest]
      have same : ∀ m, reset q ns m ↔ reset q (n :: ns) m := by
        intro m
        refine ⟨fun is => ⟨List.mem_cons_of_mem n is.1, is.2⟩, fun is => ⟨?_, is.2⟩⟩
        rcases List.mem_cons.mp is.1 with rfl | member
        · exact absurd is.2 hit
        · exact member
      simp only [same]

/-! ### `priorityboost` -/

/-- The nodes stand in one level in the order of their levels, and all are at its start. -/
structure Boosted (l : Levels) (q : Mlfq) : Prop where
  headers : ∀ i, q.headers i = some (headerNode i)
  linked : q.links.Linked (merged l)
  level : ∀ i, ∀ m ∈ l i, q.level m = 0
  execTime : ∀ i, ∀ m ∈ l i, q.execTime m = 0

theorem mem_merged {i : Fin 3} (member : m ∈ l i) : m ∈ merged l := by
  fin_cases i <;> simp_all [merged]

/-- What `priorityboost` does to a well-formed queue. -/
theorem priorityboost_eq (laid : Laid q l) : ∃ links, links.Linked (merged l) ∧ q.priorityboost = .ok
    { q with
      links := links
      level := fun m => if reset q (merged l) m then 0 else q.level m
      execTime := fun m => if reset q (merged l) m then 0 else q.execTime m } := by
  obtain ⟨q₁, links, moved₁, moved₂, linked⟩ := moveHeaders laid
  refine ⟨links, linked, ?_⟩
  have enough : (merged l).length ≤ NPROC + 4 := by simpa using linked.nodup.length_le_card
  rw [Mlfq.priorityboost, laid.headers 0]
  refine (ok_bind moved₁).trans ((ok_bind moved₂).trans ?_)
  change Mlfq.boostLoop _ (q.headers 0) { q with links := links } = _
  rw [laid.headers 0]
  exact boostLoop_eq (q := { q with links := links }) enough linked

/-- **The boost.** The lists are always merged, and all nodes are reset exactly if no node is on level 1. -/
theorem priorityboost_merges_iff (laid : Laid q l) : ∃ q', q.priorityboost = .ok q' ∧
    (∀ i, q'.headers i = some (headerNode i)) ∧ q'.links.Linked (merged l) ∧ (Boosted l q' ↔ l 1 = []) := by
  obtain ⟨links, linked, ran⟩ := priorityboost_eq laid
  refine ⟨_, ran, laid.headers, linked, ?_⟩
  have level : ∀ {i : Fin 3} {m : Node}, m ∈ l i → (reset q (merged l) m ↔ i ≠ 1) := by
    intro i m member
    simp [reset, mem_merged member, laid.used i m member, laid.level i m member]
  constructor
  · intro boosted
    by_contra some_
    obtain ⟨m, member⟩ := List.exists_mem_of_ne_nil _ some_
    have zero := boosted.level 1 m member
    dsimp only at zero
    rw [if_neg (by simp [level member]), laid.level 1 m member] at zero
    cases zero
  · intro none_
    have all : ∀ i, ∀ m ∈ l i, reset q (merged l) m := by
      intro i m member
      refine (level member).mpr ?_
      rintro rfl
      rw [none_] at member
      cases member
    exact ⟨laid.headers, linked, fun i m member => if_pos (all i m member), fun i m member => if_pos (all i m member)⟩

/-- The queue after `initmlfq`. -/
def bare : Mlfq := Mlfq.init
  { links := { next := fun _ => none, prev := fun _ => none }, self := fun _ => none, state := fun _ => .unused
    level := fun _ => 0, execTime := fun _ => 0, headers := fun _ => none, highpr := none, sliceCnt := 0, tickCnt := 0
    allottime := fun _ => 0, slice := fun _ => 0, path := 0, stride := 0 }

/-- One node, which has run for two ticks on level `i`. -/
def single (i : Fin 3) : Mlfq :=
  { bare.insertBefore (headerNode i.succ) 0 with
    state := update bare.state 0 .used, level := update bare.level 0 i, execTime := update bare.execTime 0 2 }

theorem single_laid (i : Fin 3) : Laid (single i) fun j => if j = i then [0] else [] := by
  have node : ∀ {j : Fin 3} {m : Node}, m ∈ (if j = i then [(0 : Node)] else []) → j = i ∧ m = 0 := by
    intro j m member
    split at member
    · exact ⟨‹_›, by simpa using member⟩
    · cases member
  have empty : bare.links.Linked (layout fun _ => []) := ⟨rfl, rfl, rfl, rfl, rfl, rfl, rfl, rfl, trivial⟩
  refine ⟨fun _ => rfl, by decide +revert, ?_, fun j m member => ?_, fun j m member => ?_⟩
  · exact linked_insert empty (by decide) i
  · obtain ⟨rfl, rfl⟩ := node member
    rfl
  · obtain ⟨rfl, rfl⟩ := node member
    rfl

/-- A node of level 2. -/
theorem priorityboost_merges_iff_single : ∃ q', (single 2).priorityboost = .ok q' ∧
    q'.links.Linked [headerNode 0, 0, headerNode 1, headerNode 2, headerNode 3] ∧ q'.level 0 = 0 ∧ q'.execTime 0 = 0 := by
  obtain ⟨q', ran, _, linked, iff⟩ := priorityboost_merges_iff (single_laid 2)
  have boosted := iff.mpr rfl
  exact ⟨q', ran, linked, boosted.level 2 0 (by simp), boosted.execTime 2 0 (by simp)⟩

/-- A node of level 1 stays there, in front of header 1, with the time it has used. -/
theorem priorityboost_keeps_level_one : ∃ q', (single 1).priorityboost = .ok q' ∧ Laid (single 1) (fun j => if j = 1 then [0] else []) ∧
    q'.level 0 = 1 ∧ q'.execTime 0 = 2 := by
  obtain ⟨links, _, ran⟩ := priorityboost_eq (single_laid 1)
  have passed : ¬reset (single 1) (merged fun j => if j = 1 then [0] else []) 0 := by decide
  refine ⟨_, ran, single_laid 1, ?_, ?_⟩
  · dsimp only
    rw [if_neg passed]
    rfl
  · dsimp only
    rw [if_neg passed]
    rfl

end Xv6.Sched
