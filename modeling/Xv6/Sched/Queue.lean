import Mathlib.Tactic.FinCases
import Xv6.Lib.Linked
import Xv6.Lib.Steps
import Xv6.Proc.Sched

/-!
# Three levels in one list

The MLFQ nodes form one doubly linked list that begins with `headers[0]`. The nodes of level
`i` stand between `headers[i]` and `headers[i + 1]`. `Laid q l` says that the list of `q` holds
the nodes `l i` on level `i`.
-/

namespace Xv6.Sched

open Function (update)
open Proc Steps
open Mlfq (headerNode)

/-- The nodes of each level. -/
abbrev Levels := Fin 3 → List Node

/-- The whole list. -/
def layout (l : Levels) : List Node :=
  headerNode 0 :: (l 0 ++ headerNode 1 :: (l 1 ++ headerNode 2 :: (l 2 ++ [headerNode 3])))

variable {q q' : Mlfq} {l : Levels} {m n : Node} {i j : Fin 3}

structure Laid (q : Mlfq) (l : Levels) : Prop where
  headers : ∀ i, q.headers i = some (headerNode i)
  header : ∀ i, q.state (headerNode i) = .header
  linked : q.links.Linked (layout l)
  used : ∀ i, ∀ m ∈ l i, q.state m = .used
  level : ∀ i, ∀ m ∈ l i, q.level m = i

namespace Laid

end Laid

/-! ### Moving a node -/

theorem linked_insert {s : Links Node} (linked : s.Linked (layout l)) (fresh : m ∉ layout l) (j : Fin 3) :
    (s.insertBefore (headerNode j.succ) m).Linked (layout fun t => l t ++ if t = j then [m] else []) := by
  -- the header splits the list
  fin_cases j
  · have split : layout l = (headerNode 0 :: l 0) ++ headerNode 1 :: (l 1 ++ headerNode 2 :: (l 2 ++ [headerNode 3])) := by
      simp [layout]
    rw [split] at linked fresh
    simpa [layout] using linked.insertBefore fresh
  · have split : layout l = (headerNode 0 :: (l 0 ++ headerNode 1 :: l 1)) ++
        headerNode 2 :: (l 2 ++ [headerNode 3]) := by simp [layout]
    rw [split] at linked fresh
    simpa [layout] using linked.insertBefore fresh
  · have split : layout l = (headerNode 0 :: (l 0 ++ headerNode 1 :: (l 1 ++ headerNode 2 :: l 2))) ++
        headerNode 3 :: [] := by simp [layout]
    rw [split] at linked fresh
    simpa [layout] using linked.insertBefore fresh

end Xv6.Sched
