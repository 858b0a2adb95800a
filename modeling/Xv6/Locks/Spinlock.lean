import Mathlib.Data.List.Nodup
import Xv6.Lib.System

/-!
# Spin locks: `spinlock.c`

Any number of CPUs and locks. `xchg` and each assignment to a lock is a step of its own, so that other CPUs come
in between. The locks that a CPU has acquired and not begun to release are kept beside the state.
-/

namespace Xv6.Spin

open Function (update)

/-- `struct cpu`, and the flag `FL_IF` of the processor. -/
structure Cpu where
  ncli : Nat
  intena : Bool
  interrupts : Bool

def pushcli (c : Cpu) : Cpu where
  ncli := c.ncli + 1
  intena := if c.ncli = 0 then c.interrupts else c.intena
  interrupts := false

/-- `none` is one of the two panics. -/
def popcli (c : Cpu) : Option Cpu :=
  if c.interrupts ∨ c.ncli = 0 then none
  else some { c with ncli := c.ncli - 1, interrupts := c.ncli - 1 = 0 && c.intena }

/-- Where a CPU stands: before an `xchg`, before the assignment to `lk->cpu` in `acquire`, or before the one to
`lk->locked` in `release`. -/
inductive Point (L : Type) where
  | out
  | spinning (l : L)
  | won (l : L)
  | leaving (l : L)

structure Machine (C L : Type) where
  locked : L → Bool
  cpu : L → Option C
  cpus : C → Cpu
  point : C → Point L

inductive Event (L : Type) where
  | acquire (l : L)
  | release (l : L)
  /-- the CPU goes on in `acquire` or `release` -/
  | next
  /-- `sti` or `cli` outside of all locks -/
  | enable (on : Bool)

variable {C L : Type} [DecidableEq C] [DecidableEq L]

/-- `holding`; its `pushcli` and `popcli` cancel, since the callers have interrupts off. -/
def holding (s : Machine C L) (c : C) (l : L) : Bool := s.locked l && s.cpu l == some c

def goOn (s : Machine C L) (c : C) : Point L → Option (Machine C L)
  | .out => none
  | .spinning l =>
    if s.locked l then some s
    else some { s with locked := update s.locked l true, point := update s.point c (.won l) }
  | .won l => some { s with cpu := update s.cpu l (some c), point := update s.point c .out }
  | .leaving l => (popcli (s.cpus c)).map fun cpu =>
    { s with locked := update s.locked l false, cpus := update s.cpus c cpu, point := update s.point c .out }

def step (s : Machine C L) (c : C) : Event L → Option (Machine C L)
  | .acquire l =>
    match s.point c with
    | .out =>
      if holding s c l then none
      else some { s with cpus := update s.cpus c (pushcli (s.cpus c)), point := update s.point c (.spinning l) }
    | _ => none
  | .release l =>
    match s.point c with
    | .out =>
      if holding s c l then some { s with cpu := update s.cpu l none, point := update s.point c (.leaving l) }
      else none
    | _ => none
  | .next => goOn s c (s.point c)
  | .enable on =>
    if (s.cpus c).ncli = 0 then some { s with cpus := update s.cpus c { s.cpus c with interrupts := on } } else none

/-- The locks of the CPU after a step. -/
def taken (held : List L) : Point L → Event L → List L
  | .won l, .next => l :: held
  | _, .release l => held.erase l
  | _, _ => held

def spinlocks (C L : Type) [DecidableEq C] [DecidableEq L] : System (Machine C L × (C → List L)) (C × Event L) where
  init s := (∀ l, s.1.locked l = false ∧ s.1.cpu l = none) ∧
    ∀ c, (s.1.cpus c).ncli = 0 ∧ s.1.point c = .out ∧ s.2 c = []
  step s e := (step s.1 e.1 e.2).map fun t => (t, update s.2 e.1 (taken (s.2 e.1) (s.1.point e.1) e.2))

/-- The lock that the CPU is about to get or to lose. -/
def Point.target : Point L → List L
  | .won l | .leaving l => [l]
  | _ => []

/-- One for the lock inside `acquire` or `release`. -/
def Point.count : Point L → Nat
  | .out => 0
  | _ => 1

structure Exclusive (s : Machine C L) (held : C → List L) : Prop where
  nodup : ∀ c, ((s.point c).target ++ held c).Nodup
  locked : ∀ c, ∀ l ∈ (s.point c).target ++ held c, s.locked l = true
  alone : ∀ c c', ∀ l ∈ (s.point c).target ++ held c, l ∈ (s.point c').target ++ held c' → c = c'
  cpu : ∀ c l, s.cpu l = some c ↔ l ∈ held c
  count : ∀ c, (s.cpus c).ncli = (held c).length + (s.point c).count
  off : ∀ c, 0 < (s.cpus c).ncli → (s.cpus c).interrupts = false

variable {s t : Machine C L} {held : C → List L} {c : C} {e : Event L}

omit [DecidableEq L] in
theorem Exclusive.holding_iff (inv : Exclusive s held) (c : C) (l : L) :
    holding s c l = true ↔ l ∈ held c := by
  have locked := inv.locked c l
  have cpu := inv.cpu c l
  grind [holding]

theorem Exclusive.step (inv : Exclusive s held) (ran : step s c e = some t) : Exclusive t (update held c (taken (held c) (s.point c) e)) := by
  have holds := inv.holding_iff c
  obtain ⟨nodup, locked, alone, cpu, count, off⟩ := inv
  have here := nodup c
  cases e with
  | acquire l =>
    cases point : s.point c <;> simp only [Spin.step, point] at ran <;> try cases ran
    split at ran <;> cases ran
    simp only [taken, Function.update_eq_self]
    constructor <;> grind [Function.update_apply, Point.target, Point.count, pushcli]
  | release l =>
    cases point : s.point c <;> simp only [Spin.step, point] at ran <;> try cases ran
    split at ran <;> cases ran
    simp only [taken]
    constructor <;> grind [Function.update_apply, Point.target, Point.count]
  | next =>
    simp only [Spin.step] at ran
    cases point : s.point c with
    | out => simp [point, goOn] at ran
    | spinning l =>
      simp only [point, goOn] at ran
      split at ran <;> cases ran
      · simp only [taken, Function.update_eq_self]
        exact ⟨nodup, locked, alone, cpu, count, off⟩
      · -- nobody owns a lock that is not locked
        simp only [taken, Function.update_eq_self]
        constructor <;> grind [Function.update_apply, Point.target, Point.count]
    | won l =>
      rw [point, goOn] at ran
      cases ran
      simp only [taken]
      constructor <;> grind [Function.update_apply, Point.target, Point.count]
    | leaving l =>
      rw [point, goOn] at ran
      obtain ⟨cpu', popped, rfl⟩ := Option.map_eq_some_iff.mp ran
      simp only [taken, Function.update_eq_self]
      constructor <;> grind [Function.update_apply, Point.target, Point.count, popcli]
  | enable on =>
    obtain ⟨none, same⟩ := Option.ite_none_right_eq_some.mp ran
    cases same
    have same : taken (held c) (s.point c) (.enable on) = held c := by
      cases s.point c <;> rfl
    rw [same, Function.update_eq_self]
    constructor <;> grind [Function.update_apply]

/-- **Mutual exclusion.** A lock has one CPU, `holding` knows it, its interrupts are off, and `release` gets
through `popcli`. -/
theorem spinlocks_exclude (reach : (spinlocks C L).Reach System.Any (s, held)) :
    (∀ c c' l, l ∈ held c → l ∈ held c' → c = c') ∧ (∀ c l, holding s c l = true ↔ l ∈ held c) ∧
      (∀ c, held c ≠ [] → (s.cpus c).interrupts = false) ∧
      ∀ c l, s.point c = .leaving l → (goOn s c (.leaving l)).isSome := by
  have inv : Exclusive s held := by
    refine reach.invariant (P := fun s => Exclusive s.1 s.2) ?_ fun s e t inv _ ran => ?_
    · rintro s ⟨free, fresh⟩
      constructor <;> grind [Point.target, Point.count]
    · obtain ⟨t, stepped, rfl⟩ := Option.map_eq_some_iff.mp ran
      exact inv.step stepped
  refine ⟨fun c c' l mine other => ?_, inv.holding_iff, fun c some => ?_, fun c l leaving => ?_⟩
  · exact inv.alone c c' l (List.mem_append_right _ mine) (List.mem_append_right _ other)
  · have count := inv.count c
    have long := List.length_pos_of_ne_nil some
    exact inv.off c (by omega)
  · have count := inv.count c
    simp only [leaving, Point.count] at count
    have off := inv.off c (by omega)
    simp [goOn, popcli, off, count]

def boot : Machine (Fin 2) Unit where
  locked _ := false
  cpu _ := none
  cpus _ := { ncli := 0, intena := false, interrupts := true }
  point _ := .out

/-- The first CPU has the lock and the second one spins. -/
theorem spinlocks_exclude_spinning : ∃ s held, (spinlocks (Fin 2) Unit).Reach System.Any (s, held) ∧ held 0 = [()] ∧
    (s.cpus 1).ncli = 1 ∧ holding s 0 () = true ∧ (s.cpus 0).interrupts = false := by
  obtain ⟨⟨s, held⟩, reach, seen⟩ := System.Reach.of_exec (S := spinlocks (Fin 2) Unit) System.Any
    [(0, .acquire ()), (0, .next), (1, .acquire ()), (1, .next), (0, .next)] (s := (boot, fun _ => []))
    ⟨fun _ => ⟨rfl, rfl⟩, fun _ => ⟨rfl, rfl, rfl⟩⟩
    (P := fun s => s.2 0 = [()] ∧ (s.1.cpus 1).ncli = 1) (by decide +kernel)
  obtain ⟨mine, spins⟩ := of_decide_eq_true seen
  dsimp only at mine spins
  obtain ⟨-, exact_, off, -⟩ := spinlocks_exclude reach
  exact ⟨s, held, reach, mine, spins, (exact_ 0 ()).mpr (by simp [mine]), off 0 (by simp [mine])⟩

end Xv6.Spin
