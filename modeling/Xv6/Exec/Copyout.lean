import Xv6.Exec.Model
import Xv6.Vm.Resize

/-!
# `copyout` with the bytes it copies

Here `copyout` also stores the bytes, through the frames that `uva2ka` finds, up to the first address without
a page for the user. There it returns -1, unless there is no page table.
-/

namespace Xv6.Exec.Contents

open Function (update)
open Bytes (Byte)
open Proc Regions Steps Vm

variable {m : Memory} {r r' : Ram} {pgdir va : Nat} {bytes : List Byte}

/-! ### The code -/

/-- `uva2ka`: the frame it finds. -/
def uva2ka (m : Memory) (pgdir uva : Nat) : Except Stop (Option Nat) :=
  if uva < KERNBASE then
    match walkpgdir m pgdir uva false with
    | none => .error .null
    | some m => .ok (((m.pte pgdir uva).filter Pte.user).map Pte.frame)
  else if uva < KERNBASE + PHYSTOP ∨ DEVSPACE ≤ uva then .ok none
  else .error .null

/-- `memmove(frame + off, bytes, n)` -/
def memmove (r : Ram) (frame off : Nat) (bytes : List Byte) : Ram :=
  { r with
    data := update r.data frame (patch (r.data frame) off (off + bytes.length) fun o => bytes.getD (o - off) 0) }

/-- The loop of `copyout`, with a bound on the rounds left; `false` is the return value -1. -/
def copyLoop (pgdir : Nat) : Nat → Nat → List Byte → Ram → Except Stop (Bool × Ram)
  | 0, _, bytes, r => if bytes.length = 0 then .ok (true, r) else .error .loop
  | rounds + 1, va, bytes, r =>
    if bytes.length = 0 then .ok (true, r)
    else do
      let va0 := PGROUNDDOWN va
      match ← uva2ka r.mem pgdir va0 with
      | none => .ok (false, r)
      | some frame =>
        let n := min (PGSIZE - (va - va0)) bytes.length
        copyLoop pgdir rounds (uint32 (va0 + PGSIZE)) (bytes.drop n) (memmove r frame (va - va0) (bytes.take n))

def copyout (r : Ram) (pgdir va : Nat) (bytes : List Byte) : Except Stop (Bool × Ram) :=
  copyLoop pgdir (bytes.length / PGSIZE + 2) va bytes r

/-! ### Byte by byte -/

/-- Address `a` is on a page that is there for the user. -/
def Accessible (m : Memory) (pgdir a : Nat) : Prop :=
  a < KERNBASE ∧ ∃ pte, m.entry pgdir (a / PGSIZE) = some pte ∧ pte.user = true

/-- The page directory has an entry for address `a`. -/
def Walkable (m : Memory) (pgdir a : Nat) : Prop :=
  if a < KERNBASE then (m.dirs pgdir).tables (a / PGSIZE / 1024) ≠ none else a < KERNBASE + PHYSTOP ∨ DEVSPACE ≤ a

/-- The byte at address `a`, through the page table. -/
def poke (r : Ram) (pgdir a : Nat) (b : Byte) : Ram :=
  match r.mem.entry pgdir (a / PGSIZE) with
  | none => r
  | some pte => { r with data := update r.data pte.frame (update (r.data pte.frame) (a % PGSIZE) b) }

/-- The bytes from address `a` on, one after another. -/
def pokes (r : Ram) (pgdir a : Nat) : List Byte → Ram
  | [] => r
  | b :: rest => pokes (poke r pgdir a b) pgdir (a + 1) rest

theorem poke_mem (r : Ram) (pgdir a : Nat) (b : Byte) : (poke r pgdir a b).mem = r.mem := by
  unfold poke
  split
  · rfl
  · rfl

theorem pokes_mem : ∀ (bytes : List Byte) (r : Ram) (a : Nat), (pokes r pgdir a bytes).mem = r.mem := by
  intro bytes
  induction bytes with
  | nil => exact fun r a => rfl
  | cons b rest ih => exact fun r a => (ih _ _).trans (poke_mem ..)

theorem pokes_append : ∀ (first second : List Byte) (r : Ram) (a : Nat),
    pokes r pgdir a (first ++ second) = pokes (pokes r pgdir a first) pgdir (a + first.length) second := by
  intro first second
  induction first with
  | nil => exact fun r a => rfl
  | cons b rest ih =>
    intro r a
    simp only [List.cons_append, pokes, List.length_cons]
    rw [ih, Nat.add_right_comm, Nat.add_assoc]

theorem memmove_nil (r : Ram) (frame off : Nat) : memmove r frame off [] = r := by
  simp [memmove]

theorem memmove_cons (r : Ram) (frame off : Nat) (b : Byte) (rest : List Byte) :
    memmove { r with data := update r.data frame (update (r.data frame) off b) } frame (off + 1) rest =
      memmove r frame off (b :: rest) := by
  unfold memmove
  simp only [Function.update_idem, Function.update_self]
  congr 2
  funext o
  by_cases first : o = off
  · subst first
    rw [patch_outside (.inl (by omega)), patch_inside le_rfl (by simp), Function.update_self, Nat.sub_self]
    rfl
  · simp only [patch, Function.update_of_ne first, List.length_cons]
    by_cases above : off + 1 ≤ o
    · have back : o - off = o - (off + 1) + 1 := by omega
      rw [back, List.getD_cons_succ]
      grind
    · rw [if_neg (by omega), if_neg (by omega)]

/-- Within a page the bytes go where `memmove` puts them. -/
theorem pokes_page {pte : Pte} : ∀ (bytes : List Byte) (r : Ram) (va : Nat), va % PGSIZE + bytes.length ≤ PGSIZE →
    r.mem.entry pgdir (va / PGSIZE) = some pte → pokes r pgdir va bytes = memmove r pte.frame (va % PGSIZE) bytes := by
  intro bytes
  induction bytes with
  | nil => exact fun r va _ _ => (memmove_nil ..).symm
  | cons b rest ih =>
    intro r va inside found
    rw [List.length_cons] at inside
    rw [pokes, poke, found, ← memmove_cons]
    -- the next address is on the page as well, unless this was the last byte
    cases rest with
    | nil => exact (memmove_nil ..).symm
    | cons b' rest =>
      have place : (va + 1) / PGSIZE = va / PGSIZE ∧ (va + 1) % PGSIZE = va % PGSIZE + 1 := by
        simp only [PGSIZE, List.length_cons] at inside ⊢
        omega
      rw [← place.2]
      refine ih _ _ (by omega) ?_
      rw [place.1]
      exact found

/-! ### Where it stops -/

theorem uva2ka_eq (m : Memory) (pgdir i : Nat) (user : i * PGSIZE < KERNBASE) :
    uva2ka m pgdir (i * PGSIZE) =
      if (m.dirs pgdir).tables (i / 1024) = none then .error .null
      else .ok (((m.entry pgdir i).filter Pte.user).map Pte.frame) := by
  rw [uva2ka, if_pos user]
  unfold walkpgdir
  rw [PDX_page]
  cases (m.dirs pgdir).tables (i / 1024) with
  | none => rfl
  | some table => rfl

/-- How the loop ends: all bytes are stored, or the first address that the user cannot reach stops it. -/
inductive Ends (pgdir va : Nat) (bytes : List Byte) (r : Ram) : Except Stop (Bool × Ram) → Prop
  | all (reach : ∀ j < bytes.length, Accessible r.mem pgdir (va + j)) : Ends pgdir va bytes r (.ok (true, pokes r pgdir va bytes))
  | refused {k : Nat} (inside : k < bytes.length) (reach : ∀ j < k, Accessible r.mem pgdir (va + j))
    (stop : ¬Accessible r.mem pgdir (va + k)) (walk : Walkable r.mem pgdir (va + k)) :
    Ends pgdir va bytes r (.ok (false, pokes r pgdir va (bytes.take k)))
  | null {k : Nat} (inside : k < bytes.length) (reach : ∀ j < k, Accessible r.mem pgdir (va + j))
    (stop : ¬Walkable r.mem pgdir (va + k)) : Ends pgdir va bytes r (.error .null)

namespace Ends

theorem nil : Ends pgdir va [] r (.ok (true, r)) := all nofun

theorem append {x : Except Stop (Bool × Ram)} {first second : List Byte}
    (reach : ∀ j < first.length, Accessible r.mem pgdir (va + j))
    (rest : Ends pgdir (va + first.length) second (pokes r pgdir va first) x) : Ends pgdir va (first ++ second) r x := by
  have both : ∀ k, (∀ j < k, Accessible r.mem pgdir (va + first.length + j)) →
      ∀ j < first.length + k, Accessible r.mem pgdir (va + j) := by
    intro k more j inside
    by_cases early : j < first.length
    · exact reach j early
    · have last := more (j - first.length) (by omega)
      rwa [show va + first.length + (j - first.length) = va + j by omega] at last
  cases rest with
  | all more =>
    rw [pokes_mem] at more
    rw [← pokes_append]
    exact all fun j inside => both _ more j (by rwa [List.length_append] at inside)
  | @refused k inside more stop walk =>
    rw [pokes_mem, Nat.add_assoc] at stop walk
    rw [pokes_mem] at more
    rw [← pokes_append, ← List.take_length_add_append]
    refine refused (by rw [List.length_append]; omega) (both _ more) stop walk
  | @null k inside more stop =>
    rw [pokes_mem, Nat.add_assoc] at stop
    rw [pokes_mem] at more
    exact null (by rw [List.length_append]; omega) (both _ more) stop

end Ends

theorem Accessible.walkable (reach : Accessible m pgdir va) : Walkable m pgdir va := by
  obtain ⟨user, pte, found, -⟩ := reach
  rw [Walkable, if_pos user]
  intro missing
  rw [entry_eq, missing] at found
  cases found

theorem copyLoop_nil (pgdir rounds va : Nat) (r : Ram) : copyLoop pgdir rounds va [] r = .ok (true, r) := by
  cases rounds with
  | zero => rfl
  | succ rounds => rfl

theorem reach_page {pte : Pte} {j : Nat} (user : va < KERNBASE) (found : m.entry pgdir (va / PGSIZE) = some pte)
    (allowed : pte.user = true) (inside : va % PGSIZE + j < PGSIZE) : Accessible m pgdir (va + j) := by
  have same : (va + j) / PGSIZE = va / PGSIZE := by
    simp only [PGSIZE] at inside ⊢
    omega
  refine ⟨?_, pte, by rw [same]; exact found, allowed⟩
  simp only [KERNBASE, PGSIZE] at user inside ⊢
  omega

theorem copyLoop_ends : ∀ (rounds va : Nat) (bytes : List Byte) (r : Ram),
    va % PGSIZE + bytes.length ≤ rounds * PGSIZE → Ends pgdir va bytes r (copyLoop pgdir rounds va bytes r) := by
  intro rounds
  induction rounds with
  | zero =>
    intro va bytes r enough
    obtain rfl : bytes = [] := List.length_eq_zero_iff.mp (by omega)
    exact .nil
  | succ rounds ih =>
    intro va bytes r enough
    simp only [copyLoop]
    by_cases empty : bytes.length = 0
    · obtain rfl : bytes = [] := List.length_eq_zero_iff.mp empty
      exact .nil
    have start : PGROUNDDOWN va = va / PGSIZE * PGSIZE := rfl
    have some : 0 < bytes.length := Nat.pos_of_ne_zero empty
    rw [if_neg empty, start]
    by_cases user : va < KERNBASE
    · have down : va / PGSIZE * PGSIZE < KERNBASE := Nat.lt_of_le_of_lt (Nat.div_mul_le_self _ _) user
      have walk : Walkable r.mem pgdir (va + 0) ↔ (r.mem.dirs pgdir).tables (va / PGSIZE / 1024) ≠ none := by
        rw [Nat.add_zero, Walkable, if_pos user]
      rw [uva2ka_eq _ _ _ down]
      by_cases table : (r.mem.dirs pgdir).tables (va / PGSIZE / 1024) = none
      · rw [if_pos table]
        exact .null some nofun fun walkable => walk.mp walkable table
      rw [if_neg table]
      cases found : (r.mem.entry pgdir (va / PGSIZE)).filter Pte.user with
      | none =>
        refine .refused (k := 0) some nofun (fun reached => ?_) (walk.mpr table)
        obtain ⟨-, pte, here, allowed⟩ := reached
        rw [Nat.add_zero] at here
        simp [here, allowed] at found
      | some pte =>
        obtain ⟨here, allowed⟩ := Option.filter_eq_some_iff.mp found
        have offset : va - va / PGSIZE * PGSIZE = va % PGSIZE := by
          simp only [PGSIZE]
          omega
        simp only [Option.map_some]
        rw [offset]
        generalize count : min (PGSIZE - va % PGSIZE) bytes.length = n
        have within : (bytes.take n).length = n := by
          rw [List.length_take]
          omega
        have fits : va % PGSIZE + n ≤ PGSIZE := by
          have below : va % PGSIZE < PGSIZE := Nat.mod_lt _ (by decide)
          omega
        have rest : Ends pgdir (va + (bytes.take n).length) (bytes.drop n) (pokes r pgdir va (bytes.take n))
            (copyLoop pgdir rounds (uint32 (va / PGSIZE * PGSIZE + PGSIZE)) (bytes.drop n)
              (memmove r pte.frame (va % PGSIZE) (bytes.take n))) := by
          rw [← pokes_page _ r va (by omega) here, within]
          by_cases last : bytes.length ≤ n
          · rw [List.drop_of_length_le last, copyLoop_nil]
            exact .nil
          · -- the next round starts at the next page
            have next : uint32 (va / PGSIZE * PGSIZE + PGSIZE) = va + n := by
              simp only [uint32, PGSIZE, KERNBASE] at *
              omega
            rw [next]
            refine ih _ _ _ ?_
            rw [List.length_drop]
            simp only [PGSIZE] at *
            omega
        have whole := Ends.append (fun j inside => reach_page user here allowed (by omega)) rest
        rwa [List.take_append_drop] at whole
    · have up : ¬va / PGSIZE * PGSIZE < KERNBASE := by
        simp only [PGSIZE, KERNBASE] at user ⊢
        omega
      have same : (va / PGSIZE * PGSIZE < KERNBASE + PHYSTOP ∨ DEVSPACE ≤ va / PGSIZE * PGSIZE) ↔
          Walkable r.mem pgdir (va + 0) := by
        rw [Nat.add_zero, Walkable, if_neg user]
        simp only [PGSIZE, KERNBASE, PHYSTOP, DEVSPACE]
        omega
      rw [uva2ka, if_neg up]
      by_cases walk : va / PGSIZE * PGSIZE < KERNBASE + PHYSTOP ∨ DEVSPACE ≤ va / PGSIZE * PGSIZE
      · rw [if_pos walk]
        exact .refused (k := 0) some nofun (fun reached => user reached.1) (same.mp walk)
      · rw [if_neg walk]
        exact .null (k := 0) some nofun fun walkable => walk (same.mpr walkable)

theorem copyout_ends (r : Ram) (pgdir va : Nat) (bytes : List Byte) : Ends pgdir va bytes r (copyout r pgdir va bytes) := by
  refine copyLoop_ends _ _ _ _ ?_
  simp only [PGSIZE]
  omega

/-! ### `copyout` is confined -/

/-- `copyout` returns, and has stored bytes only at the addresses it was given, through pages for the
user; all of them unless it returns -1. -/
def Confined (r : Ram) (pgdir va : Nat) (bytes : List Byte) : Prop :=
  ∃ copied k, k ≤ bytes.length ∧ copyout r pgdir va bytes = .ok (copied, pokes r pgdir va (bytes.take k)) ∧
    (∀ j < k, Accessible r.mem pgdir (va + j)) ∧ (copied = true → k = bytes.length)

/-- `copyout` is confined unless it comes to an address without a page table. -/
theorem copyout_confined_iff (r : Ram) (pgdir va : Nat) (bytes : List Byte) :
    Confined r pgdir va bytes ↔
      ∀ k < bytes.length, (∀ j < k, Accessible r.mem pgdir (va + j)) → Walkable r.mem pgdir (va + k) := by
  have ends := copyout_ends r pgdir va bytes
  generalize ran : copyout r pgdir va bytes = x at ends
  constructor
  · rintro ⟨copied, _, -, returned, -⟩ k inside before
    cases ends with
    | all reach => exact (reach k inside).walkable
    | @refused k' _ reach stop walk =>
      -- `k'` is the first address that cannot be reached
      rcases Nat.lt_trichotomy k k' with early | rfl | late
      · exact (reach k early).walkable
      · exact walk
      · exact absurd (before k' late) stop
    | null =>
      rw [ran] at returned
      cases returned
  · intro walkable
    cases ends with
    | all reach => exact ⟨true, bytes.length, le_rfl, by rw [ran, List.take_length], reach, fun _ => rfl⟩
    | @refused k inside reach stop walk => exact ⟨false, k, inside.le, ran, reach, nofun⟩
    | @null k inside reach stop => exact absurd (walkable k inside reach) stop

/-- The stack pointer after an argument of 128 MB has wrapped below the new image. -/
theorem copyout_reads_null :
    copyout Ram.onePage 5 (uint32 (2 * PGSIZE - 2 ^ 27)) [0] = .error .null ∧
      ¬Confined Ram.onePage 5 (uint32 (2 * PGSIZE - 2 ^ 27)) [0] := by
  have ran : copyout Ram.onePage 5 (uint32 (2 * PGSIZE - 2 ^ 27)) [0] = .error .null := by rfl
  refine ⟨ran, ?_⟩
  rintro ⟨copied, k, -, returned, -⟩
  rw [ran] at returned
  cases returned

end Xv6.Exec.Contents
