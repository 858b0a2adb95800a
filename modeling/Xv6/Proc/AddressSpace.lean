import Xv6.Vm.Mapping

/-!
# The address space of a process

The user half of an address space as its threads share it: a size, two-page stack regions and the pages.
In a sound address space the size and the regions determine which pages are mapped, and which of them the
user has no access to: the lowest page of a stack in use.
-/

namespace Xv6.Proc

open Function (update)
open Regions Vm

/-- To whom a stack region belongs. -/
inductive Owner (τ : Type) where
  | exec
  | thread (t : τ)
  | empty (i : Nat)
  deriving DecidableEq

/-- The region is a stack in use. -/
def Owner.InUse {τ : Type} : Owner τ → Prop
  | .exec | .thread _ => True
  | .empty _ => False

structure Space (τ : Type) where
  sz : Nat
  /-- where the regions begin -/
  base : Owner τ → Option Nat
  page : Nat → Option Bool

namespace Space

variable {τ : Type} {s s' : Space τ} {i c newsz : Nat} {o : Owner τ} {t : τ}

/-- The page lies in an empty region. -/
def Spare (s : Space τ) (i : Nat) : Prop :=
  ∃ j b, s.base (.empty j) = some b ∧ b ≤ i * PGSIZE ∧ i * PGSIZE < b + 2 * PGSIZE

/-- The page is the lowest one of a stack in use. -/
def Guard (s : Space τ) (i : Nat) : Prop :=
  ∃ o, o.InUse ∧ s.base o = some (i * PGSIZE)

structure Sound (s : Space τ) : Prop where
  packed : Packed PGSIZE (2 * PGSIZE) s.sz s.base
  user : s.sz < KERNBASE
  mapped : ∀ i, s.page i ≠ none ↔ i * PGSIZE < s.sz ∧ ¬s.Spare i
  access : ∀ i u, s.page i = some u → (u = false ↔ s.Guard i)

/-- Page number `c` and the next one become a stack. -/
def stackPages (page : Nat → Option Bool) (c : Nat) : Nat → Option Bool :=
  update (fill page c (c + 2) (some true)) c (some false)

theorem stackPages_outside {page : Nat → Option Bool} (out : i < c ∨ c + 2 ≤ i) :
    stackPages page c i = page i := by
  rw [stackPages, Function.update_of_ne (by omega), fill_outside out]

/-- An address inside the region that begins with page `c`. -/
theorem inside_iff : c * PGSIZE ≤ i * PGSIZE ∧ i * PGSIZE < c * PGSIZE + 2 * PGSIZE ↔
    c ≤ i ∧ i < c + 2 := by
  simp only [PGSIZE]
  omega

theorem Sound.unmapped (sound : s.Sound) (above : pages s.sz ≤ i) : s.page i = none := by
  by_contra found
  have := lt_pages.mpr ((sound.mapped i).mp found).1
  omega

/-! ### Moving the size -/

theorem Sound.grow (sound : s.Sound) (order : s.sz ≤ newsz) (user : newsz < KERNBASE) :
    Sound { s with
      sz := newsz
      page := fill s.page (pages s.sz) (pages newsz) (some true) } := by
  have packed := sound.packed.resize fun o b found => (sound.packed.below o b found).trans order
  have low : ∀ i, s.Spare i ∨ s.Guard i → i < pages s.sz := by
    rintro i (⟨j, b, found, _, inside⟩ | guard)
    · exact lt_pages.mpr (inside.trans_le (sound.packed.below _ b found))
    · obtain ⟨o, _, found⟩ := guard
      have := sound.packed.below o _ found
      exact lt_pages.mpr (by simp only [PGSIZE] at this ⊢; omega)
  refine ⟨packed, user, fun i => ?_, fun i u found => ?_⟩
  · by_cases inside : pages s.sz ≤ i ∧ i < pages newsz
    · simp only [fill_inside inside.1 inside.2]
      refine iff_of_true (by simp) ⟨lt_pages.mp inside.2, fun spare => ?_⟩
      have := low i (.inl spare)
      omega
    · simp only [fill_outside (f := s.page) (x := some true) (by omega :
        i < pages s.sz ∨ pages newsz ≤ i), sound.mapped]
      have : i * PGSIZE < newsz ↔ i * PGSIZE < s.sz := by
        rw [← lt_pages, ← lt_pages]
        have : pages s.sz ≤ pages newsz := Nat.div_le_div_right (by omega)
        omega
      rw [this]
      rfl
  · by_cases inside : pages s.sz ≤ i ∧ i < pages newsz
    · simp only [fill_inside inside.1 inside.2, Option.some.injEq] at found
      subst found
      refine iff_of_false (by simp) fun guard => ?_
      have := low i (.inr guard)
      omega
    · simp only [fill_outside (f := s.page) (x := some true) (by omega :
        i < pages s.sz ∨ pages newsz ≤ i)] at found
      exact sound.access i u found

theorem Sound.shrink (sound : s.Sound) (order : newsz ≤ s.sz)
    (above : ∀ o b, s.base o = some b → b + 2 * PGSIZE ≤ newsz) :
    Sound { s with sz := newsz, page := fill s.page (pages newsz) (pages s.sz) none } := by
  refine ⟨sound.packed.resize above, order.trans_lt sound.user, fun i => ?_, fun i u found => ?_⟩
  · by_cases inside : pages newsz ≤ i ∧ i < pages s.sz
    · simp only [fill_inside inside.1 inside.2]
      refine iff_of_false (by simp) fun ⟨low, _⟩ => ?_
      have := lt_pages.mpr low
      omega
    · simp only [fill_outside (f := s.page) (x := none) (by omega :
        i < pages newsz ∨ pages s.sz ≤ i), sound.mapped]
      have : i * PGSIZE < newsz ↔ i * PGSIZE < s.sz := by
        rw [← lt_pages, ← lt_pages]
        have : pages newsz ≤ pages s.sz := Nat.div_le_div_right (by omega)
        omega
      rw [this]
      rfl
  · by_cases inside : pages newsz ≤ i ∧ i < pages s.sz
    · simp only [fill_inside inside.1 inside.2] at found
      cases found
    · simp only [fill_outside (f := s.page) (x := none) (by omega :
        i < pages newsz ∨ pages s.sz ≤ i)] at found
      exact sound.access i u found

theorem Sound.fill_above (sound : s.Sound) (hi : Nat) :
    fill s.page (pages s.sz) hi none = s.page := by
  funext i
  by_cases inside : pages s.sz ≤ i ∧ i < hi
  · rw [fill_inside inside.1 inside.2, sound.unmapped inside.1]
  · exact fill_outside (by omega)

/-! ### Changing one region -/

/-- A change of the region that begins with page `c`: what is not in it stays as it is. -/
theorem Sound.change (sound : s.Sound) (c : Nat)
    (packed : Packed PGSIZE (2 * PGSIZE) s'.sz s'.base) (user : s'.sz < KERNBASE)
    (beside : Beside (c * PGSIZE) s.base s'.base)
    (size : ∀ i, i < c ∨ c + 2 ≤ i → (i * PGSIZE < s'.sz ↔ i * PGSIZE < s.sz))
    (page : ∀ i, i < c ∨ c + 2 ≤ i → s'.page i = s.page i)
    (inside : ∀ i, c ≤ i → i < c + 2 → (s'.page i ≠ none ↔ i * PGSIZE < s'.sz ∧ ¬s'.Spare i) ∧
      ∀ u, s'.page i = some u → (u = false ↔ s'.Guard i)) : s'.Sound := by
  have spare : ∀ i, i < c ∨ c + 2 ≤ i → (s'.Spare i ↔ s.Spare i) := by
    intro i out
    constructor
    · rintro ⟨j, b, found, covers⟩
      rcases beside.2 _ b found with kept | rfl
      · exact ⟨j, b, kept, covers⟩
      · have := inside_iff.mp covers
        omega
    · rintro ⟨j, b, found, covers⟩
      rcases beside.1 _ b found with kept | rfl
      · exact ⟨j, b, kept, covers⟩
      · have := inside_iff.mp covers
        omega
  have first : ∀ i, i < c ∨ c + 2 ≤ i → i * PGSIZE ≠ c * PGSIZE := by
    intro i out
    simp only [PGSIZE]
    omega
  have guard : ∀ i, i < c ∨ c + 2 ≤ i → (s'.Guard i ↔ s.Guard i) := by
    intro i out
    have at_owner : ∀ o, s'.base o = some (i * PGSIZE) ↔ s.base o = some (i * PGSIZE) := fun o =>
      ⟨fun found => (beside.2 o _ found).resolve_right (first i out),
        fun found => (beside.1 o _ found).resolve_right (first i out)⟩
    simp only [Guard, at_owner]
  refine ⟨packed, user, fun i => ?_, fun i u found => ?_⟩
  · by_cases out : i < c ∨ c + 2 ≤ i
    · rw [page i out, size i out, spare i out, sound.mapped]
    · exact (inside i (by omega) (by omega)).1
  · by_cases out : i < c ∨ c + 2 ≤ i
    · rw [page i out] at found
      rw [guard i out, sound.access i u found]
    · exact (inside i (by omega) (by omega)).2 u found

theorem stack_inside (inUse : o.InUse) (packed : Packed PGSIZE (2 * PGSIZE) s'.sz s'.base)
    (found : s'.base o = some (c * PGSIZE))
    (page : ∀ i, s'.page i = stackPages s.page c i) (above : c ≤ i) (below : i < c + 2) :
    (s'.page i ≠ none ↔ i * PGSIZE < s'.sz ∧ ¬s'.Spare i) ∧
      ∀ u, s'.page i = some u → (u = false ↔ s'.Guard i) := by
  have covers := inside_iff.mpr ⟨above, below⟩
  have under := packed.below _ _ found
  have low : i * PGSIZE < s'.sz := by omega
  have busy : ¬s'.Spare i := by
    rintro ⟨j, b, empty, inside⟩
    rw [packed.owner_unique found empty covers inside] at inUse
    exact inUse
  rw [page i]
  by_cases first : i = c
  · subst first
    simp only [stackPages, Function.update_self, Option.some.injEq]
    refine ⟨iff_of_true (by simp) ⟨low, busy⟩, fun u same => ?_⟩
    exact iff_of_true same.symm ⟨o, inUse, found⟩
  · simp only [stackPages, Function.update_of_ne first, fill_inside above below, Option.some.injEq]
    refine ⟨iff_of_true (by simp) ⟨low, busy⟩, fun u same => ?_⟩
    refine iff_of_false (by simp [← same]) fun guard => ?_
    -- a stack that began here would overlap the one of `o`
    obtain ⟨q, _, here⟩ := guard
    have same : q = o := packed.owner_unique here found (by simp only [PGSIZE]; omega) covers
    rw [same, found] at here
    have := Option.some.inj here
    simp only [PGSIZE] at this
    omega

theorem sound_program (user : c * PGSIZE < KERNBASE) :
    Sound { sz := c * PGSIZE
            base := fun _ : Owner τ => none
            page := fill (fun _ => none) 0 c (some true) } := by
  refine ⟨⟨fun _ _ => nofun, fun _ _ => nofun, fun _ _ _ _ _ => nofun⟩, user, fun i => ?_,
    fun i u found => ?_⟩
  · have free : ¬Spare { sz := c * PGSIZE
                         base := fun _ : Owner τ => none
                         page := fill (fun _ => none) 0 c (some true) } i := fun ⟨_, _, found, _⟩ =>
      nomatch found
    rw [← lt_pages, pages_mul]
    by_cases inside : i < c
    · exact iff_of_true (by simp [fill, inside]) ⟨inside, free⟩
    · exact iff_of_false (by simp [fill, inside]) fun both => inside both.1
  · have mapped : u = true := by
      simp only [fill] at found
      split at found
      · exact (Option.some.inj found).symm
      · cases found
    refine iff_of_false (by simp [mapped]) ?_
    rintro ⟨_, _, found⟩
    cases found

variable [DecidableEq τ]

theorem Sound.carve (sound : s.Sound) (inUse : o.InUse) (aligned : s.sz = c * PGSIZE)
    (user : s.sz + 2 * PGSIZE < KERNBASE) (fresh : s.base o = none) :
    Sound { sz := s.sz + 2 * PGSIZE
            base := update s.base o (some (c * PGSIZE))
            page := stackPages s.page c } := by
  have packed := sound.packed.place (o := o) ⟨c, by rw [aligned, Nat.mul_comm]⟩
  rw [aligned] at packed
  refine sound.change c (by rwa [aligned]) user (.add fresh) (fun i out => ?_)
    (fun i out => stackPages_outside out) fun i above below => ?_
  · rw [aligned]
    simp only [PGSIZE]
    omega
  · exact stack_inside (s := s) inUse (by rwa [aligned]) (Function.update_self ..)
      (fun _ => rfl) above below

theorem Sound.recycle (sound : s.Sound) {j : Nat} (empty : s.base (.empty j) = some (c * PGSIZE))
    (fresh : s.base (.thread t) = none) :
    Sound { s with
      base := update (update s.base (.empty j) none) (.thread t) (some (c * PGSIZE))
      page := stackPages s.page c } := by
  have packed : Regions.Packed PGSIZE (2 * PGSIZE) s.sz
      (update (update s.base (.empty j) none) (.thread t) (some (c * PGSIZE))) := sound.packed.pass empty
  refine sound.change c packed sound.user (.pass empty fresh) (fun _ _ => Iff.rfl)
    (fun i out => stackPages_outside out) fun i above below => ?_
  exact stack_inside (s := s) (o := .thread t) trivial packed (Function.update_self ..) (fun _ => rfl)
    above below

theorem Sound.release (sound : s.Sound) {j : Nat} (found : s.base (.thread t) = some (c * PGSIZE))
    (free : s.base (.empty j) = none) :
    Sound { s with
      base := update (update s.base (.thread t) none) (.empty j) (some (c * PGSIZE))
      page := fill s.page c (c + 2) none } := by
  refine sound.change c (sound.packed.pass found) sound.user (.pass found free)
    (fun _ _ => Iff.rfl) (fun i out => fill_outside out) fun i above below => ?_
  simp only [fill_inside above below]
  refine ⟨iff_of_false (by simp) fun ⟨_, busy⟩ => busy ?_, fun u none => by cases none⟩
  exact ⟨j, c * PGSIZE, Function.update_self .., inside_iff.mpr ⟨above, below⟩⟩

theorem Sound.trim (sound : s.Sound) (found : s.base (.thread t) = some (c * PGSIZE))
    (last : s.sz ≤ c * PGSIZE + 2 * PGSIZE) :
    Sound { sz := s.sz - 2 * PGSIZE
            base := update s.base (.thread t) none
            page := fill s.page c (c + 2) none } := by
  have top : s.sz = c * PGSIZE + 2 * PGSIZE := le_antisymm last (sound.packed.below _ _ found)
  refine sound.change c (sound.packed.trim found last) ((Nat.sub_le ..).trans_lt sound.user)
    (.drop found) (fun i out => ?_) (fun i out => fill_outside out) fun i above below => ?_
  · rw [top]
    simp only [PGSIZE]
    omega
  · simp only [fill_inside above below]
    refine ⟨iff_of_false (by simp) fun mapped => ?_, fun u none => by cases none⟩
    have low := mapped.1
    rw [top] at low
    simp only [PGSIZE] at low
    omega

end Space

end Xv6.Proc
