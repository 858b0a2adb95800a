import Mathlib.Data.List.Nodup
import Xv6.Vm.Contents

/-!
# Growing and shrinking a user address space

`deallocuvm` jumps over ranges without a page table; it does the same as the loop over all pages. `allocuvm`
maps fresh, zeroed frames, or gives back what it had mapped.
-/

namespace Xv6.Vm

open Function (update)
open Regions Steps

variable {m m' : Memory} {r r' : Ram} {pgdir oldsz newsz sz i n : Nat}

/-! ### Frames of pages and frames of page tables -/

/-- The frames of the page tables of a directory. -/
def dirTables (dir : PageDir) : Multiset Nat := (userTables dir ++ dir.kernel : List Nat)

/-- A failed call that leaves the same pages has taken frames for page tables only. -/
theorem Moves.tables (moved : Moves pgdir 0 m m') (same : m'.entry pgdir = m.entry pgdir) :
    (m'.free : Multiset Nat) + dirTables (m'.dirs pgdir) = m.free + dirTables (m.dirs pgdir) := by
  have held := moved.held
  rw [zero_add, Memory.held, Memory.held, dirFrames_eq, dirFrames_eq, same, Multiset.add_cons, Multiset.add_cons,
    Multiset.cons_inj_right, ← add_assoc, ← add_assoc] at held
  exact add_right_cancel held

/-! ### `deallocuvm` -/

/-- One round of the loop over all pages. -/
def Ram.unmap (pgdir : Nat) (r : Ram) (i : Nat) : Except Stop Ram :=
  match r.mem.entry pgdir i with
  | none => .ok r
  | some pte =>
    if pte.frame = 0 then .error (.panic .kfree)
    else .ok ((r.kfree pte.frame).setPte pgdir (i * PGSIZE) none)

/-- The loop over the pages from `i` on, one after another. -/
def Ram.unmapPages (pgdir i n : Nat) (r : Ram) : Except Stop Ram := (List.range' i n).foldlM (Ram.unmap pgdir) r

namespace Ram

theorem unmapPages_succ (pgdir i n : Nat) (r : Ram) :
    unmapPages pgdir i (n + 1) r = unmap pgdir r i >>= unmapPages pgdir (i + 1) n := by
  rw [unmapPages, List.range'_succ, List.foldlM_cons]
  rfl

theorem unmapPages_absent : ∀ {n i : Nat}, (∀ j, i ≤ j → j < i + n → r.mem.entry pgdir j = none) →
    unmapPages pgdir i n r = .ok r := by
  intro n
  induction n with
  | zero => exact fun _ => rfl
  | succ n ih =>
    intro i absent
    have first : unmap pgdir r i = .ok r := by rw [unmap, absent i le_rfl (by omega)]
    rw [unmapPages_succ, ok_bind first]
    exact ih fun j above below => absent j (by omega) (by omega)

theorem unmapPages_add (pgdir i n k : Nat) (r : Ram) :
    unmapPages pgdir i (n + k) r = unmapPages pgdir i n r >>= unmapPages pgdir (i + n) k := by
  rw [unmapPages, ← List.range'_append_1, List.foldlM_append]
  rfl

/-- The loop of `deallocuvm` from a page on. The rounds that jump over absent page tables do what the
rounds over their pages do. -/
theorem deallocLoop_eq : ∀ {rounds i : Nat} {r : Ram}, pages oldsz ≤ i + rounds →
    deallocLoop pgdir oldsz rounds (i * PGSIZE) r = unmapPages pgdir i (pages oldsz - i) r := by
  intro rounds
  induction rounds with
  | zero =>
    intro i r enough
    rw [Nat.add_zero] at enough
    rw [Nat.sub_eq_zero_of_le enough]
    rfl
  | succ rounds ih =>
    intro i r enough
    simp only [deallocLoop]
    by_cases inside : i * PGSIZE < oldsz
    · have below : i < pages oldsz := lt_pages.mpr inside
      have count : pages oldsz - i = pages oldsz - (i + 1) + 1 := by omega
      rw [if_pos inside]
      cases walked : walkpgdir r.mem pgdir (i * PGSIZE) false with
      | none =>
        -- the jump lands on the first page of the next table
        have jump : (PDX (i * PGSIZE) + 1) * (1024 * PGSIZE) = (i / 1024 + 1) * 1024 * PGSIZE := by
          rw [PDX_page, Nat.mul_assoc]
        have absent : ∀ j, i ≤ j → j < (i / 1024 + 1) * 1024 → r.mem.entry pgdir j = none := by
          intro j above before
          have same : j / 1024 = i / 1024 := by omega
          rw [entry_eq, same, walkpgdir_none walked]
          rfl
        simp only
        rw [jump, ih (by omega)]
        by_cases last : pages oldsz ≤ (i / 1024 + 1) * 1024
        · rw [Nat.sub_eq_zero_of_le last, unmapPages_absent fun j above before => absent j above (by omega)]
          rfl
        · have split : pages oldsz - i = ((i / 1024 + 1) * 1024 - i) + (pages oldsz - (i / 1024 + 1) * 1024) := by omega
          have reach : i + ((i / 1024 + 1) * 1024 - i) = (i / 1024 + 1) * 1024 := by omega
          rw [split, unmapPages_add, ok_bind (unmapPages_absent fun j above before => absent j above (by omega)), reach]
      | some m =>
        simp only
        rw [next_page, count, unmapPages_succ, unmap, Memory.entry]
        cases r.mem.pte pgdir (i * PGSIZE) with
        | none => exact ih (by omega)
        | some pte =>
          by_cases null : pte.frame = 0
          · simp only [null, if_true]
            rfl
          · simp only [null, if_false]
            exact ih (by omega)
    · have past : pages oldsz ≤ i := Nat.le_of_not_lt fun below => inside (lt_pages.mp below)
      rw [if_neg inside, Nat.sub_eq_zero_of_le past]
      rfl

/-- `deallocuvm` is the loop over all pages. -/
theorem deallocuvm_eq (r : Ram) (pgdir : Nat) (smaller : newsz < oldsz) :
    r.deallocuvm pgdir oldsz newsz =
      (unmapPages pgdir (pages newsz) (pages oldsz - pages newsz) r).map (newsz, ·) := by
  have enough : pages oldsz ≤ pages newsz + ((oldsz - pages newsz * PGSIZE) / PGSIZE + 1) := by
    simp only [pages, PGSIZE]
    omega
  rw [deallocuvm, if_neg (by omega)]
  simp only
  rw [PGROUNDUP_eq, deallocLoop_eq enough]
  cases unmapPages pgdir (pages newsz) (pages oldsz - pages newsz) r <;> rfl

/-- The frames of the pages that are there, lowest page first. -/
def present (r : Ram) (pgdir i n : Nat) : List Nat :=
  (List.range' i n).filterMap fun j => (r.mem.entry pgdir j).map Pte.frame

theorem mem_present {f : Nat} : f ∈ r.present pgdir i n ↔
    ∃ j pte, i ≤ j ∧ j < i + n ∧ r.mem.entry pgdir j = some pte ∧ pte.frame = f := by
  simp only [present, List.mem_filterMap, List.mem_range'_1, Option.map_eq_some_iff]
  constructor
  · rintro ⟨j, ⟨above, below⟩, pte, found, frame⟩
    exact ⟨j, pte, above, below, found, frame⟩
  · rintro ⟨j, pte, above, below, found, frame⟩
    exact ⟨j, ⟨above, below⟩, pte, found, frame⟩

theorem present_succ (r : Ram) (pgdir i n : Nat) :
    r.present pgdir i (n + 1) = ((r.mem.entry pgdir i).map Pte.frame).toList ++ r.present pgdir (i + 1) n := by
  cases found : r.mem.entry pgdir i with
  | none => simp [present, List.range'_succ, found]
  | some pte => simp [present, List.range'_succ, found]

theorem unmap_ok {r₁ : Ram} (ran : unmap pgdir r i = .ok r₁) :
    r₁.mem.entry = update r.mem.entry pgdir (update (r.mem.entry pgdir) i none) ∧
      r₁.mem.free = ((r.mem.entry pgdir i).map Pte.frame).toList ++ r.mem.free ∧
      ∀ f, (r.mem.entry pgdir i).map Pte.frame ≠ some f → r₁.data f = r.data f := by
  unfold unmap at ran
  split at ran
  next absent =>
    cases ran
    refine ⟨?_, by simp [absent], fun _ _ => rfl⟩
    rw [← absent, Function.update_eq_self, Function.update_eq_self]
  next pte found =>
    split at ran
    · cases ran
    · cases ran
      have table : (r.mem.dirs pgdir).tables (i / 1024) ≠ none := by
        intro missing
        rw [entry_eq, missing] at found
        cases found
      refine ⟨entry_setPte (m := Vm.kfree r.mem pte.frame) table, ?_, fun f other => ?_⟩
      · rw [found]
        exact setPte_free (Vm.kfree r.mem pte.frame) none
      · rw [found, Option.map_some, Ne, Option.some.injEq] at other
        exact Function.update_of_ne (Ne.symm other) _ _

theorem unmap_present {r₁ : Ram} (ran : unmap pgdir r i = .ok r₁) : r₁.present pgdir (i + 1) n = r.present pgdir (i + 1) n := by
  refine List.filterMap_congr fun j inside => ?_
  rw [List.mem_range'_1] at inside
  rw [(unmap_ok ran).1, Function.update_self, Function.update_of_ne (by omega)]

/-- The loop over all pages frees the pages that are there and changes the contents of no other
frame. -/
theorem unmapPages_ok : ∀ {n i : Nat} {r : Ram}, unmapPages pgdir i n r = .ok r' →
    r'.mem.free = (r.present pgdir i n).reverse ++ r.mem.free ∧ ∀ f, f ∉ r.present pgdir i n → r'.data f = r.data f := by
  intro n
  induction n with
  | zero =>
    intro i r ran
    cases ran
    exact ⟨rfl, fun _ _ => rfl⟩
  | succ n ih =>
    intro i r ran
    rw [unmapPages_succ] at ran
    obtain ⟨r₁, first, ran⟩ := bind_ok ran
    obtain ⟨-, free, data⟩ := unmap_ok first
    obtain ⟨free', data'⟩ := ih ran
    rw [unmap_present first] at free' data'
    rw [present_succ]
    refine ⟨?_, fun f absent => ?_⟩
    · rw [free', free]
      cases (r.mem.entry pgdir i).map Pte.frame <;> simp
    · rw [List.mem_append, not_or, Option.mem_toList] at absent
      rw [data' f absent.2, data f absent.1]

theorem unmapPages_returns : ∀ {n i : Nat} {r : Ram}, 0 ∉ r.present pgdir i n → ∃ r', unmapPages pgdir i n r = .ok r' := by
  intro n
  induction n with
  | zero => exact fun _ => ⟨_, rfl⟩
  | succ n ih =>
    intro i r real
    rw [present_succ, List.mem_append, not_or, Option.mem_toList] at real
    have first : ∃ r₁, unmap pgdir r i = .ok r₁ := by
      unfold unmap
      split
      · exact ⟨_, rfl⟩
      next pte found =>
        rw [found] at real
        exact ⟨_, if_neg fun null => real.1 (congrArg some null)⟩
    obtain ⟨r₁, first⟩ := first
    rw [unmapPages_succ, ok_bind first]
    exact ih (by rw [unmap_present first]; exact real.2)

theorem deallocuvm_data {f : Nat} (ran : r.deallocuvm pgdir oldsz newsz = .ok (sz, r'))
    (unmapped : f ∉ r.present pgdir (pages newsz) (pages oldsz - pages newsz)) : r'.data f = r.data f := by
  by_cases smaller : newsz < oldsz
  · rw [deallocuvm_eq r pgdir smaller] at ran
    obtain ⟨r₁, loop, same⟩ := map_eq_ok ran
    cases same
    exact (unmapPages_ok loop).2 f unmapped
  · rw [deallocuvm, if_pos (by omega)] at ran
    cases ran
    rfl

theorem deallocuvm_returns (real : 0 ∉ r.present pgdir (pages newsz) (pages oldsz - pages newsz)) :
    ∃ sz r', r.deallocuvm pgdir oldsz newsz = .ok (sz, r') := by
  by_cases smaller : newsz < oldsz
  · obtain ⟨r', ran⟩ := unmapPages_returns real
    rw [deallocuvm_eq r pgdir smaller, ran]
    exact ⟨newsz, r', rfl⟩
  · exact ⟨oldsz, r, if_pos (by omega)⟩

/-! ### `allocuvm` -/

theorem tables_ok {α : Type} {x : Except Stop (α × Ram)} {y : Except Stop (α × Memory)} {a : α} (same : tables x = y)
    (ran : x = .ok (a, r)) : y = .ok (a, r.mem) := by
  rw [← same, ran]
  rfl

theorem mappages_ok {va frame : Nat} {writable user mapped : Bool}
    (ran : r.mappages pgdir va PGSIZE frame writable user = .ok (mapped, r')) :
    Vm.mappages r.mem pgdir va PGSIZE frame writable user = .ok (mapped, r'.mem) ∧ r'.data = r.data := by
  obtain ⟨⟨mapped', m⟩, mapping, ran⟩ := bind_ok ran
  cases ran
  exact ⟨mapping, rfl⟩

theorem mapped_present (lo n : Nat) {f frame : Nat} {writable user mapped : Bool}
    (entry : r'.mem.entry = if mapped then
      update r.mem.entry pgdir (update (r.mem.entry pgdir) i (some { frame, writable, user })) else r.mem.entry)
    (other : f ≠ frame) (unmapped : f ∉ r.present pgdir lo n) : f ∉ r'.present pgdir lo n := by
  intro present
  obtain ⟨j, pte, above, below, found, rfl⟩ := mem_present.mp present
  refine unmapped (mem_present.mpr ⟨j, pte, above, below, ?_, rfl⟩)
  rw [entry] at found
  split at found
  · rw [Function.update_self] at found
    by_cases new : j = i
    · rw [new, Function.update_self] at found
      cases found
      exact absurd rfl other
    · rwa [Function.update_of_ne new] at found
  · exact found

theorem mappages_returns (frame : Nat) (writable user : Bool) (missing : r.mem.entry pgdir i = none) :
    ∃ mapped r', r.mappages pgdir (i * PGSIZE) PGSIZE frame writable user = .ok (mapped, r') := by
  rw [mappages, mappages_one]
  split
  · exact ⟨false, r, rfl⟩
  next m walked =>
    rw [(walkpgdir_entry walked).1, missing]
    exact ⟨true, _, rfl⟩

/-- A failed `allocuvm` has unmapped all pages above the old size. -/
theorem allocLoop_undone {rounds j : Nat} (ran : allocLoop pgdir oldsz newsz rounds (i * PGSIZE) r = .ok (0, r'))
    (above : pages oldsz ≤ i) (reached : i + rounds = pages newsz) (from_ : pages oldsz ≤ j) (before : j < pages newsz) :
    r'.mem.entry pgdir j = none := by
  rcases allocLoop_entry (tables_ok (allocLoop_mem ..) ran) above reached with ⟨rfl, -⟩ | ⟨-, entry⟩
  · exact absurd (lt_pages.mp before) (Nat.not_lt_zero _)
  · rw [entry, Function.update_self, fill_inside from_ before]

/-- Which frames `allocuvm` writes to: those it takes, and, when it fails, those of the pages above the
old size. What it maps is zero. -/
theorem allocLoop_data : ∀ {rounds i sz : Nat} {r : Ram}, r.mem.free.Nodup →
    allocLoop pgdir oldsz newsz rounds (i * PGSIZE) r = .ok (sz, r') → pages oldsz ≤ i → i + rounds = pages newsz →
    (∀ f, f ∉ r.mem.free → (sz = 0 → f ∉ r.present pgdir (pages oldsz) (pages newsz - pages oldsz)) →
      r'.data f = r.data f) ∧
      ∀ j pte, i ≤ j → j < pages newsz → r'.mem.entry pgdir j = some pte → r'.data pte.frame = fun _ => 0 := by
  intro rounds
  induction rounds with
  | zero =>
    intro i sz r nodup ran above reached
    cases ran
    exact ⟨fun _ _ _ => rfl, fun j pte from_ before => by omega⟩
  | succ rounds ih =>
    intro i sz r nodup ran above reached
    have whole := ran
    simp only [allocLoop] at ran
    split at ran
    · obtain ⟨⟨sz', r₁⟩, undone, ran⟩ := bind_ok ran
      cases ran
      refine ⟨fun f _ unmapped => deallocuvm_data undone (unmapped rfl), fun j pte from_ before found => ?_⟩
      rw [allocLoop_undone whole above reached (by omega) before] at found
      cases found
    next mem m taken =>
      have free := kalloc_free taken
      rw [free, List.nodup_cons] at nodup
      obtain ⟨⟨mapped, r₂⟩, mapping, ran⟩ := bind_ok ran
      obtain ⟨mapping, data⟩ := mappages_ok mapping
      have entry := mappages_entry mapping
      have left := mappages_free mapping
      simp only [memset] at entry left data
      rw [entry_congr (kalloc_dirs taken)] at entry
      have kept : ∀ f, f ∉ r.mem.free → r₂.data f = r.data f := by
        intro f used
        rw [data, Function.update_of_ne]
        rintro rfl
        exact used (free ▸ List.mem_cons_self)
      -- a frame that was not free is not the one that may have been mapped
      have absent : ∀ f, f ∉ r.mem.free → f ∉ r.present pgdir (pages oldsz) (pages newsz - pages oldsz) →
          f ∉ r₂.present pgdir (pages oldsz) (pages newsz - pages oldsz) := by
        intro f used unmapped
        refine mapped_present _ _ entry ?_ unmapped
        rintro rfl
        exact used (free ▸ List.mem_cons_self)
      simp only at ran
      split at ran
      next success =>
        subst success
        rw [if_pos rfl] at entry
        rw [next_page] at ran
        obtain ⟨others, zero⟩ := ih (nodup.2.sublist left.sublist) ran (by omega) (by omega)
        refine ⟨fun f used unmapped => ?_, fun j pte from_ before found => ?_⟩
        · rw [others f (fun back => used (free ▸ List.mem_cons_of_mem _ (left.subset back)))
            fun failed => absent f used (unmapped failed), kept f used]
        · by_cases first : j = i
          · subst first
            have done : sz ≠ 0 := by
              rintro rfl
              rw [allocLoop_undone whole above reached above before] at found
              cases found
            rcases allocLoop_entry (tables_ok (allocLoop_mem ..) ran) (by omega) (by omega) with
              ⟨-, frame, grown, -⟩ | ⟨failed, -⟩
            · rw [grown, Function.update_self, patch_outside (.inl (by omega)), entry, Function.update_self,
                Function.update_self] at found
              cases found
              rw [others mem (fun back => nodup.1 (left.subset back)) fun failed => absurd failed done, data,
                Function.update_self]
            · exact absurd failed done
          · exact zero j pte (by omega) before found
      next failure =>
        obtain ⟨⟨sz', r₃⟩, undone, ran⟩ := bind_ok ran
        cases ran
        refine ⟨fun f used unmapped => ?_, fun j pte from_ before found => ?_⟩
        · have other : f ≠ mem := by
            rintro rfl
            exact used (free ▸ List.mem_cons_self)
          refine (Function.update_of_ne other _ _).trans ?_
          rw [deallocuvm_data undone (absent f used (unmapped rfl)), kept f used]
        · rw [allocLoop_undone whole above reached (by omega) before] at found
          cases found

theorem allocLoop_returns : ∀ {rounds i : Nat} {r : Ram}, 0 ∉ r.mem.free →
    0 ∉ r.present pgdir (pages oldsz) (pages newsz - pages oldsz) →
    (∀ j, i ≤ j → j < pages newsz → r.mem.entry pgdir j = none) → pages oldsz ≤ i → i + rounds = pages newsz →
    ∃ sz r', allocLoop pgdir oldsz newsz rounds (i * PGSIZE) r = .ok (sz, r') := by
  intro rounds
  induction rounds with
  | zero => exact fun _ _ _ _ _ => ⟨newsz, _, rfl⟩
  | succ rounds ih =>
    intro i r free real missing above reached
    simp only [allocLoop]
    split
    · obtain ⟨sz, r', undone⟩ := deallocuvm_returns real
      exact ⟨0, r', ok_bind undone⟩
    next mem m taken =>
      have first := kalloc_free taken
      rw [first, List.mem_cons, not_or] at free
      have missing' : (memset { r with mem := m } mem 0).mem.entry pgdir i = none := by
        rw [← missing i le_rfl (by omega)]
        exact congrFun (congrFun (entry_congr (kalloc_dirs taken)) pgdir) i
      obtain ⟨mapped, r₂, mapping⟩ := mappages_returns mem true true missing'
      rw [ok_bind mapping]
      obtain ⟨mapping, -⟩ := mappages_ok mapping
      have entry := mappages_entry mapping
      have left := mappages_free mapping
      simp only [memset] at entry left
      rw [entry_congr (kalloc_dirs taken)] at entry
      have real₂ := mapped_present (pages oldsz) (pages newsz - pages oldsz) entry free.1 real
      cases mapped with
      | false =>
        obtain ⟨sz, r', undone⟩ := deallocuvm_returns real₂
        exact ⟨0, r'.kfree mem, ok_bind undone⟩
      | true =>
        simp only [if_true]
        rw [next_page]
        refine ih (fun back => free.2 (left.subset back)) real₂ (fun j from_ before => ?_) (by omega) (by omega)
        rw [entry, if_pos rfl, Function.update_self, Function.update_of_ne (by omega)]
        exact missing j (by omega) before

/-! ### Both -/

/-- `allocuvm` has mapped the pages from `oldsz` to `newsz`. -/
structure Grown (pgdir oldsz newsz : Nat) (r r' : Ram) : Prop where
  /-- writable, for the user, zeroed, each on a frame of its own from the free list -/
  fresh : ∃ frame : Nat → Nat, Set.InjOn frame (Set.Ico (pages oldsz) (pages newsz)) ∧
    ∀ i, pages oldsz ≤ i → i < pages newsz → r'.mem.entry pgdir i = some ⟨frame i, true, true⟩ ∧
      frame i ∈ r.mem.free ∧ frame i ∉ r'.mem.free ∧ r'.data (frame i) = fun _ => 0
  others : ∀ i, i < pages oldsz ∨ pages newsz ≤ i → r'.mem.entry pgdir i = r.mem.entry pgdir i

/-- `allocuvm` has mapped nothing, and keeps of the free list only what became page tables. -/
structure Undone (pgdir : Nat) (r r' : Ram) : Prop where
  entry : r'.mem.entry pgdir = r.mem.entry pgdir
  free : (r'.mem.free : Multiset Nat) + dirTables (r'.mem.dirs pgdir) = r.mem.free + dirTables (r.mem.dirs pgdir)

/-- `deallocuvm` has unmapped and freed the pages from `newsz` to `oldsz` that were there. -/
structure Shrunk (pgdir oldsz newsz : Nat) (r r' : Ram) : Prop where
  entry : r'.mem.entry pgdir = fill (r.mem.entry pgdir) (pages newsz) (pages oldsz) none
  free : r'.mem.free = (r.present pgdir (pages newsz) (pages oldsz - pages newsz)).reverse ++ r.mem.free
  dirs : ∀ d, d ≠ pgdir → r'.mem.dirs d = r.mem.dirs d
  data : ∀ f, f ∉ r'.mem.free → r'.data f = r.data f

/-- `kmem.freelist` runs through the free frames: none is on it twice, and none is null. -/
structure Linked (m : Memory) : Prop where
  nodup : m.free.Nodup
  real : 0 ∉ m.free

theorem allocuvm_returns (linked : Linked r.mem) (missing : ∀ i, pages oldsz ≤ i → i < pages newsz → r.mem.entry pgdir i = none) :
    ∃ sz r', r.allocuvm pgdir oldsz newsz = .ok (sz, r') := by
  unfold allocuvm
  split
  · exact ⟨0, r, rfl⟩
  · split
    · exact ⟨oldsz, r, rfl⟩
    · refine allocLoop_returns linked.real (fun present => ?_) missing le_rfl ?_
      · obtain ⟨j, pte, above, below, found, -⟩ := mem_present.mp present
        rw [missing j above (by omega)] at found
        cases found
      · simp only [PGROUNDUP, pages, PGSIZE]
        omega

theorem allocuvm_data (linked : Linked r.mem) (missing : ∀ i, pages oldsz ≤ i → i < pages newsz → r.mem.entry pgdir i = none)
    (ran : r.allocuvm pgdir oldsz newsz = .ok (sz, r')) :
    (∀ f, f ∉ r.mem.free → r'.data f = r.data f) ∧
      ∀ j pte, pages oldsz ≤ j → j < pages newsz → r'.mem.entry pgdir j = some pte → r'.data pte.frame = fun _ => 0 := by
  have nothing : ∀ j pte, pages oldsz ≤ j → j < pages newsz → r.mem.entry pgdir j ≠ some pte := by
    intro j pte above below found
    rw [missing j above below] at found
    cases found
  unfold allocuvm at ran
  split at ran
  · cases ran
    exact ⟨fun _ _ => rfl, fun j pte above below found => absurd found (nothing j pte above below)⟩
  · split at ran
    · cases ran
      exact ⟨fun _ _ => rfl, fun j pte above below found => absurd found (nothing j pte above below)⟩
    · have reached : pages oldsz + (newsz - PGROUNDUP oldsz + PGSIZE - 1) / PGSIZE = pages newsz := by
        simp only [PGROUNDUP, pages, PGSIZE]
        omega
      obtain ⟨others, zero⟩ := allocLoop_data linked.nodup ran le_rfl reached
      refine ⟨fun f used => others f used fun _ present => ?_, zero⟩
      obtain ⟨j, pte, above, below, found, -⟩ := mem_present.mp present
      exact nothing j pte above (by omega) found

theorem allocuvm_grown (linked : Linked r.mem) (order : oldsz ≤ newsz) (user : newsz < KERNBASE)
    (missing : ∀ i, pages oldsz ≤ i → i < pages newsz → r.mem.entry pgdir i = none)
    (ran : r.allocuvm pgdir oldsz newsz = .ok (sz, r')) :
    sz = newsz ∧ Grown pgdir oldsz newsz r r' ∨ sz = 0 ∧ Undone pgdir r r' := by
  have zero := (allocuvm_data linked missing ran).2
  have ran := tables_ok (allocuvm_mem ..) ran
  rcases allocuvm_entry ran with ⟨rfl, -, -, frame, entry, fresh⟩ | ⟨-, smaller, -⟩ | ⟨rfl, ⟨high, -⟩ | entry⟩
  · have distinct := linked.nodup.sublist fresh
    rw [List.nodup_append] at distinct
    obtain ⟨distinct, -, apart⟩ := distinct
    have listed : ∀ i, pages oldsz ≤ i → i < pages sz → i ∈ List.range' (pages oldsz) (pages sz - pages oldsz) := by
      intro i above below
      rw [List.mem_range'_1]
      omega
    refine .inl ⟨rfl, ⟨frame, fun i here j there same => ?_, fun i above below => ?_⟩, fun i outside => ?_⟩
    · exact List.inj_on_of_nodup_map distinct (listed i here.1 here.2) (listed j there.1 there.2) same
    · have found : r'.mem.entry pgdir i = some ⟨frame i, true, true⟩ := by
        rw [entry, Function.update_self, patch_inside above below]
      have member := List.mem_map_of_mem (f := frame) (listed i above below)
      exact ⟨found, fresh.subset (List.mem_append_left _ member), fun free => apart _ member _ free rfl,
        zero i _ above below found⟩
    · rw [entry, Function.update_self, patch_outside outside]
  · omega
  · omega
  · have same : r'.mem.entry pgdir = r.mem.entry pgdir := by
      rw [entry, Function.update_self]
      funext i
      by_cases inside : pages oldsz ≤ i ∧ i < pages newsz
      · rw [fill_inside inside.1 inside.2, missing i inside.1 inside.2]
      · exact fill_outside (by omega)
    exact .inr ⟨rfl, same, (allocuvm_moves ran).tables same⟩

theorem deallocuvm_shrunk (smaller : newsz < oldsz) (user : oldsz ≤ KERNBASE)
    (real : 0 ∉ r.present pgdir (pages newsz) (pages oldsz - pages newsz)) :
    ∃ r', r.deallocuvm pgdir oldsz newsz = .ok (newsz, r') ∧ Shrunk pgdir oldsz newsz r r' := by
  obtain ⟨r', loop⟩ := unmapPages_returns real
  obtain ⟨free, data⟩ := unmapPages_ok loop
  have ran : r.deallocuvm pgdir oldsz newsz = .ok (newsz, r') := by
    rw [deallocuvm_eq r pgdir smaller, loop]
    rfl
  have ran' := tables_ok (deallocuvm_mem ..) ran
  refine ⟨r', ran, ?_, free, (deallocuvm_moves user ran').others, fun f used => data f fun present => used ?_⟩
  · rw [(deallocuvm_entry ran').2, Function.update_self]
  · rw [free]
    exact List.mem_append_left _ (List.mem_reverse.mpr present)

/-- Growing maps exactly the new pages, or none and keeps none of the frames it took for pages. Shrinking
is the loop over all pages: it unmaps and frees exactly the pages that are there. -/
theorem uvm_resized (r : Ram) (pgdir oldsz newsz : Nat) :
    (Linked r.mem → oldsz ≤ newsz → newsz < KERNBASE →
      (∀ i, pages oldsz ≤ i → i < pages newsz → r.mem.entry pgdir i = none) →
      ∃ sz r', r.allocuvm pgdir oldsz newsz = .ok (sz, r') ∧
        (sz = newsz ∧ Grown pgdir oldsz newsz r r' ∨ sz = 0 ∧ Undone pgdir r r') ∧
        (∀ d, d ≠ pgdir → r'.mem.dirs d = r.mem.dirs d) ∧ ∀ f, f ∉ r.mem.free → r'.data f = r.data f) ∧
    (newsz < oldsz → oldsz ≤ KERNBASE →
      r.deallocuvm pgdir oldsz newsz =
        (unmapPages pgdir (pages newsz) (pages oldsz - pages newsz) r).map (newsz, ·) ∧
      (0 ∉ r.present pgdir (pages newsz) (pages oldsz - pages newsz) →
        ∃ r', r.deallocuvm pgdir oldsz newsz = .ok (newsz, r') ∧ Shrunk pgdir oldsz newsz r r')) := by
  refine ⟨fun linked order user missing => ?_, fun smaller user => ⟨deallocuvm_eq r pgdir smaller, deallocuvm_shrunk smaller user⟩⟩
  obtain ⟨sz, r', ran⟩ := allocuvm_returns linked missing
  exact ⟨sz, r', ran, allocuvm_grown linked order user missing ran,
    (allocuvm_moves (tables_ok (allocuvm_mem ..) ran)).others, (allocuvm_data linked missing ran).1⟩

/-- Two free frames, and the page 0 in every directory. -/
def onePage : Ram where
  mem :=
    { free := [1, 2]
      dirs := fun _ =>
        { tables := fun t => if t = 0 then some ⟨4, fun j => if j = 0 then some ⟨3, true, true⟩ else none⟩ else none
          kernel := [] } }
  data := fun _ _ => 1

theorem uvm_resized_onePage :
    (∃ sz r', onePage.allocuvm 5 PGSIZE (2 * PGSIZE) = .ok (sz, r') ∧
      (sz = 2 * PGSIZE ∧ Grown 5 PGSIZE (2 * PGSIZE) onePage r' ∨ sz = 0 ∧ Undone 5 onePage r')) ∧
    ∃ r', onePage.deallocuvm 5 PGSIZE 0 = .ok (0, r') ∧ Shrunk 5 PGSIZE 0 onePage r' := by
  have missing : ∀ i, pages PGSIZE ≤ i → i < pages (2 * PGSIZE) → onePage.mem.entry 5 i = none := by
    intro i above below
    obtain rfl : i = 1 := by
      simp only [pages, PGSIZE] at above below
      omega
    rfl
  obtain ⟨sz, r', ran, grown, -⟩ :=
    (uvm_resized onePage 5 PGSIZE (2 * PGSIZE)).1 ⟨by decide, by decide⟩ (by decide) (by decide) missing
  exact ⟨⟨sz, r', ran, grown⟩, ((uvm_resized onePage 5 PGSIZE 0).2 (by decide) (by decide)).2 (by decide)⟩

end Ram

end Xv6.Vm
