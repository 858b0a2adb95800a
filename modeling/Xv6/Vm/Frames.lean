import Mathlib.Algebra.BigOperators.Group.Finset.Piecewise
import Mathlib.Algebra.Order.Group.Multiset
import Mathlib.Tactic.Abel
import Xv6.Vm.Mapping

/-!
# Page frames

The frames of physical memory are on the free list, or in a page directory as the directory itself, as one
of its page tables or as a mapped page. The functions of `vm.c` move frames between the free list and one
directory and lose none.
-/

namespace Xv6.Vm

open Function (update)
open Steps

variable {m m' m₁ : Memory} {d i : Nat}

/-! ### Counting frames -/

def entryFrames : Option Pte → Multiset Nat
  | none => 0
  | some pte => {pte.frame}

/-- A page table and the pages it maps. -/
def tableFrames : Option PageTable → Multiset Nat
  | none => 0
  | some table => table.frame ::ₘ ∑ j ∈ Finset.range 1024, entryFrames (table.entry j)

/-- A page directory without its own frame. -/
def dirFrames (dir : PageDir) : Multiset Nat :=
  (dir.kernel : Multiset Nat) + ∑ t ∈ Finset.range 512, tableFrames (dir.tables t)

/-- The frames that are free or belong to the page directory `d`. -/
def Memory.held (m : Memory) (d : Nat) : Multiset Nat := (m.free : Multiset Nat) + d ::ₘ dirFrames (m.dirs d)

private theorem sum_update_add {α β : Type*} [AddCommMonoid β] (g : α → β) (f : Nat → α) {n j : Nat} (inside : j < n) (v : α) :
    ∑ i ∈ Finset.range n, g (update f j v i) + g (f j) = ∑ i ∈ Finset.range n, g (f i) + g v := by
  have member : j ∈ Finset.range n := Finset.mem_range.mpr inside
  have pushed : ∀ i, g (update f j v i) = update (fun i => g (f i)) j (g v) i := fun i => congrFun (Function.comp_update g f j v) i
  simp only [pushed]
  rw [Finset.sum_update_of_mem member, ← Finset.sum_sdiff (Finset.singleton_subset_iff.mpr member), Finset.sum_singleton]
  abel

theorem tableFrames_update (table : PageTable) {j : Nat} (inside : j < 1024) (e : Option Pte) :
    tableFrames (some { table with entry := update table.entry j e }) + entryFrames (table.entry j) =
      tableFrames (some table) + entryFrames e := by
  have moved := sum_update_add entryFrames table.entry inside e
  simp only [tableFrames, Multiset.cons_add, moved]

theorem held_setTable (inside : i < 512) (table : PageTable) :
    (m.setTable d i table).held d + tableFrames ((m.dirs d).tables i) = m.held d + tableFrames (some table) := by
  have moved := sum_update_add tableFrames (m.dirs d).tables inside (some table)
  simp only [Memory.held, Memory.setTable, dirFrames, Function.update_self, Multiset.add_cons, Multiset.cons_add, add_assoc, moved]

theorem held_setPte {e : Option Pte} (inside : i < 512 * 1024) (present : (m.dirs d).tables (i / 1024) ≠ none) :
    (m.setPte d (i * PGSIZE) e).held d + entryFrames (m.pte d (i * PGSIZE)) = m.held d + entryFrames e := by
  obtain ⟨table, found⟩ := Option.ne_none_iff_exists'.mp present
  have old : m.pte d (i * PGSIZE) = table.entry (i % 1024) := by
    rw [Memory.pte, PDX_page, PTX_page, found, Option.bind_some]
  have new : m.setPte d (i * PGSIZE) e =
      m.setTable d (i / 1024) { table with entry := update table.entry (i % 1024) e } := by
    simp only [Memory.setPte, PDX_page, PTX_page, found]
  have outer := held_setTable (m := m) (d := d) (i := i / 1024) (by omega)
    { table with entry := update table.entry (i % 1024) e }
  have inner := tableFrames_update table (Nat.mod_lt i (by decide)) e
  rw [found] at outer
  rw [old, new]
  -- both sides carry the frames of the table
  refine add_right_cancel (b := tableFrames (some table)) ?_
  calc (m.setTable d (i / 1024) { table with entry := update table.entry (i % 1024) e }).held d +
        entryFrames (table.entry (i % 1024)) + tableFrames (some table)
      = m.held d + (tableFrames (some { table with entry := update table.entry (i % 1024) e }) +
          entryFrames (table.entry (i % 1024))) := by rw [add_right_comm, outer, add_assoc]
    _ = m.held d + entryFrames e + tableFrames (some table) := by rw [inner, add_right_comm, add_assoc]

/-! ### One call -/

/-- Frames `gain` come to the free list and the directory `d`; other directories stay as they
are. -/
structure Moves (d : Nat) (gain : Multiset Nat) (m m' : Memory) : Prop where
  held : m'.held d = gain + m.held d
  others : ∀ e, e ≠ d → m'.dirs e = m.dirs e

namespace Moves

variable {gain gain' : Multiset Nat}

theorem refl (d : Nat) (m : Memory) : Moves d 0 m m := ⟨(zero_add _).symm, fun _ _ => rfl⟩

theorem trans (first : Moves d gain m m₁) (second : Moves d gain' m₁ m') : Moves d (gain' + gain) m m' :=
  ⟨by rw [second.held, first.held, add_assoc], fun e other => (second.others e other).trans (first.others e other)⟩

theorem then_ (first : Moves d 0 m m₁) (second : Moves d gain m₁ m') : Moves d gain m m' := by
  have both := first.trans second
  rwa [add_zero] at both

end Moves

theorem kalloc_held {r : Nat} (taken : kalloc m = some (r, m')) : m.held d = r ::ₘ m'.held d ∧ m'.dirs = m.dirs := by
  refine ⟨?_, kalloc_dirs taken⟩
  rw [Memory.held, kalloc_free taken, ← Multiset.cons_coe, Multiset.cons_add, Memory.held, kalloc_dirs taken]

theorem moves_kfree (m : Memory) (d v : Nat) : Moves d {v} m (kfree m v) := by
  refine ⟨?_, fun _ _ => rfl⟩
  rw [Memory.held, kfree, ← Multiset.cons_coe, Multiset.cons_add, Multiset.singleton_add, Memory.held]

theorem moves_setTable (inside : i < 512) (missing : (m.dirs d).tables i = none) (frame : Nat) :
    Moves d {frame} m (m.setTable d i { frame, entry := fun _ => none }) := by
  have moved := held_setTable (m := m) (d := d) inside { frame, entry := fun _ => none }
  have empty : tableFrames (some { frame, entry := fun _ => none }) = {frame} := by simp [tableFrames, entryFrames]
  rw [missing, empty] at moved
  refine ⟨?_, fun e other => Function.update_of_ne other _ _⟩
  rw [add_comm]
  exact (add_zero _).symm.trans moved

theorem setPte_others (m : Memory) (va : Nat) (e : Option Pte) {d' : Nat} (other : d' ≠ d) :
    (m.setPte d va e).dirs d' = m.dirs d' := by
  unfold Memory.setPte
  split
  · rfl
  · exact Function.update_of_ne other _ _

theorem walkpgdir_moves {alloc : Bool} (inside : i < 512 * 1024) (walked : walkpgdir m d (i * PGSIZE) alloc = some m') :
    Moves d 0 m m' := by
  unfold walkpgdir at walked
  rw [PDX_page] at walked
  split at walked
  · cases walked
    exact .refl d m
  next missing =>
    split at walked
    · split at walked
      · cases walked
      next pgtab m₁ taken =>
        cases walked
        obtain ⟨held, dirs⟩ := kalloc_held (d := d) taken
        have added := moves_setTable (m := m₁) (d := d) (i := i / 1024) (by omega) (by rw [dirs]; exact missing) pgtab
        refine ⟨?_, fun e other => (added.others e other).trans (congrFun dirs e)⟩
        rw [added.held, held, zero_add, Multiset.singleton_add]
    · cases walked

theorem mappages_moves {frame : Nat} {writable user mapped : Bool} (inside : i < 512 * 1024)
    (ran : mappages m d (i * PGSIZE) PGSIZE frame writable user = .ok (mapped, m')) :
    Moves d (if mapped then {frame} else 0) m m' := by
  rw [mappages_one] at ran
  split at ran
  · cases ran
    exact .refl d m
  next m₁ walked =>
    have present := (walkpgdir_page walked).2
    split at ran
    · cases ran
    next free =>
      cases ran
      have absent : m₁.pte d (i * PGSIZE) = none := by simpa [Memory.entry] using free
      have moved := held_setPte (e := some { frame, writable, user }) inside present
      rw [absent] at moved
      refine (walkpgdir_moves inside walked).then_ ⟨?_, fun e other => setPte_others m₁ _ _ other⟩
      rw [if_pos rfl, add_comm]
      exact (add_zero _).symm.trans moved

theorem deallocLoop_moves {oldsz : Nat} (user : oldsz ≤ KERNBASE) : ∀ {rounds i : Nat} {m m' : Memory},
    deallocLoop d oldsz rounds (i * PGSIZE) m = .ok m' → Moves d 0 m m' := by
  intro rounds
  induction rounds with
  | zero =>
    intro i m m' ran
    cases ran
    exact .refl d m
  | succ rounds ih =>
    intro i m m' ran
    simp only [deallocLoop] at ran
    split at ran
    next below =>
      have inside : i < 512 * 1024 := by
        simp only [PGSIZE, KERNBASE] at below user
        omega
      have next : i * PGSIZE + PGSIZE = (i + 1) * PGSIZE := (Nat.succ_mul i PGSIZE).symm
      split at ran
      · have jump : (PDX (i * PGSIZE) + 1) * (1024 * PGSIZE) = (i / 1024 + 1) * 1024 * PGSIZE := by
          rw [PDX_page, Nat.mul_assoc]
        rw [jump] at ran
        exact ih ran
      next m₁ walked =>
        have present := (walkpgdir_page walked).2
        obtain rfl := walkpgdir_false walked
        rw [next] at ran
        split at ran
        · exact ih ran
        next pte found =>
          split at ran
          · cases ran
          · -- the page goes from the entry to the free list
            have moved := held_setPte (m := kfree m₁ pte.frame) (e := none) inside present
            have freed : Moves d 0 m₁ ((kfree m₁ pte.frame).setPte d (i * PGSIZE) none) := by
              refine ⟨?_, fun e other => setPte_others (kfree m₁ pte.frame) _ _ other⟩
              rw [show (kfree m₁ pte.frame).pte d (i * PGSIZE) = some pte from found, (moves_kfree m₁ d pte.frame).held] at moved
              refine add_right_cancel (b := entryFrames (some pte)) ?_
              rw [moved, zero_add]
              exact (add_zero _).trans (add_comm _ _)
            exact freed.then_ (ih ran)
    · cases ran
      exact .refl d m

theorem deallocuvm_moves {oldsz newsz r : Nat} (user : oldsz ≤ KERNBASE) (ran : deallocuvm m d oldsz newsz = .ok (r, m')) :
    Moves d 0 m m' := by
  unfold deallocuvm at ran
  split at ran
  · cases ran
    exact .refl d m
  · obtain ⟨m₁, loop, ran⟩ := bind_ok ran
    cases ran
    exact deallocLoop_moves user loop

theorem allocLoop_moves {oldsz newsz : Nat} (user : newsz < KERNBASE) : ∀ {rounds i r : Nat} {m m' : Memory},
    allocLoop d oldsz newsz rounds (i * PGSIZE) m = .ok (r, m') → i + rounds = pages newsz → Moves d 0 m m' := by
  intro rounds
  induction rounds with
  | zero =>
    intro i r m m' ran _
    cases ran
    exact .refl d m
  | succ rounds ih =>
    intro i r m m' ran reached
    simp only [allocLoop] at ran
    split at ran
    · obtain ⟨⟨r', m₁⟩, undone, ran⟩ := bind_ok ran
      cases ran
      exact deallocuvm_moves user.le undone
    next mem m₁ taken =>
      obtain ⟨held, dirs⟩ := kalloc_held (d := d) taken
      obtain ⟨⟨mapped, m₂⟩, mapping, ran⟩ := bind_ok ran
      have inside : i < 512 * 1024 := by
        have below : i < pages newsz := by omega
        rw [lt_pages] at below
        simp only [PGSIZE, KERNBASE] at below user
        omega
      have moved := mappages_moves inside mapping
      have next : i * PGSIZE + PGSIZE = (i + 1) * PGSIZE := (Nat.succ_mul i PGSIZE).symm
      simp only at ran
      split at ran
      next success =>
        subst success
        rw [next] at ran
        have kept : Moves d 0 m m₂ :=
          ⟨by rw [moved.held, held, if_pos rfl, zero_add, Multiset.singleton_add],
            fun e other => (moved.others e other).trans (congrFun dirs e)⟩
        exact kept.then_ (ih ran (by omega))
      next failure =>
        -- the page that could not be mapped is given back last
        rw [if_neg failure] at moved
        obtain ⟨⟨r', m₃⟩, undone, ran⟩ := bind_ok ran
        cases ran
        have rest := (moved.then_ (deallocuvm_moves user.le undone)).then_ (moves_kfree m₃ d mem)
        refine ⟨?_, fun e other => (rest.others e other).trans (congrFun dirs e)⟩
        rw [rest.held, held, zero_add, Multiset.singleton_add]

theorem allocuvm_moves {oldsz newsz r : Nat} (ran : allocuvm m d oldsz newsz = .ok (r, m')) : Moves d 0 m m' := by
  unfold allocuvm at ran
  split at ran
  · cases ran
    exact .refl d m
  next user =>
    split at ran
    · cases ran
      exact .refl d m
    next order =>
      have reached : pages oldsz + (newsz - PGROUNDUP oldsz + PGSIZE - 1) / PGSIZE = pages newsz := by
        simp only [PGROUNDUP, pages, PGSIZE]
        omega
      exact allocLoop_moves (by omega) ran reached

theorem clearpteu_moves (inside : i < 512 * 1024) (ran : clearpteu m d (i * PGSIZE) = .ok m') : Moves d 0 m m' := by
  unfold clearpteu at ran
  split at ran
  · cases ran
  next m₁ walked =>
    have present := (walkpgdir_page walked).2
    obtain rfl := walkpgdir_false walked
    cases ran
    have moved := held_setPte (e := (m₁.pte d (i * PGSIZE)).map fun pte => { pte with user := false }) inside present
    have same : entryFrames ((m₁.pte d (i * PGSIZE)).map fun pte => { pte with user := false }) =
        entryFrames (m₁.pte d (i * PGSIZE)) := by cases m₁.pte d (i * PGSIZE) <;> rfl
    refine ⟨?_, fun e other => setPte_others m₁ _ _ other⟩
    rw [same] at moved
    exact (add_right_cancel moved).trans (zero_add _).symm

theorem clearpteu_others {va : Nat} (ran : clearpteu m d va = .ok m') {e : Nat} (other : e ≠ d) : m'.dirs e = m.dirs e := by
  unfold clearpteu walkpgdir at ran
  split at ran
  · cases ran
  next walked =>
    split at walked
    · cases walked
      cases ran
      exact setPte_others _ _ _ other
    · cases walked

/-! ### Whole page directories -/

private theorem coe_filterMap_range (f : Nat → Option Nat) (n : Nat) :
    ((List.range n).filterMap f : Multiset Nat) = ∑ i ∈ Finset.range n, (f i).elim 0 ({·}) := by
  induction n with
  | zero => rfl
  | succ n ih =>
    rw [List.range_succ, List.filterMap_append, ← Multiset.coe_add, ih, Finset.sum_range_succ]
    cases found : f n <;> simp [found]

theorem foldl_kfree_free (frames : List Nat) (m : Memory) :
    ((frames.foldl kfree m).free : Multiset Nat) = (frames : Multiset Nat) + m.free := by
  induction frames generalizing m with
  | nil => exact (zero_add _).symm
  | cons v rest ih =>
    rw [List.foldl_cons, ih, kfree, ← Multiset.cons_coe, ← Multiset.cons_coe, Multiset.add_cons, Multiset.cons_add]

/-- The frames of a directory are those of its page tables and those of its pages. -/
theorem dirFrames_eq (m : Memory) (d : Nat) : dirFrames (m.dirs d) =
    ((userTables (m.dirs d) ++ (m.dirs d).kernel : List Nat) : Multiset Nat) +
      ∑ t ∈ Finset.range 512, ∑ j ∈ Finset.range 1024, entryFrames (m.entry d (t * 1024 + j)) := by
  have split : ∀ t, tableFrames ((m.dirs d).tables t) =
      (((m.dirs d).tables t).map PageTable.frame).elim 0 ({·}) +
        ∑ j ∈ Finset.range 1024, entryFrames (m.entry d (t * 1024 + j)) := by
    intro t
    have place : ∀ j ∈ Finset.range 1024,
        m.entry d (t * 1024 + j) = ((m.dirs d).tables t).bind fun table => table.entry j := by
      intro j within
      have less : j < 1024 := Finset.mem_range.mp within
      rw [entry_eq, show (t * 1024 + j) / 1024 = t by omega, show (t * 1024 + j) % 1024 = j by omega]
    rw [Finset.sum_congr rfl fun j within => congrArg entryFrames (place j within)]
    cases (m.dirs d).tables t with
    | none => simp [tableFrames, entryFrames]
    | some table => simp only [tableFrames, Option.map_some, Option.elim_some, Option.bind_some, Multiset.singleton_add]
  rw [dirFrames, Finset.sum_congr rfl fun t _ => split t, Finset.sum_add_distrib, ← Multiset.coe_add, userTables,
    coe_filterMap_range, ← add_assoc, add_comm ((m.dirs d).kernel : Multiset Nat)]

theorem dirFrames_of_unmapped (empty : ∀ i < 512 * 1024, m.entry d i = none) :
    dirFrames (m.dirs d) = ((userTables (m.dirs d) ++ (m.dirs d).kernel : List Nat) : Multiset Nat) := by
  rw [dirFrames_eq, Finset.sum_eq_zero, add_zero]
  intro t inside
  have small : t < 512 := Finset.mem_range.mp inside
  refine Finset.sum_eq_zero fun j within => ?_
  have less : j < 1024 := Finset.mem_range.mp within
  rw [empty (t * 1024 + j) (by omega)]
  rfl

/-- `freevm` puts every frame of the directory on the free list. -/
theorem freevm_free (ran : freevm m d = .ok m') :
    (m'.free : Multiset Nat) = m.held d ∧ ∀ e, e ≠ d → m'.dirs e = m.dirs e := by
  unfold freevm at ran
  split at ran
  · cases ran
  · obtain ⟨⟨r, m₁⟩, unmapped, ran⟩ := bind_ok ran
    cases ran
    have moved := deallocuvm_moves le_rfl unmapped
    have empty : ∀ i < 512 * 1024, m₁.entry d i = none := by
      intro i inside
      rw [(deallocuvm_entry unmapped).2, Function.update_self]
      exact Regions.fill_inside (by simp [pages, PGSIZE]) (lt_pages.mpr (by simp only [PGSIZE, KERNBASE]; omega))
    refine ⟨?_, fun e other => ?_⟩
    · rw [kfree, ← Multiset.cons_coe, foldl_kfree_free, ← dirFrames_of_unmapped empty, ← zero_add (m.held d), ← moved.held,
        Memory.held, Multiset.add_cons, add_comm]
    · have kept := congrFun (foldl_kfree_dirs (userTables (m₁.dirs d) ++ (m₁.dirs d).kernel) m₁) e
      exact (Function.update_of_ne other _ _).trans (kept.trans (moved.others e other))

theorem kernelTables_free : ∀ {n : Nat} {m m' : Memory} {frames : List Nat}, kernelTables n m = (frames, m') →
    (m.free : Multiset Nat) = (frames : Multiset Nat) + m'.free := by
  intro n
  induction n with
  | zero =>
    intro m m' frames ran
    cases ran
    exact (zero_add _).symm
  | succ n ih =>
    intro m m' frames ran
    simp only [kernelTables] at ran
    split at ran
    · cases ran
      exact (zero_add _).symm
    next pgtab m₁ taken =>
      have rest := ih (m := m₁) rfl
      cases ran
      unfold kalloc at taken
      split at taken
      · cases taken
      next first free found =>
        cases taken
        rw [found, ← Multiset.cons_coe, rest, ← Multiset.cons_coe, Multiset.cons_add]

theorem mem_free_of_kalloc {r : Nat} (taken : kalloc m = some (r, m')) : r ∈ m.free :=
  kalloc_free taken ▸ List.mem_cons_self

/-- The frames of the new directory in `setupkvm`, before its kernel half is known to be complete: itself,
the page tables it got, and what is left. -/
theorem setupkvm_held {m₂ : Memory} {frames : List Nat} (taken : kalloc m = some (d, m₁))
    (tables : kernelTables KERNTABLES m₁ = (frames, m₂)) :
    Memory.held { m₂ with dirs := update m₂.dirs d { tables := fun _ => none, kernel := frames } } d = m.free := by
  have made : dirFrames { tables := fun _ => none, kernel := frames } = frames := by
    simp [dirFrames, tableFrames]
  rw [kalloc_free taken, ← Multiset.cons_coe, kernelTables_free tables, Memory.held]
  simp only [Function.update_self, made, Multiset.add_cons]
  rw [add_comm]

/-- `setupkvm` takes the frames of the new directory from the free list, or none at all. -/
theorem setupkvm_free (ran : setupkvm m = .ok (d, m')) :
    (0 ∉ m.free → d = 0 → (m'.free : Multiset Nat) = m.free) ∧ (d ≠ 0 → m'.held d = m.free) ∧
      ∀ e, e ∉ m.free → m'.dirs e = m.dirs e := by
  unfold setupkvm at ran
  split at ran
  · cases ran
    exact ⟨fun _ _ => rfl, fun success => absurd rfl success, fun _ _ => rfl⟩
  next pgdir m₁ taken =>
    generalize tables : kernelTables KERNTABLES m₁ = pair at ran
    obtain ⟨frames, m₂⟩ := pair
    have fresh := mem_free_of_kalloc taken
    have dirs := (kernelTables_dirs tables).trans (kalloc_dirs taken)
    have split := (setupkvm_held taken tables).symm
    have others : ∀ e, e ∉ m.free → update m₂.dirs pgdir { tables := fun _ => none, kernel := frames } e = m.dirs e := by
      intro e used
      have other : e ≠ pgdir := by
        rintro rfl
        exact used fresh
      rw [Function.update_of_ne other, dirs]
    simp only at ran
    split at ran
    · obtain ⟨m₃, freed, ran⟩ := bind_ok ran
      cases ran
      obtain ⟨free, same⟩ := freevm_free freed
      refine ⟨fun _ _ => free.trans split.symm, fun success => absurd rfl success, fun e used => ?_⟩
      rw [same e fun here => used (here ▸ fresh)]
      exact others e used
    next complete =>
      cases ran
      exact ⟨fun real null => absurd (null ▸ fresh) real, fun _ => split.symm, others⟩

/-! ### The life of an address space -/

/-- A call for the user half of an address space. -/
inductive Resize where
  | allocuvm (oldsz newsz : Nat)
  | deallocuvm (oldsz newsz : Nat) (user : oldsz ≤ KERNBASE)
  | clearpteu (page : Fin (512 * 1024))

def Resize.run (d : Nat) (m : Memory) : Resize → Except Stop Memory
  | .allocuvm oldsz newsz => do
    let (_, m) ← Vm.allocuvm m d oldsz newsz
    .ok m
  | .deallocuvm oldsz newsz _ => do
    let (_, m) ← Vm.deallocuvm m d oldsz newsz
    .ok m
  | .clearpteu page => Vm.clearpteu m d (page * PGSIZE)

theorem Resize.moves {c : Resize} (ran : c.run d m = .ok m') : Moves d 0 m m' := by
  cases c with
  | allocuvm oldsz newsz =>
    obtain ⟨⟨r, m₁⟩, done, same⟩ := bind_ok ran
    cases same
    exact allocuvm_moves done
  | deallocuvm oldsz newsz user =>
    obtain ⟨⟨r, m₁⟩, done, same⟩ := bind_ok ran
    cases same
    exact deallocuvm_moves user done
  | clearpteu page => exact clearpteu_moves page.isLt ran

/-- **No leak, no double free.** Whatever is done to a new address space, `freevm` gives back exactly the
frames that it was made of. -/
theorem freevm_returns_frames (calls : List Resize) {m₂ : Memory} (made : setupkvm m = .ok (d, m₁)) (real : d ≠ 0)
    (ran : calls.foldlM (Resize.run d) m₁ = .ok m₂) (freed : freevm m₂ d = .ok m') : m'.free.Perm m.free := by
  have kept : m₂.held d = m₁.held d := by
    refine foldlM_ok (P := fun m => m.held d = m₁.held d) (fun m c m' same ran => ?_) rfl ran
    rw [← same, (Resize.moves ran).held, zero_add]
  have back := (freevm_free freed).1
  rw [kept, (setupkvm_free made).2.1 real] at back
  exact Multiset.coe_eq_coe.mp back

/-- Two pages are mapped, and one of them is unmapped again. -/
theorem freevm_returns_frames_two : ∃ m d m₁ m₂ m', setupkvm m = .ok (d, m₁) ∧ d ≠ 0 ∧
    [Resize.allocuvm 0 8192, .deallocuvm 8192 4096 (by decide)].foldlM (Resize.run d) m₁ = .ok m₂ ∧
    freevm m₂ d = .ok m' ∧ m'.free.Perm m.free := by
  let m : Memory := { free := List.range' 1 70, dirs := fun _ => ⟨fun _ => none, []⟩ }
  let calls := [Resize.allocuvm 0 8192, .deallocuvm 8192 4096 (by decide)]
  let life : Except Stop Nat := setupkvm m >>= fun made =>
    calls.foldlM (Resize.run made.1) made.2 >>= fun m₂ => freevm m₂ made.1 >>= fun _ => .ok made.1
  obtain ⟨d, lived, real⟩ : ∃ d, life = .ok d ∧ d ≠ 0 := ⟨1, by decide +kernel, by decide⟩
  obtain ⟨⟨d', m₁⟩, made, lived⟩ := bind_ok lived
  obtain ⟨m₂, ran, lived⟩ := bind_ok lived
  obtain ⟨m', freed, same⟩ := bind_ok lived
  cases same
  exact ⟨m, d', m₁, m₂, m', made, real, ran, freed, freevm_returns_frames calls made real ran freed⟩

end Xv6.Vm
