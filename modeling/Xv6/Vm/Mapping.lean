import Xv6.Lib.Regions
import Xv6.Lib.Steps
import Xv6.Vm.Model

/-!
# What the page tables map

`Memory.entry` looks through the two levels of a page directory. Each function of `vm.c` is an operation on
this view: `allocuvm` and `deallocuvm` fill an interval of pages, `clearpteu` changes one page.
`Memory.page` keeps of an entry only whether the user has access.
-/

namespace Xv6.Vm

open Function (update)
open Regions Steps

variable {m m' : Memory} {pgdir i va : Nat}

/-- The entry of the page with number `i`. -/
def Memory.entry (m : Memory) (pgdir i : Nat) : Option Pte := m.pte pgdir (i * PGSIZE)

/-- `none` for a page that is not mapped, else `PTE_U`. -/
def Memory.page (m : Memory) (pgdir i : Nat) : Option Bool :=
  (m.pte pgdir (i * PGSIZE)).map Pte.user

/-- How many pages hold `sz` bytes. -/
def pages (sz : Nat) : Nat := (sz + PGSIZE - 1) / PGSIZE

theorem lt_pages {sz : Nat} : i < pages sz ↔ i * PGSIZE < sz := by
  simp only [pages, PGSIZE]
  omega

theorem PGROUNDUP_eq (sz : Nat) : PGROUNDUP sz = pages sz * PGSIZE := rfl

theorem pages_mul (n : Nat) : pages (n * PGSIZE) = n := by
  simp only [pages, PGSIZE]
  omega

theorem PDX_page (i : Nat) : PDX (i * PGSIZE) = i / 1024 := by
  simp only [PDX, PGSIZE]
  omega

theorem PTX_page (i : Nat) : PTX (i * PGSIZE) = i % 1024 := by
  simp only [PTX, PGSIZE]
  omega

/-! ### Entries -/

theorem entry_eq (m : Memory) (pgdir i : Nat) :
    m.entry pgdir i = ((m.dirs pgdir).tables (i / 1024)).bind fun table => table.entry (i % 1024) := by
  rw [Memory.entry, Memory.pte, PDX_page, PTX_page]

theorem entry_congr (same : m'.dirs = m.dirs) : m'.entry = m.entry := by
  funext d i
  simp only [entry_eq, same]

theorem kalloc_free {r : Nat} (taken : kalloc m = some (r, m')) : m.free = r :: m'.free := by
  unfold kalloc at taken
  split at taken
  · cases taken
  next first rest free =>
    cases taken
    exact free

theorem kalloc_dirs {r : Nat} (taken : kalloc m = some (r, m')) : m'.dirs = m.dirs := by
  unfold kalloc at taken
  split at taken
  · cases taken
  · cases taken
    rfl

theorem entry_setTable (m : Memory) (pgdir t : Nat) (table : PageTable) :
    (m.setTable pgdir t table).entry = update m.entry pgdir fun i =>
      if i / 1024 = t then table.entry (i % 1024) else m.entry pgdir i := by
  funext d i
  by_cases other : d = pgdir
  · subst other
    simp only [Function.update_self, entry_eq, Memory.setTable]
    by_cases here : i / 1024 = t
    · simp [here]
    · simp [here]
  · simp only [Function.update_of_ne other, entry_eq, Memory.setTable]

theorem entry_setPte {e : Option Pte} (present : (m.dirs pgdir).tables (i / 1024) ≠ none) :
    (m.setPte pgdir (i * PGSIZE) e).entry = update m.entry pgdir (update (m.entry pgdir) i e) := by
  obtain ⟨table, found⟩ := Option.ne_none_iff_exists'.mp present
  simp only [Memory.setPte, PDX_page, PTX_page, found, entry_setTable]
  congr 1
  funext j
  by_cases here : j = i
  · subst here
    simp
  · rw [Function.update_of_ne here]
    split
    next same =>
      have ne : j % 1024 ≠ i % 1024 := by omega
      rw [Function.update_of_ne ne, entry_eq, same, found]
      rfl
    · rfl

/-- `walkpgdir` may add an empty page table, and then the table is there. -/
theorem walkpgdir_entry {alloc : Bool} (walked : walkpgdir m pgdir (i * PGSIZE) alloc = some m') :
    m'.entry = m.entry ∧ (m'.dirs pgdir).tables (i / 1024) ≠ none := by
  unfold walkpgdir at walked
  rw [PDX_page] at walked
  split at walked
  next table found =>
    cases walked
    exact ⟨rfl, by simp [found]⟩
  next missing =>
    split at walked
    · split at walked
      · cases walked
      next pgtab m₁ taken =>
        cases walked
        refine ⟨?_, by simp [Memory.setTable]⟩
        rw [entry_setTable, entry_congr (kalloc_dirs taken)]
        refine Function.update_eq_self_iff.mpr ?_
        funext j
        split
        next inside => simp [entry_eq, inside, missing]
        · rfl
    · cases walked

theorem walkpgdir_false (walked : walkpgdir m pgdir va false = some m') : m' = m := by
  unfold walkpgdir at walked
  split at walked
  · cases walked
    rfl
  · cases walked

theorem walkpgdir_none (walked : walkpgdir m pgdir (i * PGSIZE) false = none) :
    (m.dirs pgdir).tables (i / 1024) = none := by
  unfold walkpgdir at walked
  rw [PDX_page] at walked
  split at walked
  · cases walked
  next missing => exact missing

/-! ### Mapping -/

theorem next_page (i : Nat) : i * PGSIZE + PGSIZE = (i + 1) * PGSIZE := (Nat.succ_mul i PGSIZE).symm

/-- `mappages` for one page. -/
theorem mappages_one (m : Memory) (pgdir i frame : Nat) (writable user : Bool) :
    mappages m pgdir (i * PGSIZE) PGSIZE frame writable user =
      match walkpgdir m pgdir (i * PGSIZE) true with
      | none => .ok (false, m)
      | some m =>
        if (m.entry pgdir i).isSome then .error (.panic .remap)
        else .ok (true, m.setPte pgdir (i * PGSIZE) (some { frame, writable, user })) := by
  have one : (i * PGSIZE + PGSIZE - 1) / PGSIZE - i * PGSIZE / PGSIZE + 1 = 1 := by
    simp only [PGSIZE]
    omega
  have down : PGROUNDDOWN (i * PGSIZE) = i * PGSIZE := by
    simp only [PGROUNDDOWN, PGSIZE]
    omega
  unfold mappages
  rw [one, down]
  rfl

theorem mappages_entry {frame : Nat} {writable user mapped : Bool}
    (ran : mappages m pgdir (i * PGSIZE) PGSIZE frame writable user = .ok (mapped, m')) :
    m'.entry =
      if mapped then update m.entry pgdir (update (m.entry pgdir) i (some { frame, writable, user })) else m.entry := by
  rw [mappages_one] at ran
  split at ran
  · cases ran
    rfl
  next m₁ walked =>
    obtain ⟨same, present⟩ := walkpgdir_entry walked
    split at ran
    · cases ran
    · cases ran
      rw [if_pos rfl, entry_setPte present, same]

/-! ### Unmapping -/

theorem deallocLoop_entry {oldsz : Nat} : ∀ {rounds i : Nat} {m m' : Memory},
    deallocLoop pgdir oldsz rounds (i * PGSIZE) m = .ok m' → pages oldsz ≤ i + rounds →
    m'.entry = update m.entry pgdir (fill (m.entry pgdir) i (pages oldsz) none) := by
  intro rounds
  induction rounds with
  | zero =>
    intro i m m' ran enough
    cases ran
    have empty : fill (m.entry pgdir) i (pages oldsz) none = m.entry pgdir :=
      funext fun j => fill_outside (by omega)
    rw [empty, Function.update_eq_self]
  | succ rounds ih =>
    intro i m m' ran enough
    simp only [deallocLoop] at ran
    split at ran
    next inside =>
      have below : i < pages oldsz := lt_pages.mpr inside
      have next : i * PGSIZE + PGSIZE = (i + 1) * PGSIZE := by
        simp only [PGSIZE]
        omega
      split at ran
      next walked =>
        -- no page table: none of the pages up to the next one is mapped
        have jump : (PDX (i * PGSIZE) + 1) * (1024 * PGSIZE) = (i / 1024 + 1) * 1024 * PGSIZE := by
          rw [PDX_page, Nat.mul_assoc]
        rw [jump] at ran
        rw [ih ran (by omega)]
        congr 1
        refine fill_from (by omega) fun j above before _ => ?_
        have same : j / 1024 = i / 1024 := by omega
        rw [entry_eq, same, walkpgdir_none walked]
        rfl
      next m₁ walked =>
        have present := (walkpgdir_entry walked).2
        obtain rfl := walkpgdir_false walked
        rw [next] at ran
        split at ran
        next absent =>
          rw [ih ran (by omega)]
          congr 1
          refine fill_from (by omega) fun j above before _ => ?_
          obtain rfl : j = i := by omega
          simp [Memory.entry, absent]
        next pte found =>
          split at ran
          · cases ran
          · have cleared : ((kfree m₁ pte.frame).setPte pgdir (i * PGSIZE) none).entry =
                update m₁.entry pgdir (update (m₁.entry pgdir) i none) :=
              entry_setPte (m := kfree m₁ pte.frame) present
            rw [ih ran (by omega), cleared, Function.update_idem, Function.update_self,
              fill_update below]
    next past =>
      cases ran
      have empty : fill (m.entry pgdir) i (pages oldsz) none = m.entry pgdir := by
        have : ¬i < pages oldsz := fun below => past (lt_pages.mp below)
        exact funext fun j => fill_outside (by omega)
      rw [empty, Function.update_eq_self]

/-- `deallocuvm` unmaps the pages from the new size up to the old one. -/
theorem deallocuvm_entry {oldsz newsz r : Nat} (ran : deallocuvm m pgdir oldsz newsz = .ok (r, m')) :
    r = min oldsz newsz ∧
      m'.entry = update m.entry pgdir (fill (m.entry pgdir) (pages newsz) (pages oldsz) none) := by
  unfold deallocuvm at ran
  split at ran
  next small =>
    cases ran
    refine ⟨by omega, ?_⟩
    have empty : fill (m.entry pgdir) (pages newsz) (pages oldsz) none = m.entry pgdir := by
      have : pages oldsz ≤ pages newsz := by
        simp only [pages]
        exact Nat.div_le_div_right (by omega)
      exact funext fun j => fill_outside (by omega)
    rw [empty, Function.update_eq_self]
  · obtain ⟨m₁, loop, ran⟩ := bind_ok ran
    cases ran
    refine ⟨by omega, deallocLoop_entry loop ?_⟩
    simp only [PGROUNDUP, pages, PGSIZE]
    omega

/-! ### Growing -/

theorem walkpgdir_free {alloc : Bool} (walked : walkpgdir m pgdir va alloc = some m') : m'.free <:+ m.free := by
  unfold walkpgdir at walked
  split at walked
  · cases walked
    exact List.suffix_rfl
  · split at walked
    · split at walked
      · cases walked
      next pgtab m₁ taken =>
        cases walked
        exact ⟨[pgtab], (kalloc_free taken).symm⟩
    · cases walked

theorem setPte_free (m : Memory) (e : Option Pte) : (m.setPte pgdir va e).free = m.free := by
  unfold Memory.setPte
  split
  · rfl
  · rfl

/-- A page table is all that `mappages` takes. -/
theorem mappages_free {frame : Nat} {writable user mapped : Bool}
    (ran : mappages m pgdir (i * PGSIZE) PGSIZE frame writable user = .ok (mapped, m')) : m'.free <:+ m.free := by
  rw [mappages_one] at ran
  split at ran
  · cases ran
    exact List.suffix_rfl
  next m₁ walked =>
    split at ran
    · cases ran
    · cases ran
      rw [setPte_free]
      exact walkpgdir_free walked

/-- The frames of the new pages come off the free list one after another. When a page cannot be
had, those that are mapped already are given back. -/
theorem allocLoop_entry {oldsz newsz : Nat} : ∀ {rounds i r : Nat} {m m' : Memory},
    allocLoop pgdir oldsz newsz rounds (i * PGSIZE) m = .ok (r, m') → pages oldsz ≤ i →
    i + rounds = pages newsz →
    (r = newsz ∧ ∃ frame : Nat → Nat,
      m'.entry = update m.entry pgdir
        (patch (m.entry pgdir) i (pages newsz) fun j => some ⟨frame j, true, true⟩) ∧
      ((List.range' i rounds).map frame ++ m'.free).Sublist m.free) ∨
      r = 0 ∧
        m'.entry = update m.entry pgdir (fill (m.entry pgdir) (pages oldsz) (pages newsz) none) := by
  intro rounds
  induction rounds with
  | zero =>
    intro i r m m' ran _ reached
    cases ran
    rw [Nat.add_zero] at reached
    refine .inl ⟨rfl, fun _ => 0, ?_, .refl _⟩
    rw [reached, patch_empty, Function.update_eq_self]
  | succ rounds ih =>
    intro i r m m' ran above reached
    simp only [allocLoop] at ran
    split at ran
    · obtain ⟨⟨r', m₁⟩, undone, ran⟩ := bind_ok ran
      cases ran
      exact .inr ⟨rfl, (deallocuvm_entry undone).2⟩
    next mem m₁ taken =>
      obtain ⟨⟨mapped, m₂⟩, mapping, ran⟩ := bind_ok ran
      have entry := mappages_entry mapping
      rw [entry_congr (kalloc_dirs taken)] at entry
      simp only at ran
      split at ran
      next success =>
        subst success
        rw [if_pos rfl] at entry
        rw [next_page] at ran
        rcases ih ran (by omega) (by omega) with ⟨rfl, frame, grown, fresh⟩ | ⟨rfl, undone⟩
        · refine .inl ⟨rfl, update frame i mem, ?_, ?_⟩
          · rw [grown, entry, Function.update_idem, Function.update_self]
            congr 1
            funext j
            by_cases first : j = i
            · subst first
              rw [patch_outside (.inl (by omega)), patch_inside le_rfl (by omega), Function.update_self,
                Function.update_self]
            · simp only [patch, Function.update_of_ne first]
              grind
          · have rest : (List.range' (i + 1) rounds).map (update frame i mem) = (List.range' (i + 1) rounds).map frame := by
              refine List.map_congr_left fun j inside => Function.update_of_ne ?_ _ _
              rw [List.mem_range'_1] at inside
              omega
            rw [List.range'_succ, List.map_cons, Function.update_self, rest, kalloc_free taken]
            exact (fresh.trans (mappages_free mapping).sublist).cons_cons mem
        · refine .inr ⟨rfl, ?_⟩
          rw [undone, entry, Function.update_idem, Function.update_self, fill_of_update above (by omega)]
      next failure =>
        rw [if_neg failure] at entry
        obtain ⟨⟨r', m₃⟩, undone, ran⟩ := bind_ok ran
        cases ran
        refine .inr ⟨rfl, ?_⟩
        rw [← entry, ← (deallocuvm_entry undone).2]
        exact entry_congr rfl

/-- `allocuvm` maps the pages from the old size up to the new one, writable and for the user, on
frames of the free list; when it fails it leaves none of them. -/
theorem allocuvm_entry {oldsz newsz r : Nat} (ran : allocuvm m pgdir oldsz newsz = .ok (r, m')) :
    (r = newsz ∧ oldsz ≤ newsz ∧ newsz < KERNBASE ∧ ∃ frame : Nat → Nat,
      m'.entry = update m.entry pgdir
        (patch (m.entry pgdir) (pages oldsz) (pages newsz) fun j => some ⟨frame j, true, true⟩) ∧
      ((List.range' (pages oldsz) (pages newsz - pages oldsz)).map frame ++ m'.free).Sublist m.free) ∨
      (r = oldsz ∧ newsz < oldsz ∧ m' = m) ∨
      r = 0 ∧ (newsz ≥ KERNBASE ∧ m' = m ∨
        m'.entry = update m.entry pgdir (fill (m.entry pgdir) (pages oldsz) (pages newsz) none)) := by
  unfold allocuvm at ran
  split at ran
  next high =>
    cases ran
    exact .inr (.inr ⟨rfl, .inl ⟨high, rfl⟩⟩)
  next user =>
    split at ran
    next smaller =>
      cases ran
      exact .inr (.inl ⟨rfl, smaller, rfl⟩)
    next order =>
      have order : oldsz ≤ newsz := by omega
      have reached : pages oldsz + (newsz - PGROUNDUP oldsz + PGSIZE - 1) / PGSIZE = pages newsz := by
        simp only [PGROUNDUP, pages, PGSIZE]
        omega
      rcases allocLoop_entry ran le_rfl reached with ⟨rfl, frame, entry, fresh⟩ | ⟨rfl, entry⟩
      · refine .inl ⟨rfl, order, by omega, frame, entry, ?_⟩
        rwa [← reached, Nat.add_sub_cancel_left]
      · exact .inr (.inr ⟨rfl, .inr entry⟩)

/-! ### The pages the user can reach -/

theorem page_congr (same : m'.entry = m.entry) : m'.page = m.page := by
  funext d i
  exact congrArg (Option.map Pte.user) (congrFun (congrFun same d) i)

theorem page_update {entries : Nat → Option Pte} (entry : m'.entry = update m.entry pgdir entries) :
    m'.page = update m.page pgdir fun i => (entries i).map Pte.user := by
  funext d i
  have here := congrArg (Option.map Pte.user) (congrFun (congrFun entry d) i)
  by_cases same : d = pgdir
  · subst same
    rw [Function.update_self] at here ⊢
    exact here
  · rw [Function.update_of_ne same] at here ⊢
    exact here

theorem page_kfree (m : Memory) (v : Nat) : (kfree m v).page = m.page := page_congr (entry_congr rfl)

theorem kalloc_page {r : Nat} (taken : kalloc m = some (r, m')) : m'.page = m.page :=
  page_congr (entry_congr (kalloc_dirs taken))

theorem walkpgdir_page {alloc : Bool} (walked : walkpgdir m pgdir (i * PGSIZE) alloc = some m') :
    m'.page = m.page ∧ (m'.dirs pgdir).tables (i / 1024) ≠ none := by
  obtain ⟨same, present⟩ := walkpgdir_entry walked
  exact ⟨page_congr same, present⟩

theorem mappages_page {frame : Nat} {writable user mapped : Bool}
    (ran : mappages m pgdir (i * PGSIZE) PGSIZE frame writable user = .ok (mapped, m')) :
    m'.page =
      if mapped then update m.page pgdir (update (m.page pgdir) i (some user)) else m.page := by
  have entry := mappages_entry ran
  cases mapped with
  | false => exact page_congr entry
  | true =>
    rw [if_pos rfl, page_update entry]
    congr 1
    exact Function.comp_update (Option.map Pte.user) _ _ _

theorem deallocuvm_page {oldsz newsz r : Nat} (ran : deallocuvm m pgdir oldsz newsz = .ok (r, m')) :
    r = min oldsz newsz ∧
      m'.page = update m.page pgdir (fill (m.page pgdir) (pages newsz) (pages oldsz) none) := by
  obtain ⟨size, entry⟩ := deallocuvm_entry ran
  refine ⟨size, ?_⟩
  rw [page_update entry]
  congr 1
  exact comp_fill (Option.map Pte.user) _ _ _ _

theorem allocuvm_page {oldsz newsz r : Nat} (ran : allocuvm m pgdir oldsz newsz = .ok (r, m')) :
    (r = newsz ∧ oldsz ≤ newsz ∧ newsz < KERNBASE ∧
      m'.page =
        update m.page pgdir (fill (m.page pgdir) (pages oldsz) (pages newsz) (some true))) ∨
      (r = oldsz ∧ newsz < oldsz ∧ m' = m) ∨
      r = 0 ∧ (m' = m ∨
        m'.page = update m.page pgdir (fill (m.page pgdir) (pages oldsz) (pages newsz) none)) := by
  rcases allocuvm_entry ran with ⟨rfl, order, user, frame, entry, -⟩ | smaller | ⟨rfl, high | entry⟩
  · refine .inl ⟨rfl, order, user, ?_⟩
    rw [page_update entry]
    congr 1
    exact comp_patch (Option.map Pte.user) _ _ _ _
  · exact .inr (.inl smaller)
  · exact .inr (.inr ⟨rfl, .inl high.2⟩)
  · refine .inr (.inr ⟨rfl, .inr ?_⟩)
    rw [page_update entry]
    congr 1
    exact comp_fill (Option.map Pte.user) _ _ _ _

/-! ### Mapping a page twice -/

theorem deallocuvm_no_remap (m : Memory) (pgdir oldsz newsz : Nat) :
    Avoids (.panic .remap) (fun _ => True) (deallocuvm m pgdir oldsz newsz) := by
  have loop : ∀ rounds a m, Avoids (.panic .remap) (fun _ => True) (deallocLoop pgdir oldsz rounds a m) := by
    intro rounds
    induction rounds with
    | zero => exact fun a m => .ok trivial
    | succ rounds ih =>
      intro a m
      unfold deallocLoop
      split
      · split
        · exact ih _ _
        · split
          · exact ih _ _
          · split
            · exact .throw nofun
            · exact ih _ _
      · exact .ok trivial
  unfold deallocuvm
  split
  · exact .ok trivial
  · exact (loop _ _ _).bind fun _ _ => .ok trivial

theorem mappages_no_remap {frame : Nat} {writable user : Bool} (missing : m.page pgdir i = none) :
    Avoids (.panic .remap) (fun _ => True) (mappages m pgdir (i * PGSIZE) PGSIZE frame writable user) := by
  rw [mappages_one]
  split
  · exact .ok trivial
  next m₁ walked =>
    split
    next mapped =>
      rw [← (walkpgdir_page walked).1, Memory.page, Option.map_eq_none_iff] at missing
      rw [Memory.entry, missing] at mapped
      cases mapped
    · exact .ok trivial

/-- `allocuvm` over pages of which none is there. -/
theorem allocuvm_no_remap {oldsz newsz : Nat} (missing : ∀ i, pages oldsz ≤ i → m.page pgdir i = none) :
    Avoids (.panic .remap) (fun _ => True) (allocuvm m pgdir oldsz newsz) := by
  have loop : ∀ rounds i m, (∀ j, i ≤ j → m.page pgdir j = none) →
      Avoids (.panic .remap) (fun _ => True) (allocLoop pgdir oldsz newsz rounds (i * PGSIZE) m) := by
    intro rounds
    induction rounds with
    | zero => exact fun i m missing => .ok trivial
    | succ rounds ih =>
      intro i m missing
      simp only [allocLoop]
      split
      · exact (deallocuvm_no_remap ..).bind fun _ _ => .ok trivial
      next mem m₁ taken =>
        have missing₁ : ∀ j, i ≤ j → m₁.page pgdir j = none := by
          rw [kalloc_page taken]
          exact missing
        refine (mappages_no_remap (missing₁ i le_rfl)).bind_eq fun ⟨mapped, m₂⟩ mapping => ?_
        have page := mappages_page mapping
        cases mapped with
        | false => exact (deallocuvm_no_remap ..).bind fun _ _ => .ok trivial
        | true =>
          have next : i * PGSIZE + PGSIZE = (i + 1) * PGSIZE := by
            simp only [PGSIZE]
            omega
          simp only [if_true]
          rw [next]
          refine ih (i + 1) m₂ fun j above => ?_
          rw [page, if_pos rfl, Function.update_self, Function.update_of_ne (by omega)]
          exact missing₁ j (by omega)
  unfold allocuvm
  split
  · exact .ok trivial
  · split
    · exact .ok trivial
    · exact loop _ _ _ missing

/-! ### Guard pages -/

theorem clearpteu_entry (ran : clearpteu m pgdir (i * PGSIZE) = .ok m') :
    m'.entry = update m.entry pgdir
      (update (m.entry pgdir) i ((m.entry pgdir i).map fun pte => { pte with user := false })) := by
  unfold clearpteu at ran
  split at ran
  · cases ran
  next m₁ walked =>
    have present := (walkpgdir_entry walked).2
    obtain rfl := walkpgdir_false walked
    cases ran
    rw [entry_setPte present, Memory.entry]

theorem clearpteu_page (ran : clearpteu m pgdir (i * PGSIZE) = .ok m') :
    m'.page = update m.page pgdir
      (update (m.page pgdir) i ((m.page pgdir i).map fun _ => false)) := by
  rw [page_update (clearpteu_entry ran)]
  congr 1
  refine (Function.comp_update (Option.map Pte.user) _ _ _).trans ?_
  rw [Memory.page, Option.map_map, Option.map_map]
  rfl

/-! ### Whole page directories -/

theorem foldl_kfree_dirs (frames : List Nat) (m : Memory) : (frames.foldl kfree m).dirs = m.dirs := by
  induction frames generalizing m with
  | nil => rfl
  | cons v frames ih => exact ih (kfree m v)

theorem freevm_entry (ran : freevm m pgdir = .ok m') : m'.entry = update m.entry pgdir fun _ => none := by
  unfold freevm at ran
  split at ran
  · cases ran
  · obtain ⟨⟨r, m₁⟩, dropped, ran⟩ := bind_ok ran
    cases ran
    have entry := (deallocuvm_entry dropped).2
    funext d i
    by_cases here : d = pgdir
    · subst here
      simp [entry_eq, kfree]
    · rw [Function.update_of_ne here, entry_eq]
      simp only [kfree, Function.update_of_ne here, foldl_kfree_dirs]
      rw [← entry_eq, entry, Function.update_of_ne here]

theorem freevm_page (ran : freevm m pgdir = .ok m') : m'.page = update m.page pgdir fun _ => none :=
  page_update (freevm_entry ran)

theorem kernelTables_dirs : ∀ {n : Nat} {m m' : Memory} {frames : List Nat},
    kernelTables n m = (frames, m') → m'.dirs = m.dirs := by
  intro n
  induction n with
  | zero =>
    intro m m' frames ran
    cases ran
    rfl
  | succ n ih =>
    intro m m' frames ran
    simp only [kernelTables] at ran
    split at ran
    · cases ran
      rfl
    next pgtab m₁ taken =>
      generalize rest : kernelTables n m₁ = pair at ran
      obtain ⟨frames', m₂⟩ := pair
      cases ran
      exact (ih rest).trans (kalloc_dirs taken)

/-- `setupkvm` takes a free frame and maps no user page. -/
theorem setupkvm_entry (ran : setupkvm m = .ok (pgdir, m')) (success : pgdir ≠ 0) :
    pgdir ∈ m.free ∧ m'.entry = update m.entry pgdir fun _ => none := by
  unfold setupkvm at ran
  split at ran
  · cases ran
    exact absurd rfl success
  next d m₁ taken =>
    generalize tables : kernelTables KERNTABLES m₁ = pair at ran
    obtain ⟨frames, m₂⟩ := pair
    simp only at ran
    split at ran
    · obtain ⟨m₃, _, ran⟩ := bind_ok ran
      cases ran
      exact absurd rfl success
    · cases ran
      have dirs := (kernelTables_dirs tables).trans (kalloc_dirs taken)
      refine ⟨by simp [kalloc_free taken], ?_⟩
      funext e i
      by_cases here : e = pgdir
      · subst here
        simp [entry_eq]
      · simp only [entry_eq, Function.update_of_ne here, dirs]

theorem setupkvm_page (ran : setupkvm m = .ok (pgdir, m')) (success : pgdir ≠ 0) :
    pgdir ∈ m.free ∧ m'.page = update m.page pgdir fun _ => none := by
  obtain ⟨fresh, entry⟩ := setupkvm_entry ran success
  exact ⟨fresh, page_update entry⟩

end Xv6.Vm
