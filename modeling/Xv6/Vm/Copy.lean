import Xv6.Vm.Resize

/-!
# Copying an address space

`copyuvm2` makes a new page directory with a copy of every page of the parent, holes included. If
the frames do not last, everything it took goes back to the free list.
-/

namespace Xv6.Vm

open Function (update)
open Regions Steps

variable {m m' : Memory} {r r' : Ram} {pgdir d sz i n : Nat}

/-! ### Frames -/

/-- A frame is free, or the directory `d`, one of its page tables or one of its pages. -/
def Memory.Holds (m : Memory) (d f : Nat) : Prop :=
  f ∈ m.free ∨ f = d ∨ f ∈ userTables (m.dirs d) ++ (m.dirs d).kernel ∨
    ∃ i < 512 * 1024, ∃ pte, m.entry d i = some pte ∧ pte.frame = f

theorem mem_held {f : Nat} : f ∈ m.held d ↔ m.Holds d f := by
  have page : f ∈ ∑ t ∈ Finset.range 512, ∑ j ∈ Finset.range 1024, entryFrames (m.entry d (t * 1024 + j)) ↔
      ∃ i < 512 * 1024, ∃ pte, m.entry d i = some pte ∧ pte.frame = f := by
    simp only [Multiset.mem_sum, Finset.mem_range]
    constructor
    · rintro ⟨t, small, j, less, here⟩
      refine ⟨t * 1024 + j, by omega, ?_⟩
      cases found : m.entry d (t * 1024 + j) with
      | none => simp [found, entryFrames] at here
      | some pte =>
        rw [found, entryFrames, Multiset.mem_singleton] at here
        exact ⟨pte, rfl, here.symm⟩
    · rintro ⟨i, inside, pte, found, rfl⟩
      refine ⟨i / 1024, by omega, i % 1024, by omega, ?_⟩
      rw [show i / 1024 * 1024 + i % 1024 = i by omega, found, entryFrames, Multiset.mem_singleton]
  rw [Memory.held, dirFrames_eq, Multiset.mem_add, Multiset.mem_cons, Multiset.mem_add, page, Multiset.mem_coe, Multiset.mem_coe]
  rfl

theorem Moves.holds {f : Nat} (moved : Moves d 0 m m') : m.Holds d f ↔ m'.Holds d f := by
  rw [← mem_held, ← mem_held, moved.held, zero_add]

theorem setupkvm_holds {m₁ m₂ : Memory} {kernel : List Nat} {f : Nat} (taken : kalloc m = some (d, m₁))
    (tables : kernelTables KERNTABLES m₁ = (kernel, m₂)) :
    Memory.Holds { m₂ with dirs := update m₂.dirs d { tables := fun _ => none, kernel } } d f ↔ f ∈ m.free := by
  rw [← mem_held, setupkvm_held taken tables, Multiset.mem_coe]

theorem copyLoop_moves : ∀ {rounds i : Nat} {copied : Bool} {m m' : Memory}, i + rounds ≤ 512 * 1024 →
    copyLoop pgdir d rounds (i * PGSIZE) m = .ok (copied, m') → Moves d 0 m m' := by
  intro rounds
  induction rounds with
  | zero =>
    intro i copied m m' inside ran
    cases ran
    exact .refl d m
  | succ rounds ih =>
    intro i copied m m' inside ran
    simp only [copyLoop] at ran
    split at ran
    · cases ran
    next m₁ walked =>
      obtain rfl := walkpgdir_false walked
      rw [next_page] at ran
      split at ran
      · exact ih (by omega) ran
      next pte found =>
        split at ran
        · cases ran
          exact .refl d _
        next mem m₂ taken =>
          obtain ⟨held, dirs⟩ := kalloc_held (d := d) taken
          obtain ⟨⟨mapped, m₃⟩, mapping, ran⟩ := bind_ok ran
          have moved := mappages_moves (by omega) mapping
          simp only at ran
          -- the frame is in the new directory, or back on the free list
          have kept : ∀ {m₄}, m₄.held d = {mem} + m₂.held d → (∀ e, e ≠ d → m₄.dirs e = m₃.dirs e) → Moves d 0 m₁ m₄ := by
            intro m₄ same others
            refine ⟨?_, fun e other => (others e other).trans ((moved.others e other).trans (congrFun dirs e))⟩
            rw [same, held, zero_add, Multiset.singleton_add]
          cases mapped with
          | true => exact (kept (by rw [moved.held, if_pos rfl]) fun _ _ => rfl).then_ (ih (by omega) ran)
          | false =>
            cases ran
            refine kept ?_ fun _ _ => rfl
            rw [(moves_kfree m₃ d mem).held, moved.held, if_neg (by decide), zero_add]

namespace Ram

/-! ### `freevm` and `setupkvm` -/

theorem kfree_data {f v : Nat} (other : f ≠ v) : (r.kfree v).data f = r.data f := Function.update_of_ne other _ _

theorem foldl_kfree_data {f : Nat} : ∀ {frames : List Nat} {r : Ram}, f ∉ frames → (frames.foldl kfree r).data f = r.data f := by
  intro frames
  induction frames with
  | nil => exact fun _ => rfl
  | cons v frames ih =>
    intro r other
    rw [List.mem_cons, not_or] at other
    exact (ih other.2).trans (kfree_data other.1)

theorem present_holds {f : Nat} (inside : i + n ≤ 512 * 1024) (mapped : f ∈ r.present d i n) : r.mem.Holds d f := by
  obtain ⟨j, pte, above, below, found, same⟩ := mem_present.mp mapped
  exact .inr (.inr (.inr ⟨j, by omega, pte, found, same⟩))

theorem pages_KERNBASE : pages KERNBASE = 512 * 1024 := by decide

/-- `freevm` writes only to frames of the directory it frees. -/
theorem freevm_data {f : Nat} (ran : r.freevm d = .ok r') (other : ¬r.mem.Holds d f) : r'.data f = r.data f := by
  unfold freevm at ran
  split at ran
  · cases ran
  · obtain ⟨⟨sz, r₁⟩, unmapped, ran⟩ := bind_ok ran
    cases ran
    have first : r₁.data f = r.data f := by
      refine deallocuvm_data unmapped fun mapped => other (present_holds ?_ mapped)
      rw [pages_KERNBASE]
      decide
    have moved := deallocuvm_moves le_rfl (tables_ok (deallocuvm_mem ..) unmapped)
    rw [moved.holds] at other
    have own : f ≠ d := fun same => other (.inr (.inl same))
    have second : f ∉ userTables (r₁.mem.dirs d) ++ (r₁.mem.dirs d).kernel := fun table => other (.inr (.inr (.inl table)))
    have kept := foldl_kfree_data (r := r₁) second
    rw [kfree_data own]
    dsimp only
    rw [kept, first]

theorem freevm_returns (dir : d ≠ 0) (real : ¬r.mem.Holds d 0) : ∃ r', r.freevm d = .ok r' := by
  have unmapped : 0 ∉ r.present d (pages 0) (pages KERNBASE - pages 0) := by
    intro mapped
    refine real (present_holds ?_ mapped)
    rw [pages_KERNBASE]
    decide
  obtain ⟨sz, r₁, ran⟩ := deallocuvm_returns unmapped
  rw [freevm, if_neg dir, ok_bind ran]
  exact ⟨_, rfl⟩

theorem setupkvm_data {f : Nat} (ran : r.setupkvm = .ok (d, r')) (used : f ∉ r.mem.free) : r'.data f = r.data f := by
  unfold setupkvm at ran
  split at ran
  · cases ran
    rfl
  next pgdir m taken =>
    generalize tables : kernelTables KERNTABLES m = pair at ran
    obtain ⟨kernel, m₂⟩ := pair
    simp only at ran
    split at ran
    · obtain ⟨r₁, freed, ran⟩ := bind_ok ran
      cases ran
      have other := mt (setupkvm_holds taken tables).mp used
      exact (freevm_data freed other :)
    · cases ran
      rfl

theorem setupkvm_returns (real : 0 ∉ r.mem.free) : ∃ d r', r.setupkvm = .ok (d, r') := by
  unfold setupkvm
  split
  · exact ⟨0, r, rfl⟩
  next pgdir m taken =>
    generalize tables : kernelTables KERNTABLES m = pair
    obtain ⟨kernel, m₂⟩ := pair
    simp only
    split
    · have dir : pgdir ≠ 0 := by
        rintro rfl
        exact real (mem_free_of_kalloc taken)
      obtain ⟨r₁, freed⟩ := freevm_returns (r := ⟨_, r.data⟩) dir (mt (setupkvm_holds taken tables).mp real)
      exact ⟨0, r₁, ok_bind freed⟩
    · exact ⟨pgdir, _, rfl⟩

/-! ### The loop -/

/-- The pages that the loop finds, from `i` on. -/
def found (r : Ram) (pgdir i n : Nat) : List Nat :=
  (List.range' i n).filter fun j => (r.mem.entry pgdir j).isSome

/-- What the loop of `copyuvm2` leaves: the parent's entries on frames from the free list, with the
contents of the parent's frames. -/
structure Copies (pgdir d i n : Nat) (r r' : Ram) (frame : Nat → Nat) : Prop where
  entry : r'.mem.entry d = patch (r.mem.entry d) i (i + n) fun j =>
    (r.mem.entry pgdir j).map fun pte => { pte with frame := frame j }
  fresh : ((r.found pgdir i n).map frame ++ r'.mem.free).Sublist r.mem.free
  data : ∀ j pte, i ≤ j → j < i + n → r.mem.entry pgdir j = some pte → r'.data (frame j) = r.data pte.frame

namespace Copies

variable {frame : Nat → Nat}

theorem skip (copies : Copies pgdir d (i + 1) n r r' frame) (hole : r.mem.entry pgdir i = none)
    (blank : r.mem.entry d i = none) : Copies pgdir d i (n + 1) r r' frame where
  entry := by
    rw [copies.entry]
    funext j
    by_cases first : j = i
    · subst first
      rw [patch_outside (.inl (by omega)), patch_inside le_rfl (by omega), hole, blank]
      rfl
    · simp only [patch]
      grind
  fresh := by
    rw [found, List.range'_succ, List.filter_cons_of_neg (by simp [hole])]
    exact copies.fresh
  data j pte above below mapped := by
    by_cases first : j = i
    · rw [first, hole] at mapped
      cases mapped
    · exact copies.data j pte (by omega) (by omega) mapped

/-- A page is copied to `mem`, and then the others. -/
theorem cons {m₁ : Memory} {r₁ : Ram} {mem : Nat} {pte : Pte} (copies : Copies pgdir d (i + 1) n r₁ r' frame)
    (here : r.mem.entry pgdir i = some pte) (taken : kalloc r.mem = some (mem, m₁))
    (parent : r₁.mem.entry pgdir = r.mem.entry pgdir) (left : r₁.mem.free <:+ m₁.free)
    (data : r₁.data = update r.data mem (r.data pte.frame))
    (entry : r₁.mem.entry d = update (r.mem.entry d) i (some { pte with frame := mem }))
    (own : r'.data mem = r₁.data mem)
    (used : ∀ j pte, i ≤ j → j < i + (n + 1) → r.mem.entry pgdir j = some pte → pte.frame ≠ mem) :
    Copies pgdir d i (n + 1) r r' (update frame i mem) where
  entry := by
    rw [copies.entry, parent, entry]
    funext j
    by_cases first : j = i
    · subst first
      rw [patch_outside (.inl (by omega)), patch_inside le_rfl (by omega), here, Function.update_self,
        Function.update_self]
      rfl
    · simp only [patch, Function.update_of_ne first]
      grind
  fresh := by
    have rest : (r.found pgdir (i + 1) n).map (update frame i mem) = (r₁.found pgdir (i + 1) n).map frame := by
      rw [found, found, parent]
      refine List.map_congr_left fun j inside => Function.update_of_ne ?_ _ _
      have above := List.mem_range'_1.mp (List.mem_of_mem_filter inside)
      omega
    rw [found, List.range'_succ, List.filter_cons_of_pos (by simp [here]), ← found, List.map_cons, Function.update_self, rest,
      kalloc_free taken]
    exact (copies.fresh.trans left.sublist).cons_cons mem
  data j pte' above below mapped := by
    by_cases first : j = i
    · subst first
      rw [here] at mapped
      cases mapped
      rw [Function.update_self, own, data, Function.update_self]
    · rw [Function.update_of_ne first, copies.data j pte' (by omega) (by omega) (by rw [parent]; exact mapped), data,
        Function.update_of_ne (used j pte' above below mapped)]

end Copies

theorem copyLoop_succ (pgdir d rounds i : Nat) {r : Ram} {pte : Pte} (here : r.mem.entry pgdir i = some pte) :
    copyLoop pgdir d (rounds + 1) (i * PGSIZE) r =
      match kalloc r.mem with
      | none => .ok (false, r)
      | some (mem, m) => (do
        let (mapped, r) ← mappages { mem := m, data := update r.data mem (r.data pte.frame) }
          d (i * PGSIZE) PGSIZE mem pte.writable pte.user
        if mapped then copyLoop pgdir d rounds ((i + 1) * PGSIZE) r else .ok (false, r.kfree mem)) := by
  have table : walkpgdir r.mem pgdir (i * PGSIZE) false = some r.mem := by
    cases walked : walkpgdir r.mem pgdir (i * PGSIZE) false with
    | some m => rw [walkpgdir_false walked]
    | none =>
      rw [entry_eq, walkpgdir_none walked] at here
      cases here
  rw [Memory.entry] at here
  simp only [copyLoop, table, here, next_page]
  all_goals rfl

theorem copyLoop_absent (pgdir d rounds i : Nat) {r : Ram} (table : (r.mem.dirs pgdir).tables (i / 1024) ≠ none)
    (absent : r.mem.entry pgdir i = none) :
    copyLoop pgdir d (rounds + 1) (i * PGSIZE) r = copyLoop pgdir d rounds ((i + 1) * PGSIZE) r := by
  have walked : walkpgdir r.mem pgdir (i * PGSIZE) false = some r.mem := by
    cases walked : walkpgdir r.mem pgdir (i * PGSIZE) false with
    | some m => rw [walkpgdir_false walked]
    | none => exact absurd (walkpgdir_none walked) table
  rw [Memory.entry] at absent
  simp only [copyLoop, walked, absent, next_page]

theorem copied_page {m₁ : Memory} {mem : Nat} {pte : Pte} {mapped : Bool} (apart : pgdir ≠ d)
    (taken : kalloc r.mem = some (mem, m₁))
    (mapping : mappages { mem := m₁, data := update r.data mem (r.data pte.frame) } d (i * PGSIZE) PGSIZE mem
      pte.writable pte.user = .ok (mapped, r')) :
    r'.mem.entry pgdir = r.mem.entry pgdir ∧ r'.mem.free <:+ m₁.free ∧ r'.data = update r.data mem (r.data pte.frame) ∧
      (mapped = true → r'.mem.entry d = update (r.mem.entry d) i (some { pte with frame := mem })) := by
  obtain ⟨mapping, data⟩ := mappages_ok mapping
  have entry := mappages_entry mapping
  have left := mappages_free mapping
  simp only at entry left data
  rw [entry_congr (kalloc_dirs taken)] at entry
  refine ⟨?_, left, data, fun done => ?_⟩
  · rw [entry]
    split
    · rw [Function.update_of_ne apart]
    · rfl
  · rw [entry, if_pos done, Function.update_self]

/-- What one turn of the loop can do: skip a hole of the parent, give up for want of a frame or of a page
table, or copy the page and go on. -/
theorem copyLoop_turn {rounds : Nat} {copied : Bool} (apart : pgdir ≠ d)
    (ran : copyLoop pgdir d (rounds + 1) (i * PGSIZE) r = .ok (copied, r')) :
    r.mem.entry pgdir i = none ∧ copyLoop pgdir d rounds ((i + 1) * PGSIZE) r = .ok (copied, r') ∨
    copied = false ∧ (∀ f, f ∉ r.mem.free → r'.data f = r.data f) ∨
    ∃ pte mem m₁ r₁, r.mem.entry pgdir i = some pte ∧ kalloc r.mem = some (mem, m₁) ∧
      r₁.mem.entry pgdir = r.mem.entry pgdir ∧ r₁.mem.free <:+ m₁.free ∧
      r₁.data = update r.data mem (r.data pte.frame) ∧
      r₁.mem.entry d = update (r.mem.entry d) i (some { pte with frame := mem }) ∧
      copyLoop pgdir d rounds ((i + 1) * PGSIZE) r₁ = .ok (copied, r') := by
  cases here : r.mem.entry pgdir i with
  | none =>
    by_cases table : (r.mem.dirs pgdir).tables (i / 1024) = none
    · have walked : walkpgdir r.mem pgdir (i * PGSIZE) false = none := by
        unfold walkpgdir
        rw [PDX_page, table]
        rfl
      simp only [copyLoop, walked] at ran
      cases ran
    · rw [copyLoop_absent _ _ _ _ table here] at ran
      exact .inl ⟨rfl, ran⟩
  | some pte =>
    rw [copyLoop_succ _ _ _ _ here] at ran
    split at ran
    · cases ran
      exact .inr (.inl ⟨rfl, fun _ _ => rfl⟩)
    next mem m₁ taken =>
      obtain ⟨⟨mapped, r₁⟩, mapping, ran⟩ := bind_ok ran
      obtain ⟨parent, left, data, entry⟩ := copied_page apart taken mapping
      cases mapped with
      | true => exact .inr (.inr ⟨pte, mem, m₁, r₁, rfl, taken, parent, left, data, entry rfl, ran⟩)
      | false =>
        cases ran
        refine .inr (.inl ⟨rfl, fun f used => ?_⟩)
        have other : f ≠ mem := by
          rintro rfl
          exact used (mem_free_of_kalloc taken)
        rw [kfree_data other, data, Function.update_of_ne other]

theorem copyLoop_data {f : Nat} (apart : pgdir ≠ d) : ∀ {rounds i : Nat} {copied : Bool} {r : Ram},
    copyLoop pgdir d rounds (i * PGSIZE) r = .ok (copied, r') → f ∉ r.mem.free → r'.data f = r.data f := by
  intro rounds
  induction rounds with
  | zero =>
    intro i copied r ran used
    cases ran
    rfl
  | succ rounds ih =>
    intro i copied r ran used
    rcases copyLoop_turn apart ran with ⟨-, rest⟩ | ⟨-, kept⟩ | ⟨pte, mem, m₁, r₁, -, taken, -, left, data, -, rest⟩
    · exact ih rest used
    · exact kept f used
    · rw [kalloc_free taken, List.mem_cons, not_or] at used
      rw [ih rest fun free => used.2 (left.subset free), data, Function.update_of_ne used.1]

theorem copyLoop_copies (apart : pgdir ≠ d) : ∀ {rounds i : Nat} {r : Ram}, r.mem.free.Nodup →
    (∀ j pte, i ≤ j → j < i + rounds → r.mem.entry pgdir j = some pte → pte.frame ∉ r.mem.free) →
    (∀ j, i ≤ j → j < i + rounds → r.mem.entry d j = none) →
    copyLoop pgdir d rounds (i * PGSIZE) r = .ok (true, r') → ∃ frame, Copies pgdir d i rounds r r' frame := by
  intro rounds
  induction rounds with
  | zero =>
    intro i r _ _ _ ran
    cases ran
    refine ⟨fun _ => 0, ?_, List.Sublist.refl _, fun j pte above below => by omega⟩
    rw [Nat.add_zero, patch_empty]
  | succ rounds ih =>
    intro i r nodup used blank ran
    rcases copyLoop_turn apart ran with
      ⟨hole, rest⟩ | ⟨failed, -⟩ | ⟨pte, mem, m₁, r₁, here, taken, parent, left, data, entry, rest⟩
    · obtain ⟨frame, copies⟩ := ih nodup (fun j pte above below => used j pte (by omega) (by omega))
        (fun j above below => blank j (by omega) (by omega)) rest
      exact ⟨frame, copies.skip hole (blank i le_rfl (by omega))⟩
    · cases failed
    · have free := kalloc_free taken
      rw [free, List.nodup_cons] at nodup
      have used₁ : ∀ j pte, i + 1 ≤ j → j < i + 1 + rounds → r₁.mem.entry pgdir j = some pte → pte.frame ∉ r₁.mem.free := by
        intro j pte above below mapped back
        rw [parent] at mapped
        refine used j pte (by omega) (by omega) mapped ?_
        rw [free]
        exact List.mem_cons_of_mem _ (left.subset back)
      have blank₁ : ∀ j, i + 1 ≤ j → j < i + 1 + rounds → r₁.mem.entry d j = none := by
        intro j above below
        rw [entry, Function.update_of_ne (by omega)]
        exact blank j (by omega) (by omega)
      obtain ⟨frame, copies⟩ := ih (nodup.2.sublist left.sublist) used₁ blank₁ rest
      -- the new frame is not free any more, so the other turns leave it as it is
      have own := copyLoop_data apart rest fun back => nodup.1 (left.subset back)
      refine ⟨update frame i mem, copies.cons here taken parent left data entry own fun j pte above below mapped => ?_⟩
      rintro rfl
      refine used j pte above below mapped ?_
      rw [free]
      exact List.mem_cons_self

/-- The loop returns when the parent has its page tables and the pages of the child are not there. -/
theorem copyLoop_returns (apart : pgdir ≠ d) : ∀ {rounds i : Nat} {r : Ram}, i + rounds ≤ 512 * 1024 →
    (∀ j, i ≤ j → j < i + rounds → (r.mem.dirs pgdir).tables (j / 1024) ≠ none) →
    (∀ j, i ≤ j → j < i + rounds → r.mem.entry d j = none) →
    ∃ copied r', copyLoop pgdir d rounds (i * PGSIZE) r = .ok (copied, r') := by
  intro rounds
  induction rounds with
  | zero => exact fun _ _ _ => ⟨true, _, rfl⟩
  | succ rounds ih =>
    intro i r inside tables blank
    cases here : r.mem.entry pgdir i with
    | none =>
      rw [copyLoop_absent _ _ _ _ (tables i le_rfl (by omega)) here]
      exact ih (by omega) (fun j above below => tables j (by omega) (by omega))
        fun j above below => blank j (by omega) (by omega)
    | some pte =>
      rw [copyLoop_succ _ _ _ _ here]
      cases taken : kalloc r.mem with
      | none => exact ⟨false, r, rfl⟩
      | some pair =>
        obtain ⟨mem, m₁⟩ := pair
        have missing : (Ram.mk m₁ (update r.data mem (r.data pte.frame))).mem.entry d i = none := by
          rw [← blank i le_rfl (by omega)]
          exact congrFun (congrFun (entry_congr (kalloc_dirs taken)) d) i
        obtain ⟨mapped, r₁, mapping⟩ := mappages_returns mem pte.writable pte.user missing
        simp only
        rw [ok_bind mapping]
        have moved := mappages_moves (by omega) (mappages_ok mapping).1
        have others := (moved.others pgdir apart).trans (congrFun (kalloc_dirs taken) pgdir)
        obtain ⟨-, -, -, entry⟩ := copied_page apart taken mapping
        cases mapped with
        | false => exact ⟨false, _, rfl⟩
        | true =>
          refine ih (by omega) (fun j above below => ?_) fun j above below => ?_
          · rw [others]
            exact tables j (by omega) (by omega)
          · rw [entry rfl, Function.update_of_ne (by omega)]
            exact blank j (by omega) (by omega)

/-! ### The call -/

/-- A copy of the pages below `sz` in the directory `d`. -/
structure Copied (pgdir sz d : Nat) (r r' : Ram) : Prop where
  /-- the pages of the parent with their flags and contents, each on a frame of its own from the free
  list -/
  copies : ∃ frame : Nat → Nat,
    (∀ i < pages sz, r'.mem.entry d i = (r.mem.entry pgdir i).map fun pte => { pte with frame := frame i }) ∧
    (∀ i < pages sz, ∀ pte, r.mem.entry pgdir i = some pte →
      frame i ∈ r.mem.free ∧ frame i ∉ r'.mem.free ∧ r'.data (frame i) = r.data pte.frame) ∧
    Set.InjOn frame { i | i < pages sz ∧ r.mem.entry pgdir i ≠ none }
  /-- nothing else -/
  rest : ∀ i, pages sz ≤ i → r'.mem.entry d i = none
  fresh : d ∈ r.mem.free

theorem Copies.distinct {frame : Nat → Nat} (copies : Copies pgdir d i n r r' frame) (nodup : r.mem.free.Nodup) :
    Set.InjOn frame { j | j ∈ r.found pgdir i n } ∧ ∀ j ∈ r.found pgdir i n, frame j ∈ r.mem.free ∧ frame j ∉ r'.mem.free := by
  have distinct := nodup.sublist copies.fresh
  rw [List.nodup_append] at distinct
  refine ⟨fun j here k there same => List.inj_on_of_nodup_map distinct.1 here there same, fun j here => ?_⟩
  have member := List.mem_map_of_mem (f := frame) here
  exact ⟨copies.fresh.subset (List.mem_append_left _ member), fun free => distinct.2.2 _ member _ free rfl⟩

theorem free_of_held {free : List Nat} (held : m.held d = free) : (free.Nodup → m.free.Nodup) ∧ ∀ f, f ∈ m.free → f ∈ free := by
  unfold Memory.held at held
  generalize d ::ₘ dirFrames (m.dirs d) = rest at held
  have left : (m.free : Multiset Nat) ≤ free := by
    rw [← held]
    exact Multiset.le_add_right _ _
  exact ⟨fun nodup => Multiset.coe_nodup.mp (Multiset.nodup_of_le left (Multiset.coe_nodup.mpr nodup)),
    fun f member => Multiset.mem_coe.mp (Multiset.mem_of_le left (Multiset.mem_coe.mpr member))⟩

/-- The free list and the new directory after `setupkvm`. -/
structure Fresh (d : Nat) (r r₁ : Ram) : Prop where
  held : r₁.mem.held d = r.mem.free
  nodup : r₁.mem.free.Nodup
  free : ∀ f, f ∈ r₁.mem.free → f ∈ r.mem.free
  entry : r₁.mem.entry = update r.mem.entry d fun _ => none
  others : ∀ e, e ∉ r.mem.free → r₁.mem.dirs e = r.mem.dirs e
  data : ∀ f, f ∉ r.mem.free → r₁.data f = r.data f
  dir : d ∈ r.mem.free

theorem setupkvm_fresh {r₁ : Ram} (linked : Linked r.mem) (made : r.setupkvm = .ok (d, r₁)) (success : d ≠ 0) :
    Fresh d r r₁ := by
  have setup := tables_ok (setupkvm_mem r) made
  obtain ⟨-, held, others⟩ := setupkvm_free setup
  obtain ⟨nodup, free⟩ := free_of_held (held success)
  obtain ⟨dir, entry⟩ := setupkvm_entry setup success
  exact ⟨held success, nodup linked.nodup, free, entry, others, fun f used => setupkvm_data made used, dir⟩

/-- Whatever has been put into a fresh directory, `freevm` gives back all that `setupkvm` found free. -/
theorem Fresh.undo {r₁ r₂ : Ram} (fresh : Fresh d r r₁) (linked : Linked r.mem) (moved : Moves d 0 r₁.mem r₂.mem)
    (data : ∀ f, f ∉ r.mem.free → r₂.data f = r.data f) :
    ∃ r₃, r₂.freevm d = .ok r₃ ∧ (r₃.mem.free : Multiset Nat) = r.mem.free ∧
      (∀ e, e ∉ r.mem.free → r₃.mem.dirs e = r.mem.dirs e) ∧ ∀ f, f ∉ r.mem.free → r₃.data f = r.data f := by
  have holds : ∀ f, r₂.mem.Holds d f ↔ f ∈ r.mem.free := by
    intro f
    rw [← mem_held, moved.held, zero_add, fresh.held, Multiset.mem_coe]
  have dir : d ≠ 0 := by
    rintro rfl
    exact linked.real fresh.dir
  obtain ⟨r₃, freed⟩ := freevm_returns dir fun zero => linked.real ((holds 0).mp zero)
  have undone : Vm.freevm r₂.mem d = .ok r₃.mem := by
    rw [← freevm_mem, freed]
    rfl
  obtain ⟨free, rest⟩ := freevm_free undone
  refine ⟨r₃, freed, ?_, fun e other => ?_, fun f other => ?_⟩
  · rw [free, moved.held, zero_add, fresh.held]
  · have apart : e ≠ d := fun same => other (same ▸ fresh.dir)
    rw [rest e apart, moved.others e apart, fresh.others e other]
  · rw [freevm_data freed fun held => other ((holds f).mp held), data f other]

theorem Fresh.copied {r₁ : Ram} (fresh : Fresh d r r₁) (apart : pgdir ≠ d)
    (used : ∀ i < pages sz, ∀ pte, r.mem.entry pgdir i = some pte → pte.frame ∉ r.mem.free)
    (loop : copyLoop pgdir d (pages sz) 0 r₁ = .ok (true, r')) : Copied pgdir sz d r r' := by
  have parent : r₁.mem.entry pgdir = r.mem.entry pgdir := by rw [fresh.entry, Function.update_of_ne apart]
  have blank : ∀ j, r₁.mem.entry d j = none := by
    intro j
    rw [fresh.entry, Function.update_self]
  have loop' : copyLoop pgdir d (pages sz) (0 * PGSIZE) r₁ = .ok (true, r') := by rwa [Nat.zero_mul]
  have used₁ : ∀ j pte, 0 ≤ j → j < 0 + pages sz → r₁.mem.entry pgdir j = some pte → pte.frame ∉ r₁.mem.free := by
    intro j pte _ below mapped free
    rw [parent] at mapped
    exact used j (by omega) pte mapped (fresh.free _ free)
  obtain ⟨frame, copies⟩ := copyLoop_copies apart fresh.nodup used₁ (fun j _ _ => blank j) loop'
  obtain ⟨distinct, taken⟩ := copies.distinct fresh.nodup
  have listed : ∀ i < pages sz, r.mem.entry pgdir i ≠ none → i ∈ r₁.found pgdir 0 (pages sz) := by
    intro i below mapped
    rw [found, List.mem_filter, List.mem_range'_1, parent]
    exact ⟨by omega, Option.isSome_iff_ne_none.mpr mapped⟩
  refine ⟨⟨frame, fun i below => ?_, fun i below pte mapped => ?_, fun i here j there same => ?_⟩, fun i above => ?_, fresh.dir⟩
  · rw [copies.entry, patch_inside (Nat.zero_le i) (by omega), parent]
  · have source := used i below pte mapped
    have member := taken i (listed i below (by simp [mapped]))
    refine ⟨fresh.free _ member.1, member.2, ?_⟩
    rw [copies.data i pte (Nat.zero_le i) (by omega) (by rw [parent]; exact mapped), fresh.data _ source]
  · exact distinct (listed i here.1 here.2) (listed j there.1 there.2) same
  · rw [copies.entry, patch_outside (.inr (by omega)), blank]

/-- `copyuvm2` copies the pages of the parent, or leaves every frame where it was. The parent does not
change. -/
theorem copyuvm2_copies (r : Ram) (pgdir sz : Nat) (linked : Linked r.mem) (user : sz ≤ KERNBASE) (dir : pgdir ∉ r.mem.free)
    (tables : ∀ i < pages sz, (r.mem.dirs pgdir).tables (i / 1024) ≠ none)
    (used : ∀ i < pages sz, ∀ pte, r.mem.entry pgdir i = some pte → pte.frame ∉ r.mem.free) :
    ∃ d r', r.copyuvm2 pgdir sz = .ok (d, r') ∧
      (d ≠ 0 ∧ Copied pgdir sz d r r' ∨ d = 0 ∧ (r'.mem.free : Multiset Nat) = r.mem.free) ∧
      (∀ e, e ∉ r.mem.free → r'.mem.dirs e = r.mem.dirs e) ∧ ∀ f, f ∉ r.mem.free → r'.data f = r.data f := by
  obtain ⟨d, r₁, made⟩ := setupkvm_returns linked.real
  rw [copyuvm2, ok_bind made]
  by_cases null : d = 0
  · simp only [null, if_true]
    obtain ⟨failed, -, others⟩ := setupkvm_free (tables_ok (setupkvm_mem r) made)
    exact ⟨0, r₁, rfl, .inr ⟨rfl, failed linked.real null⟩, others, fun f used => setupkvm_data made used⟩
  simp only [null, if_false]
  have fresh := setupkvm_fresh linked made null
  have apart : pgdir ≠ d := fun same => dir (same ▸ fresh.dir)
  have inside : 0 + pages sz ≤ 512 * 1024 := by
    simp only [pages, PGSIZE, KERNBASE] at user ⊢
    omega
  obtain ⟨copied, r₂, loop⟩ := copyLoop_returns apart (i := 0) (r := r₁) inside
    (fun j _ below => by rw [fresh.others pgdir dir]; exact tables j (by omega))
    fun j _ _ => by rw [fresh.entry, Function.update_self]
  have moved := copyLoop_moves inside (tables_ok (copyLoop_mem ..) loop)
  have others : ∀ e, e ∉ r.mem.free → r₂.mem.dirs e = r.mem.dirs e := fun e other =>
    (moved.others e fun same => other (same ▸ fresh.dir)).trans (fresh.others e other)
  have data : ∀ f, f ∉ r.mem.free → r₂.data f = r.data f := fun f other =>
    (copyLoop_data apart loop fun free => other (fresh.free f free)).trans (fresh.data f other)
  rw [Nat.zero_mul] at loop
  rw [← pages, ok_bind loop]
  cases copied with
  | true => exact ⟨d, r₂, rfl, .inl ⟨null, fresh.copied apart used loop⟩, others, data⟩
  | false =>
    -- `bad`: what the loop had taken is still in the new directory
    obtain ⟨r₃, freed, free, others, data⟩ := fresh.undo linked moved data
    exact ⟨0, r₃, ok_bind freed, .inr ⟨rfl, free⟩, others, data⟩

/-- A parent with one page, a hole above it, and enough free frames for a child. -/
def parent : Ram where
  mem := { onePage.mem with free := List.range' 10 70 }
  data := onePage.data

theorem copyuvm2_copies_parent :
    ∃ r', parent.copyuvm2 5 (2 * PGSIZE) = .ok (10, r') ∧ Copied 5 (2 * PGSIZE) 10 parent r' := by
  have two : ∀ i < pages (2 * PGSIZE), i / 1024 = 0 := by
    intro i below
    rw [lt_pages] at below
    simp only [PGSIZE] at below
    omega
  have high : ∀ f ∈ parent.mem.free, 10 ≤ f := fun f free => (List.mem_range'_1.mp free).1
  obtain ⟨d, r', ran, result, -⟩ := copyuvm2_copies parent 5 (2 * PGSIZE)
    ⟨List.nodup_range', fun zero => absurd (high 0 zero) (by decide)⟩ (by decide)
    (fun dir => absurd (high 5 dir) (by decide))
    (fun i below => by rw [two i below]; rintro ⟨⟩)
    (fun i below pte mapped free => by
      rw [entry_eq, two i below] at mapped
      have three : pte.frame = 3 := by
        simp only [parent, onePage, if_true, Option.bind_some] at mapped
        split at mapped
        · cases mapped
          rfl
        · cases mapped
      exact absurd (high _ free) (by rw [three]; decide))
  have number : (parent.copyuvm2 5 (2 * PGSIZE)).map Prod.fst = .ok 10 := by decide +kernel
  rw [ran] at number
  obtain rfl : d = 10 := Except.ok.inj number
  rcases result with ⟨-, copied⟩ | ⟨null, -⟩
  · exact ⟨r', ran, copied⟩
  · cases null

end Ram

end Xv6.Vm
