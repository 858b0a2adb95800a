import Xv6.Proc.AddressSpace
import Xv6.Proc.Groups

/-!
# Stack regions in the kernel's data

`stackSpace` is the address space that the kernel's data describes. `growproc` keeps it sound if it leaves the
stacks alone, `thread_create` if it does not put a stack at an unaligned end of memory, `dealloc_thread` if
the thread has created none that stays.
-/

namespace Xv6.Proc

open Function (update)
open Regions Vm Steps

variable {k k' : Kernel} {v v' : View} {m cur np p w h : Slot} {d c : Nat} {l : List Slot}

/-- What the layout of a process depends on. -/
@[ext] structure Image where
  page : Nat → Nat → Option Bool
  sz : Slot → Nat
  originalbase : Slot → Nat
  emptystacks : Slot → Nat → Nat
  emptystackcnt : Slot → Nat

def Kernel.image (k : Kernel) : Image :=
  { page := k.mem.page
    sz := k.sz
    originalbase := k.originalbase
    emptystacks := k.emptystacks
    emptystackcnt := k.emptystackcnt }

/-- A thread in use, other than the main thread `m` of its group. -/
def Worker (v : View) (m w : Slot) : Prop :=
  v.ident w ≠ none ∧ w ≠ m ∧ Chain.climb v.master NPROC w = some m

instance (v : View) (m w : Slot) : Decidable (Worker v m w) := by
  unfold Worker
  infer_instance

/-- The stack regions of the process with main thread `m`. -/
def stackBase (m : Slot) (v : View) (a : Image) : Owner Slot → Option Nat
  | .exec => some (a.originalbase m)
  | .thread w => if Worker v m w then some (a.originalbase w) else none
  | .empty j => if j < a.emptystackcnt m then some (a.emptystacks m j) else none

/-- Its address space, with page directory `d`. -/
def stackSpace (m : Slot) (d : Nat) (v : View) (a : Image) : Space Slot :=
  { sz := a.sz m, base := stackBase m v a, page := a.page d }

/-! ### Workers -/

theorem Grouped.worker_iff (group : Grouped v m l) : Worker v m w ↔ w ∈ l := by
  have climb : Chain.climb v.master NPROC w = some m ↔ ∃ n, Chain.Ends v.master n w m := by
    have := Chain.climb_card_iff (f := v.master) (x := w) (z := m)
    rwa [Fintype.card_fin] at this
  have nodup := (List.nodup_cons.mp group.linked.nodup).1
  rw [Worker, climb]
  constructor
  · rintro ⟨used, ne, ends⟩
    exact (List.mem_cons.mp ((group.members w).mpr ⟨used, ends⟩)).resolve_left ne
  · intro member
    obtain ⟨used, ends⟩ := (group.members w).mp (List.mem_cons_of_mem _ member)
    exact ⟨used, ne_of_mem_of_not_mem member nodup, ends⟩

theorem Integrity.group (intact : Integrity v) (root : v.master m = none) (used : v.ident m ≠ none) :
    ∃ l, Grouped v m l := by
  obtain ⟨h, l, group, member⟩ := intact m used
  obtain ⟨_, n, ends⟩ := (group.members m).mp member
  obtain ⟨_, rfl⟩ := ends.unique (.here root)
  exact ⟨l, group⟩

theorem worker_create (intact : Integrity v) (clean : Clean v) (group : Grouped v m l)
    (member : cur ∈ m :: l) (unused : v.ident np = none) :
    Worker (v.create cur np) m w ↔ w = np ∨ Worker v m w := by
  have usedCur := group.used member
  have usedM : v.ident m ≠ none := group.used List.mem_cons_self
  have same : ∀ u, v.ident u ≠ none → (v.create cur np).master u = v.master u := by
    intro u used
    refine Function.update_of_ne ?_ _ _
    rintro rfl
    exact used unused
  have other : m ≠ np := by
    rintro rfl
    exact usedM unused
  have usedM' : (v.create cur np).ident m ≠ none := by
    rwa [show (v.create cur np).ident m = v.ident m from Function.update_of_ne other ..]
  obtain ⟨l', group'⟩ := (intact.create clean usedCur unused).group
    ((same m usedM).trans group.root) usedM'
  rw [group'.worker_iff, group.worker_iff]
  have inGroup : ∀ u, u ≠ m → (u ∈ l' ↔ u ∈ m :: l') := fun u ne => by simp [ne]
  have nodup' := (List.nodup_cons.mp group'.linked.nodup).1
  by_cases new : w = np
  · subst new
    refine iff_of_true ?_ (.inl rfl)
    obtain ⟨_, n, ends⟩ := (group.members cur).mp member
    refine (inGroup w (Ne.symm other)).mpr ((group'.members w).mpr ⟨?_, n + 1, ?_⟩)
    · rwa [show (v.create cur w).ident w = v.ident cur from Function.update_self ..]
    · exact .step (Function.update_self ..) (ends_of_same intact clean usedCur ends same)
  · simp only [new, false_or]
    have ident : (v.create cur np).ident w = v.ident w := Function.update_of_ne new ..
    by_cases used : v.ident w = none
    · refine iff_of_false (fun inside => ?_) fun inside => ?_
      · exact group'.used (List.mem_cons_of_mem _ inside) (ident.trans used)
      · exact group.used (List.mem_cons_of_mem _ inside) used
    · obtain ⟨h, ls, other, memberW⟩ := intact w used
      obtain ⟨_, n, ends⟩ := (other.members w).mp memberW
      have ends' := ends_of_same intact clean used ends same
      have both : ∀ {f : Slot → Option Slot}, Chain.Ends f n w h →
          ((∃ n, Chain.Ends f n w m) ↔ h = m) := fun {f} ends =>
        ⟨fun ⟨_, again⟩ => (ends.unique again).2, fun same => ⟨n, same ▸ ends⟩⟩
      have here : w ∈ m :: l' ↔ w ∈ m :: l := by
        rw [group'.members, group.members, ident, both ends', both ends]
      by_cases main : w = m
      · subst main
        have nodup := (List.nodup_cons.mp group.linked.nodup).1
        exact iff_of_false nodup' nodup
      · simpa [main] using here

theorem worker_reclaim (intact : Integrity v) (clean : Clean v) (group : Grouped v m l)
    (member : p ∈ l) (stays : ¬Orphans v (v.reclaim p)) :
    Worker (v.reclaim p) m w ↔ w ≠ p ∧ Worker v m w := by
  have kept : ∀ t, v.ident t ≠ none → t ∉ [p] → ∀ q ∈ [p], v.master t ≠ some q := by
    intro t used out q gone master
    obtain rfl := List.mem_singleton.mp gone
    have ne : t ≠ q := by simpa using out
    refine stays ⟨t, ?_, q, master, .inl (Function.update_self ..)⟩
    rwa [show (v.reclaim q).ident t = v.ident t from Function.update_of_ne ne ..]
  obtain ⟨_, l', group', mem⟩ :=
    intact.reclaim clean group (List.singleton_sublist.mpr member) kept
  have group' : Grouped (v.reclaim p) m l' := group'
  rw [group'.worker_iff, group.worker_iff, mem]
  simp [and_comm]

/-! ### What the calls do to the image -/

theorem allocproc_image {r : Option Slot} (ran : allocproc k = .ok (r, k')) : k'.image = k.image := by
  unfold allocproc at ran
  obtain ⟨k₁, locked, ran⟩ := bind_ok ran
  obtain rfl := acquire_eq locked
  split at ran
  · cases ran
    rfl
  next q _ =>
    replace ran := Except.ok.inj ran
    unfold allocKstack at ran
    split at ran
    · cases ran
      rfl
    next stack mem taken =>
      cases ran
      have page : mem.page = k.mem.page := kalloc_page taken
      simp only [Kernel.image, page]
      rfl

theorem createLink_image {r : Int} (ran : createLink k cur np = .ok (r, k')) :
    k'.image = k.image := by
  unfold createLink at ran
  obtain ⟨k₁, locked, ran⟩ := bind_ok ran
  obtain ⟨k₂, queued, ran⟩ := bind_ok ran
  cases ran
  obtain rfl := acquire_eq locked
  have same : k₂.image = k.image := by
    unfold queueThread at queued
    split at queued
    · unfold enqueue at queued
      obtain ⟨⟨n, k₃⟩, alloc, queued⟩ := bind_ok queued
      unfold allocmlfqnode at alloc
      split at alloc
      · cases alloc
      · cases alloc
        simp only at queued
        split at queued
        · cases queued
        · cases queued
          rfl
    · cases queued
      rfl
  exact same

theorem threadExit_image {retval : Nat} (ran : threadExit k cur retval = .ok k') :
    k'.image = k.image := by
  unfold threadExit at ran
  obtain ⟨k₁, locked, ran⟩ := bind_ok ran
  obtain rfl := acquire_eq locked
  cases ran
  rfl

/-! ### Numbers -/

theorem uint32_natCast {n : Nat} (small : n < 2 ^ 32) : uint32 (n : Int) = n := by
  simp only [uint32]
  omega

theorem uint32_top {b : Nat} (small : b + 2 * PGSIZE < 2 ^ 32) :
    uint32 (b + 2 * PGSIZE : Int) = b + 2 * PGSIZE := by
  have same : (b + 2 * PGSIZE : Int) = ((b + 2 * PGSIZE : Nat) : Int) := by push_cast; rfl
  rw [same, uint32_natCast small]

theorem uint32_base {b : Nat} (small : b < 2 ^ 32) :
    uint32 ((b + 2 * PGSIZE : Nat) - 2 * PGSIZE : Int) = b := by
  have same : ((b + 2 * PGSIZE : Nat) - 2 * PGSIZE : Int) = (b : Int) := by
    push_cast
    omega
  rw [same, uint32_natCast small]

/-! ### `sbrk` -/

theorem setSize_image (highest : getHighestMaster k cur = .ok m) (sz : Nat) :
    (setSize k cur m sz).image = { k.image with sz := update (update k.sz cur sz) m sz } := by
  unfold setSize
  simp only
  split
  · rfl
  next root =>
    obtain ⟨n, ends⟩ := getHighestMaster_ends highest
    obtain ⟨_, rfl⟩ := ends.unique (.here (not_not.mp root))
    simp only [Function.update_idem]
    rfl

theorem growproc_image {n r : Int} (highest : getHighestMaster k cur = .ok m)
    (ran : growproc k cur n = .ok (r, k')) :
    ∃ newsz mem sz, resize k.mem (k.pgdir cur) (k.sz m) n = .ok (newsz, mem) ∧
      k'.image = { k.image with page := mem.page, sz := sz } ∧
      sz m = if n ≠ 0 ∧ newsz = 0 then k.sz m else newsz := by
  unfold growproc at ran
  obtain ⟨k₁, locked, ran⟩ := bind_ok ran
  obtain rfl := acquireMem_eq locked
  obtain ⟨h, found, ran⟩ := bind_ok ran
  obtain rfl : m = h := Except.ok.inj (highest.symm.trans found)
  obtain ⟨⟨newsz, mem⟩, resized, ran⟩ := bind_ok ran
  simp only at ran
  split at ran
  next failed =>
    obtain ⟨_, rfl⟩ := Prod.mk.inj (Except.ok.inj ran)
    exact ⟨newsz, mem, k.sz, resized, rfl, (if_pos failed).symm⟩
  next success =>
    obtain ⟨_, rfl⟩ := Prod.mk.inj (Except.ok.inj ran)
    refine ⟨newsz, mem, update (update k.sz cur newsz) m newsz, resized, ?_, ?_⟩
    · exact setSize_image (k := { k with memlock := true, mem := mem }) highest newsz
    · rw [if_neg success, Function.update_self]

/-- `sbrk` keeps the layout, if it does not go below the end of a stack region. -/
theorem growproc_sound {n r : Int} (sound : (stackSpace m d k.view k.image).Sound)
    (highest : getHighestMaster k cur = .ok m) (pgdir : k.pgdir cur = d)
    (above : n < 0 → ∀ o b, stackBase m k.view k.image o = some b →
      b + 2 * PGSIZE ≤ uint32 (k.sz m + n))
    (ran : growproc k cur n = .ok (r, k')) : (stackSpace m d k'.view k'.image).Sound := by
  obtain ⟨newsz, mem, sz, resized, image, size⟩ := growproc_image highest ran
  rw [growproc_view ran, image]
  have space : stackSpace m d k.view { k.image with page := mem.page, sz := sz } =
      { stackSpace m d k.view k.image with sz := sz m, page := mem.page d } := rfl
  have positive : 2 * PGSIZE ≤ k.sz m :=
    (Nat.le_add_left ..).trans (sound.packed.below .exec _ rfl)
  rw [space]
  rw [pgdir] at resized
  unfold resize at resized
  split at resized
  next grows =>
    rcases allocuvm_page resized with ⟨rfl, order, user, page⟩ | ⟨rfl, _, rfl⟩ | ⟨rfl, page⟩
    · rw [if_neg (by simp only [PGSIZE] at positive; omega)] at size
      rw [size, page, Function.update_self]
      exact sound.grow order user
    · rw [ite_self] at size
      rw [size]
      exact sound
    · rw [if_pos ⟨by omega, rfl⟩] at size
      rw [size]
      rcases page with rfl | page
      · exact sound
      · rw [page, Function.update_self]
        have same := sound.fill_above (pages (uint32 (k.sz m + n)))
        exact (congrArg (fun f => Space.Sound { stackSpace m d k.view k.image with page := f })
          same).mpr sound
  next =>
    split at resized
    next shrinks =>
      have above := above shrinks
      have low := above .exec _ rfl
      obtain ⟨rfl, page⟩ := deallocuvm_page resized
      rw [if_neg (by simp only [PGSIZE] at positive low; omega)] at size
      rw [size, page, Function.update_self]
      by_cases order : uint32 (k.sz m + n) ≤ k.sz m
      · rw [Nat.min_eq_right order]
        exact sound.shrink order above
      · have empty : fill (k.mem.page d) (pages (uint32 (k.sz m + n))) (pages (k.sz m)) none =
            k.mem.page d := by
          have : pages (k.sz m) ≤ pages (uint32 (k.sz m + n)) := Nat.div_le_div_right (by omega)
          exact funext fun j => fill_outside (by omega)
        rw [Nat.min_eq_left (by omega), empty]
        exact sound
    · cases resized
      rw [ite_self] at size
      rw [size]
      exact sound

/-! ### `thread_create` -/

/-- Where `thread_create` begins the stack: the last empty region, else the end of memory. -/
def nextStack (a : Image) (m : Slot) : Nat :=
  if a.emptystackcnt m > 0 then a.emptystacks m (a.emptystackcnt m - 1) else a.sz m

theorem takeStack_eq {b : Nat} (size : k.sz cur = k.sz m) (taken : takeStack k cur m = (b, k')) :
    b = nextStack k.image m ∧
      k' = { k with emptystackcnt := update k.emptystackcnt m (k.emptystackcnt m - 1) } := by
  unfold takeStack at taken
  split at taken
  next some_ =>
    cases taken
    exact ⟨(if_pos some_).symm, rfl⟩
  next none_ =>
    cases taken
    have same : update k.emptystackcnt m (k.emptystackcnt m - 1) = k.emptystackcnt :=
      Function.update_eq_self_iff.mpr (by omega)
    rw [same]
    exact ⟨size.trans (if_neg none_).symm, rfl⟩

theorem setThread_image (k : Kernel) (cur np m : Slot) (top : Nat) :
    (setThread k cur np m top).image =
      { k.image with
        sz := update (if k.sz cur < top then update (update k.sz cur top) m top else k.sz) np top
        originalbase := update k.originalbase np (uint32 (top - 2 * PGSIZE)) } := by
  unfold setThread
  simp only
  split <;> rfl

/-- The two pages `thread_create` takes, with the guard page made. -/
theorem stack_page {mem mem₁ mem₂ : Memory} {r : Nat} (small : c * PGSIZE + 2 * PGSIZE < 2 ^ 32)
    (alloc : allocuvm mem d (c * PGSIZE) (uint32 ((c * PGSIZE : Nat) + 2 * PGSIZE)) = .ok (r, mem₁))
    (success : r ≠ 0) (guard : clearpteu mem₁ d (uint32 (r - 2 * PGSIZE)) = .ok mem₂) :
    r = c * PGSIZE + 2 * PGSIZE ∧ r < KERNBASE ∧
      mem₂.page = update mem.page d (Space.stackPages (mem.page d) c) := by
  rw [uint32_top small] at alloc
  rcases allocuvm_page alloc with ⟨rfl, _, user, page⟩ | ⟨_, smaller, _⟩ | ⟨failed, _⟩
  · refine ⟨rfl, user, ?_⟩
    have base := uint32_base (show c * PGSIZE < 2 ^ 32 by omega)
    rw [base] at guard
    have top : pages (c * PGSIZE + 2 * PGSIZE) = c + 2 := by
      rw [← Nat.add_mul, pages_mul]
    rw [pages_mul, top] at page
    rw [clearpteu_page guard, page, Function.update_self, Function.update_idem,
      fill_inside (Nat.le_refl c) (by omega)]
    rfl
  · omega
  · exact absurd failed success

theorem createStack_image (highest : getHighestMaster k cur = .ok m) (other : np ≠ m)
    (aligned : nextStack k.image m = c * PGSIZE) (small : c * PGSIZE + 2 * PGSIZE < 2 ^ 32)
    (ran : createStack k cur np = .ok (true, k')) :
    ∃ sz, k'.image =
      { page := update k.mem.page (k.pgdir cur) (Space.stackPages (k.mem.page (k.pgdir cur)) c)
        sz := sz
        originalbase := update k.originalbase np (c * PGSIZE)
        emptystacks := k.emptystacks
        emptystackcnt := update k.emptystackcnt m (k.emptystackcnt m - 1) } ∧
      sz m = max (k.sz m) (c * PGSIZE + 2 * PGSIZE) ∧ c * PGSIZE + 2 * PGSIZE < KERNBASE := by
  unfold createStack at ran
  obtain ⟨h, found, ran⟩ := bind_ok ran
  obtain rfl : m = h := Except.ok.inj (highest.symm.trans found)
  obtain ⟨k₁, locked, ran⟩ := bind_ok ran
  obtain rfl := acquireMem_eq locked
  simp only at ran
  generalize taken : takeStack _ cur m = pair at ran
  obtain ⟨b, k₂⟩ := pair
  have size : update k.sz cur (k.sz m) m = k.sz m := by
    by_cases same : m = cur
    · rw [same, Function.update_self]
    · rw [Function.update_of_ne same]
  obtain ⟨start, rfl⟩ := takeStack_eq ((Function.update_self ..).trans size.symm) taken
  have start : b = c * PGSIZE := by
    rw [start, ← aligned]
    simp only [nextStack, Kernel.image, size]
    rfl
  subst start
  obtain ⟨⟨top, mem₁⟩, alloc, ran⟩ := bind_ok ran
  simp only at ran
  split at ran
  · cases ran
  next success =>
    obtain ⟨mem₂, guard, ran⟩ := bind_ok ran
    obtain ⟨_, rfl⟩ := Prod.mk.inj (Except.ok.inj ran)
    obtain ⟨rfl, user, page⟩ := stack_page small alloc success guard
    generalize renewed : update k.sz cur (k.sz m) = sz at *
    have here : sz cur = k.sz m := by rw [← renewed, Function.update_self]
    refine ⟨update (if sz cur < c * PGSIZE + 2 * PGSIZE then
      update (update sz cur (c * PGSIZE + 2 * PGSIZE)) m (c * PGSIZE + 2 * PGSIZE) else sz) np
      (c * PGSIZE + 2 * PGSIZE), ?_, ?_, user⟩
    · refine (setThread_image _ cur np m _).trans ?_
      have base := uint32_base (show c * PGSIZE < 2 ^ 32 by omega)
      simp only [Kernel.image, page, base]
    · rw [Function.update_of_ne (Ne.symm other), here]
      split
      · rw [Function.update_self]
        omega
      · rw [size]
        omega

/-- The regions after a thread has been created: the new thread has the last empty region, or
a new one. -/
theorem stackBase_create {a : Image} {sz : Slot → Nat} {page : Nat → Nat → Option Bool}
    (worker : ∀ w, Worker (v.create cur np) m w ↔ w = np ∨ Worker v m w) (other : np ≠ m) :
    stackBase m (v.create cur np)
      { page := page
        sz := sz
        originalbase := update a.originalbase np (c * PGSIZE)
        emptystacks := a.emptystacks
        emptystackcnt := update a.emptystackcnt m (a.emptystackcnt m - 1) } =
      update (update (stackBase m v a) (.empty (a.emptystackcnt m - 1)) none) (.thread np)
        (some (c * PGSIZE)) := by
  funext o
  cases o with
  | exec =>
    rw [Function.update_of_ne (by simp), Function.update_of_ne (by simp)]
    simp [stackBase, Ne.symm other]
  | thread w =>
    by_cases new : w = np
    · subst new
      simp [stackBase, worker]
    · rw [Function.update_of_ne (by simpa using new), Function.update_of_ne (by simp)]
      simp [stackBase, worker, new]
  | empty j =>
    rw [Function.update_of_ne (by simp)]
    by_cases last : j = a.emptystackcnt m - 1
    · subst last
      simp [stackBase]
    · rw [Function.update_of_ne (by simpa using last)]
      simp only [stackBase, Function.update_self]
      grind

theorem createStack_sound {a : Image} {sz : Slot → Nat} (sound : (stackSpace m d v a).Sound)
    (worker : ∀ w, Worker (v.create cur np) m w ↔ w = np ∨ Worker v m w) (other : np ≠ m)
    (unused : ¬Worker v m np) (aligned : nextStack a m = c * PGSIZE)
    (size : sz m = max (a.sz m) (c * PGSIZE + 2 * PGSIZE))
    (user : c * PGSIZE + 2 * PGSIZE < KERNBASE) :
    (stackSpace m d (v.create cur np)
      { page := update a.page d (Space.stackPages (a.page d) c)
        sz := sz
        originalbase := update a.originalbase np (c * PGSIZE)
        emptystacks := a.emptystacks
        emptystackcnt := update a.emptystackcnt m (a.emptystackcnt m - 1) }).Sound := by
  have fresh : stackBase m v a (.thread np) = none := if_neg unused
  simp only [stackSpace, stackBase_create worker other, Function.update_self, size]
  unfold nextStack at aligned
  split at aligned
  next some_ =>
    have last : stackBase m v a (.empty (a.emptystackcnt m - 1)) = some (c * PGSIZE) := by
      simp only [stackBase]
      rw [if_pos (by omega), aligned]
    have below : _ ≤ a.sz m := sound.packed.below (.empty (a.emptystackcnt m - 1)) _ last
    rw [max_eq_left below]
    exact sound.recycle last fresh
  next none_ =>
    have none_ : a.emptystackcnt m = 0 := by omega
    have drop : update (stackBase m v a) (.empty (a.emptystackcnt m - 1)) none = stackBase m v a :=
      Function.update_eq_self_iff.mpr (by simp [stackBase, none_])
    rw [drop, ← aligned, max_eq_right (by omega)]
    have carved := sound.carve (o := .thread np) trivial aligned (by rw [show (stackSpace m d v a).sz = _ from aligned]; exact user)
      fresh
    rw [← aligned] at carved
    exact carved

theorem nextStack_small {a : Image} (sound : (stackSpace m d v a).Sound) :
    nextStack a m + 2 * PGSIZE < 2 ^ 32 ∧
      ((a.emptystackcnt m = 0 → PGSIZE ∣ a.sz m) → PGSIZE ∣ nextStack a m) := by
  have user : a.sz m < KERNBASE := sound.user
  unfold nextStack
  split
  next some_ =>
    have last : stackBase m v a (.empty (a.emptystackcnt m - 1)) =
        some (a.emptystacks m (a.emptystackcnt m - 1)) := if_pos (by omega)
    have below : _ ≤ a.sz m := sound.packed.below (.empty (a.emptystackcnt m - 1)) _ last
    refine ⟨?_, fun _ => sound.packed.aligned (.empty (a.emptystackcnt m - 1)) _ last⟩
    simp only [KERNBASE] at user
    omega
  next none_ =>
    refine ⟨?_, fun aligned => aligned (by omega)⟩
    simp only [KERNBASE] at user
    simp only [PGSIZE]
    omega

/-- `thread_create` keeps the layout, if it gets its stack and has no unaligned end of memory to
put it at. -/
theorem threadCreate_sound {r : Int} (sound : (stackSpace m d k.view k.image).Sound)
    (intact : Integrity k.view) (clean : Clean k.view) (group : Grouped k.view m l)
    (member : cur ∈ m :: l) (pgdir : k.pgdir cur = d)
    (aligned : k.emptystackcnt m = 0 → PGSIZE ∣ k.sz m) (placed : ¬Strands k.view k'.view)
    (ran : threadCreate k cur = .ok (r, k')) : (stackSpace m d k'.view k'.image).Sound := by
  have used := ident_ne_none.mp (group.used member)
  rcases threadCreate_cases used ran with ⟨alloc, view⟩ | ⟨np, id, k₁, alloc, first, view₁, rest⟩
  · rw [view, allocproc_image alloc]
    exact sound
  have unused := View.firstUnused_ident first
  rcases rest with ⟨_, view⟩ | ⟨k₂, created, linked, view⟩
  · obtain ⟨master, parent⟩ := clean.unused np unused
    refine absurd ⟨np, unused, ?_, ?_, ?_⟩ placed <;> rw [view]
    · simp [View.embryo]
    · exact parent
    · exact master
  have ne : ∀ u, k.view.ident u ≠ none → np ≠ u := by
    rintro u used rfl
    exact used unused
  have other : np ≠ m := ne m (group.used List.mem_cons_self)
  have image₁ := allocproc_image alloc
  have highest : getHighestMaster k₁ cur = .ok m := by
    rw [getHighestMaster_iff, show k₁.master = k.master from congrArg View.master view₁]
    exact ((group.members cur).mp member).2
  have ident : k₁.view.ident cur = k.view.ident cur := by
    rw [view₁]
    exact Function.update_of_ne (Ne.symm (ne cur (group.used member))) ..
  have pgdir₁ : k₁.pgdir cur = d := by
    have used₁ : k₁.state cur ≠ .UNUSED := by
      rw [← ident_ne_none, ident]
      exact group.used member
    simp only [Kernel.view, if_neg used, if_neg used₁, Option.some.injEq, Prod.mk.injEq] at ident
    exact ident.2.trans pgdir
  obtain ⟨small, multiple⟩ := nextStack_small sound
  obtain ⟨c, start⟩ := multiple aligned
  rw [Nat.mul_comm] at start
  rw [start] at small
  obtain ⟨sz, image, size, user⟩ :=
    createStack_image highest other (by rw [image₁, start]) small created
  rw [view, createLink_image linked, image, pgdir₁]
  have fields : k₁.mem.page = k.image.page ∧ k₁.originalbase = k.image.originalbase ∧
      k₁.emptystacks = k.image.emptystacks ∧ k₁.emptystackcnt = k.image.emptystackcnt ∧
      k₁.sz = k.image.sz := by
    rw [← image₁]
    exact ⟨rfl, rfl, rfl, rfl, rfl⟩
  obtain ⟨page, base, regions, count, sizes⟩ := fields
  rw [page, base, regions, count]
  rw [sizes] at size
  exact createStack_sound sound (fun w => worker_create intact clean group member unused) other
    (fun worker => worker.1 unused) start size user

/-! ### `dealloc_thread` -/

/-- The stack at `b` goes to the empty regions, or memory shrinks by it. -/
def Image.giveBack (a : Image) (m : Slot) (b : Nat) : Image :=
  if uint32 (b + 2 * PGSIZE) < a.sz m then
    { a with
      emptystacks := update a.emptystacks m (update (a.emptystacks m) (a.emptystackcnt m) b)
      emptystackcnt := update a.emptystackcnt m (a.emptystackcnt m + 1) }
  else { a with sz := update a.sz m (uint32 (a.sz m - 2 * PGSIZE)) }

theorem giveBackStack_image {b : Nat} (ran : giveBackStack k m b = .ok k') :
    k'.image = k.image.giveBack m b := by
  unfold giveBackStack at ran
  unfold Image.giveBack
  split at ran
  next inside =>
    rw [if_pos (by exact inside)]
    split at ran
    · cases ran
      rfl
    · cases ran
  next last =>
    rw [if_neg (by exact last)]
    obtain rfl := Except.ok.inj ran
    rfl

/-- The image after the stack of `p`, pages `c` and `c + 1`, has been given back. -/
def Image.reclaim (a : Image) (m p : Slot) (d c : Nat) : Image :=
  { Image.giveBack
      { a with
        page := update a.page d (fill (a.page d) c (c + 2) none)
        emptystackcnt := update a.emptystackcnt p 0 } m (c * PGSIZE) with
    originalbase := update a.originalbase p 0 }

theorem deallocThread_image {r : Int} (worker : k.master p ≠ none)
    (highest : getHighestMaster k p = .ok m) (start : k.originalbase p = c * PGSIZE)
    (small : c * PGSIZE + 2 * PGSIZE < 2 ^ 32) (ran : deallocThread k p = .ok (r, k')) :
    k'.image = k.image.reclaim m p (k.pgdir p) c := by
  unfold deallocThread at ran
  rw [if_neg worker] at ran
  obtain ⟨h, found, ran⟩ := bind_ok ran
  obtain rfl : m = h := Except.ok.inj (highest.symm.trans found)
  obtain ⟨⟨r', mem⟩, dropped, ran⟩ := bind_ok ran
  obtain ⟨k₁, locked, ran⟩ := bind_ok ran
  obtain rfl := acquireMem_eq locked
  obtain ⟨k₂, given, ran⟩ := bind_ok ran
  obtain ⟨_, rfl⟩ := Prod.mk.inj (Except.ok.inj ran)
  rw [start] at given dropped
  rw [uint32_top small] at dropped
  have page := (deallocuvm_page dropped).2
  rw [page_kfree, pages_mul, ← Nat.add_mul, pages_mul] at page
  have given := giveBackStack_image given
  have before : ({ clearThread k p with mem := mem, memlock := true } : Kernel).image =
      { k.image with
        page := update k.mem.page (k.pgdir p) (fill (k.mem.page (k.pgdir p)) c (c + 2) none)
        emptystackcnt := update k.emptystackcnt p 0 } := by
    simp only [Kernel.image, page]
    rfl
  have base : k₂.originalbase = k.originalbase := by
    refine (congrArg Image.originalbase given).trans ?_
    unfold Image.giveBack
    split <;> rfl
  have whole : k₂.image = _ := given.trans (congrArg (Image.giveBack · m (c * PGSIZE)) before)
  have result : (releaseMem { k₂ with originalbase := update k₂.originalbase p 0 }).image =
      { k₂.image with originalbase := update k.originalbase p 0 } := by
    rw [← base]
    rfl
  rw [whole] at result
  exact result

theorem stackBase_release {a : Image} {sz : Slot → Nat} {page : Nat → Nat → Option Bool}
    (worker : ∀ w, Worker (v.reclaim p) m w ↔ w ≠ p ∧ Worker v m w) (other : p ≠ m) :
    stackBase m (v.reclaim p)
      { page := page
        sz := sz
        originalbase := update a.originalbase p 0
        emptystacks := update a.emptystacks m
          (update (a.emptystacks m) (a.emptystackcnt m) (c * PGSIZE))
        emptystackcnt := update (update a.emptystackcnt p 0) m (a.emptystackcnt m + 1) } =
      update (update (stackBase m v a) (.thread p) none) (.empty (a.emptystackcnt m))
        (some (c * PGSIZE)) := by
  funext o
  cases o with
  | exec =>
    rw [Function.update_of_ne (by simp), Function.update_of_ne (by simp)]
    simp [stackBase, Ne.symm other]
  | thread w =>
    rw [Function.update_of_ne (by simp)]
    by_cases gone : w = p
    · subst gone
      simp [stackBase, worker]
    · rw [Function.update_of_ne (by simpa using gone)]
      simp [stackBase, worker, gone]
  | empty j =>
    by_cases last : j = a.emptystackcnt m
    · subst last
      simp [stackBase]
    · rw [Function.update_of_ne (by simpa using last), Function.update_of_ne (by simp)]
      simp only [stackBase, Function.update_self, Function.update_of_ne last]
      grind

theorem stackBase_trim {a : Image} {sz : Slot → Nat} {page : Nat → Nat → Option Bool}
    (worker : ∀ w, Worker (v.reclaim p) m w ↔ w ≠ p ∧ Worker v m w) (other : p ≠ m) :
    stackBase m (v.reclaim p)
      { page := page
        sz := sz
        originalbase := update a.originalbase p 0
        emptystacks := a.emptystacks
        emptystackcnt := update a.emptystackcnt p 0 } =
      update (stackBase m v a) (.thread p) none := by
  funext o
  cases o with
  | exec =>
    rw [Function.update_of_ne (by simp)]
    simp [stackBase, Ne.symm other]
  | thread w =>
    by_cases gone : w = p
    · subst gone
      simp [stackBase, worker]
    · rw [Function.update_of_ne (by simpa using gone)]
      simp [stackBase, worker, gone]
  | empty j =>
    rw [Function.update_of_ne (by simp)]
    simp [stackBase, Ne.symm other]

theorem reclaim_sound {a : Image} (sound : (stackSpace m d v a).Sound)
    (worker : ∀ w, Worker (v.reclaim p) m w ↔ w ≠ p ∧ Worker v m w) (other : p ≠ m)
    (here : stackBase m v a (.thread p) = some (c * PGSIZE)) :
    (stackSpace m d (v.reclaim p) (a.reclaim m p d c)).Sound := by
  have below : c * PGSIZE + 2 * PGSIZE ≤ a.sz m := sound.packed.below (.thread p) _ here
  have user : a.sz m < 2 ^ 31 := sound.user
  have count : update a.emptystackcnt p 0 m = a.emptystackcnt m :=
    Function.update_of_ne (Ne.symm other) ..
  unfold Image.reclaim Image.giveBack
  rw [uint32_top (by omega)]
  split
  · simp only [stackSpace, Function.update_self, count, stackBase_release worker other]
    exact sound.release here (if_neg (Nat.lt_irrefl _))
  next last =>
    have shrunk : uint32 (a.sz m - 2 * PGSIZE) = a.sz m - 2 * PGSIZE := by
      have same : (a.sz m - 2 * PGSIZE : Int) = ((a.sz m - 2 * PGSIZE : Nat) : Int) := by omega
      rw [same, uint32_natCast (by omega)]
    simp only [stackSpace, Function.update_self, shrunk, stackBase_trim worker other]
    exact sound.trim here (not_lt.mp last)

/-- `dealloc_thread` keeps the layout, if the thread has created none that stays. -/
theorem deallocThread_sound {r : Int} (sound : (stackSpace m d k.view k.image).Sound)
    (intact : Integrity k.view) (clean : Clean k.view) (group : Grouped k.view m l)
    (member : p ∈ l) (worker : k.master p ≠ none) (pgdir : k.pgdir p = d)
    (stays : ¬Orphans k.view (k.view.reclaim p)) (ran : deallocThread k p = .ok (r, k')) :
    (stackSpace m d (k.view.reclaim p) k'.image).Sound := by
  have other : p ≠ m := ne_of_mem_of_not_mem member (List.nodup_cons.mp group.linked.nodup).1
  have here : (stackSpace m d k.view k.image).base (.thread p) = some (k.originalbase p) :=
    if_pos (group.worker_iff.mpr member)
  obtain ⟨c, start⟩ := sound.packed.aligned _ _ here
  rw [Nat.mul_comm] at start
  rw [start] at here
  have below : c * PGSIZE + 2 * PGSIZE ≤ k.sz m := sound.packed.below _ _ here
  have user : k.sz m < 2 ^ 31 := sound.user
  have highest : getHighestMaster k p = .ok m :=
    getHighestMaster_iff.mpr ((group.members p).mp (List.mem_cons_of_mem _ member)).2
  rw [deallocThread_image worker highest start (by omega) ran, pgdir]
  exact reclaim_sound sound (fun w => worker_reclaim intact clean group member stays) other here

end Xv6.Proc
