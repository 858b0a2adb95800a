import Xv6.Exec.Loader

/-!
# The image that the loader makes

The invariant of the loader is that the pages below the size are there, each on a frame of its own, and
show the segments loaded so far on a background of zeros.
-/

namespace Xv6.Exec.Contents

open Function (update)
open Bytes (Byte)
open Proc Regions Steps Vm
open Ram (Linked tables tables_ok)

variable {r r' : Ram} {pgdir sz newsz p : Nat} {img : Nat → Option Byte} {data : List Byte}

/-- The byte at user address `a`. -/
def peek (r : Ram) (pgdir a : Nat) : Option Byte :=
  (r.mem.entry pgdir (a / PGSIZE)).map fun pte => r.data pte.frame (a % PGSIZE)

/-- The pages below `sz` are there and show `img`. -/
structure Shows (pgdir sz : Nat) (img : Nat → Option Byte) (r : Ram) : Prop where
  linked : Linked r.mem
  user : sz ≤ KERNBASE
  mapped : ∀ i, r.mem.entry pgdir i ≠ none ↔ i < pages sz
  distinct : ∀ i j pte pte', r.mem.entry pgdir i = some pte → r.mem.entry pgdir j = some pte' →
    pte.frame = pte'.frame → i = j
  used : ∀ i pte, r.mem.entry pgdir i = some pte → pte.frame ∉ r.mem.free
  shown : ∀ a, a / PGSIZE < pages sz → peek r pgdir a = img a
  zero : ∀ a, sz ≤ a → img a = some 0

namespace Shows

theorem missing (shows_ : Shows pgdir sz img r) {i : Nat} (above : pages sz ≤ i) : r.mem.entry pgdir i = none := by
  by_contra there
  have below := (shows_.mapped i).mp there
  omega

/-! ### Growing -/

theorem page_le (sz : Nat) : sz ≤ pages sz * PGSIZE := by
  simp only [pages, PGSIZE]
  omega

theorem grow_mapped (shows_ : Shows pgdir sz img r) (order : sz ≤ newsz) (user : newsz < KERNBASE)
    (ran : r.allocuvm pgdir sz newsz = .ok (newsz, r')) {frame : Nat → Nat}
    (entry : r'.mem.entry = update r.mem.entry pgdir
      (patch (r.mem.entry pgdir) (pages sz) (pages newsz) fun j => some ⟨frame j, true, true⟩))
    (fresh : ((List.range' (pages sz) (pages newsz - pages sz)).map frame ++ r'.mem.free).Sublist r.mem.free) :
    Shows pgdir newsz img r' := by
  have grown : pages sz ≤ pages newsz := Nat.div_le_div_right (by omega)
  obtain ⟨kept, zero⟩ := Ram.allocuvm_data shows_.linked (fun i above _ => shows_.missing above) ran
  have nodup := shows_.linked.nodup.sublist fresh
  rw [List.nodup_append] at nodup
  have left : ∀ f, f ∈ r'.mem.free → f ∈ r.mem.free := fun f free => fresh.subset (List.mem_append_right _ free)
  have new : ∀ i pte, r'.mem.entry pgdir i = some pte → r.mem.entry pgdir i = some pte ∨
      r.mem.entry pgdir i = none ∧ i ∈ List.range' (pages sz) (pages newsz - pages sz) ∧ pte.frame = frame i := by
    intro i pte found
    rw [entry, Function.update_self] at found
    by_cases inside : pages sz ≤ i ∧ i < pages newsz
    · rw [patch_inside inside.1 inside.2] at found
      cases found
      exact .inr ⟨shows_.missing inside.1, List.mem_range'_1.mpr (by omega), rfl⟩
    · rw [patch_outside (by omega)] at found
      exact .inl found
  have taken : ∀ i ∈ List.range' (pages sz) (pages newsz - pages sz), frame i ∈ r.mem.free ∧ frame i ∉ r'.mem.free := by
    intro i inside
    have member := List.mem_map_of_mem (f := frame) inside
    exact ⟨fresh.subset (List.mem_append_left _ member), fun free => nodup.2.2 _ member _ free rfl⟩
  refine ⟨⟨nodup.2.1, fun null => shows_.linked.real (left 0 null)⟩, user.le, fun i => ?_, ?_, ?_, ?_, fun a above =>
    shows_.zero a (by omega)⟩
  · rw [entry, Function.update_self]
    by_cases inside : pages sz ≤ i ∧ i < pages newsz
    · simp [patch_inside inside.1 inside.2, inside.2]
    · rw [patch_outside (by omega), shows_.mapped]
      omega
  · intro i j pte pte' here there same
    rcases new i pte here with old | ⟨-, listed, number⟩
    · rcases new j pte' there with old' | ⟨-, listed', number'⟩
      · exact shows_.distinct i j pte pte' old old' same
      · exact absurd (number' ▸ (taken j listed').1) (same ▸ shows_.used i pte old)
    · rcases new j pte' there with old' | ⟨-, listed', number'⟩
      · exact absurd (number ▸ (taken i listed).1) (same ▸ shows_.used j pte' old')
      · exact List.inj_on_of_nodup_map nodup.1 listed listed' (number.symm.trans (same.trans number'))
  · intro i pte here free
    rcases new i pte here with old | ⟨-, listed, number⟩
    · exact shows_.used i pte old (left _ free)
    · exact (taken i listed).2 (number ▸ free)
  · intro a below
    by_cases old : a / PGSIZE < pages sz
    · obtain ⟨pte, found⟩ := Option.ne_none_iff_exists'.mp ((shows_.mapped _).mpr old)
      rw [← shows_.shown a old, peek, peek, found, entry, Function.update_self, patch_outside (.inl old), found]
      simp only [Option.map_some]
      rw [kept _ (shows_.used _ pte found)]
    · have found : r'.mem.entry pgdir (a / PGSIZE) = some ⟨frame (a / PGSIZE), true, true⟩ := by
        rw [entry, Function.update_self, patch_inside (by omega) below]
      have high : sz ≤ a := by
        have := page_le sz
        have := Nat.div_mul_le_self a PGSIZE
        have := Nat.mul_le_mul_right PGSIZE (Nat.le_of_not_lt old)
        omega
      rw [shows_.zero a high, peek, found]
      exact congrArg (fun f : Nat → Byte => some (f (a % PGSIZE))) (zero _ _ (by omega) below found)

/-- After `allocuvm` the new pages show zeros. -/
theorem grow (shows_ : Shows pgdir sz img r) {sz' : Nat} (ran : r.allocuvm pgdir sz newsz = .ok (sz', r')) (success : sz' ≠ 0) :
    Shows pgdir sz' img r' ∧ newsz ≤ sz' ∧ sz ≤ sz' := by
  rcases allocuvm_entry (tables_ok (Ram.allocuvm_mem ..) ran) with ⟨rfl, order, user, frame, entry, fresh⟩ | ⟨rfl, smaller, -⟩ | ⟨failed, -⟩
  · exact ⟨shows_.grow_mapped order user ran entry fresh, le_rfl, order⟩
  · rw [Ram.allocuvm] at ran
    split at ran
    · cases ran
      exact absurd rfl success
    · cases ran
      exact ⟨shows_, smaller.le, le_rfl⟩
  · exact absurd failed success

/-! ### Loading -/

theorem fill (shows_ : Shows pgdir sz img r) {pte : Pte} (bytes : List Byte) (found : r.mem.entry pgdir p = some pte)
    (page : bytes.length ≤ PGSIZE) (below : p * PGSIZE + bytes.length ≤ sz) :
    Shows pgdir sz (patch img (p * PGSIZE) (p * PGSIZE + bytes.length) fun a => bytes[a - p * PGSIZE]?)
      (memmove r pte.frame 0 bytes) := by
  refine ⟨shows_.linked, shows_.user, shows_.mapped, shows_.distinct, shows_.used, fun a inside => ?_, fun a above => ?_⟩
  · obtain ⟨pte', there⟩ := Option.ne_none_iff_exists'.mp ((shows_.mapped _).mpr inside)
    have before := shows_.shown a inside
    have split := Nat.div_add_mod a PGSIZE
    have small := Nat.mod_lt a (y := PGSIZE) (by decide)
    simp only [peek, memmove, there, Option.map_some] at before ⊢
    by_cases here : a / PGSIZE = p
    · rw [here, found] at there
      cases there
      rw [here, Nat.mul_comm] at split
      rw [Function.update_self, Nat.zero_add]
      by_cases stored : a % PGSIZE < bytes.length
      · rw [patch_inside (Nat.zero_le _) stored, patch_inside (by omega) (by omega), Nat.sub_zero,
          show a - p * PGSIZE = a % PGSIZE by omega, List.getD_eq_getElem?_getD, List.getElem?_eq_getElem stored, Option.getD_some]
      · rw [patch_outside (.inr (by omega)), patch_outside (.inr (by omega)), before]
    · have other : pte'.frame ≠ pte.frame := fun same => here (shows_.distinct _ _ _ _ there found same)
      rw [Function.update_of_ne other, before, patch_outside]
      -- an address on another page is not among those of this one
      rcases Nat.lt_or_gt_of_ne here with low | high
      · have := Nat.mul_le_mul_right PGSIZE (Nat.succ_le_of_lt low)
        rw [Nat.succ_mul] at this
        rw [Nat.mul_comm] at split
        omega
      · have := Nat.mul_le_mul_right PGSIZE (Nat.succ_le_of_lt high)
        rw [Nat.succ_mul] at this
        rw [Nat.mul_comm] at split
        omega
  · rw [patch_outside (.inr (by omega))]
    exact shows_.zero a above

end Shows

/-- Only frames of the directory have changed, and not the page tables. -/
structure Stored (pgdir : Nat) (r r' : Ram) : Prop where
  mem : r'.mem = r.mem
  data : ∀ f, ¬r.mem.Holds pgdir f → r'.data f = r.data f

theorem readi_ofBytes {off n : Nat} {bytes : List Byte} (read : (File.ofBytes data).readi off n = some bytes)
    (whole : bytes.length = n) : off + n ≤ data.length ∧ ∀ x < n, bytes[x]? = data[off + x]? := by
  simp only [File.ofBytes] at read
  split at read
  · cases read
  · cases read
    rw [List.length_take, List.length_drop] at whole
    refine ⟨by omega, fun x inside => ?_⟩
    rw [List.getElem?_take_of_lt inside, List.getElem?_drop]

theorem loadLoop_shows (q off filesz : Nat) (size : data.length < 2 ^ 32) (fits : q * PGSIZE + filesz ≤ sz) :
    ∀ (rounds k : Nat) (img : Nat → Option Byte) (r : Ram), Shows pgdir sz img r → k + rounds = pages filesz →
    (k * PGSIZE < filesz → off + k * PGSIZE < 2 ^ 32) →
    ∃ loaded r', loadLoop pgdir (q * PGSIZE) (.ofBytes data) off filesz rounds (k * PGSIZE) r = .ok (loaded, r') ∧
      Stored pgdir r r' ∧
      (loaded = true → Shows pgdir sz
        (patch img (q * PGSIZE + k * PGSIZE) (q * PGSIZE + filesz) fun a => data[off + (a - q * PGSIZE)]?) r') := by
  intro rounds
  induction rounds with
  | zero =>
    intro k img r shows_ reached _
    refine ⟨true, r, rfl, ⟨rfl, fun _ _ => rfl⟩, fun _ => ?_⟩
    have past : filesz ≤ k * PGSIZE := by
      rw [show k = pages filesz by omega]
      exact Shows.page_le filesz
    rwa [patch_of_le (by omega)]
  | succ rounds ih =>
    intro k img r shows_ reached nowrap
    have below : k * PGSIZE < filesz := lt_pages.mp (by omega)
    have place : q * PGSIZE + k * PGSIZE = (q + k) * PGSIZE := (Nat.add_mul ..).symm
    have inside : q + k < pages sz := lt_pages.mpr (by omega)
    obtain ⟨pte, found⟩ := Option.ne_none_iff_exists'.mp ((shows_.mapped _).mpr inside)
    have walked : walkpgdir r.mem pgdir ((q + k) * PGSIZE) false = some r.mem := by
      cases walked : walkpgdir r.mem pgdir ((q + k) * PGSIZE) false with
      | some m => rw [walkpgdir_false walked]
      | none =>
        rw [entry_eq, walkpgdir_none walked] at found
        cases found
    have frame : ((r.mem.pte pgdir ((q + k) * PGSIZE)).map Pte.frame).getD 0 = pte.frame := by
      rw [← Memory.entry, found]
      rfl
    have wrap : uint32 (off + (k * PGSIZE : Nat)) = off + k * PGSIZE := by
      have := nowrap below
      simp only [uint32]
      omega
    have held : ∀ bytes, Stored pgdir r (memmove r pte.frame 0 bytes) := by
      intro bytes
      refine ⟨rfl, fun f other => Function.update_of_ne ?_ _ _⟩
      rintro rfl
      refine other (.inr (.inr (.inr ⟨q + k, ?_, pte, found, rfl⟩)))
      have := shows_.user
      have := lt_pages.mp inside
      simp only [KERNBASE, PGSIZE] at *
      omega
    simp only [loadLoop]
    rw [place, walked]
    simp only
    rw [frame, wrap]
    cases read : (File.ofBytes data).readi (off + k * PGSIZE) (min (filesz - k * PGSIZE) PGSIZE) with
    | none => exact ⟨false, r, rfl, ⟨rfl, fun _ _ => rfl⟩, by rintro ⟨⟩⟩
    | some bytes =>
      simp only
      by_cases whole : bytes.length = min (filesz - k * PGSIZE) PGSIZE
      · rw [if_pos whole, next_page]
        obtain ⟨enough, same⟩ := readi_ofBytes read whole
        have filled := shows_.fill bytes found (by omega) (by omega)
        obtain ⟨loaded, r', ran, stored, shown⟩ := ih (k + 1) _ _ filled (by omega) (by
          rw [Nat.succ_mul]
          omega)
        refine ⟨loaded, r', ran, ⟨stored.mem, fun f other => (stored.data f other).trans ((held bytes).data f other)⟩, fun done => ?_⟩
        have bytesOf : patch img ((q + k) * PGSIZE) ((q + k) * PGSIZE + bytes.length) (fun a => bytes[a - (q + k) * PGSIZE]?) =
            patch img ((q + k) * PGSIZE) ((q + k) * PGSIZE + bytes.length) fun a => data[off + (a - q * PGSIZE)]? := by
          refine patch_congr fun a above before => ?_
          rw [same _ (by omega)]
          congr 1
          omega
        have shown := shown done
        rw [bytesOf, show q * PGSIZE + (k + 1) * PGSIZE = (q + k) * PGSIZE + PGSIZE by rw [Nat.succ_mul]; omega] at shown
        by_cases last : filesz ≤ k * PGSIZE + PGSIZE
        · rw [patch_of_le (by omega), show (q + k) * PGSIZE + bytes.length = q * PGSIZE + filesz by omega] at shown
          exact shown
        · rw [show bytes.length = PGSIZE by omega, patch_patch (by omega) (by omega)] at shown
          exact shown
      · rw [if_neg whole]
        exact ⟨false, _, rfl, held bytes, by rintro ⟨⟩⟩

/-! ### Program headers -/

/-- The image with one more segment. -/
def segment (data : List Byte) (img : Nat → Option Byte) (ph : Proghdr) : Nat → Option Byte :=
  if ph.type ≠ ELF_PROG_LOAD then img
  else patch img ph.vaddr (ph.vaddr + ph.filesz) fun a => data[ph.off + (a - ph.vaddr)]?

/-- The segment of a header lies below `sz`. -/
def Below (sz : Nat) (ph : Proghdr) : Prop := ph.type = ELF_PROG_LOAD → ph.vaddr + ph.filesz ≤ sz

/-- `n` program headers from `off` on. -/
def headers (data : List Byte) : Nat → Nat → List Proghdr
  | 0, _ => []
  | n + 1, off => proghdr ((data.drop off).take 32) :: headers data n (uint32 (off + 32))

/-- What the loader may change: frames of the new directory, and frames that are free. -/
structure Within (pgdir : Nat) (r r' : Ram) : Prop where
  moves : Moves pgdir 0 r.mem r'.mem
  data : ∀ f, ¬r.mem.Holds pgdir f → r'.data f = r.data f

namespace Within

variable {r₁ : Ram}

theorem refl (pgdir : Nat) (r : Ram) : Within pgdir r r := ⟨.refl _ _, fun _ _ => rfl⟩

theorem trans (first : Within pgdir r r₁) (second : Within pgdir r₁ r') : Within pgdir r r' :=
  ⟨first.moves.then_ second.moves, fun f other =>
    (second.data f fun held => other (first.moves.holds.mpr held)).trans (first.data f other)⟩

end Within

theorem Stored.within (stored : Stored pgdir r r') : Within pgdir r r' := by
  refine ⟨?_, stored.data⟩
  rw [stored.mem]
  exact .refl _ _

theorem field_lt (bytes : List Byte) (off : Nat) : field bytes off 4 < 2 ^ 32 := by
  have short : ∀ (n : Nat) (l : List Byte), l.length ≤ n → l.foldr (fun b n => b.toNat + 256 * n) 0 < 256 ^ n := by
    intro n
    induction n with
    | zero =>
      intro l len
      obtain rfl : l = [] := List.length_eq_zero_iff.mp (by omega)
      decide
    | succ n ih =>
      intro l len
      cases l with
      | nil => exact Nat.pow_pos (by decide)
      | cons b l =>
        have rest := ih l (by rw [List.length_cons] at len; omega)
        have byte := b.isLt
        rw [List.foldr_cons, Nat.pow_succ]
        omega
  exact short 4 _ (by rw [List.length_take]; omega)

theorem loadHeader_shows (size : data.length < 2 ^ 32) (shows_ : Shows pgdir sz img r) (bytes : List Byte) :
    ∃ loaded r', loadHeader pgdir (.ofBytes data) (proghdr bytes) sz r = .ok (loaded, r') ∧ Within pgdir r r' ∧
      ∀ sz', loaded = some sz' → Shows pgdir sz' (segment data img (proghdr bytes)) r' ∧ sz ≤ sz' ∧ Below sz' (proghdr bytes) := by
  have vaddr : (proghdr bytes).vaddr < 2 ^ 32 := field_lt ..
  have memsz : (proghdr bytes).memsz < 2 ^ 32 := field_lt ..
  have off : (proghdr bytes).off < 2 ^ 32 := field_lt ..
  generalize proghdr bytes = ph at *
  unfold loadHeader
  by_cases other : ph.type ≠ ELF_PROG_LOAD
  · rw [if_pos other]
    refine ⟨some sz, r, rfl, .refl _ _, ?_⟩
    rintro _ ⟨⟩
    rw [segment, if_pos other]
    exact ⟨shows_, le_rfl, fun same => absurd same other⟩
  rw [if_neg other]
  by_cases short : ph.memsz < ph.filesz
  · rw [if_pos short]
    exact ⟨none, r, rfl, .refl _ _, nofun⟩
  rw [if_neg short]
  by_cases wraps : uint32 (ph.vaddr + ph.memsz) < ph.vaddr
  · rw [if_pos wraps]
    exact ⟨none, r, rfl, .refl _ _, nofun⟩
  rw [if_neg wraps]
  have top : uint32 (ph.vaddr + ph.memsz) = ph.vaddr + ph.memsz := by
    simp only [uint32] at wraps ⊢
    omega
  rw [top]
  obtain ⟨sz', r₁, grown⟩ : ∃ sz' r₁, r.allocuvm pgdir sz (ph.vaddr + ph.memsz) = .ok (sz', r₁) :=
    Ram.allocuvm_returns shows_.linked fun i above _ => shows_.missing above
  have kept := (Ram.allocuvm_data shows_.linked (fun i above _ => shows_.missing above) grown).1
  have within₁ : Within pgdir r r₁ :=
    ⟨allocuvm_moves (tables_ok (Ram.allocuvm_mem ..) grown), fun f other => kept f fun free => other (.inl free)⟩
  rw [ok_bind grown]
  by_cases null : sz' = 0
  · simp only [null, if_true]
    exact ⟨none, r₁, rfl, within₁, nofun⟩
  simp only [null, if_false]
  obtain ⟨shows₁, reached, order⟩ := shows_.grow grown null
  by_cases unaligned : ph.vaddr % PGSIZE ≠ 0
  · rw [if_pos unaligned]
    exact ⟨none, r₁, rfl, within₁, nofun⟩
  rw [if_neg unaligned, loaduvm, if_neg unaligned]
  have page : ph.vaddr / PGSIZE * PGSIZE = ph.vaddr := Nat.div_mul_cancel (Nat.dvd_of_mod_eq_zero (by omega))
  obtain ⟨loaded, r₂, ran, stored, shown⟩ := loadLoop_shows (ph.vaddr / PGSIZE) ph.off ph.filesz size
    (by omega) (pages ph.filesz) 0 img r₁ shows₁ (by omega) (by omega)
  rw [page, Nat.zero_mul] at ran shown
  rw [← pages, ok_bind ran]
  refine ⟨if loaded then some sz' else none, r₂, ?_, within₁.trans stored.within, fun sz'' result => ?_⟩
  · cases loaded <;> rfl
  · cases loaded with
    | false => cases result
    | true =>
      cases result
      rw [segment, if_neg other]
      exact ⟨shown rfl, order, fun _ => by omega⟩

theorem headerLoop_shows (size : data.length < 2 ^ 32) : ∀ (rounds off sz : Nat) (img : Nat → Option Byte) (r : Ram),
    Shows pgdir sz img r →
    ∃ loaded r', headerLoop pgdir (.ofBytes data) rounds off sz r = .ok (loaded, r') ∧ Within pgdir r r' ∧
      ∀ sz', loaded = some sz' → Shows pgdir sz' ((headers data rounds off).foldl (segment data) img) r' ∧ sz ≤ sz' ∧
        ∀ ph ∈ headers data rounds off, Below sz' ph := by
  intro rounds
  induction rounds with
  | zero =>
    intro off sz img r shows_
    refine ⟨some sz, r, rfl, .refl _ _, ?_⟩
    rintro _ ⟨⟩
    exact ⟨shows_, le_rfl, by rintro _ ⟨⟩⟩
  | succ rounds ih =>
    intro off sz img r shows_
    simp only [headerLoop]
    cases read : (File.ofBytes data).read off 32 with
    | none => exact ⟨none, r, rfl, .refl _ _, by rintro _ ⟨⟩⟩
    | some bytes =>
      have same : bytes = (data.drop off).take 32 := by
        simp only [File.read, File.ofBytes, Option.filter_eq_some_iff] at read
        obtain ⟨read, -⟩ := read
        split at read
        · cases read
        · exact (Option.some.inj read).symm
      subst same
      obtain ⟨loaded, r₁, ran, within₁, shown⟩ := loadHeader_shows size shows_ ((data.drop off).take 32)
      simp only
      rw [ok_bind ran]
      cases loaded with
      | none => exact ⟨none, r₁, rfl, within₁, by rintro _ ⟨⟩⟩
      | some sz₁ =>
        obtain ⟨shows₁, order, below⟩ := shown sz₁ rfl
        obtain ⟨loaded, r', rest, within', shown'⟩ := ih (uint32 (off + 32)) sz₁ _ r₁ shows₁
        refine ⟨loaded, r', rest, within₁.trans within', fun sz' done => ?_⟩
        obtain ⟨shows', order', others⟩ := shown' sz' done
        refine ⟨shows', order.trans order', ?_⟩
        rintro ph (_ | ⟨_, later⟩)
        · exact fun type => (below type).trans order'
        · exact others ph later

/-! ### The program -/

/-- The program headers of a file. -/
def programHeaders (data : List Byte) : List Proghdr :=
  headers data (elfhdr (data.take 52)).phnum (elfhdr (data.take 52)).phoff

/-- What a program shows: its segments one after another, on zeros. -/
def programImage (data : List Byte) : Nat → Option Byte :=
  (programHeaders data).foldl (segment data) fun _ => some 0

/-- Only what was free has changed. -/
structure Spared (r r' : Ram) : Prop where
  dirs : ∀ e, e ∉ r.mem.free → r'.mem.dirs e = r.mem.dirs e
  data : ∀ f, f ∉ r.mem.free → r'.data f = r.data f

/-- A fresh directory in which only the loader has worked. -/
structure Made (pgdir : Nat) (r r' : Ram) : Prop where
  start : ∃ r₁, Ram.Fresh pgdir r r₁ ∧ Within pgdir r₁ r'

namespace Made

theorem spared (made : Made pgdir r r') : Spared r r' := by
  obtain ⟨r₁, fresh, within⟩ := made.start
  refine ⟨fun e other => ?_, fun f other => ?_⟩
  · rw [within.moves.others e fun same => other (same ▸ fresh.dir), fresh.others e other]
  · rw [within.data f, fresh.data f other]
    rwa [← mem_held, fresh.held, Multiset.mem_coe]

theorem later {r₂ : Ram} (made : Made pgdir r r') (within : Within pgdir r' r₂) : Made pgdir r r₂ := by
  obtain ⟨r₁, fresh, before⟩ := made.start
  exact ⟨r₁, fresh, before.trans within⟩

/-- `bad`: all frames are free again. -/
theorem undo (made : Made pgdir r r') (linked : Linked r.mem) :
    ∃ r₂, r'.freevm pgdir = .ok r₂ ∧ (r₂.mem.free : Multiset Nat) = r.mem.free ∧ Spared r r₂ := by
  have spared := made.spared
  obtain ⟨r₁, fresh, within⟩ := made.start
  obtain ⟨r₂, freed, free, dirs, data⟩ := fresh.undo linked within.moves spared.data
  exact ⟨r₂, freed, free, dirs, data⟩

end Made

theorem fresh_shows {r₁ : Ram} (linked : Linked r.mem) (fresh : Ram.Fresh pgdir r r₁) : Shows pgdir 0 (fun _ => some 0) r₁ := by
  have blank : ∀ i, r₁.mem.entry pgdir i = none := by
    intro i
    rw [fresh.entry, Function.update_self]
  refine ⟨⟨fresh.nodup, fun null => linked.real (fresh.free 0 null)⟩, Nat.zero_le _, fun i => ?_, fun i j pte pte' found => ?_,
    fun i pte found => ?_, fun a below => ?_, fun _ _ => rfl⟩
  · simp [blank, pages, PGSIZE]
  · rw [blank] at found
    cases found
  · rw [blank] at found
    cases found
  · exact absurd (lt_pages.mp below) (Nat.not_lt_zero _)

/-- `load` fails and leaves all frames as they were, or the image is there. -/
theorem load_shows (linked : Linked r.mem) (size : data.length < 2 ^ 32) :
    ∃ loaded r', load r (.ofBytes data) = .ok (loaded, r') ∧
      (loaded = none → (r'.mem.free : Multiset Nat) = r.mem.free ∧ Spared r r') ∧
      ∀ image, loaded = some image → Made image.pgdir r r' ∧ Shows image.pgdir image.sz (programImage data) r' ∧
        ∀ ph ∈ programHeaders data, Below image.sz ph := by
  unfold load
  cases read : (File.ofBytes data).read 0 52 with
  | none => exact ⟨none, r, rfl, fun _ => ⟨rfl, fun _ _ => rfl, fun _ _ => rfl⟩, by rintro _ ⟨⟩⟩
  | some bytes =>
    obtain rfl : data.take 52 = bytes := by
      simp only [File.read, File.ofBytes, Option.filter_eq_some_iff] at read
      obtain ⟨read, -⟩ := read
      split at read
      · cases read
      · exact Option.some.inj read
    simp only
    by_cases magic : (elfhdr (data.take 52)).magic ≠ ELF_MAGIC
    · rw [if_pos magic]
      exact ⟨none, r, rfl, fun _ => ⟨rfl, fun _ _ => rfl, fun _ _ => rfl⟩, by rintro _ ⟨⟩⟩
    rw [if_neg magic]
    obtain ⟨pgdir, r₁, setup⟩ := Ram.setupkvm_returns linked.real
    rw [ok_bind setup]
    by_cases null : pgdir = 0
    · simp only [null, if_true]
      obtain ⟨failed, -, others⟩ := setupkvm_free (tables_ok (Ram.setupkvm_mem r) setup)
      exact ⟨none, r₁, rfl, fun _ => ⟨failed linked.real null, others, fun f used => Ram.setupkvm_data setup used⟩, by rintro _ ⟨⟩⟩
    simp only [null, if_false]
    have fresh := Ram.setupkvm_fresh linked setup null
    obtain ⟨loaded, r₂, loop, within, shown⟩ := headerLoop_shows size (elfhdr (data.take 52)).phnum (elfhdr (data.take 52)).phoff 0
      _ r₁ (fresh_shows linked fresh)
    have made : Made pgdir r r₂ := ⟨r₁, fresh, within⟩
    rw [ok_bind loop]
    cases loaded with
    | none =>
      obtain ⟨r₃, freed, free, spared⟩ := made.undo linked
      exact ⟨none, r₃, ok_bind freed, fun _ => ⟨free, spared⟩, by rintro _ ⟨⟩⟩
    | some sz =>
      refine ⟨some ⟨pgdir, sz, (elfhdr (data.take 52)).entry⟩, r₂, rfl, by rintro ⟨⟩, ?_⟩
      rintro _ ⟨⟩
      obtain ⟨shows_, -, below⟩ := shown sz rfl
      exact ⟨made, shows_, below⟩

/-! ### The stack pages -/

theorem Shows.round (shows_ : Shows pgdir sz img r) : Shows pgdir (PGROUNDUP sz) img r := by
  have same : pages (PGROUNDUP sz) = pages sz := pages_mul (pages sz)
  have above := Shows.page_le sz
  refine ⟨shows_.linked, ?_, fun i => same ▸ shows_.mapped i, shows_.distinct, shows_.used, fun a => same ▸ shows_.shown a,
    fun a high => shows_.zero a (above.trans high)⟩
  have user := shows_.user
  simp only [PGROUNDUP, PGSIZE, KERNBASE] at user ⊢
  omega

/-- `clearpteu` on a page of the image. -/
theorem clearpteu_shows (shows_ : Shows pgdir sz img r) (inside : p < pages sz) :
    ∃ r', clearpteu r pgdir (p * PGSIZE) = .ok r' ∧ Shows pgdir sz img r' ∧ Within pgdir r r' := by
  obtain ⟨pte, found⟩ := Option.ne_none_iff_exists'.mp ((shows_.mapped p).mpr inside)
  have user : p < 512 * 1024 := by
    have := shows_.user
    have := lt_pages.mp inside
    simp only [KERNBASE, PGSIZE] at *
    omega
  obtain ⟨m, ran⟩ : ∃ m, Vm.clearpteu r.mem pgdir (p * PGSIZE) = .ok m := by
    unfold Vm.clearpteu
    cases walked : walkpgdir r.mem pgdir (p * PGSIZE) false with
    | none =>
      rw [entry_eq, walkpgdir_none walked] at found
      cases found
    | some m => exact ⟨_, rfl⟩
  have entry := clearpteu_entry ran
  have free : m.free = r.mem.free := by
    unfold Vm.clearpteu at ran
    split at ran
    · cases ran
    next m₁ walked =>
      obtain rfl := walkpgdir_false walked
      cases ran
      exact setPte_free _ _
  -- an entry is what it was, up to `PTE_U`
  have same : ∀ i, (m.entry pgdir i).map Pte.frame = (r.mem.entry pgdir i).map Pte.frame := by
    intro i
    rw [entry, Function.update_self]
    by_cases here : i = p
    · subst here
      rw [Function.update_self, Option.map_map]
      rfl
    · rw [Function.update_of_ne here]
  have back : ∀ i pte, m.entry pgdir i = some pte → ∃ pte', r.mem.entry pgdir i = some pte' ∧ pte'.frame = pte.frame := by
    intro i pte here
    have frame := same i
    rw [here, Option.map_some] at frame
    exact Option.map_eq_some_iff.mp frame.symm
  refine ⟨{ r with mem := m }, ok_bind ran, ⟨?_, shows_.user, fun i => ?_, ?_, ?_, fun a below => ?_, shows_.zero⟩,
    clearpteu_moves user ran, fun _ _ => rfl⟩
  · exact ⟨free ▸ shows_.linked.nodup, free ▸ shows_.linked.real⟩
  · have missing : m.entry pgdir i = none ↔ r.mem.entry pgdir i = none := by
      rw [← Option.map_eq_none_iff (f := Pte.frame), same i, Option.map_eq_none_iff]
    rw [← shows_.mapped i]
    exact missing.not
  · intro i j pte pte' here there frames
    obtain ⟨old, found, frame⟩ := back i pte here
    obtain ⟨old', found', frame'⟩ := back j pte' there
    exact shows_.distinct i j old old' found found' (frame.trans (frames.trans frame'.symm))
  · intro i pte here
    obtain ⟨old, found, frame⟩ := back i pte here
    rw [← frame]
    exact free ▸ shows_.used i old found
  · rw [← shows_.shown a below, peek, peek]
    have frames := congrArg (Option.map fun f => r.data f (a % PGSIZE)) (same (a / PGSIZE))
    rwa [Option.map_map, Option.map_map] at frames

theorem stackPages_shows (linked : Linked r.mem) {r₁ : Ram} (made : Made pgdir r r₁) (shows_ : Shows pgdir sz img r₁) :
    ∃ top r', stackPages r₁ pgdir (PGROUNDUP sz) = .ok (top, r') ∧
      (top = none → (r'.mem.free : Multiset Nat) = r.mem.free ∧ Spared r r') ∧
      ∀ sz', top = some sz' → Made pgdir r r' ∧ Shows pgdir sz' img r' ∧ sz ≤ sz' ∧ sz' < KERNBASE := by
  have base := shows_.round
  have aligned : PGROUNDUP sz = pages sz * PGSIZE := rfl
  have user := base.user
  have next : uint32 (PGROUNDUP sz + 2 * PGSIZE) = PGROUNDUP sz + 2 * PGSIZE := by
    simp only [uint32, KERNBASE, PGSIZE] at user ⊢
    omega
  obtain ⟨sz', r₂, grown⟩ : ∃ sz' r₂, r₁.allocuvm pgdir (PGROUNDUP sz) (PGROUNDUP sz + 2 * PGSIZE) = .ok (sz', r₂) :=
    Ram.allocuvm_returns base.linked fun i above _ => base.missing above
  have kept := (Ram.allocuvm_data base.linked (fun i above _ => base.missing above) grown).1
  have moved := tables_ok (Ram.allocuvm_mem ..) grown
  have made₂ := made.later ⟨allocuvm_moves moved, fun f other => kept f fun free => other (.inl free)⟩
  unfold stackPages
  rw [next, ok_bind grown]
  by_cases null : sz' = 0
  · simp only [null, if_true]
    obtain ⟨r₃, freed, free, spared⟩ := made₂.undo linked
    exact ⟨none, r₃, ok_bind freed, fun _ => ⟨free, spared⟩, by rintro _ ⟨⟩⟩
  simp only [null, if_false]
  obtain ⟨shows₂, -⟩ := base.grow grown null
  obtain ⟨top, below⟩ : sz' = PGROUNDUP sz + 2 * PGSIZE ∧ sz' < KERNBASE := by
    rcases allocuvm_entry moved with ⟨rfl, -, below, -⟩ | ⟨-, smaller, -⟩ | ⟨failed, -⟩
    · exact ⟨rfl, below⟩
    · omega
    · exact absurd failed null
  have first : uint32 (sz' - 2 * PGSIZE) = pages sz * PGSIZE := by
    rw [top, aligned]
    simp only [uint32, aligned, KERNBASE, PGSIZE] at user ⊢
    omega
  have inside : pages sz < pages sz' := by
    rw [lt_pages, top, aligned]
    simp only [PGSIZE]
    omega
  obtain ⟨r₃, cleared, shows₃, within₃⟩ := clearpteu_shows shows₂ inside
  rw [first, ok_bind cleared]
  refine ⟨some sz', r₃, rfl, by rintro ⟨⟩, ?_⟩
  rintro _ ⟨⟩
  refine ⟨made₂.later within₃, shows₃, ?_, below⟩
  have := Shows.page_le sz
  omega

/-! ### Safety -/

theorem segment_outside {ph : Proghdr} {a : Nat}
    (outside : ph.type = ELF_PROG_LOAD → ¬(ph.vaddr ≤ a ∧ a < ph.vaddr + ph.filesz)) : segment data img ph a = img a := by
  unfold segment
  split
  · rfl
  next load =>
    have := outside (by simpa using load)
    exact patch_outside (by omega)

theorem foldl_segment_outside {a : Nat} : ∀ (l : List Proghdr) (img : Nat → Option Byte),
    (∀ ph ∈ l, ph.type = ELF_PROG_LOAD → ¬(ph.vaddr ≤ a ∧ a < ph.vaddr + ph.filesz)) → l.foldl (segment data) img a = img a := by
  intro l
  induction l with
  | nil => exact fun _ _ => rfl
  | cons ph l ih =>
    intro img outside
    rw [List.foldl_cons, ih _ fun ph' later => outside ph' (List.mem_cons_of_mem _ later),
      segment_outside (outside ph List.mem_cons_self)]

/-- Whatever the program file holds, the loader does not panic. It fails with every frame back, or the pages
below the size are all there and show the segments, where no later one lies over them. Nothing that was not
free has changed. -/
theorem loader_safe (r : Ram) (data : List Byte) (linked : Linked r.mem) (size : data.length < 2 ^ 32) :
    ∃ loaded r', loader r (.ofBytes data) = .ok (loaded, r') ∧ Spared r r' ∧
      (loaded = none → (r'.mem.free : Multiset Nat) = r.mem.free) ∧
      ∀ image, loaded = some image → image.sz < KERNBASE ∧
        (∀ i, r'.mem.entry image.pgdir i ≠ none ↔ i < pages image.sz) ∧
        ∀ before ph after, programHeaders data = before ++ ph :: after → ph.type = ELF_PROG_LOAD → ∀ x < ph.filesz,
          (∀ ph' ∈ after, ph'.type = ELF_PROG_LOAD → ¬(ph'.vaddr ≤ ph.vaddr + x ∧ ph.vaddr + x < ph'.vaddr + ph'.filesz)) →
          ∃ b, data[ph.off + x]? = some b ∧ peek r' image.pgdir (ph.vaddr + x) = some b := by
  obtain ⟨loaded, r₁, ran, failed, done⟩ := load_shows (r := r) linked size
  unfold loader
  rw [ok_bind ran]
  cases loaded with
  | none =>
    obtain ⟨free, spared⟩ := failed rfl
    exact ⟨none, r₁, rfl, spared, fun _ => free, nofun⟩
  | some image =>
    obtain ⟨made, shows₁, below⟩ := done image rfl
    obtain ⟨top, r', ran, failed, done⟩ := stackPages_shows linked made shows₁
    simp only
    rw [ok_bind ran]
    cases top with
    | none =>
      obtain ⟨free, spared⟩ := failed rfl
      exact ⟨none, r', rfl, spared, fun _ => free, nofun⟩
    | some sz =>
      obtain ⟨made, shows_, order, user⟩ := done sz rfl
      refine ⟨some { image with sz }, r', rfl, made.spared, nofun, ?_⟩
      rintro _ ⟨⟩
      refine ⟨user, shows_.mapped, fun before ph after split load x inside clear => ?_⟩
      have covered : ph.vaddr + x < sz := by
        have := below ph (by rw [split]; exact List.mem_append_right _ List.mem_cons_self) load
        omega
      have mapped : (ph.vaddr + x) / PGSIZE < pages sz := lt_pages.mpr ((Nat.div_mul_le_self _ _).trans_lt covered)
      have shown : peek r' image.pgdir (ph.vaddr + x) = data[ph.off + x]? := by
        rw [shows_.shown _ mapped, programImage, split, List.foldl_append, List.foldl_cons, foldl_segment_outside _ _ clear, segment,
          if_neg (by simpa using load), patch_inside (Nat.le_add_right ..) (by omega), Nat.add_sub_cancel_left]
      obtain ⟨pte, found⟩ := Option.ne_none_iff_exists'.mp ((shows_.mapped _).mpr mapped)
      have there : peek r' image.pgdir (ph.vaddr + x) = some (r'.data pte.frame ((ph.vaddr + x) % PGSIZE)) := by
        rw [peek, found]
        rfl
      exact ⟨_, shown.symm.trans there, there⟩

/-- A program of one segment of 5000 bytes at address 0, two of them in the file. -/
def twoBytes : List Byte :=
  [0x7f, 0x45, 0x4c, 0x46] ++ List.replicate 24 0 ++ [52, 0, 0, 0] ++ List.replicate 12 0 ++ [1, 0] ++ List.replicate 6 0 ++
    [1, 0, 0, 0] ++ [84, 0, 0, 0] ++ List.replicate 8 0 ++ [2, 0, 0, 0] ++ [0x88, 0x13, 0, 0] ++ List.replicate 8 0 ++ [5, 6]

theorem loader_safe_twoBytes :
    ∃ image r', loader Ram.parent (.ofBytes twoBytes) = .ok (some image, r') ∧ image.sz = 4 * PGSIZE ∧
      peek r' image.pgdir 1 = some 6 := by
  have high : ∀ f ∈ Ram.parent.mem.free, 10 ≤ f := fun f free => (List.mem_range'_1.mp free).1
  obtain ⟨loaded, r', ran, -, -, done⟩ := loader_safe Ram.parent twoBytes
    ⟨List.nodup_range', fun zero => absurd (high 0 zero) (by decide)⟩ (by decide)
  have size : (loader Ram.parent (.ofBytes twoBytes)).map (fun pair => pair.1.map Image.sz) = .ok (some (4 * PGSIZE)) := by
    decide +kernel
  rw [ran] at size
  cases loaded with
  | none => cases size
  | some image =>
    obtain ⟨-, -, segments⟩ := done image rfl
    obtain ⟨b, stored, shown⟩ := segments [] (proghdr ((twoBytes.drop 52).take 32)) [] rfl (by decide) 1 (by decide) nofun
    have six : b = 6 := Option.some.inj (stored.symm.trans (by decide))
    rw [six] at shown
    exact ⟨image, r', ran, Option.some.inj (Except.ok.inj size), shown⟩

end Xv6.Exec.Contents
